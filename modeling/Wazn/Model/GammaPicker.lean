import Mathlib.Data.Rat.Floor
import Wazn.Library.LowerBound
import Wazn.Model.Difficulty

/-!
# The decoy picker (`src/wallet/wallet2.cpp`)

`gamma_picker` picks the decoys of a ring. It draws an age from a gamma distribution, takes its
exponential as a time in seconds, turns that time into a number of outputs back from the newest
spendable one by the average time between outputs, finds with `std::lower_bound` the block of
that output among the cumulative output counts `rct_offsets`, and picks an output of that block
uniformly.

The draw is not modelled: `pick` takes the value `x` of `exp` of the gamma sample, a double and
so a rational number, and the values `crypto::rand_idx` returns as a function `randIdx`. The
double quotient `x / average_output_time` is taken exactly. `average_output_time` is a double
that holds the `size_t` quotient `DIFFICULTY_TARGET_V2 * blocks_to_consider /
outputs_to_consider`, a natural number. The quotient's conversion to `uint64_t` is undefined
when it is infinite (an average time of zero, which is also what a zero `outputs_to_consider`
gives here) or past `2 ^ 64`, and `pick` gives `none` there. Offsets are `uint64_t` values,
natural numbers below `2 ^ 64`, and the differences the code takes of them wrap modulo `2 ^ 64`.
-/

set_option autoImplicit false

namespace Wazn

namespace Tools

open LowerBound

/-- `CRYPTONOTE_DEFAULT_TX_SPENDABLE_AGE`. -/
def cryptonoteDefaultTxSpendableAge : ℕ := 10

/-- What the constructor of `gamma_picker` keeps: the offsets, the index `end` of the range it
searches, the number of RingCT outputs, and the average time between outputs. -/
structure GammaPicker where
  rctOffsets : List ℕ
  endIdx : ℕ
  numRctOutputs : ℕ
  averageOutputTime : ℕ
  deriving DecidableEq, Repr

/-- `gamma_picker(rct_offsets, shape, scale)`: the range of spendable outputs and the average
time between the outputs of the last year's blocks. -/
def gammaPicker (rctOffsets : List ℕ) : Except String GammaPicker :=
  if rctOffsets.length ≤ cryptonoteDefaultTxSpendableAge then throw "Bad offset calculation"
  else
    let blocksInAYear := 86400 * 365 / difficultyTargetV2
    let blocksToConsider := min rctOffsets.length blocksInAYear
    let outputsToConsider := (rctOffsets.getLastD 0 + 2 ^ 64 -
      (if blocksToConsider < rctOffsets.length then
        rctOffsets.getD (rctOffsets.length - blocksToConsider - 1) 0
      else 0)) % 2 ^ 64
    let endIdx := rctOffsets.length - cryptonoteDefaultTxSpendableAge
    let numRctOutputs := rctOffsets.getD (endIdx - 1) 0
    if numRctOutputs = 0 then throw "No rct outputs"
    else
      -- `size_t` arithmetic: the quotient is rounded down before it is stored in a double
      pure ⟨rctOffsets, endIdx, numRctOutputs,
        difficultyTargetV2 * blocksToConsider / outputsToConsider⟩

/-- `std::numeric_limits<uint64_t>::max()`, what `pick` returns for a bad pick. -/
def badPick : ℕ := 2 ^ 64 - 1

/-- `gamma_picker::pick()`, with `x` the value of `exp` of the gamma sample and `randIdx n` the
value of `crypto::rand_idx(n)`: `none` where the conversion of the quotient is undefined. -/
def GammaPicker.pick (p : GammaPicker) (x : ℚ) (randIdx : ℕ → ℕ) : Option (Except String ℕ) :=
  if p.averageOutputTime = 0 ∨ (2 ^ 64 : ℚ) ≤ x / p.averageOutputTime then none
  else
    let outputIndex := ⌊x / p.averageOutputTime⌋₊
    if p.numRctOutputs ≤ outputIndex then some (pure badPick)
    else
      let outputIndex := p.numRctOutputs - 1 - outputIndex
      let index := lowerBound p.rctOffsets 0 p.endIdx outputIndex
      if index = p.endIdx then some (throw "output_index not found")
      else
        let firstRct := if index = 0 then 0 else p.rctOffsets.getD (index - 1) 0
        let nRct := (p.rctOffsets.getD index 0 + 2 ^ 64 - firstRct) % 2 ^ 64
        if nRct = 0 then some (pure badPick)
        else some (pure ((firstRct + randIdx nRct) % 2 ^ 64))

end Tools

end Wazn
