import Mathlib.Data.List.GetD
import Wazn.Model.GammaPicker

/-!
# Which block the decoy picker draws from

`pick` turns the sampled time into `t` outputs back and draws from the block `std::lower_bound`
finds for output `o = num_rct_outputs - 1 - t` among the first `end` offsets: the first block
whose cumulative count is at least `o` (`pick_spec`). Block `b` holds the outputs
`rct_offsets[b - 1] .. rct_offsets[b] - 1`, so when `o` is no cumulative count that is the
block of `o` (`pick_inBlock`). When `o` is one, `o = rct_offsets[c]`, it is the first output of
a later block, and `std::lower_bound` stops at the block that ends just before it: the output
picked is below `o`, in no block that holds `o` (`pick_boundary_precedingBlock`).
-/

set_option autoImplicit false

namespace Wazn

namespace Tools

open LowerBound

/-- The first output of block `b`, the number of outputs before it: `rct_offsets[b - 1]`, or
none before the first block. -/
def blockStart (rctOffsets : List ℕ) (b : ℕ) : ℕ :=
  if b = 0 then 0 else rctOffsets.getD (b - 1) 0

/-- Block `b` holds output `o`: `rct_offsets[b - 1] <= o < rct_offsets[b]`. -/
def InBlock (rctOffsets : List ℕ) (b o : ℕ) : Prop :=
  blockStart rctOffsets b ≤ o ∧ o < rctOffsets.getD b 0

instance (rctOffsets : List ℕ) (b o : ℕ) : Decidable (InBlock rctOffsets b o) :=
  inferInstanceAs (Decidable (_ ∧ _))

/-- What `pick` returns from block `b`: a bad pick for an empty block, and otherwise its output
`randIdx` draws. -/
def drawFrom (rctOffsets : List ℕ) (b : ℕ) (randIdx : ℕ → ℕ) : ℕ :=
  if rctOffsets.getD b 0 = blockStart rctOffsets b then badPick
  else blockStart rctOffsets b + randIdx (rctOffsets.getD b 0 - blockStart rctOffsets b)

section Offsets

variable {rctOffsets : List ℕ}

theorem getD_of_lt_length {i : ℕ} (h : i < rctOffsets.length) : rctOffsets.getD i 0 = rctOffsets[i] :=
  getD_default_of_lt h

/-- In sorted offsets, a block starts no later than it ends. -/
theorem blockStart_le (hsorted : rctOffsets.Pairwise (· ≤ ·)) {b : ℕ}
    (hb : b < rctOffsets.length) : blockStart rctOffsets b ≤ rctOffsets.getD b 0 := by
  unfold blockStart
  split_ifs with hzero
  · exact Nat.zero_le _
  · rw [getD_of_lt_length (by omega), getD_of_lt_length hb]
    exact le_of_sorted hsorted (by omega) hb

/-- The blocks of sorted offsets that hold an output equal to a cumulative count `rct_offsets[c]`
start at that count: they come after block `c`. -/
theorem blockStart_of_inBlock (hsorted : rctOffsets.Pairwise (· ≤ ·)) {b c : ℕ}
    (hc : c < rctOffsets.length) (hin : InBlock rctOffsets b (rctOffsets.getD c 0)) :
    blockStart rctOffsets b = rctOffsets.getD c 0 := by
  obtain ⟨hstart, hend⟩ := hin
  have hb : b < rctOffsets.length := by
    by_contra hb
    rw [List.getD_eq_default rctOffsets 0 (by omega : rctOffsets.length ≤ b)] at hend
    omega
  -- block `c` ends at the count, so a block that holds it comes after `c`
  have hcb : c < b := by
    by_contra hbc
    rw [getD_of_lt_length hc, getD_of_lt_length hb] at hend
    exact absurd (le_of_sorted hsorted (by omega) hc) (not_le.mpr hend)
  unfold blockStart at hstart ⊢
  rw [if_neg (by omega)] at hstart ⊢
  rw [getD_of_lt_length (by omega), getD_of_lt_length hc] at hstart ⊢
  exact Nat.le_antisymm hstart (le_of_sorted hsorted (by omega) (by omega))

/-- A block after blocks that all end below an output starts below it, unless it is the first. -/
theorem blockStart_lt_of_below {b o : ℕ} (hb : b ≤ rctOffsets.length)
    (hbelow : ∀ i (h : i < rctOffsets.length), i < b → rctOffsets[i] < o) :
    b = 0 ∨ blockStart rctOffsets b < o := by
  unfold blockStart
  split_ifs with hzero
  · exact Or.inl hzero
  · right
    rw [getD_of_lt_length (by omega)]
    exact hbelow (b - 1) (by omega) (by omega)

end Offsets

section Picker

variable {rctOffsets : List ℕ} {p : GammaPicker}

/-- What the constructor keeps: the offsets, and the range of spendable outputs, whose last
count is positive. -/
theorem gammaPicker_eq_ok (hp : gammaPicker rctOffsets = .ok p) :
    p.rctOffsets = rctOffsets ∧ cryptonoteDefaultTxSpendableAge < rctOffsets.length ∧
      p.endIdx = rctOffsets.length - cryptonoteDefaultTxSpendableAge ∧
      p.numRctOutputs = rctOffsets.getD (p.endIdx - 1) 0 ∧ 0 < p.numRctOutputs := by
  unfold gammaPicker at hp
  split at hp
  · cases hp
  · rename_i hlen
    dsimp only at hp
    split at hp
    · cases hp
    · rename_i hzero
      injection hp with hp
      subst hp
      exact ⟨rfl, by omega, rfl, rfl, Nat.pos_of_ne_zero hzero⟩

/-- The output `pick` aims at: `t` back from the newest spendable one, `t` the sampled time
over the average time between outputs. -/
def targetOutput (p : GammaPicker) (x : ℚ) : ℕ :=
  p.numRctOutputs - 1 - ⌊x / p.averageOutputTime⌋₊

theorem targetOutput_lt {x : ℚ} (hpos : 0 < p.numRctOutputs) : targetOutput p x < p.numRctOutputs := by
  unfold targetOutput
  omega

variable (hsorted : rctOffsets.Pairwise (· ≤ ·)) (hbound : ∀ v ∈ rctOffsets, v < 2 ^ 64)
  (hp : gammaPicker rctOffsets = .ok p)
variable {x : ℚ} (hA : 0 < p.averageOutputTime) (hx : x / p.averageOutputTime < 2 ^ 64)
  (ht : ⌊x / p.averageOutputTime⌋₊ < p.numRctOutputs)

include hsorted hp in
/-- The block `std::lower_bound` finds for the output `t` back from the newest spendable one lies
in the range searched; the blocks before it end below the output, and it ends at or past it. -/
theorem lowerBound_block :
    lowerBound rctOffsets 0 p.endIdx (targetOutput p x) < p.endIdx ∧
      (∀ i (h : i < rctOffsets.length), i < lowerBound rctOffsets 0 p.endIdx (targetOutput p x) →
        rctOffsets[i] < targetOutput p x) ∧
      targetOutput p x ≤ rctOffsets.getD (lowerBound rctOffsets 0 p.endIdx (targetOutput p x)) 0 := by
  obtain ⟨-, hlen, hend, hnum, hpos⟩ := gammaPicker_eq_ok hp
  have hlast : p.endIdx ≤ rctOffsets.length := by omega
  obtain ⟨-, hle, hbefore, hafter⟩ :=
    lowerBound_spec hsorted (targetOutput p x) (Nat.zero_le p.endIdx) hlast
  have hlt : lowerBound rctOffsets 0 p.endIdx (targetOutput p x) < p.endIdx := by
    by_contra hge
    -- the last count of the range, `num_rct_outputs`, is past the output
    have hlastBelow := hbefore (p.endIdx - 1) (by omega) (Nat.zero_le _) (by omega)
    rw [← getD_of_lt_length (by omega : p.endIdx - 1 < rctOffsets.length), ← hnum] at hlastBelow
    exact absurd hlastBelow (not_lt.mpr (Nat.le_of_lt (targetOutput_lt hpos)))
  refine ⟨hlt, fun i hi hib => hbefore i hi (Nat.zero_le i) hib, ?_⟩
  rw [getD_of_lt_length (by omega)]
  exact hafter _ (by omega) (Nat.le_refl _) hlt

include hA hx in
/-- A positive average time and a quotient in range: its conversion to `uint64_t` is defined. -/
theorem quotient_defined :
    ¬(p.averageOutputTime = 0 ∨ (2 ^ 64 : ℚ) ≤ x / p.averageOutputTime) := by
  rintro (hzero | hpast)
  · exact Nat.pos_iff_ne_zero.mp hA hzero
  · exact absurd hx (not_lt.mpr hpast)

include hsorted hbound hp hA hx ht in
/-- **What `pick` returns** for a sampled time in range: the draw from the block
`std::lower_bound` finds for the output it aims at. -/
theorem pick_spec {randIdx : ℕ → ℕ} (hrand : ∀ n, 0 < n → randIdx n < n) :
    p.pick x randIdx =
      some (.ok (drawFrom rctOffsets (lowerBound rctOffsets 0 p.endIdx (targetOutput p x))
        randIdx)) := by
  obtain ⟨hrct, hlen, hend, -, -⟩ := gammaPicker_eq_ok hp
  obtain ⟨hlt, -, -⟩ := lowerBound_block hsorted hp (x := x)
  unfold GammaPicker.pick
  rw [if_neg (quotient_defined hA hx), if_neg (not_le.mpr ht)]
  dsimp only
  rw [show p.numRctOutputs - 1 - ⌊x / p.averageOutputTime⌋₊ = targetOutput p x from rfl, hrct]
  generalize hb : lowerBound rctOffsets 0 p.endIdx (targetOutput p x) = b at hlt ⊢
  have hbl : b < rctOffsets.length := by omega
  -- the block's count is a `uint64_t` no smaller than its start, so nothing wraps
  have hle := blockStart_le hsorted hbl
  have hcount : rctOffsets.getD b 0 < 2 ^ 64 :=
    hbound _ (by rw [getD_of_lt_length hbl]; exact List.getElem_mem hbl)
  have hwrap : (rctOffsets.getD b 0 + 2 ^ 64 - blockStart rctOffsets b) % 2 ^ 64 =
      rctOffsets.getD b 0 - blockStart rctOffsets b := by omega
  rw [if_neg (Nat.ne_of_lt hlt), show (if b = 0 then 0 else rctOffsets.getD (b - 1) 0) =
    blockStart rctOffsets b from rfl, hwrap, drawFrom]
  by_cases hempty : rctOffsets.getD b 0 = blockStart rctOffsets b
  · rw [if_pos (by omega), if_pos hempty]
    rfl
  · have hdraw := hrand (rctOffsets.getD b 0 - blockStart rctOffsets b) (by omega)
    rw [if_neg (by omega), if_neg hempty, Nat.mod_eq_of_lt (by omega)]
    rfl

include hsorted hbound hp hA hx ht in
/-- When the output aimed at is no cumulative count, `pick` draws from the block that holds it. -/
theorem pick_inBlock {randIdx : ℕ → ℕ} (hrand : ∀ n, 0 < n → randIdx n < n)
    (hnot : ∀ c < p.endIdx, rctOffsets.getD c 0 ≠ targetOutput p x) :
    ∃ b i, p.pick x randIdx = some (.ok i) ∧ InBlock rctOffsets b (targetOutput p x) ∧
      InBlock rctOffsets b i := by
  obtain ⟨hlt, hbefore, hat⟩ := lowerBound_block hsorted hp (x := x)
  obtain ⟨-, hlen, hend, -, -⟩ := gammaPicker_eq_ok hp
  generalize hb : lowerBound rctOffsets 0 p.endIdx (targetOutput p x) = b at hlt hbefore hat
  have hstart : blockStart rctOffsets b ≤ targetOutput p x := by
    rcases blockStart_lt_of_below (by omega) hbefore with rfl | hlt'
    · exact Nat.zero_le _
    · exact Nat.le_of_lt hlt'
  have hin : InBlock rctOffsets b (targetOutput p x) :=
    ⟨hstart, Nat.lt_of_le_of_ne hat (hnot b hlt).symm⟩
  have hdraw := hrand (rctOffsets.getD b 0 - blockStart rctOffsets b) (by have := hin.2; omega)
  refine ⟨b, _, hb ▸ pick_spec hsorted hbound hp hA hx ht hrand, hin, ?_⟩
  unfold drawFrom
  rw [if_neg (by have := hin.2; omega)]
  exact ⟨Nat.le_add_right _ _, by omega⟩

include hsorted hbound hp hA hx ht in
/-- **The boundary case.** When the output aimed at is a cumulative count `rct_offsets[c]`, the
first output of a later block, `pick` draws an output below it, from the block that ends just
before it: in no block that holds the output aimed at. -/
theorem pick_boundary_precedingBlock {randIdx : ℕ → ℕ} (hrand : ∀ n, 0 < n → randIdx n < n)
    {c : ℕ} (hc : c < p.endIdx) (hboundary : rctOffsets.getD c 0 = targetOutput p x)
    (hpos : 0 < targetOutput p x) :
    ∃ i, p.pick x randIdx = some (.ok i) ∧ i < targetOutput p x ∧
      ∀ b, InBlock rctOffsets b (targetOutput p x) → ¬InBlock rctOffsets b i := by
  obtain ⟨hlt, hbefore, hat⟩ := lowerBound_block hsorted hp (x := x)
  obtain ⟨-, hlen, hend, -, -⟩ := gammaPicker_eq_ok hp
  have hcl : c < rctOffsets.length := by omega
  generalize hb : lowerBound rctOffsets 0 p.endIdx (targetOutput p x) = b at hlt hbefore hat
  -- the search stops at or before block `c`, whose count is the output aimed at
  have hbc : b ≤ c := by
    by_contra hcb
    have := hbefore c hcl (by omega)
    rw [← getD_of_lt_length hcl, hboundary] at this
    exact Nat.lt_irrefl _ this
  have hend' : rctOffsets.getD b 0 = targetOutput p x := by
    have hmono := le_of_sorted hsorted hbc hcl
    rw [← getD_of_lt_length hcl, ← getD_of_lt_length (by omega)] at hmono
    omega
  have hstart : blockStart rctOffsets b < targetOutput p x := by
    rcases blockStart_lt_of_below (by omega) hbefore with rfl | hlt'
    · exact hpos
    · exact hlt'
  have hdraw := hrand (rctOffsets.getD b 0 - blockStart rctOffsets b) (by omega)
  have hpick := hb ▸ pick_spec hsorted hbound hp hA hx ht hrand
  unfold drawFrom at hpick
  rw [if_neg (by omega)] at hpick
  refine ⟨_, hpick, by omega, fun b' hin hin' => ?_⟩
  -- a block that holds the output aimed at starts at it
  have hb' := blockStart_of_inBlock hsorted hcl (hboundary ▸ hin)
  have := hin'.1
  omega

end Picker

/-- Offsets of blocks of five outputs after an empty first one. -/
def fiveEachOffsets : List ℕ := [0, 5, 10, 15, 20, 25, 30, 35, 40, 45, 50, 55, 60]

/-- A sampled time of 104 seconds over an average of 26 aims at output 5, the first output of
block 2, and `pick` draws from block 1. -/
theorem pick_boundary_precedingBlock_fiveEach :
    (fiveEachOffsets.Pairwise (· ≤ ·) ∧ (∀ v ∈ fiveEachOffsets, v < 2 ^ 64) ∧
      gammaPicker fiveEachOffsets = .ok ⟨fiveEachOffsets, 3, 10, 26⟩ ∧
      0 < (⟨fiveEachOffsets, 3, 10, 26⟩ : GammaPicker).averageOutputTime ∧
      (104 : ℚ) / (26 : ℕ) < 2 ^ 64 ∧ ⌊(104 : ℚ) / (26 : ℕ)⌋₊ < 10 ∧
      (∀ n, 0 < n → (fun _ : ℕ => 0) n < n) ∧ 1 < 3 ∧
      fiveEachOffsets.getD 1 0 = targetOutput ⟨fiveEachOffsets, 3, 10, 26⟩ 104 ∧
      0 < targetOutput ⟨fiveEachOffsets, 3, 10, 26⟩ 104) ∧
    ∃ i, (⟨fiveEachOffsets, 3, 10, 26⟩ : GammaPicker).pick 104 (fun _ => 0) = some (.ok i) ∧
      i < targetOutput ⟨fiveEachOffsets, 3, 10, 26⟩ 104 ∧
      ∀ b, InBlock fiveEachOffsets b (targetOutput ⟨fiveEachOffsets, 3, 10, 26⟩ 104) →
        ¬InBlock fiveEachOffsets b i := by
  have htarget : targetOutput ⟨fiveEachOffsets, 3, 10, 26⟩ 104 = 5 := by norm_num [targetOutput]
  have hsorted : fiveEachOffsets.Pairwise (· ≤ ·) := by decide
  have hbound : ∀ v ∈ fiveEachOffsets, v < 2 ^ 64 := by decide
  have hp : gammaPicker fiveEachOffsets = .ok ⟨fiveEachOffsets, 3, 10, 26⟩ := rfl
  have hquot : (104 : ℚ) / (26 : ℕ) < 2 ^ 64 := by norm_num
  have hfloor : ⌊(104 : ℚ) / (26 : ℕ)⌋₊ < 10 := by norm_num
  have hrand : ∀ n, 0 < n → (fun _ : ℕ => 0) n < n := fun n hn => hn
  have hc : fiveEachOffsets.getD 1 0 = targetOutput ⟨fiveEachOffsets, 3, 10, 26⟩ 104 := by
    rw [htarget]
    rfl
  exact ⟨⟨hsorted, hbound, hp, by decide, hquot, hfloor, hrand, by decide, hc, by omega⟩,
    pick_boundary_precedingBlock hsorted hbound hp (by decide) hquot hfloor hrand
      (c := 1) (by decide) hc (by omega)⟩

end Tools

end Wazn
