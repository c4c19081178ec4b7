import Wazn.Model.Difficulty
import Wazn.Model.IntUtil
import Wazn.Model.CryptonoteBasic

/-!
# The proof-of-work check and the 64-bit difficulty (`difficulty.cpp`)

A block's hash meets a difficulty when the hash, read as a little-endian 256-bit number, times
the difficulty is below `2 ^ 256`. `check_hash` decides it in 128-bit difficulties with boost's
`uint512_t` (`check_hash_128`), or, for a difficulty that fits 64 bits, word by word
(`check_hash_64`): the top word's product first, then the carry out of the sum of the partial
products, which `cadd` and `cadc` take from wrap-around tests. `next_difficulty_64` is
`next_difficulty` for 64-bit cumulative difficulties, with an overflow test in place of the
wide arithmetic.

`mul` has two bodies chosen when the source is compiled: `mul128` on x86-64 and a portable one
from 32-bit limbs elsewhere. `MulImpl` names the choice, and the functions that call `mul`
take it as their first argument. The words of a hash are read by `swap64le` from its bytes in
little-endian order on either kind of host.
-/

set_option autoImplicit false

namespace Wazn

open Cryptonote IntUtil

/-- The portable `mul`: the product of two words from their 32-bit halves, as the low and the
high word. -/
def mulPortable (a b : UInt64) : UInt64 × UInt64 :=
  let aLow := a &&& 0xFFFFFFFF
  let aHigh := a >>> 32
  let bLow := b &&& 0xFFFFFFFF
  let bHigh := b >>> 32
  let res := aLow * bLow
  let lowRes1 := res &&& 0xFFFFFFFF
  let carry := res >>> 32
  let res := aHigh * bLow + carry
  let highResHigh1 := res >>> 32
  let highResLow1 := res &&& 0xFFFFFFFF
  let res := aLow * bHigh
  let lowRes2 := res &&& 0xFFFFFFFF
  let carry := res >>> 32
  let res := aHigh * bHigh + carry
  let highResHigh2 := res >>> 32
  let highResLow2 := res &&& 0xFFFFFFFF
  -- addition
  let r := highResLow1 + lowRes2
  let carry := r >>> 32
  let low := (r <<< 32) ||| lowRes1
  let r := highResHigh1 + highResLow2 + carry
  let d3 := r &&& 0xFFFFFFFF
  let carry := r >>> 32
  let r := highResHigh2 + carry
  let high := d3 ||| (r <<< 32)
  (low, high)

/-- The body of `mul` the source is compiled with. -/
inductive MulImpl
  | x86_64
  | portable
  deriving DecidableEq, Repr

/-- `mul(a, b, low, high)`: the low and the high word of the product. -/
def mul : MulImpl → UInt64 → UInt64 → UInt64 × UInt64
  | .x86_64, a, b => mul128 a b
  | .portable, a, b => mulPortable a b

/-- `cadd`: the carry out of `a + b`. -/
def cadd (a b : UInt64) : Bool := a + b < a

/-- `cadc`: the carry out of `a + b + c`. -/
def cadc (a b : UInt64) (c : Bool) : Bool := a + b < a || (c && a + b == 18446744073709551615)

/-- `swap64le(((const uint64_t *) &hash)[i])`: the `i`-th 8 bytes of a hash, little-endian. -/
def hashWord (hash : Hash) (i : ℕ) : UInt64 :=
  ((hash.toList.drop (8 * i)).take 8).foldr (fun byte word => (word <<< 8) ||| byte.toUInt64) 0

/-- `check_hash_64`. -/
def checkHash64 (impl : MulImpl) (hash : Hash) (difficulty : UInt64) : Bool :=
  -- first check the highest word, which most likely fails for a random hash
  let (top, high) := mul impl (hashWord hash 3) difficulty
  if high ≠ 0 then false
  else
    let (_, cur) := mul impl (hashWord hash 0) difficulty
    let (low, high) := mul impl (hashWord hash 1) difficulty
    let carry := cadd cur low
    let cur := high
    let (low, high) := mul impl (hashWord hash 2) difficulty
    let carry := cadc cur low carry
    let carry := cadc high top carry
    !carry

/-- `check_hash_128`, with `FORCE_FULL_128_BITS`: the hash as a `uint512_t` from its four words,
the highest first, times the difficulty, at most `2 ^ 256 - 1`. -/
def checkHash128 (hash : Hash) (difficulty : DifficultyType) : Bool :=
  let hashVal := (List.range 4).foldl
    (fun hashVal i => (hashVal <<< 64) ||| (hashWord hash (3 - i)).toNat) 0
  decide (hashVal * difficulty.toNat ≤ 2 ^ 256 - 1)

/-- `check_hash`: the 64-bit check for a difficulty that fits 64 bits, else the 128-bit one. -/
def checkHash (impl : MulImpl) (hash : Hash) (difficulty : DifficultyType) : Bool :=
  if difficulty.toNat ≤ 2 ^ 64 - 1 then checkHash64 impl hash (UInt64.ofNat difficulty.toNat)
  else checkHash128 hash difficulty

/-- `next_difficulty_64`: `next_difficulty` on 64-bit cumulative difficulties, which returns 0
when the product of the work and the target does not fit 64 bits, or when rounding it up
would wrap. -/
def nextDifficulty64 (impl : MulImpl) (timestamps cumulativeDifficulties : List UInt64)
    (targetSeconds : UInt64) : UInt64 :=
  let (timestamps, cumulativeDifficulties) :=
    if timestamps.length > difficultyWindow then
      (vectorResize timestamps difficultyWindow 0,
        vectorResize cumulativeDifficulties difficultyWindow 0)
    else (timestamps, cumulativeDifficulties)
  let length := timestamps.length
  if length ≤ 1 then 1
  else
    let timestamps := timestamps.insertionSort (· ≤ ·)
    let (cutBegin, cutEnd) :=
      if length ≤ difficultyWindow - 2 * difficultyCut then (0, length)
      else
        let cutBegin := (length - (difficultyWindow - 2 * difficultyCut) + 1) / 2
        (cutBegin, cutBegin + (difficultyWindow - 2 * difficultyCut))
    let timeSpan := timestamps.getD (cutEnd - 1) 0 - timestamps.getD cutBegin 0
    let timeSpan := if timeSpan = 0 then 1 else timeSpan
    let totalWork := cumulativeDifficulties.getD (cutEnd - 1) 0 -
      cumulativeDifficulties.getD cutBegin 0
    let (low, high) := mul impl totalWork targetSeconds
    if high ≠ 0 ∨ low + timeSpan - 1 < low then 0
    else (low + timeSpan - 1) / timeSpan

end Wazn
