import Mathlib.Data.List.Basic

/-!
# The transaction tree hash (`src/crypto/tree-hash.c`)

`tree_hash` computes the root of a block's transaction hashes in one buffer `ints` of `cnt`
slots, `cnt` the largest power of two below `count`: the first `2 * cnt - count` hashes are
copied in, the others hashed in pairs into the slots after them, and then, while more than two
slots are in use, each level is hashed in pairs into the first half of the slots. The last two
are hashed into the root. One and two hashes are handled apart.

Hashes are values of a type `α`; `cn_fast_hash` of the 64 bytes of two adjacent hashes is a
function `H`, and `calloc` fills the buffer with `default`. Each read of two adjacent hashes
and each write to a slot is checked: one past the end of its buffer makes the result `none`,
as a failed `assert` does. Each loop is given a number of rounds it may run; running out of them
is also `none`.
-/

set_option autoImplicit false

namespace Wazn

namespace Crypto

variable {α : Type}

/-- The loop of `tree_hash_cnt`: `pow` doubles while it is below `count`. -/
def treeHashCntLoop (count : ℕ) : ℕ → ℕ → Option ℕ
  | 0, pow => if pow < count then none else some pow
  | fuel + 1, pow => if pow < count then treeHashCntLoop count fuel (pow <<< 1) else some pow

/-- `tree_hash_cnt(count)`, for `3 ≤ count ≤ 2 ^ 28` as its asserts require. -/
def treeHashCnt (count : ℕ) : Option ℕ :=
  if 3 ≤ count ∧ count ≤ 0x10000000 then (treeHashCntLoop count count 2).map (· >>> 1)
  else none

/-- `cn_fast_hash` of the 64 bytes at slot `i` of a buffer: `H` of the two hashes there. -/
def hashPair (H : α → α → α) (buf : List α) (i : ℕ) : Option α := do
  let a ← buf[i]?
  let b ← buf[i + 1]?
  pure (H a b)

/-- A write of a hash to slot `j` of a buffer. -/
def writeSlot (buf : List α) (j : ℕ) (v : α) : Option (List α) :=
  if j < buf.length then some (buf.set j v) else none

/-- `memcpy(ints, hashes, n * HASH_SIZE)`: the first `n` hashes into the first `n` slots. -/
def memcpyHashes (ints hashes : List α) (n : ℕ) : Option (List α) :=
  if n ≤ ints.length ∧ n ≤ hashes.length then some (hashes.take n ++ ints.drop n) else none

/-- The loop of `tree_hash` that hashes the hashes from `i` on in pairs into the slots from
`j` to `cnt`: `i` and the buffer after it. -/
def leafPairsLoop (H : α → α → α) (hashes : List α) (cnt : ℕ) :
    ℕ → ℕ → ℕ → List α → Option (ℕ × List α)
  | 0, i, j, ints => if j < cnt then none else some (i, ints)
  | fuel + 1, i, j, ints =>
    if j < cnt then do
      let v ← hashPair H hashes i
      let ints ← writeSlot ints j v
      leafPairsLoop H hashes cnt fuel (i + 2) (j + 1) ints
    else some (i, ints)

/-- The inner loop of a level: the slots from `i` on hashed in pairs into the slots from `j`
to `cnt`, in the same buffer. -/
def levelPairsLoop (H : α → α → α) (cnt : ℕ) : ℕ → ℕ → ℕ → List α → Option (List α)
  | 0, _, j, ints => if j < cnt then none else some ints
  | fuel + 1, i, j, ints =>
    if j < cnt then do
      let v ← hashPair H ints i
      let ints ← writeSlot ints j v
      levelPairsLoop H cnt fuel (i + 2) (j + 1) ints
    else some ints

/-- `while (cnt > 2)`: halve `cnt` and hash the level into the first `cnt` slots. -/
def levelsLoop (H : α → α → α) : ℕ → ℕ → List α → Option (List α)
  | 0, cnt, ints => if 2 < cnt then none else some ints
  | fuel + 1, cnt, ints =>
    if 2 < cnt then do
      let ints ← levelPairsLoop H (cnt >>> 1) (cnt >>> 1) 0 0 ints
      levelsLoop H fuel (cnt >>> 1) ints
    else some ints

/-- `tree_hash(hashes, count, root_hash)`, `count` the number of hashes: the root. -/
def treeHash [Inhabited α] (H : α → α → α) (hashes : List α) : Option α :=
  let count := hashes.length
  if count = 0 then none
  else if count = 1 then hashes[0]?
  else if count = 2 then hashPair H hashes 0
  else do
    let cnt ← treeHashCnt count
    -- below zero, the `size_t` `2 * cnt - count` wraps past the end of both buffers
    if count ≤ 2 * cnt then
      let ints ← memcpyHashes (List.replicate cnt default) hashes (2 * cnt - count)
      let (i, ints) ← leafPairsLoop H hashes cnt cnt (2 * cnt - count) (2 * cnt - count) ints
      if i = count then
        let ints ← levelsLoop H cnt cnt ints
        hashPair H ints 0
      else none
    else none

end Crypto

end Wazn
