import Wazn.Library.Merkle
import Wazn.Model.TreeHash

/-!
# `tree_hash` computes the Merkle root

For `count` hashes, `cnt` the largest power of two below `count` (one for a single hash),
`tree_hash` is the root of the perfect binary tree over `cnt` leaves: the first
`2 * cnt - count` hashes, then the others hashed in pairs (`treeHashLeaves`). Every read and
write stays in its buffer (`treeHash_eq_perfectRoot`).

Each loop is proved by a run lemma over its rounds, stating the buffer after `t` rounds:
the leaf loop has written `t` pairs after the copied hashes (`leafPairsLoop_run`); a level's
loop has written the first `t` pairs of the level into its first `t` slots and left the slots
after them as they were, so the pairs it reads later are still there (`levelPairsLoop_run`).
Each level keeps the root (`Merkle.perfectRoot_succ`), so the last two slots hash to the root
of the leaves (`levelsLoop_run`).
-/

set_option autoImplicit false

namespace Wazn

namespace Crypto

open Merkle

variable {α : Type}

/-- The height of the tree over `count` hashes: `cnt = 2 ^ treeHashHeight count`. -/
def treeHashHeight (count : ℕ) : ℕ := Nat.log2 (count - 1)

/-- The leaves of the tree `tree_hash` computes: the first `2 * cnt - count` hashes, then the
others hashed in pairs. -/
def treeHashLeaves (H : α → α → α) (hashes : List α) : List α :=
  let cnt := 2 ^ treeHashHeight hashes.length
  hashes.take (2 * cnt - hashes.length) ++ pairUp H (hashes.drop (2 * cnt - hashes.length))

/-- `cnt` is the largest power of two below `count`. -/
theorem treeHashHeight_spec (count : ℕ) (h2 : 2 ≤ count) :
    2 ^ treeHashHeight count < count ∧ count ≤ 2 * 2 ^ treeHashHeight count := by
  have hlow := Nat.log2_self_le (n := count - 1) (by omega)
  have hhigh := Nat.lt_log2_self (n := count - 1)
  rw [Nat.pow_succ] at hhigh
  unfold treeHashHeight
  omega

theorem one_le_treeHashHeight {count : ℕ} (h3 : 3 ≤ count) : 1 ≤ treeHashHeight count := by
  have hhigh := Nat.lt_log2_self (n := count - 1)
  unfold treeHashHeight
  by_contra hzero
  rw [show Nat.log2 (count - 1) = 0 by omega] at hhigh
  omega

/-! ## `tree_hash_cnt` -/

/-- From `2 ^ e`, the loop doubles up to the first power of two not below `count`. -/
theorem treeHashCntLoop_pow {count k : ℕ} (hlow : 2 ^ k < count) (hhigh : count ≤ 2 ^ (k + 1)) :
    ∀ (fuel e : ℕ), e ≤ k + 1 → k + 1 ≤ e + fuel →
      treeHashCntLoop count fuel (2 ^ e) = some (2 ^ (k + 1)) := by
  -- a power of two below `count` is at most `2 ^ k`
  have hbelow : ∀ e, 2 ^ e < count → e ≤ k := fun e he => by
    by_contra hek
    have := Nat.pow_le_pow_right (n := 2) (by omega) (show k + 1 ≤ e by omega)
    omega
  intro fuel
  induction fuel with
  | zero =>
    intro e he hfuel
    rw [treeHashCntLoop, show e = k + 1 by omega, if_neg (by omega)]
  | succ fuel ih =>
    intro e he hfuel
    rw [treeHashCntLoop]
    split_ifs with hlt
    · rw [Nat.shiftLeft_eq, Nat.pow_one, ← Nat.pow_succ]
      exact ih (e + 1) (by have := hbelow e hlt; omega) (by omega)
    · have : k < e := by
        by_contra hek
        have := Nat.pow_le_pow_right (n := 2) (by omega) (show e ≤ k by omega)
        omega
      rw [show e = k + 1 by omega]

theorem treeHashCnt_eq {count : ℕ} (h3 : 3 ≤ count) (hmax : count ≤ 0x10000000) :
    treeHashCnt count = some (2 ^ treeHashHeight count) := by
  obtain ⟨hlow, hhigh⟩ := treeHashHeight_spec count (by omega)
  have hfuel : treeHashHeight count < count :=
    Nat.lt_trans Nat.lt_two_pow_self hlow
  have hloop := treeHashCntLoop_pow hlow (by rw [Nat.pow_succ]; omega) count 1
    (by omega) (by omega)
  rw [treeHashCnt, if_pos ⟨h3, hmax⟩, show (2 : ℕ) = 2 ^ 1 from rfl, hloop, Option.map_some,
    Nat.shiftRight_eq_div_pow, Nat.pow_succ, Nat.pow_one, Nat.mul_div_cancel _ (by omega)]

/-- The count of the block the original `tree_hash_cnt` got wrong. -/
example : treeHashCnt 514 = some 512 := by decide

/-! ## The buffer -/

theorem hashPair_eq (H : α → α → α) {buf : List α} {i : ℕ} (h : i + 1 < buf.length) :
    hashPair H buf i = some (H buf[i] buf[i + 1]) := by
  rw [hashPair, List.getElem?_eq_getElem (by omega), List.getElem?_eq_getElem h]
  rfl

/-- Writing the slot after a prefix replaces the element there. -/
theorem writeSlot_append_cons (pre rest : List α) (a v : α) :
    writeSlot (pre ++ a :: rest) pre.length v = some (pre ++ v :: rest) := by
  rw [writeSlot, if_pos (by simp), List.set_append_right _ _ (Nat.le_refl _), Nat.sub_self,
    List.set_cons_zero]

/-- The leaf loop after `t` of its `m` rounds: the copied hashes, `t` pairs, and the slots
still zero. -/
theorem leafPairsLoop_run [Inhabited α] (H : α → α → α) (pre : List α) {rest : List α} {m : ℕ}
    (hrest : rest.length = 2 * m) :
    ∀ (fuel t : ℕ), t ≤ m → m - t ≤ fuel →
      leafPairsLoop H (pre ++ rest) (pre.length + m) fuel (pre.length + 2 * t) (pre.length + t)
          (pre ++ pairUp H (rest.take (2 * t)) ++ List.replicate (m - t) default) =
        some (pre.length + 2 * m, pre ++ pairUp H rest) := by
  have hdone : ∀ t, m ≤ t →
      pre ++ pairUp H (rest.take (2 * t)) ++ List.replicate (m - t) default = pre ++ pairUp H rest :=
    fun t hmt => by
      rw [List.take_of_length_le (by omega), show m - t = 0 by omega, List.replicate_zero,
        List.append_nil]
  intro fuel
  induction fuel with
  | zero =>
    intro t ht hfuel
    rw [leafPairsLoop, if_neg (by omega), hdone t (by omega), show t = m by omega]
  | succ fuel ih =>
    intro t ht hfuel
    rw [leafPairsLoop]
    split_ifs with hround
    · -- a round: the pair at `2 * t` of the rest into the slot after the `t` pairs so far
      have hpairs : (pairUp H (rest.take (2 * t))).length = t := by
        rw [length_pairUp, List.length_take]
        omega
      have hread : hashPair H (pre ++ rest) (pre.length + 2 * t) =
          some (H rest[2 * t] rest[2 * t + 1]) := by
        rw [hashPair_eq H (by simp; omega), List.getElem_append_right (by omega),
          List.getElem_append_right (by omega)]
        simp only [Nat.add_sub_cancel_left, show pre.length + 2 * t + 1 - pre.length = 2 * t + 1 by
          omega]
      have hwrite : writeSlot (pre ++ pairUp H (rest.take (2 * t)) ++ List.replicate (m - t) default)
          (pre.length + t) (H rest[2 * t] rest[2 * t + 1]) =
          some (pre ++ pairUp H (rest.take (2 * (t + 1))) ++ List.replicate (m - (t + 1)) default) := by
        rw [show m - t = m - (t + 1) + 1 by omega, List.replicate_succ, List.append_assoc,
          show pre.length + t = (pre ++ pairUp H (rest.take (2 * t))).length by simp [hpairs],
          ← List.append_assoc, writeSlot_append_cons, show 2 * (t + 1) = 2 * t + 2 by omega,
          pairUp_take_succ H (by omega)]
        simp only [List.append_assoc, List.singleton_append]
      simp only [hread, hwrite, Option.bind_eq_bind, Option.bind_some]
      rw [show pre.length + 2 * t + 2 = pre.length + 2 * (t + 1) by omega,
        show pre.length + t + 1 = pre.length + (t + 1) by omega]
      exact ih (t + 1) (by omega) (by omega)
    · rw [hdone t (by omega), show t = m by omega]

/-- A level's loop after `t` of its `c` rounds: the first `t` pairs of the level, then the
level from slot `t` on as it was. -/
theorem levelPairsLoop_run (H : α → α → α) {nodes : List α} (junk : List α) {c : ℕ}
    (hnodes : nodes.length = 2 * c) :
    ∀ (fuel t : ℕ), t ≤ c → c - t ≤ fuel →
      levelPairsLoop H c fuel (2 * t) t (pairUp H (nodes.take (2 * t)) ++ nodes.drop t ++ junk) =
        some (pairUp H nodes ++ nodes.drop c ++ junk) := by
  have hdone : ∀ t, c ≤ t → pairUp H (nodes.take (2 * t)) = pairUp H nodes :=
    fun t hct => by rw [List.take_of_length_le (by omega)]
  intro fuel
  induction fuel with
  | zero =>
    intro t ht hfuel
    rw [levelPairsLoop, if_neg (by omega), hdone t (by omega), show t = c by omega]
  | succ fuel ih =>
    intro t ht hfuel
    rw [levelPairsLoop]
    split_ifs with hround
    · have hpairs : (pairUp H (nodes.take (2 * t))).length = t := by
        rw [length_pairUp, List.length_take]
        omega
      -- slots `2 * t` and `2 * t + 1` are past the `t` written, so they still hold the level
      have hslot : ∀ s, t ≤ s → (hsn : s < nodes.length) →
          (pairUp H (nodes.take (2 * t)) ++ nodes.drop t ++ junk)[s]? = some nodes[s] := by
        intro s hs hsn
        rw [List.append_assoc, List.getElem?_append_right (by omega),
          List.getElem?_append_left (by simp; omega), List.getElem?_drop, hpairs,
          show t + (s - t) = s by omega, List.getElem?_eq_getElem hsn]
      have hread : hashPair H (pairUp H (nodes.take (2 * t)) ++ nodes.drop t ++ junk) (2 * t) =
          some (H nodes[2 * t] nodes[2 * t + 1]) := by
        rw [hashPair, hslot (2 * t) (by omega) (by omega), hslot (2 * t + 1) (by omega) (by omega)]
        rfl
      have hwrite : writeSlot (pairUp H (nodes.take (2 * t)) ++ nodes.drop t ++ junk) t
          (H nodes[2 * t] nodes[2 * t + 1]) =
          some (pairUp H (nodes.take (2 * (t + 1))) ++ nodes.drop (t + 1) ++ junk) := by
        have hslotT := writeSlot_append_cons (pairUp H (nodes.take (2 * t)))
          (nodes.drop (t + 1) ++ junk) nodes[t] (H nodes[2 * t] nodes[2 * t + 1])
        rw [hpairs] at hslotT
        rw [List.drop_eq_getElem_cons (by omega), List.append_assoc, List.cons_append, hslotT,
          show 2 * (t + 1) = 2 * t + 2 by omega, pairUp_take_succ H (by omega)]
        simp only [List.append_assoc, List.cons_append, List.nil_append]
      simp only [hread, hwrite, Option.bind_eq_bind, Option.bind_some]
      rw [show 2 * t + 2 = 2 * (t + 1) by omega]
      exact ih (t + 1) (by omega) (by omega)
    · rw [hdone t (by omega), show t = c by omega]

/-- The levels above `2 ^ (m + 1)` nodes: the first two slots end with the two halves' roots. -/
theorem levelsLoop_run [Inhabited α] (H : α → α → α) :
    ∀ (m fuel : ℕ) (nodes junk : List α), nodes.length = 2 ^ (m + 1) → m ≤ fuel →
      ∃ a b rest, levelsLoop H fuel (2 ^ (m + 1)) (nodes ++ junk) = some (a :: b :: rest) ∧
        H a b = perfectRoot H (m + 1) nodes := by
  intro m
  induction m with
  | zero =>
    intro fuel nodes junk hnodes _
    match nodes, hnodes with
    | [a, b], _ =>
      refine ⟨a, b, junk, ?_, rfl⟩
      cases fuel <;> rfl
  | succ m ih =>
    intro fuel nodes junk hnodes hfuel
    obtain ⟨fuel, rfl⟩ : ∃ f, fuel = f + 1 := ⟨fuel - 1, by omega⟩
    have hhalf : 2 ^ (m + 1 + 1) >>> 1 = 2 ^ (m + 1) := by
      rw [Nat.shiftRight_eq_div_pow, Nat.pow_succ 2 (m + 1), Nat.pow_one,
        Nat.mul_div_cancel _ (by omega)]
    have hlevel := levelPairsLoop_run H junk (c := 2 ^ (m + 1))
      (by rw [hnodes, Nat.pow_succ 2 (m + 1), Nat.mul_comm]) (2 ^ (m + 1)) 0 (by omega) (by omega)
    rw [Nat.mul_zero, List.take_zero, pairUp_nil, List.drop_zero, List.nil_append] at hlevel
    have hpaired : (pairUp H nodes).length = 2 ^ (m + 1) := by
      rw [length_pairUp, hnodes, Nat.pow_succ 2 (m + 1)]
      omega
    obtain ⟨a, b, rest, hrun, hroot⟩ := ih fuel (pairUp H nodes) (nodes.drop (2 ^ (m + 1)) ++ junk)
      hpaired (by omega)
    refine ⟨a, b, rest, ?_, by rw [hroot, perfectRoot_succ H (m + 1) nodes hnodes]⟩
    rw [levelsLoop, if_pos (by rw [Nat.pow_succ]; have := Nat.one_le_two_pow (n := m + 1); omega),
      hhalf]
    simp only [hlevel, Option.bind_eq_bind, Option.bind_some, List.append_assoc]
    exact hrun

/-! ## The root -/

/-- From three hashes on, the buffer computation. -/
theorem treeHash_of_three_le [Inhabited α] (H : α → α → α) {hashes : List α}
    (h3 : 3 ≤ hashes.length) (hmax : hashes.length ≤ 0x10000000) :
    treeHash H hashes =
      some (perfectRoot H (treeHashHeight hashes.length) (treeHashLeaves H hashes)) := by
  obtain ⟨hlow, hhigh⟩ := treeHashHeight_spec hashes.length (by omega)
  obtain ⟨m, hm⟩ : ∃ m, treeHashHeight hashes.length = m + 1 :=
    ⟨treeHashHeight hashes.length - 1, by have := one_le_treeHashHeight h3; omega⟩
  -- the names of the source: `cnt` slots, the first `2 * cnt - count` hashes copied
  generalize hcnt : 2 ^ treeHashHeight hashes.length = cnt at hlow hhigh
  set n := 2 * cnt - hashes.length with hn
  have hpre : (hashes.take n).length = n := by rw [List.length_take]; omega
  have hrest : (hashes.drop n).length = 2 * (cnt - n) := by rw [List.length_drop]; omega
  have hleaves : treeHashLeaves H hashes = hashes.take n ++ pairUp H (hashes.drop n) := by
    rw [treeHashLeaves, hcnt]
  have hmemcpy : memcpyHashes (List.replicate cnt default) hashes n =
      some (hashes.take n ++ List.replicate (cnt - n) default) := by
    rw [memcpyHashes, if_pos ⟨by simp; omega, by omega⟩, List.drop_replicate]
  have hleaf := leafPairsLoop_run H (hashes.take n) hrest cnt 0 (Nat.zero_le _)
    (by omega)
  rw [List.take_append_drop, hpre, show n + (cnt - n) = cnt by omega, Nat.mul_zero,
    Nat.add_zero, show n + 2 * (cnt - n) = hashes.length by omega, List.take_zero, pairUp_nil,
    List.append_nil, Nat.sub_zero] at hleaf
  have hnodes : (hashes.take n ++ pairUp H (hashes.drop n)).length = 2 ^ (m + 1) := by
    rw [List.length_append, hpre, length_pairUp, hrest, ← hm, hcnt]
    omega
  obtain ⟨a, b, rest, hlevels, hroot⟩ :=
    levelsLoop_run H m cnt _ [] hnodes
      (by rw [← hcnt, hm]; have := Nat.lt_two_pow_self (n := m + 1); omega)
  rw [List.append_nil, ← hm, hcnt] at hlevels
  rw [treeHash, if_neg (by omega), if_neg (by omega), if_neg (by omega), treeHashCnt_eq h3 hmax,
    hcnt]
  simp only [Option.bind_eq_bind, Option.bind_some, if_pos hhigh]
  rw [← hn, hmemcpy, Option.bind_some, hleaf, Option.bind_some]
  simp only [if_true, hlevels, Option.bind_some, hleaves, hm, ← hroot]
  rfl

/-- **`tree_hash` is the Merkle root.** For `1 ≤ count ≤ 2 ^ 28` hashes, the first
`2 * cnt - count` pass up as they are, the other `2 * (count - cnt)` are hashed in pairs, and
the `cnt` nodes are combined as a perfect binary tree, `cnt` being `tree_hash_cnt(count)`, the
largest power of two below `count`; no read or write leaves its buffer. -/
theorem treeHash_eq_perfectRoot [Inhabited α] (H : α → α → α) (hashes : List α)
    (hpos : 1 ≤ hashes.length) (hmax : hashes.length ≤ 0x10000000) :
    treeHash H hashes =
        some (perfectRoot H (treeHashHeight hashes.length) (treeHashLeaves H hashes)) ∧
      (treeHashLeaves H hashes).length = 2 ^ treeHashHeight hashes.length ∧
      (hashes.drop (2 * 2 ^ treeHashHeight hashes.length - hashes.length)).length =
        2 * (hashes.length - 2 ^ treeHashHeight hashes.length) ∧
      (3 ≤ hashes.length →
        treeHashCnt hashes.length = some (2 ^ treeHashHeight hashes.length) ∧
          2 ^ treeHashHeight hashes.length < hashes.length ∧
          hashes.length ≤ 2 * 2 ^ treeHashHeight hashes.length) := by
  match hashes, hpos with
  | [a], _ => exact ⟨rfl, rfl, rfl, fun h => absurd h (by simp)⟩
  | [a, b], _ => exact ⟨rfl, rfl, rfl, fun h => absurd h (by simp)⟩
  | a :: b :: c :: rest, _ =>
    have h3 : 3 ≤ (a :: b :: c :: rest).length := by simp
    obtain ⟨hlow, hhigh⟩ := treeHashHeight_spec (a :: b :: c :: rest).length (by omega)
    refine ⟨treeHash_of_three_le H h3 hmax, ?_, ?_, fun _ => ⟨treeHashCnt_eq h3 hmax, hlow, hhigh⟩⟩
    · rw [treeHashLeaves, List.length_append, List.length_take, length_pairUp, List.length_drop]
      omega
    · rw [List.length_drop]
      omega

/-- Three hashes: the first is a leaf of its own, the other two are hashed together. -/
theorem treeHash_eq_perfectRoot_threeHashes :
    let H : ℕ → ℕ → ℕ := fun a b => 3 * a + b
    let hashes : List ℕ := [1, 2, 3]
    (1 ≤ hashes.length ∧ hashes.length ≤ 0x10000000) ∧
      treeHash H hashes =
          some (perfectRoot H (treeHashHeight hashes.length) (treeHashLeaves H hashes)) ∧
        (treeHashLeaves H hashes).length = 2 ^ treeHashHeight hashes.length ∧
        (hashes.drop (2 * 2 ^ treeHashHeight hashes.length - hashes.length)).length =
          2 * (hashes.length - 2 ^ treeHashHeight hashes.length) ∧
        (3 ≤ hashes.length →
          treeHashCnt hashes.length = some (2 ^ treeHashHeight hashes.length) ∧
            2 ^ treeHashHeight hashes.length < hashes.length ∧
            hashes.length ≤ 2 * 2 ^ treeHashHeight hashes.length) :=
  ⟨⟨by decide, by decide⟩, treeHash_eq_perfectRoot _ _ (by decide) (by decide)⟩

end Crypto

end Wazn
