import Mathlib

/-!
# Perfect binary hash trees

A hash tree over `2 ^ k` leaves can be computed two ways: top down, hashing the roots of the
two halves (`perfectRoot`), or bottom up, hashing adjacent nodes in pairs level by level
(`pairUp`), which is how code that works in one buffer computes it. The two agree: one level of
pairing takes a tree of height `k + 1` to one of height `k` with the same root
(`perfectRoot_succ`). Pairing commutes with cutting a list at an even position
(`take_pairUp`, `drop_pairUp`), and a pair appended to an even prefix adds one node
(`pairUp_take_succ`).
-/

set_option autoImplicit false

namespace Merkle

variable {α : Type} (H : α → α → α)

/-- One level up: adjacent nodes hashed in pairs; an odd last node is kept as it is. -/
def pairUp : List α → List α
  | [] => []
  | [a] => [a]
  | a :: b :: rest => H a b :: pairUp rest

/-- The root of the perfect binary tree of height `k` over the `2 ^ k` leaves `l`: the hash of
the roots of its two halves. A tree of height 0 is its leaf. -/
def perfectRoot [Inhabited α] : ℕ → List α → α
  | 0, l => l.headD default
  | k + 1, l => H (perfectRoot k (l.take (2 ^ k))) (perfectRoot k (l.drop (2 ^ k)))

@[simp]
theorem pairUp_nil : pairUp H ([] : List α) = [] := rfl

@[simp]
theorem pairUp_singleton (a : α) : pairUp H [a] = [a] := rfl

@[simp]
theorem pairUp_cons_cons (a b : α) (rest : List α) :
    pairUp H (a :: b :: rest) = H a b :: pairUp H rest := rfl

theorem length_pairUp : ∀ l : List α, (pairUp H l).length = (l.length + 1) / 2
  | [] => by simp
  | [_] => by simp
  | a :: b :: rest => by
    rw [pairUp_cons_cons, List.length_cons, length_pairUp rest, List.length_cons,
      List.length_cons]
    omega

/-- The first `k` nodes of a level are those of the first `2 * k` below it. -/
theorem take_pairUp : ∀ (k : ℕ) (l : List α), (pairUp H l).take k = pairUp H (l.take (2 * k))
  | 0, l => by simp
  | _ + 1, [] => by simp
  | k + 1, [a] => by
    have hshort : [a].length ≤ 2 * (k + 1) := by
      rw [List.length_singleton]
      omega
    rw [pairUp_singleton, List.take_of_length_le (by simp), List.take_of_length_le hshort,
      pairUp_singleton]
  | k + 1, a :: b :: rest => by
    rw [pairUp_cons_cons, List.take_succ_cons, take_pairUp k rest,
      show 2 * (k + 1) = 2 * k + 1 + 1 by omega, List.take_succ_cons, List.take_succ_cons,
      pairUp_cons_cons]

/-- Past the first `k` nodes of a level are those past the first `2 * k` below it. -/
theorem drop_pairUp : ∀ (k : ℕ) (l : List α), (pairUp H l).drop k = pairUp H (l.drop (2 * k))
  | 0, l => by simp
  | _ + 1, [] => by simp
  | k + 1, [a] => by
    have hshort : [a].length ≤ 2 * (k + 1) := by
      rw [List.length_singleton]
      omega
    rw [pairUp_singleton, List.drop_of_length_le (by simp), List.drop_of_length_le hshort,
      pairUp_nil]
  | k + 1, a :: b :: rest => by
    rw [pairUp_cons_cons, List.drop_succ_cons, drop_pairUp k rest,
      show 2 * (k + 1) = 2 * k + 1 + 1 by omega, List.drop_succ_cons, List.drop_succ_cons]

/-- Pairing a list cut at an even position pairs the two parts apart. -/
theorem pairUp_append_of_even :
    ∀ (t : ℕ) (pre rest : List α), pre.length = 2 * t →
      pairUp H (pre ++ rest) = pairUp H pre ++ pairUp H rest
  | 0, [], rest, _ => rfl
  | t + 1, a :: b :: pre, rest, hlen => by
    rw [List.cons_append, List.cons_append, pairUp_cons_cons, pairUp_cons_cons, List.cons_append,
      pairUp_append_of_even t pre rest (by simp at hlen; omega)]

/-- The pairs of the first `2 * t + 2` nodes: those of the first `2 * t`, then one more. -/
theorem pairUp_take_succ {l : List α} {t : ℕ} (ht : 2 * t + 1 < l.length) :
    pairUp H (l.take (2 * t + 2)) = pairUp H (l.take (2 * t)) ++ [H l[2 * t] l[2 * t + 1]] := by
  have hsplit : l.take (2 * t + 2) = l.take (2 * t) ++ [l[2 * t], l[2 * t + 1]] := by
    rw [show 2 * t + 2 = 2 * t + 1 + 1 by omega, List.take_add_one, List.take_add_one,
      List.getElem?_eq_getElem (by omega), List.getElem?_eq_getElem ht]
    simp only [Option.toList_some, List.append_assoc, List.singleton_append]
  have hlen : (l.take (2 * t)).length = 2 * t := by
    rw [List.length_take]
    omega
  rw [hsplit, pairUp_append_of_even H t _ _ hlen, pairUp_cons_cons, pairUp_nil]

/-- One level of pairing keeps the root: the tree of height `k + 1` over `l` and the tree of
height `k` over the pairs of `l` have the same root. -/
theorem perfectRoot_succ [Inhabited α] :
    ∀ (k : ℕ) (l : List α), l.length = 2 ^ (k + 1) →
      perfectRoot H (k + 1) l = perfectRoot H k (pairUp H l)
  | 0, l, hl => by
    match l, hl with
    | [a, b], _ => rfl
  | k + 1, l, hl => by
    have htake : (l.take (2 ^ (k + 1))).length = 2 ^ (k + 1) := by
      rw [List.length_take, hl, Nat.pow_succ 2 (k + 1)]
      omega
    have hdrop : (l.drop (2 ^ (k + 1))).length = 2 ^ (k + 1) := by
      rw [List.length_drop, hl, Nat.pow_succ 2 (k + 1)]
      omega
    have hcut : 2 ^ (k + 1) = 2 * 2 ^ k := by rw [Nat.pow_succ, Nat.mul_comm]
    rw [perfectRoot, perfectRoot_succ k _ htake, perfectRoot_succ k _ hdrop, perfectRoot,
      take_pairUp, drop_pairUp, ← hcut]

end Merkle
