import Wazn.Library.ListWindow
import Wazn.Library.OrderStat

/-!
# Medians (`epee/misc_language.h`)

`epee::misc_utils::median` sorts a vector in place and reads its middle: the middle value
of an odd number of values, and `get_mid` of the two middle ones of an even number. The
chain takes medians of block timestamps (the timestamp check) and of block weights (the
block reward and the fee). `std::sort` leaves the vector in sorted order, which is the
order `List.insertionSort` gives, whichever algorithm gets there.

What a median depends on is the multiset of its window (`median_eq_of_perm`), and it moves
with the window's values: lowering values never raises it (`median_le_median_of_forall₂`),
and it stays within a bound on them (`median_le_of_forall_le`).
-/

set_option autoImplicit false

namespace Wazn

namespace MiscUtils

/-- `get_mid`: the mean of two numbers, computed without overflow. -/
def getMid (a b : UInt64) : UInt64 :=
  a / 2 + b / 2 + ((a - 2 * (a / 2)) + (b - 2 * (b / 2))) / 2

/-- `median`: a value-initialised zero for an empty vector, the value of a vector of one,
and otherwise the middle of the sorted vector. -/
def median (v : List UInt64) : UInt64 :=
  if v.isEmpty then 0
  else if v.length = 1 then v.headD 0
  else
    let n := v.length / 2
    let v := v.insertionSort (· ≤ ·)
    if v.length % 2 ≠ 0 then v.getD n 0
    else getMid (v.getD (n - 1) 0) (v.getD n 0)

/-- The median of a vector does not depend on the order of its values. -/
theorem median_eq_of_perm {v w : List UInt64} (h : v.Perm w) : median v = median w := by
  have hlen : v.length = w.length := h.length_eq
  have hsort : v.insertionSort (· ≤ ·) = w.insertionSort (· ≤ ·) :=
    ListWindow.insertionSort_eq_of_perm _ h
  unfold median
  by_cases hv : v.length = 1
  · -- a vector of one is a permutation of itself only
    obtain ⟨a, rfl⟩ := List.length_eq_one_iff.mp hv
    rw [List.perm_singleton.mp h.symm]
  · have hempty : v.isEmpty = w.isEmpty := by
      rw [Bool.eq_iff_iff, List.isEmpty_iff_length_eq_zero, List.isEmpty_iff_length_eq_zero, hlen]
    rw [hempty, if_neg (by omega : ¬ v.length = 1), if_neg (by omega : ¬ w.length = 1), hlen,
      hsort]

/-- `get_mid` is the floor of the mean: the two halves and the carry of the low bits never
overflow. -/
theorem toNat_getMid (a b : UInt64) : (getMid a b).toNat = (a.toNat + b.toNat) / 2 := by
  have ha := a.toNat_lt
  have hb := b.toNat_lt
  simp only [getMid, UInt64.toNat_add, UInt64.toNat_sub, UInt64.toNat_mul, UInt64.toNat_div]
  simp
  omega

/-- `get_mid` does not depend on the order of its two arguments. -/
theorem getMid_comm (a b : UInt64) : getMid a b = getMid b a := by
  unfold getMid
  rw [UInt64.add_comm (a / 2), UInt64.add_comm (a - 2 * (a / 2))]

theorem getMid_le_getMid {a a' b b' : UInt64} (ha : a ≤ a') (hb : b ≤ b') :
    getMid a b ≤ getMid a' b' := by
  rw [UInt64.le_iff_toNat_le] at ha hb ⊢
  rw [toNat_getMid, toNat_getMid]
  omega

theorem getMid_le {a b c : UInt64} (ha : a ≤ c) (hb : b ≤ c) : getMid a b ≤ c := by
  rw [UInt64.le_iff_toNat_le] at ha hb ⊢
  rw [toNat_getMid]
  omega

/-- Lowering values lowers each position of the sorted vector, padding included. -/
theorem getD_insertionSort_le_of_forall₂ {v' v : List UInt64} (h : List.Forall₂ (· ≤ ·) v' v)
    (k : ℕ) : (v'.insertionSort (· ≤ ·)).getD k 0 ≤ (v.insertionSort (· ≤ ·)).getD k 0 := by
  have hlen : (v'.insertionSort (· ≤ ·)).length = (v.insertionSort (· ≤ ·)).length := by
    simp [h.length_eq]
  by_cases hk : k < (v.insertionSort (· ≤ ·)).length
  · rw [List.getD_eq_getElem _ _ (hlen ▸ hk), List.getD_eq_getElem _ _ hk]
    exact OrderStat.getElem_insertionSort_le_of_forall₂ h _ _
  · rw [List.getD_eq_default _ _ (by omega), List.getD_eq_default _ _ (by omega)]
    exact UInt64.le_refl 0

/-- Lowering values of a vector never raises its median. -/
theorem median_le_median_of_forall₂ {v' v : List UInt64} (h : List.Forall₂ (· ≤ ·) v' v) :
    median v' ≤ median v := by
  have hlen : v'.length = v.length := h.length_eq
  have hsort := getD_insertionSort_le_of_forall₂ h
  unfold median
  by_cases hv : v.length = 1
  · -- a vector of one: its only value
    obtain ⟨a, rfl⟩ := List.length_eq_one_iff.mp hv
    obtain ⟨a', rfl⟩ := List.length_eq_one_iff.mp (hlen.trans hv)
    simpa using h
  · have hempty : v'.isEmpty = v.isEmpty := by
      rw [Bool.eq_iff_iff, List.isEmpty_iff_length_eq_zero, List.isEmpty_iff_length_eq_zero, hlen]
    simp only [hempty, hlen, hv, if_false, List.length_insertionSort]
    split_ifs
    · exact UInt64.le_refl 0
    · exact hsort _
    · exact getMid_le_getMid (hsort _) (hsort _)

/-- The median of values below a bound is below it. -/
theorem median_le_of_forall_le {v : List UInt64} {c : UInt64} (h : ∀ x ∈ v, x ≤ c) :
    median v ≤ c := by
  -- every position of the sorted vector holds a value of `v`, or the padding zero
  have hsort : ∀ k, (v.insertionSort (· ≤ ·)).getD k 0 ≤ c := by
    intro k
    rw [List.getD_eq_getElem?_getD]
    cases hk : (v.insertionSort (· ≤ ·))[k]? with
    | none => exact UInt64.zero_le
    | some x => exact h x ((List.perm_insertionSort _ v).subset (List.mem_of_getElem? hk))
  unfold median
  dsimp only
  split_ifs with h0 h1
  · exact UInt64.zero_le
  · cases v with
    | nil => exact UInt64.zero_le
    | cons a l => exact h a List.mem_cons_self
  · exact hsort _
  · exact getMid_le (hsort _) (hsort _)

end MiscUtils

end Wazn
