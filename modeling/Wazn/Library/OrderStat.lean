import Mathlib.Data.List.Sort

/-!
# Order statistics of a list

Code that reads a median, or any fixed position of a sorted window, reads an order statistic:
the `k`-th smallest value. For a list sorted by a total preorder `r`, the value at position
`k` is below a bound `t` exactly when more than `k` values are (`lt_countP_of_getElem_le`,
`countP_le_of_not_getElem_le`). Counting is blind to the order of the list and moves the
right way when values are lowered (`countP_le_of_forall₂`), so lowering values lowers every
order statistic (`getElem_insertionSort_le_of_forall₂`): if each value of `l'` is below the
value at its position in `l`, the `k`-th smallest of `l'` is below the `k`-th smallest of `l`.
Replacing values by one value below all of them is such a lowering
(`forall₂_replicate_of_forall`).

A list that splits around a value `m`, the values before it below it and those after above it,
sorts into the two sides sorted with `m` between them (`insertionSort_eq_split`): `m` sits at
the position the length of the lower side gives.
-/

set_option autoImplicit false

namespace OrderStat

variable {α : Type} {r : α → α → Prop} [DecidableRel r] [IsTrans α r]

/-- A sorted list whose value at `k` is below `t` has its first `k + 1` values below `t`. -/
theorem lt_countP_of_getElem_le {s : List α} (hs : s.Pairwise r) {k : ℕ} (hk : k < s.length)
    {t : α} (hkt : r s[k] t) : k < s.countP fun x => r x t := by
  have hall : ∀ x ∈ s.take (k + 1), r x t := by
    intro x hx
    obtain ⟨j, hj, rfl⟩ := List.getElem_of_mem hx
    simp only [List.length_take] at hj
    rw [List.getElem_take]
    rcases Nat.lt_or_ge j k with hjk | hjk
    · exact IsTrans.trans _ _ _ (List.pairwise_iff_getElem.mp hs j k (by omega) hk hjk) hkt
    · have hjk : j = k := by omega
      subst hjk
      exact hkt
  calc k < (s.take (k + 1)).length := by simp; omega
    _ = (s.take (k + 1)).countP (fun x => r x t) :=
        (List.countP_eq_length.mpr (by simpa using hall)).symm
    _ ≤ s.countP fun x => r x t := (List.take_sublist _ _).countP_le

/-- A sorted list whose value at `k` is not below `t` has no value below `t` from `k` on. -/
theorem countP_le_of_not_getElem_le {s : List α} (hs : s.Pairwise r) {k : ℕ}
    (hk : k < s.length) {t : α} (hkt : ¬ r s[k] t) : (s.countP fun x => r x t) ≤ k := by
  have hnone : (s.drop k).countP (fun x => r x t) = 0 := by
    rw [List.countP_eq_zero]
    intro x hx hxt
    obtain ⟨j, hj, rfl⟩ := List.getElem_of_mem hx
    simp only [List.length_drop] at hj
    rw [List.getElem_drop] at hxt
    rcases Nat.lt_or_ge k (k + j) with hlt | hge
    · exact hkt (IsTrans.trans _ _ _
        (List.pairwise_iff_getElem.mp hs k (k + j) hk (by omega) hlt) (by simpa using hxt))
    · have hj0 : k + j = k := by omega
      simp only [hj0] at hxt
      exact hkt (by simpa using hxt)
  calc (s.countP fun x => r x t) =
        (s.take k).countP (fun x => r x t) + (s.drop k).countP (fun x => r x t) := by
        rw [← List.countP_append, List.take_append_drop]
    _ ≤ k := by
        rw [hnone]
        exact List.countP_le_length.trans (by simp)

/-- Each value of `l'` below the value at its position in `l`: whatever lies below a bound in
`l` has its partner below the bound in `l'`. -/
theorem countP_le_of_forall₂ {l' l : List α} (h : List.Forall₂ r l' l) (t : α) :
    (l.countP fun x => r x t) ≤ l'.countP fun x => r x t := by
  induction h with
  | nil => simp
  | @cons a b l' l hab _ ih =>
    rw [List.countP_cons, List.countP_cons]
    by_cases hbt : r b t
    · have hat : r a t := IsTrans.trans _ _ _ hab hbt
      simp only [hbt, hat, decide_true, if_true]
      omega
    · simp only [hbt, decide_false]
      exact ih.trans (Nat.le_add_right _ _)

omit [DecidableRel r] [IsTrans α r] in
/-- A value below every value of a list, repeated as often as the list is long. -/
theorem forall₂_replicate_of_forall {a : α} :
    ∀ {l : List α}, (∀ x ∈ l, r a x) → List.Forall₂ r (List.replicate l.length a) l
  | [], _ => .nil
  | b :: _, h => .cons (h b List.mem_cons_self)
      (forall₂_replicate_of_forall fun x hx => h x (List.mem_cons_of_mem _ hx))

variable [Std.Total r]

/-- Lowering values lowers every order statistic. -/
theorem getElem_insertionSort_le_of_forall₂ {l' l : List α} (h : List.Forall₂ r l' l) {k : ℕ}
    (hk' : k < (l'.insertionSort r).length) (hk : k < (l.insertionSort r).length) :
    r (l'.insertionSort r)[k] (l.insertionSort r)[k] := by
  set t := (l.insertionSort r)[k]
  by_contra hnot
  -- count the values below `t`: more than `k` in `l`, at most `k` in `l'`
  have h₁ : k < (l.insertionSort r).countP fun x => r x t :=
    lt_countP_of_getElem_le (List.pairwise_insertionSort r l) hk (refl_of r t)
  have h₂ := countP_le_of_not_getElem_le (List.pairwise_insertionSort r l') hk' hnot
  have h₃ : ((l.insertionSort r).countP fun x => r x t) ≤
      (l'.insertionSort r).countP fun x => r x t := by
    rw [(List.perm_insertionSort r l).countP_eq, (List.perm_insertionSort r l').countP_eq]
    exact countP_le_of_forall₂ h t
  omega

section Split

variable [Std.Antisymm r]

/-- A list made of values below `m`, then `m`, then values above `m` sorts into the sorted values
below, `m`, and the sorted values above. -/
theorem insertionSort_eq_split {l L U : List α} {m : α} (h : l.Perm (L ++ m :: U))
    (hL : ∀ x ∈ L, r x m) (hU : ∀ y ∈ U, r m y) :
    l.insertionSort r = L.insertionSort r ++ m :: U.insertionSort r := by
  have hmemL : ∀ x ∈ L.insertionSort r, x ∈ L := fun x hx =>
    (List.perm_insertionSort r L).mem_iff.mp hx
  have hmemU : ∀ y ∈ U.insertionSort r, y ∈ U := fun y hy =>
    (List.perm_insertionSort r U).mem_iff.mp hy
  have hsorted : (L.insertionSort r ++ m :: U.insertionSort r).Pairwise r := by
    rw [List.pairwise_append, List.pairwise_cons]
    refine ⟨List.pairwise_insertionSort r L,
      ⟨fun y hy => hU y (hmemU y hy), List.pairwise_insertionSort r U⟩, ?_⟩
    intro x hx y hy
    rcases List.mem_cons.mp hy with rfl | hy
    · exact hL x (hmemL x hx)
    · exact IsTrans.trans _ _ _ (hL x (hmemL x hx)) (hU y (hmemU y hy))
  have hperm : (l.insertionSort r).Perm (L.insertionSort r ++ m :: U.insertionSort r) :=
    (List.perm_insertionSort r l).trans (h.trans
      ((List.perm_insertionSort r L).symm.append ((List.perm_insertionSort r U).symm.cons m)))
  exact hperm.eq_of_pairwise' (List.pairwise_insertionSort r l) hsorted

end Split

end OrderStat
