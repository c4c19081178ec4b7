import Mathlib.Data.List.Basic

/-!
# Association lists

A table keyed by id is a list of pairs read with `List.lookup`, which finds the first pair
of a key. Removing the pairs of one key (`List.filter`, `erase`) hides that key and leaves every
other key's lookup as it was (`lookup_filter_ne`, `lookup_filter_self`); removing the pairs of
several keys hides exactly those (`lookup_filter_not_mem`); a key that is looked up has a pair
in the list (`mem_of_lookup_eq_some`). `insert` is the assignment `m[k] = v` of a map.
-/

set_option autoImplicit false

namespace AssocList

variable {α β : Type} [DecidableEq α]

theorem lookup_filter_ne {a b : α} (h : a ≠ b) :
    ∀ l : List (α × β), (l.filter (·.1 != a)).lookup b = l.lookup b
  | [] => rfl
  | p :: l => by
    have ih := lookup_filter_ne h l
    obtain ⟨k, v⟩ := p
    by_cases hp : k = a
    · subst hp
      have hpb : (b == k) = false := beq_eq_false_iff_ne.mpr (Ne.symm h)
      simp only [List.filter_cons, bne_self_eq_false, Bool.false_eq_true, if_false, ih,
        List.lookup_cons, hpb]
    · have hka : (k != a) = true := bne_iff_ne.mpr hp
      simp only [List.filter_cons, hka, if_true, List.lookup_cons, ih]

@[simp] theorem lookup_filter_self (a : α) :
    ∀ l : List (α × β), (l.filter (·.1 != a)).lookup a = none
  | [] => rfl
  | p :: l => by
    have ih := lookup_filter_self a l
    by_cases hp : p.1 = a
    · simp [hp, ih]
    · obtain ⟨k, v⟩ := p
      simp only at hp
      have hpa : (a == k) = false := by
        rw [beq_eq_false_iff_ne]
        exact Ne.symm hp
      simp [hp, List.lookup_cons, hpa, ih]

theorem mem_of_lookup_eq_some {a : α} {b : β} :
    ∀ {l : List (α × β)}, l.lookup a = some b → (a, b) ∈ l
  | [], h => by simp at h
  | (k, v) :: l, h => by
    by_cases hk : a = k
    · subst hk
      simp only [List.lookup_cons, beq_self_eq_true, Option.some.injEq] at h
      subst h
      exact List.mem_cons_self
    · have hne : (a == k) = false := beq_eq_false_iff_ne.mpr hk
      simp only [List.lookup_cons, hne] at h
      exact List.mem_cons_of_mem _ (mem_of_lookup_eq_some h)

/-- The assignment `m[a] = b`: the old pair of `a` goes, the new one comes first. -/
def insert (a : α) (b : β) (l : List (α × β)) : List (α × β) :=
  (a, b) :: l.filter (·.1 != a)

/-- `m.erase(a)`. -/
def erase (a : α) (l : List (α × β)) : List (α × β) :=
  l.filter (·.1 != a)

@[simp] theorem lookup_insert_self (a : α) (b : β) (l : List (α × β)) :
    (insert a b l).lookup a = some b := by
  simp [insert]

theorem lookup_insert_ne {a c : α} (h : a ≠ c) (b : β) (l : List (α × β)) :
    (insert a b l).lookup c = l.lookup c := by
  have hca : (c == a) = false := beq_eq_false_iff_ne.mpr (Ne.symm h)
  rw [insert, List.lookup_cons, hca]
  exact lookup_filter_ne h l

@[simp] theorem lookup_erase_self (a : α) (l : List (α × β)) : (erase a l).lookup a = none :=
  lookup_filter_self a l

theorem lookup_erase_ne {a c : α} (h : a ≠ c) (l : List (α × β)) :
    (erase a l).lookup c = l.lookup c :=
  lookup_filter_ne h l

theorem lookup_filter_not_mem (ks : List α) (c : α) :
    ∀ l : List (α × β), (l.filter fun p => p.1 ∉ ks).lookup c = if c ∈ ks then none else l.lookup c
  | [] => by simp
  | (k, v) :: l => by
    have ih := lookup_filter_not_mem ks c l
    by_cases hk : k ∈ ks
    · have hne : c ≠ k ∨ c ∈ ks := by
        by_cases hck : c = k
        · exact Or.inr (hck ▸ hk)
        · exact Or.inl hck
      rw [List.filter_cons_of_neg (by simpa using hk), ih]
      rcases hne with hck | hc
      · have hbeq : (c == k) = false := beq_eq_false_iff_ne.mpr hck
        simp [List.lookup_cons, hbeq]
      · simp [hc]
    · rw [List.filter_cons_of_pos (by simpa using hk), List.lookup_cons, List.lookup_cons, ih]
      by_cases hck : c = k
      · subst hck
        simp [hk]
      · have hbeq : (c == k) = false := beq_eq_false_iff_ne.mpr hck
        simp [hbeq]

/-- Erasing one key after another is erasing them all. -/
theorem filter_not_mem_erase (a : α) (ks : List α) (l : List (α × β)) :
    (erase a l).filter (fun p => p.1 ∉ ks) = l.filter fun p => p.1 ∉ a :: ks := by
  rw [erase, List.filter_filter]
  congr 1
  funext p
  by_cases h : p.1 = a <;> simp [h]

end AssocList
