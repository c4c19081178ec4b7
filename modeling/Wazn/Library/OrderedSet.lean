import Mathlib.Data.Finset.Basic

/-!
# Ordered sets with a comparator on a key, and loops over hash sets

A `std::set` whose comparator compares one key of its elements holds at most one element per
key, in increasing order of keys. It is modelled as the list of its elements in order
(`Sorted`), and `insert` puts an element in at its place, or does nothing when an element with
the same key is there: two elements neither of which is less than the other are the same for the
set. `insert_eq_self` and `insert_perm` are the two cases; `eq_of_key_eq` says that a key names
one element, `mem_insert_erase` that an element changed in place by an erase and an insert is
there afterwards, and `erase_insert` that an element inserted at a fresh key is taken out again
by an erase.

Loops that insert or erase each item of a list into an unordered set are folds of
`Finset.insert` and `Finset.erase` (`mem_foldl_insert`, `mem_foldl_erase`).
-/

set_option autoImplicit false

namespace OrderedSet

variable {α κ : Type} [LinearOrder κ] (key : α → κ)

/-- The elements in strictly increasing order of their keys. -/
def Sorted (l : List α) : Prop := l.Pairwise fun a b => key a < key b

/-- `std::set::insert`: the element goes in before the first element of a greater key, unless an
element of the same key is there. -/
def insert (x : α) : List α → List α
  | [] => [x]
  | y :: ys =>
    if key x < key y then x :: y :: ys
    else if key y < key x then y :: insert x ys
    else y :: ys

variable {key}

theorem insert_nil (x : α) : insert key x [] = [x] := rfl

theorem insert_cons (x y : α) (ys : List α) :
    insert key x (y :: ys) =
      if key x < key y then x :: y :: ys
      else if key y < key x then y :: insert key x ys
      else y :: ys := rfl

/-- What `insert` holds is the new element or an old one. -/
theorem mem_insert {x a : α} : ∀ {l : List α}, a ∈ insert key x l → a = x ∨ a ∈ l
  | [], h => by
    rw [insert_nil, List.mem_singleton] at h
    exact Or.inl h
  | y :: ys, h => by
    rw [insert_cons] at h
    split_ifs at h with hxy hyx
    · rcases List.mem_cons.mp h with rfl | h
      · exact Or.inl rfl
      · exact Or.inr h
    · rcases List.mem_cons.mp h with rfl | h
      · exact Or.inr List.mem_cons_self
      · rcases mem_insert h with rfl | h
        · exact Or.inl rfl
        · exact Or.inr (List.mem_cons_of_mem y h)
    · exact Or.inr h

theorem sorted_insert (x : α) : ∀ {l : List α}, Sorted key l → Sorted key (insert key x l)
  | [], _ => List.pairwise_singleton _ x
  | y :: ys, hl => by
    obtain ⟨hy, hys⟩ := List.pairwise_cons.mp hl
    rw [insert_cons]
    split_ifs with hxy hyx
    · refine List.pairwise_cons.mpr ⟨?_, hl⟩
      intro z hz
      rcases List.mem_cons.mp hz with rfl | hz
      · exact hxy
      · exact lt_trans hxy (hy z hz)
    · refine List.pairwise_cons.mpr ⟨?_, sorted_insert x hys⟩
      intro z hz
      rcases mem_insert hz with rfl | hz
      · exact hyx
      · exact hy z hz
    · exact hl

/-- When an element of the same key is there, `insert` does nothing. -/
theorem insert_eq_self {x : α} :
    ∀ {l : List α}, Sorted key l → (∃ y ∈ l, key y = key x) → insert key x l = l
  | [], _, ⟨_, hy, _⟩ => absurd hy List.not_mem_nil
  | y :: ys, hl, ⟨z, hz, hzx⟩ => by
    obtain ⟨hy, hys⟩ := List.pairwise_cons.mp hl
    rw [insert_cons]
    split_ifs with hxy hyx
    · -- every key of the list is at least that of `y`, which is above that of `x`
      exfalso
      rcases List.mem_cons.mp hz with rfl | hz
      · rw [hzx] at hxy
        exact lt_irrefl _ hxy
      · have hyz := hy z hz
        rw [hzx] at hyz
        exact lt_asymm hxy hyz
    · rcases List.mem_cons.mp hz with rfl | hz
      · exact absurd hzx (ne_of_lt hyx)
      · rw [insert_eq_self hys ⟨z, hz, hzx⟩]
    · rfl

/-- When no element has its key, `insert` adds the element. -/
theorem insert_perm {x : α} :
    ∀ {l : List α}, (∀ y ∈ l, key y ≠ key x) → (insert key x l).Perm (x :: l)
  | [], _ => List.Perm.refl _
  | y :: ys, h => by
    rw [insert_cons]
    split_ifs with hxy hyx
    · exact List.Perm.refl _
    · have hrest := insert_perm fun z hz => h z (List.mem_cons_of_mem y hz)
      exact (hrest.cons y).trans (List.Perm.swap x y ys)
    · exact absurd (le_antisymm (not_lt.mp hyx) (not_lt.mp hxy)).symm (h y List.mem_cons_self)

/-- `insert` keeps every element that was there. -/
theorem mem_insert_of_mem {x a : α} : ∀ {l : List α}, a ∈ l → a ∈ insert key x l
  | [], h => absurd h List.not_mem_nil
  | y :: ys, h => by
    rw [insert_cons]
    split_ifs with hxy hyx
    · exact List.mem_cons_of_mem x h
    · rcases List.mem_cons.mp h with rfl | h
      · exact List.mem_cons_self
      · exact List.mem_cons_of_mem _ (mem_insert_of_mem h)
    · exact h

/-- In a sorted list a key names one element. -/
theorem eq_of_key_eq {a b : α} : ∀ {l : List α}, Sorted key l → a ∈ l → b ∈ l → key a = key b →
    a = b
  | [], _, ha, _, _ => absurd ha List.not_mem_nil
  | y :: ys, hl, ha, hb, hab => by
    obtain ⟨hy, hys⟩ := List.pairwise_cons.mp hl
    rcases List.mem_cons.mp ha with rfl | ha'
    · rcases List.mem_cons.mp hb with rfl | hb'
      · rfl
      · exact absurd hab (ne_of_lt (hy b hb'))
    · rcases List.mem_cons.mp hb with rfl | hb'
      · exact absurd hab.symm (ne_of_lt (hy a ha'))
      · exact eq_of_key_eq hys ha' hb' hab

/-- When no element has its key, what `insert` holds is the new element and the old ones. -/
theorem mem_insert_iff {x a : α} {l : List α} (h : ∀ y ∈ l, key y ≠ key x) :
    a ∈ insert key x l ↔ a = x ∨ a ∈ l :=
  (insert_perm h).mem_iff.trans List.mem_cons

instance (l : List α) : Decidable (Sorted key l) :=
  inferInstanceAs (Decidable (l.Pairwise fun a b => key a < key b))

/-- An element of a key above every key of the list goes in at the end. -/
theorem insert_of_forall_lt {x : α} :
    ∀ {l : List α}, (∀ y ∈ l, key y < key x) → insert key x l = l ++ [x]
  | [], _ => rfl
  | y :: ys, h => by
    have hy := h y List.mem_cons_self
    rw [insert_cons, if_neg (not_lt.mpr hy.le), if_pos hy,
      insert_of_forall_lt fun z hz => h z (List.mem_cons_of_mem y hz)]
    rfl

theorem Sorted.nodup {l : List α} (hl : Sorted key l) : l.Nodup :=
  hl.imp fun hab e => ne_of_lt hab (congrArg key e)

/-- What a sorted list holds after the element of a key is changed in place: taking it out and
inserting one of the same key. -/
theorem mem_insert_erase_iff [DecidableEq α] {l : List α} {x y a : α} (hl : Sorted key l)
    (hy : y ∈ l) (hxy : key x = key y) :
    a ∈ insert key x (l.erase y) ↔ a = x ∨ a ∈ l ∧ key a ≠ key y := by
  have hne : ∀ z ∈ l.erase y, key z ≠ key x := by
    intro z hz hzx
    obtain ⟨hzy, hz⟩ := (hl.nodup.mem_erase_iff).mp hz
    exact hzy (eq_of_key_eq hl hz hy (hzx.trans hxy))
  rw [mem_insert_iff hne, hl.nodup.mem_erase_iff]
  -- in `l`, the elements other than `y` are those of another key
  have hkey : a ∈ l → (a ≠ y ↔ key a ≠ key y) := fun ha =>
    ⟨fun hay hk => hay (eq_of_key_eq hl ha hy hk), fun hk hay => hk (congrArg key hay)⟩
  constructor
  · rintro (rfl | ⟨hay, ha⟩)
    · exact Or.inl rfl
    · exact Or.inr ⟨ha, (hkey ha).mp hay⟩
  · rintro (rfl | ⟨ha, hk⟩)
    · exact Or.inl rfl
    · exact Or.inr ⟨(hkey ha).mpr hk, ha⟩

theorem mem_insert_erase [DecidableEq α] {l : List α} {x y : α} (hl : Sorted key l) (hy : y ∈ l)
    (hxy : key x = key y) : x ∈ insert key x (l.erase y) :=
  (mem_insert_erase_iff hl hy hxy).mpr (Or.inl rfl)

/-- Erasing an element that `insert` added at a fresh key gives the list back. -/
theorem erase_insert [DecidableEq α] {x : α} :
    ∀ {l : List α}, (∀ y ∈ l, key y ≠ key x) → (insert key x l).erase x = l
  | [], _ => by simp [insert_nil]
  | y :: ys, h => by
    have hy : key y ≠ key x := h y List.mem_cons_self
    rw [insert_cons]
    split_ifs with hxy hyx
    · exact List.erase_cons_head x (y :: ys)
    · have hne : ¬(y == x) = true := fun e => hy (congrArg key (beq_iff_eq.mp e))
      rw [List.erase_cons_tail hne, erase_insert fun z hz => h z (List.mem_cons_of_mem y hz)]
    · exact absurd (le_antisymm (not_lt.mp hxy) (not_lt.mp hyx)) hy

/-! ## Loops over unordered sets -/

section Loops

variable {β : Type} [DecidableEq β]

/-- Erasing each item of a list from a set. -/
theorem mem_foldl_erase (a : β) :
    ∀ (l : List β) (s : Finset β), a ∈ l.foldl Finset.erase s ↔ a ∈ s ∧ a ∉ l
  | [], s => by simp
  | b :: l, s => by
    rw [List.foldl_cons, mem_foldl_erase a l, Finset.mem_erase, List.mem_cons]
    tauto

/-- Inserting each item of a list into a set. -/
theorem mem_foldl_insert (a : β) :
    ∀ (l : List β) (s : Finset β), a ∈ l.foldl (fun s b => Insert.insert b s) s ↔ a ∈ s ∨ a ∈ l
  | [], s => by simp
  | b :: l, s => by
    rw [List.foldl_cons, mem_foldl_insert a l, Finset.mem_insert, List.mem_cons]
    tauto

end Loops

end OrderedSet
