import Mathlib.Data.List.Basic
import Wazn.Library.AssocList

/-!
# Maps from keys to positions in a list

A program that keeps a vector of records often keeps beside it a map from a key of each
record to the record's position, so that it can find a record without a scan. `Indexes m l
key q` says that the map `m` is exactly that for the records of `l` that `q` selects: it sends
the key of each selected record to its position, and has no other binding. The keys of the
selected records are then distinct (`Indexes.index_eq`).

The vector changes in three ways, and each has its rule for the map: a record pushed at the
back needs its key bound to the new position, when it is selected (`Indexes.push`); a record
updated in place with the same key and selection needs nothing (`Indexes.set`, `Indexes.map`);
cutting the vector at a position needs the keys of the cut records erased (`Indexes.take`),
and those keys are distinct and bound (`Indexes.nodup_droppedKeys`,
`Indexes.isSome_lookup_of_mem_droppedKeys`), so erasing them one by one never misses.
-/

set_option autoImplicit false

namespace IndexMap

variable {α κ : Type} [DecidableEq κ]

/-- `m` binds the key of each record of `l` selected by `q` to the record's position, and
nothing else. -/
def Indexes (m : List (κ × ℕ)) (l : List α) (key : α → κ) (q : α → Bool) : Prop :=
  ∀ k i, m.lookup k = some i ↔ ∃ hi : i < l.length, q l[i] = true ∧ key l[i] = k

variable {m : List (κ × ℕ)} {l : List α} {key : α → κ} {q : α → Bool}

theorem Indexes.lookup_of_getElem (h : Indexes m l key q) {i : ℕ} (hi : i < l.length)
    (hq : q l[i] = true) : m.lookup (key l[i]) = some i :=
  (h _ i).mpr ⟨hi, hq, rfl⟩

/-- Two selected records with one key are one record. -/
theorem Indexes.index_eq (h : Indexes m l key q) {i j : ℕ} (hi : i < l.length)
    (hj : j < l.length) (hqi : q l[i] = true) (hqj : q l[j] = true) (hkey : key l[i] = key l[j]) :
    i = j := by
  have hli := h.lookup_of_getElem hi hqi
  rw [hkey, h.lookup_of_getElem hj hqj, Option.some_inj] at hli
  exact hli.symm

theorem Indexes.lookup_eq_none (h : Indexes m l key q) {k : κ} :
    m.lookup k = none ↔ ∀ (i : ℕ) (hi : i < l.length), q l[i] = true → key l[i] ≠ k := by
  constructor
  · intro hnone i hi hq hk
    rw [← hk, h.lookup_of_getElem hi hq] at hnone
    exact Option.some_ne_none _ hnone
  · intro hall
    cases hlk : m.lookup k with
    | none => rfl
    | some i =>
      obtain ⟨hi, hq, hk⟩ := (h k i).mp hlk
      exact absurd hk (hall i hi hq)

omit [DecidableEq κ] in
/-- The positions of `l ++ [a]`: those of `l`, and `l.length` for `a`. -/
theorem exists_getElem_append_singleton (a : α) (P : α → Prop) (i : ℕ) :
    (∃ hi : i < (l ++ [a]).length, P (l ++ [a])[i]) ↔
      (∃ hi : i < l.length, P l[i]) ∨ (i = l.length ∧ P a) := by
  constructor
  · rintro ⟨hi, hP⟩
    rcases Nat.lt_or_ge i l.length with hlt | hge
    · exact Or.inl ⟨hlt, by rwa [List.getElem_append_left hlt] at hP⟩
    · have hieq : i = l.length := by simp at hi; omega
      subst hieq
      exact Or.inr ⟨rfl, by simpa using hP⟩
  · rintro (⟨hi, hP⟩ | ⟨rfl, hP⟩)
    · exact ⟨by simp; omega, by rwa [List.getElem_append_left hi]⟩
    · exact ⟨by simp, by simpa using hP⟩

/-- A record pushed at the back: its key, when it is selected, is bound to the new position. -/
theorem Indexes.push (h : Indexes m l key q) (a : α)
    (hfresh : q a = true → m.lookup (key a) = none) :
    Indexes (if q a then AssocList.insert (key a) l.length m else m) (l ++ [a]) key q := by
  intro k i
  rw [exists_getElem_append_singleton a (fun x => q x = true ∧ key x = k) i, ← h k i]
  by_cases hqa : q a = true
  · rw [if_pos hqa]
    by_cases hk : k = key a
    · -- the new key had no binding, so only the new record has it
      subst hk
      rw [AssocList.lookup_insert_self, hfresh hqa]
      simp [hqa, eq_comm]
    · rw [AssocList.lookup_insert_ne (Ne.symm hk)]
      simp [Ne.symm hk]
  · rw [if_neg hqa]
    simp [hqa]

/-- A record replaced in place by one with the same key and selection. -/
theorem Indexes.set (h : Indexes m l key q) {i : ℕ} (hi : i < l.length) (a : α)
    (hkey : key a = key l[i]) (hq : q a = q l[i]) : Indexes m (l.set i a) key q := by
  intro k j
  rw [h k j]
  constructor
  · rintro ⟨hj, hqj, hkj⟩
    refine ⟨by simpa using hj, ?_⟩
    by_cases hij : i = j
    · subst hij
      simpa [hkey, hq] using And.intro hqj hkj
    · simpa [List.getElem_set_ne hij] using And.intro hqj hkj
  · rintro ⟨hj, hqj, hkj⟩
    have hj' : j < l.length := by simpa using hj
    refine ⟨hj', ?_⟩
    by_cases hij : i = j
    · subst hij
      simp only [List.getElem_set_self] at hqj hkj
      exact ⟨hq ▸ hqj, hkey ▸ hkj⟩
    · simp only [List.getElem_set_ne hij] at hqj hkj
      exact ⟨hqj, hkj⟩

/-- Every record changed in place by a map that keeps keys and selection. -/
theorem Indexes.map (h : Indexes m l key q) (f : α → α) (hkey : ∀ a, key (f a) = key a)
    (hq : ∀ a, q (f a) = q a) : Indexes m (l.map f) key q := by
  intro k i
  rw [h k i]
  simp [hkey, hq]

/-- The keys of the selected records from position `n` on. -/
def droppedKeys (l : List α) (key : α → κ) (q : α → Bool) (n : ℕ) : List κ :=
  ((l.drop n).filter q).map key

omit [DecidableEq κ] in
theorem mem_droppedKeys {n : ℕ} {k : κ} :
    k ∈ droppedKeys l key q n ↔
      ∃ (i : ℕ) (hi : i < l.length), n ≤ i ∧ q l[i] = true ∧ key l[i] = k := by
  rw [droppedKeys, List.mem_map]
  constructor
  · rintro ⟨a, ha, rfl⟩
    obtain ⟨ha, hq⟩ := List.mem_filter.mp ha
    obtain ⟨j, hj, rfl⟩ := List.getElem_of_mem ha
    rw [List.length_drop] at hj
    exact ⟨n + j, by omega, by omega, by simpa using hq, by simp⟩
  · rintro ⟨i, hi, hni, hq, rfl⟩
    -- the record at `i` is the one at `i - n` after the first `n` are dropped
    have hidx : n + (i - n) = i := by omega
    have hlt : i - n < (l.drop n).length := by simp; omega
    have hdrop : (l.drop n)[i - n] = l[i] := by
      simp only [List.getElem_drop, hidx]
    refine ⟨l[i], List.mem_filter.mpr ⟨?_, hq⟩, rfl⟩
    rw [← hdrop]
    exact List.getElem_mem hlt

/-- The keys of the selected records from any position on are distinct. -/
theorem Indexes.nodup_droppedKeys (h : Indexes m l key q) (n : ℕ) :
    (droppedKeys l key q n).Nodup := by
  have hall : (l.filter q).Pairwise fun a b => key a ≠ key b := by
    rw [List.pairwise_filter, List.pairwise_iff_getElem]
    intro i j hi hj hij hqi hqj hkey
    have := h.index_eq hi hj hqi hqj hkey
    omega
  rw [droppedKeys, List.Nodup, List.pairwise_map]
  exact hall.sublist ((List.drop_sublist n l).filter q)

/-- The keys of the selected records from any position on are bound. -/
theorem Indexes.isSome_lookup_of_mem_droppedKeys (h : Indexes m l key q) {n : ℕ} {k : κ}
    (hk : k ∈ droppedKeys l key q n) : (m.lookup k).isSome := by
  obtain ⟨i, hi, -, hq, rfl⟩ := mem_droppedKeys.mp hk
  rw [h.lookup_of_getElem hi hq]
  rfl

/-- The vector cut at position `n`: the keys of the cut records are erased. -/
theorem Indexes.take (h : Indexes m l key q) (n : ℕ) :
    Indexes (m.filter fun p => p.1 ∉ droppedKeys l key q n) (l.take n) key q := by
  intro k i
  rw [AssocList.lookup_filter_not_mem]
  by_cases hk : k ∈ droppedKeys l key q n
  · rw [if_pos hk]
    obtain ⟨j, hj, hnj, hqj, rfl⟩ := mem_droppedKeys.mp hk
    simp only [reduceCtorEq, false_iff, List.length_take, List.getElem_take]
    rintro ⟨hi, hqi, hki⟩
    have := h.index_eq (by omega) hj hqi hqj hki
    omega
  · rw [if_neg hk, h k i]
    constructor
    · rintro ⟨hi, hq, hki⟩
      -- a selected record at or after `n` would have its key among the erased ones
      have hin : i < n := by
        by_contra hge
        exact hk (mem_droppedKeys.mpr ⟨i, hi, by omega, hq, hki⟩)
      exact ⟨by simp; omega, by simpa using hq, by simpa using hki⟩
    · rintro ⟨hi, hq, hki⟩
      simp only [List.length_take, List.getElem_take] at hi hq hki
      exact ⟨by omega, hq, hki⟩

end IndexMap
