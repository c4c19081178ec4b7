import Mathlib.Data.List.Forall2
import Mathlib.Data.List.GetD

/-!
# Lists cut into fixed-size blocks

A block codec cuts its input into blocks of `k` items, `(l.drop (i * k)).take k` for each
full block `i`, treats each on its own, and concatenates what the blocks give. This file
says how such a cut and such a concatenation undo each other: the full blocks of a list
put back together are its prefix (`flatMap_range_drop_take`), and the blocks of a
concatenation of `k`-item pieces are the pieces (`drop_take_flatMap_range`,
`drop_flatMap_range`). A decoder that fails on a bad block is a `mapM` in `Option`, whose
success is stated item by item (`mapM_eq_some_iff`, `mapM_range_eq_some`).
-/

set_option autoImplicit false

namespace Blocks

variable {α β : Type}

/-! ## Cutting and concatenating -/

/-- The first `n` blocks of `k` items of a list, put back together, are its prefix of
`n * k` items. -/
theorem flatMap_range_drop_take (l : List α) (k : ℕ) :
    ∀ n, (List.range n).flatMap (fun i => (l.drop (i * k)).take k) = l.take (n * k)
  | 0 => by simp
  | n + 1 => by
    rw [List.range_succ, List.flatMap_append, flatMap_range_drop_take l k n, List.flatMap_singleton,
      Nat.succ_mul, List.take_add]

/-- A full block of `k` items has `k` items. -/
theorem length_drop_take {l : List α} {k i : ℕ} (hi : i < l.length / k) :
    ((l.drop (i * k)).take k).length = k := by
  have hk : 0 < k := Nat.pos_of_ne_zero fun h => by simp [h] at hi
  have hle : (i + 1) * k ≤ l.length := (Nat.le_div_iff_mul_le hk).1 hi
  rw [Nat.succ_mul] at hle
  rw [List.length_take, List.length_drop]
  omega

section Pieces

variable {k n : ℕ} {f : ℕ → List α}

/-- Concatenating `n` pieces of `k` items gives `n * k` items. -/
theorem length_flatMap_range (hf : ∀ i < n, (f i).length = k) :
    ((List.range n).flatMap f).length = n * k := by
  induction n with
  | zero => simp
  | succ n ih =>
    rw [List.range_succ, List.flatMap_append, List.length_append, List.flatMap_singleton,
      ih fun i hi => hf i (by omega), hf n (by omega), Nat.succ_mul]

/-- Past the `n` pieces of `k` items comes what was appended after them. -/
theorem drop_flatMap_range (hf : ∀ i < n, (f i).length = k) (rest : List α) :
    ((List.range n).flatMap f ++ rest).drop (n * k) = rest := by
  exact List.drop_left' (length_flatMap_range hf)

/-- Block `i` of a concatenation of pieces of `k` items is piece `i`. -/
theorem drop_take_flatMap_range (hf : ∀ i < n, (f i).length = k) (rest : List α) :
    ∀ i < n, (((List.range n).flatMap f ++ rest).drop (i * k)).take k = f i := by
  induction n generalizing rest with
  | zero => intro i hi; omega
  | succ n ih =>
    intro i hi
    have hf' : ∀ j < n, (f j).length = k := fun j hj => hf j (by omega)
    have hn : (f n).length = k := hf n (by omega)
    rw [List.range_succ, List.flatMap_append, List.flatMap_singleton, List.append_assoc]
    rcases Nat.lt_or_ge i n with hin | hin
    · exact ih hf' (f n ++ rest) i hin
    · -- the last piece
      rw [show i = n by omega, drop_flatMap_range hf', List.take_append_of_le_length (by omega),
        List.take_of_length_le (by omega)]

end Pieces

/-! ## Block loops that may fail -/

/-- A `mapM` in `Option` succeeds exactly when each call succeeds, with the results in
order. -/
theorem mapM_eq_some_iff {f : α → Option β} :
    ∀ {l : List α} {ys : List β}, l.mapM f = some ys ↔ List.Forall₂ (fun a b => f a = some b) l ys
  | [], ys => by
    cases ys with
    | nil => simp
    | cons y ys => simp
  | a :: l, ys => by
    rw [List.mapM_cons]
    cases hfa : f a with
    | none =>
      cases ys with
      | nil => simp
      | cons y ys => simp [hfa]
    | some b =>
      cases hl : l.mapM f with
      | none =>
        cases ys with
        | nil => simp
        | cons y ys =>
          have : ¬ List.Forall₂ (fun a b => f a = some b) l ys := by
            rw [← mapM_eq_some_iff, hl]
            simp
          simp [hfa, this]
      | some zs =>
        have hzs := mapM_eq_some_iff.1 hl
        cases ys with
        | nil => simp
        | cons y ys =>
          simp only [Option.bind_eq_bind, Option.bind_some, Option.pure_def, Option.some.injEq,
            List.cons.injEq, List.forall₂_cons, hfa]
          constructor
          · rintro ⟨rfl, rfl⟩
            exact ⟨rfl, hzs⟩
          · rintro ⟨rfl, h⟩
            have : l.mapM f = some ys := mapM_eq_some_iff.2 h
            rw [hl, Option.some.injEq] at this
            exact ⟨rfl, this⟩

/-- What a `mapM` in `Option` returns is undone by a left inverse of its calls. -/
theorem map_of_mapM_eq_some {f : α → Option β} {g : β → α} (hg : ∀ a b, f a = some b → g b = a)
    {l : List α} {ys : List β} (h : l.mapM f = some ys) : ys.map g = l := by
  have hf := mapM_eq_some_iff.1 h
  clear h
  induction hf with
  | nil => rfl
  | cons hab _ ih => rw [List.map_cons, hg _ _ hab, ih]

/-- Every result of a `mapM` in `Option` has the properties every result of a call has. -/
theorem forall_of_mapM_eq_some {f : α → Option β} {P : β → Prop} (hP : ∀ a b, f a = some b → P b)
    {l : List α} {ys : List β} (h : l.mapM f = some ys) : ∀ b ∈ ys, P b := by
  have hf := mapM_eq_some_iff.1 h
  clear h
  induction hf with
  | nil => simp
  | cons hab _ ih =>
    intro b hb
    rcases List.mem_cons.1 hb with rfl | hb
    · exact hP _ _ hab
    · exact ih b hb

/-- A `mapM` in `Option` whose every call succeeds returns the mapped list. -/
theorem mapM_eq_some_of_forall {f : α → Option β} {g : α → β} (l : List α)
    (h : ∀ a ∈ l, f a = some (g a)) : l.mapM f = some (l.map g) := by
  rw [mapM_eq_some_iff, List.forall₂_map_right_iff]
  exact List.forall₂_same.2 h

/-- A `mapM` over the block indices that succeeds returns, for each block, what the call
on it returned. -/
theorem mapM_range_eq_some {n : ℕ} {F : ℕ → Option β} {ys : List β}
    (h : (List.range n).mapM F = some ys) (d : β) :
    ys = (List.range n).map (fun i => ys.getD i d) ∧ ∀ i < n, F i = some (ys.getD i d) := by
  obtain ⟨hlen, hget⟩ := List.forall₂_iff_get.1 (mapM_eq_some_iff.1 h)
  rw [List.length_range] at hlen
  refine ⟨List.ext_getElem (by simp [hlen]) fun i h₁ h₂ => ?_, fun i hi => ?_⟩
  · rw [List.getElem_map, List.getElem_range, List.getD_eq_getElem _ _ h₁]
  · have := hget i (by simpa using hi) (by omega)
    simp only [List.get_eq_getElem, List.getElem_range] at this
    rw [this, List.getD_eq_getElem _ _ (by omega)]

end Blocks
