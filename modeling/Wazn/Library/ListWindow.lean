import Mathlib.Data.List.GetD
import Mathlib.Data.List.Sort

/-!
# Windows of a list

Code that keeps a window over a sequence reads a range of positions of a list, or writes
one. This file says what such reads and writes give: reading the positions of one part of
a concatenation gives that part back (`map_range'_getD_append`,
`map_range'_getD_append_left`), and writing the elements of a list one after the other at
the positions `N - 1`, `N - 2`, ... of a vector of length `N` fills its back with them in
order (`foldl_set_back`). A window that is sorted before it is read forgets the order in
which it was gathered: windows that are permutations of each other sort to the same list
(`insertionSort_eq_of_perm`). A list sorted by a key and cut at the first element whose key
reaches a bound keeps exactly the elements below the bound (`take_findIdx_eq_filter`).
-/

set_option autoImplicit false

namespace ListWindow

variable {α β : Type}

/-- Reading the positions of the second part of a concatenation reads that part. -/
theorem map_range'_getD_append {γ : Type} (l m : List α) (d : α) (g : α → γ) {a k : ℕ}
    (ha : l.length = a) (hk : m.length = k) :
    (List.range' a k).map (fun t => g ((l ++ m).getD t d)) = m.map g := by
  subst ha hk
  apply List.ext_getElem
  · simp
  · intro j h₁ h₂
    rw [List.getElem_map, List.getElem_map, List.getElem_range',
      List.getD_append_right _ _ _ _ (by omega), List.getD_eq_getElem _ _ (by simpa using h₂)]
    congr 2
    omega

/-- Reading positions of the first part of a concatenation reads that part. -/
theorem map_range'_getD_append_left {γ : Type} (l m : List α) (d : α) (g : α → γ) {a k : ℕ}
    (hk : a + k ≤ l.length) :
    (List.range' a k).map (fun t => g ((l ++ m).getD t d)) =
      (List.range' a k).map (fun t => g (l.getD t d)) := by
  apply List.map_congr_left
  intro t ht
  rw [List.mem_range'_1] at ht
  rw [List.getD_append _ _ _ _ (by omega)]

/-- Writing the elements of `l`, numbered from `n`, at the positions `N - 1 - n`,
`N - 2 - n`, ... of a vector `acc` of length `N` replaces the `l.length` positions that
end before position `N - n` by `l` reversed. -/
theorem foldl_set_back {N : ℕ} (g : α → β) :
    ∀ (l : List α) (n : ℕ) (acc : List β), acc.length = N → n + l.length ≤ N →
      (l.zipIdx n).foldl (fun acc p => acc.set (N - 1 - p.2) (g p.1)) acc =
        acc.take (N - n - l.length) ++ l.reverse.map g ++ acc.drop (N - n)
  | [], n, acc, _, _ => by simp
  | a :: l, n, acc, hlen, hn => by
    simp only [List.length_cons] at hn
    have hpos : N - 1 - n < acc.length := by omega
    -- the first write lands just before the part that later writes leave alone
    have hset : acc.set (N - 1 - n) (g a) =
        acc.take (N - 1 - n) ++ g a :: acc.drop (N - n) := by
      rw [List.set_eq_take_append_cons_drop, if_pos hpos]
      congr 3
      omega
    have hrest := foldl_set_back g l (n + 1) (acc.set (N - 1 - n) (g a)) (by simpa using hlen)
      (by omega)
    rw [List.zipIdx_cons, List.foldl_cons, hrest, hset]
    have htake : (acc.take (N - 1 - n) ++ g a :: acc.drop (N - n)).take (N - (n + 1) - l.length) =
        acc.take (N - n - (l.length + 1)) := by
      rw [List.take_append_of_le_length (by simp; omega), List.take_take]
      congr 1
      omega
    have hdrop : (acc.take (N - 1 - n) ++ g a :: acc.drop (N - n)).drop (N - (n + 1)) =
        g a :: acc.drop (N - n) := by
      rw [List.drop_append_of_le_length (by simp; omega), List.drop_eq_nil_of_le (by simp; omega),
        List.nil_append]
    rw [htake, hdrop]
    simp

/-- Cutting a list sorted by `f` at the first element with `f` at least `h` keeps exactly the
elements below `h`. -/
theorem take_findIdx_eq_filter (f : α → ℕ) (h : ℕ) :
    ∀ l : List α, (l.map f).Pairwise (· ≤ ·) →
      l.take (l.findIdx fun a => h ≤ f a) = l.filter fun a => f a < h
  | [], _ => rfl
  | a :: l, hs => by
    rw [List.map_cons, List.pairwise_cons] at hs
    rw [List.findIdx_cons]
    by_cases ha : h ≤ f a
    · -- every later element is at least `f a`, so none is below `h`
      have hnone : l.filter (fun b => f b < h) = [] := by
        rw [List.filter_eq_nil_iff]
        intro b hb
        have := hs.1 (f b) (List.mem_map_of_mem hb)
        simp only [decide_eq_true_eq]
        omega
      simp [ha, hnone]
    · have hlt : f a < h := by omega
      simp [ha, hlt, take_findIdx_eq_filter f h l hs.2]

section Sorting

variable (r : α → α → Prop) [DecidableRel r] [Std.Total r] [IsTrans α r] [Std.Antisymm r]

/-- Sorting by a total order gives the same list for two permutations of one window. -/
theorem insertionSort_eq_of_perm {l₁ l₂ : List α} (h : l₁.Perm l₂) :
    l₁.insertionSort r = l₂.insertionSort r := by
  have hperm : (l₁.insertionSort r).Perm (l₂.insertionSort r) :=
    ((List.perm_insertionSort r l₁).trans h).trans (List.perm_insertionSort r l₂).symm
  exact hperm.eq_of_pairwise' (List.pairwise_insertionSort r l₁) (List.pairwise_insertionSort r l₂)

end Sorting

end ListWindow
