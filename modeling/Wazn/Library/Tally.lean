import Mathlib.Logic.Function.Basic
import Mathlib.Data.List.Count

/-!
# Tallies kept beside a list

A tally is one counter per value, stored next to a list so that the number of
occurrences of a value can be read without walking the list. Code that does this
must update the counters on every change of the list, and the two only agree if
every path does so. This file states the agreement (`Tallies`) and the counter
updates that keep it when the list is used as a double-ended queue: push or pop at
either end, and reset.
-/

set_option autoImplicit false

namespace Tally

variable {α : Type} [DecidableEq α]

/-- `h` tallies `l`: the counter of every value is its number of occurrences. -/
def Tallies (h : α → ℕ) (l : List α) : Prop :=
  ∀ a, h a = l.count a

/-- The counters after one more occurrence of `a`. -/
def bump (h : α → ℕ) (a : α) : α → ℕ :=
  Function.update h a (h a + 1)

/-- The counters after one occurrence of `a` less. -/
def unbump (h : α → ℕ) (a : α) : α → ℕ :=
  Function.update h a (h a - 1)

@[simp] theorem bump_self (h : α → ℕ) (a : α) : bump h a a = h a + 1 := by
  simp [bump]

@[simp] theorem bump_of_ne (h : α → ℕ) {a b : α} (hb : b ≠ a) : bump h a b = h b := by
  simp [bump, Function.update_of_ne hb]

@[simp] theorem unbump_self (h : α → ℕ) (a : α) : unbump h a a = h a - 1 := by
  simp [unbump]

@[simp] theorem unbump_of_ne (h : α → ℕ) {a b : α} (hb : b ≠ a) : unbump h a b = h b := by
  simp [unbump, Function.update_of_ne hb]

/-- All counters at zero tally the empty list. -/
theorem tallies_nil : Tallies (fun _ : α => 0) [] := by
  intro a
  simp

/-- Two tallies of one list are the same counters. -/
theorem Tallies.unique {h h' : α → ℕ} {l : List α} (ht : Tallies h l) (ht' : Tallies h' l) :
    h = h' := by
  funext a
  rw [ht a, ht' a]

/-- A counter that tallies `l` counts `a` once more after `a` is appended. -/
theorem Tallies.push_back {h : α → ℕ} {l : List α} (ht : Tallies h l) (a : α) :
    Tallies (bump h a) (l ++ [a]) := by
  intro b
  by_cases hb : b = a
  · subst hb
    simp [ht b]
  · have hab : (a == b) = false := by simpa using Ne.symm hb
    simp [bump_of_ne h hb, ht b, List.count_singleton, hab]

/-- Prepending `a` is counted the same way as appending it. -/
theorem Tallies.push_front {h : α → ℕ} {l : List α} (ht : Tallies h l) (a : α) :
    Tallies (bump h a) (a :: l) := by
  intro b
  have hperm : (a :: l).count b = (l ++ [a]).count b := by
    simp [List.count_cons]
  rw [hperm]
  exact ht.push_back a b

/-- Removing the front element `a` takes one off its counter. -/
theorem Tallies.pop_front {h : α → ℕ} {a : α} {l : List α} (ht : Tallies h (a :: l)) :
    Tallies (unbump h a) l := by
  intro b
  by_cases hb : b = a
  · subst hb
    simp [ht b]
  · have hab : (a == b) = false := by simpa using Ne.symm hb
    simp [unbump_of_ne h hb, ht b, List.count_cons, hab]

/-- Removing the back element `a` takes one off its counter. -/
theorem Tallies.pop_back {h : α → ℕ} {a : α} {l : List α} (ht : Tallies h (l ++ [a])) :
    Tallies (unbump h a) l := by
  have hfront : Tallies h (a :: l) := by
    intro b
    rw [ht b]
    simp [List.count_cons]
  exact hfront.pop_front

/-- Appending a list of values one by one, each with a `bump`, keeps the tally. -/
theorem Tallies.append {h : α → ℕ} {l : List α} (ht : Tallies h l) :
    ∀ m : List α, Tallies (m.foldl bump h) (l ++ m) := by
  intro m
  induction m generalizing h l with
  | nil => simpa using ht
  | cons a m ih =>
    rw [List.foldl_cons, List.append_cons]
    exact ih (ht.push_back a)

end Tally
