import Mathlib

/-!
# `std::lower_bound`

The binary search of `std::lower_bound` over the elements of a list from `first` to `last`:
while `count` elements are left, it looks at the middle one and keeps the half that can still
hold the first element not below the value. On a sorted range it returns the partition point:
every element of the range before it is below the value, and every one from it on is not
(`lowerBound_spec`); so it is the index of the first element that is not below
(`lowerBound_eq_of_partition`).
-/

set_option autoImplicit false

namespace LowerBound

variable {α : Type} [LinearOrder α] [Inhabited α]

/-- The loop of `std::lower_bound`: `first` and `count` of the range left, `fuel` a bound on
the rounds. -/
def loop (l : List α) (value : α) : ℕ → ℕ → ℕ → ℕ
  | 0, first, _ => first
  | fuel + 1, first, count =>
    if 0 < count then
      let step := count / 2
      if l.getD (first + step) default < value then
        loop l value fuel (first + step + 1) (count - (step + 1))
      else loop l value fuel first step
    else first

/-- `std::lower_bound(l.begin() + first, l.begin() + last, value)`, as an index of `l`. -/
def lowerBound (l : List α) (first last : ℕ) (value : α) : ℕ :=
  loop l value (last - first) first (last - first)

/-- The search's invariant over the range `[start, last)` of `l`: the elements before `first`
are below the value, and those from `first + count` on are not. -/
structure Inv (l : List α) (value : α) (start last first count : ℕ) : Prop where
  start_le : start ≤ first
  bound : first + count ≤ last
  last_le : last ≤ l.length
  below : ∀ i (h : i < l.length), start ≤ i → i < first → l[i] < value
  above : ∀ i (h : i < l.length), first + count ≤ i → i < last → value ≤ l[i]

variable {l : List α} {value : α} {start last : ℕ}

omit [LinearOrder α] in
theorem getD_default_of_lt {i : ℕ} (h : i < l.length) : l.getD i default = l[i] := by
  rw [List.getD_eq_getElem?_getD, List.getElem?_eq_getElem h, Option.getD_some]

omit [Inhabited α] in
theorem le_of_sorted (hsorted : l.Pairwise (· ≤ ·)) {i j : ℕ} (hij : i ≤ j) (hj : j < l.length) :
    l[i] ≤ l[j] := by
  rcases Nat.lt_or_eq_of_le hij with hlt | rfl
  · exact List.pairwise_iff_getElem.mp hsorted i j (by omega) hj hlt
  · exact le_refl _

/-- A round keeps the invariant: an element below the value moves `first` past it, one that is
not cuts the range before it. -/
theorem Inv.step (hsorted : l.Pairwise (· ≤ ·)) {first count : ℕ}
    (hinv : Inv l value start last first count) (hcount : 0 < count) :
    (l.getD (first + count / 2) default < value →
        Inv l value start last (first + count / 2 + 1) (count - (count / 2 + 1))) ∧
      (¬l.getD (first + count / 2) default < value →
        Inv l value start last first (count / 2)) := by
  have hmid : first + count / 2 < l.length := by
    have := hinv.bound
    have := hinv.last_le
    omega
  rw [getD_default_of_lt hmid]
  constructor
  · intro hlt
    refine ⟨by have := hinv.start_le; omega, by have := hinv.bound; omega, hinv.last_le, ?_, ?_⟩
    · intro i hi hstart hfirst
      exact lt_of_le_of_lt (le_of_sorted hsorted (by omega) hmid) hlt
    · intro i hi hfrom hlast
      exact hinv.above i hi (by omega) hlast
  · intro hnot
    refine ⟨hinv.start_le, by have := hinv.bound; omega, hinv.last_le, hinv.below, ?_⟩
    intro i hi hfrom hlast
    exact le_trans (not_lt.mp hnot) (le_of_sorted hsorted hfrom hi)

/-- With as many rounds as elements, the loop ends at a partition point of the range. -/
theorem loop_inv (hsorted : l.Pairwise (· ≤ ·)) :
    ∀ (fuel first count : ℕ), count ≤ fuel → Inv l value start last first count →
      Inv l value start last (loop l value fuel first count) 0 := by
  intro fuel
  induction fuel with
  | zero =>
    intro first count hfuel hinv
    have hzero : count = 0 := by omega
    subst hzero
    exact hinv
  | succ fuel ih =>
    intro first count hfuel hinv
    rw [loop]
    by_cases hcount : 0 < count
    · obtain ⟨hbelow, habove⟩ := hinv.step hsorted hcount
      rw [if_pos hcount]
      dsimp only
      split_ifs with hlt
      · exact ih _ _ (by omega) (hbelow hlt)
      · exact ih _ _ (by omega) (habove hlt)
    · have hzero : count = 0 := by omega
      subst hzero
      rw [if_neg hcount]
      exact hinv

/-- **`std::lower_bound` on a sorted range** returns a point of the range before which every
element is below the value and from which none is. -/
theorem lowerBound_spec (hsorted : l.Pairwise (· ≤ ·)) (value : α) {first : ℕ}
    (hfirst : first ≤ last) (hlast : last ≤ l.length) :
    first ≤ lowerBound l first last value ∧ lowerBound l first last value ≤ last ∧
      (∀ i (h : i < l.length), first ≤ i → i < lowerBound l first last value → l[i] < value) ∧
      ∀ i (h : i < l.length), lowerBound l first last value ≤ i → i < last → value ≤ l[i] := by
  have hinit : Inv l value first last first (last - first) :=
    ⟨Nat.le_refl _, by omega, hlast, fun i _ hstart hlt => absurd hlt (by omega),
      fun i _ hfrom hlt => absurd hlt (by omega)⟩
  have hend := loop_inv hsorted (last - first) first (last - first) (Nat.le_refl _) hinit
  rw [lowerBound]
  refine ⟨hend.start_le, by simpa using hend.bound, hend.below, fun i hi hfrom hlt => ?_⟩
  exact hend.above i hi (by simpa using hfrom) hlt

/-- The partition point is unique: an index of the range with every element before it below the
value and the one at it not below is where `std::lower_bound` stops. -/
theorem lowerBound_eq_of_partition (hsorted : l.Pairwise (· ≤ ·)) {first b : ℕ}
    (hfirst : first ≤ b) (hb : b < last) (hlast : last ≤ l.length)
    (hbelow : ∀ i (h : i < l.length), first ≤ i → i < b → l[i] < value)
    (hat : value ≤ l.getD b default) : lowerBound l first last value = b := by
  obtain ⟨hge, hle, hbefore, hafter⟩ := lowerBound_spec hsorted value
    (Nat.le_trans hfirst (Nat.le_of_lt hb)) hlast
  rw [getD_default_of_lt (by omega)] at hat
  rcases Nat.lt_trichotomy (lowerBound l first last value) b with hlt | heq | hgt
  · exact absurd (hafter _ (by omega) (Nat.le_refl _) (by omega))
      (not_le.mpr (hbelow _ (by omega) hge hlt))
  · exact heq
  · exact absurd hat (not_le.mpr (hbefore b (by omega) hfirst hgt))

example : lowerBound [1, 3, 4, 4, 8] 0 5 4 = 2 := rfl

end LowerBound
