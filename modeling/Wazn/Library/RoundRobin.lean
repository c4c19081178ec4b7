import Mathlib.Order.Basic
import Mathlib.Tactic.Ring

/-!
# Round-robin schedules

Positions `0, 1, 2, …` dealt in turn to `P` slots: position `x` falls to slot `x % P`, in cycle
`x / P`. From a position `x`, the first position of slot `j` at or after it is in the same
cycle when `j` comes after the slot of `x`, and in the next cycle otherwise (`nextOfSlot`).
Every position strictly between lies in another slot (`mod_ne_of_lt_nextOfSlot`), and the next
slot round from `x` is reached at `x + 1` (`nextOfSlot_succ`).
-/

set_option autoImplicit false

namespace RoundRobin

/-- The first position of slot `j`, from position `x` on, when `x` is not in slot `j`. -/
def nextOfSlot (P x j : ℕ) : ℕ := (x / P + if j > x % P then 0 else 1) * P + j

variable {P x j : ℕ}

/-- A position below `c * P + j`, in cycle `c` or later, is in cycle `c` at a slot below `j`. -/
theorem div_eq_and_mod_lt_of_lt {y c : ℕ} (hj : j ≤ P) (hy : y < c * P + j) (hc : c ≤ y / P) :
    y / P = c ∧ y % P < j := by
  have hdiv := Nat.div_add_mod y P
  have hcycle : y / P = c := by
    by_contra hne
    have hnext : (c + 1) * P ≤ y / P * P := Nat.mul_le_mul_right P (by omega)
    rw [Nat.add_mul, Nat.one_mul] at hnext
    rw [Nat.mul_comm] at hdiv
    omega
  refine ⟨hcycle, ?_⟩
  rw [hcycle, Nat.mul_comm] at hdiv
  omega

theorem mod_nextOfSlot (hj : j < P) : nextOfSlot P x j % P = j := by
  rw [nextOfSlot, Nat.mul_comm, Nat.mul_add_mod, Nat.mod_eq_of_lt hj]

theorem lt_nextOfSlot (hj : j < P) : x < nextOfSlot P x j := by
  have hdiv := Nat.div_add_mod x P
  have hmod := Nat.mod_lt x (lt_of_le_of_lt (Nat.zero_le j) hj)
  rw [Nat.mul_comm] at hdiv
  unfold nextOfSlot
  split
  · rw [Nat.add_zero]
    omega
  · rw [Nat.add_mul, Nat.one_mul]
    omega

theorem nextOfSlot_lt (hj : j < P) : nextOfSlot P x j < x + 2 * P := by
  have hcycle := Nat.div_mul_le_self x P
  unfold nextOfSlot
  split
  · rw [Nat.add_zero]
    omega
  · rw [Nat.add_mul, Nat.one_mul]
    omega

/-- No position from `x` up to the next one of slot `j` is in slot `j`. -/
theorem mod_ne_of_lt_nextOfSlot {y : ℕ} (hj : j < P) (hne : x % P ≠ j) (hxy : x ≤ y)
    (hy : y < nextOfSlot P x j) : y % P ≠ j := by
  have hcycle : x / P ≤ y / P := Nat.div_le_div_right hxy
  unfold nextOfSlot at hy
  split at hy
  · -- slot `j` is later in the cycle of `x`: `y` is in that cycle, before slot `j`
    rw [Nat.add_zero] at hy
    have := (div_eq_and_mod_lt_of_lt hj.le hy hcycle).2
    omega
  · -- slot `j` is not later: `y` is in the rest of the cycle of `x`, or before slot `j` in the
    -- next cycle
    rename_i hle
    rcases Nat.lt_or_ge (y / P) (x / P + 1) with hsame | hlater
    · have hyx : y / P = x / P := by omega
      have hdx := Nat.div_add_mod x P
      have hdy := Nat.div_add_mod y P
      rw [hyx] at hdy
      omega
    · have := (div_eq_and_mod_lt_of_lt hj.le hy hlater).2
      omega

/-- With two slots or more, the slot after the one of `x` is another slot. -/
theorem mod_succ_ne (hP : 2 ≤ P) : (x % P + 1) % P ≠ x % P := by
  have hmod := Nat.mod_lt x (by omega : 0 < P)
  intro h
  rcases Nat.lt_or_ge (x % P + 1) P with hlt | hge
  · rw [Nat.mod_eq_of_lt hlt] at h
    omega
  · rw [show x % P + 1 = P by omega, Nat.mod_self] at h
    omega

/-- The slot after the one of `x` starts at `x + 1`. -/
theorem nextOfSlot_succ (hP : 2 ≤ P) : nextOfSlot P x ((x % P + 1) % P) = x + 1 := by
  have hdiv := Nat.div_add_mod x P
  have hmod := Nat.mod_lt x (by omega : 0 < P)
  rw [Nat.mul_comm] at hdiv
  unfold nextOfSlot
  rcases Nat.lt_or_ge (x % P + 1) P with hlt | hge
  · -- the next slot is in the same cycle
    rw [Nat.mod_eq_of_lt hlt, if_pos (Nat.lt_succ_self _), Nat.add_zero]
    omega
  · -- `x` is in the last slot: the next cycle starts at slot 0
    have hlast : x % P + 1 = P := by omega
    rw [hlast, Nat.mod_self, if_neg (Nat.not_lt_zero _), Nat.add_mul, Nat.one_mul]
    omega

end RoundRobin
