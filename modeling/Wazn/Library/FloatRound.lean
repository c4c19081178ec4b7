import Mathlib

/-!
# Rounding a natural number to a binary floating-point format

Converting an integer to a binary floating-point type whose significand has `p` bits (24 for
the IEEE 754 binary32 format, the C `float`) rounds it, in the default mode, to the nearest
number whose binary digits below its top `p` are zero, and a tie to the one whose last kept
digit is even. With `e` the number of digits dropped, `Nat.log2 n + 1 - p`, that is the
quotient by `2 ^ e`, rounded by the remainder, times `2 ^ e` (`roundNearestEven`). The range of
the exponent is not modelled: it only bounds numbers far wider than 64 bits.

The result is within half a unit of the last kept digit of `n`, and that unit is at most
`n / 2 ^ (p - 1)`, so the error is at most `n / 2 ^ p`, in both directions
(`sub_div_le_roundNearestEven`, `roundNearestEven_le_add_div`).
-/

set_option autoImplicit false

namespace FloatRound

/-- The number of low binary digits of `n` that a significand of `p` bits cannot hold. -/
def droppedDigits (p n : ℕ) : ℕ := Nat.log2 n + 1 - p

/-- `n` rounded to `p` significant bits, to the nearest and ties to even. -/
def roundNearestEven (p n : ℕ) : ℕ :=
  let unit := 2 ^ droppedDigits p n
  let q := n / unit
  let r := n % unit
  if 2 * r < unit ∨ (2 * r = unit ∧ q % 2 = 0) then q * unit else (q + 1) * unit

/-- Half a unit of the last kept digit is at most `n / 2 ^ p`: when digits are dropped, `n`
has `droppedDigits p n + p` binary digits. -/
theorem unit_le_two_mul_div (p : ℕ) {n : ℕ} (hn : n ≠ 0) (hdrop : 0 < droppedDigits p n) :
    2 ^ droppedDigits p n ≤ 2 * (n / 2 ^ p) := by
  obtain ⟨d, hd⟩ : ∃ d, droppedDigits p n = d + 1 := ⟨droppedDigits p n - 1, by omega⟩
  have hlog : Nat.log2 n = d + p := by
    unfold droppedDigits at hd
    omega
  have htop : 2 ^ d * 2 ^ p ≤ n := by
    rw [← Nat.pow_add, ← hlog]
    exact Nat.log2_self_le hn
  have hd_le : 2 ^ d ≤ n / 2 ^ p := (Nat.le_div_iff_mul_le (Nat.two_pow_pos p)).mpr htop
  rw [hd, Nat.pow_succ]
  omega

/-- A nonzero remainder means that digits were dropped, from a nonzero number. -/
theorem dropped_of_mod_pos (p : ℕ) {n : ℕ} (hpos : 0 < n % 2 ^ droppedDigits p n) :
    n ≠ 0 ∧ 0 < droppedDigits p n := by
  refine ⟨?_, ?_⟩
  · rintro rfl
    simp at hpos
  · rcases Nat.eq_zero_or_pos (droppedDigits p n) with hzero | hdrop
    · rw [hzero, Nat.pow_zero, Nat.mod_one] at hpos
      omega
    · exact hdrop

/-- Half a unit, or any nonzero remainder up to it, is at most `n / 2 ^ p`. -/
theorem mod_le_div_of_two_mul_le (p : ℕ) {n : ℕ}
    (hhalf : 2 * (n % 2 ^ droppedDigits p n) ≤ 2 ^ droppedDigits p n) :
    n % 2 ^ droppedDigits p n ≤ n / 2 ^ p := by
  rcases Nat.eq_zero_or_pos (n % 2 ^ droppedDigits p n) with hzero | hpos
  · rw [hzero]
    exact Nat.zero_le _
  · obtain ⟨hn, hdrop⟩ := dropped_of_mod_pos p hpos
    have hunit := unit_le_two_mul_div p hn hdrop
    omega

/-- Rounding loses at most `n / 2 ^ p`. -/
theorem sub_div_le_roundNearestEven (p n : ℕ) : n - n / 2 ^ p ≤ roundNearestEven p n := by
  have hsplit := Nat.div_add_mod' n (2 ^ droppedDigits p n)
  have hlt := Nat.mod_lt n (Nat.two_pow_pos (droppedDigits p n))
  have hhalf := mod_le_div_of_two_mul_le p (n := n)
  unfold roundNearestEven
  dsimp only
  generalize n / 2 ^ droppedDigits p n = q at *
  generalize n % 2 ^ droppedDigits p n = r at *
  generalize 2 ^ droppedDigits p n = unit at *
  generalize n / 2 ^ p = d at *
  split_ifs with hdown
  · -- rounded down: the remainder is at most half a unit
    have hr := hhalf (by omega)
    omega
  · -- rounded up: above `n`
    rw [Nat.add_mul, Nat.one_mul]
    omega

/-- Rounding gains at most `n / 2 ^ p`. -/
theorem roundNearestEven_le_add_div (p n : ℕ) : roundNearestEven p n ≤ n + n / 2 ^ p := by
  have hsplit := Nat.div_add_mod' n (2 ^ droppedDigits p n)
  have hunit := Nat.two_pow_pos (droppedDigits p n)
  have hhalf : 0 < n % 2 ^ droppedDigits p n → 2 ^ droppedDigits p n ≤ 2 * (n / 2 ^ p) := by
    intro hpos
    obtain ⟨hn, hdrop⟩ := dropped_of_mod_pos p hpos
    exact unit_le_two_mul_div p hn hdrop
  unfold roundNearestEven
  dsimp only
  generalize n / 2 ^ droppedDigits p n = q at *
  generalize n % 2 ^ droppedDigits p n = r at *
  generalize 2 ^ droppedDigits p n = unit at *
  generalize n / 2 ^ p = d at *
  split_ifs with hdown
  · omega
  · -- rounded up: the remainder is at least half a unit, so it is not zero
    have hd := hhalf (by omega)
    rw [Nat.add_mul, Nat.one_mul]
    omega

end FloatRound
