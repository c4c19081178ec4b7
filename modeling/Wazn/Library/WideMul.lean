import Mathlib.Data.UInt
import Mathlib.Data.Nat.Digits.Defs
import Mathlib.Tactic.Ring

/-!
# Double-word arithmetic on 64-bit words

C code that multiplies two `uint64_t` into 128 bits splits each factor into 32-bit halves
(`x >> 32`, `x & 0xFFFFFFFF`), multiplies the halves, whose products fit one word
(`toNat_mul_of_lt`), and adds the partial products with carries taken from wrap-around tests:
`a + b < a` for the carry of a sum (`add_lt_self_iff`), and
`a + b < a || (c && a + b == (uint64_t)-1)` for a sum with a carry in (`carry_add_add`).
Read on natural numbers, the halves are division and remainder by `2 ^ 32`, and the product of
two numbers is the sum of the products of their halves (`mul_eq_halves`).

A word is read from memory as bytes, lowest first, by shifting it up a byte at a time and
putting the next byte in below; its value is then the bytes' numeral in base 256
(`toNat_foldr_bytes`).
-/

set_option autoImplicit false

namespace WideMul

variable (x y : UInt64)

theorem toNat_shiftRight_32 : (x >>> 32).toNat = x.toNat / 2 ^ 32 := by
  rw [UInt64.toNat_shiftRight, show (32 : UInt64).toNat % 64 = 32 from rfl,
    Nat.shiftRight_eq_div_pow]

theorem toNat_and_low32 : (x &&& 0xFFFFFFFF).toNat = x.toNat % 2 ^ 32 := by
  rw [UInt64.toNat_and, show (0xFFFFFFFF : UInt64).toNat = 2 ^ 32 - 1 from rfl,
    Nat.and_two_pow_sub_one_eq_mod]

theorem toNat_shiftLeft_32 : (x <<< 32).toNat = x.toNat % 2 ^ 32 * 2 ^ 32 := by
  rw [UInt64.toNat_shiftLeft, show (32 : UInt64).toNat % 64 = 32 from rfl, Nat.shiftLeft_eq,
    show (2 : ℕ) ^ 64 = 2 ^ 32 * 2 ^ 32 by norm_num, Nat.mul_mod_mul_right]

/-- A word is its high half above its low half. -/
theorem toNat_halves : (x >>> 32).toNat = x.toNat / 2 ^ 32 ∧
    (x &&& 0xFFFFFFFF).toNat = x.toNat % 2 ^ 32 ∧ x.toNat < 2 ^ 64 :=
  ⟨toNat_shiftRight_32 x, toNat_and_low32 x, x.toNat_lt⟩

/-- A sum that does not overflow is exact. -/
theorem toNat_add_of_lt (h : x.toNat + y.toNat < 2 ^ 64) : (x + y).toNat = x.toNat + y.toNat := by
  rw [UInt64.toNat_add, Nat.mod_eq_of_lt h]

/-- A product of two numbers below `B` with one more number below `B` stays below `B * B`. -/
theorem mul_add_lt {B a b c : ℕ} (ha : a < B) (hb : b < B) (hc : c < B) :
    a * b + c < B * B := by
  obtain ⟨n, rfl⟩ : ∃ n, B = n + 1 := ⟨B - 1, by omega⟩
  have hab : a * b ≤ n * n := Nat.mul_le_mul (by omega) (by omega)
  have hsq : (n + 1) * (n + 1) = n * n + 2 * n + 1 := by ring
  omega

/-- A product of halves fits one word. -/
theorem toNat_mul_of_lt (hx : x.toNat < 2 ^ 32) (hy : y.toNat < 2 ^ 32) :
    (x * y).toNat = x.toNat * y.toNat := by
  rw [UInt64.toNat_mul]
  exact Nat.mod_eq_of_lt (by
    have := mul_add_lt hx hy (show 0 < 2 ^ 32 by norm_num)
    omega)

/-- A product of halves plus a half fits one word. -/
theorem toNat_mul_add_of_lt (z : UInt64) (hx : x.toNat < 2 ^ 32) (hy : y.toNat < 2 ^ 32)
    (hz : z.toNat < 2 ^ 32) : (x * y + z).toNat = x.toNat * y.toNat + z.toNat := by
  have hprod := toNat_mul_of_lt x y hx hy
  have hlt := mul_add_lt hx hy hz
  rw [toNat_add_of_lt _ _ (by omega), hprod]

/-- The carry test of a sum: the sum wraps below its first term exactly when it overflows. -/
theorem add_lt_self_iff : x + y < x ↔ 2 ^ 64 ≤ x.toNat + y.toNat := by
  have hx := x.toNat_lt
  have hy := y.toNat_lt
  rw [UInt64.lt_iff_toNat_lt, UInt64.toNat_add]
  omega

/-- The carry flag of a sum, as a word, is the sum's high part. -/
theorem toNat_carryFlag : (if x + y < x then (1 : UInt64) else 0).toNat =
    (x.toNat + y.toNat) / 2 ^ 64 := by
  have hx := x.toNat_lt
  have hy := y.toNat_lt
  by_cases hc : x + y < x
  · rw [if_pos hc]
    have := (add_lt_self_iff x y).mp hc
    simp only [UInt64.reduceToNat]
    omega
  · rw [if_neg hc]
    have := mt (add_lt_self_iff x y).mpr hc
    simp only [UInt64.toNat_zero]
    omega

/-- The carry test of a sum, as a number, is the sum's high part. -/
theorem toNat_carry_add : (decide (x + y < x)).toNat = (x.toNat + y.toNat) / 2 ^ 64 := by
  have hx := x.toNat_lt
  have hy := y.toNat_lt
  by_cases hc : x + y < x
  · have := (add_lt_self_iff x y).mp hc
    simp only [hc, decide_true, Bool.toNat_true]
    omega
  · have := mt (add_lt_self_iff x y).mpr hc
    simp only [hc, decide_false, Bool.toNat_false]
    omega

/-- The carry test of a sum with a carry in, as a number, is the high part of the sum with the
carry: the sum overflows, or it is all ones and the carry in tips it over. -/
theorem toNat_carry_add_add (c : Bool) :
    (x + y < x || (c && x + y == 18446744073709551615)).toNat =
      (x.toNat + y.toNat + c.toNat) / 2 ^ 64 := by
  have hx := x.toNat_lt
  have hy := y.toNat_lt
  have hmax : (x + y == 18446744073709551615) =
      decide ((x.toNat + y.toNat) % 2 ^ 64 = 2 ^ 64 - 1) := by
    rw [beq_eq_decide]
    congr 1
    rw [← UInt64.toNat_inj, UInt64.toNat_add]
    rfl
  rw [hmax]
  by_cases hc : x + y < x
  · have := (add_lt_self_iff x y).mp hc
    cases c <;> simp only [hc, decide_true, Bool.true_or, Bool.toNat_true, Bool.toNat_false] <;>
      omega
  · have := mt (add_lt_self_iff x y).mpr hc
    cases c
    · simp only [hc, decide_false, Bool.false_and, Bool.or_false, Bool.toNat_false]
      omega
    · by_cases hm : (x.toNat + y.toNat) % 2 ^ 64 = 2 ^ 64 - 1
      · simp only [hc, hm, decide_true, decide_false, Bool.and_self, Bool.false_or,
          Bool.toNat_true]
        omega
      · simp only [hc, hm, decide_false, Bool.and_false, Bool.or_self, Bool.toNat_false,
          Bool.toNat_true]
        omega

/-- The low word of a product and a shifted word below it: disjoint bits, so the `or` is a
sum. -/
theorem toNat_shiftLeft_32_or (hy : y.toNat < 2 ^ 32) :
    (x <<< 32 ||| y).toNat = x.toNat % 2 ^ 32 * 2 ^ 32 + y.toNat := by
  rw [UInt64.toNat_or, toNat_shiftLeft_32, ← Nat.shiftLeft_eq,
    ← Nat.shiftLeft_add_eq_or_of_lt hy]

/-- The schoolbook product in base `B`: high halves, cross products, low halves. -/
theorem mul_eq_halves (a b B : ℕ) :
    a * b = a / B * (b / B) * (B * B) + (a / B * (b % B) + a % B * (b / B)) * B +
      a % B * (b % B) := by
  conv_lhs => rw [← Nat.div_add_mod a B, ← Nat.div_add_mod b B]
  ring

/-- A word built from at most eight bytes, the last byte first, each shifted up by the ones
after it: its value is the bytes' numeral in base 256, the first byte lowest. -/
theorem toNat_foldr_bytes (bytes : List UInt8) (h : bytes.length ≤ 8) :
    (bytes.foldr (fun (byte : UInt8) (word : UInt64) => (word <<< 8) ||| byte.toUInt64) 0).toNat =
      Nat.ofDigits 256 (bytes.map UInt8.toNat) := by
  induction bytes with
  | nil => rfl
  | cons byte bytes ih =>
    have hrest : Nat.ofDigits 256 (bytes.map UInt8.toNat) < 256 ^ 7 := by
      have hlt := Nat.ofDigits_lt_base_pow_length (b := 256) (l := bytes.map UInt8.toNat)
        (by norm_num) (by
          simp only [List.mem_map]
          rintro _ ⟨a, -, rfl⟩
          exact a.toNat_lt)
      have hpow : 256 ^ (bytes.map UInt8.toNat).length ≤ 256 ^ 7 :=
        Nat.pow_le_pow_right (by norm_num) (by simp only [List.length_map]; simp at h; omega)
      omega
    have hbyte : byte.toUInt64.toNat < 2 ^ 8 := by
      rw [UInt8.toNat_toUInt64]
      exact byte.toNat_lt
    rw [List.foldr_cons, UInt64.toNat_or, UInt64.toNat_shiftLeft, ih (by simp at h; omega),
      show (8 : UInt64).toNat % 64 = 8 from rfl, Nat.mod_eq_of_lt (by rw [Nat.shiftLeft_eq]; omega),
      ← Nat.shiftLeft_add_eq_or_of_lt hbyte, Nat.shiftLeft_eq, List.map_cons, Nat.ofDigits_cons,
      UInt8.toNat_toUInt64]
    omega

end WideMul
