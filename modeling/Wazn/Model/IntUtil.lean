import Wazn.Library.WideMul

/-!
# 128-bit helpers (`epee/include/int-util.h`, `epee/src/int-util.cpp`)

`mul128` multiplies two `uint64_t` into a low and a high word from products of 32-bit halves,
with the carries of the cross sum and of the low word taken from wrap-around tests.
`div128_64` divides a 128-bit number given as two words by a `uint64_t`, in boost's
`uint128_t`, where the division is exact. No caller divides by zero, on which boost throws, and
the callers modelled here pass no remainder pointers, so only the two quotient words are
returned.

Each comes with its specification on numbers: the two words of `mul128` are the product
(`mul128_spec`), and the two words of `div128_64` are the quotient (`div128_64_spec`).
-/

set_option autoImplicit false

namespace Wazn

namespace IntUtil

/-- `hi_dword`. -/
def hiDword (val : UInt64) : UInt64 := val >>> 32

/-- `lo_dword`. -/
def loDword (val : UInt64) : UInt64 := val &&& 0xFFFFFFFF

/-- `mul128(multiplier, multiplicand, &product_hi)`: the low word of the product, and the high
word it writes through `product_hi`. -/
def mul128 (multiplier multiplicand : UInt64) : UInt64 × UInt64 :=
  let a := hiDword multiplier
  let b := loDword multiplier
  let c := hiDword multiplicand
  let d := loDword multiplicand
  let ac := a * c
  let ad := a * d
  let bc := b * c
  let bd := b * d
  let adbc := ad + bc
  let adbcCarry : UInt64 := if adbc < ad then 1 else 0
  let productLo := bd + (adbc <<< 32)
  let productLoCarry : UInt64 := if productLo < bd then 1 else 0
  let productHi := ac + (adbc >>> 32) + (adbcCarry <<< 32) + productLoCarry
  (productLo, productHi)

/-- `div128_64(dividend_hi, dividend_lo, divisor, &quotient_hi, &quotient_lo, NULL, NULL)`: the
high and the low word of the quotient. -/
def div128_64 (dividendHi dividendLo divisor : UInt64) : UInt64 × UInt64 :=
  let dividend := dividendHi.toNat * 2 ^ 64 + dividendLo.toNat
  let q := dividend / divisor.toNat
  (UInt64.ofNat (q / 2 ^ 64), UInt64.ofNat q)

open WideMul in
theorem mul128_spec (multiplier multiplicand : UInt64) :
    (mul128 multiplier multiplicand).1.toNat + 2 ^ 64 * (mul128 multiplier multiplicand).2.toNat =
      multiplier.toNat * multiplicand.toNat := by
  have hm := multiplier.toNat_lt
  have hn := multiplicand.toNat_lt
  have hprod : multiplier.toNat * multiplicand.toNat < 2 ^ 64 * 2 ^ 64 := Nat.mul_lt_mul'' hm hn
  have hsplit := mul_eq_halves multiplier.toNat multiplicand.toNat (2 ^ 32)
  have ha := toNat_shiftRight_32 multiplier
  have hb := toNat_and_low32 multiplier
  have hc := toNat_shiftRight_32 multiplicand
  have hd := toNat_and_low32 multiplicand
  unfold mul128 hiDword loDword
  dsimp only
  generalize multiplier >>> 32 = a at *
  generalize multiplier &&& 0xFFFFFFFF = b at *
  generalize multiplicand >>> 32 = c at *
  generalize multiplicand &&& 0xFFFFFFFF = d at *
  -- the four products of halves, each exact in a word
  have hac := toNat_mul_of_lt a c (by omega) (by omega)
  have had := toNat_mul_of_lt a d (by omega) (by omega)
  have hbc := toNat_mul_of_lt b c (by omega) (by omega)
  have hbd := toNat_mul_of_lt b d (by omega) (by omega)
  rw [ha, hc] at hac
  rw [ha, hd] at had
  rw [hb, hc] at hbc
  rw [hb, hd] at hbd
  generalize a * c = ac at *
  generalize a * d = ad at *
  generalize b * c = bc at *
  generalize b * d = bd at *
  -- the cross sum and the low word, each with the carry its wrap-around test reads
  have hadbc := toNat_carryFlag ad bc
  have hadbcSum := UInt64.toNat_add ad bc
  generalize ad + bc = adbc at *
  have hshl := toNat_shiftLeft_32 adbc
  have hshr := toNat_shiftRight_32 adbc
  have hlo := toNat_carryFlag bd (adbc <<< 32)
  have hloSum := UInt64.toNat_add bd (adbc <<< 32)
  generalize bd + adbc <<< 32 = productLo at *
  rw [UInt64.toNat_add, UInt64.toNat_add, UInt64.toNat_add,
    toNat_shiftLeft_32 (if adbc < ad then 1 else 0), hshr]
  rw [hsplit] at hprod ⊢
  generalize multiplier.toNat / 2 ^ 32 * (multiplicand.toNat / 2 ^ 32) = p11 at *
  generalize multiplier.toNat / 2 ^ 32 * (multiplicand.toNat % 2 ^ 32) = p10 at *
  generalize multiplier.toNat % 2 ^ 32 * (multiplicand.toNat / 2 ^ 32) = p01 at *
  generalize multiplier.toNat % 2 ^ 32 * (multiplicand.toNat % 2 ^ 32) = p00 at *
  omega

theorem div128_64_spec (dividendHi dividendLo divisor : UInt64) :
    (div128_64 dividendHi dividendLo divisor).1.toNat * 2 ^ 64 +
        (div128_64 dividendHi dividendLo divisor).2.toNat =
      (dividendHi.toNat * 2 ^ 64 + dividendLo.toNat) / divisor.toNat := by
  have hhi := dividendHi.toNat_lt
  have hlo := dividendLo.toNat_lt
  have hq := Nat.div_le_self (dividendHi.toNat * 2 ^ 64 + dividendLo.toNat) divisor.toNat
  unfold div128_64
  dsimp only
  rw [UInt64.toNat_ofNat', UInt64.toNat_ofNat']
  generalize (dividendHi.toNat * 2 ^ 64 + dividendLo.toNat) / divisor.toNat = q at *
  omega

end IntUtil

end Wazn
