import Wazn.Library.ExceptLoop
import Wazn.Library.MultiScalar
import Wazn.Library.Radix
import Wazn.Model.MultiExp

/-!
# Keys as the scalars of `multiexp.cc`, and the sum `straus` and `pippenger` compute

A scalar is a key read as a little-endian number of 256 bits (`Key.toNat`). Every way
`multiexp.cc` reads a key is its value read in some base: byte `n` is digit `n` of base 256
(`Key.toNat_byte`), `operator<` is `<` on the values (`keyLt_iff`), `pow2 n` is `2 ^ n`
(`pow2_eq`), `test k n` is bit `n` (`test_ne_zero_iff`), the Straus digit `m` is digit `m` of
base 16 (`strausDigit_toNat`), and the Pippenger bucket of round `r` is digit `r` of base `2 ^ c`
(`pippengerBucket_eq`).

The loops both algorithms start with bound every scalar: `maxScalar` is at least each of them,
and `startWindow` stops at a width `i` with every scalar below `2 ^ i` (`startWindow_spec`).

Over a commutative monoid of points, both algorithms are to compute `naiveMultiexp`, each point
times the value of its scalar.
-/

set_option autoImplicit false

namespace Wazn

namespace Rct

variable {G : Type}

/-- The value of a key: its bytes as a little-endian number. -/
def Key.toNat (k : Key) : ℕ := Nat.ofDigits 256 (k.toList.map UInt8.toNat)

theorem Key.digits_lt (k : Key) : ∀ d ∈ k.toList.map UInt8.toNat, d < 256 := by
  intro d hd
  obtain ⟨b, _, rfl⟩ := List.mem_map.mp hd
  exact b.toNat_lt

theorem Key.toNat_lt (k : Key) : k.toNat < 2 ^ 256 := by
  have h := Nat.ofDigits_lt_base_pow_length (by norm_num) k.digits_lt
  rwa [List.length_map, List.Vector.toList_length, show (256 : ℕ) ^ 32 = 2 ^ 256 by norm_num] at h

/-- Byte `n` of a key is digit `n` of its value in base 256. -/
theorem Key.toNat_byte (k : Key) (n : ℕ) : (k.byte n).toNat = k.toNat / 256 ^ n % 256 := by
  rw [Key.toNat, Radix.ofDigits_div_pow_mod (by norm_num) k.digits_lt, Key.byte]
  exact (List.getD_map k.toList (0 : UInt8) UInt8.toNat).symm

/-! ## Comparison -/

/-- The loop of `operator<` over the low `n` bytes compares the values modulo `256 ^ n`. -/
theorem keyLtFrom_eq (k0 k1 : Key) :
    ∀ n, keyLtFrom k0 k1 n = decide (k0.toNat % 256 ^ n < k1.toNat % 256 ^ n)
  | 0 => by simp [keyLtFrom, Nat.mod_one]
  | n + 1 => by
    have hlow : ∀ k : Key, k.toNat % 256 ^ n < 256 ^ n := fun k => Nat.mod_lt _ (by positivity)
    rw [keyLtFrom, keyLtFrom_eq k0 k1 n, Nat.mod_pow_succ, Nat.mod_pow_succ, ← Key.toNat_byte,
      ← Key.toNat_byte, Bool.eq_iff_iff, decide_eq_true_iff,
      Radix.add_mul_lt_add_mul_iff (hlow k0) (hlow k1)]
    -- the top byte decides unless the two are equal
    by_cases h01 : (k0.byte n).toNat < (k1.byte n).toNat
    · rw [if_pos (UInt8.lt_iff_toNat_lt.mpr h01)]
      exact iff_of_true rfl (Or.inl h01)
    · rw [if_neg fun h => h01 (UInt8.lt_iff_toNat_lt.mp h)]
      by_cases h10 : (k1.byte n).toNat < (k0.byte n).toNat
      · rw [if_pos (UInt8.lt_iff_toNat_lt.mpr h10)]
        exact iff_of_false Bool.false_ne_true (by omega)
      · rw [if_neg fun h => h10 (UInt8.lt_iff_toNat_lt.mp h), decide_eq_true_iff]
        constructor
        · intro h
          exact Or.inr ⟨by omega, h⟩
        · rintro (h | ⟨_, h⟩)
          · omega
          · exact h

/-- `operator<` on keys is `<` on their values. -/
theorem keyLt_iff (k0 k1 : Key) : keyLt k0 k1 = true ↔ k0.toNat < k1.toNat := by
  rw [keyLt, keyLtFrom_eq, show (256 : ℕ) ^ 32 = 2 ^ 256 by norm_num,
    Nat.mod_eq_of_lt k0.toNat_lt, Nat.mod_eq_of_lt k1.toNat_lt, decide_eq_true_iff]

/-! ## Bits and digits -/

theorem shiftRight_three (n : ℕ) : n >>> 3 = n / 8 := by
  rw [Nat.shiftRight_eq_div_pow]

theorem and_seven (n : ℕ) : n &&& 7 = n % 8 := Nat.and_two_pow_sub_one_eq_mod n 3

/-- Bit `n % 8` of byte `n / 8` is bit `n`. -/
theorem two_pow_eight_mul_add (n : ℕ) : (2 ^ 8) ^ (n / 8) * 2 ^ (n % 8) = 2 ^ n := by
  rw [← pow_mul, ← pow_add, Nat.div_add_mod]

/-- Below 256, `pow2 n` is the key of value `2 ^ n`. -/
theorem pow2_eq {n : ℕ} (hn : n < 256) : ∃ k, pow2 n = .ok k ∧ k.toNat = 2 ^ n := by
  refine ⟨_, dif_pos hn, ?_⟩
  have hzero : Key.zero.toList = List.replicate 32 0 := rfl
  have hbyte : (Key.zero.byte (n >>> 3) ||| (1 <<< (n &&& 7) : ℕ).toUInt8).toNat = 2 ^ (n % 8) := by
    have hlt : 2 ^ (n % 8) < 256 :=
      lt_of_lt_of_le (Nat.pow_lt_pow_right (by norm_num) (Nat.mod_lt n (by norm_num))) (by norm_num)
    rw [UInt8.toNat_or, Key.byte, hzero, List.getD_replicate _ (by rw [shiftRight_three]; omega),
      and_seven, Nat.one_shiftLeft]
    simp [Nat.mod_eq_of_lt hlt]
  rw [Key.toNat, List.Vector.toList_set, Fin.val_mk, hzero, List.map_set, List.map_replicate, hbyte]
  rw [show UInt8.toNat 0 = 0 from rfl, Radix.ofDigits_set_replicate_zero _ (by
    rw [shiftRight_three]; omega), shiftRight_three, show (256 : ℕ) = 2 ^ 8 by norm_num,
    two_pow_eight_mul_add]

/-- `test k n` is not zero exactly when bit `n` of the key's value is set. -/
theorem test_ne_zero_iff (k : Key) (n : ℕ) : test k n ≠ 0 ↔ k.toNat.testBit n = true := by
  unfold test
  by_cases hn : n ≥ 256
  · have hlt : k.toNat < 2 ^ n :=
      lt_of_lt_of_le k.toNat_lt (Nat.pow_le_pow_right (by norm_num) hn)
    rw [if_pos hn, Nat.testBit_eq_false_of_lt hlt]
    simp
  · rw [if_neg hn, shiftRight_three, and_seven, Nat.one_shiftLeft, Nat.and_two_pow, Key.toNat_byte,
      show (256 : ℕ) = 2 ^ 8 by norm_num, ← pow_mul, Nat.testBit_mod_two_pow,
      Nat.testBit_div_two_pow, Nat.mod_add_div]
    cases k.toNat.testBit n <;> simp [Nat.mod_lt n (by norm_num : 8 > 0)]

/-- Bit `n` of a number as `testBit` or as a digit of base 2. -/
theorem div_two_pow_mod_two (v n : ℕ) : v / 2 ^ n % 2 = (v.testBit n).toNat :=
  (Nat.toNat_testBit v n).symm

/-- Digit `m` of the Straus table is digit `m` of the scalar in base 16. -/
theorem strausDigit_toNat (k : Key) (m : ℕ) : (strausDigit k m).toNat = k.toNat / 16 ^ m % 16 := by
  unfold strausDigit
  split_ifs with hm
  · -- the low nibble of byte `m / 2`
    have hplace : (256 : ℕ) ^ (m / 2) = 16 ^ m := by
      rw [show (256 : ℕ) = 16 ^ 2 by norm_num, ← pow_mul]
      congr 1
      omega
    rw [UInt8.toNat_and, Key.toNat_byte, show (0xf : UInt8).toNat = 2 ^ 4 - 1 from rfl,
      Nat.and_two_pow_sub_one_eq_mod, Nat.mod_mod_of_dvd _ (by norm_num : 2 ^ 4 ∣ 256), hplace]
    rfl
  · -- the high nibble of byte `m / 2`
    have hplace : (256 : ℕ) ^ (m / 2) * 16 = 16 ^ m := by
      rw [show (256 : ℕ) = 16 ^ 2 by norm_num, ← pow_mul, ← pow_succ]
      congr 1
      omega
    rw [UInt8.toNat_shiftRight, Key.toNat_byte, show (4 : UInt8).toNat % 8 = 4 from rfl,
      Nat.shiftRight_eq_div_pow, show (256 : ℕ) = 2 ^ 4 * 16 by norm_num,
      Nat.mod_mul_right_div_self, Nat.div_div_eq_div_mul, show (2 ^ 4 * 16 : ℕ) = 256 by norm_num,
      show (2 : ℕ) ^ 4 = 16 by norm_num, hplace]

theorem strausDigit_lt (k : Key) (m : ℕ) : (strausDigit k m).toNat < 16 := by
  rw [strausDigit_toNat]
  exact Nat.mod_lt _ (by norm_num)

/-- The bucket of a scalar in round `r` of width `c` is digit `r` of the scalar in base `2 ^ c`,
built bit by bit. -/
theorem pippengerBucket_eq (k : Key) (c r : ℕ) :
    pippengerBucket k c r = k.toNat / 2 ^ (r * c) % 2 ^ c := by
  unfold pippengerBucket
  -- after bits `0` to `j - 1` the bucket is the low `j` bits of the digit
  suffices h : ∀ j, (List.range j).foldl (fun bucket j =>
      if test k (r * c + j) ≠ 0 then bucket ||| 1 <<< j else bucket) 0 =
      k.toNat / 2 ^ (r * c) % 2 ^ j from h c
  intro j
  induction j with
  | zero => rw [pow_zero, Nat.mod_one]; rfl
  | succ j ih =>
    have hlow : k.toNat / 2 ^ (r * c) % 2 ^ j < 2 ^ j := Nat.mod_lt _ (by positivity)
    rw [List.range_succ, List.foldl_append, ih, List.foldl_cons, List.foldl_nil,
      MultiScalar.div_two_pow_mod_two_pow_succ, div_two_pow_mod_two]
    by_cases hbit : k.toNat.testBit (r * c + j) = true
    · rw [if_pos ((test_ne_zero_iff k _).mpr hbit), hbit, Nat.one_shiftLeft,
        Nat.or_two_pow_eq_add_of_lt hlow]
      simp
    · rw [if_neg fun h => hbit ((test_ne_zero_iff k _).mp h), Bool.eq_false_iff.mpr hbit]
      simp

/-! ## The width of the scalars -/

/-- One step of the loop of `maxScalar` keeps the largest key seen. -/
theorem le_maxScalar_step (m : Key) (d : MultiexpData G) :
    m.toNat ≤ (if keyLt m d.scalar then d.scalar else m).toNat ∧
      d.scalar.toNat ≤ (if keyLt m d.scalar then d.scalar else m).toNat := by
  by_cases h : keyLt m d.scalar = true
  · rw [if_pos h]
    exact ⟨((keyLt_iff _ _).mp h).le, le_rfl⟩
  · rw [if_neg h]
    exact ⟨le_rfl, not_lt.mp fun h' => h ((keyLt_iff _ _).mpr h')⟩

/-- `maxScalar` is at least every scalar. -/
theorem le_maxScalar (data : List (MultiexpData G)) :
    ∀ d ∈ data, d.scalar.toNat ≤ (maxScalar data).toNat := by
  unfold maxScalar
  -- the fold invariant: the running key is at least the start and every scalar seen
  suffices h : ∀ (l : List (MultiexpData G)) (m : Key),
      m.toNat ≤ (l.foldl (fun maxscalar d => if keyLt maxscalar d.scalar then d.scalar
        else maxscalar) m).toNat ∧
      ∀ d ∈ l, d.scalar.toNat ≤ (l.foldl (fun maxscalar d => if keyLt maxscalar d.scalar
        then d.scalar else maxscalar) m).toNat from (h data Key.zero).2
  intro l
  induction l with
  | nil => exact fun m => ⟨le_rfl, fun d hd => absurd hd List.not_mem_nil⟩
  | cons d l ih =>
    intro m
    obtain ⟨hm, hd⟩ := le_maxScalar_step m d
    obtain ⟨hstart, hseen⟩ := ih (if keyLt m d.scalar then d.scalar else m)
    refine ⟨hm.trans hstart, ?_⟩
    intro d' hd'
    rcases List.mem_cons.mp hd' with rfl | hl
    · exact hd.trans hstart
    · exact hseen d' hl

theorem index_lt_of_mem_zipIdx {data : List (MultiexpData G)} {x : MultiexpData G × ℕ}
    (hx : x ∈ data.zipIdx) : x.2 < data.length := by
  rw [List.mem_zipIdx_iff_getElem?] at hx
  exact (List.getElem?_eq_some_iff.mp hx).1

/-- A bound on `maxScalar` bounds every scalar. -/
theorem scalar_lt_of_maxScalar_lt {data : List (MultiexpData G)} {B : ℕ}
    (hB : (maxScalar data).toNat < B) : ∀ x ∈ data.zipIdx, x.1.scalar.toNat < B := fun x hx =>
  lt_of_le_of_lt (le_maxScalar data x.1 (List.fst_mem_of_mem_zipIdx hx)) hB

/-- The loop `while (i < 256 && !(maxscalar < pow2(i))) i += step` never throws, and stops at a
width `i + step * q` that the key is below. -/
theorem startWindow_spec (m : Key) (step : ℕ) (hstep : 0 < step) (i : ℕ) :
    ∃ r, startWindow m step hstep i = .ok r ∧ m.toNat < 2 ^ r ∧ ∃ q, r = i + step * q := by
  rw [startWindow]
  by_cases hi : i < 256
  · obtain ⟨p, hp, hpv⟩ := pow2_eq hi
    rw [dif_pos hi, hp]
    by_cases hlt : keyLt m p = true
    · -- the key is below `2 ^ i`: the loop stops here
      refine ⟨i, by simp [hlt], ?_, 0, by omega⟩
      rw [← hpv]
      exact (keyLt_iff m p).mp hlt
    · obtain ⟨r, hr, hbound, q, hq⟩ := startWindow_spec m step hstep (i + step)
      refine ⟨r, by simp [hlt, hr], hbound, q + 1, by rw [hq]; ring⟩
  · -- past bit 255 every key is below `2 ^ i`
    refine ⟨i, by rw [dif_neg hi]; rfl, ?_, 0, by omega⟩
    exact lt_of_lt_of_le m.toNat_lt (Nat.pow_le_pow_right (by norm_num) (by omega))
termination_by 256 - i

/-! ## The multi-scalar product -/

section Sum

variable [AddCommMonoid G]

/-- The sum both algorithms compute: each point times its scalar. -/
def naiveMultiexp (data : List (MultiexpData G)) : G :=
  (data.map fun d => d.scalar.toNat • d.point).sum

/-- The same sum over the points with their indices. -/
theorem sum_zipIdx_eq_naiveMultiexp (data : List (MultiexpData G)) :
    ((data.zipIdx).map fun x => x.1.scalar.toNat • x.1.point).sum = naiveMultiexp data := by
  conv_rhs => rw [naiveMultiexp, ← List.zipIdx_map_fst 0 data, List.map_map]
  rfl

/-- The point at the index that goes with it in `zipIdx`. -/
theorem getD_point_of_mem_zipIdx {data : List (MultiexpData G)} {x : MultiexpData G × ℕ}
    (hx : x ∈ data.zipIdx) : (data.map (·.point)).getD x.2 0 = x.1.point := by
  rw [List.mem_zipIdx_iff_getElem?] at hx
  rw [List.getD_eq_getElem?_getD, List.getElem?_map, hx]
  rfl

theorem dblTimes_eq : ∀ (n : ℕ) (p : G), dblTimes n p = 2 ^ n • p
  | 0, p => by rw [dblTimes, pow_zero, one_smul]
  | n + 1, p => by rw [dblTimes, dblTimes_eq n, ← two_nsmul, smul_smul, pow_succ]

end Sum

end Rct

end Wazn
