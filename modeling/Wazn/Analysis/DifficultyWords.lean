import Mathlib.Algebra.Order.Floor.Div
import Mathlib.Data.List.GetD
import Wazn.Model.DifficultyWords

/-!
# The word-level difficulty code is exact

Both bodies of `mul` compute the full product of two words (`mul_spec`). From it:

* `check_hash_64` and `check_hash_128` both decide whether the hash, read as a 256-bit
  little-endian number (`hashValue`), times the difficulty stays below `2 ^ 256`
  (`checkHash64_eq`, `checkHash128_eq`). The carry chain of `check_hash_64` is the carry out
  of the sum of the four partial products; the all-ones case of `cadc` is what makes it exact.
  So `check_hash` is exact for every difficulty, and its two paths agree
  (`checkHash_exact`).
* `next_difficulty` on 64-bit cumulative difficulties is the work over the cut window times the
  target, divided by the time the window took and rounded up (`nextDifficulty_toNat`), and
  `next_difficulty_64` is the same number whenever it fits a word, else 0
  (`nextDifficulty64_toNat`); so a non-zero `next_difficulty_64` is `next_difficulty`
  (`nextDifficulty64_agrees`).

The cut window, the work done over it and the time it took are stated once, on numbers
(`cutWindow`, `cutTotalWork`, `cutTimeSpan`), for both functions.
-/

set_option autoImplicit false

namespace Wazn

open Cryptonote IntUtil WideMul

section Mul

theorem mulPortable_spec (a b : UInt64) :
    (mulPortable a b).1.toNat + 2 ^ 64 * (mulPortable a b).2.toNat = a.toNat * b.toNat := by
  have hprod : a.toNat * b.toNat < 2 ^ 64 * 2 ^ 64 := Nat.mul_lt_mul'' a.toNat_lt b.toNat_lt
  have hsplit := mul_eq_halves a.toNat b.toNat (2 ^ 32)
  obtain ⟨haHigh, haLow, ha⟩ := toNat_halves a
  obtain ⟨hbHigh, hbLow, hb⟩ := toNat_halves b
  unfold mulPortable
  dsimp only
  generalize a &&& 0xFFFFFFFF = aLow at *
  generalize a >>> 32 = aHigh at *
  generalize b &&& 0xFFFFFFFF = bLow at *
  generalize b >>> 32 = bHigh at *
  -- the products with the low half of `a`, and their halves
  have hres1 := toNat_mul_of_lt aLow bLow (by omega) (by omega)
  have hres3 := toNat_mul_of_lt aLow bHigh (by omega) (by omega)
  rw [haLow, hbLow] at hres1
  rw [haLow, hbHigh] at hres3
  generalize aLow * bLow = res1 at *
  generalize aLow * bHigh = res3 at *
  obtain ⟨hcarry1, hlowRes1, hres1Lt⟩ := toNat_halves res1
  obtain ⟨hcarry3, hlowRes2, hres3Lt⟩ := toNat_halves res3
  generalize res1 &&& 0xFFFFFFFF = lowRes1 at *
  generalize res1 >>> 32 = carry1 at *
  generalize res3 &&& 0xFFFFFFFF = lowRes2 at *
  generalize res3 >>> 32 = carry3 at *
  -- the products with the high half of `a`, with the carries in, still fit a word
  have hres2 := toNat_mul_add_of_lt aHigh bLow carry1 (by omega) (by omega) (by omega)
  have hres4 := toNat_mul_add_of_lt aHigh bHigh carry3 (by omega) (by omega) (by omega)
  rw [haHigh, hbLow] at hres2
  rw [haHigh, hbHigh] at hres4
  generalize aHigh * bLow + carry1 = res2 at *
  generalize aHigh * bHigh + carry3 = res4 at *
  obtain ⟨hhigh1, hlow1, hres2Lt⟩ := toNat_halves res2
  obtain ⟨hhigh2, hlow2, hres4Lt⟩ := toNat_halves res4
  generalize res2 >>> 32 = highResHigh1 at *
  generalize res2 &&& 0xFFFFFFFF = highResLow1 at *
  generalize res4 >>> 32 = highResHigh2 at *
  generalize res4 &&& 0xFFFFFFFF = highResLow2 at *
  -- the additions of halves never wrap
  have hr1 := toNat_add_of_lt highResLow1 lowRes2 (by omega)
  generalize highResLow1 + lowRes2 = r1 at *
  have hcarry := toNat_shiftRight_32 r1
  generalize r1 >>> 32 = carry at *
  have hsum := toNat_add_of_lt highResHigh1 highResLow2 (by omega)
  have hr2 := toNat_add_of_lt (highResHigh1 + highResLow2) carry (by omega)
  rw [hsum] at hr2
  generalize highResHigh1 + highResLow2 + carry = r2 at *
  obtain ⟨hcarry2, hd3, -⟩ := toNat_halves r2
  generalize r2 &&& 0xFFFFFFFF = d3 at *
  generalize r2 >>> 32 = carry2 at *
  have hr3 := toNat_add_of_lt highResHigh2 carry2 (by omega)
  generalize highResHigh2 + carry2 = r3 at *
  rw [toNat_shiftLeft_32_or _ _ (by omega), UInt64.or_comm, toNat_shiftLeft_32_or _ _ (by omega)]
  rw [hsplit] at hprod ⊢
  omega

/-- Either body of `mul` gives the low and the high word of the product. -/
theorem mul_spec (impl : MulImpl) (a b : UInt64) :
    (mul impl a b).1.toNat + 2 ^ 64 * (mul impl a b).2.toNat = a.toNat * b.toNat := by
  cases impl with
  | x86_64 => exact mul128_spec a b
  | portable => exact mulPortable_spec a b

end Mul

section CheckHash

/-- The hash read as a 256-bit little-endian number: the number the proof-of-work check
multiplies by the difficulty. -/
def hashValue (hash : Hash) : ℕ := Nat.ofDigits 256 (hash.toList.map UInt8.toNat)

theorem toNat_hashWord (hash : Hash) (i : ℕ) :
    (hashWord hash i).toNat =
      Nat.ofDigits 256 (((hash.toList.drop (8 * i)).take 8).map UInt8.toNat) :=
  toNat_foldr_bytes _ (List.length_take_le _ _)

/-- Bytes from `n` on, as a number: the eight bytes from `n`, then the rest above them. -/
theorem ofDigits_drop_eq (l : List UInt8) (n : ℕ) (h : n + 8 ≤ l.length) :
    Nat.ofDigits 256 ((l.drop n).map UInt8.toNat) =
      Nat.ofDigits 256 (((l.drop n).take 8).map UInt8.toNat) +
        2 ^ 64 * Nat.ofDigits 256 ((l.drop (n + 8)).map UInt8.toNat) := by
  conv_lhs => rw [← List.take_append_drop 8 (l.drop n)]
  have hlen : ((l.drop n).take 8).length = 8 := by
    simp only [List.length_take, List.length_drop]
    omega
  rw [List.map_append, Nat.ofDigits_append, List.length_map, hlen, List.drop_drop]
  norm_num

theorem hashValue_eq_words (hash : Hash) :
    hashValue hash = (hashWord hash 0).toNat + 2 ^ 64 * (hashWord hash 1).toNat +
      2 ^ 128 * (hashWord hash 2).toNat + 2 ^ 192 * (hashWord hash 3).toNat := by
  have hlen : hash.toList.length = 32 := hash.toList_length
  have h0 := ofDigits_drop_eq hash.toList 0 (by omega)
  have h1 := ofDigits_drop_eq hash.toList 8 (by omega)
  have h2 := ofDigits_drop_eq hash.toList 16 (by omega)
  have h3 := ofDigits_drop_eq hash.toList 24 (by omega)
  have hend : hash.toList.drop 32 = [] := List.drop_of_length_le (by omega)
  rw [List.drop_zero] at h0
  rw [hend, List.map_nil, Nat.ofDigits_nil] at h3
  simp only [toNat_hashWord, Nat.reduceMul, List.drop_zero]
  rw [hashValue, h0, h1, h2, h3]
  ring

theorem shiftLeft_64_or (x : ℕ) (w : UInt64) : x <<< 64 ||| w.toNat = x * 2 ^ 64 + w.toNat := by
  rw [← Nat.shiftLeft_add_eq_or_of_lt w.toNat_lt, Nat.shiftLeft_eq]

/-- `check_hash_128` is exact: its `uint512_t` is the hash's value. -/
theorem checkHash128_eq (hash : Hash) (difficulty : DifficultyType) :
    checkHash128 hash difficulty = decide (hashValue hash * difficulty.toNat < 2 ^ 256) := by
  unfold checkHash128
  simp only [show List.range 4 = [0, 1, 2, 3] from rfl, List.foldl_cons, List.foldl_nil,
    shiftLeft_64_or, Nat.reduceSub]
  have hval : (((0 * 2 ^ 64 + (hashWord hash 3).toNat) * 2 ^ 64 + (hashWord hash 2).toNat) *
      2 ^ 64 + (hashWord hash 1).toNat) * 2 ^ 64 + (hashWord hash 0).toNat = hashValue hash := by
    rw [hashValue_eq_words]
    ring
  simp only [hval, Nat.le_sub_one_iff_lt (Nat.two_pow_pos 256)]

/-- `check_hash_64` is exact for either body of `mul`: the early exit on the top word and the
carry chain over the other three decide the same bound. -/
theorem checkHash64_eq (impl : MulImpl) (hash : Hash) (difficulty : UInt64) :
    checkHash64 impl hash difficulty = decide (hashValue hash * difficulty.toNat < 2 ^ 256) := by
  have hprod : hashValue hash * difficulty.toNat =
      (hashWord hash 0).toNat * difficulty.toNat +
        2 ^ 64 * ((hashWord hash 1).toNat * difficulty.toNat) +
        2 ^ 128 * ((hashWord hash 2).toNat * difficulty.toNat) +
        2 ^ 192 * ((hashWord hash 3).toNat * difficulty.toNat) := by
    rw [hashValue_eq_words]
    ring
  have h0 := mul_spec impl (hashWord hash 0) difficulty
  have h1 := mul_spec impl (hashWord hash 1) difficulty
  have h2 := mul_spec impl (hashWord hash 2) difficulty
  have h3 := mul_spec impl (hashWord hash 3) difficulty
  rw [hprod]
  unfold checkHash64
  generalize (hashWord hash 0).toNat * difficulty.toNat = p0 at *
  generalize (hashWord hash 1).toNat * difficulty.toNat = p1 at *
  generalize (hashWord hash 2).toNat * difficulty.toNat = p2 at *
  generalize (hashWord hash 3).toNat * difficulty.toNat = p3 at *
  generalize mul impl (hashWord hash 3) difficulty = m3 at *
  generalize mul impl (hashWord hash 0) difficulty = m0 at *
  generalize mul impl (hashWord hash 1) difficulty = m1 at *
  generalize mul impl (hashWord hash 2) difficulty = m2 at *
  obtain ⟨top, high⟩ := m3
  obtain ⟨lo0, cur⟩ := m0
  obtain ⟨low1, high1⟩ := m1
  obtain ⟨low2, high2⟩ := m2
  dsimp only at h0 h1 h2 h3 ⊢
  by_cases hhigh : high = 0
  · -- the top product fits a word: the answer is the carry out of the sum of the products
    have hzero : high.toNat = 0 := by rw [hhigh, UInt64.toNat_zero]
    simp only [hhigh, ne_eq, not_true_eq_false, if_false, cadc, cadd]
    have hc1 := toNat_carry_add cur low1
    generalize decide (cur + low1 < cur) = c1 at *
    have hc2 := toNat_carry_add_add high1 low2 c1
    generalize (high1 + low2 < high1 || (c1 && high1 + low2 == 18446744073709551615)) = c2 at *
    have hc3 := toNat_carry_add_add high2 top c2
    generalize (high2 + top < high2 || (c2 && high2 + top == 18446744073709551615)) = c3 at *
    have := lo0.toNat_lt
    have := cur.toNat_lt
    have := low1.toNat_lt
    have := high1.toNat_lt
    have := low2.toNat_lt
    have := high2.toNat_lt
    have := top.toNat_lt
    cases c3 <;>
      simp only [Bool.not_false, Bool.not_true, Bool.toNat_true, Bool.toNat_false] at hc3 ⊢
    · rw [eq_comm, decide_eq_true_iff]
      omega
    · rw [eq_comm, decide_eq_false_iff_not]
      omega
  · -- the top product alone reaches `2 ^ 256`
    have hne : high.toNat ≠ 0 := fun h => hhigh (UInt64.toNat_inj.mp h)
    simp only [ne_eq, hhigh, not_false_eq_true, if_true]
    rw [eq_comm, decide_eq_false_iff_not]
    omega

theorem checkHash_exact (impl : MulImpl) (hash : Hash) :
    (∀ difficulty : DifficultyType,
      checkHash impl hash difficulty = true ↔ hashValue hash * difficulty.toNat < 2 ^ 256) ∧
    ∀ difficulty : UInt64,
      checkHash64 impl hash difficulty = checkHash128 hash (BitVec.ofNat 128 difficulty.toNat) := by
  constructor
  · intro difficulty
    unfold checkHash
    split
    · rename_i hsmall
      rw [checkHash64_eq, UInt64.toNat_ofNat', Nat.mod_eq_of_lt (by omega), decide_eq_true_iff]
    · rw [checkHash128_eq, decide_eq_true_iff]
  · intro difficulty
    have hlt := difficulty.toNat_lt
    rw [checkHash64_eq, checkHash128_eq, BitVec.toNat_ofNat, Nat.mod_eq_of_lt (by omega)]

end CheckHash

section NextDifficulty

/-- The cut window of `length` samples: from the first index kept to one past the last, after
`DIFFICULTY_CUT` outliers are cut from each end of a full window. -/
def cutWindow (length : ℕ) : ℕ × ℕ :=
  if length ≤ difficultyWindow - 2 * difficultyCut then (0, length)
  else ((length - (difficultyWindow - 2 * difficultyCut) + 1) / 2,
    (length - (difficultyWindow - 2 * difficultyCut) + 1) / 2 +
      (difficultyWindow - 2 * difficultyCut))

/-- The work done over the cut window of the first `DIFFICULTY_WINDOW` samples: the rise of the
cumulative difficulty between its ends. -/
def cutTotalWork (cumulativeDifficulties : List UInt64) : ℕ :=
  let window := cumulativeDifficulties.take difficultyWindow
  let cut := cutWindow window.length
  (window.getD (cut.2 - 1) 0).toNat - (window.getD cut.1 0).toNat

/-- The time the cut window took, at least one second: between its ends in the sorted
timestamps of the first `DIFFICULTY_WINDOW` samples. -/
def cutTimeSpan (timestamps : List UInt64) : ℕ :=
  let sorted := (timestamps.take difficultyWindow).insertionSort (· ≤ ·)
  let cut := cutWindow sorted.length
  max 1 ((sorted.getD (cut.2 - 1) 0).toNat - (sorted.getD cut.1 0).toNat)

theorem cutWindow_bounds (length : ℕ) (h2 : 2 ≤ length) (hle : length ≤ difficultyWindow) :
    (cutWindow length).1 + 2 ≤ (cutWindow length).2 ∧ (cutWindow length).2 ≤ length := by
  unfold cutWindow
  simp only [difficultyWindow, difficultyCut] at hle ⊢
  by_cases h : length ≤ 360 - 2 * 60
  · simp only [h, if_true]
    omega
  · simp only [h, if_false]
    omega

/-- Work is done only over a window of at least two samples. -/
theorem two_le_of_cutTotalWork_pos {cumulativeDifficulties : List UInt64}
    (hwork : 0 < cutTotalWork cumulativeDifficulties) :
    2 ≤ (cumulativeDifficulties.take difficultyWindow).length := by
  by_contra hlt
  have hcut : cutWindow (cumulativeDifficulties.take difficultyWindow).length =
      (0, (cumulativeDifficulties.take difficultyWindow).length) := by
    rw [cutWindow, if_pos (le_trans (show _ ≤ 1 by omega) (by decide))]
  simp only [cutTotalWork, hcut] at hwork
  have hzero : (cumulativeDifficulties.take difficultyWindow).length - 1 = 0 := by omega
  rw [hzero, Nat.sub_self] at hwork
  exact Nat.lt_irrefl 0 hwork

/-- Cutting both lists to the window, as both functions do, is taking the window. -/
theorem resize_eq_take {α β : Type} (l : List α) (l' : List β) (a : α) (b : β)
    (hlen : l.length = l'.length) :
    (if l.length > difficultyWindow then
      (vectorResize l difficultyWindow a, vectorResize l' difficultyWindow b) else (l, l')) =
      (l.take difficultyWindow, l'.take difficultyWindow) := by
  split
  · simp only [vectorResize, Prod.mk.injEq]
    constructor <;> rw [Nat.sub_eq_zero_of_le (by omega), List.replicate_zero, List.append_nil]
  · rw [List.take_of_length_le (by omega), List.take_of_length_le (by omega)]

theorem getD_le_getD_of_pairwise {s : List UInt64} (hs : s.Pairwise (· ≤ ·)) {i j : ℕ}
    (hij : i ≤ j) (hj : j < s.length) : s.getD i 0 ≤ s.getD j 0 := by
  rw [List.getD_eq_getElem _ _ (by omega), List.getD_eq_getElem _ _ hj]
  rcases Nat.lt_or_eq_of_le hij with hlt | rfl
  · exact List.pairwise_iff_getElem.mp hs i j (by omega) hj hlt
  · exact UInt64.le_refl _

/-- The time span of a sorted window, clamped to one second, does not wrap. -/
theorem toNat_timeSpan {s : List UInt64} (hs : s.Pairwise (· ≤ ·)) {b e : ℕ}
    (hbe : b + 2 ≤ e) (he : e ≤ s.length) :
    (if s.getD (e - 1) 0 - s.getD b 0 = 0 then 1 else s.getD (e - 1) 0 - s.getD b 0).toNat =
      max 1 ((s.getD (e - 1) 0).toNat - (s.getD b 0).toNat) := by
  have hle := getD_le_getD_of_pairwise hs (show b ≤ e - 1 by omega) (by omega)
  have hsub := UInt64.toNat_sub_of_le _ _ hle
  split
  · rename_i h
    rw [h, UInt64.toNat_zero] at hsub
    simp only [UInt64.reduceToNat]
    omega
  · rename_i h
    have hne : (s.getD (e - 1) 0 - s.getD b 0).toNat ≠ 0 := fun h0 => h (UInt64.toNat_inj.mp h0)
    omega

theorem getD_map_ofNat (l : List UInt64) (i : ℕ) :
    (l.map fun d => BitVec.ofNat 128 d.toNat).getD i 0 = BitVec.ofNat 128 (l.getD i 0).toNat := by
  simpa using List.getD_map l 0 (fun d : UInt64 => BitVec.ofNat 128 d.toNat) (n := i)

theorem toNat_ofNat_sub_ofNat {x y : UInt64} (h : y.toNat ≤ x.toNat) :
    (BitVec.ofNat 128 x.toNat - BitVec.ofNat 128 y.toNat).toNat = x.toNat - y.toNat := by
  have := x.toNat_lt
  rw [BitVec.toNat_sub, BitVec.toNat_ofNat, BitVec.toNat_ofNat]
  omega

/-- The tail of `next_difficulty`: a quotient rounded up never exceeds the dividend, so below
`2 ^ 128` it is never clamped. -/
theorem toNat_clampedCeilDiv {x timeSpan : ℕ} (hx : x < 2 ^ 128) (hts : 0 < timeSpan) :
    (if (x + timeSpan - 1) / timeSpan > 2 ^ 128 - 1 then 0
      else BitVec.ofNat 128 ((x + timeSpan - 1) / timeSpan)).toNat = x ⌈/⌉ timeSpan := by
  have hle : x ⌈/⌉ timeSpan ≤ x :=
    (ceilDiv_le_iff_le_mul hts).mpr (Nat.le_mul_of_pos_left x hts)
  rw [Nat.ceilDiv_eq_add_pred_div] at hle ⊢
  rw [if_neg (by omega), BitVec.toNat_ofNat, Nat.mod_eq_of_lt (by omega)]

/-- The tail of `next_difficulty_64`: the high word of the product and the wrap of the rounding
sum detect overflow exactly. -/
theorem toNat_roundUp64 (impl : MulImpl) (totalWork targetSeconds timeSpan : UInt64)
    (hts : 0 < timeSpan.toNat) :
    (if (mul impl totalWork targetSeconds).2 ≠ 0 ∨
        (mul impl totalWork targetSeconds).1 + timeSpan - 1 < (mul impl totalWork targetSeconds).1
      then 0 else ((mul impl totalWork targetSeconds).1 + timeSpan - 1) / timeSpan).toNat =
      if totalWork.toNat * targetSeconds.toNat + timeSpan.toNat - 1 < 2 ^ 64 then
        totalWork.toNat * targetSeconds.toNat ⌈/⌉ timeSpan.toNat
      else 0 := by
  have hm := mul_spec impl totalWork targetSeconds
  generalize mul impl totalWork targetSeconds = m at *
  obtain ⟨low, high⟩ := m
  dsimp only at hm ⊢
  generalize totalWork.toNat * targetSeconds.toNat = product at *
  have hlow := low.toNat_lt
  have htsLt := timeSpan.toNat_lt
  -- the rounded-up sum, computed modulo the word
  have hsum : (low + timeSpan - 1).toNat = (low.toNat + timeSpan.toNat - 1) % 2 ^ 64 := by
    rw [UInt64.toNat_sub, UInt64.toNat_add, UInt64.toNat_one]
    omega
  have hwrap : low + timeSpan - 1 < low ↔ 2 ^ 64 ≤ low.toNat + timeSpan.toNat - 1 := by
    rw [UInt64.lt_iff_toNat_lt, hsum]
    omega
  rw [Nat.ceilDiv_eq_add_pred_div]
  by_cases hhigh : high = 0
  · have hzero : high.toNat = 0 := by rw [hhigh, UInt64.toNat_zero]
    by_cases hfit : low.toNat + timeSpan.toNat - 1 < 2 ^ 64
    · rw [if_neg (by rw [hwrap]; simp only [hhigh, ne_eq, not_true_eq_false, false_or]; omega),
        if_pos (by omega), UInt64.toNat_div, hsum, Nat.mod_eq_of_lt hfit]
      congr 1
      omega
    · rw [if_pos (Or.inr (hwrap.mpr (by omega))), if_neg (by omega), UInt64.toNat_zero]
  · have hne : high.toNat ≠ 0 := fun h => hhigh (UInt64.toNat_inj.mp h)
    rw [if_pos (Or.inl hhigh), if_neg (by omega), UInt64.toNat_zero]

section Window

variable (timestamps cumulativeDifficulties : List UInt64)
  (hlen : timestamps.length = cumulativeDifficulties.length)
  (hwork : 0 < cutTotalWork cumulativeDifficulties)

include hlen hwork in
/-- `next_difficulty` on 64-bit cumulative difficulties: the work over the cut window times the
target, divided by the time it took and rounded up. -/
theorem nextDifficulty_toNat (targetSeconds : UInt64) :
    (nextDifficulty timestamps (cumulativeDifficulties.map fun d => BitVec.ofNat 128 d.toNat)
      targetSeconds.toNat).toNat =
      cutTotalWork cumulativeDifficulties * targetSeconds.toNat ⌈/⌉ cutTimeSpan timestamps := by
  have h2 := two_le_of_cutTotalWork_pos hwork
  have hwindow : (timestamps.take difficultyWindow).length =
      (cumulativeDifficulties.take difficultyWindow).length := by
    simp only [List.length_take, hlen]
  have hsorted := List.pairwise_insertionSort (· ≤ ·) (timestamps.take difficultyWindow)
  have hsortedLen := List.length_insertionSort (· ≤ ·) (timestamps.take difficultyWindow)
  have hbounds := cutWindow_bounds (timestamps.take difficultyWindow).length
    (by omega) (by simp only [List.length_take]; omega)
  unfold nextDifficulty cutTotalWork cutTimeSpan at *
  rw [resize_eq_take _ _ _ _ (by simpa using hlen)]
  dsimp only at hwork ⊢
  simp only [← cutWindow.eq_1, ← List.map_take, getD_map_ofNat, hsortedLen, ← hwindow]
    at hwork ⊢
  rw [if_neg (by omega)]
  generalize cutWindow (timestamps.take difficultyWindow).length = cut at *
  obtain ⟨b, e⟩ := cut
  dsimp only at hbounds hwork ⊢
  rw [toNat_timeSpan hsorted (by omega) (by omega), toNat_ofNat_sub_ofNat (by omega)]
  -- the work and the target are words, so the quotient is never clamped
  apply toNat_clampedCeilDiv _ (by omega)
  calc _ < 2 ^ 64 * 2 ^ 64 :=
        Nat.mul_lt_mul'' (lt_of_le_of_lt (Nat.sub_le _ _) (UInt64.toNat_lt _))
          targetSeconds.toNat_lt
    _ = 2 ^ 128 := by norm_num

include hlen hwork in
/-- `next_difficulty_64`: the same rounded-up quotient when the rounding sum fits a word,
else 0. -/
theorem nextDifficulty64_toNat (impl : MulImpl) (targetSeconds : UInt64) :
    (nextDifficulty64 impl timestamps cumulativeDifficulties targetSeconds).toNat =
      if cutTotalWork cumulativeDifficulties * targetSeconds.toNat + cutTimeSpan timestamps - 1 <
          2 ^ 64 then
        cutTotalWork cumulativeDifficulties * targetSeconds.toNat ⌈/⌉ cutTimeSpan timestamps
      else 0 := by
  have h2 := two_le_of_cutTotalWork_pos hwork
  have hwindow : (timestamps.take difficultyWindow).length =
      (cumulativeDifficulties.take difficultyWindow).length := by
    simp only [List.length_take, hlen]
  have hsorted := List.pairwise_insertionSort (· ≤ ·) (timestamps.take difficultyWindow)
  have hsortedLen := List.length_insertionSort (· ≤ ·) (timestamps.take difficultyWindow)
  have hbounds := cutWindow_bounds (timestamps.take difficultyWindow).length
    (by omega) (by simp only [List.length_take]; omega)
  unfold nextDifficulty64 cutTotalWork cutTimeSpan at *
  rw [resize_eq_take _ _ _ _ (by simpa using hlen)]
  dsimp only at hwork ⊢
  simp only [← cutWindow.eq_1, hsortedLen, ← hwindow] at hwork ⊢
  rw [if_neg (by omega)]
  generalize cutWindow (timestamps.take difficultyWindow).length = cut at *
  obtain ⟨b, e⟩ := cut
  dsimp only at hbounds hwork ⊢
  rw [← toNat_timeSpan hsorted (by omega) (by omega), ← UInt64.toNat_sub_of_le _ _ (by
      rw [UInt64.le_iff_toNat_le]
      omega)]
  exact toNat_roundUp64 impl _ _ _ (by rw [toNat_timeSpan hsorted (by omega) (by omega)]; omega)

include hlen hwork in
/-- `next_difficulty_64` and `next_difficulty` agree wherever the word version does not give
up: both round the window's work times the target up over its time span, and the word
version returns 0 exactly when the rounding sum does not fit a word. -/
theorem nextDifficulty64_agrees (impl : MulImpl) (targetSeconds : UInt64) :
    (nextDifficulty64 impl timestamps cumulativeDifficulties targetSeconds ≠ 0 →
      (nextDifficulty64 impl timestamps cumulativeDifficulties targetSeconds).toNat =
        (nextDifficulty timestamps (cumulativeDifficulties.map fun d => BitVec.ofNat 128 d.toNat)
          targetSeconds.toNat).toNat) ∧
    (nextDifficulty timestamps (cumulativeDifficulties.map fun d => BitVec.ofNat 128 d.toNat)
        targetSeconds.toNat).toNat =
      cutTotalWork cumulativeDifficulties * targetSeconds.toNat ⌈/⌉ cutTimeSpan timestamps ∧
    (nextDifficulty64 impl timestamps cumulativeDifficulties targetSeconds).toNat =
      if cutTotalWork cumulativeDifficulties * targetSeconds.toNat + cutTimeSpan timestamps - 1 <
          2 ^ 64 then
        cutTotalWork cumulativeDifficulties * targetSeconds.toNat ⌈/⌉ cutTimeSpan timestamps
      else 0 := by
  have h128 := nextDifficulty_toNat timestamps cumulativeDifficulties hlen hwork targetSeconds
  have h64 := nextDifficulty64_toNat timestamps cumulativeDifficulties hlen hwork impl targetSeconds
  refine ⟨fun hne => ?_, h128, h64⟩
  have hne' : (nextDifficulty64 impl timestamps cumulativeDifficulties targetSeconds).toNat ≠ 0 :=
    fun h => hne (UInt64.toNat_inj.mp h)
  rw [h64] at hne' ⊢
  rw [h128, if_pos (by by_contra h; exact hne' (if_neg h))]

end Window

/-- Two blocks two minutes apart with a thousand of work between them. -/
theorem nextDifficulty64_agrees_twoBlocks :
    (nextDifficulty64 .portable [0, 120] [1000, 2000] 120 ≠ 0 →
      (nextDifficulty64 .portable [0, 120] [1000, 2000] 120).toNat =
        (nextDifficulty [0, 120] ([1000, 2000].map fun d : UInt64 => BitVec.ofNat 128 d.toNat)
          (120 : UInt64).toNat).toNat) ∧
    (nextDifficulty [0, 120] ([1000, 2000].map fun d : UInt64 => BitVec.ofNat 128 d.toNat)
        (120 : UInt64).toNat).toNat =
      cutTotalWork [1000, 2000] * (120 : UInt64).toNat ⌈/⌉ cutTimeSpan [0, 120] ∧
    (nextDifficulty64 .portable [0, 120] [1000, 2000] 120).toNat =
      if cutTotalWork [1000, 2000] * (120 : UInt64).toNat + cutTimeSpan [0, 120] - 1 < 2 ^ 64 then
        cutTotalWork [1000, 2000] * (120 : UInt64).toNat ⌈/⌉ cutTimeSpan [0, 120]
      else 0 :=
  nextDifficulty64_agrees [0, 120] [1000, 2000] rfl (by decide) .portable 120

end NextDifficulty

end Wazn
