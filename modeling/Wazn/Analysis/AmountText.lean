import Mathlib.Tactic.Ring
import Wazn.Model.AmountText

/-!
# Amount text is exact

`print_money` at the default decimal point writes digits and at most one point, which
`parse_amount` reads back to the amount (`parseAmount_printMoney`). Conversely, an accepted
string is, trimmed, a numeral of digits with at most one point whose value times
`10 ^ default_decimal_point` is the amount (`parseAmount_numeral`): the zeros the parser drops
are trailing zeros of the fraction, and the zeros it pads with scale the value.
-/

set_option autoImplicit false

namespace Wazn

namespace Cryptonote

/-! ## Lists of characters -/

theorem idxOf?_append_cons {c : Char} {pre : List Char} (hc : c ∉ pre) (post : List Char) :
    (pre ++ c :: post).idxOf? c = some pre.length := by
  induction pre with
  | nil => simp [List.idxOf?_cons]
  | cons b pre ih =>
    have hb : b ≠ c := fun h => hc (h ▸ List.mem_cons_self)
    rw [List.cons_append, List.idxOf?_cons, ih (fun h => hc (List.mem_cons_of_mem _ h))]
    simp [hb]

theorem exists_append_cons_of_idxOf? {c : Char} :
    ∀ {l : List Char} {i : ℕ}, l.idxOf? c = some i →
      ∃ pre post, l = pre ++ c :: post ∧ c ∉ pre ∧ pre.length = i := by
  intro l
  induction l with
  | nil => simp
  | cons b l ih =>
    intro i h
    rw [List.idxOf?_cons] at h
    by_cases hb : b = c
    · subst hb
      simp only [beq_self_eq_true, if_true, Option.some.injEq] at h
      exact ⟨[], l, rfl, List.not_mem_nil, h⟩
    · simp only [beq_iff_eq, hb, if_false] at h
      obtain ⟨j, hj, rfl⟩ := Option.map_eq_some_iff.mp h
      obtain ⟨pre, post, rfl, hc, rfl⟩ := ih hj
      refine ⟨b :: pre, post, rfl, ?_, rfl⟩
      rw [List.mem_cons, not_or]
      exact ⟨Ne.symm hb, hc⟩

theorem trim_of_forall {s : List Char} (hs : ∀ c ∈ s, isSpace c = false) : trim s = s := by
  have hdrop : s.dropWhile isSpace = s := by
    rw [List.dropWhile_eq_self_iff]
    intro hl
    simp [hs _ (List.getElem_mem hl)]
  rw [trim, hdrop, List.rdropWhile_eq_self_iff]
  intro hl
  simp [hs _ (List.getLast_mem hl)]

theorem isSpace_of_isDigit {c : Char} (hc : c.isDigit) : isSpace c = false := by
  simp only [Char.isDigit, Bool.and_eq_true, decide_eq_true_eq] at hc
  simp only [isSpace, Bool.or_eq_false_iff, decide_eq_false_iff_not]
  refine ⟨⟨⟨⟨⟨?_, ?_⟩, ?_⟩, ?_⟩, ?_⟩, ?_⟩ <;> rintro rfl <;> simp at hc

theorem ofDigitChars_append_zeros (l : List Char) (k : ℕ) :
    Nat.ofDigitChars 10 (l ++ List.replicate k '0') 0 = Nat.ofDigitChars 10 l 0 * 10 ^ k := by
  rw [Nat.ofDigitChars_append, Nat.ofDigitChars_replicate_zero, Nat.mul_comm]

theorem ofDigitChars_zeros_append (k : ℕ) (l : List Char) :
    Nat.ofDigitChars 10 (List.replicate k '0' ++ l) 0 = Nat.ofDigitChars 10 l 0 := by
  rw [Nat.ofDigitChars_append, Nat.ofDigitChars_replicate_zero, Nat.mul_zero]

/-! ## The steps of `parse_amount` -/

theorem getXtypeFromString_eq_some {s : List Char} {a : UInt64}
    (h : getXtypeFromString s = some a) :
    (∀ c ∈ s, c.isDigit) ∧ s ≠ [] ∧ a.toNat = Nat.ofDigitChars 10 s 0 := by
  unfold getXtypeFromString at h
  split_ifs at h with hdigits hval
  cases h
  refine ⟨fun c hc => List.all_eq_true.mp hdigits c hc, hval.1, ?_⟩
  rw [UInt64.toNat_ofNat', Nat.mod_eq_of_lt hval.2]

theorem getXtypeFromString_of_digits {s : List Char} (hdigits : ∀ c ∈ s, c.isDigit)
    (hne : s ≠ []) (hlt : Nat.ofDigitChars 10 s 0 < 2 ^ 64) :
    getXtypeFromString s = some (UInt64.ofNat (Nat.ofDigitChars 10 s 0)) := by
  rw [getXtypeFromString, if_pos (List.all_eq_true.mpr hdigits), if_pos ⟨hne, hlt⟩]

/-- The zeros the loop drops are trailing zeros of the fraction: from `pre ++ fraction` with
`fraction_size` the fraction's length, it keeps `pre` and a prefix of the fraction, whose
length it returns. -/
theorem dropFractionZeros_spec (defaultDecimalPoint : ℕ) (pre : List Char) :
    ∀ (fraction : List Char) (strAmount : List Char) (fractionSize : ℕ),
      dropFractionZeros defaultDecimalPoint (pre ++ fraction) fraction.length =
        (strAmount, fractionSize) →
      ∃ kept zeros, fraction = kept ++ List.replicate zeros '0' ∧ strAmount = pre ++ kept ∧
        fractionSize = kept.length := by
  intro fraction
  induction fraction using List.reverseRecOn with
  | nil =>
    intro strAmount fractionSize h
    simp only [List.length_nil, dropFractionZeros, List.append_nil, Prod.mk.injEq] at h
    exact ⟨[], 0, rfl, by simp [h.1], by simp [h.2]⟩
  | append_singleton fraction c ih =>
    intro strAmount fractionSize h
    rw [List.length_append, List.length_singleton, dropFractionZeros, ← List.append_assoc,
      List.getLast?_append_of_ne_nil _ (List.cons_ne_nil c []), List.getLast?_singleton,
      List.dropLast_concat] at h
    split_ifs at h with hdrop
    · -- a trailing zero dropped: the loop goes on with the fraction before it
      obtain ⟨kept, zeros, rfl, rfl, rfl⟩ := ih strAmount fractionSize h
      have hc : c = '0' := Option.some.inj hdrop.2
      refine ⟨kept, zeros + 1, ?_, rfl, rfl⟩
      rw [hc, List.replicate_succ', List.append_assoc]
    · -- the loop stops: nothing dropped
      simp only [Prod.mk.injEq] at h
      exact ⟨fraction ++ [c], 0, by simp, by rw [← h.1, List.append_assoc], by simp [h.2]⟩

/-- What `erasePoint` keeps of a string: its integer digits and the kept part of its
fraction, with trailing zeros after it and no more than `default_decimal_point` digits. -/
theorem erasePoint_spec {defaultDecimalPoint : ℕ} {s strAmount : List Char} {fractionSize : ℕ}
    (h : erasePoint defaultDecimalPoint s = some (strAmount, fractionSize)) :
    ∃ integer kept zeros,
      (s = integer ∧ kept = [] ∧ zeros = 0 ∨
        s = integer ++ '.' :: (kept ++ List.replicate zeros '0')) ∧
      strAmount = integer ++ kept ∧ fractionSize = kept.length ∧
      fractionSize ≤ defaultDecimalPoint := by
  unfold erasePoint at h
  cases hpoint : s.idxOf? '.' with
  | none =>
    rw [hpoint] at h
    cases h
    exact ⟨s, [], 0, Or.inl ⟨rfl, rfl, rfl⟩, by simp, rfl, Nat.zero_le _⟩
  | some pointIndex =>
    rw [hpoint] at h
    obtain ⟨integer, fraction, rfl, -, rfl⟩ := exists_append_cons_of_idxOf? hpoint
    have hsize : (integer ++ '.' :: fraction).length - integer.length - 1 = fraction.length := by
      simp only [List.length_append, List.length_cons]
      omega
    simp only [hsize] at h
    rw [← List.singleton_append, ← List.append_assoc] at h
    cases hdrop : dropFractionZeros defaultDecimalPoint (integer ++ ['.'] ++ fraction)
      fraction.length with
    | mk strAmount' fractionSize' =>
      rw [hdrop] at h
      simp only [] at h
      split_ifs at h with hlong
      cases h
      obtain ⟨kept, zeros, rfl, rfl, rfl⟩ :=
        dropFractionZeros_spec defaultDecimalPoint _ fraction _ _ hdrop
      refine ⟨integer, kept, zeros, Or.inr (by simp), ?_, rfl, Nat.le_of_not_lt hlong⟩
      rw [List.append_assoc, List.eraseIdx_append_of_length_le (Nat.le_refl _), Nat.sub_self,
        List.singleton_append, List.eraseIdx_cons_zero]

/-! ## The two directions -/

/-- What `print_money` writes at the default decimal point: the amount's digits with zeros in
front, split by the point before the last `decimalPoint` of them. -/
theorem printMoney_eq (decimalPoint : ℕ) (amount : UInt64) :
    ∃ digits, (∀ c ∈ digits, c.isDigit) ∧ decimalPoint < digits.length ∧
      Nat.ofDigitChars 10 digits 0 = amount.toNat ∧
      printMoney decimalPoint amount none =
        if 0 < decimalPoint then
          digits.take (digits.length - decimalPoint) ++
            '.' :: digits.drop (digits.length - decimalPoint)
        else digits := by
  have hdigits : ∀ c ∈ Nat.toDigits 10 amount.toNat, c.isDigit := fun c hc =>
    Nat.isDigit_of_mem_toDigits (by decide) (by decide) hc
  have hpos : 0 < (Nat.toDigits 10 amount.toNat).length := Nat.length_toDigits_pos
  unfold printMoney insertMoneyDecimalPoint
  simp only [Option.getD_none]
  by_cases hshort : (Nat.toDigits 10 amount.toNat).length < decimalPoint + 1
  · -- padded with zeros
    rw [if_pos hshort]
    refine ⟨_, ?_, ?_, ?_, rfl⟩
    · intro c hc
      rcases List.mem_append.mp hc with hc | hc
      · rw [List.eq_of_mem_replicate hc]
        rfl
      · exact hdigits c hc
    · simp only [List.length_append, List.length_replicate]
      omega
    · rw [ofDigitChars_zeros_append, Nat.ofDigitChars_ten_toDigits]
  · rw [if_neg hshort]
    exact ⟨_, hdigits, by omega, Nat.ofDigitChars_ten_toDigits, rfl⟩

example : printMoney 9 15 none = "0.000000015".toList := by decide

theorem dropFractionZeros_self (defaultDecimalPoint : ℕ) (strAmount : List Char) :
    dropFractionZeros defaultDecimalPoint strAmount defaultDecimalPoint =
      (strAmount, defaultDecimalPoint) := by
  cases defaultDecimalPoint with
  | zero => rfl
  | succ k => rw [dropFractionZeros, if_neg fun h => Nat.lt_irrefl _ h.1]

/-- A fraction of exactly `default_decimal_point` digits is kept whole. -/
theorem erasePoint_append_cons {defaultDecimalPoint : ℕ} {integer fraction : List Char}
    (hinteger : '.' ∉ integer) (hfraction : fraction.length = defaultDecimalPoint) :
    erasePoint defaultDecimalPoint (integer ++ '.' :: fraction) =
      some (integer ++ fraction, defaultDecimalPoint) := by
  have hsize : (integer ++ '.' :: fraction).length - integer.length - 1 = defaultDecimalPoint := by
    simp only [List.length_append, List.length_cons, hfraction]
    omega
  rw [erasePoint, idxOf?_append_cons hinteger]
  simp only [hsize, dropFractionZeros_self, Nat.lt_irrefl, if_false]
  rw [List.eraseIdx_append_of_length_le (Nat.le_refl _), Nat.sub_self, List.eraseIdx_cons_zero]

/-- `parse_amount` reads back what `print_money` writes. -/
theorem parseAmount_printMoney (defaultDecimalPoint : ℕ) (amount : UInt64) :
    parseAmount defaultDecimalPoint (printMoney defaultDecimalPoint amount none) = some amount := by
  obtain ⟨digits, hdigits, hlen, hval, hprint⟩ := printMoney_eq defaultDecimalPoint amount
  have hnoPoint : '.' ∉ digits := fun h => by simpa using hdigits '.' h
  have hne : digits ≠ [] := List.ne_nil_of_length_pos (by omega)
  have hparsed : getXtypeFromString digits = some amount := by
    rw [getXtypeFromString_of_digits hdigits hne (hval ▸ amount.toNat_lt), hval,
      UInt64.ofNat_toNat]
  rw [hprint]
  split_ifs with hpoint
  · -- the point, then exactly `defaultDecimalPoint` fraction digits
    have hspace : ∀ c ∈ digits.take (digits.length - defaultDecimalPoint) ++
        '.' :: digits.drop (digits.length - defaultDecimalPoint), isSpace c = false := by
      intro c hc
      rcases List.mem_append.mp hc with hc | hc
      · exact isSpace_of_isDigit (hdigits c (List.mem_of_mem_take hc))
      · rcases List.mem_cons.mp hc with rfl | hc
        · rfl
        · exact isSpace_of_isDigit (hdigits c (List.mem_of_mem_drop hc))
    have hfraction : (digits.drop (digits.length - defaultDecimalPoint)).length =
        defaultDecimalPoint := by
      rw [List.length_drop]
      omega
    have hinteger : '.' ∉ digits.take (digits.length - defaultDecimalPoint) := fun h =>
      hnoPoint (List.mem_of_mem_take h)
    have herase := erasePoint_append_cons hinteger hfraction
    rw [List.take_append_drop] at herase
    simp only [parseAmount, trim_of_forall hspace, herase, Option.bind_eq_bind, Option.bind_some,
      hne, if_false, Nat.lt_irrefl, hparsed]
  · -- no point: the digits of the amount
    have herase : erasePoint 0 digits = some (digits, 0) := by
      rw [erasePoint, List.idxOf?_eq_none_iff.mpr hnoPoint]
    have hzero : defaultDecimalPoint = 0 := by omega
    subst hzero
    simp only [parseAmount, trim_of_forall fun c hc => isSpace_of_isDigit (hdigits c hc), herase,
      Option.bind_eq_bind, Option.bind_some, hne, if_false, Nat.lt_irrefl, hparsed]

/-- The padding of `parse_amount` brings the fraction to `default_decimal_point` digits. -/
theorem padFraction_eq {strAmount : List Char} {fractionSize defaultDecimalPoint : ℕ}
    (hle : fractionSize ≤ defaultDecimalPoint) :
    (if fractionSize < defaultDecimalPoint then
        strAmount ++ List.replicate (defaultDecimalPoint - fractionSize) '0'
      else strAmount) =
      strAmount ++ List.replicate (defaultDecimalPoint - fractionSize) '0' := by
  split_ifs with hlt
  · rfl
  · rw [show defaultDecimalPoint - fractionSize = 0 by omega, List.replicate_zero, List.append_nil]

/-- What `parse_amount` accepts: trimmed, digits with at most one point, not the point alone,
whose value is the amount divided by `10 ^ default_decimal_point`. -/
theorem parseAmount_numeral {defaultDecimalPoint : ℕ} {s : List Char} {amount : UInt64}
    (h : parseAmount defaultDecimalPoint s = some amount) :
    ∃ integer fraction,
      (trim s = integer ∧ fraction = [] ∨ trim s = integer ++ '.' :: fraction) ∧
      (∀ c ∈ integer ++ fraction, c.isDigit) ∧ integer ++ fraction ≠ [] ∧
      amount.toNat * 10 ^ fraction.length =
        Nat.ofDigitChars 10 (integer ++ fraction) 0 * 10 ^ defaultDecimalPoint := by
  simp only [parseAmount, Option.bind_eq_bind, Option.bind_eq_some_iff] at h
  obtain ⟨⟨strAmount, fractionSize⟩, herase, h⟩ := h
  obtain ⟨integer, kept, zeros, hshape, rfl, rfl, hle⟩ := erasePoint_spec herase
  by_cases hempty : integer ++ kept = []
  · simp [hempty] at h
  rw [if_neg hempty, padFraction_eq hle] at h
  obtain ⟨hdigits, -, hval⟩ := getXtypeFromString_eq_some h
  refine ⟨integer, kept ++ List.replicate zeros '0', ?_, ?_, ?_, ?_⟩
  · rcases hshape with ⟨hs, rfl, rfl⟩ | hs
    · exact Or.inl ⟨hs, rfl⟩
    · exact Or.inr hs
  · intro c hc
    rw [← List.append_assoc] at hc
    rcases List.mem_append.mp hc with hc | hc
    · exact hdigits c (List.mem_append_left _ hc)
    · rw [List.eq_of_mem_replicate hc]
      rfl
  · rw [← List.append_assoc]
    exact List.append_ne_nil_of_left_ne_nil hempty _
  · -- both sides are the kept digits' value times `10 ^ (zeros + default_decimal_point)`
    rw [hval, ofDigitChars_append_zeros, ← List.append_assoc, ofDigitChars_append_zeros,
      List.length_append, List.length_replicate, Nat.pow_add]
    conv_rhs => rw [← Nat.sub_add_cancel hle, Nat.pow_add]
    dsimp only
    ring

/-- Not every numeral is accepted: at decimal point 0 the zero of `.0` is dropped with the
fraction, and nothing is left. -/
example : parseAmount 0 ".0".toList = none := by decide

/-- **Amount text is exact.** At every default decimal point, `parse_amount` reads back what
`print_money` writes, and accepts only a trimmed numeral of digits with at most one point whose
value times `10 ^ default_decimal_point` is the amount. -/
theorem parseAmount_exact (defaultDecimalPoint : ℕ) :
    (∀ amount : UInt64,
      parseAmount defaultDecimalPoint (printMoney defaultDecimalPoint amount none) = some amount) ∧
    ∀ (s : List Char) (amount : UInt64), parseAmount defaultDecimalPoint s = some amount →
      ∃ integer fraction,
        (trim s = integer ∧ fraction = [] ∨ trim s = integer ++ '.' :: fraction) ∧
        (∀ c ∈ integer ++ fraction, c.isDigit) ∧ integer ++ fraction ≠ [] ∧
        amount.toNat * 10 ^ fraction.length =
          Nat.ofDigitChars 10 (integer ++ fraction) 0 * 10 ^ defaultDecimalPoint :=
  ⟨parseAmount_printMoney defaultDecimalPoint, fun _ _ h => parseAmount_numeral h⟩

end Cryptonote

end Wazn
