import Mathlib.Data.Nat.Digits.Lemmas

/-!
# Fixed-width positional numerals

A codec that writes a number into a field of `l` digits writes Mathlib's
`Nat.digitsAppend b l n`: the base-`b` digits of `n`, least significant first, padded
with zeros. Mathlib proves that fields of `l` digits and the numbers below `b ^ l` are in
bijection (`Nat.setInvOn_digitsAppend_ofDigits`). What a codec's loop needs besides is
how a field is written one digit at a time, lowest first (`digitsAppend_succ`), and the
two directions of the bijection in the form a rewrite can use.

Code that reads a numeral digit by digit reads `n / b ^ i % b` (`ofDigits_div_pow_mod`), and
code that compares two numerals of one length from the top digit down compares their values
(`add_mul_lt_add_mul_iff`).
-/

set_option autoImplicit false

namespace Radix

variable {b : ℕ}

/-- A field of zeros. -/
theorem digitsAppend_zero_right (l : ℕ) : Nat.digitsAppend b l 0 = List.replicate l 0 := by
  rw [Nat.digitsAppend, Nat.digits_zero, List.nil_append, List.length_nil, Nat.sub_zero]

/-- Reading a field back gives the number. -/
theorem ofDigits_digitsAppend (l n : ℕ) : Nat.ofDigits b (Nat.digitsAppend b l n) = n := by
  rw [Nat.digitsAppend, Nat.ofDigits_append_replicate_zero, Nat.ofDigits_digits]

/-- A list of digits below the base is the field of its own value. -/
theorem digitsAppend_ofDigits (hb : 1 < b) {l : List ℕ} (hl : ∀ d ∈ l, d < b) :
    Nat.digitsAppend b l.length (Nat.ofDigits b l) = l :=
  (Nat.setInvOn_digitsAppend_ofDigits hb l.length).1 ⟨rfl, hl⟩

/-- A field of `l + 1` digits is the lowest digit followed by the field of `l` digits of
the rest. -/
theorem digitsAppend_succ (hb : 1 < b) {l n : ℕ} (hn : n < b ^ (l + 1)) :
    Nat.digitsAppend b (l + 1) n = n % b :: Nat.digitsAppend b l (n / b) := by
  have hdiv : n / b < b ^ l := by
    rw [Nat.div_lt_iff_lt_mul (by omega), ← pow_succ]
    exact hn
  have hlen : (n % b :: Nat.digitsAppend b l (n / b)).length = l + 1 := by
    rw [List.length_cons, Nat.length_digitsAppend hb l hdiv]
  have hlt : ∀ d ∈ n % b :: Nat.digitsAppend b l (n / b), d < b := by
    intro d hd
    rcases List.mem_cons.1 hd with rfl | hd
    · exact Nat.mod_lt n (by omega)
    · exact Nat.lt_of_mem_digitsAppend hb l d hd
  have hval : Nat.ofDigits b (n % b :: Nat.digitsAppend b l (n / b)) = n := by
    rw [Nat.ofDigits_cons, ofDigits_digitsAppend, Nat.mod_add_div]
  refine Nat.injOn_ofDigits hb (l + 1)
    ⟨Nat.length_digitsAppend hb (l + 1) hn, fun d hd => Nat.lt_of_mem_digitsAppend hb _ d hd⟩
    ⟨hlen, hlt⟩ ?_
  rw [ofDigits_digitsAppend, hval]

/-- The digit at position `i` of a numeral is its value divided by `b ^ i`, modulo `b`. -/
theorem ofDigits_div_pow_mod (hb : 1 < b) :
    ∀ {l : List ℕ}, (∀ d ∈ l, d < b) → ∀ i, Nat.ofDigits b l / b ^ i % b = l.getD i 0
  | [], _, i => by simp
  | d :: l, hl, i => by
    have hd := hl d List.mem_cons_self
    have hrest : (d + b * Nat.ofDigits b l) / b = Nat.ofDigits b l := by
      rw [Nat.add_mul_div_left _ _ (by omega), Nat.div_eq_of_lt hd, Nat.zero_add]
    rw [Nat.ofDigits_cons]
    cases i with
    | zero => rw [pow_zero, Nat.div_one, Nat.add_mul_mod_self_left, Nat.mod_eq_of_lt hd]; rfl
    | succ i =>
      rw [pow_succ', ← Nat.div_div_eq_div_mul, hrest,
        ofDigits_div_pow_mod hb (fun d hd' => hl d (List.mem_cons_of_mem _ hd')) i]
      rfl

/-- Two numerals whose lower parts are below `B` compare as their top digits, and as their lower
parts when the top digits are equal. -/
theorem add_mul_lt_add_mul_iff {x₀ x₁ d₀ d₁ B : ℕ} (h₀ : x₀ < B) (h₁ : x₁ < B) :
    x₀ + B * d₀ < x₁ + B * d₁ ↔ d₀ < d₁ ∨ d₀ = d₁ ∧ x₀ < x₁ := by
  rcases lt_trichotomy d₀ d₁ with hlt | rfl | hgt
  · have hle : B * (d₀ + 1) ≤ B * d₁ := Nat.mul_le_mul_left B hlt
    rw [Nat.mul_succ] at hle
    constructor
    · intro _
      exact Or.inl hlt
    · intro _
      omega
  · constructor
    · intro h
      exact Or.inr ⟨rfl, by omega⟩
    · rintro (h | ⟨_, h⟩)
      · omega
      · omega
  · have hle : B * (d₁ + 1) ≤ B * d₀ := Nat.mul_le_mul_left B hgt
    rw [Nat.mul_succ] at hle
    constructor
    · intro h
      omega
    · rintro (h | ⟨h, _⟩)
      · omega
      · omega

/-- A numeral of zeros with one digit set is that digit times its place. -/
theorem ofDigits_set_replicate_zero (v : ℕ) :
    ∀ {m i : ℕ}, i < m → Nat.ofDigits b ((List.replicate m 0).set i v) = b ^ i * v
  | m + 1, 0, _ => by simp [List.replicate_succ, Nat.ofDigits_cons]
  | m + 1, i + 1, h => by
    rw [List.replicate_succ, List.set_cons_succ, Nat.ofDigits_cons,
      ofDigits_set_replicate_zero v (by omega : i < m), pow_succ]
    ring

end Radix
