import Mathlib

/-!
# Windowed multi-scalar multiplication

A sum `∑ nᵢ • Pᵢ` over a commutative monoid is computed window by window: the scalars are cut
into digits of base `b` (`sum_range_pow_mul_div_mod`), the digits of one window are summed as
`∑ dᵢ • Pᵢ`, and the windows are put together from the top one down by Horner's rule, a
multiplication by `b` before each window (`horner`, `horner_eq`).

A window can be summed by buckets: the points whose digit is `t` are added up into bucket `t`,
and `∑ t • bucketₜ` is `∑ dᵢ • Pᵢ` (`sum_smul_eq_sum_buckets`). The weighted sum of the buckets
needs no multiplication: running from the top bucket down, a pail collects the buckets seen so
far and is added to the total after each one (`pail`, `pail_eq`).

The digits of base `2 ^ c` can be read bit by bit (`div_two_pow_mod_two_pow_succ`).
-/

set_option autoImplicit false

namespace MultiScalar

variable {M : Type} [AddCommMonoid M]

/-- Horner's rule from window `n - 1` down to window `0`: each round multiplies the accumulator
by `b`, then adds the next window. -/
def horner (b : ℕ) (f : ℕ → M) : ℕ → M → M
  | 0, acc => acc
  | n + 1, acc => horner b f n (b • acc + f n)

theorem horner_eq (b : ℕ) (f : ℕ → M) :
    ∀ n acc, horner b f n acc = b ^ n • acc + ∑ i ∈ Finset.range n, b ^ i • f i
  | 0, acc => by simp [horner]
  | n + 1, acc => by
    rw [horner, horner_eq b f n, smul_add, ← mul_smul, ← pow_succ, Finset.sum_range_succ,
      add_assoc, add_comm (b ^ n • f n)]

/-- The first `n` digits of base `b` of `v`, put together again, are `v` modulo `b ^ n`. -/
theorem sum_range_pow_mul_div_mod (b v : ℕ) :
    ∀ n, ∑ i ∈ Finset.range n, b ^ i * (v / b ^ i % b) = v % b ^ n
  | 0 => by simp [Nat.mod_one]
  | n + 1 => by
    rw [Finset.sum_range_succ, sum_range_pow_mul_div_mod b v n, Nat.mod_pow_succ]

/-- A list sum of finite sums is the finite sum of the list sums. -/
theorem sum_map_sum_range {α : Type} (l : List α) (n : ℕ) (g : ℕ → α → M) :
    (l.map fun x => ∑ i ∈ Finset.range n, g i x).sum =
      ∑ i ∈ Finset.range n, (l.map (g i)).sum := by
  induction l with
  | nil => simp
  | cons x l ih => simp only [List.map_cons, List.sum_cons, ih, Finset.sum_add_distrib]

/-- Horner's rule over windows that are sums over a list, each point's windows multiples of it,
is the sum over the list of what the windows of each point make. -/
theorem horner_sum {α : Type} (b : ℕ) (l : List α) (d : ℕ → α → ℕ) (P : α → M) (n : ℕ) :
    horner b (fun i => (l.map fun x => d i x • P x).sum) n 0 =
      (l.map fun x => (∑ i ∈ Finset.range n, b ^ i * d i x) • P x).sum := by
  rw [horner_eq, smul_zero, zero_add]
  simp_rw [Finset.sum_smul, mul_smul]
  rw [sum_map_sum_range]
  apply Finset.sum_congr rfl
  intro i _
  rw [List.smul_sum, List.map_map]
  rfl

/-! ## Buckets -/

/-- The points of `l` whose digit is `t`, added up. -/
def bucket {α : Type} (l : List α) (d : α → ℕ) (P : α → M) (t : ℕ) : M :=
  ((l.filter fun x => d x = t).map P).sum

/-- A point goes to the bucket of its digit and to no other. -/
theorem bucket_cons {α : Type} (x : α) (l : List α) (d : α → ℕ) (P : α → M) (t : ℕ) :
    bucket (x :: l) d P t = (if d x = t then P x else 0) + bucket l d P t := by
  unfold bucket
  by_cases h : d x = t
  · rw [List.filter_cons_of_pos (by simpa using h), List.map_cons, List.sum_cons, if_pos h]
  · rw [List.filter_cons_of_neg (by simpa using h), if_neg h, zero_add]

/-- With every digit below `B`, the weighted sum of the buckets `1` to `B - 1` is the sum of the
points times their digits. -/
theorem sum_smul_eq_sum_buckets {α : Type} (l : List α) (d : α → ℕ) (P : α → M) (B : ℕ)
    (hd : ∀ x ∈ l, d x < B) :
    (l.map fun x => d x • P x).sum =
      ∑ t ∈ Finset.range (B - 1), (t + 1) • bucket l d P (t + 1) := by
  induction l with
  | nil => simp [bucket]
  | cons x l ih =>
    have hx := hd x List.mem_cons_self
    rw [List.map_cons, List.sum_cons, ih fun y hy => hd y (List.mem_cons_of_mem x hy)]
    -- the point `x` goes to bucket `d x`, which is weighted `d x`
    have hsplit : ∀ t ∈ Finset.range (B - 1), (t + 1) • bucket (x :: l) d P (t + 1) =
        (if d x = t + 1 then (t + 1) • P x else 0) + (t + 1) • bucket l d P (t + 1) := by
      intro t _
      rw [bucket_cons, smul_add, smul_ite, smul_zero]
    -- only bucket `d x` sees `x`; a zero digit puts it in no bucket
    have hself : (∑ t ∈ Finset.range (B - 1), if d x = t + 1 then (t + 1) • P x else 0) =
        d x • P x := by
      rcases Nat.eq_zero_or_pos (d x) with h0 | hpos
      · rw [h0, zero_smul]
        exact Finset.sum_eq_zero fun t _ => if_neg (by omega)
      · rw [Finset.sum_eq_single (d x - 1)]
        · rw [if_pos (by omega), Nat.sub_add_cancel hpos]
        · intro t _ ht
          rw [if_neg (by omega)]
        · intro hnot
          exact absurd (Finset.mem_range.mpr (by omega)) hnot
    rw [Finset.sum_congr rfl hsplit, Finset.sum_add_distrib, hself]

/-- The running pail over the buckets `n` down to `1`: the pail takes each bucket, and the total
takes the pail after each. -/
def pail (f : ℕ → M) : ℕ → M → M → M
  | 0, _, acc => acc
  | i + 1, p, acc => pail f i (p + f (i + 1)) (acc + (p + f (i + 1)))

/-- The pail adds each bucket as many times as its index. -/
theorem pail_eq (f : ℕ → M) :
    ∀ n p acc, pail f n p acc = acc + n • p + ∑ t ∈ Finset.range n, (t + 1) • f (t + 1)
  | 0, p, acc => by simp [pail]
  | n + 1, p, acc => by
    rw [pail, pail_eq f n, Finset.sum_range_succ, succ_nsmul, smul_add, succ_nsmul]
    abel

/-! ## Digits of base `2 ^ c` -/

/-- One more bit of a window of base `2 ^ c` is the next bit of the number. -/
theorem div_two_pow_mod_two_pow_succ (v m c : ℕ) :
    v / 2 ^ m % 2 ^ (c + 1) = v / 2 ^ m % 2 ^ c + 2 ^ c * (v / 2 ^ (m + c) % 2) := by
  rw [Nat.mod_pow_succ, Nat.div_div_eq_div_mul, ← pow_add]

end MultiScalar
