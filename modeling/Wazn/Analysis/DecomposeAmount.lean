import Wazn.Analysis.MinerTxValid

/-!
# The handler calls of `decompose_amount_into_digits`

The template hands its chunks and its dust to two handlers. Whatever the handlers do, they see
one sequence of calls: the one two recording handlers see (`decomposeAmountIntoDigitsWith_eq`).
What is proved below of the template is proved of that sequence, `decomposeCalls`.

The loop keeps `DecomposeInv`: after `k` digits the order is `10 ^ k` while digits are left,
and the dust with what is left of the amount, in units of the order, is at most the amount.
So no chunk, no dust sum and no order that is read again wraps (`DecomposeInv.toNat_chunk`,
`DecomposeInv.fits`, `DecomposeInv.flush`), and the loop on `uint64_t` computes what the model
on natural numbers does (`callAmounts_decomposeCalls`). From there the sum of the calls is the
amount (`decomposeAmountIntoDigits_sum`), and with no dust threshold every chunk is one the
validator accepts. The count of dust calls is the flag `is_dust_handled`, set once
(`decomposeWithLoop_calls`), and every chunk call is the chunk of one nonzero digit.

The loop needs one round per digit: 20 rounds cover every `uint64_t`, and more change nothing
(`decomposeWithLoop_add_fuel`).
-/

set_option autoImplicit false

namespace Wazn

namespace Cryptonote

/-- A call of one of the two handlers of `decompose_amount_into_digits`. -/
inductive DecomposeCall
  | chunk (amount : UInt64)
  | dust (amount : UInt64)
  deriving DecidableEq, Repr

namespace DecomposeCall

/-- The amount a call hands over. -/
def amount : DecomposeCall → UInt64
  | chunk a => a
  | dust a => a

def isDust : DecomposeCall → Bool
  | chunk _ => false
  | dust _ => true

@[simp] theorem isDust_chunk (a : UInt64) : (chunk a).isDust = false := rfl

@[simp] theorem isDust_dust (a : UInt64) : (dust a).isDust = true := rfl

/-- A call made to the handlers. -/
def apply {σ : Type} (chunkHandler dustHandler : UInt64 → σ → σ) (s : σ) :
    DecomposeCall → σ
  | chunk a => chunkHandler a s
  | dust a => dustHandler a s

end DecomposeCall

/-- The chunk handler that records its calls. -/
def recordChunk (a : UInt64) (calls : List DecomposeCall) : List DecomposeCall :=
  calls ++ [.chunk a]

/-- The dust handler that records its calls. -/
def recordDust (a : UInt64) (calls : List DecomposeCall) : List DecomposeCall :=
  calls ++ [.dust a]

/-- The calls `decompose_amount_into_digits` makes, in order. -/
def decomposeCalls (amount dustThreshold : UInt64) : List DecomposeCall :=
  decomposeAmountIntoDigitsWith amount dustThreshold recordChunk recordDust []

/-! ## Any handlers see the recorded calls -/

section Handlers

variable {σ : Type} (dustThreshold : UInt64) (chunkHandler dustHandler : UInt64 → σ → σ)

/-- Running the loop after some calls is making those calls and then the loop's own. -/
theorem decomposeWithLoop_foldl : ∀ (fuel : ℕ) (amount dust order : UInt64) (handled : Bool)
    (s : σ) (calls : List DecomposeCall),
    decomposeWithLoop dustThreshold chunkHandler dustHandler fuel amount dust order handled
        (calls.foldl (DecomposeCall.apply chunkHandler dustHandler) s) =
      (decomposeWithLoop dustThreshold recordChunk recordDust fuel amount dust order handled
        calls).foldl (DecomposeCall.apply chunkHandler dustHandler) s := by
  intro fuel
  induction fuel with
  | zero =>
    intro amount dust order handled s calls
    simp only [decomposeWithLoop]
    split <;> simp [recordDust, DecomposeCall.apply]
  | succ fuel ih =>
    intro amount dust order handled s calls
    simp only [decomposeWithLoop]
    split
    · split <;> simp [recordDust, DecomposeCall.apply]
    · split
      · exact ih _ _ _ _ s calls
      · -- the flush and the chunk are two more calls before the rest of the loop
        rw [← ih]
        congr 1
        cases handled <;> by_cases hdust : dust = 0 <;>
          by_cases hchunk : amount % 10 * order = 0 <;>
          simp [hdust, hchunk, recordChunk, recordDust, DecomposeCall.apply]

/-- `decompose_amount_into_digits` makes the calls of `decomposeCalls` to any handlers. -/
theorem decomposeAmountIntoDigitsWith_eq (amount : UInt64) (s : σ) :
    decomposeAmountIntoDigitsWith amount dustThreshold chunkHandler dustHandler s =
      (decomposeCalls amount dustThreshold).foldl
        (DecomposeCall.apply chunkHandler dustHandler) s := by
  unfold decomposeCalls decomposeAmountIntoDigitsWith
  split
  · rfl
  · exact decomposeWithLoop_foldl dustThreshold chunkHandler dustHandler 20 amount 0 1 false s []

end Handlers

/-! ## No step wraps -/

/-- What the loop keeps after `k` digits of `total`: while digits are left the order is
`10 ^ k`, the dust and what is left of the amount at that order are within `total`, and once
the dust is flushed a nonzero chunk no longer fits. -/
structure DecomposeInv (total t k : ℕ) (amount dust order : UInt64) (handled : Bool) :
    Prop where
  total_lt : total < 2 ^ 64
  order_eq : amount ≠ 0 → order.toNat = 10 ^ k
  dust_add_le : dust.toNat + amount.toNat * 10 ^ k ≤ total
  lt_of_handled : handled = true → t < dust.toNat + 10 ^ k

namespace DecomposeInv

variable {total t k : ℕ} {amount dust order : UInt64} {handled : Bool}

/-- The amount at the next order, and the chunk of its last digit. -/
theorem mul_split (amount k : ℕ) :
    amount * 10 ^ k = amount % 10 * 10 ^ k + amount / 10 * 10 ^ (k + 1) := by
  conv_lhs => rw [← Nat.mod_add_div amount 10]
  ring

theorem toNat_chunk (h : DecomposeInv total t k amount dust order handled) (ha : amount ≠ 0) :
    (amount % 10 * order).toNat = amount.toNat % 10 * 10 ^ k := by
  have hsplit := mul_split amount.toNat k
  have hbound := h.dust_add_le
  rw [UInt64.toNat_mul, UInt64.toNat_mod, h.order_eq ha]
  exact Nat.mod_eq_of_lt (by have := h.total_lt; simp only [UInt64.reduceToNat]; omega)

theorem toNat_add_chunk (h : DecomposeInv total t k amount dust order handled)
    (ha : amount ≠ 0) :
    (dust + amount % 10 * order).toNat = dust.toNat + amount.toNat % 10 * 10 ^ k := by
  have hsplit := mul_split amount.toNat k
  have hbound := h.dust_add_le
  rw [UInt64.toNat_add, h.toNat_chunk ha]
  exact Nat.mod_eq_of_lt (by have := h.total_lt; omega)

/-- The order read with the next digit is `10 ^ (k + 1)`: a digit left means the order is within
the amount. -/
theorem order_succ (h : DecomposeInv total t k amount dust order handled) (ha : amount ≠ 0) :
    amount / 10 ≠ 0 → (order * 10).toNat = 10 ^ (k + 1) := by
  intro hnext
  have hsplit := mul_split amount.toNat k
  have hbound := h.dust_add_le
  have hnext : 1 ≤ amount.toNat / 10 := by
    have := UInt64.toNat_div amount 10
    have hne : (amount / 10).toNat ≠ 0 := fun h0 => hnext (UInt64.toNat_inj.mp h0)
    simp only [UInt64.reduceToNat] at this
    omega
  have hle : 10 ^ (k + 1) ≤ amount.toNat / 10 * 10 ^ (k + 1) := Nat.le_mul_of_pos_left _ hnext
  rw [UInt64.toNat_mul, h.order_eq ha, show (10 : UInt64).toNat = 10 from rfl, ← pow_succ]
  exact Nat.mod_eq_of_lt (by have := h.total_lt; omega)

/-- A chunk that joins the dust keeps the invariant. -/
theorem fits (h : DecomposeInv total t k amount dust order handled) (ha : amount ≠ 0)
    (hfits : dust.toNat + amount.toNat % 10 * 10 ^ k ≤ t) :
    DecomposeInv total t (k + 1) (amount / 10) (dust + amount % 10 * order) (order * 10)
      handled := by
  have hsplit := mul_split amount.toNat k
  have hpow : 10 ^ k ≤ 10 ^ (k + 1) := Nat.pow_le_pow_right (by norm_num) (Nat.le_succ k)
  refine ⟨h.total_lt, h.order_succ ha, ?_, fun hh => ?_⟩
  · rw [h.toNat_add_chunk ha, UInt64.toNat_div]
    have := h.dust_add_le
    simp only [UInt64.reduceToNat]
    omega
  · have := h.lt_of_handled hh
    rw [h.toNat_add_chunk ha]
    omega

/-- A chunk that does not fit flushes the dust and keeps the invariant. -/
theorem flush (h : DecomposeInv total t k amount dust order handled) (ha : amount ≠ 0)
    (hfits : ¬ dust.toNat + amount.toNat % 10 * 10 ^ k ≤ t) (handled' : Bool) :
    DecomposeInv total t (k + 1) (amount / 10) dust (order * 10) handled' := by
  have hsplit := mul_split amount.toNat k
  have hdigit : amount.toNat % 10 * 10 ^ k < 10 ^ (k + 1) := by
    have hpos : 0 < 10 ^ k := by positivity
    calc amount.toNat % 10 * 10 ^ k ≤ 9 * 10 ^ k := Nat.mul_le_mul_right _ (by omega)
      _ < 10 ^ (k + 1) := by rw [pow_succ]; omega
  refine ⟨h.total_lt, h.order_succ ha, ?_, fun _ => by omega⟩
  rw [UInt64.toNat_div]
  have := h.dust_add_le
  simp only [UInt64.reduceToNat]
  omega

/-- The loop starts with no dust at order 1. -/
theorem init (amount : UInt64) (t : ℕ) :
    DecomposeInv amount.toNat t 0 amount 0 1 false :=
  ⟨amount.toNat_lt, fun _ => rfl, by simp, fun h => absurd h Bool.false_ne_true⟩

end DecomposeInv

/-! ## The loop on `uint64_t` is the loop on natural numbers -/

section Refinement

/-- The amounts of the calls, as natural numbers. -/
def callAmounts (calls : List DecomposeCall) : List ℕ := calls.map fun c => c.amount.toNat

@[simp] theorem callAmounts_append (calls calls' : List DecomposeCall) :
    callAmounts (calls ++ calls') = callAmounts calls ++ callAmounts calls' :=
  List.map_append

@[simp] theorem callAmounts_chunk (a : UInt64) : callAmounts [.chunk a] = [a.toNat] := rfl

@[simp] theorem callAmounts_dust (a : UInt64) : callAmounts [.dust a] = [a.toNat] := rfl

@[simp] theorem toNat_eq_zero_iff {a : UInt64} : a.toNat = 0 ↔ a = 0 :=
  ⟨fun h => UInt64.toNat_inj.mp h, fun h => h ▸ rfl⟩

theorem toNat_ne_zero_iff {a : UInt64} : a.toNat ≠ 0 ↔ a ≠ 0 := not_congr toNat_eq_zero_iff

/-- The final flush, on both sides. -/
theorem callAmounts_finalFlush (handled : Bool) (dust : UInt64) (calls : List DecomposeCall) :
    callAmounts (if ¬ handled = true ∧ dust ≠ 0 then recordDust dust calls else calls) =
      if ¬ handled = true ∧ dust.toNat ≠ 0 then callAmounts calls ++ [dust.toNat]
      else callAmounts calls := by
  cases handled <;> by_cases hd : dust = 0 <;> simp [hd, recordDust]

variable (t : UInt64)

/-- With enough fuel on both sides, the recorded amounts are what `decomposeLoop` pushes. -/
theorem decomposeWithLoop_callAmounts : ∀ (fuel fuel' total k : ℕ) (amount dust order : UInt64)
    (handled : Bool) (calls : List DecomposeCall),
    DecomposeInv total t.toNat k amount dust order handled → amount.toNat < 10 ^ fuel →
    amount.toNat ≤ fuel' →
    callAmounts (decomposeWithLoop t recordChunk recordDust fuel amount dust order handled calls) =
      decomposeLoop t.toNat fuel' amount.toNat dust.toNat (10 ^ k) handled (callAmounts calls) := by
  intro fuel
  induction fuel with
  | zero =>
    intro fuel' total k amount dust order handled calls _ hfuel _
    have hzero : amount.toNat = 0 := by simpa using hfuel
    rw [decomposeWithLoop, callAmounts_finalFlush]
    cases fuel' with
    | zero => rfl
    | succ fuel' => rw [decomposeLoop, if_pos hzero]
  | succ fuel ih =>
    intro fuel' total k amount dust order handled calls hinv hfuel hfuel'
    rw [decomposeWithLoop]
    by_cases hzero : amount = 0
    · -- no digit left: the final flush
      have hzero' : amount.toNat = 0 := by rw [hzero]; rfl
      rw [if_pos hzero, callAmounts_finalFlush]
      cases fuel' with
      | zero => rfl
      | succ fuel' => rw [decomposeLoop, if_pos hzero']
    · obtain ⟨g, rfl⟩ : ∃ g, fuel' = g + 1 := ⟨fuel' - 1, by
        have := toNat_ne_zero_iff.mpr hzero
        omega⟩
      have hfuel : amount.toNat / 10 < 10 ^ fuel := by
        rw [pow_succ] at hfuel
        omega
      have hdiv : (amount / 10).toNat = amount.toNat / 10 := UInt64.toNat_div amount 10
      have hfits : dust + amount % 10 * order ≤ t ↔
          dust.toNat + amount.toNat % 10 * 10 ^ k ≤ t.toNat := by
        rw [UInt64.le_iff_toNat_le, hinv.toNat_add_chunk hzero]
      have hchunk : amount % 10 * order ≠ 0 ↔ amount.toNat % 10 * 10 ^ k ≠ 0 := by
        rw [← toNat_ne_zero_iff, hinv.toNat_chunk hzero]
      rw [if_neg hzero, decomposeLoop, if_neg (toNat_ne_zero_iff.mpr hzero)]
      dsimp only
      by_cases hfit : dust.toNat + amount.toNat % 10 * 10 ^ k ≤ t.toNat
      · -- the chunk joins the dust
        rw [if_pos (hfits.mpr hfit), if_pos hfit, ← hinv.toNat_add_chunk hzero, ← pow_succ,
          ← hdiv]
        exact ih g total (k + 1) _ _ _ handled calls (hinv.fits hzero hfit) (by rwa [hdiv])
          (by rw [hdiv]; omega)
      · -- the dust is flushed once, then the chunk is handed over
        rw [if_neg (mt hfits.mp hfit), if_neg hfit, ← pow_succ, ← hdiv]
        have hstep := ih g total (k + 1) (amount / 10) dust (order * 10)
          (handled || (¬ handled = true ∧ dust ≠ 0))
          (let calls := if ¬ handled = true ∧ dust ≠ 0 then recordDust dust calls else calls
           if amount % 10 * order ≠ 0 then recordChunk (amount % 10 * order) calls else calls)
          (hinv.flush hzero hfit _) (by rwa [hdiv]) (by rw [hdiv]; omega)
        rw [hstep]
        congr 1
        · simp only [Bool.decide_and, toNat_ne_zero_iff]
        · rw [← hinv.toNat_chunk hzero]
          generalize amount % 10 * order = chunk
          cases handled <;> by_cases hd : dust = 0 <;> by_cases hc : chunk = 0 <;>
            simp [hc, hd, recordChunk, recordDust, callAmounts, DecomposeCall.amount]

/-- `decompose_amount_into_digits` on `uint64_t` hands over the amounts that the model on
natural numbers, which `construct_miner_tx` uses, pushes. -/
theorem callAmounts_decomposeCalls (amount : UInt64) :
    callAmounts (decomposeCalls amount t) = decomposeAmountIntoDigits amount.toNat t.toNat := by
  unfold decomposeCalls decomposeAmountIntoDigitsWith decomposeAmountIntoDigits
  by_cases hzero : amount = 0
  · rw [if_pos hzero, if_pos (toNat_eq_zero_iff.mpr hzero)]
    rfl
  · rw [if_neg hzero, if_neg (toNat_ne_zero_iff.mpr hzero)]
    exact decomposeWithLoop_callAmounts t 20 amount.toNat amount.toNat 0 amount 0 1 false []
      (DecomposeInv.init amount t.toNat) (lt_of_lt_of_le amount.toNat_lt (by norm_num)) le_rfl

end Refinement

/-! ## The calls one by one -/

section Calls

variable (t : UInt64)

@[simp] theorem length_filter_isDust_chunk (calls : List DecomposeCall) (a : UInt64) :
    ((calls ++ [DecomposeCall.chunk a]).filter DecomposeCall.isDust).length =
      (calls.filter DecomposeCall.isDust).length := by
  simp [List.filter_append, List.filter]

@[simp] theorem length_filter_isDust_dust (calls : List DecomposeCall) (a : UInt64) :
    ((calls ++ [DecomposeCall.dust a]).filter DecomposeCall.isDust).length =
      (calls.filter DecomposeCall.isDust).length + 1 := by
  simp [List.filter_append, List.filter]

/-- A chunk call after a flush step is an earlier call, or the step's own nonzero chunk. -/
theorem mem_chunk_of_flushStep {c chunk dust : UInt64} {flush : Prop} [Decidable flush]
    {calls : List DecomposeCall}
    (hc : DecomposeCall.chunk c ∈
      (if chunk ≠ 0 then recordChunk chunk (if flush then recordDust dust calls else calls)
        else if flush then recordDust dust calls else calls)) :
    DecomposeCall.chunk c ∈ calls ∨ c = chunk ∧ chunk ≠ 0 := by
  by_cases hflush : flush <;> by_cases hchunk : chunk = 0 <;>
    simp only [hflush, hchunk, if_true, if_false, ne_eq, not_true_eq_false, not_false_eq_true,
      recordChunk, recordDust, List.mem_append, List.mem_singleton, reduceCtorEq,
      DecomposeCall.chunk.injEq, or_false] at hc
  all_goals tauto

/-- What the calls so far keep: one dust call once the flag is set and none before, every chunk
call the chunk of one digit, and with no threshold no dust at all. -/
structure CallsInv (dust : UInt64) (handled : Bool) (calls : List DecomposeCall) : Prop where
  count : (calls.filter DecomposeCall.isDust).length = if handled then 1 else 0
  chunks : ∀ c, DecomposeCall.chunk c ∈ calls → IsDigitChunk c.toNat
  no_dust : t = 0 → dust = 0 ∧ handled = false

/-- After the final flush at most one dust call is made, and none with no threshold. -/
theorem CallsInv.finalFlush {dust : UInt64} {handled : Bool} {calls : List DecomposeCall}
    (h : CallsInv t dust handled calls) :
    let calls' := if ¬ handled = true ∧ dust ≠ 0 then recordDust dust calls else calls
    (calls'.filter DecomposeCall.isDust).length ≤ 1 ∧
      (∀ c, DecomposeCall.chunk c ∈ calls' → IsDigitChunk c.toNat) ∧
      (t = 0 → (calls'.filter DecomposeCall.isDust).length = 0) := by
  have hcount := h.count
  by_cases hflush : ¬ handled = true ∧ dust ≠ 0
  · -- the first and only dust call
    have hhandled : handled = false := by simpa using hflush.1
    simp only [hhandled, Bool.false_eq_true, if_false] at hcount
    simp only [if_pos hflush, recordDust, length_filter_isDust_dust, hcount]
    refine ⟨le_rfl, fun c hc => ?_, fun ht => absurd (h.no_dust ht).1 hflush.2⟩
    simp only [List.mem_append, List.mem_singleton, reduceCtorEq, or_false] at hc
    exact h.chunks c hc
  · simp only [if_neg hflush]
    refine ⟨by rw [hcount]; split <;> omega, h.chunks, fun ht => ?_⟩
    rw [hcount, (h.no_dust ht).2]
    rfl

/-- The dust calls are counted by `is_dust_handled`, and every chunk call is the chunk of one
digit. -/
theorem decomposeWithLoop_calls : ∀ (fuel total k : ℕ) (amount dust order : UInt64)
    (handled : Bool) (calls : List DecomposeCall),
    DecomposeInv total t.toNat k amount dust order handled → CallsInv t dust handled calls →
    let calls' := decomposeWithLoop t recordChunk recordDust fuel amount dust order handled calls
    (calls'.filter DecomposeCall.isDust).length ≤ 1 ∧
      (∀ c, DecomposeCall.chunk c ∈ calls' → IsDigitChunk c.toNat) ∧
      (t = 0 → (calls'.filter DecomposeCall.isDust).length = 0) := by
  intro fuel
  induction fuel with
  | zero =>
    intro total k amount dust order handled calls _ hcalls
    exact hcalls.finalFlush t
  | succ fuel ih =>
    intro total k amount dust order handled calls hinv hcalls
    rw [decomposeWithLoop]
    by_cases hzero : amount = 0
    · rw [if_pos hzero]
      exact hcalls.finalFlush t
    rw [if_neg hzero]
    dsimp only
    have hfits : dust + amount % 10 * order ≤ t ↔
        dust.toNat + amount.toNat % 10 * 10 ^ k ≤ t.toNat := by
      rw [UInt64.le_iff_toNat_le, hinv.toNat_add_chunk hzero]
    by_cases hfit : dust.toNat + amount.toNat % 10 * 10 ^ k ≤ t.toNat
    · -- the chunk joins the dust: no call, and with no threshold the dust stays 0
      rw [if_pos (hfits.mpr hfit)]
      refine ih total (k + 1) _ _ _ handled calls (hinv.fits hzero hfit)
        ⟨hcalls.count, hcalls.chunks, fun ht => ⟨?_, (hcalls.no_dust ht).2⟩⟩
      have hle := hfits.mpr hfit
      rw [ht] at hle
      exact UInt64.toNat_inj.mp (by have := UInt64.le_iff_toNat_le.mp hle; simp at this ⊢; omega)
    · rw [if_neg (mt hfits.mp hfit)]
      refine ih total (k + 1) _ _ _ _ _ (hinv.flush hzero hfit _) ⟨?_, ?_, ?_⟩
      · -- the flag is set exactly when the dust is flushed
        have hcount := hcalls.count
        cases handled <;> by_cases hd : dust = 0 <;>
          by_cases hc : amount % 10 * order = 0 <;>
          simp [hd, hc, hcount, recordChunk, recordDust, List.filter]
      · -- a chunk handed over is one nonzero digit at the order `10 ^ k`
        intro c hc
        rcases mem_chunk_of_flushStep hc with hc | ⟨rfl, hc0⟩
        · exact hcalls.chunks c hc
        · have hchunk := hinv.toNat_chunk hzero
          refine ⟨amount.toNat % 10, k, Nat.one_le_iff_ne_zero.mpr fun hd => hc0 ?_, by omega,
            hchunk⟩
          rw [← toNat_eq_zero_iff, hchunk, hd, Nat.zero_mul]
      · intro ht
        obtain ⟨hd, hh⟩ := hcalls.no_dust ht
        simp [hd, hh]

/-- One round per digit is enough: more fuel changes nothing. -/
theorem decomposeWithLoop_add_fuel {σ : Type} (chunkHandler dustHandler : UInt64 → σ → σ) :
    ∀ (fuel n : ℕ) (amount dust order : UInt64) (handled : Bool) (s : σ),
      amount.toNat < 10 ^ fuel →
      decomposeWithLoop t chunkHandler dustHandler (fuel + n) amount dust order handled s =
        decomposeWithLoop t chunkHandler dustHandler fuel amount dust order handled s := by
  intro fuel
  induction fuel with
  | zero =>
    intro n amount dust order handled s hfuel
    have hzero : amount = 0 := toNat_eq_zero_iff.mp (by simpa using hfuel)
    rw [Nat.zero_add]
    cases n with
    | zero => rfl
    | succ n => simp only [decomposeWithLoop, if_pos hzero]
  | succ fuel ih =>
    intro n amount dust order handled s hfuel
    have hfuel : (amount / 10).toNat < 10 ^ fuel := by
      rw [UInt64.toNat_div, pow_succ] at *
      simp only [UInt64.reduceToNat]
      omega
    rw [show fuel + 1 + n = fuel + n + 1 by omega, decomposeWithLoop, decomposeWithLoop]
    split
    · rfl
    · dsimp only
      split <;> exact ih n _ _ _ _ _ hfuel

/-- The first round starts from the amount, no dust, order 1 and the flag clear. -/
theorem callsInv_nil : CallsInv t 0 false [] :=
  ⟨rfl, fun _ h => absurd h List.not_mem_nil, fun _ => ⟨rfl, rfl⟩⟩

/-- `decompose_amount_into_digits` hands any handlers the calls of `decomposeCalls`: at most one
dust call, chunk calls each of one nonzero digit `d * 10 ^ k`, all of them summing to the amount
without wrapping, and with no dust threshold no dust call and only chunks that
`is_valid_decomposed_amount` accepts. -/
theorem decomposeAmountIntoDigits_exact (amount : UInt64) :
    (∀ {σ : Type} (chunkHandler dustHandler : UInt64 → σ → σ) (s : σ),
      decomposeAmountIntoDigitsWith amount t chunkHandler dustHandler s =
        (decomposeCalls amount t).foldl (DecomposeCall.apply chunkHandler dustHandler) s) ∧
    ((decomposeCalls amount t).filter DecomposeCall.isDust).length ≤ 1 ∧
    (∀ c, DecomposeCall.chunk c ∈ decomposeCalls amount t → IsDigitChunk c.toNat) ∧
    (callAmounts (decomposeCalls amount t)).sum = amount.toNat ∧
    (t = 0 → (∀ d, DecomposeCall.dust d ∉ decomposeCalls amount t) ∧
      ∀ c, DecomposeCall.chunk c ∈ decomposeCalls amount t →
        isValidDecomposedAmount c = true) := by
  have hcalls : ((decomposeCalls amount t).filter DecomposeCall.isDust).length ≤ 1 ∧
      (∀ c, DecomposeCall.chunk c ∈ decomposeCalls amount t → IsDigitChunk c.toNat) ∧
      (t = 0 → ((decomposeCalls amount t).filter DecomposeCall.isDust).length = 0) := by
    unfold decomposeCalls decomposeAmountIntoDigitsWith
    split
    · exact ⟨by simp, fun _ h => absurd h List.not_mem_nil, fun _ => rfl⟩
    · exact decomposeWithLoop_calls t 20 amount.toNat 0 amount 0 1 false []
        (DecomposeInv.init amount t.toNat) (callsInv_nil t)
  obtain ⟨hdust, hchunks, hnone⟩ := hcalls
  refine ⟨fun chunkHandler dustHandler s =>
      decomposeAmountIntoDigitsWith_eq t chunkHandler dustHandler amount s, hdust, hchunks, ?_,
    fun ht => ⟨fun d hd => ?_, fun c hc => ?_⟩⟩
  · rw [callAmounts_decomposeCalls, decomposeAmountIntoDigits_sum]
  · -- no call is a dust call
    have hnil := List.length_eq_zero_iff.mp (hnone ht)
    exact absurd (DecomposeCall.isDust_dust d) (by
      rw [List.filter_eq_nil_iff] at hnil
      exact hnil _ hd)
  · have := isValidDecomposedAmount_of_chunk (hchunks c hc) c.toNat_lt
    rwa [UInt64.ofNat_toNat] at this

end Calls

end Cryptonote

end Wazn
