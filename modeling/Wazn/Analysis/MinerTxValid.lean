import Mathlib.Algebra.Order.BigOperators.Group.List
import Wazn.Model.MinerTx

/-!
# The node accepts the miner transactions it builds

`construct_miner_tx` pays out exactly the amount it means to pay
(`decomposeAmountIntoDigits_sum`, `mergeLoop_sum`), in at most `max_outs` outputs where it
merges (`mergeLoop_length_le`), and in chunks of one decimal digit each from hard fork 2 on
(`decomposeLoop_chunks`), which are the amounts `is_valid_decomposed_amount` accepts
(`isValidDecomposedAmount_of_chunk`). So `prevalidate_miner_transaction` and
`validate_miner_transaction` accept what it builds (`constructMinerTx_accepted`), with two
exceptions:

* from hard fork 2 to 3 the amount is cut down to a multiple of
  `BASE_REWARD_CLAMP_THRESHOLD`, and the validator checks `money_in_use - fee <= base_reward`
  in `uint64_t`: when the part cut off is more than the reward, the difference wraps and
  the check fails (`constructMinerTx_rejected`, with a reward of 0 and a fee of 1);
* at hard fork 3 the genesis block's chunks are merged, and a merged chunk need not be a
  valid decomposed amount.
-/

set_option autoImplicit false

namespace Wazn

namespace Cryptonote

open Rct

/-! ## `decompose_amount_into_digits` -/

section Decompose

variable (t : ℕ)

/-- The loop keeps what it pushed, the dust it holds and the amount left, counted in units
of `order`, summing to the amount it started with. Once the dust is flushed, a chunk that
still fits under the threshold is zero, as the dust with `order` is above it. -/
theorem decomposeLoop_sum : ∀ (fuel amount dust order : ℕ) (handled : Bool) (out : List ℕ),
    amount ≤ fuel → (handled = true → t < dust + order) →
    (decomposeLoop t fuel amount dust order handled out).sum =
      out.sum + (if handled then 0 else dust) + amount * order := by
  intro fuel
  induction fuel with
  | zero =>
    intro amount dust order handled out hfuel _
    rw [decomposeLoop, show amount = 0 by omega, Nat.zero_mul, Nat.add_zero]
    cases handled <;> by_cases hdust : dust = 0 <;> simp [hdust]
  | succ fuel ih =>
    intro amount dust order handled out hfuel hinv
    rw [decomposeLoop]
    by_cases hzero : amount = 0
    · rw [if_pos hzero, hzero, Nat.zero_mul, Nat.add_zero]
      cases handled <;> by_cases hdust : dust = 0 <;> simp [hdust]
    rw [if_neg hzero]
    dsimp only
    have hsplit : amount * order = amount % 10 * order + amount / 10 * (order * 10) := by
      conv_lhs => rw [← Nat.mod_add_div amount 10]
      ring
    have hdigit : amount % 10 * order ≤ order * 10 := by
      calc amount % 10 * order ≤ 9 * order := Nat.mul_le_mul_right _ (by omega)
        _ ≤ order * 10 := by omega
    have hsmall : amount % 10 * order < order → amount % 10 * order = 0 := by
      intro h
      have hd : amount % 10 < 1 := Nat.lt_of_mul_lt_mul_right (by rw [Nat.one_mul]; exact h)
      rw [Nat.lt_one_iff.1 hd, Nat.zero_mul]
    by_cases hfits : dust + amount % 10 * order ≤ t
    · -- the chunk joins the dust; after the flush it is zero
      rw [if_pos hfits, ih _ _ _ _ _ (by omega) (fun h => by have := hinv h; omega), hsplit]
      cases handled
      · simp only [Bool.false_eq_true, if_false]
        omega
      · have hc := hsmall (by have := hinv rfl; omega)
        simp only [if_true]
        omega
    · rw [if_neg hfits, ih _ _ _ _ _ (by omega) (fun _ => by omega), hsplit]
      cases handled <;> by_cases hdust : dust = 0 <;> by_cases hc : amount % 10 * order = 0 <;>
        simp [hdust, hc] <;> omega

theorem decomposeAmountIntoDigits_sum (amount : ℕ) :
    (decomposeAmountIntoDigits amount t).sum = amount := by
  unfold decomposeAmountIntoDigits
  split
  · next h => rw [h, List.sum_nil]
  · rw [decomposeLoop_sum t amount amount 0 1 false [] le_rfl (by simp)]
    simp

/-- A chunk of one decimal digit: `d * 10 ^ k` for a digit `d` from 1 to 9. -/
def IsDigitChunk (a : ℕ) : Prop := ∃ d k, 1 ≤ d ∧ d ≤ 9 ∧ a = d * 10 ^ k

/-- With no dust threshold the dust stays 0, and every amount pushed is the chunk of one
digit. -/
theorem decomposeLoop_chunks : ∀ (fuel amount k : ℕ) (out : List ℕ),
    (∀ a ∈ out, IsDigitChunk a) → ∀ a ∈ decomposeLoop 0 fuel amount 0 (10 ^ k) false out,
      IsDigitChunk a := by
  intro fuel
  induction fuel with
  | zero =>
    intro amount k out hout
    simpa [decomposeLoop] using hout
  | succ fuel ih =>
    intro amount k out hout
    rw [decomposeLoop]
    by_cases hzero : amount = 0
    · simpa [hzero] using hout
    rw [if_neg hzero]
    dsimp only
    rw [← pow_succ]
    by_cases hfits : 0 + amount % 10 * 10 ^ k ≤ 0
    · -- a zero digit
      rw [if_pos hfits, show 0 + amount % 10 * 10 ^ k = 0 by omega]
      exact ih _ _ _ hout
    · -- a nonzero digit is pushed; there is no dust to flush
      have hdigit : amount % 10 ≠ 0 := fun h => hfits (by rw [h]; simp)
      rw [if_neg hfits]
      simp only [ne_eq, not_true_eq_false, and_false, if_false,
        Nat.mul_eq_zero, hdigit, false_or, pow_eq_zero_iff', OfNat.ofNat_ne_zero, false_and,
        not_false_eq_true, if_true]
      refine ih _ _ _ fun a ha => ?_
      rcases List.mem_append.1 ha with ha | ha
      · exact hout a ha
      · rw [List.mem_singleton.1 ha]
        exact ⟨amount % 10, k, by omega, by omega, rfl⟩

theorem decomposeAmountIntoDigits_chunks (amount : ℕ) :
    ∀ a ∈ decomposeAmountIntoDigits amount 0, IsDigitChunk a := by
  unfold decomposeAmountIntoDigits
  split
  · simp
  · exact decomposeLoop_chunks amount amount 0 [] (by simp)

end Decompose

/-- The chunks of one digit below `2 ^ 64` are the table of `valid_decomposed_outputs`. -/
theorem isValidDecomposedAmount_of_chunk {a : ℕ} (ha : IsDigitChunk a) (hlt : a < 2 ^ 64) :
    isValidDecomposedAmount (UInt64.ofNat a) = true := by
  obtain ⟨d, k, hd1, hd9, rfl⟩ := ha
  unfold isValidDecomposedAmount validDecomposedOutputs
  rw [List.contains_iff_mem, List.mem_append]
  by_cases hk : k < 19
  · left
    exact List.mem_flatMap.2 ⟨k, List.mem_range.2 hk,
      List.mem_map.2 ⟨d, List.mem_range'_1.2 ⟨hd1, by omega⟩, rfl⟩⟩
  · -- only `10 ^ 19` is so large and still below `2 ^ 64`
    right
    have hpow : 10 ^ 19 ≤ 10 ^ k := Nat.pow_le_pow_right (by norm_num) (by omega)
    have hle : d * 10 ^ 19 ≤ d * 10 ^ k := Nat.mul_le_mul_left d hpow
    have hd : d = 1 := by
      have : d * 10 ^ 19 < 2 ^ 64 := lt_of_le_of_lt hle hlt
      norm_num at this
      omega
    have hk19 : k = 19 := by
      by_contra hne
      have h20 : 10 ^ 20 ≤ 10 ^ k := Nat.pow_le_pow_right (by norm_num) (by omega)
      have : 10 ^ 20 < 2 ^ 64 := by
        calc 10 ^ 20 ≤ d * 10 ^ k := by rw [hd, Nat.one_mul]; exact h20
          _ < 2 ^ 64 := hlt
      norm_num at this
    rw [hd, hk19]
    decide
/-! ## The merge loop of `construct_miner_tx` -/

theorem mergeFirstTwo_sum (l : List ℕ) : (mergeFirstTwo l).sum = l.sum := by
  match l with
  | a0 :: a1 :: rest =>
    simp only [mergeFirstTwo, List.sum_cons]
    omega
  | [] => rfl
  | [_] => rfl

theorem mergeLoop_sum (maxOuts : ℕ) : ∀ (fuel : ℕ) (l : List ℕ),
    (mergeLoop maxOuts fuel l).sum = l.sum
  | 0, _ => rfl
  | fuel + 1, l => by
    rw [mergeLoop]
    split
    · rw [mergeLoop_sum maxOuts fuel, mergeFirstTwo_sum]
    · rfl

/-- With room for one output, the loop leaves at most `max_outs`: each round merges two
amounts into one. -/
theorem mergeLoop_length_le (maxOuts : ℕ) (hmax : 1 ≤ maxOuts) : ∀ (fuel : ℕ) (l : List ℕ),
    l.length ≤ fuel + maxOuts → (mergeLoop maxOuts fuel l).length ≤ maxOuts
  | 0, l, hl => by
    rw [mergeLoop]
    omega
  | fuel + 1, l, hl => by
    rw [mergeLoop]
    split
    · next hmore =>
      refine mergeLoop_length_le maxOuts hmax fuel _ ?_
      match l, hmore with
      | _ :: _ :: rest, _ =>
        simp only [mergeFirstTwo, List.length_cons] at hl ⊢
        omega
      | [_], hmore => simp at hmore; omega
    · omega

/-! ## Sums of amounts -/

theorem sumAmounts_map_ofNat (l : List ℕ) : sumAmounts (l.map UInt64.ofNat) = UInt64.ofNat l.sum := by
  unfold sumAmounts
  suffices h : ∀ acc : UInt64, (l.map UInt64.ofNat).foldl (· + ·) acc = acc + UInt64.ofNat l.sum by
    rw [h, UInt64.zero_add]
  induction l with
  | nil => simp
  | cons a l ih =>
    intro acc
    rw [List.map_cons, List.foldl_cons, ih, List.sum_cons, UInt64.ofNat_add, UInt64.add_assoc]

/-- The outputs do not overflow while their amounts sum below `2 ^ 64`. -/
theorem checkOutsOverflowLoop_of_lt : ∀ (vout : List TxOut) (money : UInt64),
    money.toNat + (vout.map fun o => o.amount.toNat).sum < 2 ^ 64 →
      checkOutsOverflowLoop money vout = true
  | [], _, _ => rfl
  | o :: vout, money, hsum => by
    rw [List.map_cons, List.sum_cons] at hsum
    have hadd : (o.amount + money).toNat = o.amount.toNat + money.toNat := by
      rw [UInt64.toNat_add, Nat.mod_eq_of_lt (by omega)]
    have hnot : ¬ o.amount + money < money := by
      rw [UInt64.lt_iff_toNat_lt, hadd]
      omega
    rw [checkOutsOverflowLoop, if_neg hnot]
    refine checkOutsOverflowLoop_of_lt vout _ ?_
    rw [UInt64.add_comm, hadd]
    omega

/-! ## What `construct_miner_tx` builds -/

section Construct

variable {height medianWeight alreadyGeneratedCoins currentBlockWeight fee : UInt64}
  {outKey : ℕ → PublicKey} {extra : List UInt8} {tx tx' : Transaction} {maxOuts : ℕ}
  {hardForkVersion : UInt8}

/-- The amounts add up to what is paid; where they are merged there are at most `max_outs`
of them, and otherwise they are the digits of the amount. -/
theorem minerTxOutAmounts_spec {amount : UInt64} {outAmounts : List ℕ} (hmax : 1 ≤ maxOuts)
    (h : minerTxOutAmounts height amount maxOuts hardForkVersion = some outAmounts) :
    outAmounts.sum = amount.toNat ∧
      (height = 0 ∨ 4 ≤ hardForkVersion → outAmounts.length ≤ maxOuts) ∧
      (¬ (height = 0 ∨ 4 ≤ hardForkVersion) → outAmounts = decomposeAmountIntoDigits amount.toNat
        (if 2 ≤ hardForkVersion then 0 else defaultDustThreshold)) := by
  unfold minerTxOutAmounts at h
  dsimp only at h
  generalize hdigits : decomposeAmountIntoDigits amount.toNat
    (if 2 ≤ hardForkVersion then 0 else defaultDustThreshold) = digits at h
  have hsum : digits.sum = amount.toNat := by rw [← hdigits, decomposeAmountIntoDigits_sum]
  by_cases hmerge : height = 0 ∨ 4 ≤ hardForkVersion
  · rw [if_pos hmerge] at h
    cases h
    exact ⟨by rw [mergeLoop_sum, hsum], fun _ => mergeLoop_length_le _ hmax _ _ (by omega),
      fun hnot => absurd hmerge hnot⟩
  · rw [if_neg hmerge] at h
    by_cases hmore : maxOuts < digits.length
    · rw [if_pos hmore] at h
      cases h
    · rw [if_neg hmore] at h
      cases h
      exact ⟨hsum, fun h => absurd h hmerge, fun _ => rfl⟩

theorem constructMinerTx_eq_some
    (h : constructMinerTx height medianWeight alreadyGeneratedCoins currentBlockWeight fee outKey
      extra tx maxOuts hardForkVersion = some tx') :
    ∃ reward outAmounts,
      getBlockReward medianWeight currentBlockWeight alreadyGeneratedCoins hardForkVersion =
        some reward ∧ 1 ≤ maxOuts ∧
      minerTxOutAmounts height (minerTxAmount reward fee hardForkVersion) maxOuts hardForkVersion =
        some outAmounts ∧
      tx' = { tx with
        version := if 4 ≤ hardForkVersion then 2 else 1
        unlockTime := height + cryptonoteMinedMoneyUnlockWindow
        vin := [.txinGen ⟨height⟩]
        vout := outAmounts.zipIdx.map (minerTxOut outKey)
        extra } := by
  unfold constructMinerTx at h
  cases hr : getBlockReward medianWeight currentBlockWeight alreadyGeneratedCoins hardForkVersion with
  | none =>
    rw [hr] at h
    cases h
  | some reward =>
    rw [hr, Option.bind_eq_bind, Option.bind_some] at h
    by_cases hmax : 1 ≤ maxOuts
    · rw [if_neg (not_not.2 hmax)] at h
      cases hout : minerTxOutAmounts height (minerTxAmount reward fee hardForkVersion) maxOuts
          hardForkVersion with
      | none =>
        rw [hout] at h
        cases h
      | some outAmounts =>
        rw [hout, Option.bind_eq_bind, Option.bind_some] at h
        -- the final check that the outputs pay the amount
        by_cases hsum : sumAmounts ((outAmounts.zipIdx.map (minerTxOut outKey)).map TxOut.amount) =
            minerTxAmount reward fee hardForkVersion
        · rw [if_neg (not_not.2 hsum)] at h
          cases h
          exact ⟨reward, outAmounts, rfl, hmax, hout, rfl⟩
        · rw [if_pos hsum] at h
          cases h
    · rw [if_pos hmax] at h
      cases h

end Construct

/-! ## The amount paid against the reward -/

section Amount

variable (reward fee : UInt64) (hardForkVersion : UInt8)

theorem minerTxAmount_of_not_clamped (h : ¬ (2 ≤ hardForkVersion ∧ hardForkVersion < 4)) :
    minerTxAmount reward fee hardForkVersion = reward + fee := by
  rw [minerTxAmount, if_neg h]

/-- The amount paid is at most the reward with the fee. -/
theorem not_lt_minerTxAmount : ¬ reward + fee < minerTxAmount reward fee hardForkVersion := by
  unfold minerTxAmount
  split
  · have hmod : (reward + fee) % baseRewardClampThreshold ≤ reward + fee := by
      rw [UInt64.le_iff_toNat_le, UInt64.toNat_mod]
      exact Nat.mod_le _ _
    rw [UInt64.lt_iff_toNat_lt, UInt64.toNat_sub_of_le _ _ hmod]
    omega
  · exact UInt64.lt_irrefl (reward + fee)

/-- What is paid without the fee is at most the reward, in `uint64_t`, when the part cut off
at hard forks 2 and 3 is at most the reward. -/
theorem minerTxAmount_sub_fee_le
    (hclamp : 2 ≤ hardForkVersion → hardForkVersion < 4 →
      (reward + fee) % baseRewardClampThreshold ≤ reward) :
    minerTxAmount reward fee hardForkVersion - fee ≤ reward := by
  unfold minerTxAmount
  split
  · next hclamped =>
    have hcut := hclamp hclamped.1 hclamped.2
    have hsub : reward + fee - (reward + fee) % baseRewardClampThreshold - fee =
        reward - (reward + fee) % baseRewardClampThreshold := by grind
    rw [hsub, UInt64.le_iff_toNat_le, UInt64.toNat_sub_of_le _ _ hcut]
    omega
  · have hsub : reward + fee - fee = reward := by grind
    rw [hsub]
    exact UInt64.le_refl reward

end Amount

/-! ## The node's checks accept it -/

theorem constructMinerTx_accepted (height medianWeight alreadyGeneratedCoins currentBlockWeight
    fee : UInt64) (outKey : ℕ → PublicKey) (extra : List UInt8) (tx tx' : Transaction)
    (maxOuts : ℕ) (hardForkVersion : UInt8) (hnull : tx.rctSignatures.type = rctTypeNull)
    (hclamp : ∀ reward, getBlockReward medianWeight currentBlockWeight alreadyGeneratedCoins
      hardForkVersion = some reward → 2 ≤ hardForkVersion → hardForkVersion < 4 →
        (reward + fee) % baseRewardClampThreshold ≤ reward)
    (hgenesis : hardForkVersion = 3 → height ≠ 0)
    (h : constructMinerTx height medianWeight alreadyGeneratedCoins currentBlockWeight fee outKey
      extra tx maxOuts hardForkVersion = some tx')
    (b : Block) (hb : b.minerTx = tx') :
    Blockchain.prevalidateMinerTransaction b height hardForkVersion = true ∧
      (Blockchain.validateMinerTransaction b medianWeight currentBlockWeight fee
        alreadyGeneratedCoins hardForkVersion).isSome ∧
      (∃ reward, getBlockReward medianWeight currentBlockWeight alreadyGeneratedCoins
          hardForkVersion = some reward ∧
        (tx'.vout.map fun o => o.amount.toNat).sum =
          (minerTxAmount reward fee hardForkVersion).toNat) ∧
      (hardForkVersion = 3 → ∀ o ∈ tx'.vout, isValidDecomposedAmount o.amount = true) ∧
      (4 ≤ hardForkVersion → tx'.vout.length ≤ maxOuts) := by
  obtain ⟨reward, outAmounts, hr, hmax, hout, rfl⟩ := constructMinerTx_eq_some h
  obtain ⟨hsum, hlen, hdigits⟩ := minerTxOutAmounts_spec hmax hout
  -- the outputs carry the amounts, each below `2 ^ 64`
  have hbound : ∀ a ∈ outAmounts, a < 2 ^ 64 := fun a ha => by
    have hle := List.le_sum_of_mem ha
    have hlt := UInt64.toNat_lt (minerTxAmount reward fee hardForkVersion)
    omega
  have hcomp : TxOut.amount ∘ minerTxOut outKey = UInt64.ofNat ∘ Prod.fst := rfl
  have hamounts : (outAmounts.zipIdx.map (minerTxOut outKey)).map TxOut.amount =
      outAmounts.map UInt64.ofNat := by
    rw [List.map_map, hcomp, ← List.map_map, List.zipIdx_map_fst]
  have hnat : ((outAmounts.zipIdx.map (minerTxOut outKey)).map fun o => o.amount.toNat) =
      outAmounts := by
    have htoNat : (fun o : TxOut => o.amount.toNat) = UInt64.toNat ∘ TxOut.amount := rfl
    rw [htoNat, ← List.map_map, hamounts, List.map_map]
    conv_rhs => rw [← List.map_id outAmounts]
    refine List.map_congr_left fun a ha => ?_
    rw [Function.comp_apply, UInt64.toNat_ofNat', Nat.mod_eq_of_lt (hbound a ha), id]
  have hmoney : sumAmounts ((outAmounts.zipIdx.map (minerTxOut outKey)).map TxOut.amount) =
      minerTxAmount reward fee hardForkVersion := by
    rw [hamounts, sumAmounts_map_ofNat, hsum, UInt64.ofNat_toNat]
  -- at hard fork 3 the outputs are the digits of the amount
  have hvalid : hardForkVersion = 3 → ∀ o ∈ outAmounts.zipIdx.map (minerTxOut outKey),
      isValidDecomposedAmount o.amount = true := by
    intro h3 o ho
    have hdec := hdigits (by rw [h3]; exact fun h => (h.elim (hgenesis h3) (by decide)))
    rw [if_pos (by rw [h3]; decide)] at hdec
    obtain ⟨⟨a, no⟩, hmem, rfl⟩ := List.mem_map.1 ho
    have ha : a ∈ outAmounts := by
      have hfst := List.mem_map_of_mem (f := Prod.fst) hmem
      rwa [List.zipIdx_map_fst] at hfst
    exact isValidDecomposedAmount_of_chunk (decomposeAmountIntoDigits_chunks _ a (hdec ▸ ha))
      (hbound a ha)
  refine ⟨?_, ?_, ⟨reward, hr, by rw [hnat, hsum]⟩, hvalid,
    fun h4 => by simpa using hlen (Or.inr h4)⟩
  · -- `prevalidate_miner_transaction`
    unfold Blockchain.prevalidateMinerTransaction
    rw [hb]
    simp only [beq_self_eq_true, Bool.and_true, hnull]
    refine Bool.and_eq_true_iff.2 ⟨?_, ?_⟩
    · -- a version 1 miner transaction only before hard fork 4
      by_cases h4 : 4 ≤ hardForkVersion
      · simp [h4]
      · simp only [h4, if_false, hfVersionMinV2CoinbaseTx]
        grind
    · refine checkOutsOverflowLoop_of_lt _ 0 ?_
      rw [hnat, hsum]
      simpa using UInt64.toNat_lt _
  · -- `validate_miner_transaction`
    unfold Blockchain.validateMinerTransaction
    rw [hb]
    dsimp only
    rw [hmoney, if_neg (fun h3 => h3.2 (List.all_eq_true.2 fun o ho => hvalid h3.1 o ho)), hr,
      Option.bind_eq_bind, Option.bind_some, if_neg (not_lt_minerTxAmount _ _ _)]
    split
    · next hexact =>
      rw [hfVersionExactCoinbase] at hexact
      rw [minerTxAmount_of_not_clamped _ _ _ (by grind), if_neg (not_not.2 rfl)]
      rfl
    · rw [if_neg (not_not.2 (minerTxAmount_sub_fee_le _ _ _ (hclamp reward hr)))]
      rfl

/-- The miner transaction of a block at hard fork 13 while the premine is being generated:
one output paying the premine and the fee. -/
def premineMinerTx : Transaction :=
  { Transaction.null with
    version := 2
    unlockTime := 160
    vin := [.txinGen ⟨100⟩]
    vout := [⟨30000000000000005, .txoutToKey ⟨Key.zero⟩⟩]
    extra := [] }

theorem constructMinerTx_accepted_premineMinerTx :
    Blockchain.prevalidateMinerTransaction ⟨⟨13, 13, 0, Key.zero, 0⟩, premineMinerTx, []⟩ 100 13 =
        true ∧
      (Blockchain.validateMinerTransaction ⟨⟨13, 13, 0, Key.zero, 0⟩, premineMinerTx, []⟩ 300000 1000
        5 0 13).isSome ∧
      (∃ reward, getBlockReward 300000 1000 0 13 = some reward ∧
        (premineMinerTx.vout.map fun o => o.amount.toNat).sum = (minerTxAmount reward 5 13).toNat) ∧
      ((13 : UInt8) = 3 → ∀ o ∈ premineMinerTx.vout, isValidDecomposedAmount o.amount = true) ∧
      ((4 : UInt8) ≤ 13 → premineMinerTx.vout.length ≤ 1) :=
  constructMinerTx_accepted 100 300000 0 1000 5 (fun _ => Key.zero) [] Transaction.null premineMinerTx 1
    13 rfl (fun _ _ _ h => absurd h (by decide)) (fun h => absurd h (by decide)) (by decide) _ rfl

/-- Two miner transactions the node builds and then refuses. At hard fork 2, for a block of
twice the median weight, the reward is 0; with a fee of 1 the amount is cut down to 0, and
the validator's `money_in_use - fee` wraps to `2 ^ 64 - 1`. At hard fork 3 the genesis
block's three chunks are merged into one output of 190700000000, which is not a valid
decomposed amount. -/
theorem constructMinerTx_rejected :
    (∃ tx, constructMinerTx 1 60000 0 120000 1 (fun _ => Key.zero) [] Transaction.null 1 2 = some tx ∧
      Blockchain.prevalidateMinerTransaction ⟨⟨2, 0, 0, Key.zero, 0⟩, tx, []⟩ 1 2 = true ∧
      Blockchain.validateMinerTransaction ⟨⟨2, 0, 0, Key.zero, 0⟩, tx, []⟩ 60000 120000 1 0 2 = none) ∧
    (∃ tx, constructMinerTx 0 60000 0 60000 0 (fun _ => Key.zero) [] Transaction.null 1 3 = some tx ∧
      Blockchain.prevalidateMinerTransaction ⟨⟨3, 0, 0, Key.zero, 0⟩, tx, []⟩ 0 3 = true ∧
      Blockchain.validateMinerTransaction ⟨⟨3, 0, 0, Key.zero, 0⟩, tx, []⟩ 60000 60000 0 0 3 = none) := by
  refine ⟨⟨{ Transaction.null with
      version := 1
      unlockTime := 61
      vin := [.txinGen ⟨1⟩]
      vout := []
      extra := [] }, by decide, by decide, by decide⟩,
    ⟨{ Transaction.null with
      version := 1
      unlockTime := 60
      vin := [.txinGen ⟨0⟩]
      vout := [⟨190700000000, .txoutToKey ⟨Key.zero⟩⟩]
      extra := [] }, by decide, by decide, by decide⟩⟩

end Cryptonote

end Wazn
