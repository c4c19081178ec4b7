import Wazn.Library.OrderStat
import Wazn.Model.Fee

/-!
# The fee estimate against the fee check

A wallet pays the rate `get_dynamic_base_fee_estimate(grace_blocks)` gives it, and the node
accepts the transaction if `check_fee` does. Both apply `get_dynamic_base_fee` to one block
reward and a median of their own (`getDynamicBaseFeeEstimate_eq`, `checkFee_eq`), and
`get_dynamic_base_fee` never trips its assertion and computes `baseFeeRate`
(`getDynamicBaseFee_spec`), a rate that falls as the median grows (`baseFeeRate_antitone`).
So the estimate's fee passes whenever the estimate's median is at most the check's
(`checkFee_walletFee_of_median_le`).

That holds after `update_next_cumulative_weight_limit` on a chain of at least
`CRYPTONOTE_REWARD_BLOCKS_WINDOW` blocks when the weights the estimate replaces are at least
the minimum block weight (`estimateMedian_le_checkFeeMedian`): replacing values by smaller
ones never raises a median. It fails when they are smaller: the estimate then pads the
window with values above the ones it drops, its median is above the check's, and its rate
below.
-/

set_option autoImplicit false

namespace Wazn

namespace Cryptonote

@[simp] theorem getFeeQuantizationMask_eq : getFeeQuantizationMask = 10 := rfl

theorem toNat_getMinBlockWeight_le (v : UInt8) : (getMinBlockWeight v).toNat ≤ 300000 := by
  unfold getMinBlockWeight
  split_ifs <;> decide

theorem le_toNat_getMinBlockWeight (v : UInt8) : 20000 ≤ (getMinBlockWeight v).toNat := by
  unfold getMinBlockWeight
  split_ifs <;> decide

theorem getMinBlockWeight_of_le {v : UInt8} (hv : 5 ≤ v) :
    getMinBlockWeight v = cryptonoteBlockGrantedFullRewardZoneV5 := by
  rw [UInt8.le_iff_toNat_le] at hv
  have h2 : ¬ v < 2 := by rw [UInt8.lt_iff_toNat_lt]; simp at hv ⊢; omega
  have h5 : ¬ v < 5 := by rw [UInt8.lt_iff_toNat_lt]; simp at hv ⊢; omega
  simp [getMinBlockWeight, h2, h5]

/-- A value clamped up to a floor, as the fee functions clamp medians. -/
theorem toNat_clamp_lt (a b : UInt64) : (if a < b then b else a).toNat = max a.toNat b.toNat := by
  split_ifs with h <;> rw [UInt64.lt_iff_toNat_lt] at h <;> omega

theorem toNat_clamp_le (a b : UInt64) : (if a ≤ b then b else a).toNat = max a.toNat b.toNat := by
  split_ifs with h <;> rw [UInt64.le_iff_toNat_le] at h <;> omega

/-- `get_block_reward` for a weight of one never refuses: the median it compares with is at
least the full reward zone. -/
theorem getBlockReward_one_isSome (M agc : UInt64) (v : UInt8) :
    (getBlockReward M 1 agc v).isSome := by
  have hmw := le_toNat_getMinBlockWeight v
  have h1 : 1 ≤ (if M < getMinBlockWeight v then getMinBlockWeight v else M) := by
    rw [UInt64.le_iff_toNat_le, toNat_clamp_lt]
    simp
    omega
  unfold getBlockReward
  by_cases hp : 0 < M ∧ agc < 30000000000000000 ∧ 9 ≤ v
  · rw [if_pos hp]
    rfl
  · rw [if_neg hp]
    simp only [h1, ↓reduceIte, Option.isSome_some]

/-- Rounding up to the quantization mask, when it does not overflow. -/
theorem toNat_quantize {x : UInt64} (h : x.toNat + 9 < 2 ^ 64) :
    ((x + getFeeQuantizationMask - 1) / getFeeQuantizationMask * getFeeQuantizationMask).toNat =
      (x.toNat + 9) / 10 * 10 := by
  rw [getFeeQuantizationMask_eq]
  -- `x + 10` may wrap, but `x + 10 - 1` is `x + 9` all the same
  have hsub : x + 10 - 1 = x + 9 := by
    apply UInt64.toNat_inj.mp
    simp only [UInt64.toNat_sub, UInt64.toNat_add]
    simp
    omega
  have hadd : (x + 9).toNat = x.toNat + 9 := by
    rw [UInt64.toNat_add]
    exact Nat.mod_eq_of_lt (by simpa using h)
  have hdiv : ((x + 9) / 10).toNat = (x.toNat + 9) / 10 := by
    rw [UInt64.toNat_div, hadd]
    rfl
  rw [hsub, UInt64.toNat_mul, hdiv]
  exact Nat.mod_eq_of_lt (by simp; omega)

/-- The rate `get_dynamic_base_fee` computes, on natural numbers, for a reward `R` and a median
`M` already at least the minimum block weight. -/
def baseFeeRate (R M : ℕ) (v : UInt8) : ℕ :=
  let minBlockWeight := (getMinBlockWeight v).toNat
  if TxPool.hfVersionPerByteFee ≤ v then
    R * dynamicFeeReferenceTransactionWeight.toNat / minBlockWeight / M / 5
  else
    let feeBase := if 5 ≤ v then dynamicFeePerKbBaseFeeV5 else dynamicFeePerKbBaseFee
    (feeBase.toNat * minBlockWeight / M * R / dynamicFeePerKbBaseBlockReward.toNat + 9) / 10 * 10

/-- `get_dynamic_base_fee` never trips its assertion: with the median at least the minimum
block weight, the 128-bit quotient is at most the block reward. It computes `baseFeeRate`. -/
theorem getDynamicBaseFee_spec (R M : UInt64) (v : UInt8) :
    ∃ f, getDynamicBaseFee R M v = some f ∧
      f.toNat = baseFeeRate R.toNat (max M.toNat (getMinBlockWeight v).toNat) v := by
  have hR := R.toNat_lt
  have hmw := le_toNat_getMinBlockWeight v
  have hmw' := toNat_getMinBlockWeight_le v
  have hclamp := toNat_clamp_lt M (getMinBlockWeight v)
  unfold getDynamicBaseFee baseFeeRate
  dsimp only
  generalize (if M < getMinBlockWeight v then getMinBlockWeight v else M) = M' at hclamp ⊢
  rw [← hclamp]
  have hM' : (getMinBlockWeight v).toNat ≤ M'.toNat := by omega
  by_cases hpb : TxPool.hfVersionPerByteFee ≤ v
  · -- per byte: the quotient is at most the reward, so it fits
    have hq : R.toNat * dynamicFeeReferenceTransactionWeight.toNat / (getMinBlockWeight v).toNat /
        M'.toNat ≤ R.toNat :=
      calc _ ≤ R.toNat * dynamicFeeReferenceTransactionWeight.toNat / (getMinBlockWeight v).toNat :=
            Nat.div_le_self _ _
        _ ≤ R.toNat * dynamicFeeReferenceTransactionWeight.toNat /
            dynamicFeeReferenceTransactionWeight.toNat :=
            Nat.div_le_div_left (by simp [dynamicFeeReferenceTransactionWeight]; omega) (by decide)
        _ = R.toNat := Nat.mul_div_cancel _ (by decide)
    rw [if_pos hpb, if_pos (by omega)]
    refine ⟨_, rfl, ?_⟩
    simp only [UInt64.toNat_div, UInt64.toNat_ofNat']
    rw [if_pos hpb, Nat.mod_eq_of_lt (by omega)]
    rfl
  · -- per kB: the unscaled fee is at most the base fee, so the quotient is far below the reward
    rw [if_neg hpb, if_neg hpb]
    generalize hfb : (if 5 ≤ v then dynamicFeePerKbBaseFeeV5 else dynamicFeePerKbBaseFee) = feeBase
    have hfb' : feeBase.toNat ≤ 2000000000 := by
      rw [← hfb]
      split_ifs <;> decide
    have hprod : (feeBase * getMinBlockWeight v).toNat =
        feeBase.toNat * (getMinBlockWeight v).toNat := by
      have := Nat.mul_le_mul hfb' hmw'
      rw [UInt64.toNat_mul, Nat.mod_eq_of_lt (by omega)]
    have hunscaled : feeBase.toNat * (getMinBlockWeight v).toNat / M'.toNat ≤ feeBase.toNat :=
      Nat.div_le_of_le_mul (by rw [Nat.mul_comm]; exact Nat.mul_le_mul_right _ hM')
    have hbr : dynamicFeePerKbBaseBlockReward.toNat = 10000000000000 := rfl
    have hq : feeBase.toNat * (getMinBlockWeight v).toNat / M'.toNat * R.toNat /
        dynamicFeePerKbBaseBlockReward.toNat ≤ 2000000000 * R.toNat / 10000000000000 := by
      rw [hbr]
      exact Nat.div_le_div_right (Nat.mul_le_mul_right _ (hunscaled.trans hfb'))
    simp only [UInt64.toNat_div, hprod]
    rw [if_pos (by omega)]
    refine ⟨_, rfl, ?_⟩
    rw [toNat_quantize (by rw [UInt64.toNat_ofNat', Nat.mod_eq_of_lt (by omega)]; omega),
      UInt64.toNat_ofNat', Nat.mod_eq_of_lt (by omega)]

/-- A larger median gives a smaller rate. -/
theorem baseFeeRate_antitone (R : ℕ) (v : UInt8) {M₁ M₂ : ℕ} (h₁ : 0 < M₁) (hM : M₁ ≤ M₂) :
    baseFeeRate R M₂ v ≤ baseFeeRate R M₁ v := by
  unfold baseFeeRate
  dsimp only
  split_ifs <;> gcongr

/-- The fee `check_fee` asks of a transaction of weight `w` at the rate `f`: per byte, rounded
up to the quantization mask, from `HF_VERSION_PER_BYTE_FEE`, and per started kB before. -/
def neededFee (version : UInt8) (w f : UInt64) : UInt64 :=
  if TxPool.hfVersionPerByteFee ≤ version then
    (w * f + getFeeQuantizationMask - 1) / getFeeQuantizationMask * getFeeQuantizationMask
  else (w / 1024 + if w % 1024 ≠ 0 then 1 else 0) * f

/-- The fee a wallet pays for a transaction of weight `w` at the rate `f` of the estimate, with
the default multiplier: `calculate_fee_from_weight` per byte, `calculate_fee` per kB. -/
def walletFee (version : UInt8) (w f : UInt64) : UInt64 :=
  if TxPool.hfVersionPerByteFee ≤ version then
    Tools.calculateFeeFromWeight f w 1 getFeeQuantizationMask
  else Tools.calculateFee f w 1

/-- The wallet computes its fee without overflow. -/
def FeeFits (version : UInt8) (w f : UInt64) : Prop :=
  if TxPool.hfVersionPerByteFee ≤ version then w.toNat * f.toNat + 9 < 2 ^ 64
  else w.toNat + 1023 < 2 ^ 64 ∧ (w.toNat + 1023) / 1024 * f.toNat < 2 ^ 64

instance (version : UInt8) (w f : UInt64) : Decidable (FeeFits version w f) :=
  inferInstanceAs (Decidable (if TxPool.hfVersionPerByteFee ≤ version then
    w.toNat * f.toNat + 9 < 2 ^ 64
    else w.toNat + 1023 < 2 ^ 64 ∧ (w.toNat + 1023) / 1024 * f.toNat < 2 ^ 64))

/-- The started kBs of `check_fee`, counted as `calculate_fee` counts them. -/
theorem toNat_startedKb (w : UInt64) :
    (w / 1024 + if w % 1024 ≠ 0 then 1 else 0).toNat = (w.toNat + 1023) / 1024 := by
  have hw := w.toNat_lt
  by_cases hmod : w % 1024 = 0
  · have hmod' : w.toNat % 1024 = 0 := by
      simpa [UInt64.toNat_mod] using congrArg UInt64.toNat hmod
    rw [if_neg (not_not.mpr hmod), UInt64.add_zero, UInt64.toNat_div]
    simp
    omega
  · have hmod' : w.toNat % 1024 ≠ 0 := fun h =>
      hmod (UInt64.toNat_inj.mp (by rw [UInt64.toNat_mod]; simpa using h))
    rw [if_pos hmod, UInt64.toNat_add, UInt64.toNat_div]
    simp
    omega

/-- At a rate at most the wallet's, the node asks at most the wallet's fee. -/
theorem neededFee_le_walletFee {v : UInt8} {w fc f : UInt64} (hrate : fc.toNat ≤ f.toNat)
    (hfit : FeeFits v w f) : (neededFee v w fc).toNat ≤ (walletFee v w f).toNat := by
  unfold neededFee walletFee Tools.calculateFeeFromWeight Tools.calculateFee
  unfold FeeFits at hfit
  by_cases hpb : TxPool.hfVersionPerByteFee ≤ v
  · -- per byte: both products fit, and rounding up keeps their order
    rw [if_pos hpb] at hfit ⊢
    rw [if_pos hpb]
    have hprod : w.toNat * fc.toNat ≤ w.toNat * f.toNat := Nat.mul_le_mul_left _ hrate
    have hwfc : (w * fc).toNat = w.toNat * fc.toNat := by
      rw [UInt64.toNat_mul, Nat.mod_eq_of_lt (by omega)]
    have hwf : (w * f * 1).toNat = w.toNat * f.toNat := by
      rw [UInt64.mul_one, UInt64.toNat_mul, Nat.mod_eq_of_lt (by omega)]
    rw [toNat_quantize (by omega), toNat_quantize (by omega), hwfc, hwf]
    gcongr
  · -- per kB: the same count of started kBs on both sides
    rw [if_neg hpb] at hfit ⊢
    rw [if_neg hpb]
    obtain ⟨hw, hfit⟩ := hfit
    have hkb : ((w + 1023) / 1024).toNat = (w.toNat + 1023) / 1024 := by
      rw [UInt64.toNat_div, UInt64.toNat_add, Nat.mod_eq_of_lt (by simpa using hw)]
      rfl
    have hprod : (w.toNat + 1023) / 1024 * fc.toNat ≤ (w.toNat + 1023) / 1024 * f.toNat :=
      Nat.mul_le_mul_left _ hrate
    dsimp only
    rw [UInt64.toNat_mul, toNat_startedKb, Nat.mod_eq_of_lt (by omega), UInt64.mul_one,
      UInt64.toNat_mul, hkb, Nat.mod_eq_of_lt hfit]
    exact hprod

/-- A fee at least the needed fee passes the 2% margin of `check_fee`. -/
theorem passes_of_le {needed fee : UInt64} (h : needed.toNat ≤ fee.toNat) :
    (!decide (fee < needed - needed / 50)) = true := by
  have hsub : (needed - needed / 50).toNat ≤ needed.toNat := by
    rw [UInt64.toNat_sub_of_le _ _
      (by rw [UInt64.le_iff_toNat_le, UInt64.toNat_div]; exact Nat.div_le_self _ _)]
    omega
  simp only [Bool.not_eq_true', decide_eq_false_iff_not, UInt64.not_lt, UInt64.le_iff_toNat_le]
  omega

namespace WeightState

variable (bc : WeightState)

/-- The median `check_fee` hands to `get_dynamic_base_fee`: half the limit, and no more than the
long-term effective median from `HF_VERSION_LONG_TERM_BLOCK_WEIGHT`. -/
def checkFeeMedian : UInt64 :=
  if hfVersionLongTermBlockWeight ≤ bc.version then
    min (bc.currentBlockCumulWeightLimit / 2) bc.longTermEffectiveMedianBlockWeight
  else bc.currentBlockCumulWeightLimit / 2

/-- The median `get_dynamic_base_fee_estimate` hands to `get_dynamic_base_fee`: that of the last
weights with the oldest `graceBlocks` of the window (at most 99) replaced by the minimum block
weight, clamped to it, and no more than the long-term effective median from
`HF_VERSION_LONG_TERM_BLOCK_WEIGHT`. -/
def estimateMedian (graceBlocks : UInt64) : UInt64 :=
  let graceBlocks := if cryptonoteRewardBlocksWindow ≤ graceBlocks then
    cryptonoteRewardBlocksWindow - 1 else graceBlocks
  let minBlockWeight := getMinBlockWeight bc.version
  let median := MiscUtils.median
    (bc.getLastNBlocksWeights (cryptonoteRewardBlocksWindow - graceBlocks).toNat ++
      List.replicate graceBlocks.toNat minBlockWeight)
  let median := if median ≤ minBlockWeight then minBlockWeight else median
  if hfVersionLongTermBlockWeight ≤ bc.version then
    min median bc.longTermEffectiveMedianBlockWeight
  else median

variable {bc}

theorem getDynamicBaseFeeEstimate_eq (hv : hfVersionDynamicFee ≤ bc.version) {R : UInt64}
    (hR : getBlockReward (bc.currentBlockCumulWeightLimit / 2) 1 bc.alreadyGeneratedCoins
      bc.version = some R) (graceBlocks : UInt64) :
    bc.getDynamicBaseFeeEstimate graceBlocks =
      getDynamicBaseFee R (bc.estimateMedian graceBlocks) bc.version := by
  have hv' : ¬ bc.version < hfVersionDynamicFee := UInt8.not_lt.mpr hv
  simp only [getDynamicBaseFeeEstimate, estimateMedian, hv', if_false, hR, Option.getD_some]

theorem checkFee_eq (hv : hfVersionDynamicFee ≤ bc.version) {R : UInt64}
    (hR : getBlockReward (bc.currentBlockCumulWeightLimit / 2) 1 bc.alreadyGeneratedCoins
      bc.version = some R) (w fee : UInt64) :
    bc.checkFee w fee = (getDynamicBaseFee R bc.checkFeeMedian bc.version).map fun f =>
      !(fee < neededFee bc.version w f - neededFee bc.version w f / 50) := by
  have hv' : ¬ bc.version < hfVersionDynamicFee := UInt8.not_lt.mpr hv
  unfold checkFee checkFeeMedian neededFee
  simp only [hv, if_true, hR]
  by_cases hpb : TxPool.hfVersionPerByteFee ≤ bc.version
  · simp only [hpb, if_true, Option.map_map]
    rfl
  · -- before per-byte fees there is no long-term median either
    have hlt : ¬ hfVersionLongTermBlockWeight ≤ bc.version := by
      intro h
      exact hpb (UInt8.le_trans (by decide) h)
    simp only [hpb, hlt, hv', if_false, Option.map_map]
    rfl

@[simp] theorem updateNextCumulativeWeightLimit_version (longTermMedian : UInt64) :
    (bc.updateNextCumulativeWeightLimit longTermMedian).version = bc.version := rfl

@[simp] theorem updateNextCumulativeWeightLimit_blockWeights (longTermMedian : UInt64) :
    (bc.updateNextCumulativeWeightLimit longTermMedian).blockWeights = bc.blockWeights := rfl

@[simp] theorem getLastNBlocksWeights_updateNextCumulativeWeightLimit (longTermMedian : UInt64)
    (count : ℕ) :
    (bc.updateNextCumulativeWeightLimit longTermMedian).getLastNBlocksWeights count =
      bc.getLastNBlocksWeights count := rfl

theorem length_getLastNBlocksWeights {n : ℕ} (hn : n ≤ bc.blockWeights.length) :
    (bc.getLastNBlocksWeights n).length = n := by
  simp only [getLastNBlocksWeights, List.length_drop]
  omega

/-- A shorter window is the longer one without its oldest weights. -/
theorem getLastNBlocksWeights_sub {n k : ℕ} (hn : n ≤ bc.blockWeights.length) (hk : k ≤ n) :
    bc.getLastNBlocksWeights (n - k) = (bc.getLastNBlocksWeights n).drop k := by
  unfold getLastNBlocksWeights
  rw [List.drop_drop]
  congr 1
  omega

/-- The window of the estimate, with its oldest `k` weights replaced by the minimum block weight,
has a median at most the full window's when they are at least that. -/
theorem median_estimateWindow_le {n k : ℕ} {minBlockWeight : UInt64}
    (hn : n ≤ bc.blockWeights.length) (hk : k ≤ n)
    (hold : ∀ x ∈ (bc.getLastNBlocksWeights n).take k, minBlockWeight ≤ x) :
    MiscUtils.median (bc.getLastNBlocksWeights (n - k) ++ List.replicate k minBlockWeight) ≤
      MiscUtils.median (bc.getLastNBlocksWeights n) := by
  set W := bc.getLastNBlocksWeights n
  have hlen : (W.take k).length = k := by
    simp only [List.length_take, W, length_getLastNBlocksWeights hn]
    omega
  -- the full window is its newer part followed by its oldest `k` weights
  have hperm : (W.drop k ++ W.take k).Perm W := by
    have : (W.take k ++ W.drop k).Perm (W.drop k ++ W.take k) := List.perm_append_comm
    rw [List.take_append_drop] at this
    exact this.symm
  have hreplace : List.Forall₂ (· ≤ ·) (List.replicate k minBlockWeight) (W.take k) := by
    have := OrderStat.forall₂_replicate_of_forall hold
    rwa [hlen] at this
  have hle : List.Forall₂ (· ≤ ·) (W.drop k ++ List.replicate k minBlockWeight)
      (W.drop k ++ W.take k) :=
    List.rel_append (List.forall₂_refl _) hreplace
  rw [getLastNBlocksWeights_sub hn hk]
  calc _ ≤ MiscUtils.median (W.drop k ++ W.take k) := MiscUtils.median_le_median_of_forall₂ hle
    _ = MiscUtils.median W := MiscUtils.median_eq_of_perm hperm

/-- Before `HF_VERSION_LONG_TERM_BLOCK_WEIGHT` the limit is twice the clamped median of the
window. -/
theorem updateNextCumulativeWeightLimit_of_lt (longTermMedian : UInt64)
    (hv : bc.version < hfVersionLongTermBlockWeight) :
    (bc.updateNextCumulativeWeightLimit longTermMedian).currentBlockCumulWeightLimit =
      (let median := MiscUtils.median (bc.getLastNBlocksWeights cryptonoteRewardBlocksWindow.toNat)
        if median ≤ getMinBlockWeight bc.version then getMinBlockWeight bc.version else median) * 2 := by
  simp only [updateNextCumulativeWeightLimit, hv, if_true]

/-- From `HF_VERSION_LONG_TERM_BLOCK_WEIGHT` the median of the window is at least the V5 full
reward zone and at most the surge factor times the long-term effective median. -/
theorem updateNextCumulativeWeightLimit_of_le (longTermMedian : UInt64)
    (hv : hfVersionLongTermBlockWeight ≤ bc.version) :
    let longTermEffectiveMedian := max cryptonoteBlockGrantedFullRewardZoneV5 longTermMedian
    let median := min (max cryptonoteBlockGrantedFullRewardZoneV5
      (MiscUtils.median (bc.getLastNBlocksWeights cryptonoteRewardBlocksWindow.toNat)))
      (cryptonoteShortTermBlockWeightSurgeFactor * longTermEffectiveMedian)
    (bc.updateNextCumulativeWeightLimit longTermMedian).currentBlockCumulWeightLimit =
      (if median ≤ getMinBlockWeight bc.version then getMinBlockWeight bc.version else median) * 2 ∧
    (bc.updateNextCumulativeWeightLimit longTermMedian).longTermEffectiveMedianBlockWeight =
      longTermEffectiveMedian := by
  have hv' : ¬ bc.version < hfVersionLongTermBlockWeight := UInt8.not_lt.mpr hv
  constructor <;> simp only [updateNextCumulativeWeightLimit, hv', if_false]

/-- Halving the doubled limit gives the median back when it is below `2 ^ 63`. -/
theorem mul_two_div_two {x : UInt64} (h : x.toNat < 2 ^ 63) : x * 2 / 2 = x := by
  apply UInt64.toNat_inj.mp
  rw [UInt64.toNat_div, UInt64.toNat_mul]
  simp
  omega

/-- The grace blocks the estimate uses: at most one less than the window. -/
theorem toNat_graceBlocks (graceBlocks : UInt64) :
    (if cryptonoteRewardBlocksWindow ≤ graceBlocks then cryptonoteRewardBlocksWindow - 1
      else graceBlocks).toNat = min graceBlocks.toNat 99 := by
  split_ifs with h <;> rw [UInt64.le_iff_toNat_le] at h
  · simp [cryptonoteRewardBlocksWindow] at h ⊢
    omega
  · simp [cryptonoteRewardBlocksWindow] at h ⊢
    omega

theorem estimateMedian_le_checkFeeMedian {longTermMedian graceBlocks : UInt64}
    (hlen : cryptonoteRewardBlocksWindow.toNat ≤ bc.blockWeights.length)
    (hgrace : ∀ x ∈ (bc.getLastNBlocksWeights cryptonoteRewardBlocksWindow.toNat).take
      (min graceBlocks.toNat 99), getMinBlockWeight bc.version ≤ x)
    (hweights : ∀ x ∈ bc.blockWeights, x.toNat < 2 ^ 63)
    (hsurge : longTermMedian.toNat * 50 < 2 ^ 64) :
    (bc.updateNextCumulativeWeightLimit longTermMedian).estimateMedian graceBlocks ≤
      (bc.updateNextCumulativeWeightLimit longTermMedian).checkFeeMedian := by
  have hwindow : (cryptonoteRewardBlocksWindow - (if cryptonoteRewardBlocksWindow ≤ graceBlocks
      then cryptonoteRewardBlocksWindow - 1 else graceBlocks)).toNat =
      cryptonoteRewardBlocksWindow.toNat - min graceBlocks.toNat 99 := by
    have hg := toNat_graceBlocks graceBlocks
    rw [UInt64.toNat_sub_of_le _ _ (by
      rw [UInt64.le_iff_toNat_le, hg]; simp [cryptonoteRewardBlocksWindow]), hg]
  have hmedian := median_estimateWindow_le hlen (by simp [cryptonoteRewardBlocksWindow]) hgrace
  -- the window's median is below `2 ^ 63` like every weight, so doubling it does not wrap
  have hbound :
      (MiscUtils.median (bc.getLastNBlocksWeights cryptonoteRewardBlocksWindow.toNat)).toNat <
        2 ^ 63 := by
    have : MiscUtils.median (bc.getLastNBlocksWeights cryptonoteRewardBlocksWindow.toNat) ≤
        9223372036854775807 := MiscUtils.median_le_of_forall_le fun x hx => by
      have := hweights x (List.mem_of_mem_drop hx)
      rw [UInt64.le_iff_toNat_le]
      simp
      omega
    rw [UInt64.le_iff_toNat_le] at this
    simp at this
    omega
  have hmw := toNat_getMinBlockWeight_le bc.version
  unfold estimateMedian checkFeeMedian
  simp only [updateNextCumulativeWeightLimit_version,
    getLastNBlocksWeights_updateNextCumulativeWeightLimit, hwindow, toNat_graceBlocks]
  generalize MiscUtils.median (bc.getLastNBlocksWeights (cryptonoteRewardBlocksWindow.toNat -
    min graceBlocks.toNat 99) ++ List.replicate (min graceBlocks.toNat 99)
      (getMinBlockWeight bc.version)) = median' at hmedian ⊢
  by_cases hv : bc.version < hfVersionLongTermBlockWeight
  · -- the check's median is the clamped median of the window
    rw [updateNextCumulativeWeightLimit_of_lt longTermMedian hv]
    simp only [UInt8.not_le.mpr hv, if_false]
    rw [mul_two_div_two (by rw [toNat_clamp_le]; omega)]
    rw [UInt64.le_iff_toNat_le] at hmedian ⊢
    rw [toNat_clamp_le, toNat_clamp_le]
    omega
  · -- the check's median is also bounded by the long-term effective median, and its floor is
    -- the V5 full reward zone, the minimum block weight of these versions
    have hv10 : hfVersionLongTermBlockWeight ≤ bc.version := UInt8.not_lt.mp hv
    obtain ⟨hlimit, hlongTerm⟩ := updateNextCumulativeWeightLimit_of_le longTermMedian hv10
    rw [hlimit, hlongTerm]
    simp only [hv10, if_true]
    have hmw : getMinBlockWeight bc.version = cryptonoteBlockGrantedFullRewardZoneV5 :=
      getMinBlockWeight_of_le (UInt8.le_trans (by decide) hv10)
    have hsurge' : (cryptonoteShortTermBlockWeightSurgeFactor *
        (cryptonoteBlockGrantedFullRewardZoneV5 ⊔ longTermMedian)).toNat =
        50 * max 300000 longTermMedian.toNat := by
      rw [UInt64.toNat_mul, UInt64.toNat_max]
      simp [cryptonoteShortTermBlockWeightSurgeFactor, cryptonoteBlockGrantedFullRewardZoneV5]
      omega
    rw [mul_two_div_two (by rw [toNat_clamp_le, UInt64.toNat_min, UInt64.toNat_max, hsurge', hmw]; simp [cryptonoteBlockGrantedFullRewardZoneV5]; omega)]
    rw [UInt64.le_iff_toNat_le] at hmedian ⊢
    simp only [UInt64.toNat_min, UInt64.toNat_max, toNat_clamp_le, hsurge', hmw]
    simp [cryptonoteBlockGrantedFullRewardZoneV5]
    omega

/-- The estimate's fee passes `check_fee` whenever the estimate's median is at most the
check's: the block reward is the same, so the estimate's rate is at least the check's. -/
theorem checkFee_walletFee_of_median_le (hv : hfVersionDynamicFee ≤ bc.version)
    {graceBlocks f w : UInt64} (hmed : bc.estimateMedian graceBlocks ≤ bc.checkFeeMedian)
    (hf : bc.getDynamicBaseFeeEstimate graceBlocks = some f) (hfit : FeeFits bc.version w f) :
    bc.checkFee w (walletFee bc.version w f) = some true := by
  obtain ⟨R, hR⟩ := Option.isSome_iff_exists.mp (getBlockReward_one_isSome
    (bc.currentBlockCumulWeightLimit / 2) bc.alreadyGeneratedCoins bc.version)
  obtain ⟨fc, hfc, hfcRate⟩ := getDynamicBaseFee_spec R bc.checkFeeMedian bc.version
  obtain ⟨fe, hfe, hfeRate⟩ :=
    getDynamicBaseFee_spec R (bc.estimateMedian graceBlocks) bc.version
  rw [getDynamicBaseFeeEstimate_eq hv hR, hfe, Option.some_inj] at hf
  subst hf
  -- the estimate's median is the smaller, so its rate is the larger
  have hrate : fc.toNat ≤ fe.toNat := by
    have hmw := le_toNat_getMinBlockWeight bc.version
    rw [UInt64.le_iff_toNat_le] at hmed
    rw [hfcRate, hfeRate]
    exact baseFeeRate_antitone _ _ (by omega) (by omega)
  rw [checkFee_eq hv hR, hfc, Option.map_some]
  exact congrArg some (passes_of_le (neededFee_le_walletFee hrate hfit))

/-- After `update_next_cumulative_weight_limit` on a chain of at least
`CRYPTONOTE_REWARD_BLOCKS_WINDOW` blocks, the estimate never trips the assertion, and its fee
passes `check_fee` when the weights it replaces are at least the minimum block weight. -/
theorem getDynamicBaseFeeEstimate_passes_checkFee (longTermMedian graceBlocks w : UInt64)
    (hv : hfVersionDynamicFee ≤ bc.version)
    (hlen : cryptonoteRewardBlocksWindow.toNat ≤ bc.blockWeights.length)
    (hgrace : ∀ x ∈ (bc.getLastNBlocksWeights cryptonoteRewardBlocksWindow.toNat).take
      (min graceBlocks.toNat 99), getMinBlockWeight bc.version ≤ x)
    (hweights : ∀ x ∈ bc.blockWeights, x.toNat < 2 ^ 63)
    (hsurge : longTermMedian.toNat * 50 < 2 ^ 64) :
    let bc' := bc.updateNextCumulativeWeightLimit longTermMedian
    ∃ f, bc'.getDynamicBaseFeeEstimate graceBlocks = some f ∧
      (FeeFits bc'.version w f → bc'.checkFee w (walletFee bc'.version w f) = some true) := by
  intro bc'
  have hv' : hfVersionDynamicFee ≤ bc'.version := hv
  obtain ⟨R, hR⟩ := Option.isSome_iff_exists.mp (getBlockReward_one_isSome
    (bc'.currentBlockCumulWeightLimit / 2) bc'.alreadyGeneratedCoins bc'.version)
  obtain ⟨f, hf, -⟩ := getDynamicBaseFee_spec R (bc'.estimateMedian graceBlocks) bc'.version
  have hest : bc'.getDynamicBaseFeeEstimate graceBlocks = some f :=
    (getDynamicBaseFeeEstimate_eq hv' hR graceBlocks).trans hf
  exact ⟨f, hest, fun hfit => checkFee_walletFee_of_median_le hv'
    (estimateMedian_le_checkFeeMedian hlen hgrace hweights hsurge) hest hfit⟩

/-- A chain of a hundred blocks of the minimum weight, at version 13. -/
def fullRewardZoneChain : WeightState :=
  ⟨13, List.replicate 100 300000, 30000000000000000, 0, 0⟩

theorem getDynamicBaseFeeEstimate_passes_checkFee_fullRewardZoneChain :
    ∃ f, (fullRewardZoneChain.updateNextCumulativeWeightLimit 300000).getDynamicBaseFeeEstimate 10 =
      some f ∧ (FeeFits 13 3000 f →
        (fullRewardZoneChain.updateNextCumulativeWeightLimit 300000).checkFee 3000
          (walletFee 13 3000 f) = some true) := by
  -- every weight of the chain is the minimum block weight
  have hall : ∀ x ∈ fullRewardZoneChain.blockWeights, x = 300000 :=
    fun x hx => List.eq_of_mem_replicate hx
  exact getDynamicBaseFeeEstimate_passes_checkFee 300000 10 3000 (by decide) (by decide)
    (fun x hx => by
      rw [hall x (List.mem_of_mem_drop (List.mem_of_mem_take hx))]
      decide)
    (fun x hx => by
      rw [hall x hx]
      decide) (by decide)

/-- A chain whose window is light in its older half and heavy in its newer half, at version 13. -/
def lightThenHeavyChain : WeightState :=
  ⟨13, List.replicate 50 100 ++ List.replicate 50 600000, 30000000000000000, 0, 0⟩

set_option maxRecDepth 4000 in
/-- The estimate with ten grace blocks replaces light weights by the heavier minimum block
weight: its median is 450000 where the check's is 300050, and the fee it gives a transaction of
weight 3000 fails `check_fee`. -/
theorem walletFee_fails_checkFee_lightThenHeavyChain :
    hfVersionDynamicFee ≤ (lightThenHeavyChain.updateNextCumulativeWeightLimit 600000).version ∧
      (lightThenHeavyChain.updateNextCumulativeWeightLimit 600000).getDynamicBaseFeeEstimate 10 =
        some 593 ∧
      FeeFits (lightThenHeavyChain.updateNextCumulativeWeightLimit 600000).version 3000 593 ∧
      (lightThenHeavyChain.updateNextCumulativeWeightLimit 600000).checkFee 3000
        (walletFee (lightThenHeavyChain.updateNextCumulativeWeightLimit 600000).version 3000 593) =
          some false :=
  ⟨by decide, by decide, by decide, by decide⟩

end WeightState

end Cryptonote

end Wazn
