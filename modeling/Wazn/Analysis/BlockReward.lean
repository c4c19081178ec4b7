import Wazn.Model.BlockReward

/-!
# The block reward is exact and its asserts hold (`get_block_reward`)

Outside the premine, `get_block_reward` pays the base reward for a block up to the median weight
made soft, refuses a block more than twice as heavy, and between the two pays the base reward
scaled by `(2M - w) w / M²`, rounded down (`rewardCurve`). On numbers the scaled reward is below
the base reward as soon as the block is heavier than the median, and it falls as the block gets
heavier, because `(2M - w) w = M² - (w - M)²` (`penaltyFactor_eq`).

The source computes the scaled reward in words. For a median below `2 ^ 32` the multiplicand
`(2M - w) w` fits a word (`toNat_multiplicand`), `mul128` gives the exact product and each
`div128_64` the exact quotient (`penalizedReward_spec`); two divisions by `M` are one by `M²`.
The quotient is below the base reward, so `reward_hi` is zero and `reward_lo` is the reward
(`penalizedReward_words`): the asserts never fail, and the reward the model computes on
numbers is the word the source returns (`getBlockReward_words`).
-/

set_option autoImplicit false

namespace Wazn

namespace Cryptonote

open IntUtil

section Curve

/-- The reward of a block of weight `w` against the median `M`: the base reward up to the
median, then scaled by `(2M - w) w / M²` and rounded down. -/
def rewardCurve (base M w : ℕ) : ℕ :=
  if w ≤ M then base else base * (2 * M - w) * w / M ^ 2

/-- The penalty factor of a block `w - M` above the median. -/
theorem penaltyFactor_eq {M w : ℕ} (hlo : M ≤ w) (hhi : w ≤ 2 * M) :
    (2 * M - w) * w = M * M - (w - M) * (w - M) := by
  obtain ⟨d, rfl⟩ : ∃ d, w = M + d := ⟨w - M, by omega⟩
  rw [Nat.add_sub_cancel_left, show 2 * M - (M + d) = M - d by omega, Nat.mul_self_sub_mul_self_eq,
    Nat.mul_comm]

variable {base M : ℕ}

theorem penalty_eq_div_div {w : ℕ} :
    base * (2 * M - w) * w / M ^ 2 = base * ((2 * M - w) * w) / M / M := by
  rw [Nat.div_div_eq_div_mul, Nat.mul_assoc, sq]

theorem penalty_le_of_le {w w' : ℕ} (hlo : M ≤ w) (hw : w ≤ w') (hhi : w' ≤ 2 * M) :
    base * (2 * M - w') * w' / M ^ 2 ≤ base * (2 * M - w) * w / M ^ 2 := by
  have hd : (w - M) * (w - M) ≤ (w' - M) * (w' - M) := Nat.mul_self_le_mul_self (by omega)
  have hfactor : (2 * M - w') * w' ≤ (2 * M - w) * w := by
    rw [penaltyFactor_eq hlo (by omega), penaltyFactor_eq (by omega) hhi]
    omega
  rw [Nat.mul_assoc, Nat.mul_assoc]
  exact Nat.div_le_div_right (Nat.mul_le_mul_left base hfactor)

theorem penalty_lt {w : ℕ} (hbase : 0 < base) (hlo : M < w) (hhi : w ≤ 2 * M) :
    base * (2 * M - w) * w / M ^ 2 < base := by
  have hd : 0 < (w - M) * (w - M) := Nat.mul_pos (by omega) (by omega)
  have hsq : 0 < M * M := Nat.mul_pos (by omega) (by omega)
  have hfactor : (2 * M - w) * w < M * M := by
    rw [penaltyFactor_eq hlo.le hhi]
    omega
  rw [Nat.div_lt_iff_lt_mul (by rw [sq]; exact hsq), Nat.mul_assoc, sq]
  exact Nat.mul_lt_mul_of_pos_left hfactor hbase

theorem penalty_le {w : ℕ} (hlo : M < w) (hhi : w ≤ 2 * M) :
    base * (2 * M - w) * w / M ^ 2 ≤ base := by
  rcases Nat.eq_zero_or_pos base with h0 | hpos
  · simp [h0]
  · exact (penalty_lt hpos hlo hhi).le

theorem rewardCurve_le (w : ℕ) (hhi : w ≤ 2 * M) : rewardCurve base M w ≤ base := by
  unfold rewardCurve
  split
  · exact le_refl base
  · exact penalty_le (by omega) hhi

theorem rewardCurve_antitone {w w' : ℕ} (hw : w ≤ w') (hhi : w' ≤ 2 * M) :
    rewardCurve base M w' ≤ rewardCurve base M w := by
  unfold rewardCurve
  by_cases h' : w' ≤ M
  · rw [if_pos h', if_pos (le_trans hw h')]
  · rw [if_neg h']
    by_cases h : w ≤ M
    · rw [if_pos h]
      exact penalty_le (by omega) hhi
    · rw [if_neg h]
      exact penalty_le_of_le (by omega) hw hhi

end Curve

section Words

/-- The minutes of the difficulty target of a version. -/
def targetMinutes (version : UInt8) : ℕ :=
  (if version < 2 then difficultyTargetV1 else difficultyTargetV2) / 60

/-- `base_reward` on numbers: the coins left shifted down by the emission speed factor, and at
least the final subsidy of a block. -/
def rewardBase (alreadyGeneratedCoins : UInt64) (version : UInt8) : ℕ :=
  max ((moneySupply.toNat - alreadyGeneratedCoins.toNat) >>>
      (emissionSpeedFactorPerMinute - (targetMinutes version - 1)))
    (finalSubsidyPerMinute.toNat * targetMinutes version)

/-- The median the reward is measured against: at least the full reward zone. -/
def rewardMedian (medianWeight : UInt64) (version : UInt8) : ℕ :=
  max medianWeight.toNat (getMinBlockWeight version).toNat

theorem targetMinutes_eq (version : UInt8) : targetMinutes version = 2 := by
  unfold targetMinutes
  split <;> rfl

theorem toNat_blockBaseReward {alreadyGeneratedCoins : UInt64} (version : UInt8)
    (hg : alreadyGeneratedCoins ≤ moneySupply) :
    (blockBaseReward alreadyGeneratedCoins version).toNat =
      rewardBase alreadyGeneratedCoins version := by
  have hminutes := targetMinutes_eq version
  unfold targetMinutes at hminutes
  unfold blockBaseReward rewardBase targetMinutes
  dsimp only
  rw [hminutes]
  have hshift : ((moneySupply - alreadyGeneratedCoins) >>>
      (emissionSpeedFactorPerMinute - (2 - 1)).toUInt64).toNat =
      (moneySupply.toNat - alreadyGeneratedCoins.toNat) >>>
        (emissionSpeedFactorPerMinute - (2 - 1)) := by
    rw [UInt64.toNat_shiftRight, UInt64.toNat_sub_of_le _ _ hg]
    rfl
  have hfloor : (finalSubsidyPerMinute * Nat.toUInt64 2).toNat =
      finalSubsidyPerMinute.toNat * 2 := rfl
  generalize (moneySupply - alreadyGeneratedCoins) >>>
    (emissionSpeedFactorPerMinute - (2 - 1)).toUInt64 = shifted at *
  generalize finalSubsidyPerMinute * Nat.toUInt64 2 = floor at *
  rw [← hshift, ← hfloor]
  split
  · rename_i h
    rw [UInt64.lt_iff_toNat_lt] at h
    omega
  · rename_i h
    rw [UInt64.lt_iff_toNat_lt] at h
    omega

theorem rewardBase_pos (alreadyGeneratedCoins : UInt64) (version : UInt8) :
    0 < rewardBase alreadyGeneratedCoins version := by
  rw [rewardBase, targetMinutes_eq]
  exact lt_max_of_lt_right (by decide)

theorem rewardBase_lt (alreadyGeneratedCoins : UInt64) (version : UInt8) :
    rewardBase alreadyGeneratedCoins version < 2 ^ 38 := by
  rw [rewardBase, targetMinutes_eq, Nat.shiftRight_eq_div_pow]
  have hsupply : moneySupply.toNat - alreadyGeneratedCoins.toNat ≤ 100000000000000000 := by
    have : moneySupply.toNat = 100000000000000000 := rfl
    omega
  simp only [emissionSpeedFactorPerMinute, show finalSubsidyPerMinute.toNat = 30000000000 from rfl]
  omega

theorem toNat_softMedianWeight (medianWeight : UInt64) (version : UInt8) :
    (softMedianWeight medianWeight version).toNat = rewardMedian medianWeight version := by
  unfold softMedianWeight rewardMedian
  dsimp only
  split
  · rename_i h
    rw [UInt64.lt_iff_toNat_lt] at h
    omega
  · rename_i h
    rw [UInt64.lt_iff_toNat_lt] at h
    omega

/-- `get_block_reward` outside the premine, with its base reward and soft median named. -/
theorem getBlockReward_eq (medianWeight currentBlockWeight alreadyGeneratedCoins : UInt64)
    (version : UInt8)
    (hpre : ¬ (0 < medianWeight ∧ alreadyGeneratedCoins < 30000000000000000 ∧ 9 ≤ version)) :
    getBlockReward medianWeight currentBlockWeight alreadyGeneratedCoins version =
      if currentBlockWeight ≤ softMedianWeight medianWeight version then
        some (blockBaseReward alreadyGeneratedCoins version)
      else if 2 * softMedianWeight medianWeight version < currentBlockWeight then none
      else some (UInt64.ofNat ((blockBaseReward alreadyGeneratedCoins version).toNat *
        ((2 * softMedianWeight medianWeight version - currentBlockWeight) *
          currentBlockWeight).toNat /
        (softMedianWeight medianWeight version).toNat /
        (softMedianWeight medianWeight version).toNat)) := by
  unfold getBlockReward
  rw [if_neg hpre]
  rfl

theorem toNat_twice (medianWeight : UInt64) (hM : medianWeight.toNat < 2 ^ 32) :
    (2 * medianWeight).toNat = 2 * medianWeight.toNat := by
  rw [UInt64.toNat_mul, show (2 : UInt64).toNat = 2 from rfl, Nat.mod_eq_of_lt (by omega)]

/-- The multiplicand `(2 * median_weight - current_block_weight) * current_block_weight` is at
most the median squared, so it does not wrap. -/
theorem toNat_multiplicand {medianWeight currentBlockWeight : UInt64}
    (hM : medianWeight.toNat < 2 ^ 32) (hlo : medianWeight.toNat ≤ currentBlockWeight.toNat)
    (hhi : currentBlockWeight.toNat ≤ 2 * medianWeight.toNat) :
    ((2 * medianWeight - currentBlockWeight) * currentBlockWeight).toNat =
      (2 * medianWeight.toNat - currentBlockWeight.toNat) * currentBlockWeight.toNat := by
  have hsub : (2 * medianWeight - currentBlockWeight).toNat =
      2 * medianWeight.toNat - currentBlockWeight.toNat := by
    rw [UInt64.toNat_sub_of_le _ _
      (by rw [UInt64.le_iff_toNat_le, toNat_twice medianWeight hM]; omega),
      toNat_twice medianWeight hM]
  have hsq : medianWeight.toNat * medianWeight.toNat < 2 ^ 32 * 2 ^ 32 := Nat.mul_lt_mul'' hM hM
  have hfactor := penaltyFactor_eq hlo hhi
  rw [UInt64.toNat_mul, hsub, Nat.mod_eq_of_lt (by omega)]

/-- The words of the penalty are the two words of the exact quotient. -/
theorem penalizedReward_spec (baseReward medianWeight currentBlockWeight : UInt64)
    (hM : medianWeight.toNat < 2 ^ 32) (hlo : medianWeight.toNat ≤ currentBlockWeight.toNat)
    (hhi : currentBlockWeight.toNat ≤ 2 * medianWeight.toNat) :
    (penalizedReward baseReward medianWeight currentBlockWeight).1.toNat * 2 ^ 64 +
        (penalizedReward baseReward medianWeight currentBlockWeight).2.toNat =
      baseReward.toNat *
          ((2 * medianWeight.toNat - currentBlockWeight.toNat) * currentBlockWeight.toNat) /
        medianWeight.toNat / medianWeight.toNat := by
  have hmult := toNat_multiplicand hM hlo hhi
  unfold penalizedReward
  dsimp only
  generalize (2 * medianWeight - currentBlockWeight) * currentBlockWeight = multiplicand at *
  have hprod := mul128_spec baseReward multiplicand
  generalize mul128 baseReward multiplicand = product at *
  obtain ⟨productLo, productHi⟩ := product
  dsimp only at hprod ⊢
  have hfirst := div128_64_spec productHi productLo medianWeight
  generalize div128_64 productHi productLo medianWeight = quotient at *
  obtain ⟨rewardHi, rewardLo⟩ := quotient
  dsimp only at hfirst ⊢
  have hnum :
      productHi.toNat * 2 ^ 64 + productLo.toNat = baseReward.toNat * multiplicand.toNat := by
    rw [← hprod]
    ring
  rw [div128_64_spec, hfirst, ← hmult, hnum]

end Words

section Reward

variable (medianWeight alreadyGeneratedCoins : UInt64) (version : UInt8)
  (hg : alreadyGeneratedCoins ≤ moneySupply)
  (hM : rewardMedian medianWeight version < 2 ^ 32)
  (hpre : ¬ (0 < medianWeight ∧ alreadyGeneratedCoins < 30000000000000000 ∧ 9 ≤ version))

include hg hM in
/-- In the penalty branch the word `reward_hi` is zero and `reward_lo` is the reward curve. -/
theorem penalizedReward_words {currentBlockWeight : UInt64}
    (hlo : rewardMedian medianWeight version < currentBlockWeight.toNat)
    (hhi : currentBlockWeight.toNat ≤ 2 * rewardMedian medianWeight version) :
    (penalizedReward (blockBaseReward alreadyGeneratedCoins version)
        (softMedianWeight medianWeight version) currentBlockWeight).1 = 0 ∧
    (penalizedReward (blockBaseReward alreadyGeneratedCoins version)
        (softMedianWeight medianWeight version) currentBlockWeight).2.toNat =
      rewardCurve (rewardBase alreadyGeneratedCoins version) (rewardMedian medianWeight version)
        currentBlockWeight.toNat := by
  have hMw := toNat_softMedianWeight medianWeight version
  have hspec := penalizedReward_spec (blockBaseReward alreadyGeneratedCoins version)
    (softMedianWeight medianWeight version) currentBlockWeight (by omega) (by omega) (by omega)
  rw [hMw, toNat_blockBaseReward version hg] at hspec
  have hlt := penalty_lt (rewardBase_pos alreadyGeneratedCoins version) hlo hhi
  have hbase := rewardBase_lt alreadyGeneratedCoins version
  rw [penalty_eq_div_div] at hlt
  rw [rewardCurve, if_neg (by omega), penalty_eq_div_div]
  constructor
  · apply UInt64.toNat_inj.mp
    rw [UInt64.toNat_zero]
    omega
  · omega

include hpre hM in
/-- `get_block_reward` outside the premine, on the soft median: the base reward up to the median,
nothing above twice the median, and the word-level penalty between. -/
theorem getBlockReward_words (currentBlockWeight : UInt64) :
    getBlockReward medianWeight currentBlockWeight alreadyGeneratedCoins version =
      if currentBlockWeight.toNat ≤ rewardMedian medianWeight version then
        some (blockBaseReward alreadyGeneratedCoins version)
      else if 2 * rewardMedian medianWeight version < currentBlockWeight.toNat then none
      else some (penalizedReward (blockBaseReward alreadyGeneratedCoins version)
        (softMedianWeight medianWeight version) currentBlockWeight).2 := by
  have hMw := toNat_softMedianWeight medianWeight version
  rw [getBlockReward_eq _ _ _ _ hpre]
  simp only [UInt64.le_iff_toNat_le, UInt64.lt_iff_toNat_lt,
    toNat_twice (softMedianWeight medianWeight version) (by omega), hMw]
  split
  · rfl
  · split
    · rfl
    · rename_i hlo hhi
      -- the penalty: the exact quotient is at most the base reward, a word
      have hspec := penalizedReward_spec (blockBaseReward alreadyGeneratedCoins version)
        (softMedianWeight medianWeight version) currentBlockWeight (by omega) (by omega) (by omega)
      rw [hMw] at hspec
      have hle : (blockBaseReward alreadyGeneratedCoins version).toNat *
          (2 * rewardMedian medianWeight version - currentBlockWeight.toNat) *
          currentBlockWeight.toNat / rewardMedian medianWeight version ^ 2 ≤
            (blockBaseReward alreadyGeneratedCoins version).toNat :=
        penalty_le (by omega) (by omega)
      rw [penalty_eq_div_div] at hle
      have hword := (blockBaseReward alreadyGeneratedCoins version).toNat_lt
      congr 1
      apply UInt64.toNat_inj.mp
      rw [UInt64.toNat_ofNat', toNat_multiplicand (by omega) (by omega) (by omega), hMw,
        Nat.mod_eq_of_lt (by omega)]
      omega

include hg hM hpre in
/-- Every reward `get_block_reward` grants is the reward curve at the block's weight, which
allows weights up to twice the median. -/
theorem getBlockReward_some {currentBlockWeight reward : UInt64}
    (h : getBlockReward medianWeight currentBlockWeight alreadyGeneratedCoins version =
      some reward) :
    reward.toNat = rewardCurve (rewardBase alreadyGeneratedCoins version)
        (rewardMedian medianWeight version) currentBlockWeight.toNat ∧
      currentBlockWeight.toNat ≤ 2 * rewardMedian medianWeight version := by
  rw [getBlockReward_words medianWeight alreadyGeneratedCoins version hM hpre] at h
  split at h
  · rename_i hle
    cases h
    rw [toNat_blockBaseReward version hg, rewardCurve, if_pos hle]
    exact ⟨rfl, by omega⟩
  · split at h
    · cases h
    · rename_i hlo hhi
      cases h
      exact ⟨(penalizedReward_words medianWeight alreadyGeneratedCoins version hg hM
        (by omega) (by omega)).2, by omega⟩

include hg hM hpre in
theorem getBlockReward_penalty (currentBlockWeight : UInt64) :
    (getBlockReward medianWeight currentBlockWeight alreadyGeneratedCoins version = none ↔
      2 * rewardMedian medianWeight version < currentBlockWeight.toNat) ∧
    (∀ reward,
      getBlockReward medianWeight currentBlockWeight alreadyGeneratedCoins version = some reward →
      reward.toNat = rewardCurve (rewardBase alreadyGeneratedCoins version)
          (rewardMedian medianWeight version) currentBlockWeight.toNat ∧
        reward.toNat ≤ rewardBase alreadyGeneratedCoins version ∧
        ∀ heavierWeight heavierReward, currentBlockWeight ≤ heavierWeight →
          getBlockReward medianWeight heavierWeight alreadyGeneratedCoins version =
            some heavierReward →
          heavierReward ≤ reward) ∧
    (rewardMedian medianWeight version < currentBlockWeight.toNat →
      currentBlockWeight.toNat ≤ 2 * rewardMedian medianWeight version →
      (penalizedReward (blockBaseReward alreadyGeneratedCoins version)
          (softMedianWeight medianWeight version) currentBlockWeight).1 = 0 ∧
      (penalizedReward (blockBaseReward alreadyGeneratedCoins version)
          (softMedianWeight medianWeight version) currentBlockWeight).2 <
        blockBaseReward alreadyGeneratedCoins version ∧
      getBlockReward medianWeight currentBlockWeight alreadyGeneratedCoins version =
        some (penalizedReward (blockBaseReward alreadyGeneratedCoins version)
          (softMedianWeight medianWeight version) currentBlockWeight).2) := by
  have hwords := getBlockReward_words medianWeight alreadyGeneratedCoins version hM hpre
  refine ⟨?_, ?_, ?_⟩
  · -- refused exactly above twice the median
    rw [hwords]
    split
    · rename_i hle
      simp only [reduceCtorEq, false_iff, not_lt]
      omega
    · split
      · rename_i hhi
        simp only [true_iff]
        exact hhi
      · rename_i hhi
        simp only [reduceCtorEq, false_iff]
        exact hhi
  · -- the curve, below the base reward and non-increasing in the weight
    intro reward h
    obtain ⟨hval, hw⟩ :=
      getBlockReward_some medianWeight alreadyGeneratedCoins version hg hM hpre h
    refine ⟨hval, hval ▸ rewardCurve_le _ hw, ?_⟩
    intro heavierWeight heavierReward hheavier h'
    obtain ⟨hval', hw'⟩ :=
      getBlockReward_some medianWeight alreadyGeneratedCoins version hg hM hpre h'
    rw [UInt64.le_iff_toNat_le, hval, hval']
    exact rewardCurve_antitone (UInt64.le_iff_toNat_le.mp hheavier) hw'
  · -- the asserts on `reward_hi` and `reward_lo` hold, and `reward_lo` is returned
    intro hlo hhi
    obtain ⟨hhigh, hlow⟩ :=
      penalizedReward_words medianWeight alreadyGeneratedCoins version hg hM hlo hhi
    refine ⟨hhigh, ?_, ?_⟩
    · rw [UInt64.lt_iff_toNat_lt, hlow, toNat_blockBaseReward version hg, rewardCurve,
        if_neg (by omega)]
      exact penalty_lt (rewardBase_pos alreadyGeneratedCoins version) hlo hhi
    · rw [hwords, if_neg (by omega), if_neg (by omega)]

end Reward

/-- A block a third heavier than the median of version 8. -/
theorem getBlockReward_penalty_heavyBlock :
    (getBlockReward 300000 400000 0 8 = none ↔
      2 * rewardMedian 300000 8 < (400000 : UInt64).toNat) ∧
    (∀ reward, getBlockReward 300000 400000 0 8 = some reward →
      reward.toNat =
          rewardCurve (rewardBase 0 8) (rewardMedian 300000 8) (400000 : UInt64).toNat ∧
        reward.toNat ≤ rewardBase 0 8 ∧
        ∀ heavierWeight heavierReward, (400000 : UInt64) ≤ heavierWeight →
          getBlockReward 300000 heavierWeight 0 8 = some heavierReward →
          heavierReward ≤ reward) ∧
    (rewardMedian 300000 8 < (400000 : UInt64).toNat →
      (400000 : UInt64).toNat ≤ 2 * rewardMedian 300000 8 →
      (penalizedReward (blockBaseReward 0 8) (softMedianWeight 300000 8) 400000).1 = 0 ∧
      (penalizedReward (blockBaseReward 0 8) (softMedianWeight 300000 8) 400000).2 <
        blockBaseReward 0 8 ∧
      getBlockReward 300000 400000 0 8 =
        some (penalizedReward (blockBaseReward 0 8) (softMedianWeight 300000 8) 400000).2) :=
  getBlockReward_penalty 300000 0 8 (by decide) (by decide) (by decide) 400000

end Cryptonote

end Wazn
