import Mathlib.Algebra.Order.Group.Nat
import Wazn.Library.RoundRobin
import Wazn.Model.Pruning

/-!
# The next unpruned and the next pruned height

Read on natural numbers, a seed made by `make_pruning_seed(stripe, log_stripes)` keeps stripe
`stripe` of `2 ^ log_stripes` (`getPruningStripeOfSeed_toNat`, `getPruningLogStripes_toNat`),
and a height below the tip zone is in the stripe of its run of `CRYPTONOTE_PRUNING_STRIPE_SIZE`
blocks dealt round-robin (`hasUnprunedBlock_iff`). Runs dealt round-robin are
`RoundRobin`'s positions: `get_next_unpruned_block_height` computes the first run of the node's
stripe from the one of `block_height` on (`toNat_getNextUnprunedBlockHeight`), so it returns
the least height the node keeps (`getNextUnprunedBlockHeight_least`).

`get_next_pruned_block_height` asks for the next unpruned height of the following stripe, which
is the next run. When that run starts inside the tip zone there is no pruned height left, and
the tip-zone clamp of `get_next_unpruned_block_height` returns the first height of the tip zone
rather than `blockchain_height` (`getNextPrunedBlockHeight_clamped`). Otherwise the result is
the least pruned height, or `blockchain_height` when there is none
(`getNextPrunedBlockHeight_spec`).
-/

set_option autoImplicit false

namespace Wazn

namespace Tools

open RoundRobin

/-! ## Masks and seeds on natural numbers -/

section Words

@[simp] theorem toNat_cryptonotePruningTipBlocks : cryptonotePruningTipBlocks.toNat = 5500 := rfl

@[simp] theorem toNat_cryptonotePruningStripeSize : cryptonotePruningStripeSize.toNat = 4096 := rfl

variable {k : UInt64}

theorem toNat_one_shiftLeft (hk : k.toNat < 64) : ((1 : UInt64) <<< k).toNat = 2 ^ k.toNat := by
  rw [UInt64.toNat_shiftLeft, Nat.mod_eq_of_lt hk]
  simp only [UInt64.toNat_one, Nat.shiftLeft_eq, Nat.one_mul]
  exact Nat.mod_eq_of_lt (Nat.pow_lt_pow_right (by norm_num) hk)

theorem toNat_and_mask (x : UInt64) (hk : k.toNat < 64) :
    (x &&& ((1 : UInt64) <<< k - 1)).toNat = x.toNat % 2 ^ k.toNat := by
  have hpow := toNat_one_shiftLeft hk
  have hmask : ((1 : UInt64) <<< k - 1).toNat = 2 ^ k.toNat - 1 := by
    rw [UInt64.toNat_sub_of_le, hpow]
    · rfl
    · rw [UInt64.le_iff_toNat_le, hpow]
      exact Nat.one_le_two_pow
  rw [UInt64.toNat_and, hmask, Nat.and_two_pow_sub_one_eq_mod]

end Words

section Seed

variable {stripe logStripes pruningSeed : UInt32}

theorem pow_le_128 {l : ℕ} (hl : l ≤ 7) : 2 ^ l ≤ 128 :=
  (Nat.pow_le_pow_right (by norm_num) hl).trans (by norm_num)

/-- What `make_pruning_seed` checks, and the seed it packs: `log_stripes` above the stripe. -/
theorem makePruningSeed_eq_ok (h : makePruningSeed stripe logStripes = .ok pruningSeed) :
    logStripes.toNat ≤ 7 ∧ 0 < stripe.toNat ∧ stripe.toNat ≤ 2 ^ logStripes.toNat ∧
      pruningSeed.toNat = logStripes.toNat * 128 + (stripe.toNat - 1) := by
  unfold makePruningSeed at h
  split at h
  · rename_i hl
    split at h
    · rename_i hs
      injection h with h
      subst h
      have hl : logStripes.toNat ≤ 7 := UInt32.le_iff_toNat_le.mp hl
      have hs0 : 0 < stripe.toNat := UInt32.lt_iff_toNat_lt.mp hs.1
      have hs : stripe.toNat ≤ 2 ^ logStripes.toNat := by
        have := UInt64.le_iff_toNat_le.mp hs.2
        rwa [toNat_one_shiftLeft (by simp; omega), UInt32.toNat_toUInt64] at this
      have hs128 : stripe.toNat - 1 < 2 ^ 7 := by
        have := pow_le_128 hl
        omega
      refine ⟨hl, hs0, hs, ?_⟩
      have hlow : ((stripe - 1) <<< pruningSeedStripeShift).toNat = stripe.toNat - 1 := by
        rw [UInt32.toNat_shiftLeft, show pruningSeedStripeShift.toNat % 32 = 0 from rfl,
          Nat.shiftLeft_zero,
          UInt32.toNat_sub_of_le _ _ (UInt32.le_iff_toNat_le.mpr (by rw [UInt32.toNat_one]; omega))]
        exact Nat.mod_eq_of_lt (by omega)
      have hhigh : (logStripes <<< pruningSeedLogStripesShift).toNat = logStripes.toNat <<< 7 := by
        rw [UInt32.toNat_shiftLeft, show pruningSeedLogStripesShift.toNat % 32 = 7 from rfl]
        exact Nat.mod_eq_of_lt (by rw [Nat.shiftLeft_eq]; omega)
      rw [UInt32.toNat_or, hhigh, hlow, ← Nat.shiftLeft_add_eq_or_of_lt hs128, Nat.shiftLeft_eq]
    · cases h
  · cases h

/-- `make_pruning_seed` succeeds on what it checks. -/
theorem makePruningSeed_ok (hl : logStripes.toNat ≤ 7) (hs0 : 0 < stripe.toNat)
    (hs : stripe.toNat ≤ 2 ^ logStripes.toNat) :
    ∃ pruningSeed, makePruningSeed stripe logStripes = .ok pruningSeed := by
  have hcheck : 0 < stripe ∧ stripe.toUInt64 ≤ 1 <<< logStripes.toUInt64 := by
    refine ⟨UInt32.lt_iff_toNat_lt.mpr hs0, UInt64.le_iff_toNat_le.mpr ?_⟩
    rw [toNat_one_shiftLeft (by simp; omega), UInt32.toNat_toUInt64, UInt32.toNat_toUInt64]
    exact hs
  unfold makePruningSeed
  rw [if_pos (UInt32.le_iff_toNat_le.mpr hl), if_pos hcheck]
  exact ⟨_, rfl⟩

theorem getPruningLogStripes_toNat (h : makePruningSeed stripe logStripes = .ok pruningSeed) :
    (getPruningLogStripes pruningSeed).toNat = logStripes.toNat := by
  obtain ⟨hl, hs0, hs, hseed⟩ := makePruningSeed_eq_ok h
  have h128 := pow_le_128 hl
  unfold getPruningLogStripes
  rw [UInt32.toNat_and, UInt32.toNat_shiftRight, hseed,
    show pruningSeedLogStripesShift.toNat % 32 = 7 from rfl,
    show pruningSeedLogStripesMask.toNat = 2 ^ 3 - 1 from rfl, Nat.and_two_pow_sub_one_eq_mod,
    Nat.shiftRight_eq_div_pow]
  omega

/-- A seed keeps its stripe, and the seed of the only stripe of `2 ^ 0` is the seed 0 of an
unpruned node. -/
theorem getPruningStripeOfSeed_toNat (h : makePruningSeed stripe logStripes = .ok pruningSeed) :
    (getPruningStripeOfSeed pruningSeed).toNat =
      if logStripes.toNat = 0 then 0 else stripe.toNat := by
  obtain ⟨hl, hs0, hs, hseed⟩ := makePruningSeed_eq_ok h
  unfold getPruningStripeOfSeed
  by_cases hl0 : logStripes.toNat = 0
  · -- one stripe: `stripe` is 1 and the seed is 0
    have hzero : pruningSeed = 0 := by
      rw [hl0, pow_zero] at hs
      apply UInt32.toNat_inj.mp
      rw [hseed, hl0]
      simp only [UInt32.toNat_zero]
      omega
    simp [hzero, hl0]
  · have h128 := pow_le_128 hl
    have hne : pruningSeed ≠ 0 := by
      intro hzero
      rw [hzero, UInt32.toNat_zero] at hseed
      omega
    rw [if_neg hne, if_neg hl0, UInt32.toNat_add, UInt32.toNat_and, UInt32.toNat_shiftRight,
      hseed, show pruningSeedStripeShift.toNat % 32 = 0 from rfl, Nat.shiftRight_zero,
      show pruningSeedStripeMask.toNat = 2 ^ 7 - 1 from rfl, Nat.and_two_pow_sub_one_eq_mod,
      UInt32.toNat_one]
    omega

/-- The `log_stripes` a seed's own functions use is the one it was made with. -/
theorem seedLogStripesOrDefault_eq (h : makePruningSeed stripe logStripes = .ok pruningSeed)
    (hl0 : logStripes.toNat ≠ 0) : seedLogStripesOrDefault pruningSeed = logStripes.toUInt64 := by
  have hlog : getPruningLogStripes pruningSeed = logStripes :=
    UInt32.toNat_inj.mp (getPruningLogStripes_toNat h)
  have hne : getPruningLogStripes pruningSeed ≠ 0 := by
    rw [hlog]
    intro hzero
    rw [hzero, UInt32.toNat_zero] at hl0
    exact hl0 rfl
  unfold seedLogStripesOrDefault
  rw [if_pos hne, hlog]

end Seed

/-! ## Stripes of heights -/

section Heights

variable {blockHeight blockchainHeight : UInt64}

theorem toNat_le_of_le_maxBlockNumber {x : UInt64} (hx : x ≤ cryptonoteMaxBlockNumber + 1) :
    x.toNat ≤ 500000001 :=
  UInt64.le_iff_toNat_le.mp hx

/-- The tip-zone test, which cannot wrap on heights up to `CRYPTONOTE_MAX_BLOCK_NUMBER + 1`. -/
theorem le_add_tip_iff (hbh : blockHeight.toNat ≤ 500000001) :
    blockchainHeight ≤ blockHeight + cryptonotePruningTipBlocks ↔
      blockchainHeight.toNat ≤ blockHeight.toNat + 5500 := by
  rw [UInt64.le_iff_toNat_le, UInt64.toNat_add, toNat_cryptonotePruningTipBlocks,
    Nat.mod_eq_of_lt (by omega)]

theorem toNat_blockPruningStripe {logStripes : UInt64} (hl : logStripes.toNat ≤ 7) :
    (blockPruningStripe blockHeight logStripes).toNat =
      blockHeight.toNat / 4096 % 2 ^ logStripes.toNat + 1 := by
  have h128 := pow_le_128 hl
  have hmod := Nat.mod_lt (blockHeight.toNat / 4096) (Nat.two_pow_pos logStripes.toNat)
  unfold blockPruningStripe
  rw [UInt64.toNat_toUInt32, UInt64.toNat_add, toNat_and_mask _ (by omega), UInt64.toNat_div,
    toNat_cryptonotePruningStripeSize, UInt64.toNat_one,
    Nat.mod_eq_of_lt (by omega), Nat.mod_eq_of_lt (by omega)]

theorem getPruningStripe_eq (logStripes : UInt32) :
    getPruningStripe blockHeight blockchainHeight logStripes =
      if blockchainHeight ≤ blockHeight + cryptonotePruningTipBlocks then 0
      else blockPruningStripe blockHeight logStripes.toUInt64 := rfl

variable {stripe logStripes pruningSeed : UInt32}

/-- `has_unpruned_block` on natural numbers: a node keeps a block when it is unpruned, when the
block is in the tip zone, or when the block's run is dealt to the node's stripe. -/
theorem hasUnprunedBlock_iff (hseed : makePruningSeed stripe logStripes = .ok pruningSeed)
    (hh : blockHeight.toNat ≤ 500000001) :
    hasUnprunedBlock blockHeight blockchainHeight pruningSeed = true ↔
      logStripes.toNat = 0 ∨ blockchainHeight.toNat ≤ blockHeight.toNat + 5500 ∨
        blockHeight.toNat / 4096 % 2 ^ logStripes.toNat = stripe.toNat - 1 := by
  obtain ⟨hl, hs0, hs, -⟩ := makePruningSeed_eq_ok hseed
  have hstripe := getPruningStripeOfSeed_toNat hseed
  unfold hasUnprunedBlock
  by_cases hl0 : logStripes.toNat = 0
  · have hzero : getPruningStripeOfSeed pruningSeed = 0 := by
      apply UInt32.toNat_inj.mp
      rw [hstripe, if_pos hl0, UInt32.toNat_zero]
    simp [hzero, hl0]
  · have hne : getPruningStripeOfSeed pruningSeed ≠ 0 := by
      intro hzero
      rw [hzero, if_neg hl0, UInt32.toNat_zero] at hstripe
      omega
    have hlog : getPruningLogStripes pruningSeed = logStripes :=
      UInt32.toNat_inj.mp (getPruningLogStripes_toNat hseed)
    simp only [hne, if_false, hlog, getPruningStripe_eq, le_add_tip_iff hh, hl0, false_or]
    by_cases htip : blockchainHeight.toNat ≤ blockHeight.toNat + 5500
    · simp [htip]
    · have hblock : (blockPruningStripe blockHeight logStripes.toUInt64).toNat =
          blockHeight.toNat / 4096 % 2 ^ logStripes.toNat + 1 := by
        rw [toNat_blockPruningStripe (by simp; omega), UInt32.toNat_toUInt64]
      simp only [htip, if_false, false_or, Bool.or_eq_true, decide_eq_true_eq,
        ← UInt32.toNat_inj, hblock, UInt32.toNat_zero, hstripe, if_neg hl0]
      omega

end Heights

/-! ## `get_next_unpruned_block_height` -/

section NextUnpruned

variable {blockHeight blockchainHeight : UInt64} {stripe logStripes pruningSeed : UInt32}

/-- The start of the node's next run, as `get_next_unpruned_block_height` computes it from the
cycle of `block_height`, is `RoundRobin.nextOfSlot` on runs. -/
theorem toNat_nextRunStart (blockHeight : UInt64) (stripe : UInt32) {logStripes : UInt64}
    (hl : logStripes.toNat ≤ 7)
    (hs0 : 0 < stripe.toNat) (hs : stripe.toNat ≤ 2 ^ logStripes.toNat)
    (hbh : blockHeight.toNat ≤ 500000001) :
    (((blockHeight / cryptonotePruningStripeSize) >>> logStripes +
        (if stripe > blockPruningStripe blockHeight logStripes then 0 else 1)) *
        (cryptonotePruningStripeSize <<< logStripes) + ((stripe - 1) * 4096).toUInt64).toNat =
      nextOfSlot (2 ^ logStripes.toNat) (blockHeight.toNat / 4096) (stripe.toNat - 1) * 4096 := by
  have h128 := pow_le_128 hl
  have hl64 : logStripes.toNat < 64 := by omega
  have hcycle := Nat.div_mul_le_self (blockHeight.toNat / 4096) (2 ^ logStripes.toNat)
  have hcycles : ((blockHeight / cryptonotePruningStripeSize) >>> logStripes).toNat =
      blockHeight.toNat / 4096 / 2 ^ logStripes.toNat := by
    rw [UInt64.toNat_shiftRight, UInt64.toNat_div, Nat.mod_eq_of_lt hl64,
      Nat.shiftRight_eq_div_pow]
    rfl
  -- the stripe comparison picks the cycle of `block_height` or the next one
  have hnext : (if stripe > blockPruningStripe blockHeight logStripes then (0 : UInt64)
      else 1).toNat =
      if stripe.toNat - 1 > blockHeight.toNat / 4096 % 2 ^ logStripes.toNat then 0 else 1 := by
    have hlt : stripe > blockPruningStripe blockHeight logStripes ↔
        stripe.toNat - 1 > blockHeight.toNat / 4096 % 2 ^ logStripes.toNat := by
      rw [gt_iff_lt, UInt32.lt_iff_toNat_lt, toNat_blockPruningStripe hl]
      omega
    by_cases hc : stripe.toNat - 1 > blockHeight.toNat / 4096 % 2 ^ logStripes.toNat
    · rw [if_pos (hlt.mpr hc), if_pos hc, UInt64.toNat_zero]
    · rw [if_neg (mt hlt.mp hc), if_neg hc, UInt64.toNat_one]
  have hsize :
      (cryptonotePruningStripeSize <<< logStripes).toNat = 4096 * 2 ^ logStripes.toNat := by
    rw [UInt64.toNat_shiftLeft, Nat.mod_eq_of_lt hl64, Nat.shiftLeft_eq,
      toNat_cryptonotePruningStripeSize]
    exact Nat.mod_eq_of_lt (by omega)
  have hlow : ((stripe - 1) * 4096).toUInt64.toNat = (stripe.toNat - 1) * 4096 := by
    rw [UInt32.toNat_toUInt64, UInt32.toNat_mul,
      UInt32.toNat_sub_of_le _ _ (UInt32.le_iff_toNat_le.mpr (by rw [UInt32.toNat_one]; omega))]
    exact Nat.mod_eq_of_lt (by simp only [UInt32.toNat_one, UInt32.reduceToNat]; omega)
  rw [UInt64.toNat_add, UInt64.toNat_mul, UInt64.toNat_add, hcycles, hnext, hsize, hlow,
    nextOfSlot]
  -- no step wraps: the start of the next cycle is at most one cycle past `block_height`
  have hq : blockHeight.toNat / 4096 ≤ 122070 := by omega
  generalize blockHeight.toNat / 4096 = q at *
  generalize 2 ^ logStripes.toNat = P at *
  generalize hc : (if stripe.toNat - 1 > q % P then 0 else 1) = c
  have hc1 : c ≤ 1 := by
    rw [← hc]
    split <;> omega
  have hstart : (q / P + c) * P ≤ q + P := by
    rw [Nat.add_mul]
    have := Nat.mul_le_mul_right P hc1
    omega
  have hprod : (q / P + c) * (4096 * P) = (q / P + c) * P * 4096 := by ring
  have hdiv := Nat.div_le_self q P
  rw [Nat.mod_eq_of_lt (show q / P + c < 2 ^ 64 by omega), hprod,
    Nat.mod_eq_of_lt (show (q / P + c) * P * 4096 < 2 ^ 64 by omega),
    Nat.mod_eq_of_lt (by omega)]
  ring

theorem toNat_getNextUnprunedBlockHeight
    (hseed : makePruningSeed stripe logStripes = .ok pruningSeed) (hl0 : logStripes.toNat ≠ 0)
    (hbh : blockHeight.toNat ≤ 500000001) (hbch : blockchainHeight.toNat ≤ 500000001)
    (htip : blockHeight.toNat + 5500 < blockchainHeight.toNat)
    (hoff : blockHeight.toNat / 4096 % 2 ^ logStripes.toNat ≠ stripe.toNat - 1) :
    (getNextUnprunedBlockHeight blockHeight blockchainHeight pruningSeed).toNat =
      let next := nextOfSlot (2 ^ logStripes.toNat) (blockHeight.toNat / 4096) (stripe.toNat - 1)
        * 4096
      if blockchainHeight.toNat < next + 5500 then blockchainHeight.toNat - 5500 else next := by
  obtain ⟨hl, hs0, hs, -⟩ := makePruningSeed_eq_ok hseed
  have hstripe : getPruningStripeOfSeed pruningSeed = stripe :=
    UInt32.toNat_inj.mp (by rw [getPruningStripeOfSeed_toNat hseed, if_neg hl0])
  have hl' : logStripes.toUInt64.toNat ≤ 7 := by rwa [UInt32.toNat_toUInt64]
  have hoff' : blockPruningStripe blockHeight logStripes.toUInt64 ≠ stripe := by
    intro heq
    have := congrArg UInt32.toNat heq
    rw [toNat_blockPruningStripe hl', UInt32.toNat_toUInt64] at this
    omega
  have hjump := toNat_nextRunStart blockHeight stripe hl' hs0
    (by rwa [UInt32.toNat_toUInt64]) hbh
  rw [UInt32.toNat_toUInt64] at hjump
  have hj : stripe.toNat - 1 < 2 ^ logStripes.toNat := by omega
  have hnext := nextOfSlot_lt (x := blockHeight.toNat / 4096) hj
  have h128 := pow_le_128 hl
  have hne : stripe ≠ 0 := fun h => by rw [h, UInt32.toNat_zero] at hs0; omega
  unfold getNextUnprunedBlockHeight
  simp only [hstripe, seedLogStripesOrDefault_eq hseed hl0]
  rw [if_neg (not_not.mpr (UInt64.le_iff_toNat_le.mpr hbh)),
    if_neg (not_not.mpr (UInt64.le_iff_toNat_le.mpr hbch)), if_neg hne,
    if_neg (mt (le_add_tip_iff hbh).mp (by omega)), if_neg hoff']
  -- the start of the next run, read through `hjump`
  generalize (if stripe > blockPruningStripe blockHeight logStripes.toUInt64 then (0 : UInt64)
    else 1) = c at hjump ⊢
  generalize ((blockHeight / cryptonotePruningStripeSize) >>> logStripes.toUInt64 + c) *
    (cryptonotePruningStripeSize <<< logStripes.toUInt64) + ((stripe - 1) * 4096).toUInt64 = h
    at hjump ⊢
  have hbh' : blockHeight.toNat < h.toNat := by
    have := lt_nextOfSlot (x := blockHeight.toNat / 4096) hj
    omega
  have hclamp : blockchainHeight < h + cryptonotePruningTipBlocks ↔
      blockchainHeight.toNat < h.toNat + 5500 := by
    rw [UInt64.lt_iff_toNat_lt, UInt64.toNat_add, toNat_cryptonotePruningTipBlocks,
      Nat.mod_eq_of_lt (by omega)]
  by_cases hin : blockchainHeight.toNat < h.toNat + 5500
  · -- the run starts inside the tip zone: the first height of the tip zone
    have hge : ¬ blockchainHeight < cryptonotePruningTipBlocks := by
      rw [UInt64.lt_iff_toNat_lt]
      rw [toNat_cryptonotePruningTipBlocks]
      omega
    have hsub : cryptonotePruningTipBlocks ≤ blockchainHeight := by
      rw [UInt64.le_iff_toNat_le, toNat_cryptonotePruningTipBlocks]
      omega
    rw [if_pos (hclamp.mpr hin), if_neg hge, UInt64.toNat_sub_of_le _ _ hsub, ← hjump, if_pos hin]
    rfl
  · rw [if_neg (mt hclamp.mp hin), if_neg (not_not.mpr (UInt64.le_iff_toNat_le.mpr hbh'.le)),
      ← hjump, if_neg hin]

/-- A node that keeps `block_height` has it as its next unpruned height. -/
theorem getNextUnprunedBlockHeight_of_hasUnprunedBlock
    (hseed : makePruningSeed stripe logStripes = .ok pruningSeed)
    (hbh : blockHeight.toNat ≤ 500000001) (hbch : blockchainHeight.toNat ≤ 500000001)
    (hkeep : hasUnprunedBlock blockHeight blockchainHeight pruningSeed = true) :
    getNextUnprunedBlockHeight blockHeight blockchainHeight pruningSeed = blockHeight := by
  have hstripe := getPruningStripeOfSeed_toNat hseed
  have hl := (makePruningSeed_eq_ok hseed).1
  unfold getNextUnprunedBlockHeight
  rw [if_neg (not_not.mpr (UInt64.le_iff_toNat_le.mpr hbh)),
    if_neg (not_not.mpr (UInt64.le_iff_toNat_le.mpr hbch))]
  dsimp only
  split
  · rfl
  split
  · rfl
  rename_i hne htip
  rcases (hasUnprunedBlock_iff hseed hbh).mp hkeep with hl0 | htip' | hslot
  · -- one stripe: the seed keeps everything
    exfalso
    rw [if_pos hl0] at hstripe
    exact hne (UInt32.toNat_inj.mp hstripe)
  · exact absurd ((le_add_tip_iff hbh).mpr htip') htip
  · have hl0 : logStripes.toNat ≠ 0 := fun hl0 => hne (UInt32.toNat_inj.mp (by
      rw [hstripe, if_pos hl0, UInt32.toNat_zero]))
    have hon : blockPruningStripe blockHeight (seedLogStripesOrDefault pruningSeed) =
        getPruningStripeOfSeed pruningSeed := by
      apply UInt32.toNat_inj.mp
      rw [seedLogStripesOrDefault_eq hseed hl0, toNat_blockPruningStripe (by simpa using hl),
        UInt32.toNat_toUInt64, hstripe, if_neg hl0]
      have := (makePruningSeed_eq_ok hseed).2.1
      omega
    rw [if_pos hon]

end NextUnpruned

/-- The seed 0 of an unpruned node is the seed of the one stripe of `2 ^ 0`. -/
theorem makePruningSeed_one_zero : makePruningSeed 1 0 = .ok 0 := rfl

/-- `get_next_unpruned_block_height` returns the least height from `block_height` on that the
node keeps. -/
theorem getNextUnprunedBlockHeight_least (blockHeight blockchainHeight : UInt64)
    (pruningSeed : UInt32)
    (hseed : pruningSeed = 0 ∨
      ∃ stripe logStripes, makePruningSeed stripe logStripes = .ok pruningSeed)
    (hle : blockHeight ≤ blockchainHeight)
    (hmax : blockchainHeight ≤ cryptonoteMaxBlockNumber + 1) :
    blockHeight ≤ getNextUnprunedBlockHeight blockHeight blockchainHeight pruningSeed ∧
      hasUnprunedBlock (getNextUnprunedBlockHeight blockHeight blockchainHeight pruningSeed)
        blockchainHeight pruningSeed = true ∧
      ∀ h, blockHeight ≤ h →
        h < getNextUnprunedBlockHeight blockHeight blockchainHeight pruningSeed →
        hasUnprunedBlock h blockchainHeight pruningSeed = false := by
  obtain ⟨stripe, logStripes, hseed⟩ :
      ∃ stripe logStripes, makePruningSeed stripe logStripes = .ok pruningSeed := by
    rcases hseed with rfl | hmade
    · exact ⟨1, 0, makePruningSeed_one_zero⟩
    · exact hmade
  have hbch := toNat_le_of_le_maxBlockNumber hmax
  have hbh : blockHeight.toNat ≤ 500000001 := (UInt64.le_iff_toNat_le.mp hle).trans hbch
  by_cases hkeep : hasUnprunedBlock blockHeight blockchainHeight pruningSeed = true
  · -- a kept height is its own next unpruned height
    rw [getNextUnprunedBlockHeight_of_hasUnprunedBlock hseed hbh hbch hkeep]
    exact ⟨UInt64.le_refl _, hkeep, fun h h₁ h₂ => absurd h₂ (UInt64.not_lt.mpr h₁)⟩
  · -- a pruned height: the jump to the next run of the node's stripe
    rw [hasUnprunedBlock_iff hseed hbh] at hkeep
    simp only [not_or] at hkeep
    obtain ⟨hl0, htip, hoff⟩ := hkeep
    obtain ⟨hl, hs0, hs, -⟩ := makePruningSeed_eq_ok hseed
    have hr := toNat_getNextUnprunedBlockHeight hseed hl0 hbh hbch (by omega) hoff
    have hj : stripe.toNat - 1 < 2 ^ logStripes.toNat := by omega
    have hnext := lt_nextOfSlot (x := blockHeight.toNat / 4096) hj
    have hslot := mod_nextOfSlot (x := blockHeight.toNat / 4096) hj
    generalize hN : nextOfSlot (2 ^ logStripes.toNat) (blockHeight.toNat / 4096)
      (stripe.toNat - 1) = N at hr hnext hslot
    generalize getNextUnprunedBlockHeight blockHeight blockchainHeight pruningSeed = r at hr ⊢
    dsimp only at hr
    -- `r` is the start of the run, or the first height of the tip zone before it
    have hrN : r.toNat ≤ N * 4096 ∧ r.toNat + 5500 ≤ blockchainHeight.toNat := by
      split at hr <;> omega
    refine ⟨UInt64.le_iff_toNat_le.mpr (by split at hr <;> omega), ?_, ?_⟩
    · rw [hasUnprunedBlock_iff hseed (by omega)]
      split at hr
      · exact .inr (.inl (by omega))
      · refine .inr (.inr ?_)
        rw [hr, Nat.mul_div_cancel _ (by norm_num), hslot]
    · intro h h₁ h₂
      have h₁ := UInt64.le_iff_toNat_le.mp h₁
      have h₂ := UInt64.lt_iff_toNat_lt.mp h₂
      rw [← Bool.not_eq_true, hasUnprunedBlock_iff hseed (by omega)]
      simp only [not_or]
      refine ⟨hl0, by omega, ?_⟩
      apply mod_ne_of_lt_nextOfSlot hj hoff (Nat.div_le_div_right h₁)
      rw [hN, Nat.div_lt_iff_lt_mul (by norm_num)]
      omega

theorem getNextUnprunedBlockHeight_least_firstStripe :
    (5000 : UInt64) ≤ getNextUnprunedBlockHeight 5000 100000 384 ∧
      hasUnprunedBlock (getNextUnprunedBlockHeight 5000 100000 384) 100000 384 = true ∧
      ∀ h, 5000 ≤ h → h < getNextUnprunedBlockHeight 5000 100000 384 →
        hasUnprunedBlock h 100000 384 = false :=
  getNextUnprunedBlockHeight_least 5000 100000 384 (.inr ⟨1, 3, rfl⟩) (by decide) (by decide)


/-! ## `get_next_pruned_block_height` -/

section NextPruned

variable {blockHeight blockchainHeight : UInt64} {stripe logStripes pruningSeed : UInt32}

/-- An unpruned node, and a height in the tip zone, have no pruned height left. -/
theorem getNextPrunedBlockHeight_of_keepsRest
    (hseed : makePruningSeed stripe logStripes = .ok pruningSeed)
    (hbh : blockHeight.toNat ≤ 500000001)
    (hrest : logStripes.toNat = 0 ∨ blockchainHeight.toNat ≤ blockHeight.toNat + 5500) :
    getNextPrunedBlockHeight blockHeight blockchainHeight pruningSeed = .ok blockchainHeight := by
  have hstripe := getPruningStripeOfSeed_toNat hseed
  unfold getNextPrunedBlockHeight
  dsimp only
  rcases hrest with hl0 | htip
  · have hzero : getPruningStripeOfSeed pruningSeed = 0 :=
      UInt32.toNat_inj.mp (by rw [hstripe, if_pos hl0, UInt32.toNat_zero])
    rw [if_pos hzero]
  · split
    · rfl
    · rw [if_pos ((le_add_tip_iff hbh).mpr htip)]

/-- A height the node prunes is its own next pruned height. -/
theorem getNextPrunedBlockHeight_of_pruned
    (hseed : makePruningSeed stripe logStripes = .ok pruningSeed)
    (hbh : blockHeight.toNat ≤ 500000001)
    (hpruned : hasUnprunedBlock blockHeight blockchainHeight pruningSeed = false) :
    getNextPrunedBlockHeight blockHeight blockchainHeight pruningSeed = .ok blockHeight := by
  rw [← Bool.not_eq_true, hasUnprunedBlock_iff hseed hbh] at hpruned
  simp only [not_or] at hpruned
  obtain ⟨hl0, htip, hoff⟩ := hpruned
  obtain ⟨hl, hs0, -, -⟩ := makePruningSeed_eq_ok hseed
  have hstripe := getPruningStripeOfSeed_toNat hseed
  rw [if_neg hl0] at hstripe
  have hne : getPruningStripeOfSeed pruningSeed ≠ 0 := fun h => by
    rw [h, UInt32.toNat_zero] at hstripe
    omega
  have hoff' : blockPruningStripe blockHeight logStripes.toUInt64 ≠
      getPruningStripeOfSeed pruningSeed := by
    intro heq
    have := congrArg UInt32.toNat heq
    rw [toNat_blockPruningStripe (by rwa [UInt32.toNat_toUInt64]), UInt32.toNat_toUInt64,
      hstripe] at this
    omega
  unfold getNextPrunedBlockHeight
  simp only [seedLogStripesOrDefault_eq hseed hl0]
  rw [if_neg hne, if_neg (mt (le_add_tip_iff hbh).mp htip), if_pos hoff']

/-- On the node's own stripe, `get_next_pruned_block_height` is the next unpruned height for the
seed of the following stripe, which `make_pruning_seed` accepts. -/
theorem getNextPrunedBlockHeight_of_onStripe
    (hseed : makePruningSeed stripe logStripes = .ok pruningSeed) (hl0 : logStripes.toNat ≠ 0)
    (hbh : blockHeight.toNat ≤ 500000001)
    (htip : blockHeight.toNat + 5500 < blockchainHeight.toNat)
    (hon : blockHeight.toNat / 4096 % 2 ^ logStripes.toNat = stripe.toNat - 1) :
    ∃ nextStripe nextSeed, nextStripe.toNat = stripe.toNat % 2 ^ logStripes.toNat + 1 ∧
      makePruningSeed nextStripe logStripes = .ok nextSeed ∧
      getNextPrunedBlockHeight blockHeight blockchainHeight pruningSeed =
        .ok (getNextUnprunedBlockHeight blockHeight blockchainHeight nextSeed) := by
  obtain ⟨hl, hs0, hs, -⟩ := makePruningSeed_eq_ok hseed
  have h128 := pow_le_128 hl
  have hl' : logStripes.toUInt64.toNat ≤ 7 := by rwa [UInt32.toNat_toUInt64]
  have hstripe : getPruningStripeOfSeed pruningSeed = stripe :=
    UInt32.toNat_inj.mp (by rw [getPruningStripeOfSeed_toNat hseed, if_neg hl0])
  have hne : stripe ≠ 0 := fun h => by
    rw [h, UInt32.toNat_zero] at hs0
    omega
  have hon' : blockPruningStripe blockHeight logStripes.toUInt64 = stripe := by
    apply UInt32.toNat_inj.mp
    rw [toNat_blockPruningStripe hl', UInt32.toNat_toUInt64]
    omega
  -- the following stripe, `1 + (block_pruning_seed & mask)`, wraps from the last to the first
  have hnextStripe : ((1 : UInt64) + (stripe.toUInt64 &&&
      ((1 <<< logStripes.toUInt64) - 1))).toUInt32.toNat =
      stripe.toNat % 2 ^ logStripes.toNat + 1 := by
    have hmod := Nat.mod_lt stripe.toNat (Nat.two_pow_pos logStripes.toNat)
    rw [UInt64.toNat_toUInt32, UInt64.toNat_add, toNat_and_mask _ (by omega),
      UInt32.toNat_toUInt64, UInt32.toNat_toUInt64, UInt64.toNat_one, Nat.mod_eq_of_lt (by omega),
      Nat.mod_eq_of_lt (by omega)]
    omega
  unfold getNextPrunedBlockHeight
  simp only [hstripe, seedLogStripesOrDefault_eq hseed hl0, hon', UInt32.toUInt32_toUInt64]
  rw [if_neg hne, if_neg (mt (le_add_tip_iff hbh).mp (by omega)), if_neg (not_not.mpr rfl)]
  generalize ((1 : UInt64) + (stripe.toUInt64 &&& ((1 <<< logStripes.toUInt64) - 1))).toUInt32 =
    nextStripe at hnextStripe ⊢
  obtain ⟨nextSeed, hnext⟩ := makePruningSeed_ok hl (show 0 < nextStripe.toNat by omega)
    (show nextStripe.toNat ≤ 2 ^ logStripes.toNat by
      rw [hnextStripe]
      exact Nat.mod_lt _ (Nat.two_pow_pos _))
  refine ⟨nextStripe, nextSeed, hnextStripe, hnext, ?_⟩
  rw [hnext]
  rfl

end NextPruned

/-- `get_next_pruned_block_height` returns the least pruned height from `block_height` on when
there is one. When there is none it returns `blockchain_height`, or the first height of the tip
zone when the node's next run starts inside it or right at it. -/
theorem getNextPrunedBlockHeight_spec (blockHeight blockchainHeight : UInt64)
    (pruningSeed : UInt32)
    (hseed : pruningSeed = 0 ∨
      ∃ stripe logStripes, makePruningSeed stripe logStripes = .ok pruningSeed)
    (hle : blockHeight ≤ blockchainHeight)
    (hmax : blockchainHeight ≤ cryptonoteMaxBlockNumber + 1) :
    ∃ r, getNextPrunedBlockHeight blockHeight blockchainHeight pruningSeed = .ok r ∧
      blockHeight ≤ r ∧ r ≤ blockchainHeight ∧
      (∀ h, blockHeight ≤ h → h < r →
        hasUnprunedBlock h blockchainHeight pruningSeed = true) ∧
      (hasUnprunedBlock r blockchainHeight pruningSeed = false ∧ r < blockchainHeight ∨
        (∀ h, blockHeight ≤ h → h < blockchainHeight →
          hasUnprunedBlock h blockchainHeight pruningSeed = true) ∧
        (r = blockchainHeight ∨ r + cryptonotePruningTipBlocks = blockchainHeight)) := by
  obtain ⟨stripe, logStripes, hseed⟩ :
      ∃ stripe logStripes, makePruningSeed stripe logStripes = .ok pruningSeed := by
    rcases hseed with rfl | hmade
    · exact ⟨1, 0, makePruningSeed_one_zero⟩
    · exact hmade
  have hbch := toNat_le_of_le_maxBlockNumber hmax
  have hle' := UInt64.le_iff_toNat_le.mp hle
  have hbh : blockHeight.toNat ≤ 500000001 := hle'.trans hbch
  by_cases hrest : logStripes.toNat = 0 ∨ blockchainHeight.toNat ≤ blockHeight.toNat + 5500
  · -- every height left is kept, and the result is `blockchain_height`
    have hall : ∀ h, blockHeight ≤ h → h < blockchainHeight →
        hasUnprunedBlock h blockchainHeight pruningSeed = true := by
      intro h h₁ h₂
      have h₁ := UInt64.le_iff_toNat_le.mp h₁
      have h₂ := UInt64.lt_iff_toNat_lt.mp h₂
      rw [hasUnprunedBlock_iff hseed (by omega)]
      rcases hrest with hl0 | htip
      · exact .inl hl0
      · exact .inr (.inl (by omega))
    exact ⟨blockchainHeight, getNextPrunedBlockHeight_of_keepsRest hseed hbh hrest, hle,
      UInt64.le_refl _, hall, .inr ⟨hall, .inl rfl⟩⟩
  simp only [not_or] at hrest
  obtain ⟨hl0, htip⟩ := hrest
  by_cases hkeep : hasUnprunedBlock blockHeight blockchainHeight pruningSeed = true
  · -- on the node's stripe: the next run, or the first height of the tip zone
    obtain ⟨hl, hs0, hs, -⟩ := makePruningSeed_eq_ok hseed
    have h128 := pow_le_128 hl
    have hP : 2 ≤ 2 ^ logStripes.toNat := Nat.le_self_pow hl0 2 |>.trans' le_rfl
    have hon : blockHeight.toNat / 4096 % 2 ^ logStripes.toNat = stripe.toNat - 1 := by
      rw [hasUnprunedBlock_iff hseed hbh] at hkeep
      rcases hkeep with h | h | h
      · exact absurd h hl0
      · omega
      · exact h
    have htip : blockHeight.toNat + 5500 < blockchainHeight.toNat := by omega
    obtain ⟨nextStripe, nextSeed, hns, hmake, heq⟩ :=
      getNextPrunedBlockHeight_of_onStripe hseed hl0 hbh htip hon
    -- the following stripe is the slot of the next run
    have hsmod : stripe.toNat % 2 ^ logStripes.toNat =
        (blockHeight.toNat / 4096 % 2 ^ logStripes.toNat + 1) % 2 ^ logStripes.toNat := by
      rw [hon, Nat.sub_add_cancel hs0]
    have hr := toNat_getNextUnprunedBlockHeight hmake hl0 hbh hbch htip (by
      rw [hns, Nat.add_sub_cancel, hsmod]
      exact (mod_succ_ne hP).symm)
    rw [hns, Nat.add_sub_cancel, hsmod, nextOfSlot_succ hP] at hr
    dsimp only at hr
    refine ⟨_, heq, ?_⟩
    generalize getNextUnprunedBlockHeight blockHeight blockchainHeight nextSeed = r at hr ⊢
    -- every height of the run of `block_height` is kept
    have hrun : ∀ h : UInt64, blockHeight ≤ h →
        h.toNat < (blockHeight.toNat / 4096 + 1) * 4096 →
        hasUnprunedBlock h blockchainHeight pruningSeed = true := by
      intro h h₁ h₂
      have h₁ := UInt64.le_iff_toNat_le.mp h₁
      rw [hasUnprunedBlock_iff hseed (by omega)]
      refine .inr (.inr ?_)
      rw [show h.toNat / 4096 = blockHeight.toNat / 4096 by omega, hon]
    refine ⟨UInt64.le_iff_toNat_le.mpr (by split at hr <;> omega),
      UInt64.le_iff_toNat_le.mpr (by split at hr <;> omega),
      fun h h₁ h₂ => hrun h h₁ (by
        have := UInt64.lt_iff_toNat_lt.mp h₂
        split at hr <;> omega), ?_⟩
    by_cases hfar : (blockHeight.toNat / 4096 + 1) * 4096 + 5500 < blockchainHeight.toNat
    · -- the next run is below the tip zone, and pruned
      have hr : r.toNat = (blockHeight.toNat / 4096 + 1) * 4096 := by
        rw [hr, if_neg (by omega)]
      refine .inl ⟨?_, UInt64.lt_iff_toNat_lt.mpr (by omega)⟩
      rw [← Bool.not_eq_true, hasUnprunedBlock_iff hseed (by omega)]
      simp only [not_or]
      refine ⟨hl0, by omega, ?_⟩
      rw [hr, Nat.mul_div_cancel _ (by norm_num), ← hon, Nat.add_mod,
        Nat.one_mod_eq_one.mpr (by omega)]
      exact mod_succ_ne hP
    · -- the next run starts in the tip zone, or right at it: nothing is pruned, and the result
      -- is the first height of the tip zone
      have hr : r.toNat + 5500 = blockchainHeight.toNat := by
        split at hr <;> omega
      refine .inr ⟨fun h h₁ h₂ => ?_, .inr (UInt64.toNat_inj.mp ?_)⟩
      · by_cases hin : h.toNat < (blockHeight.toNat / 4096 + 1) * 4096
        · exact hrun h h₁ hin
        · have h₂ := UInt64.lt_iff_toNat_lt.mp h₂
          rw [hasUnprunedBlock_iff hseed (by omega)]
          exact .inr (.inl (by omega))
      · rw [UInt64.toNat_add, toNat_cryptonotePruningTipBlocks,
          Nat.mod_eq_of_lt (by omega)]
        exact hr
  · -- off the node's stripe: `block_height` itself is pruned
    rw [Bool.not_eq_true] at hkeep
    refine ⟨blockHeight, getNextPrunedBlockHeight_of_pruned hseed hbh hkeep, UInt64.le_refl _,
      hle, fun h h₁ h₂ => absurd h₂ (UInt64.not_lt.mpr h₁),
      .inl ⟨hkeep, UInt64.lt_iff_toNat_lt.mpr (by omega)⟩⟩

theorem getNextPrunedBlockHeight_spec_secondStripe :
    ∃ r, getNextPrunedBlockHeight 5000 100000 385 = .ok r ∧ 5000 ≤ r ∧ r ≤ 100000 ∧
      (∀ h, 5000 ≤ h → h < r → hasUnprunedBlock h 100000 385 = true) ∧
      (hasUnprunedBlock r 100000 385 = false ∧ r < 100000 ∨
        (∀ h, 5000 ≤ h → h < 100000 → hasUnprunedBlock h 100000 385 = true) ∧
        (r = 100000 ∨ r + cryptonotePruningTipBlocks = 100000)) :=
  getNextPrunedBlockHeight_spec 5000 100000 385 (.inr ⟨2, 3, rfl⟩) (by decide) (by decide)

/-- When the node's next run starts in the tip zone, no height is pruned and the result is the
first height of the tip zone: seed `make_pruning_seed(1, 3)`, 9000 blocks, from height 0. -/
theorem getNextPrunedBlockHeight_clamped :
    makePruningSeed 1 3 = .ok 384 ∧ getNextPrunedBlockHeight 0 9000 384 = .ok 3500 ∧
      ∀ h : UInt64, h < 9000 → hasUnprunedBlock h 9000 384 = true := by
  refine ⟨rfl, rfl, fun h hh => ?_⟩
  have hh := UInt64.lt_iff_toNat_lt.mp hh
  have hmade : makePruningSeed 1 3 = .ok 384 := rfl
  rw [hasUnprunedBlock_iff hmade (by simp at hh; omega)]
  -- the first run is the node's, and the rest of the chain is in the tip zone
  by_cases hrun : h.toNat < 4096
  · refine .inr (.inr ?_)
    rw [Nat.div_eq_of_lt hrun]
    rfl
  · exact .inr (.inl (by simp at hh ⊢; omega))

end Tools

end Wazn
