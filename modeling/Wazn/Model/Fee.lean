import Wazn.Model.Median
import Wazn.Model.MinerTx
import Wazn.Model.TxPool

/-!
# The fee rules (`blockchain.cpp`, `wallet2.cpp`)

A node accepts a transaction only if its fee passes `Blockchain::check_fee`, and it tells
wallets what fee to pay through `get_dynamic_base_fee_estimate`. Both scale a base fee by the
block reward over a median block weight (`get_dynamic_base_fee`), per byte from
`HF_VERSION_PER_BYTE_FEE` and per kB before. They take that median from different places:
`check_fee` from `m_current_block_cumul_weight_limit`, which
`update_next_cumulative_weight_limit` left at twice the clamped median of the last
`CRYPTONOTE_REWARD_BLOCKS_WINDOW` weights (bounded by the long-term effective median from
`HF_VERSION_LONG_TERM_BLOCK_WEIGHT`), and the estimate from the last weights with the oldest
`grace_blocks` of them replaced by the minimum block weight.

`WeightState` holds what these functions read. The long-term part of
`update_next_cumulative_weight_limit` (the rolling median of the long-term weights) is given
to it as its result, the long-term median. The 128-bit products and divisions of
`get_dynamic_base_fee` are exact on natural numbers, and its `assert(hi == 0)` is `none`.
The wallet's fee from a fee rate is `calculate_fee` and `calculate_fee_from_weight`.
-/

set_option autoImplicit false

namespace Wazn

namespace Cryptonote

/-- `CRYPTONOTE_REWARD_BLOCKS_WINDOW`. -/
def cryptonoteRewardBlocksWindow : UInt64 := 100

/-- `CRYPTONOTE_SHORT_TERM_BLOCK_WEIGHT_SURGE_FACTOR`. -/
def cryptonoteShortTermBlockWeightSurgeFactor : UInt64 := 50

/-- `CRYPTONOTE_DISPLAY_DECIMAL_POINT`. -/
def cryptonoteDisplayDecimalPoint : ℕ := 9

/-- `PER_KB_FEE_QUANTIZATION_DECIMALS`. -/
def perKbFeeQuantizationDecimals : ℕ := 8

/-- `FEE_PER_KB`. -/
def feePerKb : UInt64 := 2000000000

/-- `DYNAMIC_FEE_PER_KB_BASE_FEE`. -/
def dynamicFeePerKbBaseFee : UInt64 := 2000000000

/-- `DYNAMIC_FEE_PER_KB_BASE_BLOCK_REWARD`. -/
def dynamicFeePerKbBaseBlockReward : UInt64 := 10000000000000

/-- `DYNAMIC_FEE_PER_KB_BASE_FEE_V5`. -/
def dynamicFeePerKbBaseFeeV5 : UInt64 :=
  2000000000 * cryptonoteBlockGrantedFullRewardZoneV2 / cryptonoteBlockGrantedFullRewardZoneV5

/-- `DYNAMIC_FEE_REFERENCE_TRANSACTION_WEIGHT`. -/
def dynamicFeeReferenceTransactionWeight : UInt64 := 3000

/-- `BLOCK_REWARD_OVERESTIMATE`. -/
def blockRewardOverestimate : UInt64 := 10 * 1000000000000

/-- `HF_VERSION_DYNAMIC_FEE`. -/
def hfVersionDynamicFee : UInt8 := 4

/-- `HF_VERSION_LONG_TERM_BLOCK_WEIGHT`. -/
def hfVersionLongTermBlockWeight : UInt8 := 10

/-- `get_fee_quantization_mask`: ten to the number of display decimals that a fee does not
keep. -/
def getFeeQuantizationMask : UInt64 :=
  (List.range' perKbFeeQuantizationDecimals
    (cryptonoteDisplayDecimalPoint - perKbFeeQuantizationDecimals)).foldl (fun mask _ => mask * 10) 1

/-- `get_dynamic_base_fee`: the reference fee scaled by the block reward and by the minimum
block weight over the median, which is at least the minimum. Per byte from
`HF_VERSION_PER_BYTE_FEE`; per kB, rounded up to the quantization mask, before. -/
def getDynamicBaseFee (blockReward medianBlockWeight : UInt64) (version : UInt8) :
    Option UInt64 :=
  let minBlockWeight := getMinBlockWeight version
  let medianBlockWeight :=
    if medianBlockWeight < minBlockWeight then minBlockWeight else medianBlockWeight
  if TxPool.hfVersionPerByteFee ≤ version then
    let q := blockReward.toNat * dynamicFeeReferenceTransactionWeight.toNat /
      minBlockWeight.toNat / medianBlockWeight.toNat
    if q < 2 ^ 64 then some (UInt64.ofNat q / 5) else none
  else
    let feeBase := if 5 ≤ version then dynamicFeePerKbBaseFeeV5 else dynamicFeePerKbBaseFee
    let unscaledFeeBase := feeBase * minBlockWeight / medianBlockWeight
    let q := unscaledFeeBase.toNat * blockReward.toNat / dynamicFeePerKbBaseBlockReward.toNat
    if q < 2 ^ 64 then
      let mask := getFeeQuantizationMask
      some ((UInt64.ofNat q + mask - 1) / mask * mask)
    else none

/-- What the weight limit and the fee functions of `Blockchain` read: the current hard-fork
version, the weights of the stored blocks from the genesis block on, the coins generated up to
the top block (`get_block_already_generated_coins(height - 1)`, zero on an empty chain),
`m_current_block_cumul_weight_limit` and `m_long_term_effective_median_block_weight`. -/
structure WeightState where
  version : UInt8
  blockWeights : List UInt64
  alreadyGeneratedCoins : UInt64
  currentBlockCumulWeightLimit : UInt64
  longTermEffectiveMedianBlockWeight : UInt64
  deriving DecidableEq, Repr

namespace WeightState

variable (bc : WeightState)

/-- `get_last_n_blocks_weights`: the weights of the last `count` blocks, or of all of them on a
shorter chain. -/
def getLastNBlocksWeights (count : ℕ) : List UInt64 :=
  bc.blockWeights.drop (bc.blockWeights.length - min bc.blockWeights.length count)

/-- `update_next_cumulative_weight_limit`, given the long-term median it computes from the
long-term weights. Before `HF_VERSION_LONG_TERM_BLOCK_WEIGHT` the median is that of the last
`CRYPTONOTE_REWARD_BLOCKS_WINDOW` weights; from it, that median is at least the V5 full reward
zone and at most the surge factor times the long-term effective median. The limit is twice the
median, clamped to the full reward zone. -/
def updateNextCumulativeWeightLimit (longTermMedian : UInt64) : WeightState :=
  let fullRewardZone := getMinBlockWeight bc.version
  let weights := bc.getLastNBlocksWeights cryptonoteRewardBlocksWindow.toNat
  let (median, longTermEffectiveMedian) :=
    if bc.version < hfVersionLongTermBlockWeight then
      (MiscUtils.median weights, bc.longTermEffectiveMedianBlockWeight)
    else
      let longTermEffectiveMedian := max cryptonoteBlockGrantedFullRewardZoneV5 longTermMedian
      (min (max cryptonoteBlockGrantedFullRewardZoneV5 (MiscUtils.median weights))
        (cryptonoteShortTermBlockWeightSurgeFactor * longTermEffectiveMedian),
        longTermEffectiveMedian)
  let median := if median ≤ fullRewardZone then fullRewardZone else median
  { bc with
    currentBlockCumulWeightLimit := median * 2
    longTermEffectiveMedianBlockWeight := longTermEffectiveMedian }

/-- `check_fee`: `none` when `get_dynamic_base_fee` fails its assertion. The needed fee is per
byte, rounded up to the quantization mask, from `HF_VERSION_PER_BYTE_FEE`, and per started kB
before; a fee passes within 2% of it. -/
def checkFee (txWeight fee : UInt64) : Option Bool :=
  let version := bc.version
  let median := if hfVersionDynamicFee ≤ version then bc.currentBlockCumulWeightLimit / 2 else 0
  let baseReward :=
    if hfVersionDynamicFee ≤ version then
      getBlockReward median 1 bc.alreadyGeneratedCoins version
    else some 0
  match baseReward with
  | none => some false
  | some baseReward =>
    let neededFee :=
      if TxPool.hfVersionPerByteFee ≤ version then
        let useLongTermMedianInFee := hfVersionLongTermBlockWeight ≤ version
        (getDynamicBaseFee baseReward
            (if useLongTermMedianInFee then min median bc.longTermEffectiveMedianBlockWeight
              else median) version).map fun feePerByte =>
          let mask := getFeeQuantizationMask
          (txWeight * feePerByte + mask - 1) / mask * mask
      else
        let feePerKb :=
          if version < hfVersionDynamicFee then some feePerKb
          else getDynamicBaseFee baseReward median version
        feePerKb.map fun feePerKb =>
          (txWeight / 1024 + if txWeight % 1024 ≠ 0 then 1 else 0) * feePerKb
    neededFee.map fun neededFee => !(fee < neededFee - neededFee / 50)

/-- `get_dynamic_base_fee_estimate(grace_blocks)`: the base fee for the median of the last
weights with the oldest `grace_blocks` of the window replaced by the minimum block weight. -/
def getDynamicBaseFeeEstimate (graceBlocks : UInt64) : Option UInt64 :=
  let version := bc.version
  if version < hfVersionDynamicFee then some feePerKb
  else
    let graceBlocks := if cryptonoteRewardBlocksWindow ≤ graceBlocks then
      cryptonoteRewardBlocksWindow - 1 else graceBlocks
    let minBlockWeight := getMinBlockWeight version
    let weights := bc.getLastNBlocksWeights (cryptonoteRewardBlocksWindow - graceBlocks).toNat ++
      List.replicate graceBlocks.toNat minBlockWeight
    let median := MiscUtils.median weights
    let median := if median ≤ minBlockWeight then minBlockWeight else median
    let baseReward := (getBlockReward (bc.currentBlockCumulWeightLimit / 2) 1
      bc.alreadyGeneratedCoins version).getD blockRewardOverestimate
    let useLongTermMedianInFee := hfVersionLongTermBlockWeight ≤ version
    let useMedianValue :=
      if useLongTermMedianInFee then min median bc.longTermEffectiveMedianBlockWeight else median
    getDynamicBaseFee baseReward useMedianValue version

end WeightState

end Cryptonote

namespace Tools

/-- `calculate_fee`: the fee per kB times the started kBs of a transaction, times the
priority's multiplier. -/
def calculateFee (feePerKb : UInt64) (bytes : UInt64) (feeMultiplier : UInt64) : UInt64 :=
  let kB := (bytes + 1023) / 1024
  kB * feePerKb * feeMultiplier

/-- `calculate_fee_from_weight`: the fee per byte times the weight and the multiplier, rounded
up to the quantization mask. -/
def calculateFeeFromWeight (baseFee weight feeMultiplier feeQuantizationMask : UInt64) :
    UInt64 :=
  let fee := weight * baseFee * feeMultiplier
  (fee + feeQuantizationMask - 1) / feeQuantizationMask * feeQuantizationMask

end Tools

end Wazn
