import Wazn.Model.MinerTx
import Wazn.Model.IntUtil

/-!
# The block reward in words (`get_block_reward`, `cryptonote_basic_impl.cpp`)

`getBlockReward` computes the penalty of a heavy block on natural numbers. The source computes
it in words: the multiplicand `(2 * median_weight - current_block_weight) *
current_block_weight` in a `uint64_t`, its 128-bit product with the base reward by `mul128`,
and two divisions by the median with `div128_64`, whose high word `reward_hi` is asserted to be
zero and whose low word `reward_lo` is asserted to be below the base reward and returned.

The base reward and the median made soft are named here as the source computes them inside
`get_block_reward`, so that the word-level penalty can be fed the same words.
-/

set_option autoImplicit false

namespace Wazn

namespace Cryptonote

open IntUtil

/-- `base_reward` in `get_block_reward`: the coins left, shifted down by the emission speed
factor, and at least the final subsidy of a block. -/
def blockBaseReward (alreadyGeneratedCoins : UInt64) (version : UInt8) : UInt64 :=
  let target := if version < 2 then difficultyTargetV1 else difficultyTargetV2
  let targetMinutes := target / 60
  let emissionSpeedFactor := emissionSpeedFactorPerMinute - (targetMinutes - 1)
  let baseReward := (moneySupply - alreadyGeneratedCoins) >>> emissionSpeedFactor.toUInt64
  if baseReward < finalSubsidyPerMinute * targetMinutes.toUInt64 then
    finalSubsidyPerMinute * targetMinutes.toUInt64
  else baseReward

/-- `median_weight` in `get_block_reward` once made soft: at least the full reward zone. -/
def softMedianWeight (medianWeight : UInt64) (version : UInt8) : UInt64 :=
  let fullRewardZone := getMinBlockWeight version
  if medianWeight < fullRewardZone then fullRewardZone else medianWeight

/-- The penalty branch of `get_block_reward`: the words `reward_hi` and `reward_lo` of the base
reward times the multiplicand, divided twice by the median. -/
def penalizedReward (baseReward medianWeight currentBlockWeight : UInt64) : UInt64 × UInt64 :=
  let multiplicand := 2 * medianWeight - currentBlockWeight
  let multiplicand := multiplicand * currentBlockWeight
  let (productLo, productHi) := mul128 baseReward multiplicand
  let (rewardHi, rewardLo) := div128_64 productHi productLo medianWeight
  div128_64 rewardHi rewardLo medianWeight

end Cryptonote

end Wazn
