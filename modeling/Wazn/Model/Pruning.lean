import Mathlib.Data.Nat.Bitwise

/-!
# Blockchain pruning stripes (`common/pruning.h`, `common/pruning.cpp`)

A pruned node keeps the prunable data of one stripe of the chain only. Heights are cut into
runs of `CRYPTONOTE_PRUNING_STRIPE_SIZE` blocks, and runs are dealt in turn to `2 ^ log_stripes`
stripes, numbered from 1; the last `CRYPTONOTE_PRUNING_TIP_BLOCKS` blocks are kept by every
node. A node's pruning seed packs its stripe and `log_stripes` into one `uint32_t`, and the seed
0 means an unpruned node.

The functions are translated with the source's integer types. `get_pruning_stripe` is
overloaded in the source; the overload on a seed is `getPruningStripeOfSeed` here. A
`CHECK_AND_ASSERT_THROW_MES` that throws is an `Except` error with its message, and a
`CHECK_AND_ASSERT_MES(cond, block_height, ...)` returns `block_height`.
-/

set_option autoImplicit false

namespace Wazn

namespace Tools

/-- `CRYPTONOTE_PRUNING_STRIPE_SIZE`. -/
def cryptonotePruningStripeSize : UInt64 := 4096

/-- `CRYPTONOTE_PRUNING_LOG_STRIPES`. -/
def cryptonotePruningLogStripes : UInt64 := 3

/-- `CRYPTONOTE_PRUNING_TIP_BLOCKS`. -/
def cryptonotePruningTipBlocks : UInt64 := 5500

/-- `CRYPTONOTE_MAX_BLOCK_NUMBER`. -/
def cryptonoteMaxBlockNumber : UInt64 := 500000000

/-- `PRUNING_SEED_LOG_STRIPES_SHIFT`. -/
def pruningSeedLogStripesShift : UInt32 := 7

/-- `PRUNING_SEED_LOG_STRIPES_MASK`. -/
def pruningSeedLogStripesMask : UInt32 := 0x7

/-- `PRUNING_SEED_STRIPE_SHIFT`. -/
def pruningSeedStripeShift : UInt32 := 0

/-- `PRUNING_SEED_STRIPE_MASK`. -/
def pruningSeedStripeMask : UInt32 := 0x7f

/-- `get_pruning_log_stripes`. -/
def getPruningLogStripes (pruningSeed : UInt32) : UInt32 :=
  (pruningSeed >>> pruningSeedLogStripesShift) &&& pruningSeedLogStripesMask

/-- `get_pruning_stripe(pruning_seed)`: the stripe a seed keeps, 0 for the seed 0. -/
def getPruningStripeOfSeed (pruningSeed : UInt32) : UInt32 :=
  if pruningSeed = 0 then 0
  else 1 + ((pruningSeed >>> pruningSeedStripeShift) &&& pruningSeedStripeMask)

/-- `make_pruning_seed`. The stripe bound `1ul << log_stripes` is an `unsigned long`. -/
def makePruningSeed (stripe logStripes : UInt32) : Except String UInt32 :=
  if logStripes ≤ pruningSeedLogStripesMask then
    if 0 < stripe ∧ stripe.toUInt64 ≤ 1 <<< logStripes.toUInt64 then
      .ok ((logStripes <<< pruningSeedLogStripesShift) |||
        ((stripe - 1) <<< pruningSeedStripeShift))
    else .error "stripe out of range"
  else .error "log_stripes out of range"

/-- `get_pruning_stripe(block_height, blockchain_height, log_stripes)`: the stripe a height
belongs to, 0 in the tip zone. The sum is taken in `uint64_t` and returned as `uint32_t`. -/
def getPruningStripe (blockHeight blockchainHeight : UInt64) (logStripes : UInt32) : UInt32 :=
  if blockchainHeight ≤ blockHeight + cryptonotePruningTipBlocks then 0
  else (((blockHeight / cryptonotePruningStripeSize) &&&
    ((1 <<< logStripes.toUInt64) - 1)) + 1).toUInt32

/-- `get_pruning_seed`: the seed of the stripe a height belongs to, 0 in the tip zone. -/
def getPruningSeed (blockHeight blockchainHeight : UInt64) (logStripes : UInt32) :
    Except String UInt32 :=
  let stripe := getPruningStripe blockHeight blockchainHeight logStripes
  if stripe = 0 then .ok 0
  else makePruningSeed stripe logStripes

/-- `has_unpruned_block`: whether a node with this seed keeps the prunable data of a block. -/
def hasUnprunedBlock (blockHeight blockchainHeight : UInt64) (pruningSeed : UInt32) : Bool :=
  let stripe := getPruningStripeOfSeed pruningSeed
  if stripe = 0 then true
  else
    let logStripes := getPruningLogStripes pruningSeed
    let blockStripe := getPruningStripe blockHeight blockchainHeight logStripes
    blockStripe = 0 || blockStripe = stripe

/-- The `log_stripes` of a seed, or `CRYPTONOTE_PRUNING_LOG_STRIPES` for a seed that has none. -/
def seedLogStripesOrDefault (pruningSeed : UInt32) : UInt64 :=
  let seedLogStripes := getPruningLogStripes pruningSeed
  if seedLogStripes ≠ 0 then seedLogStripes.toUInt64 else cryptonotePruningLogStripes

/-- The stripe of a height below the tip zone, as `get_next_unpruned_block_height` and
`get_next_pruned_block_height` compute it inline. -/
def blockPruningStripe (blockHeight logStripes : UInt64) : UInt32 :=
  (((blockHeight / cryptonotePruningStripeSize) &&& ((1 <<< logStripes) - 1)) + 1).toUInt32

/-- `get_next_unpruned_block_height`: the first height from `block_height` on whose data the
node keeps. Off the node's stripe it jumps to the start of the node's next run, in this cycle
of stripes or the next, and to the start of the tip zone when that run starts inside it. -/
def getNextUnprunedBlockHeight (blockHeight blockchainHeight : UInt64) (pruningSeed : UInt32) :
    UInt64 :=
  if ¬ blockHeight ≤ cryptonoteMaxBlockNumber + 1 then blockHeight
  else if ¬ blockchainHeight ≤ cryptonoteMaxBlockNumber + 1 then blockHeight
  else
    let stripe := getPruningStripeOfSeed pruningSeed
    if stripe = 0 then blockHeight
    else if blockchainHeight ≤ blockHeight + cryptonotePruningTipBlocks then blockHeight
    else
      let logStripes := seedLogStripesOrDefault pruningSeed
      let blockStripe := blockPruningStripe blockHeight logStripes
      if blockStripe = stripe then blockHeight
      else
        let cycles := (blockHeight / cryptonotePruningStripeSize) >>> logStripes
        let cycleStart := cycles + (if stripe > blockStripe then 0 else 1)
        let h := cycleStart * (cryptonotePruningStripeSize <<< logStripes) +
          ((stripe - 1) * 4096).toUInt64
        if blockchainHeight < h + cryptonotePruningTipBlocks then
          if blockchainHeight < cryptonotePruningTipBlocks then 0
          else blockchainHeight - cryptonotePruningTipBlocks
        else if ¬ blockHeight ≤ h then blockHeight
        else h

/-- `get_next_pruned_block_height`: on the node's stripe, the next unpruned height for the seed
of the following stripe, whose `make_pruning_seed` may throw. -/
def getNextPrunedBlockHeight (blockHeight blockchainHeight : UInt64) (pruningSeed : UInt32) :
    Except String UInt64 :=
  let stripe := getPruningStripeOfSeed pruningSeed
  if stripe = 0 then .ok blockchainHeight
  else if blockchainHeight ≤ blockHeight + cryptonotePruningTipBlocks then .ok blockchainHeight
  else
    let logStripes := seedLogStripesOrDefault pruningSeed
    let blockPruningSeed := blockPruningStripe blockHeight logStripes
    if blockPruningSeed ≠ stripe then .ok blockHeight
    else
      let nextStripe :=
        ((1 : UInt64) + (blockPruningSeed.toUInt64 &&& ((1 <<< logStripes) - 1))).toUInt32
      return getNextUnprunedBlockHeight blockHeight blockchainHeight
        (← makePruningSeed nextStripe logStripes.toUInt32)

end Tools

end Wazn
