import Wazn.Model.Difficulty
import Wazn.Model.CryptonoteBasic

/-!
# The miner transaction (`cryptonote_tx_utils.cpp`, `blockchain.cpp`)

`construct_miner_tx` pays the block reward and the fees of a block to the miner;
`prevalidate_miner_transaction` and `validate_miner_transaction` check the miner
transaction of a block. Both sides take the reward from `get_block_reward`
(`cryptonote_basic_impl.cpp`).

The builder splits the amount into its decimal digits (`decompose_amount_into_digits`),
from hard fork 2 to 3 after cutting it down to a multiple of `BASE_REWARD_CLAMP_THRESHOLD`.
For the genesis block and from hard fork 4 on it then merges the two lowest chunks until
at most `max_outs` remain. The validator sums the outputs; from hard fork 2 until
`HF_VERSION_EXACT_COINBASE` it accepts a sum below the reward.

Amounts are `uint64_t` and wrap as in the source. The decomposition and the merging are on
natural numbers: for an amount below `2 ^ 64` no sum or product they form wraps, and the
one product that would (`order *= 10` after the last digit) is not read again. The output
keys, which the source derives from the miner's address and a fresh transaction key, are a
parameter `outKey`, and so is the extra field, which holds that key and the nonce. The
median block weight that `validate_miner_transaction` reads from the chain is a parameter.
-/

set_option autoImplicit false

namespace Wazn

namespace Cryptonote

open Rct

/-- `MONEY_SUPPLY`. -/
def moneySupply : UInt64 := 100000000000000000

def emissionSpeedFactorPerMinute : ℕ := 20

def finalSubsidyPerMinute : UInt64 := 30000000000

def cryptonoteBlockGrantedFullRewardZoneV1 : UInt64 := 20000

def cryptonoteBlockGrantedFullRewardZoneV2 : UInt64 := 60000

def cryptonoteBlockGrantedFullRewardZoneV5 : UInt64 := 300000

def cryptonoteMinedMoneyUnlockWindow : UInt64 := 60

def defaultDustThreshold : ℕ := 2000000000

def baseRewardClampThreshold : UInt64 := 100000000

def hfVersionMinV2CoinbaseTx : UInt8 := 12

def hfVersionRejectSigsInCoinbase : UInt8 := 12

def hfVersionExactCoinbase : UInt8 := 13

/-- `get_min_block_weight`: the full reward zone of a version. -/
def getMinBlockWeight (version : UInt8) : UInt64 :=
  if version < 2 then cryptonoteBlockGrantedFullRewardZoneV1
  else if version < 5 then cryptonoteBlockGrantedFullRewardZoneV2
  else cryptonoteBlockGrantedFullRewardZoneV5

/-- `get_block_reward`: the premine while it is not yet generated (from version 9), else
the emission curve with its floor, and a quadratic penalty for a block heavier than the
median; a block more than twice the median is refused. The 128-bit product and the two
128-by-64-bit divisions are exact on natural numbers; the source keeps the low word. -/
def getBlockReward (medianWeight currentBlockWeight alreadyGeneratedCoins : UInt64)
    (version : UInt8) : Option UInt64 :=
  let target := if version < 2 then difficultyTargetV1 else difficultyTargetV2
  let targetMinutes := target / 60
  let emissionSpeedFactor := emissionSpeedFactorPerMinute - (targetMinutes - 1)
  let fullRewardZone := getMinBlockWeight version
  let premine : UInt64 := 30000000000000000
  if 0 < medianWeight ∧ alreadyGeneratedCoins < premine ∧ 9 ≤ version then some premine
  else
    let baseReward := (moneySupply - alreadyGeneratedCoins) >>> emissionSpeedFactor.toUInt64
    let baseReward :=
      if baseReward < finalSubsidyPerMinute * targetMinutes.toUInt64 then
        finalSubsidyPerMinute * targetMinutes.toUInt64
      else baseReward
    let medianWeight := if medianWeight < fullRewardZone then fullRewardZone else medianWeight
    if currentBlockWeight ≤ medianWeight then some baseReward
    else if 2 * medianWeight < currentBlockWeight then none
    else
      let multiplicand := (2 * medianWeight - currentBlockWeight) * currentBlockWeight
      some (UInt64.ofNat
        (baseReward.toNat * multiplicand.toNat / medianWeight.toNat / medianWeight.toNat))

/-- `valid_decomposed_outputs`: the amounts `d * 10 ^ k` for a digit `d` from 1 to 9 and
`k` up to 18, then `10 ^ 19`, in increasing order. -/
def validDecomposedOutputs : List UInt64 :=
  ((List.range 19).flatMap fun k => (List.range' 1 9).map fun d => UInt64.ofNat (d * 10 ^ k)) ++
    [10000000000000000000]

/-- `is_valid_decomposed_amount`: a binary search of the sorted table. -/
def isValidDecomposedAmount (amount : UInt64) : Bool := validDecomposedOutputs.contains amount

/-- The loop of `decompose_amount_into_digits`, for at most `fuel` digits: the chunk of
each digit goes to the dust while the dust stays within the threshold; the first chunk
that does not fit flushes the dust once, and every nonzero chunk from then on is pushed.
Both handlers push onto `out_amounts`. -/
def decomposeLoop (dustThreshold : ℕ) :
    ℕ → ℕ → ℕ → ℕ → Bool → List ℕ → List ℕ
  | 0, _, dust, _, isDustHandled, out =>
    if ¬ isDustHandled ∧ dust ≠ 0 then out ++ [dust] else out
  | fuel + 1, amount, dust, order, isDustHandled, out =>
    if amount = 0 then
      if ¬ isDustHandled ∧ dust ≠ 0 then out ++ [dust] else out
    else
      let chunk := amount % 10 * order
      if dust + chunk ≤ dustThreshold then
        decomposeLoop dustThreshold fuel (amount / 10) (dust + chunk) (order * 10) isDustHandled out
      else
        let flush := ¬ isDustHandled ∧ dust ≠ 0
        let out := if flush then out ++ [dust] else out
        let out := if chunk ≠ 0 then out ++ [chunk] else out
        decomposeLoop dustThreshold fuel (amount / 10) dust (order * 10)
          (isDustHandled || flush) out

/-- `decompose_amount_into_digits` with both handlers pushing onto one vector; an amount
has fewer digits than its value, so the loop never runs out of fuel. -/
def decomposeAmountIntoDigits (amount dustThreshold : ℕ) : List ℕ :=
  if amount = 0 then [] else decomposeLoop dustThreshold amount amount 0 1 false []

/-- The loop of `decompose_amount_into_digits` as the template is written: on `uint64_t`, with
the chunks and the dust handed to two handlers that act on a state `σ`, for at most `fuel`
digits. -/
def decomposeWithLoop {σ : Type} (dustThreshold : UInt64)
    (chunkHandler dustHandler : UInt64 → σ → σ) :
    ℕ → UInt64 → UInt64 → UInt64 → Bool → σ → σ
  | 0, _, dust, _, isDustHandled, s =>
    if ¬ isDustHandled ∧ dust ≠ 0 then dustHandler dust s else s
  | fuel + 1, amount, dust, order, isDustHandled, s =>
    if amount = 0 then
      if ¬ isDustHandled ∧ dust ≠ 0 then dustHandler dust s else s
    else
      let chunk := amount % 10 * order
      if dust + chunk ≤ dustThreshold then
        decomposeWithLoop dustThreshold chunkHandler dustHandler fuel (amount / 10) (dust + chunk)
          (order * 10) isDustHandled s
      else
        let flush := ¬ isDustHandled ∧ dust ≠ 0
        let s := if flush then dustHandler dust s else s
        let s := if chunk ≠ 0 then chunkHandler chunk s else s
        decomposeWithLoop dustThreshold chunkHandler dustHandler fuel (amount / 10) dust
          (order * 10) (isDustHandled || flush) s

/-- `decompose_amount_into_digits(amount, dust_threshold, chunk_handler, dust_handler)`: a
`uint64_t` has at most 20 decimal digits, so the loop runs at most 20 times. -/
def decomposeAmountIntoDigitsWith {σ : Type} (amount dustThreshold : UInt64)
    (chunkHandler dustHandler : UInt64 → σ → σ) (s : σ) : σ :=
  if amount = 0 then s
  else decomposeWithLoop dustThreshold chunkHandler dustHandler 20 amount 0 1 false s

/-- One round of the merge loop of `construct_miner_tx`: `out_amounts[1] += out_amounts[0]`,
then the vector shifted down by one. -/
def mergeFirstTwo : List ℕ → List ℕ
  | a0 :: a1 :: rest => (a1 + a0) :: rest
  | l => l

/-- `while (max_outs < out_amounts.size())` around `mergeFirstTwo`, for at most `fuel`
rounds. -/
def mergeLoop (maxOuts : ℕ) : ℕ → List ℕ → List ℕ
  | 0, l => l
  | fuel + 1, l => if maxOuts < l.length then mergeLoop maxOuts fuel (mergeFirstTwo l) else l

/-- The sum of amounts as `uint64_t` accumulates it. -/
def sumAmounts (amounts : List UInt64) : UInt64 := amounts.foldl (· + ·) 0

/-- The amount `construct_miner_tx` pays: the reward with the fee, in `uint64_t`; at hard
forks 2 and 3 cut down to a multiple of `BASE_REWARD_CLAMP_THRESHOLD`, the rest going back
to the emission schedule. -/
def minerTxAmount (blockReward fee : UInt64) (hardForkVersion : UInt8) : UInt64 :=
  let blockReward := blockReward + fee
  if 2 ≤ hardForkVersion ∧ hardForkVersion < 4 then
    blockReward - blockReward % baseRewardClampThreshold
  else blockReward

/-- `out_amounts` of `construct_miner_tx`: the digits of the amount, with dust below
`DEFAULT_DUST_THRESHOLD` before hard fork 2; merged down to `max_outs` for the genesis block
and from hard fork 4, and otherwise refused when there are more than `max_outs`. -/
def minerTxOutAmounts (height amount : UInt64) (maxOuts : ℕ) (hardForkVersion : UInt8) :
    Option (List ℕ) :=
  let outAmounts := decomposeAmountIntoDigits amount.toNat
    (if 2 ≤ hardForkVersion then 0 else defaultDustThreshold)
  -- the genesis block was not decomposed
  if height = 0 ∨ 4 ≤ hardForkVersion then some (mergeLoop maxOuts outAmounts.length outAmounts)
  else if maxOuts < outAmounts.length then none
  else some outAmounts

/-- The output of the amount at index `no`, to the key derived for that index. -/
def minerTxOut (outKey : ℕ → PublicKey) (amountNo : ℕ × ℕ) : TxOut :=
  ⟨UInt64.ofNat amountNo.1, .txoutToKey ⟨outKey amountNo.2⟩⟩

/-- `construct_miner_tx` into the transaction `tx`: `vin`, `vout` and `extra` are rebuilt,
`version` and `unlock_time` set; the other fields are left as they were. -/
def constructMinerTx (height medianWeight alreadyGeneratedCoins currentBlockWeight fee : UInt64)
    (outKey : ℕ → PublicKey) (extra : List UInt8) (tx : Transaction) (maxOuts : ℕ)
    (hardForkVersion : UInt8) : Option Transaction := do
  let blockReward ← getBlockReward medianWeight currentBlockWeight alreadyGeneratedCoins
    hardForkVersion
  let blockReward := minerTxAmount blockReward fee hardForkVersion
  if ¬ 1 ≤ maxOuts then none
  else do
    let outAmounts ← minerTxOutAmounts height blockReward maxOuts hardForkVersion
    let vout := outAmounts.zipIdx.map (minerTxOut outKey)
    if sumAmounts (vout.map TxOut.amount) ≠ blockReward then none
    else
      pure { tx with
        version := if 4 ≤ hardForkVersion then 2 else 1
        unlockTime := height + cryptonoteMinedMoneyUnlockWindow
        vin := [.txinGen ⟨height⟩]
        vout
        extra }

/-- The loop of `check_outs_overflow`: `money > o.amount + money` exactly when the sum
wraps. -/
def checkOutsOverflowLoop : UInt64 → List TxOut → Bool
  | _, [] => true
  | money, o :: vout => if o.amount + money < money then false else checkOutsOverflowLoop (money + o.amount) vout

/-- `check_outs_overflow`. -/
def checkOutsOverflow (tx : Transaction) : Bool := checkOutsOverflowLoop 0 tx.vout

end Cryptonote

namespace Blockchain

open Cryptonote Rct

/-- `Blockchain::prevalidate_miner_transaction`: one input, a `txin_gen` at the height, a
version 2 miner transaction from `HF_VERSION_MIN_V2_COINBASE_TX` with no RingCT signature
from `HF_VERSION_REJECT_SIGS_IN_COINBASE`, the unlock time of mined money, and outputs that
do not overflow. -/
def prevalidateMinerTransaction (b : Block) (height : UInt64) (hfVersion : UInt8) : Bool :=
  match b.minerTx.vin with
  | [.txinGen txin] =>
    (1 < b.minerTx.version || hfVersion < hfVersionMinV2CoinbaseTx) &&
    (!(hfVersionRejectSigsInCoinbase ≤ hfVersion && 2 ≤ b.minerTx.version) ||
      b.minerTx.rctSignatures.type == rctTypeNull) &&
    txin.height == height &&
    b.minerTx.unlockTime == height + cryptonoteMinedMoneyUnlockWindow &&
    checkOutsOverflow b.minerTx
  | _ => false

/-- `Blockchain::validate_miner_transaction`, for the median weight the chain gives: the
base reward recorded and whether the block took less than its reward, or `none` where the
source returns false. -/
def validateMinerTransaction (b : Block) (medianWeight cumulativeBlockWeight fee
    alreadyGeneratedCoins : UInt64) (version : UInt8) : Option (UInt64 × Bool) :=
  let moneyInUse := sumAmounts (b.minerTx.vout.map TxOut.amount)
  if version = 3 ∧ ¬ b.minerTx.vout.all (fun o => isValidDecomposedAmount o.amount) then none
  else do
    let baseReward ← getBlockReward medianWeight cumulativeBlockWeight alreadyGeneratedCoins
      version
    if baseReward + fee < moneyInUse then none
    else if version < 2 ∨ hfVersionExactCoinbase ≤ version then
      if baseReward + fee ≠ moneyInUse then none else some (baseReward, false)
    -- a miner may claim less than the reward; the rest goes back to the emission
    else if ¬ moneyInUse - fee ≤ baseReward then none
    else some (moneyInUse - fee, baseReward + fee ≠ moneyInUse)

end Blockchain

end Wazn
