import Wazn.Library.FloatRound
import Wazn.Model.TxPool

/-!
# Filling a block template (`tx_memory_pool::fill_block_template`)

`fill_block_template` walks `m_txs_by_fee_and_receive_time`, best fee per byte first, and puts
into the block each transaction that passes its checks: its meta is in the table, it is
relayed in the legacy way (or is in the stem phase, when the pool mines stem transactions),
it is not pruned, and the block stays within `max_total_weight`. From version 5 the block's
reward must be defined at the new weight, and the coinbase the transaction brings, the reward
at that weight plus all the fees, must not be below `template_accept_threshold` of the best
coinbase so far; before version 5 the loop stops once the block is past the median instead. A
candidate that passes goes in when `is_transaction_ready_to_go` finds it ready and none of its
key images is already in the block.

`template_accept_threshold` multiplies by the `float` `ACCEPT_THRESHOLD`, `1.0f`: the amount is
converted to `float`, which rounds it to 24 significant bits, and the product is converted
back, so the threshold is the amount rounded (`FloatRound.roundNearestEven 24`). The `float`
`2 ^ 64`, which amounts within `2 ^ 39` of it round to, has no `uint64_t` value; it is taken
modulo `2 ^ 64` here.

`is_transaction_ready_to_go` asks the chain (`check_tx_inputs`, the key images spent there,
the failure it remembers by height), which does not change while the pool holds its lock; its
answer for each candidate is given (`Readiness`). Of what it writes to the meta only
`double_spend_seen` is modelled, which `update_txpool_tx` writes back when the meta changed;
the loop commits its `LockedTXN`, so the table keeps it. `m_mine_stem_txes` is a parameter.
The txids are pushed onto `bl.tx_hashes`, which `create_block_template` passes empty.
-/

set_option autoImplicit false

namespace Wazn

namespace TxPool

open Cryptonote

/-- `template_accept_threshold(amount)`: `amount * ACCEPT_THRESHOLD`, with `ACCEPT_THRESHOLD`
the `float` `1.0f`. -/
def templateAcceptThreshold (amount : UInt64) : UInt64 :=
  UInt64.ofNat (FloatRound.roundNearestEven 24 amount.toNat)

/-- What `is_transaction_ready_to_go` finds of a candidate. -/
inductive Readiness where
  /-- its inputs check and none of its key images is spent in the chain -/
  | ready
  /-- its inputs fail `check_tx_inputs`, it failed at this height before, or it does not
  parse -/
  | notReady
  /-- a key image is spent in the chain: `double_spend_seen` is set -/
  | spentInChain
  deriving DecidableEq, Repr

section KeyImages

variable {ι : Type} [DecidableEq ι]

/-- `have_key_images`: a key image of `vin` is in `kImages`. The loop returns `false` at an
input that is not `txin_to_key`. -/
def haveKeyImages (kImages : List ι) : List (Option ι) → Bool
  | [] => false
  | none :: _ => false
  | some k :: vin => if k ∈ kImages then true else haveKeyImages kImages vin

/-- `append_key_images`: insert the key images of `vin`. At an input that is not
`txin_to_key`, or at a key image already inserted, it returns `false`, keeping those inserted
so far. -/
def appendKeyImages : List ι → List (Option ι) → Bool × List ι
  | kImages, [] => (true, kImages)
  | kImages, none :: _ => (false, kImages)
  | kImages, some k :: vin =>
    if k ∈ kImages then (false, kImages) else appendKeyImages (kImages ++ [k]) vin

end KeyImages

/-- `max_total_weight`: twice the median from version 5, 130% of it before, less the space
kept for the coinbase blob, in `size_t`. -/
def maxTotalWeight (medianWeight : UInt64) (version : UInt8) : UInt64 :=
  if 5 ≤ version then 2 * medianWeight - cryptonoteCoinbaseBlobReservedSize
  else 130 * medianWeight / 100 - cryptonoteCoinbaseBlobReservedSize

/-- `update_txpool_tx(txid, meta)`. -/
def updateTxpoolTx {κ ι : Type} [DecidableEq κ] (table : List (κ × TxMeta × PoolTx ι)) (id : κ)
    (txMeta : TxMeta) : List (κ × TxMeta × PoolTx ι) :=
  table.map fun e => if e.1 = id then (e.1, txMeta, e.2.2) else e

/-- The variables of the loop of `fill_block_template`: the txids put into the block, its
weight and fees, the best coinbase so far and the last one computed, the key images of the
block, and the txpool table. -/
structure FillState (κ ι : Type) where
  txHashes : List κ
  totalWeight : UInt64
  fee : UInt64
  bestCoinbase : UInt64
  coinbase : UInt64
  kImages : List ι
  table : List (κ × TxMeta × PoolTx ι)

/-- What `fill_block_template` leaves in its output parameters: the txids pushed onto
`bl.tx_hashes`, `total_weight`, `fee` and `expected_reward`. -/
structure BlockTemplateFill (κ : Type) where
  txHashes : List κ
  totalWeight : UInt64
  fee : UInt64
  expectedReward : UInt64
  deriving DecidableEq, Repr

section Fill

variable {κ ι : Type} [DecidableEq κ] [DecidableEq ι]

/-- The end of a round for a candidate that passed the weight and coinbase checks: the
readiness check, then the key images; the candidate goes into the block with the coinbase as
it then stands. -/
def includeTx (readiness : κ → Readiness) (id : κ) (txMeta : TxMeta) (tx : PoolTx ι)
    (st : FillState κ ι) : FillState κ ι :=
  match readiness id with
  | .notReady => st
  | .spentInChain =>
    -- the meta changed (`memcmp`): `update_txpool_tx`
    if txMeta.doubleSpendSeen then st
    else { st with table := updateTxpoolTx st.table id { txMeta with doubleSpendSeen := true } }
  | .ready =>
    if haveKeyImages st.kImages tx.vin then st
    else
      { st with
        txHashes := st.txHashes ++ [id]
        totalWeight := st.totalWeight + txMeta.weight
        fee := st.fee + txMeta.fee
        bestCoinbase := st.coinbase
        kImages := (appendKeyImages st.kImages tx.vin).2 }

/-- One round of the loop of `fill_block_template`, on the candidate `id`: the variables after
it, and whether the loop breaks. The meta and the blob are read from the table as the loop
has left it. -/
def fillBlockTemplateStep (mineStemTxes : Bool) (readiness : κ → Readiness)
    (medianWeight alreadyGeneratedCoins : UInt64) (version : UInt8) (id : κ)
    (st : FillState κ ι) : FillState κ ι × Bool :=
  match st.table.lookup id with
  | none => (st, false)
  | some (txMeta, tx) =>
    if !matchesCategory txMeta.relayMethod .legacy &&
        !(mineStemTxes && txMeta.relayMethod == .stem) then (st, false)
    else if txMeta.pruned then (st, false)
    -- can not exceed maximum block weight
    else if maxTotalWeight medianWeight version < st.totalWeight + txMeta.weight then (st, false)
    -- the optimal filling from version 5
    else if 5 ≤ version then
      match getBlockReward medianWeight (st.totalWeight + txMeta.weight) alreadyGeneratedCoins
          version with
      | none => (st, false)
      | some blockReward =>
        let st := { st with coinbase := blockReward + st.fee + txMeta.fee }
        if st.coinbase < templateAcceptThreshold st.bestCoinbase then (st, false)
        else (includeTx readiness id txMeta tx st, false)
    -- before it, stop past the penalty-free weight
    else if medianWeight < st.totalWeight then (st, true)
    else (includeTx readiness id txMeta tx st, false)

/-- The loop of `fill_block_template` over `m_txs_by_fee_and_receive_time`. -/
def fillBlockTemplateLoop (mineStemTxes : Bool) (readiness : κ → Readiness)
    (medianWeight alreadyGeneratedCoins : UInt64) (version : UInt8) :
    List (SortedEntry κ) → FillState κ ι → FillState κ ι
  | [], st => st
  | entry :: sorted, st =>
    match fillBlockTemplateStep mineStemTxes readiness medianWeight alreadyGeneratedCoins version
        entry.id st with
    | (st, true) => st
    | (st, false) =>
      fillBlockTemplateLoop mineStemTxes readiness medianWeight alreadyGeneratedCoins version
        sorted st

/-- `fill_block_template(bl, median_weight, already_generated_coins, total_weight, fee,
expected_reward, version)`: `none` where it returns `false`, when the empty block has no
reward. The pool comes back with the table as the loop left it. -/
def TxMemoryPool.fillBlockTemplate (pool : TxMemoryPool κ ι) (mineStemTxes : Bool)
    (readiness : κ → Readiness) (medianWeight alreadyGeneratedCoins : UInt64) (version : UInt8) :
    Option (BlockTemplateFill κ × TxMemoryPool κ ι) :=
  -- baseline empty block
  match getBlockReward medianWeight 0 alreadyGeneratedCoins version with
  | none => none
  | some bestCoinbase =>
    let st := fillBlockTemplateLoop mineStemTxes readiness medianWeight alreadyGeneratedCoins
      version pool.txsByFeeAndReceiveTime
      { txHashes := [], totalWeight := 0, fee := 0, bestCoinbase, coinbase := 0, kImages := [],
        table := pool.table }
    some (⟨st.txHashes, st.totalWeight, st.fee, st.bestCoinbase⟩, { pool with table := st.table })

end Fill

end TxPool

end Wazn
