import Wazn.Model.TxPool

/-!
# A block's transactions on the way into the chain (`blockchain.cpp`)

`handle_block_to_main_chain` takes each transaction of a new block out of the pool with
`take_tx`, checks it, and stores the block with the transactions taken. Every exit taken
after a transaction has left the pool is meant to hand the taken ones back with
`return_tx_to_pool`, which re-adds each with `add_tx` as kept by a block. This file models
that part of the function: the loop over the block's transaction hashes, the check of the
weight of a block synced with pruned transactions, and the exits after the loop.

The checks made before the loop (previous id, version, timestamp, difficulty, proof of work,
checkpoint, `prevalidate_miner_transaction`) and the checks of the blockchain that the loop
and the exits ask (`tx_exists`, `check_tx_inputs`, `validate_miner_transaction`, whether
`add_block` throws, `update_next_cumulative_weight_limit`) are given as their answers,
`MainChainChecks`. The main chain is the list of its block ids: it grows by the block when
`add_block` succeeds, and `pop_block_from_blockchain` takes it off again.
-/

set_option autoImplicit false

namespace Wazn

namespace TxPool

/-- The part of a block that the loop reads: its id and its transaction hashes. -/
structure BlockView (κ : Type) where
  id : κ
  txHashes : List κ
  deriving DecidableEq, Repr

/-- The answers to the checks `handle_block_to_main_chain` makes outside the pool, and what
`return_tx_to_pool` passes to `add_tx`: the hard-fork version, the local time, the weight
`get_transaction_weight` gives and the blockchain's answers for each transaction. -/
structure MainChainChecks (κ ι : Type) where
  checksBeforeTxs : Bool
  txExists : κ → Bool
  fastCheck : Bool
  blocksTxsCheck : List κ
  checkTxInputs : PoolTx ι → Bool
  /-- `m_blocks_hash_check[height].second`, `0` when there is none. -/
  prunedBlockWeight : UInt64
  validateMinerTransaction : Bool
  addBlock : Bool
  updateNextCumulativeWeightLimit : Bool
  version : UInt8
  now : UInt64
  txWeight : PoolTx ι → UInt64
  returnChecks : PoolTx ι → ChainChecks

namespace TxMemoryPool

variable {κ ι : Type} [DecidableEq κ] [DecidableEq ι]

/-- `Blockchain::return_tx_to_pool`: re-add each taken transaction as kept by a block; one
that `add_tx` refuses is lost. -/
def returnTxToPool (checks : MainChainChecks κ ι) (txs : List (κ × PoolTx ι × TxMeta))
    (pool : TxMemoryPool κ ι) : TxMemoryPool κ ι :=
  txs.foldl (fun pool t =>
    (pool.addTx t.2.1 t.1 (checks.txWeight t.2.1) .block true checks.version checks.now
      (checks.returnChecks t.2.1)).2) pool

/-- The loop of `handle_block_to_main_chain` over the block's transaction hashes, with the
transactions taken so far and the index into `m_blocks_txs_check`. A failure exit returns the
pool after the taken transactions were handed back. -/
def takeBlockTxs (checks : MainChainChecks κ ι) :
    List κ → List (κ × PoolTx ι × TxMeta) → ℕ → TxMemoryPool κ ι →
      Except (TxMemoryPool κ ι) (List (κ × PoolTx ι × TxMeta) × TxMemoryPool κ ι)
  | [], txs, _, pool => .ok (txs, pool)
  | txId :: txHashes, txs, txIndex, pool =>
    if checks.txExists txId then .error (returnTxToPool checks txs pool)
    else
      match pool.takeTx txId with
      | (none, pool) => .error (returnTxToPool checks txs pool)
      | (some (tx, txMeta), pool) =>
        let txs := txs ++ [(txId, tx, txMeta)]
        if ¬ checks.fastCheck then
          if ¬ checks.checkTxInputs tx then .error (returnTxToPool checks txs pool)
          else takeBlockTxs checks txHashes txs txIndex pool
        else if checks.blocksTxsCheck.length ≤ txIndex ∨
            checks.blocksTxsCheck[txIndex]? ≠ some txId then
          .error (returnTxToPool checks txs pool)
        else takeBlockTxs checks txHashes txs (txIndex + 1) pool

/-- `handle_block_to_main_chain` from the loop on: the verdict, the main chain and the pool
after the call. A block synced with pruned transactions needs its weight from
`m_blocks_hash_check`; without it the function goes to `leave`. When
`update_next_cumulative_weight_limit` fails after the block was stored,
`pop_block_from_blockchain` takes it off and re-adds its unpruned transactions. -/
def handleBlockToMainChain (checks : MainChainChecks κ ι) (chain : List κ) (b : BlockView κ)
    (pool : TxMemoryPool κ ι) : Bool × List κ × TxMemoryPool κ ι :=
  if ¬ checks.checksBeforeTxs then (false, chain, pool)
  else
    match takeBlockTxs checks b.txHashes [] 0 pool with
    | .error pool => (false, chain, pool)
    | .ok (txs, pool) =>
      let nPruned := (txs.filter fun t => t.2.2.pruned).length
      if 0 < nPruned ∧ checks.prunedBlockWeight = 0 then (false, chain, pool)
      else if ¬ checks.validateMinerTransaction then
        (false, chain, returnTxToPool checks txs pool)
      else if ¬ checks.addBlock then (false, chain, returnTxToPool checks txs pool)
      else if ¬ checks.updateNextCumulativeWeightLimit then
        (false, chain, returnTxToPool checks (txs.filter fun t => !t.2.1.pruned) pool)
      else (true, chain ++ [b.id], pool)

end TxMemoryPool

end TxPool

end Wazn
