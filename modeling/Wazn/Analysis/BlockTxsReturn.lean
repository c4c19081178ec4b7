import Wazn.Analysis.TxPoolBookkeeping
import Wazn.Model.HandleBlock

/-!
# Transactions taken by a block that is refused

When every transaction of a block is in the pool, none is in the chain and their inputs
check, the loop of `handle_block_to_main_chain` takes them all out of the pool
(`takeBlockTxs_eq`). If one of them was pruned and the node has no weight for the block from
`m_blocks_hash_check`, the function returns `false` through `leave` without handing them
back: the block is refused, the chain is as it was, and the block's transactions are no
longer in the pool (`handleBlockToMainChain_prunedExit`).
-/

set_option autoImplicit false

namespace Wazn

namespace TxPool

namespace TxMemoryPool

variable {κ ι : Type} [DecidableEq κ] [DecidableEq ι]

/-- `take_tx` of a transaction in the table, as a pair. -/
theorem takeTx_eq_of_lookup (pool : TxMemoryPool κ ι) {id : κ} {txMeta : TxMeta} {tx : PoolTx ι}
    (h : pool.table.lookup id = some (txMeta, tx)) :
    pool.takeTx id = (some (tx, txMeta), (pool.takeTx id).2) :=
  Prod.ext (pool.takeTx_fst h) rfl

/-- The loop over transactions that are all in the pool, new to the chain and with inputs
that check takes each of them, with the meta it had, and leaves the table without them. -/
theorem takeBlockTxs_eq (checks : MainChainChecks κ ι) (hfast : checks.fastCheck = false) :
    ∀ (ids : List κ) (txs : List (κ × PoolTx ι × TxMeta)) (txIndex : ℕ)
      (pool : TxMemoryPool κ ι), ids.Nodup → (∀ id ∈ ids, checks.txExists id = false) →
      (∀ id ∈ ids, ∃ txMeta tx, pool.table.lookup id = some (txMeta, tx) ∧
        checks.checkTxInputs tx = true) →
      ∃ taken pool', takeBlockTxs checks ids txs txIndex pool = .ok (txs ++ taken, pool') ∧
        taken.map Prod.fst = ids ∧
        (∀ t ∈ taken, pool.table.lookup t.1 = some (t.2.2, t.2.1)) ∧
        ∀ id, pool'.table.lookup id = if id ∈ ids then none else pool.table.lookup id
  | [], txs, _, pool, _, _, _ => ⟨[], pool, by simp [takeBlockTxs]⟩
  | id :: ids, txs, txIndex, pool, hnodup, hnew, hin => by
    obtain ⟨hid, hnodup⟩ := List.nodup_cons.mp hnodup
    obtain ⟨txMeta, tx, hlookup, hinputs⟩ := hin id List.mem_cons_self
    -- the rest of the block's transactions are still in the pool after the first is taken
    have hrest : ∀ id' ∈ ids, ∃ txMeta tx, (pool.takeTx id).2.table.lookup id' =
        some (txMeta, tx) ∧ checks.checkTxInputs tx = true := by
      intro id' hid'
      have hne : id ≠ id' := fun h => hid (h ▸ hid')
      rw [pool.lookup_takeTx_of_ne hne]
      exact hin id' (List.mem_cons_of_mem id hid')
    obtain ⟨taken, pool', hloop, hids, hmetas, htable⟩ :=
      takeBlockTxs_eq checks hfast ids (txs ++ [(id, tx, txMeta)]) txIndex (pool.takeTx id).2
        hnodup (fun id' hid' => hnew id' (List.mem_cons_of_mem id hid')) hrest
    refine ⟨(id, tx, txMeta) :: taken, pool', ?_, by simp [hids], ?_, ?_⟩
    · rw [takeBlockTxs, if_neg (by simp [hnew id List.mem_cons_self]),
        pool.takeTx_eq_of_lookup hlookup]
      simp only [hfast, Bool.false_eq_true, not_false_eq_true, if_true, hinputs,
        not_true_eq_false, if_false, hloop, List.append_assoc, List.singleton_append]
    · intro t ht
      rcases List.mem_cons.mp ht with rfl | ht
      · exact hlookup
      · have htid : t.1 ∈ ids := hids ▸ List.mem_map_of_mem ht
        have hne : id ≠ t.1 := fun h => hid (h ▸ htid)
        rw [← pool.lookup_takeTx_of_ne hne]
        exact hmetas t ht
    · intro id'
      rw [htable id']
      by_cases hid' : id' ∈ ids
      · simp [hid']
      · by_cases heq : id' = id
        · subst heq
          simp [hid']
        · have hne : id ≠ id' := Ne.symm heq
          simp [hid', heq, pool.lookup_takeTx_of_ne hne]

/-- **The pruned-weight exit loses the block's transactions.** A block whose transactions
are all in the pool, none in the chain, with inputs that check, one of them pruned, and for
which the node has no weight: `handle_block_to_main_chain` refuses it, the chain is as it
was, and none of the block's transactions is in the pool any more. -/
theorem handleBlockToMainChain_prunedExit (checks : MainChainChecks κ ι) (chain : List κ)
    (b : BlockView κ) (pool : TxMemoryPool κ ι) (hbefore : checks.checksBeforeTxs = true)
    (hfast : checks.fastCheck = false) (hnodup : b.txHashes.Nodup)
    (hnew : ∀ id ∈ b.txHashes, checks.txExists id = false)
    (hin : ∀ id ∈ b.txHashes, ∃ txMeta tx, pool.table.lookup id = some (txMeta, tx) ∧
      checks.checkTxInputs tx = true)
    (hpruned : ∃ id ∈ b.txHashes, ∃ txMeta tx, pool.table.lookup id = some (txMeta, tx) ∧
      txMeta.pruned = true)
    (hweight : checks.prunedBlockWeight = 0) :
    (handleBlockToMainChain checks chain b pool).1 = false ∧
      (handleBlockToMainChain checks chain b pool).2.1 = chain ∧
      ∀ id ∈ b.txHashes, id ∉ (handleBlockToMainChain checks chain b pool).2.2.table.map Prod.fst := by
  obtain ⟨taken, pool', hloop, hids, hmetas, htable⟩ :=
    takeBlockTxs_eq checks hfast b.txHashes [] 0 pool hnodup hnew hin
  -- the pruned transaction is among the taken ones, so the pruned-weight check fires
  have hcount : 0 < (taken.filter fun t => t.2.2.pruned).length := by
    obtain ⟨id, hid, txMeta, tx, hlookup, hprunedMeta⟩ := hpruned
    obtain ⟨t, ht, rfl⟩ := List.mem_map.mp (hids ▸ hid : id ∈ taken.map Prod.fst)
    have htMeta : t.2.2 = txMeta := by
      have := hmetas t ht
      rw [hlookup, Option.some_inj] at this
      exact (Prod.ext_iff.mp this).1.symm
    apply List.length_pos_of_mem (a := t)
    simp [ht, htMeta, hprunedMeta]
  have hresult : handleBlockToMainChain checks chain b pool = (false, chain, pool') := by
    rw [handleBlockToMainChain, if_neg (by simp [hbefore]), hloop, List.nil_append]
    simp only [hcount, hweight, and_self, if_true]
  rw [hresult]
  refine ⟨rfl, rfl, ?_⟩
  intro id hid hmem
  have hnone := htable id
  rw [if_pos hid, List.lookup_eq_none_iff] at hnone
  obtain ⟨p, hp, hpid⟩ := List.mem_map.mp hmem
  have := hnone p hp
  rw [hpid] at this
  simp at this

/-- A pool holding one pruned transaction, as one kept from a block synced in pruned form. -/
def prunedTxPool : TxMemoryPool ℕ ℕ :=
  ⟨[(5, ⟨1000, 50000000, 100, .block, true, false, true⟩, ⟨2, [some 9], none, 0, 50000000, true⟩)],
    [(9, [5])], [⟨50000000, 1000, 100, 5⟩], 1000, 648000000, []⟩

/-- The answers of a node that syncs without a weight for the block at hand. -/
def prunedSyncChecks : MainChainChecks ℕ ℕ :=
  ⟨true, fun _ => false, false, [], fun _ => true, 0, true, true, true, 16, 300, fun _ => 1000,
    fun _ => ⟨true, true, true⟩⟩

theorem handleBlockToMainChain_prunedExit_prunedTxPool :
    (handleBlockToMainChain prunedSyncChecks [0] ⟨42, [5]⟩ prunedTxPool).1 = false ∧
      (handleBlockToMainChain prunedSyncChecks [0] ⟨42, [5]⟩ prunedTxPool).2.1 = [0] ∧
      ∀ id ∈ [5], id ∉
        (handleBlockToMainChain prunedSyncChecks [0] ⟨42, [5]⟩ prunedTxPool).2.2.table.map Prod.fst :=
  handleBlockToMainChain_prunedExit prunedSyncChecks [0] ⟨42, [5]⟩ prunedTxPool rfl rfl
    (by decide) (by decide)
    (fun id hid => by
      rw [List.mem_singleton] at hid
      subst hid
      exact ⟨_, _, rfl, rfl⟩)
    ⟨5, List.mem_singleton_self 5, _, _, rfl, rfl⟩ rfl

end TxMemoryPool

end TxPool

end Wazn
