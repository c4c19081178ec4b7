import Mathlib
import Wazn.Library.AssocList
import Wazn.Model.TxPool

/-!
# The bookkeeping of the transaction pool

`Coherent` is what the pool's own structures are meant to say about the table: the key-image
index maps each key image to the non-empty set of the pool transactions that spend it, the
ordered container holds one entry per pool transaction, and the weight counter is the sum of
their weights. `take_tx` removes exactly the transaction it is asked for from the table
(`takeTx_table`, `lookup_takeTx_of_ne`).

`add_tx` breaks the bookkeeping when it is called for a transaction that is already in the
table, as the node does for a transaction it saw in the Dandelion++ stem phase and then sees
again: it stores the transaction again under a new receive time and adds its weight again,
so the container ends up with two entries for one transaction and the counter with its
weight twice (`addTx_stemThenFluff_breaks_coherent`).
-/

set_option autoImplicit false

namespace Wazn

namespace TxPool

namespace TxMemoryPool

variable {κ ι : Type} [DecidableEq κ] [DecidableEq ι]

/-- The pool's structures agree with its table. -/
structure Coherent (pool : TxMemoryPool κ ι) : Prop where
  table_nodup : (pool.table.map Prod.fst).Nodup
  keyImages_nonempty : ∀ p ∈ pool.spentKeyImages, p.2 ≠ []
  mem_keyImageSet : ∀ k id, id ∈ keyImageSet pool.spentKeyImages k ↔
    ∃ e ∈ pool.table, e.1 = id ∧ some k ∈ e.2.2.vin
  sorted_perm : (pool.txsByFeeAndReceiveTime.map SortedEntry.id).Perm (pool.table.map Prod.fst)
  weight_eq : pool.txpoolWeight = (pool.table.map fun e => e.2.1.weight).sum

omit [DecidableEq κ] in
/-- A coherent pool has as many entries in its container as transactions in its table. -/
theorem Coherent.length_sorted {pool : TxMemoryPool κ ι} (h : pool.Coherent) :
    pool.txsByFeeAndReceiveTime.length = pool.table.length := by
  simpa using h.sorted_perm.length_eq

variable (pool : TxMemoryPool κ ι)

/-- `take_tx` of a transaction in the table hands it out with its meta. -/
theorem takeTx_fst {id : κ} {txMeta : TxMeta} {tx : PoolTx ι}
    (h : pool.table.lookup id = some (txMeta, tx)) : (pool.takeTx id).1 = some (tx, txMeta) := by
  simp [takeTx, h]

/-- `take_tx` removes the transaction from the table, and nothing else. -/
theorem takeTx_table (id : κ) : (pool.takeTx id).2.table = removeTxpoolTx pool.table id := by
  unfold takeTx
  split
  · -- a missing transaction: the table has nothing under `id` to remove
    rename_i hnone
    rw [removeTxpoolTx, List.filter_eq_self.mpr]
    intro e he
    have hne : e.1 ≠ id := by
      intro heq
      rw [List.lookup_eq_none_iff] at hnone
      have := hnone e he
      rw [heq] at this
      simp at this
    simpa using hne
  · rfl

theorem lookup_takeTx_of_ne {id id' : κ} (h : id ≠ id') :
    (pool.takeTx id).2.table.lookup id' = pool.table.lookup id' := by
  rw [takeTx_table, removeTxpoolTx, AssocList.lookup_filter_ne h]

@[simp] theorem lookup_takeTx_self (id : κ) : (pool.takeTx id).2.table.lookup id = none := by
  rw [takeTx_table, removeTxpoolTx, AssocList.lookup_filter_self]

/-- A transaction received in the Dandelion++ stem phase and seen again in the fluff phase a
hundred seconds later: both calls of `add_tx` succeed, the first leaves the pool coherent, and
the second leaves two container entries and twice the weight for the one transaction. -/
theorem addTx_stemThenFluff_breaks_coherent :
    let tx : PoolTx ℕ := ⟨2, [some 7], none, 0, 50000000, false⟩
    let first := (TxMemoryPool.mk ([] : List (ℕ × TxMeta × PoolTx ℕ)) [] [] 0 648000000
      []).addTx tx 1 1000 .stem false 16 100 ⟨true, true, true⟩
    let second := first.2.addTx tx 1 1000 .fluff true 16 200 ⟨true, true, true⟩
    first.1 = true ∧ first.2.Coherent ∧ second.1 = true ∧ ¬ second.2.Coherent ∧
      second.2.txsByFeeAndReceiveTime.map SortedEntry.id = [1, 1] ∧
      second.2.txpoolWeight = 2000 ∧ (second.2.table.map fun e => e.2.1.weight).sum = 1000 := by
  intro tx first second
  have htable : first.2.table = [(1, ⟨1000, 50000000, 100, .stem, false, false, false⟩, tx)] := by
    decide
  have hspent : first.2.spentKeyImages = [(7, [1])] := by decide
  have hsorted : first.2.txsByFeeAndReceiveTime = [⟨50000000, 1000, 100, 1⟩] := by decide
  have hcoherent : first.2.Coherent := by
    refine ⟨by decide, by decide, ?_, ?_, by decide⟩
    · intro k id
      rw [hspent, htable]
      by_cases hk : k = 7
      · subst hk
        simp [keyImageSet, tx, eq_comm]
      · have hne : (k == 7) = false := beq_eq_false_iff_ne.mpr hk
        simp [keyImageSet, List.lookup_cons, hne, hk, tx]
    · rw [hsorted, htable]
      exact List.Perm.refl _
  refine ⟨by decide, hcoherent, by decide, ?_, by decide, by decide, by decide⟩
  intro h
  have hlen := h.length_sorted
  revert hlen
  decide
end TxMemoryPool

end TxPool

end Wazn
