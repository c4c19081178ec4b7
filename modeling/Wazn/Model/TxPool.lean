import Wazn.Model.MinerTx

/-!
# The transaction pool (`tx_pool.cpp`, `blockchain_db.cpp`)

`tx_memory_pool` keeps its transactions in the database's txpool table, by txid, with a
`txpool_tx_meta_t` and the transaction's blob; beside the table it keeps three structures of
its own, updated separately: `m_spent_key_images`, from each key image to the txids of the
pool transactions that spend it; `m_txs_by_fee_and_receive_time`, one entry per transaction
ordered by fee per byte (highest first) and then by receive time; and `m_txpool_weight`, the
total weight. This file models the functions that change them: `add_tx` (with
`insert_key_images` and `mark_double_spend`), `take_tx` (with
`remove_transaction_keyimages`), `prune`, `remove_stuck_transactions` and `validate`.

Txids and key images are of any types with decidable equality. What the pool reads of a
transaction is `PoolTx`: its version, its inputs (the key image of a `txin_to_key`, `none`
for any other input), the amounts that set a version-1 fee, the RingCT fee of a later
version, and whether it is pruned; the blob in the table is the transaction itself, which
parses. The checks that `add_tx` asks of the blockchain (`check_fee`, `check_tx_outputs`,
`check_tx_inputs`) are given as their answers, `ChainChecks`. The relay flags of
`txpool_tx_meta_t` are kept as the `relay_method` that `get_relay_method` reads from them,
which `set_relay_method` writes back unchanged.

A `LockedTXN` that is left without `commit` undoes the table writes made under it, and only
those: the pool's own structures keep what was done to them. `m_txs_by_fee_and_receive_time`
is a `std::set` whose comparator puts higher fees per byte first and, at equal fee per byte,
earlier receive times first; the fee per byte, a `double`, is compared here as the exact
quotient. Entries equal in both and in txid are one element; entries equal in both with
different txids (which the comparator leaves unordered) are kept in insertion order.
-/

set_option autoImplicit false

namespace Wazn

namespace TxPool

open Cryptonote

/-- `relay_method`, in the order of its values. -/
inductive RelayMethod where
  | none
  | «local»
  | forward
  | stem
  | fluff
  | block
  deriving DecidableEq, Repr

/-- The value of a `relay_method`. -/
def RelayMethod.toNat : RelayMethod → ℕ
  | .none => 0
  | .local => 1
  | .forward => 2
  | .stem => 3
  | .fluff => 4
  | .block => 5

/-- `relay_category`. -/
inductive RelayCategory where
  | broadcasted
  | relayable
  | legacy
  | all
  deriving DecidableEq, Repr

/-- `matches_category`. -/
def matchesCategory (method : RelayMethod) (category : RelayCategory) : Bool :=
  match category with
  | .all => true
  | .relayable => method != .none
  | .broadcasted | .legacy =>
    match method with
    | .local | .forward | .stem => false
    | .block | .fluff => true
    | .none => category == .legacy

/-- The fields of `txpool_tx_meta_t` that the modelled functions read or write. -/
structure TxMeta where
  weight : UInt64
  fee : UInt64
  receiveTime : UInt64
  relayMethod : RelayMethod
  relayed : Bool
  doubleSpendSeen : Bool
  pruned : Bool
  deriving DecidableEq, Repr

/-- `txpool_tx_meta_t::upgrade_relay_method`: a later method replaces the stored one. -/
def TxMeta.upgradeRelayMethod (txMeta : TxMeta) (method : RelayMethod) : Bool × TxMeta :=
  if txMeta.relayMethod.toNat < method.toNat then (true, { txMeta with relayMethod := method })
  else (false, txMeta)

/-- What the pool reads of a transaction. -/
structure PoolTx (ι : Type) where
  version : ℕ
  vin : List (Option ι)
  /-- `get_inputs_money_amount`, which fails on an input that is not `txin_to_key`. -/
  inputsAmount : Option UInt64
  outputsAmount : UInt64
  txnFee : UInt64
  pruned : Bool
  deriving DecidableEq, Repr

/-- The fee `add_tx` finds: inputs less outputs for version 1, refused when they are not
more; the RingCT fee otherwise. -/
def PoolTx.fee {ι : Type} (tx : PoolTx ι) : Option UInt64 :=
  if tx.version = 1 then
    match tx.inputsAmount with
    | none => none
    | some inputsAmount =>
      if inputsAmount < tx.outputsAmount then none
      else if tx.outputsAmount = inputsAmount then none
      else some (inputsAmount - tx.outputsAmount)
  else some tx.txnFee

/-- An element of `m_txs_by_fee_and_receive_time`: the fee and the weight whose quotient is
the fee per byte, the receive time, and the txid. -/
structure SortedEntry (κ : Type) where
  fee : UInt64
  weight : UInt64
  receiveTime : UInt64
  id : κ
  deriving DecidableEq, Repr

/-- `fee / (double)(tx_weight ? tx_weight : 1)`, as numerator and denominator. -/
def SortedEntry.divisor {κ : Type} (e : SortedEntry κ) : ℕ :=
  if e.weight = 0 then 1 else e.weight.toNat

/-- `txCompare` on two entries with different keys: `a` goes before `b`. -/
def SortedEntry.before {κ : Type} (a b : SortedEntry κ) : Bool :=
  b.fee.toNat * a.divisor < a.fee.toNat * b.divisor ||
    (a.fee.toNat * b.divisor = b.fee.toNat * a.divisor && a.receiveTime < b.receiveTime)

/-- Two entries that `txCompare` finds equal: same fee per byte, time and txid. -/
def SortedEntry.same {κ : Type} [DecidableEq κ] (a b : SortedEntry κ) : Bool :=
  a.fee.toNat * b.divisor = b.fee.toNat * a.divisor && a.receiveTime = b.receiveTime &&
    a.id = b.id

/-- Insertion into the ordered container, after the entries that do not go after it. -/
def insertSorted {κ : Type} (entry : SortedEntry κ) : List (SortedEntry κ) → List (SortedEntry κ)
  | [] => [entry]
  | e :: rest => if entry.before e then entry :: e :: rest else e :: insertSorted entry rest

/-- `std::set::emplace`: no effect when an equal element is there. -/
def emplaceSorted {κ : Type} [DecidableEq κ] (entry : SortedEntry κ)
    (sorted : List (SortedEntry κ)) : List (SortedEntry κ) :=
  if sorted.any entry.same then sorted else insertSorted entry sorted

/-- `CRYPTONOTE_MEMPOOL_TX_LIVETIME`. -/
def cryptonoteMempoolTxLivetime : UInt64 := 86400 * 3

/-- `CRYPTONOTE_MEMPOOL_TX_FROM_ALT_BLOCK_LIVETIME`. -/
def cryptonoteMempoolTxFromAltBlockLivetime : UInt64 := 604800

/-- `CRYPTONOTE_COINBASE_BLOB_RESERVED_SIZE`. -/
def cryptonoteCoinbaseBlobReservedSize : UInt64 := 600

/-- `HF_VERSION_PER_BYTE_FEE`. -/
def hfVersionPerByteFee : UInt8 := 8

/-- `get_transaction_weight_limit`: from version 8, half the minimum block weight. -/
def getTransactionWeightLimit (version : UInt8) : UInt64 :=
  if 8 ≤ version then getMinBlockWeight version / 2 - cryptonoteCoinbaseBlobReservedSize
  else getMinBlockWeight version - cryptonoteCoinbaseBlobReservedSize

/-- The answers of the blockchain to the checks `add_tx` asks of it for one transaction:
`check_fee`, `check_tx_outputs` and `check_tx_inputs`. -/
structure ChainChecks where
  checkFee : Bool
  checkTxOutputs : Bool
  checkTxInputs : Bool
  deriving DecidableEq, Repr

/-! ## The key-image index -/

section KeyImages

variable {κ ι : Type} [DecidableEq κ] [DecidableEq ι]

/-- The set a key image maps to; `find` on a missing key finds nothing. -/
def keyImageSet (spent : List (ι × List κ)) (k : ι) : List κ :=
  (spent.lookup k).getD []

/-- `m_spent_key_images[k] = set`: replaces the set, or adds the key at the end. -/
def setKeyImageSet (spent : List (ι × List κ)) (k : ι) (set : List κ) : List (ι × List κ) :=
  if spent.any (·.1 == k) then spent.map fun p => if p.1 = k then (k, set) else p
  else spent ++ [(k, set)]

/-- `m_spent_key_images.erase(k)`. -/
def eraseKeyImage (spent : List (ι × List κ)) (k : ι) : List (ι × List κ) :=
  spent.filter (·.1 != k)

/-- `insert_key_images`: add `id` to the set of each key image of `vin`. Only a transaction
kept by a block may share a key image with another one, and only a transaction that is not
yet public may be inserted twice (`legacy` says whether `id` is in the table as a public
one). A failed check leaves the insertions made so far. -/
def insertKeyImages (legacy : Bool) (id : κ) (relay : RelayMethod) :
    List (Option ι) → List (ι × List κ) → Bool × List (ι × List κ)
  | [], spent => (true, spent)
  | none :: _, spent => (false, spent)
  | some k :: vin, spent =>
    let set := keyImageSet spent k
    -- `m_spent_key_images[k]` makes an empty set for a new key image
    let spent := setKeyImageSet spent k set
    if relay ≠ .block ∧ ¬ (set = [] ∨ set = [id]) then (false, spent)
    else
      let inserted := id ∉ set
      let spent := setKeyImageSet spent k (if inserted then set ++ [id] else set)
      if ¬ (inserted ∨ !legacy) then (false, spent)
      else insertKeyImages legacy id relay vin spent

/-- `remove_transaction_keyimages`: take `id` out of the set of each key image of `vin`, and
a key image whose set empties out of the index. A failed check stops the loop. -/
def removeTransactionKeyimages (id : κ) :
    List (Option ι) → List (ι × List κ) → Bool × List (ι × List κ)
  | [], spent => (true, spent)
  | none :: _, spent => (false, spent)
  | some k :: vin, spent =>
    match spent.lookup k with
    | none => (false, spent)
    | some set =>
      if set = [] then (false, spent)
      else if id ∉ set then (false, spent)
      else
        let set := set.erase id
        let spent := if set = [] then eraseKeyImage spent k else setKeyImageSet spent k set
        removeTransactionKeyimages id vin spent

end KeyImages

/-! ## The pool -/

/-- The state of `tx_memory_pool` and of the txpool table. -/
structure TxMemoryPool (κ ι : Type) where
  table : List (κ × TxMeta × PoolTx ι)
  spentKeyImages : List (ι × List κ)
  txsByFeeAndReceiveTime : List (SortedEntry κ)
  txpoolWeight : UInt64
  txpoolMaxWeight : UInt64
  timedOutTransactions : List κ

namespace TxMemoryPool

variable {κ ι : Type} [DecidableEq κ] [DecidableEq ι] (pool : TxMemoryPool κ ι)

/-- `get_txpool_tx_meta`. -/
def getTxpoolTxMeta (id : κ) : Option TxMeta :=
  (pool.table.lookup id).map Prod.fst

/-- `txpool_tx_matches_category`: false for a txid that is not in the table. -/
def txpoolTxMatchesCategory (id : κ) (category : RelayCategory) : Bool :=
  match pool.getTxpoolTxMeta id with
  | none => false
  | some txMeta => matchesCategory txMeta.relayMethod category

/-- `remove_txpool_tx`: a missing txid is not an error. -/
def removeTxpoolTx (table : List (κ × TxMeta × PoolTx ι)) (id : κ) :
    List (κ × TxMeta × PoolTx ι) :=
  table.filter (·.1 != id)

/-- `add_txpool_tx`: throws for a txid already in the table. -/
def addTxpoolTx (table : List (κ × TxMeta × PoolTx ι)) (id : κ) (txMeta : TxMeta)
    (tx : PoolTx ι) : Option (List (κ × TxMeta × PoolTx ι)) :=
  if table.any (·.1 == id) then none else some (table ++ [(id, txMeta, tx)])

/-- `have_tx_keyimg_as_spent`: another transaction spends `k`, or `id` does as a public
transaction. -/
def haveTxKeyimgAsSpent (k : ι) (id : κ) : Bool :=
  match keyImageSet pool.spentKeyImages k with
  | [] => false
  | [x] => if x ≠ id then true else pool.txpoolTxMatchesCategory id .legacy
  | _ :: _ :: _ => true

/-- `have_tx_keyimges_as_spent`. -/
def haveTxKeyimgesAsSpent (vin : List (Option ι)) (id : κ) : Bool :=
  vin.any fun input =>
    match input with
    | none => true
    | some k => pool.haveTxKeyimgAsSpent k id

/-- `mark_double_spend`: every pool transaction that spends a key image of `vin` is marked.
The loop gives up, and its transaction undoes the marks, at an input that is not
`txin_to_key`. -/
def markDoubleSpend (vin : List (Option ι)) : List (κ × TxMeta × PoolTx ι) :=
  if vin.all Option.isSome then
    pool.table.map fun e =>
      if vin.any (fun input => match input with
          | some k => decide (e.1 ∈ keyImageSet pool.spentKeyImages k)
          | none => false) then
        (e.1, { e.2.1 with doubleSpendSeen := true }, e.2.2)
      else e
  else pool.table

/-- The loop of `prune`: from the entry at `i` back towards the first, which is never
removed, drop transactions not kept by a block while the weight is above `bytes`. The flag
is set when a txid of the container is not in the table, where `prune` returns without
committing. -/
def pruneLoop (bytes : UInt64) :
    ℕ → TxMemoryPool κ ι → Bool × TxMemoryPool κ ι
  | 0, st => (false, st)
  | i + 1, st =>
    if st.txpoolWeight ≤ bytes then (false, st)
    else
      match st.txsByFeeAndReceiveTime[i + 1]? with
      | none => (false, st)
      | some entry =>
        match st.table.lookup entry.id with
        | none => (true, st)
        | some (txMeta, tx) =>
          if txMeta.relayMethod = .block then pruneLoop bytes i st
          else
            pruneLoop bytes i { st with
              table := removeTxpoolTx st.table entry.id
              txpoolWeight := st.txpoolWeight - txMeta.weight
              spentKeyImages := (removeTransactionKeyimages entry.id tx.vin st.spentKeyImages).2
              txsByFeeAndReceiveTime := st.txsByFeeAndReceiveTime.eraseIdx (i + 1) }

/-- `prune`: drop the cheapest transactions until the weight is within `bytes` (`0` for the
pool's maximum). When the loop gives up, the table is rolled back and the rest is not. -/
def prune (bytes : UInt64) : TxMemoryPool κ ι :=
  let bytes := if bytes = 0 then pool.txpoolMaxWeight else bytes
  -- `--end()` is the last element
  let (aborted, st) := pruneLoop bytes (pool.txsByFeeAndReceiveTime.length - 1) pool
  if aborted then { st with table := pool.table } else st

/-- The end of a successful `add_tx`: the weight goes up by the transaction's, and the pool
is pruned to its maximum weight. -/
def finishAddTx (txWeight : UInt64) : TxMemoryPool κ ι :=
  { pool with txpoolWeight := pool.txpoolWeight + txWeight }.prune pool.txpoolMaxWeight

/-- The branch of `add_tx` for a transaction kept by a block whose inputs fail
`check_tx_inputs`: it is stored all the same, marked as possibly double spending. -/
def addKeptTx (tx : PoolTx ι) (id : κ) (txWeight fee now : UInt64) (txRelay : RelayMethod)
    (relayed : Bool) : Bool × TxMemoryPool κ ι :=
  let txMeta : TxMeta :=
    { weight := txWeight
      fee := fee
      receiveTime := now
      relayMethod := txRelay
      relayed := relayed
      doubleSpendSeen := pool.haveTxKeyimgesAsSpent tx.vin id
      pruned := tx.pruned }
  let (ok, spent) := insertKeyImages (pool.txpoolTxMatchesCategory id .legacy) id txRelay
    tx.vin pool.spentKeyImages
  if ¬ ok then (false, { pool with spentKeyImages := spent })
  else
    match addTxpoolTx pool.table id txMeta tx with
    | none => (false, { pool with spentKeyImages := spent })
    | some table =>
      (true, { pool with
        table := table
        spentKeyImages := spent
        txsByFeeAndReceiveTime :=
          emplaceSorted ⟨fee, txWeight, now, id⟩ pool.txsByFeeAndReceiveTime }.finishAddTx
            txWeight)

/-- The branch of `add_tx` for a transaction whose inputs pass: a new transaction is
stored; one already in the table is stored again when the relay method moves on (a stem
transaction seen again in the stem phase goes to fluff). The weight is added in every case. -/
def addCheckedTx (tx : PoolTx ι) (id : κ) (txWeight fee now : UInt64) (txRelay : RelayMethod)
    (relayed : Bool) : Bool × TxMemoryPool κ ι :=
  let existing := pool.getTxpoolTxMeta id
  let (txRelay, txMeta) : RelayMethod × TxMeta :=
    match existing with
    | some txMeta => (if txRelay = .stem ∧ txMeta.relayMethod = .stem then .fluff else txRelay, txMeta)
    | none =>
      (txRelay,
        { weight := 0
          fee := 0
          receiveTime := 0
          relayMethod := .none
          relayed := false
          doubleSpendSeen := false
          pruned := false })
  let (upgraded, txMeta) := txMeta.upgradeRelayMethod txRelay
  if upgraded ∨ existing.isNone then
    let txMeta := { txMeta with
      receiveTime := now
      weight := txWeight
      fee := fee
      relayed := relayed
      doubleSpendSeen := false
      pruned := tx.pruned }
    let (ok, spent) := insertKeyImages (pool.txpoolTxMatchesCategory id .legacy) id txRelay
      tx.vin pool.spentKeyImages
    if ¬ ok then (false, { pool with spentKeyImages := spent })
    else
      match addTxpoolTx (removeTxpoolTx pool.table id) id txMeta tx with
      | none => (false, { pool with spentKeyImages := spent })
      | some table =>
        (true, { pool with
          table := table
          spentKeyImages := spent
          txsByFeeAndReceiveTime :=
            emplaceSorted ⟨fee, txWeight, now, id⟩ pool.txsByFeeAndReceiveTime }.finishAddTx
              txWeight)
  else (true, pool.finishAddTx txWeight)

/-- `tx_memory_pool::add_tx` at local time `now`, with the blockchain's answers `chain`. -/
def addTx (tx : PoolTx ι) (id : κ) (txWeight : UInt64) (txRelay : RelayMethod)
    (relayed : Bool) (version : UInt8) (now : UInt64) (chain : ChainChecks) :
    Bool × TxMemoryPool κ ι :=
  let keptByBlock := txRelay = .block
  if tx.version = 0 then (false, pool)
  else if ¬ keptByBlock ∧ id ∈ pool.timedOutTransactions then (false, pool)
  -- `check_inputs_types_supported`
  else if ¬ tx.vin.all Option.isSome then (false, pool)
  else
    match tx.fee with
    | none => (false, pool)
    | some fee =>
      if ¬ keptByBlock ∧ ¬ chain.checkFee then (false, pool)
      else if (¬ keptByBlock ∨ hfVersionPerByteFee ≤ version) ∧
          getTransactionWeightLimit version < txWeight then (false, pool)
      else if ¬ keptByBlock ∧ pool.haveTxKeyimgesAsSpent tx.vin id then
        (false, { pool with table := pool.markDoubleSpend tx.vin })
      else if ¬ chain.checkTxOutputs then (false, pool)
      else if ¬ chain.checkTxInputs then
        if keptByBlock then pool.addKeptTx tx id txWeight fee now txRelay relayed
        else (false, pool)
      else pool.addCheckedTx tx id txWeight fee now txRelay relayed

/-- `take_tx`: the transaction and its meta, removed from the table, the weight, the index
and the container. The result of `remove_transaction_keyimages` is not checked. -/
def takeTx (id : κ) : Option (PoolTx ι × TxMeta) × TxMemoryPool κ ι :=
  match pool.table.lookup id with
  | none => (none, pool)
  | some (txMeta, tx) =>
    (some (tx, txMeta), { pool with
      table := removeTxpoolTx pool.table id
      txpoolWeight := pool.txpoolWeight - txMeta.weight
      spentKeyImages := (removeTransactionKeyimages id tx.vin pool.spentKeyImages).2
      txsByFeeAndReceiveTime := pool.txsByFeeAndReceiveTime.eraseP (·.id = id) })

/-- A transaction older than its livetime: three days, or a week for one kept by a block.
The age is computed in `uint64_t`. -/
def isStuck (now : UInt64) (txMeta : TxMeta) : Bool :=
  let txAge := now - txMeta.receiveTime
  (cryptonoteMempoolTxLivetime < txAge && txMeta.relayMethod != .block) ||
    (cryptonoteMempoolTxFromAltBlockLivetime < txAge && txMeta.relayMethod == .block)

/-- `remove_stuck_transactions`: the first pass takes the stuck transactions out of the
container and records them as timed out; the second removes them from the table, the weight
and the index. -/
def removeStuckTransactions (now : UInt64) : TxMemoryPool κ ι :=
  let stuck := pool.table.filter fun e => isStuck now e.2.1
  let sorted := stuck.foldl (fun sorted e => sorted.eraseP (·.id = e.1))
    pool.txsByFeeAndReceiveTime
  let timedOut := stuck.foldl (fun timedOut e =>
    if e.1 ∈ timedOut then timedOut else timedOut ++ [e.1]) pool.timedOutTransactions
  stuck.foldl (fun st e => { st with
      table := removeTxpoolTx st.table e.1
      txpoolWeight := st.txpoolWeight - e.2.1.weight
      spentKeyImages := (removeTransactionKeyimages e.1 e.2.2.vin st.spentKeyImages).2 })
    { pool with txsByFeeAndReceiveTime := sorted, timedOutTransactions := timedOut }

/-- `validate`: recount the weight from the table, then remove the transactions that are too
heavy for `version` or already in the chain (`haveTx`). A pruned transaction does not parse
as a whole and stays; the weight taken off is the one `get_transaction_weight` computes from
the transaction, `txWeight`. -/
def validate (version : UInt8) (haveTx : κ → Bool) (txWeight : PoolTx ι → UInt64) :
    ℕ × TxMemoryPool κ ι :=
  let txWeightLimit := getTransactionWeightLimit version
  let weight := pool.table.foldl (fun w e => w + e.2.1.weight) 0
  let remove := pool.table.filter fun e => txWeightLimit < e.2.1.weight || haveTx e.1
  remove.foldl (fun (acc : ℕ × TxMemoryPool κ ι) e =>
      if e.2.2.pruned then acc
      else (acc.1 + 1, { acc.2 with
        table := removeTxpoolTx acc.2.table e.1
        txpoolWeight := acc.2.txpoolWeight - txWeight e.2.2
        spentKeyImages := (removeTransactionKeyimages e.1 e.2.2.vin acc.2.spentKeyImages).2
        txsByFeeAndReceiveTime := acc.2.txsByFeeAndReceiveTime.eraseP (·.id = e.1) }))
    (0, { pool with txpoolWeight := weight })

end TxMemoryPool

end TxPool

end Wazn
