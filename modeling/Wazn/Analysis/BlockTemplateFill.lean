import Mathlib
import Wazn.Model.BlockTemplate

/-!
# What a filled block template holds (`fill_block_template`)

From version 5, `fill_block_template` puts into the block, in the order of
`m_txs_by_fee_and_receive_time`, transactions of the table that are relayed as the pool mines,
unpruned and ready. The block's weight and fees are their sums, in `size_t` and `uint64_t`,
the weight within `2 * median_weight - CRYPTONOTE_COINBASE_BLOB_RESERVED_SIZE`, and
`expected_reward` is the reward at that weight plus the fees (`fillBlockTemplate_filled`). When
every transaction of the table has only `txin_to_key` inputs, at least one, with distinct key
images, as the core's checks make them before `add_tx`, no two transactions of the block share
a key image and no txid is taken twice; otherwise `append_key_images` stops at the first input
it cannot read and the key images after it go unrecorded.

The coinbase does not only grow. A transaction goes in when the coinbase it brings is not below
`template_accept_threshold` of the best one so far, and that threshold is the best coinbase
rounded to a `float`, which can be below it: each transaction may lower the coinbase, by up to a
`2 ^ -24` part of it. With the median at the full reward zone, two transactions of 150000 and
150030 bytes paying 500 each fill a block whose reward is below that of the empty block
(`fillBlockTemplate_lowers_coinbase`).

The proofs say once what a round of the loop can do (`fillBlockTemplateStep_cases`): skip its
candidate, changing at most a `double_spend_seen` flag and the last coinbase computed, or take
it after all its checks passed. The run is then one induction
(`fillBlockTemplateLoop_induction`) over a property both keep, here `FillInv`.
-/

set_option autoImplicit false

namespace Wazn

namespace TxPool

open Cryptonote

/-- The empty block always has a reward: its weight is within any median. -/
theorem getBlockReward_zero_isSome (medianWeight alreadyGeneratedCoins : UInt64)
    (version : UInt8) : (getBlockReward medianWeight 0 alreadyGeneratedCoins version).isSome := by
  unfold getBlockReward
  by_cases hp : 0 < medianWeight ∧ alreadyGeneratedCoins < 30000000000000000 ∧ 9 ≤ version
  · rw [if_pos hp]
    rfl
  · rw [if_neg hp]
    simp only [UInt64.zero_le, ↓reduceIte, Option.isSome_some]

/-- A coinbase at least the threshold of `c` is at most `c / 2 ^ 24` below `c`, while the
rounded `c` has a `uint64_t` value. -/
theorem sub_div_le_of_templateAcceptThreshold_le {c c' : UInt64}
    (h : templateAcceptThreshold c ≤ c') (hc : c.toNat < 2 ^ 63) :
    c.toNat - c.toNat / 2 ^ 24 ≤ c'.toNat := by
  have hup := FloatRound.roundNearestEven_le_add_div 24 c.toNat
  have hdown := FloatRound.sub_div_le_roundNearestEven 24 c.toNat
  have hthreshold : (templateAcceptThreshold c).toNat = FloatRound.roundNearestEven 24 c.toNat := by
    unfold templateAcceptThreshold
    rw [UInt64.toNat_ofNat', Nat.mod_eq_of_lt (by omega)]
  rw [UInt64.le_iff_toNat_le, hthreshold] at h
  omega

section KeyImages

variable {ι : Type} [DecidableEq ι]

/-- Inputs that are all `txin_to_key`, at least one, with distinct key images: what the core
asks of a transaction before `add_tx`. -/
def KeyImagesWellFormed (vin : List (Option ι)) : Prop :=
  vin ≠ [] ∧ (∀ x ∈ vin, x.isSome) ∧ vin.Nodup

/-- Where `have_key_images` finds none, with every input `txin_to_key`, no key image of the
inputs is in the set. -/
theorem not_mem_of_haveKeyImages_eq_false {kImages : List ι} {vin : List (Option ι)}
    (h : haveKeyImages kImages vin = false) (hall : ∀ x ∈ vin, x.isSome) :
    ∀ k, some k ∈ vin → k ∉ kImages := by
  induction vin with
  | nil =>
    intro k hk
    simp at hk
  | cons x vin ih =>
    cases x with
    | none => simp at hall
    | some k' =>
      unfold haveKeyImages at h
      split_ifs at h with hk'
      intro k hk
      rcases List.mem_cons.mp hk with heq | hk
      · cases heq
        exact hk'
      · exact ih h (fun x hx => hall x (List.mem_cons_of_mem _ hx)) k hk

/-- `append_key_images` on inputs that are all `txin_to_key`, with distinct key images none of
which is in the set, adds exactly those key images. -/
theorem mem_appendKeyImages {k : ι} {vin : List (Option ι)} :
    ∀ {kImages : List ι}, (∀ x ∈ vin, x.isSome) → vin.Nodup →
      (∀ k, some k ∈ vin → k ∉ kImages) →
      (k ∈ (appendKeyImages kImages vin).2 ↔ k ∈ kImages ∨ some k ∈ vin) := by
  induction vin with
  | nil =>
    intro kImages _ _ _
    simp [appendKeyImages]
  | cons x vin ih =>
    intro kImages hall hnodup hfresh
    cases x with
    | none => simp at hall
    | some k' =>
      obtain ⟨hk'vin, hnodup'⟩ := List.nodup_cons.mp hnodup
      have hk' : k' ∉ kImages := hfresh k' List.mem_cons_self
      -- the rest of the inputs is fresh for the set with `k'` inserted
      have hfresh' : ∀ k, some k ∈ vin → k ∉ kImages ++ [k'] := by
        intro k hk hmem
        rcases List.mem_append.mp hmem with hmem | hmem
        · exact hfresh k (List.mem_cons_of_mem _ hk) hmem
        · rw [List.mem_singleton] at hmem
          exact hk'vin (hmem ▸ hk)
      rw [appendKeyImages, if_neg hk',
        ih (fun x hx => hall x (List.mem_cons_of_mem _ hx)) hnodup' hfresh']
      simp only [List.mem_append, List.mem_cons, Option.some.injEq]
      tauto

end KeyImages

section Table

variable {κ ι : Type} [DecidableEq κ]

theorem lookup_updateTxpoolTx_of_ne (table : List (κ × TxMeta × PoolTx ι)) {id id' : κ}
    (hne : id' ≠ id) (txMeta : TxMeta) :
    (updateTxpoolTx table id txMeta).lookup id' = table.lookup id' := by
  induction table with
  | nil => rfl
  | cons e table ih =>
    unfold updateTxpoolTx at ih ⊢
    rw [List.map_cons]
    by_cases he : e.1 = id
    · rw [if_pos he]
      have hb : (id' == e.1) = false := beq_false_of_ne fun h => hne (h ▸ he)
      simp only [List.lookup, hb, ih]
    · rw [if_neg he]
      simp only [List.lookup, ih]

theorem mem_of_lookup_eq_some {table : List (κ × TxMeta × PoolTx ι)} {id : κ}
    {e : TxMeta × PoolTx ι} (h : table.lookup id = some e) : (id, e) ∈ table := by
  obtain ⟨l₁, l₂, rfl, -⟩ := List.lookup_eq_some_iff.mp h
  simp

end Table

section Fill

variable {κ ι : Type} [DecidableEq κ] [DecidableEq ι]
variable (mineStemTxes : Bool) (readiness : κ → Readiness)
  (medianWeight alreadyGeneratedCoins : UInt64) (version : UInt8)

/-- The coinbase of a block holding `chosen`: the reward at their total weight plus their
fees, in `uint64_t`, where the reward is defined. -/
def templateCoinbase (chosen : List (κ × TxMeta × PoolTx ι)) : Option UInt64 :=
  (getBlockReward medianWeight (chosen.map (·.2.1.weight)).sum alreadyGeneratedCoins
    version).map (· + (chosen.map (·.2.1.fee)).sum)

omit [DecidableEq κ] [DecidableEq ι] in
theorem templateCoinbase_concat (chosen : List (κ × TxMeta × PoolTx ι))
    (e : κ × TxMeta × PoolTx ι) :
    templateCoinbase medianWeight alreadyGeneratedCoins version (chosen ++ [e]) =
      (getBlockReward medianWeight ((chosen.map (·.2.1.weight)).sum + e.2.1.weight)
        alreadyGeneratedCoins version).map (· + ((chosen.map (·.2.1.fee)).sum + e.2.1.fee)) := by
  simp [templateCoinbase]

/-- A transaction of the table as the loop takes it: in the table, relayed in the legacy way
or in the stem phase when the pool mines stem transactions, unpruned, and found ready. -/
def Taken (table : List (κ × TxMeta × PoolTx ι)) (e : κ × TxMeta × PoolTx ι) : Prop :=
  table.lookup e.1 = some e.2 ∧
    (matchesCategory e.2.1.relayMethod .legacy = true ∨
      mineStemTxes = true ∧ e.2.1.relayMethod = .stem) ∧
    e.2.1.pruned = false ∧ readiness e.1 = .ready

/-- The coinbase with `e` after the transactions `pre` is at least the threshold of the one
with `pre` alone. -/
def AcceptedAfter (pre : List (κ × TxMeta × PoolTx ι)) (e : κ × TxMeta × PoolTx ι) : Prop :=
  ∃ c c', templateCoinbase medianWeight alreadyGeneratedCoins version pre = some c ∧
    templateCoinbase medianWeight alreadyGeneratedCoins version (pre ++ [e]) = some c' ∧
    templateAcceptThreshold c ≤ c'

/-- A round that leaves the block as it was: the txids, weight, fees, best coinbase and key
images are kept, and at every txid found ready the table holds what it held. -/
structure Skips (st st' : FillState κ ι) : Prop where
  txHashes : st'.txHashes = st.txHashes
  totalWeight : st'.totalWeight = st.totalWeight
  fee : st'.fee = st.fee
  bestCoinbase : st'.bestCoinbase = st.bestCoinbase
  kImages : st'.kImages = st.kImages
  table : ∀ id, readiness id = .ready → st'.table.lookup id = st.table.lookup id

omit [DecidableEq ι] in
theorem Skips.refl (st : FillState κ ι) : Skips readiness st st :=
  ⟨rfl, rfl, rfl, rfl, rfl, fun _ _ => rfl⟩

omit [DecidableEq ι] in
theorem Skips.trans {readiness : κ → Readiness} {st st' st'' : FillState κ ι}
    (h : Skips readiness st st') (h' : Skips readiness st' st'') : Skips readiness st st'' :=
  ⟨h'.txHashes.trans h.txHashes, h'.totalWeight.trans h.totalWeight, h'.fee.trans h.fee,
    h'.bestCoinbase.trans h.bestCoinbase, h'.kImages.trans h.kImages,
    fun id hid => (h'.table id hid).trans (h.table id hid)⟩

omit [DecidableEq ι] in
/-- Computing a coinbase leaves the block as it was. -/
theorem Skips.withCoinbase (st : FillState κ ι) (coinbase : UInt64) :
    Skips readiness st { st with coinbase } :=
  ⟨rfl, rfl, rfl, rfl, rfl, fun _ _ => rfl⟩

/-- The variables after the candidate `id`, with its meta and transaction, goes into the
block with the coinbase `coinbase`. -/
def FillState.accept (st : FillState κ ι) (id : κ) (txMeta : TxMeta) (tx : PoolTx ι)
    (coinbase : UInt64) : FillState κ ι :=
  { st with
    txHashes := st.txHashes ++ [id]
    totalWeight := st.totalWeight + txMeta.weight
    fee := st.fee + txMeta.fee
    bestCoinbase := coinbase
    coinbase := coinbase
    kImages := (appendKeyImages st.kImages tx.vin).2 }

/-- The checks a candidate passed in a round from version 5 that took it, with the reward at
the new weight. -/
structure Accepts (id : κ) (txMeta : TxMeta) (tx : PoolTx ι) (blockReward : UInt64)
    (st : FillState κ ι) : Prop where
  lookup : st.table.lookup id = some (txMeta, tx)
  relay : matchesCategory txMeta.relayMethod .legacy = true ∨
    mineStemTxes = true ∧ txMeta.relayMethod = .stem
  unpruned : txMeta.pruned = false
  weightLe : st.totalWeight + txMeta.weight ≤ maxTotalWeight medianWeight version
  reward : getBlockReward medianWeight (st.totalWeight + txMeta.weight) alreadyGeneratedCoins
    version = some blockReward
  threshold : templateAcceptThreshold st.bestCoinbase ≤ blockReward + st.fee + txMeta.fee
  ready : readiness id = .ready
  fresh : haveKeyImages st.kImages tx.vin = false

/-- The end of a round leaves the block as it was, or takes the candidate, found ready and
with no key image already in the block. -/
theorem includeTx_cases (id : κ) (txMeta : TxMeta) (tx : PoolTx ι) (st : FillState κ ι) :
    Skips readiness st (includeTx readiness id txMeta tx st) ∨
      readiness id = .ready ∧ haveKeyImages st.kImages tx.vin = false ∧
        includeTx readiness id txMeta tx st = st.accept id txMeta tx st.coinbase := by
  unfold includeTx
  cases hready : readiness id with
  | notReady =>
    simp only []
    exact .inl (Skips.refl readiness st)
  | spentInChain =>
    simp only []
    left
    split
    · exact Skips.refl readiness st
    · -- `update_txpool_tx` writes the meta of `id` only, which is not found ready
      refine ⟨rfl, rfl, rfl, rfl, rfl, fun id' hid' => ?_⟩
      have hne : id' ≠ id := by
        rintro rfl
        rw [hready] at hid'
        cases hid'
      exact lookup_updateTxpoolTx_of_ne st.table hne _
  | ready =>
    simp only []
    by_cases hkeys : haveKeyImages st.kImages tx.vin = true
    · left
      rw [if_pos hkeys]
      exact Skips.refl readiness st
    · right
      refine ⟨trivial, by simpa using hkeys, ?_⟩
      rw [if_neg hkeys]
      rfl

/-- A round from version 5 never breaks: it skips its candidate, or takes it after all its
checks passed, with the coinbase at the new weight. -/
theorem fillBlockTemplateStep_cases (hv : 5 ≤ version) {id : κ} {st st' : FillState κ ι}
    {brk : Bool}
    (h : fillBlockTemplateStep mineStemTxes readiness medianWeight alreadyGeneratedCoins version
      id st = (st', brk)) :
    brk = false ∧
      (Skips readiness st st' ∨
        ∃ txMeta tx blockReward,
          Accepts mineStemTxes readiness medianWeight alreadyGeneratedCoins version id txMeta tx
            blockReward st ∧
          st' = st.accept id txMeta tx (blockReward + st.fee + txMeta.fee)) := by
  unfold fillBlockTemplateStep at h
  rcases hlookup : st.table.lookup id with _ | ⟨txMeta, tx⟩ <;> rw [hlookup] at h
  · -- no meta for the txid
    cases h
    exact ⟨rfl, .inl (Skips.refl readiness st)⟩
  dsimp only at h
  split_ifs at h with hrelay hpruned hweight
  · cases h
    exact ⟨rfl, .inl (Skips.refl readiness st)⟩
  · cases h
    exact ⟨rfl, .inl (Skips.refl readiness st)⟩
  · cases h
    exact ⟨rfl, .inl (Skips.refl readiness st)⟩
  · rcases hreward : getBlockReward medianWeight (st.totalWeight + txMeta.weight)
      alreadyGeneratedCoins version with _ | blockReward <;> rw [hreward] at h
    · -- no reward at the new weight
      cases h
      exact ⟨rfl, .inl (Skips.refl readiness st)⟩
    dsimp only at h
    split_ifs at h with hthreshold
    · -- the coinbase would fall below the threshold
      cases h
      exact ⟨rfl, .inl (Skips.withCoinbase readiness st _)⟩
    · cases h
      refine ⟨rfl, ?_⟩
      rcases includeTx_cases readiness id txMeta tx
          { st with coinbase := blockReward + st.fee + txMeta.fee } with
        hskip | ⟨hready, hfresh, hnext⟩
      · exact .inl ((Skips.withCoinbase readiness st _).trans hskip)
      · refine .inr ⟨txMeta, tx, blockReward, ⟨hlookup, ?_, by simpa using hpruned,
          UInt64.not_lt.mp hweight, hreward, UInt64.not_lt.mp hthreshold, hready, hfresh⟩, hnext⟩
        cases hm : matchesCategory txMeta.relayMethod .legacy <;> simp_all

/-- The loop from version 5 as one induction: a property of the variables and of the
transactions taken, kept by every round that skips its candidate and by every round that takes
it, holds after the loop, whose new transactions are taken in the order of the container. -/
theorem fillBlockTemplateLoop_induction (hv : 5 ≤ version)
    (P : FillState κ ι → List (κ × TxMeta × PoolTx ι) → Prop)
    (hskip : ∀ {st st' chosen}, Skips readiness st st' → P st chosen → P st' chosen)
    (haccept : ∀ {st chosen id txMeta tx blockReward},
      Accepts mineStemTxes readiness medianWeight alreadyGeneratedCoins version id txMeta tx
        blockReward st → P st chosen →
      P (st.accept id txMeta tx (blockReward + st.fee + txMeta.fee))
        (chosen ++ [(id, txMeta, tx)])) :
    ∀ (sorted : List (SortedEntry κ)) (st : FillState κ ι) (chosen : List (κ × TxMeta × PoolTx ι)),
      P st chosen →
      ∃ more, P (fillBlockTemplateLoop mineStemTxes readiness medianWeight alreadyGeneratedCoins
          version sorted st) (chosen ++ more) ∧
        (more.map (·.1)).Sublist (sorted.map (·.id)) := by
  intro sorted
  induction sorted with
  | nil =>
    intro st chosen hP
    exact ⟨[], by simpa [fillBlockTemplateLoop] using hP, List.Sublist.slnil⟩
  | cons entry sorted ih =>
    intro st chosen hP
    rcases hres : fillBlockTemplateStep mineStemTxes readiness medianWeight alreadyGeneratedCoins
      version entry.id st with ⟨st', brk⟩
    obtain ⟨rfl, hcases⟩ :=
      fillBlockTemplateStep_cases mineStemTxes readiness medianWeight alreadyGeneratedCoins
        version hv hres
    have hloop : fillBlockTemplateLoop mineStemTxes readiness medianWeight alreadyGeneratedCoins
        version (entry :: sorted) st =
        fillBlockTemplateLoop mineStemTxes readiness medianWeight alreadyGeneratedCoins version
          sorted st' := by
      simp only [fillBlockTemplateLoop, hres]
    rw [hloop]
    rcases hcases with hskip' | ⟨txMeta, tx, blockReward, hacc, rfl⟩
    · obtain ⟨more, hP', hsub⟩ := ih st' chosen (hskip hskip' hP)
      exact ⟨more, hP', hsub.cons _⟩
    · obtain ⟨more, hP', hsub⟩ := ih _ _ (haccept hacc hP)
      refine ⟨(entry.id, txMeta, tx) :: more, by simpa using hP', ?_⟩
      simpa using hsub.cons_cons entry.id

/-- What the loop from version 5 keeps of the transactions `chosen` it has taken from the
table `table₀` it started with. -/
structure FillInv (table₀ : List (κ × TxMeta × PoolTx ι)) (st : FillState κ ι)
    (chosen : List (κ × TxMeta × PoolTx ι)) : Prop where
  tableKept : ∀ id, readiness id = .ready → st.table.lookup id = table₀.lookup id
  txHashes : st.txHashes = chosen.map (·.1)
  taken : ∀ e ∈ chosen, Taken mineStemTxes readiness table₀ e
  totalWeight : st.totalWeight = (chosen.map (·.2.1.weight)).sum
  fee : st.fee = (chosen.map (·.2.1.fee)).sum
  weightLe : st.totalWeight ≤ maxTotalWeight medianWeight version
  bestCoinbase : templateCoinbase medianWeight alreadyGeneratedCoins version chosen =
    some st.bestCoinbase
  accepted : ∀ pre e, pre ++ [e] <+: chosen →
    AcceptedAfter medianWeight alreadyGeneratedCoins version pre e
  kImages : (∀ e ∈ table₀, KeyImagesWellFormed e.2.2.vin) →
    ∀ k, k ∈ st.kImages ↔ ∃ e ∈ chosen, some k ∈ e.2.2.vin
  disjoint : (∀ e ∈ table₀, KeyImagesWellFormed e.2.2.vin) →
    chosen.Pairwise fun a b => ∀ k, some k ∈ a.2.2.vin → some k ∉ b.2.2.vin

variable {mineStemTxes readiness medianWeight alreadyGeneratedCoins version}

omit [DecidableEq ι] in
/-- Before the loop: nothing taken, and the best coinbase is the empty block's reward. -/
theorem FillInv.init (table₀ : List (κ × TxMeta × PoolTx ι)) {bestCoinbase : UInt64}
    (hempty : getBlockReward medianWeight 0 alreadyGeneratedCoins version = some bestCoinbase) :
    FillInv mineStemTxes readiness medianWeight alreadyGeneratedCoins version table₀
      { txHashes := [], totalWeight := 0, fee := 0, bestCoinbase, coinbase := 0, kImages := [],
        table := table₀ } [] where
  tableKept _ _ := rfl
  txHashes := rfl
  taken e he := by simp at he
  totalWeight := rfl
  fee := rfl
  weightLe := UInt64.zero_le
  bestCoinbase := by simp [templateCoinbase, hempty]
  accepted pre e he := by simp at he
  kImages _ k := by simp
  disjoint _ := List.Pairwise.nil

omit [DecidableEq ι] in
theorem FillInv.skip {table₀ : List (κ × TxMeta × PoolTx ι)} {st st' : FillState κ ι}
    {chosen : List (κ × TxMeta × PoolTx ι)} (h : Skips readiness st st')
    (hinv : FillInv mineStemTxes readiness medianWeight alreadyGeneratedCoins version table₀ st
      chosen) :
    FillInv mineStemTxes readiness medianWeight alreadyGeneratedCoins version table₀ st'
      chosen where
  tableKept id hid := (h.table id hid).trans (hinv.tableKept id hid)
  txHashes := h.txHashes.trans hinv.txHashes
  taken := hinv.taken
  totalWeight := h.totalWeight.trans hinv.totalWeight
  fee := h.fee.trans hinv.fee
  weightLe := h.totalWeight ▸ hinv.weightLe
  bestCoinbase := h.bestCoinbase ▸ hinv.bestCoinbase
  accepted := hinv.accepted
  kImages hwf := h.kImages ▸ hinv.kImages hwf
  disjoint := hinv.disjoint

theorem FillInv.accept {table₀ : List (κ × TxMeta × PoolTx ι)} {st : FillState κ ι}
    {chosen : List (κ × TxMeta × PoolTx ι)} {id : κ} {txMeta : TxMeta} {tx : PoolTx ι}
    {blockReward : UInt64}
    (hacc : Accepts mineStemTxes readiness medianWeight alreadyGeneratedCoins version id txMeta tx
      blockReward st)
    (hinv : FillInv mineStemTxes readiness medianWeight alreadyGeneratedCoins version table₀ st
      chosen) :
    FillInv mineStemTxes readiness medianWeight alreadyGeneratedCoins version table₀
      (st.accept id txMeta tx (blockReward + st.fee + txMeta.fee))
      (chosen ++ [(id, txMeta, tx)]) := by
  -- the candidate's entry is the one of the table the loop started with
  have hlookup₀ : table₀.lookup id = some (txMeta, tx) :=
    (hinv.tableKept id hacc.ready).symm.trans hacc.lookup
  have hcoinbase : templateCoinbase medianWeight alreadyGeneratedCoins version
      (chosen ++ [(id, txMeta, tx)]) = some (blockReward + st.fee + txMeta.fee) := by
    rw [templateCoinbase_concat, ← hinv.totalWeight, ← hinv.fee, hacc.reward, Option.map_some,
      UInt64.add_assoc]
  -- with well-formed inputs, the key images of the candidate are new to the block
  have hfresh (hwf : ∀ e ∈ table₀, KeyImagesWellFormed e.2.2.vin) :
      KeyImagesWellFormed tx.vin ∧ ∀ k, some k ∈ tx.vin → k ∉ st.kImages := by
    have htx := hwf _ (mem_of_lookup_eq_some hlookup₀)
    exact ⟨htx, not_mem_of_haveKeyImages_eq_false hacc.fresh htx.2.1⟩
  refine ⟨fun id' hid' => hinv.tableKept id' hid', ?_, ?_, ?_, ?_, ?_, hcoinbase, ?_, ?_, ?_⟩
  · simp [FillState.accept, hinv.txHashes]
  · intro e he
    rcases List.mem_append.mp he with he | he
    · exact hinv.taken e he
    · rw [List.mem_singleton] at he
      subst he
      exact ⟨hlookup₀, hacc.relay, hacc.unpruned, hacc.ready⟩
  · simp [FillState.accept, hinv.totalWeight]
  · simp [FillState.accept, hinv.fee]
  · exact hacc.weightLe
  · intro pre e he
    rcases List.prefix_concat_iff.mp he with he | he
    · -- the candidate itself, after all those taken before it
      obtain ⟨rfl, hlast⟩ := List.append_inj' he rfl
      rw [List.singleton_inj] at hlast
      subst hlast
      exact ⟨st.bestCoinbase, _, hinv.bestCoinbase, hcoinbase, hacc.threshold⟩
    · exact hinv.accepted pre e he
  · intro hwf k
    obtain ⟨htx, hnew⟩ := hfresh hwf
    rw [FillState.accept, mem_appendKeyImages htx.2.1 htx.2.2 hnew, hinv.kImages hwf k]
    simp only [List.mem_append, List.mem_singleton]
    constructor
    · rintro (⟨e, he, hk⟩ | hk)
      · exact ⟨e, .inl he, hk⟩
      · exact ⟨_, .inr rfl, hk⟩
    · rintro ⟨e, he | rfl, hk⟩
      · exact .inl ⟨e, he, hk⟩
      · exact .inr hk
  · intro hwf
    obtain ⟨-, hnew⟩ := hfresh hwf
    refine List.pairwise_append.mpr ⟨hinv.disjoint hwf, List.pairwise_singleton _ _, ?_⟩
    intro a ha b hb k hka
    rw [List.mem_singleton] at hb
    subst hb
    exact fun hkb => hnew k hkb ((hinv.kImages hwf k).mpr ⟨a, ha, hka⟩)

variable (mineStemTxes readiness medianWeight alreadyGeneratedCoins version)

/-- What `fill_block_template` gives from version 5, with `chosen` the transactions it put into
the block, each with its meta and transaction as the table holds them. -/
structure FilledTemplate (pool : TxMemoryPool κ ι) (fill : BlockTemplateFill κ)
    (chosen : List (κ × TxMeta × PoolTx ι)) : Prop where
  /-- their txids, in the order of `m_txs_by_fee_and_receive_time` -/
  txHashes : fill.txHashes = chosen.map (·.1)
  sublist : fill.txHashes.Sublist (pool.txsByFeeAndReceiveTime.map (·.id))
  /-- each in the table, relayed as the pool mines, unpruned and found ready -/
  taken : ∀ e ∈ chosen, Taken mineStemTxes readiness pool.table e
  /-- the weight and the fees, summed as the source sums them -/
  totalWeight : fill.totalWeight = (chosen.map (·.2.1.weight)).sum
  weightLe : fill.totalWeight ≤ 2 * medianWeight - cryptonoteCoinbaseBlobReservedSize
  fee : fill.fee = (chosen.map (·.2.1.fee)).sum
  /-- `expected_reward` is the reward at that weight, plus the fees -/
  expectedReward : ∃ reward,
    getBlockReward medianWeight fill.totalWeight alreadyGeneratedCoins version = some reward ∧
      fill.expectedReward = reward + fill.fee
  /-- each transaction brings a coinbase at least the threshold of the one before it, so no
  more than a `2 ^ -24` part below it -/
  accepted : ∀ pre e, pre ++ [e] <+: chosen →
    ∃ c c', templateCoinbase medianWeight alreadyGeneratedCoins version pre = some c ∧
      templateCoinbase medianWeight alreadyGeneratedCoins version (pre ++ [e]) = some c' ∧
      templateAcceptThreshold c ≤ c' ∧ (c.toNat < 2 ^ 63 → c.toNat - c.toNat / 2 ^ 24 ≤ c'.toNat)
  /-- with well-formed inputs, no txid twice and no key image in two transactions -/
  keyImages : (∀ e ∈ pool.table, KeyImagesWellFormed e.2.2.vin) →
    fill.txHashes.Nodup ∧ chosen.Pairwise fun a b => ∀ k, some k ∈ a.2.2.vin → some k ∉ b.2.2.vin

variable {mineStemTxes readiness medianWeight alreadyGeneratedCoins version}

omit [DecidableEq ι] in
/-- Two transactions taken with the same txid are the same entry of the table, so with
well-formed inputs they share their key images. -/
theorem txid_ne_of_disjoint {table : List (κ × TxMeta × PoolTx ι)}
    (hwf : ∀ e ∈ table, KeyImagesWellFormed e.2.2.vin) {a b : κ × TxMeta × PoolTx ι}
    (ha : Taken mineStemTxes readiness table a) (hb : Taken mineStemTxes readiness table b)
    (hdisjoint : ∀ k, some k ∈ a.2.2.vin → some k ∉ b.2.2.vin) : a.1 ≠ b.1 := by
  intro hid
  have hsame : a.2 = b.2 := Option.some.inj (ha.1.symm.trans (hid ▸ hb.1))
  obtain ⟨hne, hall, -⟩ := hwf _ (mem_of_lookup_eq_some ha.1)
  obtain ⟨x, hx⟩ := List.exists_mem_of_ne_nil _ hne
  obtain ⟨k, rfl⟩ := Option.isSome_iff_exists.mp (hall x hx)
  exact hdisjoint k hx (hsame ▸ hx)

omit [DecidableEq ι] in
/-- The invariant at the end of the loop is what the filled template promises. -/
theorem FillInv.filledTemplate (hv : 5 ≤ version) {pool : TxMemoryPool κ ι}
    {st : FillState κ ι} {chosen : List (κ × TxMeta × PoolTx ι)}
    (hinv : FillInv mineStemTxes readiness medianWeight alreadyGeneratedCoins version pool.table
      st chosen)
    (hsub : (chosen.map (·.1)).Sublist (pool.txsByFeeAndReceiveTime.map (·.id))) :
    FilledTemplate mineStemTxes readiness medianWeight alreadyGeneratedCoins version pool
      ⟨st.txHashes, st.totalWeight, st.fee, st.bestCoinbase⟩ chosen where
  txHashes := hinv.txHashes
  sublist := hinv.txHashes ▸ hsub
  taken := hinv.taken
  totalWeight := hinv.totalWeight
  weightLe := by
    have hweight := hinv.weightLe
    rwa [maxTotalWeight, if_pos hv] at hweight
  fee := hinv.fee
  expectedReward := by
    have hbest := hinv.bestCoinbase
    rw [templateCoinbase, ← hinv.totalWeight, ← hinv.fee, Option.map_eq_some_iff] at hbest
    obtain ⟨reward, hreward, hsum⟩ := hbest
    exact ⟨reward, hreward, hsum.symm⟩
  accepted pre e he := by
    obtain ⟨c, c', hc, hc', hthreshold⟩ := hinv.accepted pre e he
    exact ⟨c, c', hc, hc', hthreshold, sub_div_le_of_templateAcceptThreshold_le hthreshold⟩
  keyImages hwf := by
    have hdisjoint := hinv.disjoint hwf
    refine ⟨?_, hdisjoint⟩
    rw [hinv.txHashes, List.Nodup, List.pairwise_map]
    exact hdisjoint.imp_of_mem fun ha hb hab =>
      txid_ne_of_disjoint hwf (hinv.taken _ ha) (hinv.taken _ hb) hab

variable (mineStemTxes readiness medianWeight alreadyGeneratedCoins version)

/-- From version 5, `fill_block_template` returns `true`, and the block it fills holds
transactions of the pool, taken in the container's order, relayed as the pool mines, unpruned
and ready, within the maximum weight, with `expected_reward` the reward at their weight plus
their fees; each brought a coinbase at least the threshold of the one before. -/
theorem fillBlockTemplate_filled (pool : TxMemoryPool κ ι) (hv : 5 ≤ version) :
    ∃ fill pool', pool.fillBlockTemplate mineStemTxes readiness medianWeight
        alreadyGeneratedCoins version = some (fill, pool') ∧
      ∃ chosen, FilledTemplate mineStemTxes readiness medianWeight alreadyGeneratedCoins
        version pool fill chosen := by
  obtain ⟨bestCoinbase, hempty⟩ := Option.isSome_iff_exists.mp
    (getBlockReward_zero_isSome medianWeight alreadyGeneratedCoins version)
  obtain ⟨chosen, hinv, hsub⟩ :=
    fillBlockTemplateLoop_induction mineStemTxes readiness medianWeight alreadyGeneratedCoins
      version hv (FillInv mineStemTxes readiness medianWeight alreadyGeneratedCoins version
        pool.table) (fun hskip hinv => hinv.skip hskip) (fun hacc hinv => hinv.accept hacc)
      pool.txsByFeeAndReceiveTime _ [] (FillInv.init pool.table hempty)
  rw [List.nil_append] at hinv
  refine ⟨_, ?pool, ?run, chosen, hinv.filledTemplate hv hsub⟩
  case run =>
    unfold TxMemoryPool.fillBlockTemplate
    rw [hempty]

end Fill

/-- A transaction of the pool with one input, of key image `k`, paying 500 in its RingCT
fee. -/
def oneInputTx (k : ℕ) : PoolTx ℕ :=
  { version := 2, vin := [some k], inputsAmount := none, outputsAmount := 0, txnFee := 500,
    pruned := false }

/-- An empty pool, with room for 648 MB of transactions. -/
def emptyTxPool : TxMemoryPool ℕ ℕ :=
  { table := [], spentKeyImages := [], txsByFeeAndReceiveTime := [], txpoolWeight := 0,
    txpoolMaxWeight := 648000000, timedOutTransactions := [] }

/-- The pool after `add_tx` at version 5 of a transaction of 150000 bytes, then of one of
150030 bytes, both paying 500, fluffed, and passing the checks of the chain. -/
def twoTxPool : TxMemoryPool ℕ ℕ :=
  ((emptyTxPool.addTx (oneInputTx 10) 0 150000 .fluff true 5 1 ⟨true, true, true⟩).2.addTx
    (oneInputTx 11) 1 150030 .fluff true 5 2 ⟨true, true, true⟩).2

theorem fillBlockTemplate_filled_twoTxPool :
    5 ≤ (5 : UInt8) ∧
      ∃ fill pool', twoTxPool.fillBlockTemplate false (fun _ => .ready) 300000 0 5 =
          some (fill, pool') ∧
        ∃ chosen, FilledTemplate false (fun _ => .ready) 300000 0 5 twoTxPool fill chosen :=
  ⟨by decide, fillBlockTemplate_filled false (fun _ => .ready) 300000 0 5 twoTxPool (by decide)⟩

/-- At the full reward zone of version 5 with no coins generated, the empty block's reward is
190734863281, which rounds down to a `float` 2993 below it. The first transaction of
`twoTxPool` leaves the block penalty free and raises the coinbase by its fee, to
190734864281 less 500; the second takes the block 30 bytes past the median, whose penalty of
about 1907 is more than its fee, and still goes in: the block's `expected_reward` ends below
both the coinbase before it and the empty block's reward. -/
theorem fillBlockTemplate_lowers_coinbase :
    getBlockReward 300000 0 0 5 = some 190734863281 ∧
      getBlockReward 300000 150000 0 5 = some 190734863281 ∧
      (twoTxPool.fillBlockTemplate false (fun _ => .ready) 300000 0 5).map Prod.fst =
        some ⟨[0, 1], 300030, 1000, 190734862373⟩ ∧
      (190734862373 : UInt64) < 190734863281 + 500 ∧ (190734862373 : UInt64) < 190734863281 :=
  ⟨by decide, by decide, by decide, by decide, by decide⟩

end TxPool

end Wazn
