import Wazn.Library.StateMachine
import Wazn.Model.BlockQueue

/-!
# The block queue over every run

`Inv` is what holds of every queue a node reaches from an empty one by the calls that change it:

* the spans are in strictly increasing order of start height, so a height names at most one span
  (`std::set` under `span::operator<`);
* every hash had is requested (`have_blocks ⊆ requested_hashes`);
* every requested hash is a hash of some span of the set.

Each call keeps it (`next_inv`), so every reachable queue has it (`reachable_inv`). The one call
that is not a sequence of calls that keep it is `add_blocks` of received blocks: `remove_span`
drops the hashes of the span it replaces, `add_blocks` requests them again, and only
`set_span_hashes` gives them back to a span. `setSpanHashes_inv_of_find` is stated for that
middle state.

`reserve_span` reserves nothing, or schedules a span of at most `max_blocks` blocks from the
first hash not requested at or after where it starts looking, blocks that the peer has (or, when
pruned blocks are synced, whose pruning for this node is the same), and requests their hashes
(`reserveSpan_spec`). When a span of another connection already starts at that height, the set
does not take the new span and the queue is left as it was, although the span is returned as
reserved.

The loop shared by `flush_spans`, `flush_stale_spans` and `remove_spans` erases exactly the
spans its test accepts and exactly their hashes (`eraseSpansWhere_spec`); since
`requested_hashes` is one set for all spans, a hash that another span still holds is dropped
with them.
-/

set_option autoImplicit false

namespace Wazn

namespace Cryptonote

namespace BlockQueue

open OrderedSet

variable {H C B : Type}

/-- What holds of every reachable queue. -/
structure Inv (q : BlockQueue H C B) : Prop where
  sorted : Sorted spanKey q.blocks
  have_subset : q.haveBlocks ⊆ q.requestedHashes
  requested_mem : ∀ h ∈ q.requestedHashes, ∃ s ∈ q.blocks, h ∈ s.hashes

theorem empty_inv : Inv (empty : BlockQueue H C B) where
  sorted := List.Pairwise.nil
  have_subset := Finset.Subset.refl _
  requested_mem h hh := absurd hh (Finset.notMem_empty h)

/-! ## Erasing and inserting spans -/

theorem spanKey_ne_iff {s t : Span H C B} :
    spanKey s ≠ spanKey t ↔ s.startBlockHeight ≠ t.startBlockHeight :=
  not_congr UInt64.toNat_inj

/-- Inserting a span into the set keeps the invariant, whether the set takes it or not. -/
theorem insertSpan_inv {q : BlockQueue H C B} (hq : Inv q) (s : Span H C B) :
    Inv { q with blocks := insertSpan s q.blocks } where
  sorted := sorted_insert s hq.sorted
  have_subset := hq.have_subset
  requested_mem h hh := by
    obtain ⟨t, ht, hht⟩ := hq.requested_mem h hh
    exact ⟨t, mem_insert_of_mem ht, hht⟩

theorem addBlocksOfCount_inv {q q' : BlockQueue H C B} (hq : Inv q) {height nblocks : UInt64}
    {connectionId : C} (h : q.addBlocksOfCount height nblocks connectionId = .ok q') : Inv q' := by
  unfold addBlocksOfCount at h
  split_ifs at h
  cases h
  exact insertSpan_inv hq _

variable [DecidableEq H] [DecidableEq C] [DecidableEq B]

theorem eraseBlock_blocks (q : BlockQueue H C B) (j : Span H C B) :
    (q.eraseBlock j).blocks = q.blocks.erase j := rfl

theorem mem_requestedHashes_eraseBlock {q : BlockQueue H C B} {j : Span H C B} {h : H} :
    h ∈ (q.eraseBlock j).requestedHashes ↔ h ∈ q.requestedHashes ∧ h ∉ j.hashes :=
  mem_foldl_erase h j.hashes q.requestedHashes

theorem mem_haveBlocks_eraseBlock {q : BlockQueue H C B} {j : Span H C B} {h : H} :
    h ∈ (q.eraseBlock j).haveBlocks ↔ h ∈ q.haveBlocks ∧ h ∉ j.hashes :=
  mem_foldl_erase h j.hashes q.haveBlocks

/-- `erase_block` keeps the invariant: a requested hash it keeps is outside the erased span, so
the span that holds it is another one. -/
theorem eraseBlock_inv {q : BlockQueue H C B} (hq : Inv q) (j : Span H C B) :
    Inv (q.eraseBlock j) where
  sorted := hq.sorted.erase j
  have_subset := by
    intro h hh
    rw [mem_haveBlocks_eraseBlock] at hh
    exact mem_requestedHashes_eraseBlock.mpr ⟨hq.have_subset hh.1, hh.2⟩
  requested_mem := by
    intro h hh
    rw [mem_requestedHashes_eraseBlock] at hh
    obtain ⟨s, hs, hhs⟩ := hq.requested_mem h hh.1
    have hsj : s ≠ j := by
      rintro rfl
      exact hh.2 hhs
    exact ⟨s, (List.mem_erase_of_ne hsj).mpr hs, hhs⟩

theorem removeSpan_inv {q : BlockQueue H C B} (hq : Inv q) (startBlockHeight : UInt64) :
    Inv (q.removeSpan startBlockHeight).2 := by
  unfold removeSpan
  split
  · exact eraseBlock_inv hq _
  · exact hq

theorem eraseSpansWhere_inv {q : BlockQueue H C B} (hq : Inv q) (p : Span H C B → Bool) :
    Inv (q.eraseSpansWhere p) := by
  refine StateMachine.foldl_invariant (fun q j hq => ?_) q.blocks q hq
  split
  · exact eraseBlock_inv hq j
  · exact hq

/-! ## `set_span_hashes` and `add_blocks` -/

omit [DecidableEq H] [DecidableEq B] in
/-- The span `set_span_hashes` finds is one of the set, of its height and connection. -/
theorem find?_span_eq_some {l : List (Span H C B)} {startHeight : UInt64} {connectionId : C}
    {s : Span H C B} (hfind : l.find?
      (fun i => i.startBlockHeight == startHeight && i.connectionId == connectionId) = some s) :
    s ∈ l ∧ s.startBlockHeight = startHeight ∧ s.connectionId = connectionId := by
  have h := List.find?_some hfind
  simp only [Bool.and_eq_true, beq_iff_eq] at h
  exact ⟨List.mem_of_find?_eq_some hfind, h⟩

/-- What `set_span_hashes` does when it finds its span `s`: `s` with the new hashes takes its
place, its old hashes are neither requested nor had any more, and the new ones are requested. -/
theorem setSpanHashes_found {q : BlockQueue H C B} {startHeight : UInt64} {connectionId : C}
    (hashes : List H) {s : Span H C B} (hsorted : Sorted spanKey q.blocks)
    (hfind : q.blocks.find?
      (fun i => i.startBlockHeight == startHeight && i.connectionId == connectionId) = some s) :
    (∀ t, t ∈ (q.setSpanHashes startHeight connectionId hashes).blocks ↔
        t = { s with hashes := hashes } ∨ t ∈ q.blocks ∧ t.startBlockHeight ≠ startHeight) ∧
      ∀ h, (h ∈ (q.setSpanHashes startHeight connectionId hashes).requestedHashes ↔
          h ∈ q.requestedHashes ∧ h ∉ s.hashes ∨ h ∈ hashes) ∧
        (h ∈ (q.setSpanHashes startHeight connectionId hashes).haveBlocks ↔
          h ∈ q.haveBlocks ∧ h ∉ s.hashes) := by
  obtain ⟨hs, hstart, -⟩ := find?_span_eq_some hfind
  rw [setSpanHashes, hfind]
  dsimp only
  refine ⟨fun t => ?_, fun h => ⟨?_, mem_haveBlocks_eraseBlock⟩⟩
  · rw [eraseBlock_blocks, insertSpan,
      mem_insert_erase_iff (x := { s with hashes := hashes }) hsorted hs rfl, spanKey_ne_iff, hstart]
  · rw [mem_foldl_insert, mem_requestedHashes_eraseBlock]

/-- When `set_span_hashes` finds its span, it gives the invariant back to a queue whose requested
hashes outside the new ones are held by spans. -/
theorem setSpanHashes_inv_of_find {q : BlockQueue H C B} {startHeight : UInt64}
    {connectionId : C} {hashes : List H} {s : Span H C B} (hsorted : Sorted spanKey q.blocks)
    (hhave : q.haveBlocks ⊆ q.requestedHashes)
    (hcover : ∀ h ∈ q.requestedHashes, h ∉ hashes → ∃ t ∈ q.blocks, h ∈ t.hashes)
    (hfind : q.blocks.find?
      (fun i => i.startBlockHeight == startHeight && i.connectionId == connectionId) = some s) :
    Inv (q.setSpanHashes startHeight connectionId hashes) := by
  obtain ⟨hblocks, hhashes⟩ := setSpanHashes_found hashes hsorted hfind
  obtain ⟨hs, hstart, -⟩ := find?_span_eq_some hfind
  have hnew := (hblocks { s with hashes := hashes }).mpr (Or.inl rfl)
  constructor
  · rw [setSpanHashes, hfind]
    exact sorted_insert _ (hsorted.erase s)
  · intro h hh
    rw [(hhashes h).2] at hh
    rw [(hhashes h).1]
    exact Or.inl ⟨hhave hh.1, hh.2⟩
  · intro h hh
    rw [(hhashes h).1] at hh
    by_cases hin : h ∈ hashes
    · exact ⟨_, hnew, hin⟩
    · -- the span that held it is another one than `s`, so of another height
      obtain ⟨t, ht, hht⟩ := hcover h (hh.resolve_right hin).1 hin
      have hts : spanKey t ≠ spanKey s := fun hk =>
        (hh.resolve_right hin).2 (eq_of_key_eq hsorted ht hs hk ▸ hht)
      refine ⟨t, (hblocks t).mpr (Or.inr ⟨ht, ?_⟩), hht⟩
      rw [← hstart]
      exact spanKey_ne_iff.mp hts

theorem setSpanHashes_inv {q : BlockQueue H C B} (hq : Inv q) (startHeight : UInt64)
    (connectionId : C) (hashes : List H) :
    Inv (q.setSpanHashes startHeight connectionId hashes) := by
  cases hfind : q.blocks.find?
      (fun i => i.startBlockHeight == startHeight && i.connectionId == connectionId) with
  | none =>
    rw [setSpanHashes, hfind]
    exact hq
  | some s =>
    exact setSpanHashes_inv_of_find hq.sorted hq.have_subset
      (fun h hh _ => hq.requested_mem h hh) hfind

/-- `add_blocks` of received blocks keeps the invariant. When a span of the height was there,
its hashes are requested again before `set_span_hashes` gives them to the new span, which took
its place in the set. -/
theorem addBlocks_inv {q : BlockQueue H C B} (hq : Inv q) (height : UInt64) (bcel : List B)
    (connectionId : C) : Inv (q.addBlocks height bcel connectionId) := by
  unfold addBlocks removeSpan
  cases hfind : q.blocks.find? (·.startBlockHeight == height) with
  | none => exact insertSpan_inv hq _
  | some i =>
    dsimp only
    have hi : i ∈ q.blocks := List.mem_of_find?_eq_some hfind
    have hkey : i.startBlockHeight = height := by simpa using List.find?_some hfind
    have hq₁ := eraseBlock_inv hq i
    set ns : Span H C B := ⟨height, [], bcel, connectionId, bcel.length.toUInt64⟩
    -- the new span takes the place of `i` in the set, so `set_span_hashes` finds a span
    have hnew : ns ∈ insertSpan ns (q.eraseBlock i).blocks :=
      mem_insert_erase hq.sorted hi (by rw [spanKey, spanKey, hkey])
    have hfound : ((insertSpan ns (q.eraseBlock i).blocks).find? fun s =>
        s.startBlockHeight == height && s.connectionId == connectionId).isSome :=
      List.find?_isSome.mpr ⟨ns, hnew, by simp [ns]⟩
    obtain ⟨s, hs⟩ := Option.isSome_iff_exists.mp hfound
    refine setSpanHashes_inv_of_find (sorted_insert _ hq₁.sorted) ?_ ?_ hs
    · intro h hh
      rw [mem_foldl_insert] at hh ⊢
      exact hh.imp_left fun hh => hq₁.have_subset hh
    · intro h hh hin
      rw [mem_foldl_insert] at hh
      obtain ⟨t, ht, hht⟩ := hq₁.requested_mem h (hh.resolve_right hin)
      exact ⟨t, mem_insert_of_mem ht, hht⟩



/-! ## What `add_blocks` of received blocks does -/

/-- `add_blocks(height, bcel, connection_id)` on a queue with its spans in order: the received
span, with the hashes of the span it replaces, takes the place of the span of its height, and
those hashes are requested and had. -/
theorem addBlocks_spec {q : BlockQueue H C B} (hq : Sorted spanKey q.blocks) (height : UInt64)
    (bcel : List B) (connectionId : C) :
    (∀ s, s ∈ (q.addBlocks height bcel connectionId).blocks ↔
        s = ⟨height, (q.removeSpan height).1.getD [], bcel, connectionId, bcel.length.toUInt64⟩ ∨
          s ∈ q.blocks ∧ s.startBlockHeight ≠ height) ∧
      ∀ h, (h ∈ (q.addBlocks height bcel connectionId).requestedHashes ↔
          h ∈ q.requestedHashes ∨ h ∈ (q.removeSpan height).1.getD []) ∧
        (h ∈ (q.addBlocks height bcel connectionId).haveBlocks ↔
          h ∈ q.haveBlocks ∨ h ∈ (q.removeSpan height).1.getD []) := by
  unfold addBlocks removeSpan
  cases hfind : q.blocks.find? (·.startBlockHeight == height) with
  | none =>
    -- no span has the height: the set takes the new one, and no hash changes
    dsimp only
    have hne : ∀ y ∈ q.blocks, y.startBlockHeight ≠ height := by
      intro y hy hyh
      exact List.find?_eq_none.mp hfind y hy (by simp [hyh])
    refine ⟨fun s => ?_, fun h => ?_⟩
    · rw [insertSpan, mem_insert_iff fun y hy => spanKey_ne_iff.mpr (hne y hy), Option.getD_none]
      constructor
      · rintro (rfl | hs)
        · exact Or.inl rfl
        · exact Or.inr ⟨hs, hne s hs⟩
      · rintro (rfl | ⟨hs, -⟩)
        · exact Or.inl rfl
        · exact Or.inr hs
    · simp
  | some i =>
    dsimp only
    have hi : i ∈ q.blocks := List.mem_of_find?_eq_some hfind
    have hkey : i.startBlockHeight = height := by simpa using List.find?_some hfind
    set ns : Span H C B := ⟨height, [], bcel, connectionId, bcel.length.toUInt64⟩ with hns
    -- the new span takes the place of `i`
    have hmem₂ : ∀ t, t ∈ insertSpan ns (q.eraseBlock i).blocks ↔
        t = ns ∨ t ∈ q.blocks ∧ t.startBlockHeight ≠ height := fun t => by
      rw [eraseBlock_blocks, insertSpan, mem_insert_erase_iff hq hi (by rw [spanKey, spanKey, hkey]),
        spanKey_ne_iff, hkey]
    have hsorted₂ : Sorted spanKey (insertSpan ns (q.eraseBlock i).blocks) :=
      sorted_insert ns (hq.erase i)
    -- and `set_span_hashes` finds it
    obtain ⟨s, hs⟩ := Option.isSome_iff_exists.mp (List.find?_isSome.mpr
      ⟨ns, (hmem₂ ns).mpr (Or.inl rfl), by simp [ns]⟩ :
        ((insertSpan ns (q.eraseBlock i).blocks).find? fun x =>
          x.startBlockHeight == height && x.connectionId == connectionId).isSome)
    obtain ⟨hs₂, hstart, -⟩ := find?_span_eq_some hs
    have hsn : s = ns := eq_of_key_eq hsorted₂ hs₂ ((hmem₂ ns).mpr (Or.inl rfl))
      (by rw [spanKey, spanKey, hstart])
    rw [hsn] at hs
    obtain ⟨hblocks, hhashes⟩ := setSpanHashes_found i.hashes
      (q := ⟨insertSpan ns (q.eraseBlock i).blocks,
        i.hashes.foldl (fun r h => insert h r) (q.eraseBlock i).requestedHashes,
        i.hashes.foldl (fun r h => insert h r) (q.eraseBlock i).haveBlocks⟩) hsorted₂ hs
    refine ⟨fun t => ?_, fun h => ⟨?_, ?_⟩⟩
    · rw [hblocks, hmem₂, Option.getD_some]
      constructor
      · rintro (rfl | ⟨rfl | ht, hne⟩)
        · exact Or.inl rfl
        · exact absurd rfl hne
        · exact Or.inr ht
      · rintro (rfl | ht)
        · exact Or.inl rfl
        · exact Or.inr ⟨Or.inr ht, ht.2⟩
    · -- the hashes of `i` go and come back; the new span had none
      rw [(hhashes h).1, mem_foldl_insert, mem_requestedHashes_eraseBlock, Option.getD_some]
      simp only [ns, List.not_mem_nil, not_false_eq_true, and_true]
      tauto
    · rw [(hhashes h).2, mem_foldl_insert, mem_haveBlocks_eraseBlock, Option.getD_some]
      simp only [ns, List.not_mem_nil, not_false_eq_true, and_true]
      tauto

/-- A queue with a span scheduled at height 7 for connection 0, whose hashes 1 and 2 are
requested. -/
def scheduledSpanQueue : BlockQueue ℕ ℕ ℕ :=
  ⟨[⟨7, [1, 2], [], 0, 2⟩], {1, 2}, ∅⟩

/-- The blocks 5 and 6 arrive for the scheduled span: the new span takes over its hashes, which
are then had. -/
theorem addBlocks_spec_scheduledSpanQueue :
    Sorted spanKey scheduledSpanQueue.blocks ∧
      ((∀ s, s ∈ (scheduledSpanQueue.addBlocks 7 [5, 6] 0).blocks ↔
        s = ⟨7, (scheduledSpanQueue.removeSpan 7).1.getD [], [5, 6], 0, [5, 6].length.toUInt64⟩ ∨
          s ∈ scheduledSpanQueue.blocks ∧ s.startBlockHeight ≠ 7) ∧
      ∀ h, (h ∈ (scheduledSpanQueue.addBlocks 7 [5, 6] 0).requestedHashes ↔
          h ∈ scheduledSpanQueue.requestedHashes ∨ h ∈ (scheduledSpanQueue.removeSpan 7).1.getD []) ∧
        (h ∈ (scheduledSpanQueue.addBlocks 7 [5, 6] 0).haveBlocks ↔
          h ∈ scheduledSpanQueue.haveBlocks ∨ h ∈ (scheduledSpanQueue.removeSpan 7).1.getD [])) :=
  ⟨by decide, addBlocks_spec (by decide) 7 [5, 6] 0⟩

/-! ## `reserve_span` -/

theorem toNat_toUInt64_of_lt {k : ℕ} (hk : k < 2 ^ 64) : k.toUInt64.toNat = k := by
  rw [Nat.toUInt64_eq, UInt64.toNat_ofNat_of_lt' hk]

theorem add_one_add_toUInt64 (a : UInt64) (k : ℕ) : a + 1 + k.toUInt64 = a + (k + 1).toUInt64 := by
  rw [Nat.toUInt64_eq, Nat.toUInt64_eq, UInt64.ofNat_add, UInt64.add_assoc, UInt64.add_comm 1]
  rfl

/-- The loop that skips requested hashes passes over `k` of them, all requested, and stops at
the first one that is not, or at the end. -/
theorem skipRequested_spec (R : Finset H) :
    ∀ (l : List (H × UInt64)) (s₀ : UInt64), ∃ k ≤ l.length,
      skipRequested R l s₀ = (l.drop k, s₀ + k.toUInt64) ∧ (∀ x ∈ l.take k, x.1 ∈ R) ∧
        ∀ x ∈ (l.drop k).head?, x.1 ∉ R
  | [], s₀ => ⟨0, le_rfl, by simp [skipRequested], by simp, by simp⟩
  | x :: rest, s₀ => by
    rw [skipRequested]
    split
    · next hx =>
      -- a requested hash is passed over, and the loop goes on from the next height
      obtain ⟨k, hk, heq, hreq, hstop⟩ := skipRequested_spec R rest (s₀ + 1)
      refine ⟨k + 1, by simpa using hk, ?_, ?_, by simpa using hstop⟩
      · rw [heq, List.drop_succ_cons, add_one_add_toUInt64]
      · intro y hy
        rw [List.take_succ_cons, List.mem_cons] at hy
        rcases hy with rfl | hy
        · exact hx
        · exact hreq y hy
    · next hx => exact ⟨0, Nat.zero_le _, by simp, by simp, by simpa using hx⟩

omit [DecidableEq H] [DecidableEq C] [DecidableEq B] in
/-- The loop that collects the hashes of a span takes the first `m` of them, each while the span
is shorter than `max_blocks` and the pruning of its block lets it go on. -/
theorem reserveLoop_spec (maxBlocks : UInt64) (sync fip : Bool) (lseed pseed : UInt32)
    (bh s : UInt64) :
    ∀ (l : List (H × UInt64)) (len : UInt64) (acc : List H), ∃ m ≤ l.length,
      reserveLoop maxBlocks sync fip lseed pseed bh s l len acc =
        (len + m.toUInt64, acc ++ (l.take m).map Prod.fst) ∧
      ∀ k < m, len + k.toUInt64 < maxBlocks ∧
        (sync || Tools.hasUnprunedBlock (s + (len + k.toUInt64)) bh pseed) = true ∧
        (sync && fip == Tools.hasUnprunedBlock (s + (len + k.toUInt64)) bh lseed) = false
  | [], len, acc => ⟨0, le_rfl, by simp [reserveLoop], fun k hk => absurd hk (Nat.not_lt_zero k)⟩
  | x :: rest, len, acc => by
    rw [reserveLoop]
    by_cases hgo : (decide (len < maxBlocks) && (sync ||
        Tools.hasUnprunedBlock (s + len) bh pseed)) = true
    · rw [if_pos hgo]
      by_cases hstop : (sync && fip == Tools.hasUnprunedBlock (s + len) bh lseed) = true
      · rw [if_pos hstop]
        exact ⟨0, Nat.zero_le _, by simp, fun k hk => absurd hk (Nat.not_lt_zero k)⟩
      · rw [if_neg hstop]
        -- the block at `len` goes into the span, and the loop goes on
        obtain ⟨m, hm, heq, hconds⟩ := reserveLoop_spec maxBlocks sync fip lseed pseed bh s rest
          (len + 1) (acc ++ [x.1])
        refine ⟨m + 1, by simpa using hm, ?_, fun k hk => ?_⟩
        · rw [heq, add_one_add_toUInt64]
          simp
        · cases k with
          | zero =>
            have h0 : len + (0 : ℕ).toUInt64 = len := by simp
            simp only [Bool.and_eq_true, decide_eq_true_eq] at hgo
            rw [h0]
            exact ⟨hgo.1, hgo.2, by simpa using hstop⟩
          | succ k =>
            have := hconds k (by omega)
            rwa [add_one_add_toUInt64] at this
    · rw [if_neg hgo]
      exact ⟨0, Nat.zero_le _, by simp, fun k hk => absurd hk (Nat.not_lt_zero k)⟩

/-- Moving to the peer's next unpruned height only goes up. -/
theorem le_nextUnprunedStart (s bh : UInt64) (seed : UInt32) : s ≤ nextUnprunedStart s bh seed := by
  unfold nextUnprunedStart
  dsimp only
  split
  · next h =>
    simp only [Bool.and_eq_true, decide_eq_true_eq] at h
    exact UInt64.le_of_lt h.1
  · exact UInt64.le_refl s


/-- `block_hashes_start_height`: the height of the first of the hashes, which end at
`last_block_height`. -/
def blockHashesStartHeight (blockHashes : List (H × UInt64)) (lastBlockHeight : UInt64) : UInt64 :=
  lastBlockHeight - blockHashes.length.toUInt64 + 1

/-- The `n` hashes from height `s` on. -/
def spanHashes (blockHashes : List (H × UInt64)) (lastBlockHeight s n : UInt64) : List H :=
  ((blockHashes.drop (s - blockHashesStartHeight blockHashes lastBlockHeight).toNat).take
    n.toNat).map Prod.fst

/-- A run of `reserve_span` that returns: `(0, 0)` with the queue as it was, or a span of
`n ≠ 0` blocks at the height where the second skipping loop stops, scheduled with the hashes the
collecting loop took. The second loop starts where the first one and the stripe jump left off,
below the height after the last hash. -/
theorem reserveSpan_eq_ok {q q' : BlockQueue H C B}
    {firstBlockHeight lastBlockHeight maxBlocks : UInt64} {connectionId : C}
    {syncPrunedBlocks : Bool} {localPruningSeed pruningSeed : UInt32} {blockchainHeight : UInt64}
    {blockHashes : List (H × UInt64)} {s n : UInt64}
    (h : q.reserveSpan firstBlockHeight lastBlockHeight maxBlocks connectionId syncPrunedBlocks
      localPruningSeed pruningSeed blockchainHeight blockHashes = .ok ((s, n), q')) :
    (s = 0 ∧ n = 0 ∧ q' = q) ∨
      ¬ blockHashes.length.toUInt64 > lastBlockHeight ∧ ∃ start rest hashes,
        start = (if !syncPrunedBlocks then
          nextUnprunedStart (skipRequested q.requestedHashes blockHashes
            (blockHashesStartHeight blockHashes lastBlockHeight)).2 blockchainHeight pruningSeed
          else (skipRequested q.requestedHashes blockHashes
            (blockHashesStartHeight blockHashes lastBlockHeight)).2) ∧
        start < blockHashes.length.toUInt64 + (blockHashesStartHeight blockHashes lastBlockHeight) ∧
        skipRequested q.requestedHashes (blockHashes.drop
          (start - (blockHashesStartHeight blockHashes lastBlockHeight)).toNat) start = (rest, s) ∧
        reserveLoop maxBlocks syncPrunedBlocks
          (syncPrunedBlocks && !Tools.hasUnprunedBlock s blockchainHeight localPruningSeed)
          localPruningSeed pruningSeed blockchainHeight s rest 0 [] = (n, hashes) ∧
        n ≠ 0 ∧
        q' = ({ q with blocks := insertSpan ⟨s, [], [], connectionId, n⟩ q.blocks }).setSpanHashes
          s connectionId hashes := by
  unfold reserveSpan at h
  split at h
  · -- no heights, or no room for blocks
    cases h
    exact Or.inl ⟨rfl, rfl, rfl⟩
  split at h
  · -- more hashes than heights up to the last one
    cases h
    exact Or.inl ⟨rfl, rfl, rfl⟩
  next hlen =>
  dsimp only at h
  generalize hstart : (if (!syncPrunedBlocks) = true then _ else _) = start at h
  split at h
  · cases h
    exact Or.inl ⟨rfl, rfl, rfl⟩
  next hguard =>
  generalize hskip : skipRequested q.requestedHashes _ start = r₁ at h
  obtain ⟨rest, s₂⟩ := r₁
  generalize hloop : reserveLoop maxBlocks syncPrunedBlocks _ localPruningSeed pruningSeed
    blockchainHeight s₂ rest 0 [] = r₂ at h
  obtain ⟨n₂, hashes⟩ := r₂
  dsimp only at h hloop
  split at h
  · cases h
    exact Or.inl ⟨rfl, rfl, rfl⟩
  next hn =>
  -- a span of at least one block passes the check of `add_blocks`
  have hn₂ : n₂ ≠ 0 := by simpa using hn
  rw [addBlocksOfCount, if_pos (UInt64.pos_iff_ne_zero.mpr hn₂)] at h
  cases h
  exact Or.inr ⟨hlen, start, rest, hashes, hstart.symm, UInt64.not_le.mp hguard, hskip, hloop, hn₂, rfl⟩


/-- What `reserve_span` can do to the queue: nothing, returning `(0, 0)`, or schedule a span of
`n > 0` blocks at `s` for the connection and give it hashes with `set_span_hashes`. -/
def Reserved (q : BlockQueue H C B) (connectionId : C)
    (r : (UInt64 × UInt64) × BlockQueue H C B) : Prop :=
  r = ((0, 0), q) ∨ ∃ s n hashes, 0 < n ∧
    r = ((s, n), ({ q with blocks := insertSpan ⟨s, [], [], connectionId, n⟩ q.blocks }).setSpanHashes
      s connectionId hashes)

theorem reserveSpan_ok_reserved {q : BlockQueue H C B}
    {firstBlockHeight lastBlockHeight maxBlocks : UInt64} {connectionId : C}
    {syncPrunedBlocks : Bool} {localPruningSeed pruningSeed : UInt32} {blockchainHeight : UInt64}
    {blockHashes : List (H × UInt64)} {r : (UInt64 × UInt64) × BlockQueue H C B}
    (h : q.reserveSpan firstBlockHeight lastBlockHeight maxBlocks connectionId syncPrunedBlocks
      localPruningSeed pruningSeed blockchainHeight blockHashes = .ok r) :
    Reserved q connectionId r := by
  obtain ⟨⟨s, n⟩, q'⟩ := r
  rcases reserveSpan_eq_ok h with ⟨rfl, rfl, rfl⟩ | ⟨-, -, -, hashes, -, -, -, -, hn, rfl⟩
  · exact Or.inl rfl
  · exact Or.inr ⟨s, n, hashes, UInt64.pos_iff_ne_zero.mpr hn, rfl⟩

theorem Reserved.inv {q : BlockQueue H C B} {connectionId : C}
    {r : (UInt64 × UInt64) × BlockQueue H C B} (hq : Inv q) (hr : Reserved q connectionId r) :
    Inv r.2 := by
  rcases hr with rfl | ⟨s, n, hashes, _, rfl⟩
  · exact hq
  · exact setSpanHashes_inv (insertSpan_inv hq _) s connectionId hashes


/-- A span scheduled at a height no span of the set has goes in with the hashes, which are
requested; nothing else changes. -/
theorem setSpanHashes_schedule_fresh {q : BlockQueue H C B} (hq : Sorted spanKey q.blocks)
    (s n : UInt64) (connectionId : C) (hashes : List H)
    (hfresh : ∀ t ∈ q.blocks, t.startBlockHeight ≠ s) :
    ({ q with blocks := insertSpan ⟨s, [], [], connectionId, n⟩ q.blocks }).setSpanHashes s
        connectionId hashes =
      ⟨insertSpan ⟨s, hashes, [], connectionId, n⟩ q.blocks,
        hashes.foldl (fun r h => insert h r) q.requestedHashes, q.haveBlocks⟩ := by
  set ns : Span H C B := ⟨s, [], [], connectionId, n⟩
  have hkey : ∀ y ∈ q.blocks, spanKey y ≠ spanKey ns := fun y hy => spanKey_ne_iff.mpr (hfresh y hy)
  have hmem : ns ∈ insertSpan ns q.blocks := (mem_insert_iff hkey).mpr (Or.inl rfl)
  -- `set_span_hashes` finds the new span, the one span of its height
  have hfind : (insertSpan ns q.blocks).find?
      (fun i => i.startBlockHeight == s && i.connectionId == connectionId) = some ns := by
    obtain ⟨t, ht⟩ := Option.isSome_iff_exists.mp (List.find?_isSome.mpr ⟨ns, hmem, by simp [ns]⟩ :
      ((insertSpan ns q.blocks).find? fun i =>
        i.startBlockHeight == s && i.connectionId == connectionId).isSome)
    obtain ⟨ht', hstart, -⟩ := find?_span_eq_some ht
    rwa [eq_of_key_eq (sorted_insert ns hq) ht' hmem (by rw [spanKey, spanKey, hstart])] at ht
  simp only [setSpanHashes, hfind]
  simp only [eraseBlock, insertSpan, OrderedSet.erase_insert hkey]
  rfl

/-- A span scheduled at the height of a span of the set does not go in: `set_span_hashes` gives
the hashes to that span if it is of the connection, and does nothing otherwise. -/
theorem setSpanHashes_schedule_of_mem {q : BlockQueue H C B} (hq : Sorted spanKey q.blocks)
    (s n : UInt64) (connectionId : C) (hashes : List H) {t : Span H C B} (ht : t ∈ q.blocks)
    (hts : t.startBlockHeight = s) :
    ({ q with blocks := insertSpan ⟨s, [], [], connectionId, n⟩ q.blocks }).setSpanHashes s
        connectionId hashes = q.setSpanHashes s connectionId hashes ∧
      (t.connectionId ≠ connectionId → q.setSpanHashes s connectionId hashes = q) := by
  have hsame : insertSpan ⟨s, [], [], connectionId, n⟩ q.blocks = q.blocks :=
    insert_eq_self hq ⟨t, ht, by rw [spanKey, spanKey, hts]⟩
  refine ⟨by rw [hsame], fun hconn => ?_⟩
  -- the one span of the height is of another connection
  have hnone : q.blocks.find?
      (fun i => i.startBlockHeight == s && i.connectionId == connectionId) = none := by
    rw [List.find?_eq_none]
    intro y hy hyes
    simp only [Bool.and_eq_true, beq_iff_eq] at hyes
    have hyt : y = t := eq_of_key_eq hq hy ht (by rw [spanKey, spanKey, hyes.1, hts])
    exact hconn (hyt ▸ hyes.2)
  rw [setSpanHashes, hnone]


/-- Where `reserve_span` may start a span: past the hashes the first loop skips, and below the
height after the last hash, which is not `2 ^ 64`. -/
theorem reserveSpan_start_bounds {R : Finset H} {blockHashes : List (H × UInt64)}
    {lastBlockHeight start : UInt64} {syncPrunedBlocks : Bool} {blockchainHeight : UInt64}
    {pruningSeed : UInt32} (hlen : blockHashes.length < 2 ^ 64)
    (hfit : ¬ blockHashes.length.toUInt64 > lastBlockHeight)
    (hstart : start = (if !syncPrunedBlocks then
      nextUnprunedStart (skipRequested R blockHashes
        (blockHashesStartHeight blockHashes lastBlockHeight)).2 blockchainHeight pruningSeed
      else (skipRequested R blockHashes (blockHashesStartHeight blockHashes lastBlockHeight)).2))
    (hguard : start < blockHashes.length.toUInt64 + blockHashesStartHeight blockHashes lastBlockHeight) :
    (blockHashesStartHeight blockHashes lastBlockHeight).toNat + blockHashes.length =
        lastBlockHeight.toNat + 1 ∧ lastBlockHeight.toNat + 1 < 2 ^ 64 ∧
      (blockHashesStartHeight blockHashes lastBlockHeight).toNat ≤ start.toNat ∧
      start.toNat < lastBlockHeight.toNat + 1 := by
  have hL : blockHashes.length.toUInt64.toNat = blockHashes.length := by
    rw [Nat.toUInt64_eq, UInt64.toNat_ofNat_of_lt' hlen]
  have hfit' : blockHashes.length ≤ lastBlockHeight.toNat := by
    have := UInt64.not_lt.mp hfit
    rw [UInt64.le_iff_toNat_le, hL] at this
    exact this
  have hsub : (lastBlockHeight - blockHashes.length.toUInt64).toNat =
      lastBlockHeight.toNat - blockHashes.length := by
    rw [UInt64.toNat_sub_of_le _ _ (UInt64.not_lt.mp hfit), hL]
  -- the height after the last hash is not `2 ^ 64`, or the guard could not hold
  have hlast : lastBlockHeight.toNat + 1 < 2 ^ 64 := by
    by_contra hwrap
    have hzero : blockHashes.length.toUInt64 + blockHashesStartHeight blockHashes lastBlockHeight = 0 := by
      rw [← UInt64.toNat_inj, blockHashesStartHeight, UInt64.toNat_add, UInt64.toNat_add, hL, hsub]
      have := lastBlockHeight.toNat_lt
      simp only [UInt64.toNat_one, UInt64.toNat_zero]
      omega
    rw [hzero] at hguard
    exact UInt64.not_lt_zero hguard
  have hbhs : (blockHashesStartHeight blockHashes lastBlockHeight).toNat =
      lastBlockHeight.toNat - blockHashes.length + 1 := by
    rw [blockHashesStartHeight, UInt64.toNat_add, hsub, UInt64.toNat_one]
    omega
  obtain ⟨k, hk, hskip, -, -⟩ := skipRequested_spec R blockHashes
    (blockHashesStartHeight blockHashes lastBlockHeight)
  -- the first loop stops at most one past the last hash, and the stripe jump only goes up
  have hskipped : (blockHashesStartHeight blockHashes lastBlockHeight).toNat ≤ start.toNat := by
    have hk' : ((blockHashesStartHeight blockHashes lastBlockHeight) + k.toUInt64).toNat =
        (blockHashesStartHeight blockHashes lastBlockHeight).toNat + k := by
      rw [UInt64.toNat_add, Nat.toUInt64_eq, UInt64.toNat_ofNat_of_lt' (lt_of_le_of_lt hk hlen), hbhs]
      omega
    have hle : (blockHashesStartHeight blockHashes lastBlockHeight) + k.toUInt64 ≤ start := by
      rw [hstart, hskip]
      split
      · exact le_nextUnprunedStart _ _ _
      · exact UInt64.le_refl _
    rw [UInt64.le_iff_toNat_le, hk'] at hle
    omega
  have hguard' := UInt64.lt_iff_toNat_lt.mp hguard
  rw [UInt64.toNat_add, hL, hbhs] at hguard'
  refine ⟨by omega, hlast, hskipped, by omega⟩


/-- **What `reserve_span` schedules.** On a queue whose spans are in order, for at most `2 ^ 64`
hashes: `reserve_span` returns `(0, 0)` and leaves the queue as it was, or returns `(s, n)` for
`0 < n ≤ max_blocks` blocks from a height `s` of the hashes, the first of which was not
requested; with pruned blocks synced, this node's own pruning is the same for all of them, and
otherwise the peer has each of them. When no span of the set starts at `s`, the span goes in
with those `n` hashes, and they are requested. When one does, the set takes no new span:
`set_span_hashes` gives the hashes to that span if it is of the connection, and the queue is
left as it was if it is not, although `(s, n)` is returned. -/
theorem reserveSpan_spec {q q' : BlockQueue H C B} (hq : Sorted spanKey q.blocks)
    {firstBlockHeight lastBlockHeight maxBlocks : UInt64} {connectionId : C}
    {syncPrunedBlocks : Bool} {localPruningSeed pruningSeed : UInt32} {blockchainHeight : UInt64}
    {blockHashes : List (H × UInt64)} (hlen : blockHashes.length < 2 ^ 64) {s n : UInt64}
    (h : q.reserveSpan firstBlockHeight lastBlockHeight maxBlocks connectionId syncPrunedBlocks
      localPruningSeed pruningSeed blockchainHeight blockHashes = .ok ((s, n), q')) :
    (s = 0 ∧ n = 0 ∧ q' = q) ∨
      0 < n ∧ n ≤ maxBlocks ∧ blockHashesStartHeight blockHashes lastBlockHeight ≤ s ∧
      (s - blockHashesStartHeight blockHashes lastBlockHeight).toNat + n.toNat ≤
        blockHashes.length ∧
      (∀ x ∈ (spanHashes blockHashes lastBlockHeight s n).head?, x ∉ q.requestedHashes) ∧
      (∀ k < n, if syncPrunedBlocks then
          Tools.hasUnprunedBlock (s + k) blockchainHeight localPruningSeed =
            Tools.hasUnprunedBlock s blockchainHeight localPruningSeed
        else Tools.hasUnprunedBlock (s + k) blockchainHeight pruningSeed = true) ∧
      ((∀ t ∈ q.blocks, t.startBlockHeight ≠ s) →
        q'.blocks = insertSpan ⟨s, spanHashes blockHashes lastBlockHeight s n, [], connectionId, n⟩
          q.blocks ∧
        (∀ x, x ∈ q'.requestedHashes ↔
          x ∈ q.requestedHashes ∨ x ∈ spanHashes blockHashes lastBlockHeight s n) ∧
        q'.haveBlocks = q.haveBlocks) ∧
      (∀ t ∈ q.blocks, t.startBlockHeight = s →
        q' = q.setSpanHashes s connectionId (spanHashes blockHashes lastBlockHeight s n) ∧
        (t.connectionId ≠ connectionId → q' = q)) := by
  rcases reserveSpan_eq_ok h with hzero | ⟨hfit, start, rest, hashes, hstart, hguard, hskip, hloop,
    hn, rfl⟩
  · exact Or.inl hzero
  obtain ⟨hbhsL, hlast, hbs, hsl⟩ := reserveSpan_start_bounds hlen hfit hstart hguard
  set bhs := blockHashesStartHeight blockHashes lastBlockHeight
  have hp : (start - bhs).toNat = start.toNat - bhs.toNat :=
    UInt64.toNat_sub_of_le _ _ (UInt64.le_iff_toNat_le.mpr hbs)
  -- the second loop skips `k` more requested hashes
  obtain ⟨k, hk, hskip', -, hstop⟩ := skipRequested_spec q.requestedHashes
    (blockHashes.drop (start - bhs).toNat) start
  rw [hskip, Prod.mk.injEq] at hskip'
  obtain ⟨hrest, hs⟩ := hskip'
  rw [List.length_drop, hp] at hk
  have hsk : s.toNat = start.toNat + k := by
    rw [hs, UInt64.toNat_add, toNat_toUInt64_of_lt (by omega)]
    omega
  have hbs' : bhs ≤ s := UInt64.le_iff_toNat_le.mpr (by omega)
  have hpos : (s - bhs).toNat = (start - bhs).toNat + k := by
    rw [UInt64.toNat_sub_of_le _ _ hbs', hp]
    omega
  have hrest' : rest = blockHashes.drop (s - bhs).toNat := by
    rw [hrest, List.drop_drop, hpos]
  -- the span is the first `m` hashes from there
  obtain ⟨m, hm, hloop', hconds⟩ := reserveLoop_spec maxBlocks syncPrunedBlocks
    (syncPrunedBlocks && !Tools.hasUnprunedBlock s blockchainHeight localPruningSeed)
    localPruningSeed pruningSeed blockchainHeight s rest 0 []
  rw [hloop, Prod.mk.injEq] at hloop'
  obtain ⟨hnm, hhashes⟩ := hloop'
  have hmlen : m ≤ blockHashes.length - (s - bhs).toNat := by
    rw [hrest', List.length_drop] at hm
    exact hm
  have hnm' : n.toNat = m := by
    rw [hnm, UInt64.zero_add, toNat_toUInt64_of_lt (by omega)]
  have hm0 : 0 < m := by
    rw [← hnm']
    exact Nat.pos_of_ne_zero fun h0 => hn (UInt64.toNat_inj.mp (by rw [h0]; rfl))
  have hspan : spanHashes blockHashes lastBlockHeight s n = hashes := by
    rw [hhashes, List.nil_append, spanHashes, hnm', ← hrest']
  rw [hspan]
  refine Or.inr ⟨UInt64.pos_iff_ne_zero.mpr hn, ?_, hbs', by omega, ?_, fun j hj => ?_,
    fun hfresh => ?_, fun t ht hts => ?_⟩
  · -- the loop went on only while the span was shorter than `max_blocks`
    have hlast := (hconds (m - 1) (by omega)).1
    rw [UInt64.zero_add, UInt64.lt_iff_toNat_lt, toNat_toUInt64_of_lt (by omega)] at hlast
    rw [UInt64.le_iff_toNat_le, hnm']
    omega
  · intro x hx
    rw [hhashes, List.nil_append, List.head?_map, List.head?_take, if_neg (by omega)] at hx
    obtain ⟨y, hy, rfl⟩ := Option.mem_map.mp hx
    rw [← hrest] at hstop
    exact hstop y hy
  · -- the blocks the loop took, `j` past the start
    have hj' : j.toNat < m := by
      rw [← hnm']
      exact UInt64.lt_iff_toNat_lt.mp hj
    obtain ⟨-, hpeer, hown⟩ := hconds j.toNat hj'
    rw [UInt64.zero_add, Nat.toUInt64_eq, UInt64.ofNat_toNat] at hpeer hown
    cases syncPrunedBlocks with
    | true =>
      rw [if_pos rfl]
      revert hown
      cases Tools.hasUnprunedBlock (s + j) blockchainHeight localPruningSeed <;>
        cases Tools.hasUnprunedBlock s blockchainHeight localPruningSeed <;> simp
    | false =>
      rw [if_neg Bool.false_ne_true]
      simpa using hpeer
  · have hq' := setSpanHashes_schedule_fresh hq s n connectionId hashes hfresh
    rw [hq']
    exact ⟨rfl, fun x => mem_foldl_insert x hashes q.requestedHashes, rfl⟩
  · obtain ⟨hq', hother⟩ := setSpanHashes_schedule_of_mem hq s n connectionId hashes ht hts
    rw [hq']
    exact ⟨rfl, hother⟩


/-- A queue with a span at height 10 of connection 0, whose hashes 1 and 2 are requested. -/
def requestedSpanQueue : BlockQueue ℕ ℕ ℕ :=
  ⟨[⟨10, [1, 2], [], 0, 2⟩], {1, 2}, ∅⟩

/-- Connection 1 reserves from the hashes 1 to 4 of heights 10 to 13: it skips the two requested
ones and schedules heights 12 and 13. -/
theorem reserveSpan_spec_requestedSpanQueue :
    Sorted spanKey requestedSpanQueue.blocks ∧ [(1, 0), (2, 0), (3, 0), (4, 0)].length < 2 ^ 64 ∧
    ∃ q', requestedSpanQueue.reserveSpan 10 13 5 1 false 0 0 100
        [((1 : ℕ), (0 : UInt64)), (2, 0), (3, 0), (4, 0)] = .ok ((12, 2), q') ∧
      (((12 : UInt64) = 0 ∧ (2 : UInt64) = 0 ∧ q' = requestedSpanQueue) ∨
      0 < (2 : UInt64) ∧ (2 : UInt64) ≤ 5 ∧
      blockHashesStartHeight [((1 : ℕ), (0 : UInt64)), (2, 0), (3, 0), (4, 0)] 13 ≤ 12 ∧
      ((12 : UInt64) - blockHashesStartHeight [((1 : ℕ), (0 : UInt64)), (2, 0), (3, 0), (4, 0)]
        13).toNat + (2 : UInt64).toNat ≤ [((1 : ℕ), (0 : UInt64)), (2, 0), (3, 0), (4, 0)].length ∧
      (∀ x ∈ (spanHashes [((1 : ℕ), (0 : UInt64)), (2, 0), (3, 0), (4, 0)] 13 12 2).head?,
        x ∉ requestedSpanQueue.requestedHashes) ∧
      (∀ k < (2 : UInt64), if false = true then
          Tools.hasUnprunedBlock (12 + k) 100 0 = Tools.hasUnprunedBlock 12 100 0
        else Tools.hasUnprunedBlock (12 + k) 100 0 = true) ∧
      ((∀ t ∈ requestedSpanQueue.blocks, t.startBlockHeight ≠ 12) →
        q'.blocks = insertSpan
          ⟨12, spanHashes [((1 : ℕ), (0 : UInt64)), (2, 0), (3, 0), (4, 0)] 13 12 2, [], 1, 2⟩
          requestedSpanQueue.blocks ∧
        (∀ x, x ∈ q'.requestedHashes ↔ x ∈ requestedSpanQueue.requestedHashes ∨
          x ∈ spanHashes [((1 : ℕ), (0 : UInt64)), (2, 0), (3, 0), (4, 0)] 13 12 2) ∧
        q'.haveBlocks = requestedSpanQueue.haveBlocks) ∧
      (∀ t ∈ requestedSpanQueue.blocks, t.startBlockHeight = 12 →
        q' = requestedSpanQueue.setSpanHashes 12 1
          (spanHashes [((1 : ℕ), (0 : UInt64)), (2, 0), (3, 0), (4, 0)] 13 12 2) ∧
        (t.connectionId ≠ 1 → q' = requestedSpanQueue))) := by
  obtain ⟨q', hrun⟩ : ∃ q', requestedSpanQueue.reserveSpan 10 13 5 1 false 0 0 100
      [((1 : ℕ), (0 : UInt64)), (2, 0), (3, 0), (4, 0)] = .ok ((12, 2), q') := ⟨_, rfl⟩
  exact ⟨by decide, by decide, q', hrun, reserveSpan_spec (by decide) (by decide) hrun⟩

/-! ## Every run -/

/-- Every call that returns keeps the invariant. -/
theorem next_inv {q q' : BlockQueue H C B} (hq : Inv q) {e : Event H C B}
    (h : q.next e = some q') : Inv q' := by
  cases e with
  | addBlocks height bcel connectionId =>
    simp only [next, Option.some.injEq] at h
    subst h
    exact addBlocks_inv hq height bcel connectionId
  | addBlocksOfCount height nblocks connectionId =>
    cases hadd : q.addBlocksOfCount height nblocks connectionId with
    | error msg =>
      rw [next, hadd] at h
      cases h
    | ok q₁ =>
      rw [next, hadd] at h
      cases h
      exact addBlocksOfCount_inv hq hadd
  | flushSpans connectionId all =>
    simp only [next, Option.some.injEq] at h
    subst h
    exact eraseSpansWhere_inv hq _
  | flushStaleSpans liveConnections =>
    simp only [next, Option.some.injEq] at h
    subst h
    exact eraseSpansWhere_inv hq _
  | removeSpan startBlockHeight =>
    simp only [next, Option.some.injEq] at h
    subst h
    exact removeSpan_inv hq startBlockHeight
  | removeSpans connectionId startBlockHeight =>
    simp only [next, Option.some.injEq] at h
    subst h
    exact eraseSpansWhere_inv hq _
  | setSpanHashes startHeight connectionId hashes =>
    simp only [next, Option.some.injEq] at h
    subst h
    exact setSpanHashes_inv hq startHeight connectionId hashes
  | reserveSpan first last maxBlocks connectionId syncPruned localSeed seed height hashes =>
    cases hr : q.reserveSpan first last maxBlocks connectionId syncPruned localSeed seed height
        hashes with
    | error msg =>
      rw [next, hr] at h
      cases h
    | ok r =>
      rw [next, hr] at h
      cases h
      exact (reserveSpan_ok_reserved hr).inv hq

/-- Every queue reached from an empty one keeps its spans sorted by start height, requests every
hash it has, and holds every requested hash in a span. -/
theorem reachable_inv {q : BlockQueue H C B} (hq : StateMachine.Reachable Started Step q) :
    Inv q := by
  refine StateMachine.Reachable.induction ?_ ?_ hq
  · intro s hs
    rw [Started] at hs
    rw [hs]
    exact empty_inv
  · rintro s t hs ⟨e, he⟩
    exact next_inv hs he

theorem reachable_inv_after_addBlocks :
    Inv ((empty : BlockQueue ℕ ℕ ℕ).addBlocks 7 [1, 2] 0) :=
  reachable_inv (StateMachine.Reachable.tail (StateMachine.Reachable.of_init rfl)
    ⟨.addBlocks 7 [1, 2] 0, rfl⟩)

/-! ## The erasing loop -/

/-- The spans the erasing loop leaves: the loop has passed `pre`, whose spans it kept, and each
span of the rest that the test accepts is the first of its value in the set when it is erased. -/
theorem foldl_eraseStep_blocks (p : Span H C B → Bool) :
    ∀ (l pre : List (Span H C B)) (q : BlockQueue H C B), q.blocks = pre ++ l →
      (∀ x ∈ pre, p x = false) →
      (l.foldl (fun q j => if p j then q.eraseBlock j else q) q).blocks =
        pre ++ l.filter fun j => !p j
  | [], pre, q, hq, _ => by rw [List.foldl_nil, hq, List.filter_nil]
  | j :: l, pre, q, hq, hpre => by
    rw [List.foldl_cons, List.filter_cons]
    by_cases hj : p j = true
    · have hjpre : j ∉ pre := fun hm => by
        rw [hpre j hm] at hj
        cases hj
      have hblocks : (q.eraseBlock j).blocks = pre ++ l := by
        change (q.blocks.erase j) = _
        rw [hq, List.erase_append_right _ hjpre, List.erase_cons_head]
      rw [if_pos hj, foldl_eraseStep_blocks p l pre _ hblocks hpre, if_neg (by simp [hj])]
    · rw [Bool.not_eq_true] at hj
      have hpre' : ∀ x ∈ pre ++ [j], p x = false := by
        intro x hx
        rcases List.mem_append.mp hx with hx | hx
        · exact hpre x hx
        · rw [List.mem_singleton.mp hx, hj]
      rw [if_neg (by simp [hj]), foldl_eraseStep_blocks p l (pre ++ [j]) q (by simp [hq]) hpre',
        if_pos (by simp [hj]), List.append_assoc, List.singleton_append]

/-- A hash set the loop erases from as `erase_block` does keeps a hash exactly when no erased
span holds it. -/
theorem mem_foldl_eraseStep (p : Span H C B → Bool) (f : BlockQueue H C B → Finset H) (h : H)
    (hf : ∀ q j, h ∈ f (q.eraseBlock j) ↔ h ∈ f q ∧ h ∉ j.hashes) :
    ∀ (l : List (Span H C B)) (q : BlockQueue H C B),
      h ∈ f (l.foldl (fun q j => if p j then q.eraseBlock j else q) q) ↔
        h ∈ f q ∧ ∀ j ∈ l, p j = true → h ∉ j.hashes
  | [], q => by simp
  | j :: l, q => by
    rw [List.foldl_cons, mem_foldl_eraseStep p f h hf l, List.forall_mem_cons]
    by_cases hj : p j = true
    · rw [if_pos hj, hf, and_assoc]
      simp only [hj, true_implies]
    · rw [if_neg hj]
      rw [Bool.not_eq_true] at hj
      simp only [hj, Bool.false_eq_true, false_implies, true_and]

/-- `flush_spans`, `flush_stale_spans` and `remove_spans` erase exactly the spans their test
accepts, and with them exactly the hashes those spans hold from the requested and the had ones,
whatever other span holds them too. -/
theorem eraseSpansWhere_spec (q : BlockQueue H C B) (p : Span H C B → Bool) :
    (q.eraseSpansWhere p).blocks = q.blocks.filter (fun j => !p j) ∧
      ∀ h, (h ∈ (q.eraseSpansWhere p).requestedHashes ↔
          h ∈ q.requestedHashes ∧ ∀ j ∈ q.blocks, p j = true → h ∉ j.hashes) ∧
        (h ∈ (q.eraseSpansWhere p).haveBlocks ↔
          h ∈ q.haveBlocks ∧ ∀ j ∈ q.blocks, p j = true → h ∉ j.hashes) := by
  refine ⟨foldl_eraseStep_blocks p q.blocks [] q rfl (by simp), fun h => ⟨?_, ?_⟩⟩
  · exact mem_foldl_eraseStep p (·.requestedHashes) h
      (fun _ _ => mem_requestedHashes_eraseBlock) q.blocks q
  · exact mem_foldl_eraseStep p (·.haveBlocks) h
      (fun _ _ => mem_haveBlocks_eraseBlock) q.blocks q

end BlockQueue

end Cryptonote

end Wazn
