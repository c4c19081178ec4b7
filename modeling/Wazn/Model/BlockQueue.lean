import Mathlib.Data.Finset.Basic
import Wazn.Library.OrderedSet
import Wazn.Model.Pruning

/-!
# The queue of block spans of a syncing node (`cryptonote_protocol/block_queue.h`, `.cpp`)

A syncing node downloads the chain in spans of consecutive blocks from its peers. `block_queue`
holds the spans it has reserved for a connection (scheduled, with no blocks yet) or received
(filled), in a `std::set` whose `operator<` compares start heights only, so the set has at most
one span per start height. Beside the set it keeps `requested_hashes`, the hashes some span was
reserved for, and `have_blocks`, the hashes of blocks received.

Block hashes, connection ids and block entries are type parameters with their equality. The set
of spans is the list of its elements in order (`OrderedSet.insert`), and an iterator into it is
the span it points to. Heights are `uint64_t` as in the source. The fields `rate`, `size`, `time`
and `origin` of a span are left out, with the functions that only read or write them
(`get_speed`, `get_download_rate`, `get_data_size`, `reset_next_span_time`, `print`,
`get_overview`), and so is the mutex. `get_last_known_hash` returns `none` where the source
returns `crypto::null_hash`.
-/

set_option autoImplicit false

namespace Wazn

namespace Cryptonote

/-- `block_queue::span`, with the fields the modelled functions read. -/
structure Span (H C B : Type) where
  startBlockHeight : UInt64
  hashes : List H
  blocks : List B
  connectionId : C
  nblocks : UInt64
  deriving DecidableEq

/-- `block_queue`: `blocks` is the set of spans in order of start height. -/
structure BlockQueue (H C B : Type) where
  blocks : List (Span H C B)
  requestedHashes : Finset H
  haveBlocks : Finset H

namespace BlockQueue

variable {H C B : Type}

/-- `span::operator<` compares the start heights. -/
def spanKey (s : Span H C B) : ℕ := s.startBlockHeight.toNat

variable [DecidableEq H] [DecidableEq C] [DecidableEq B]

/-- A queue with no span and no hash. -/
def empty : BlockQueue H C B := ⟨[], ∅, ∅⟩

/-- `blocks.insert(s)`: nothing happens when a span of the same start height is there. -/
def insertSpan (s : Span H C B) (blocks : List (Span H C B)) : List (Span H C B) :=
  OrderedSet.insert spanKey s blocks

/-- `erase_block(j)`: the hashes of the span are neither requested nor had any more, and the span
leaves the set. -/
def eraseBlock (q : BlockQueue H C B) (j : Span H C B) : BlockQueue H C B where
  blocks := q.blocks.erase j
  requestedHashes := j.hashes.foldl Finset.erase q.requestedHashes
  haveBlocks := j.hashes.foldl Finset.erase q.haveBlocks

/-- `remove_span(start_block_height, &hashes)`: the span of that start height is erased and its
hashes handed back; `none` when there is none, and the call returns false. -/
def removeSpan (q : BlockQueue H C B) (startBlockHeight : UInt64) :
    Option (List H) × BlockQueue H C B :=
  match q.blocks.find? (·.startBlockHeight == startBlockHeight) with
  | some i => (some i.hashes, q.eraseBlock i)
  | none => (none, q)

/-- `set_span_hashes(start_height, connection_id, hashes)`: the span of that start height and
connection is taken out, given the hashes, and put back, its hashes requested. -/
def setSpanHashes (q : BlockQueue H C B) (startHeight : UInt64) (connectionId : C)
    (hashes : List H) : BlockQueue H C B :=
  match q.blocks.find? (fun i => i.startBlockHeight == startHeight && i.connectionId == connectionId)
  with
  | some s =>
    let q := q.eraseBlock s
    let s := { s with hashes := hashes }
    let q := { q with requestedHashes := s.hashes.foldl (fun r h => insert h r) q.requestedHashes }
    { q with blocks := insertSpan s q.blocks }
  | none => q

/-- `add_blocks(height, bcel, connection_id, ...)`: a received span replaces the one of its start
height, and takes over its hashes, which are then had. -/
def addBlocks (q : BlockQueue H C B) (height : UInt64) (bcel : List B) (connectionId : C) :
    BlockQueue H C B :=
  let (hashes, q) := q.removeSpan height
  let s : Span H C B := ⟨height, [], bcel, connectionId, bcel.length.toUInt64⟩
  let q := { q with blocks := insertSpan s q.blocks }
  match hashes with
  | some hashes =>
    let q := { q with
      requestedHashes := hashes.foldl (fun r h => insert h r) q.requestedHashes
      haveBlocks := hashes.foldl (fun r h => insert h r) q.haveBlocks }
    q.setSpanHashes height connectionId hashes
  | none => q

/-- `add_blocks(height, nblocks, connection_id, ...)`: a scheduled span of `nblocks` blocks. -/
def addBlocksOfCount (q : BlockQueue H C B) (height nblocks : UInt64) (connectionId : C) :
    Except String (BlockQueue H C B) :=
  if nblocks > 0 then
    let s : Span H C B := ⟨height, [], [], connectionId, nblocks⟩
    .ok { q with blocks := insertSpan s q.blocks }
  else .error "Empty span"

/-- The loop `flush_spans`, `flush_stale_spans` and `remove_spans` share: every span of the set
the test accepts is erased, in order. -/
def eraseSpansWhere (q : BlockQueue H C B) (p : Span H C B → Bool) : BlockQueue H C B :=
  q.blocks.foldl (fun q j => if p j then q.eraseBlock j else q) q

/-- `flush_spans(connection_id, all)`: the spans of the connection, or its scheduled ones. -/
def flushSpans (q : BlockQueue H C B) (connectionId : C) (all : Bool) : BlockQueue H C B :=
  q.eraseSpansWhere fun j => j.connectionId == connectionId && (all || j.blocks.isEmpty)

/-- `flush_stale_spans(live_connections)`: the scheduled spans of connections that are gone. -/
def flushStaleSpans (q : BlockQueue H C B) (liveConnections : Finset C) : BlockQueue H C B :=
  q.eraseSpansWhere fun j => j.blocks.isEmpty && decide (j.connectionId ∉ liveConnections)

/-- `remove_spans(connection_id, start_block_height)`: the spans of the connection that start at
or below the height. -/
def removeSpans (q : BlockQueue H C B) (connectionId : C) (startBlockHeight : UInt64) :
    BlockQueue H C B :=
  q.eraseSpansWhere fun j =>
    j.connectionId == connectionId && decide (j.startBlockHeight ≤ startBlockHeight)

/-! ## `reserve_span` -/

/-- `while (i != block_hashes.end() && requested_internal((*i).first)) { ++i; ++span_start_height; }`:
the iterator is the list of the hashes from it on. -/
def skipRequested (requested : Finset H) :
    List (H × UInt64) → UInt64 → List (H × UInt64) × UInt64
  | [], spanStartHeight => ([], spanStartHeight)
  | x :: rest, spanStartHeight =>
    if x.1 ∈ requested then skipRequested requested rest (spanStartHeight + 1)
    else (x :: rest, spanStartHeight)

/-- The loop of `reserve_span` that takes the hashes of the span: while hashes are left, the span
is shorter than `max_blocks`, and the peer has the block or pruned blocks are synced; with pruned
blocks it stops at the first block whose pruning differs from the first one's for this node. -/
def reserveLoop (maxBlocks : UInt64) (syncPrunedBlocks firstIsPruned : Bool)
    (localPruningSeed pruningSeed : UInt32) (blockchainHeight spanStartHeight : UInt64) :
    List (H × UInt64) → UInt64 → List H → UInt64 × List H
  | [], spanLength, hashes => (spanLength, hashes)
  | x :: rest, spanLength, hashes =>
    if spanLength < maxBlocks && (syncPrunedBlocks ||
        Tools.hasUnprunedBlock (spanStartHeight + spanLength) blockchainHeight pruningSeed) then
      if syncPrunedBlocks && firstIsPruned ==
          Tools.hasUnprunedBlock (spanStartHeight + spanLength) blockchainHeight localPruningSeed
      then (spanLength, hashes)
      else reserveLoop maxBlocks syncPrunedBlocks firstIsPruned localPruningSeed pruningSeed
        blockchainHeight spanStartHeight rest (spanLength + 1) (hashes ++ [x.1])
    else (spanLength, hashes)

/-- The start height `reserve_span` moves to when the peer is pruned at it and its next unpruned
height is within a stripe; `get_next_unpruned_block_height` is kept in a `uint32_t`. -/
def nextUnprunedStart (spanStartHeight blockchainHeight : UInt64) (pruningSeed : UInt32) :
    UInt64 :=
  let nextUnprunedHeight : UInt32 :=
    (Tools.getNextUnprunedBlockHeight spanStartHeight blockchainHeight pruningSeed).toUInt32
  if nextUnprunedHeight.toUInt64 > spanStartHeight &&
      nextUnprunedHeight.toUInt64 < spanStartHeight + Tools.cryptonotePruningStripeSize then
    nextUnprunedHeight.toUInt64
  else spanStartHeight

/-- `reserve_span(first_block_height, last_block_height, max_blocks, connection_id, ...)`: the
span it reserves, `(0, 0)` when it reserves none, and the queue after it. -/
def reserveSpan (q : BlockQueue H C B) (firstBlockHeight lastBlockHeight maxBlocks : UInt64)
    (connectionId : C) (syncPrunedBlocks : Bool) (localPruningSeed pruningSeed : UInt32)
    (blockchainHeight : UInt64) (blockHashes : List (H × UInt64)) :
    Except String ((UInt64 × UInt64) × BlockQueue H C B) :=
  if lastBlockHeight < firstBlockHeight || maxBlocks == 0 then pure ((0, 0), q)
  else if blockHashes.length.toUInt64 > lastBlockHeight then pure ((0, 0), q)
  else
    -- skip everything already requested
    let spanStartHeight := (skipRequested q.requestedHashes blockHashes
      (lastBlockHeight - blockHashes.length.toUInt64 + 1)).2
    let spanStartHeight := if !syncPrunedBlocks then
        nextUnprunedStart spanStartHeight blockchainHeight pruningSeed
      else spanStartHeight
    let blockHashesStartHeight := lastBlockHeight - blockHashes.length.toUInt64 + 1
    if spanStartHeight ≥ blockHashes.length.toUInt64 + blockHashesStartHeight then
      pure ((0, 0), q)
    else
      let (i, spanStartHeight) := skipRequested q.requestedHashes
        (blockHashes.drop (spanStartHeight - blockHashesStartHeight).toNat) spanStartHeight
      let firstIsPruned := syncPrunedBlocks &&
        !Tools.hasUnprunedBlock spanStartHeight blockchainHeight localPruningSeed
      let (spanLength, hashes) := reserveLoop maxBlocks syncPrunedBlocks firstIsPruned
        localPruningSeed pruningSeed blockchainHeight spanStartHeight i 0 []
      if spanLength == 0 then pure ((0, 0), q)
      else do
        let q ← q.addBlocksOfCount spanStartHeight spanLength connectionId
        pure ((spanStartHeight, spanLength), q.setSpanHashes spanStartHeight connectionId hashes)

/-! ## Queries -/

/-- `requested(hash)`. -/
def requested (q : BlockQueue H C B) (hash : H) : Bool := hash ∈ q.requestedHashes

/-- `have(hash)`. -/
def «have» (q : BlockQueue H C B) (hash : H) : Bool := hash ∈ q.haveBlocks

/-- `get_max_block_height`: the highest last height of a span, `0` with no span. -/
def getMaxBlockHeight (q : BlockQueue H C B) : UInt64 :=
  q.blocks.foldl (fun height span =>
    let h := span.startBlockHeight + span.nblocks - 1
    if h > height then h else height) 0

/-- The loop of `get_next_needed_height` over the spans in order. -/
def getNextNeededHeightLoop (blockchainHeight : UInt64) :
    List (Span H C B) → UInt64 → Bool → UInt64
  | [], lastNeededHeight, _ => lastNeededHeight
  | span :: rest, lastNeededHeight, first =>
    if span.startBlockHeight + span.nblocks - 1 < blockchainHeight then
      getNextNeededHeightLoop blockchainHeight rest lastNeededHeight first
    else if span.startBlockHeight != lastNeededHeight || (first && span.blocks.isEmpty) then
      lastNeededHeight
    else getNextNeededHeightLoop blockchainHeight rest (span.startBlockHeight + span.nblocks) false

/-- `get_next_needed_height(blockchain_height)`: the height after the spans that follow on from
the chain, the first of them filled. -/
def getNextNeededHeight (q : BlockQueue H C B) (blockchainHeight : UInt64) : UInt64 :=
  if q.blocks.isEmpty then blockchainHeight
  else getNextNeededHeightLoop blockchainHeight q.blocks blockchainHeight true

/-- `get_next_span(height, bcel, connection_id, addr, filled)`: the first span, or the first
filled one. -/
def getNextSpan (q : BlockQueue H C B) (filled : Bool) : Option (UInt64 × List B × C) :=
  (q.blocks.find? fun i => !filled || !i.blocks.isEmpty).map
    fun i => (i.startBlockHeight, i.blocks, i.connectionId)

/-- `get_next_span_if_scheduled`: the first span when it is scheduled, `(0, 0)` otherwise. -/
def getNextSpanIfScheduled (q : BlockQueue H C B) :
    (UInt64 × UInt64) × Option (List H × C) :=
  match q.blocks with
  | [] => ((0, 0), none)
  | i :: _ =>
    if !i.blocks.isEmpty then ((0, 0), none)
    else ((i.startBlockHeight, i.nblocks), some (i.hashes, i.connectionId))

/-- `has_next_span(connection_id, filled, time)`: whether the first span is the connection's,
and then whether it is filled. -/
def hasNextSpan (q : BlockQueue H C B) (connectionId : C) : Option Bool :=
  match q.blocks with
  | [] => none
  | i :: _ => if i.connectionId != connectionId then none else some !i.blocks.isEmpty

/-- `has_next_span(height, filled, time, connection_id)`: whether the first span starts at or
below the height, and then whether it is filled and its connection. -/
def hasNextSpanAt (q : BlockQueue H C B) (height : UInt64) : Option (Bool × C) :=
  match q.blocks with
  | [] => none
  | i :: _ => if i.startBlockHeight > height then none else some (!i.blocks.isEmpty, i.connectionId)

/-- `get_num_filled_spans_prefix`: how many spans from the first on are filled. -/
def getNumFilledSpansPrefix (q : BlockQueue H C B) : ℕ :=
  (q.blocks.takeWhile fun i => !i.blocks.isEmpty).length

/-- `get_num_filled_spans`. -/
def getNumFilledSpans (q : BlockQueue H C B) : ℕ :=
  q.blocks.countP fun span => !span.blocks.isEmpty

/-- `get_last_known_hash(connection_id)`: the last hash of the connection's highest span whose
hashes are all known. -/
def getLastKnownHash (q : BlockQueue H C B) (connectionId : C) : Option H :=
  (q.blocks.foldl (fun (acc : Option H × UInt64) span =>
    if span.connectionId != connectionId then acc
    else
      let h := span.startBlockHeight + span.nblocks - 1
      if h > acc.2 && span.hashes.length.toUInt64 == span.nblocks then (span.hashes.getLast?, h)
      else acc) (none, 0)).1

/-- `has_spans(connection_id)`. -/
def hasSpans (q : BlockQueue H C B) (connectionId : C) : Bool :=
  q.blocks.any fun span => span.connectionId == connectionId

/-! ## Runs -/

/-- The calls that change the queue. -/
inductive Event (H C B : Type)
  | addBlocks (height : UInt64) (bcel : List B) (connectionId : C)
  | addBlocksOfCount (height nblocks : UInt64) (connectionId : C)
  | flushSpans (connectionId : C) (all : Bool)
  | flushStaleSpans (liveConnections : Finset C)
  | removeSpan (startBlockHeight : UInt64)
  | removeSpans (connectionId : C) (startBlockHeight : UInt64)
  | setSpanHashes (startHeight : UInt64) (connectionId : C) (hashes : List H)
  | reserveSpan (firstBlockHeight lastBlockHeight maxBlocks : UInt64) (connectionId : C)
      (syncPrunedBlocks : Bool) (localPruningSeed pruningSeed : UInt32)
      (blockchainHeight : UInt64) (blockHashes : List (H × UInt64))

/-- The queue after one call; `none` when the call throws. -/
def next (q : BlockQueue H C B) : Event H C B → Option (BlockQueue H C B)
  | .addBlocks height bcel connectionId => some (q.addBlocks height bcel connectionId)
  | .addBlocksOfCount height nblocks connectionId =>
    (q.addBlocksOfCount height nblocks connectionId).toOption
  | .flushSpans connectionId all => some (q.flushSpans connectionId all)
  | .flushStaleSpans liveConnections => some (q.flushStaleSpans liveConnections)
  | .removeSpan startBlockHeight => some (q.removeSpan startBlockHeight).2
  | .removeSpans connectionId startBlockHeight => some (q.removeSpans connectionId startBlockHeight)
  | .setSpanHashes startHeight connectionId hashes =>
    some (q.setSpanHashes startHeight connectionId hashes)
  | .reserveSpan first last maxBlocks connectionId syncPruned localSeed seed height hashes =>
    ((q.reserveSpan first last maxBlocks connectionId syncPruned localSeed seed height
      hashes).map (·.2)).toOption

/-- One call on the queue that returns. -/
def Step (q q' : BlockQueue H C B) : Prop :=
  ∃ e, q.next e = some q'

/-- A queue as the node creates it. -/
def Started (q : BlockQueue H C B) : Prop :=
  q = empty

end BlockQueue

end Cryptonote

end Wazn
