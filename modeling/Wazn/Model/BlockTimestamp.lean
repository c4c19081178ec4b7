import Mathlib
import Wazn.Model.Median

/-!
# The block timestamp check (`blockchain.cpp`)

A block's timestamp may not be earlier than the median of the timestamps of the
`BLOCKCHAIN_TIMESTAMP_CHECK_WINDOW` blocks before it. On the main chain,
`check_block_timestamp` reads the last 60 blocks of the database, and skips the check while
the chain is shorter than that. A block on an alternative chain is checked by
`handle_alternative_block` against the timestamps that `build_alt_chain` gathers: those of
the alternative blocks it walks back through, newest first, and then, by
`complete_timestamps_vector`, those of main-chain blocks below the fork point, counting
down from it.

Block ids are of any type with decidable equality: the code only compares hashes. The state
is the part of the database that these functions read: the block id and the timestamp of
each main-chain block, by height, and the alternative-block table, keyed by block id, with
the height, the timestamp and the parent id of each block. The other checks of
`handle_alternative_block` (height, checkpoints, version) come before the timestamp check
and are not modelled.
-/

set_option autoImplicit false

namespace Wazn

namespace Blockchain

/-- `BLOCKCHAIN_TIMESTAMP_CHECK_WINDOW`. -/
def blockchainTimestampCheckWindow : ℕ := 60

/-- `CRYPTONOTE_BLOCK_FUTURE_TIME_LIMIT`. -/
def cryptonoteBlockFutureTimeLimit : UInt64 := 60 * 60 * 2

/-- A main-chain block as the timestamp checks see it. -/
structure MainBlock (κ : Type) where
  hash : κ
  timestamp : UInt64
  deriving DecidableEq, Repr

/-- The part of an alternative block's `alt_block_data_t` and parsed block that
`build_alt_chain` reads. -/
structure AltBlock (κ : Type) where
  height : ℕ
  timestamp : UInt64
  prevId : κ
  deriving DecidableEq, Repr

/-- The main chain, by height, and the alternative-block table. -/
structure TimestampDB (κ : Type) where
  blocks : List (MainBlock κ)
  altBlocks : List (κ × AltBlock κ)

namespace TimestampDB

variable {κ : Type} [DecidableEq κ] (db : TimestampDB κ)

/-- `m_db->height()`. -/
def height : ℕ := db.blocks.length

/-- `BlockchainLMDB::get_block_timestamp`. -/
def getBlockTimestamp (height : ℕ) : Except String UInt64 :=
  match db.blocks[height]? with
  | some b => .ok b.timestamp
  | none => .error ("Attempt to get timestamp from height " ++ toString height ++
      " failed -- timestamp not in db")

/-- `BlockchainLMDB::get_block_hash_from_height`. -/
def getBlockHashFromHeight (height : ℕ) : Except String κ :=
  match db.blocks[height]? with
  | some b => .ok b.hash
  | none => .error ("Attempt to get hash from height " ++ toString height ++
      " failed -- hash not in db")

/-- `BlockchainLMDB::block_exists`. -/
def blockExists (id : κ) : Bool :=
  db.blocks.any fun b => b.hash = id

/-- `BlockchainLMDB::get_block_height`. -/
def getBlockHeight (id : κ) : Except String ℕ :=
  match db.blocks.findIdx? fun b => b.hash = id with
  | some h => .ok h
  | none => .error "Attempted to retrieve non-existent block height"

/-- `BlockchainLMDB::get_alt_block`. -/
def getAltBlock (id : κ) : Option (AltBlock κ) :=
  db.altBlocks.lookup id

/-- The countdown loop of `complete_timestamps_vector`: push the timestamps of the heights
`startTopHeight`, `startTopHeight - 1`, ... down to `stopOffset`, which is not pushed. The
caller passes `stopOffset ≤ startTopHeight`. -/
def completeTimestampsLoop (stopOffset : ℕ) :
    ℕ → List UInt64 → Except String (List UInt64)
  | 0, timestamps => pure timestamps
  | startTopHeight + 1, timestamps =>
    if startTopHeight + 1 = stopOffset then pure timestamps
    else do
      let timestamp ← db.getBlockTimestamp (startTopHeight + 1)
      completeTimestampsLoop stopOffset startTopHeight (timestamps ++ [timestamp])

/-- `complete_timestamps_vector`: top `timestamps` up to `BLOCKCHAIN_TIMESTAMP_CHECK_WINDOW`
values with main-chain timestamps from `startTopHeight` down. The flag is the function's
result: `false` when `startTopHeight` is not below the chain's height. -/
def completeTimestampsVector (startTopHeight : ℕ) (timestamps : List UInt64) :
    Except String (Bool × List UInt64) :=
  if blockchainTimestampCheckWindow ≤ timestamps.length then pure (true, timestamps)
  else
    let needElements := blockchainTimestampCheckWindow - timestamps.length
    if ¬ startTopHeight < db.height then pure (false, timestamps)
    else
      let stopOffset := if needElements < startTopHeight then startTopHeight - needElements
        else 0
      do
        let timestamps ← db.completeTimestampsLoop stopOffset startTopHeight timestamps
        pure (true, timestamps)

/-- The loop of `build_alt_chain`: from `id`, look each block up in the alternative-block
table and go on with its parent; the blocks met, newest first. The source loops while the
lookup succeeds; a walk longer than the table would meet a block twice and never end, so
the model's `fuel` is the size of the table. -/
def walkAltChain : ℕ → κ → List (AltBlock κ)
  | 0, _ => []
  | fuel + 1, id =>
    match db.getAltBlock id with
    | none => []
    | some data => data :: walkAltChain fuel data.prevId

/-- `build_alt_chain`: the alternative chain that ends at `prevId`, front first, and the
timestamps against which a block on top of it is checked: the alternative chain's, newest
first, then the main chain's from the fork point down. `none` where the function returns
`false`; the result of `complete_timestamps_vector` is not checked. -/
def buildAltChain (prevId : κ) : Except String (Option (List (AltBlock κ) × List UInt64)) :=
  let walked := db.walkAltChain db.altBlocks.length prevId
  let timestamps := walked.map AltBlock.timestamp
  -- `alt_chain` grows by `push_front`: its front is the block next to the main chain
  let altChain := walked.reverse
  match altChain with
  | front :: _ =>
    if ¬ front.height < db.height then pure none
    else if ¬ db.blockExists front.prevId then pure none
    else do
      -- `front.height - 1` in `uint64_t`
      let h ← db.getBlockHashFromHeight
        (if front.height = 0 then 2 ^ 64 - 1 else front.height - 1)
      if h ≠ front.prevId then pure none
      else
        let startTopHeight ← db.getBlockHeight front.prevId
        let (_, timestamps) ← db.completeTimestampsVector startTopHeight timestamps
        pure (some (altChain, timestamps))
  | [] =>
    if ¬ db.blockExists prevId then pure none
    else do
      let startTopHeight ← db.getBlockHeight prevId
      let (_, timestamps) ← db.completeTimestampsVector startTopHeight timestamps
      pure (some (altChain, timestamps))

/-- `check_block_timestamp(timestamps, b, median_ts)`: the verdict on a block with timestamp
`timestamp`, and the median it was compared with. -/
def checkBlockTimestampWithMedian (timestamps : List UInt64) (timestamp : UInt64) :
    Bool × UInt64 :=
  let medianTs := MiscUtils.median timestamps
  (!(timestamp < medianTs), medianTs)

/-- `check_block_timestamp(b, median_ts)` on the main chain, at local time `now`: a block
too far in the future is refused; below `BLOCKCHAIN_TIMESTAMP_CHECK_WINDOW` blocks every
block passes; otherwise the median of the last 60 blocks decides. The median is returned
when it was computed. -/
def checkBlockTimestamp (now timestamp : UInt64) : Except String (Bool × Option UInt64) :=
  if now + cryptonoteBlockFutureTimeLimit < timestamp then pure (false, none)
  else
    let h := db.height
    if h < blockchainTimestampCheckWindow then pure (true, none)
    else do
      let offset := h - blockchainTimestampCheckWindow
      let timestamps ← (List.range' offset (h - offset)).mapM db.getBlockTimestamp
      let (ok, medianTs) := checkBlockTimestampWithMedian timestamps timestamp
      pure (ok, some medianTs)

/-- The timestamp check of `handle_alternative_block` for a block with parent `prevId`: a
parent that is neither an alternative nor a main-chain block makes the block an orphan,
which is not checked here; otherwise `build_alt_chain`, and `check_block_timestamp` against
the timestamps it gathered. `none` where the block is refused or set aside before its
timestamp is looked at. -/
def checkAltBlockTimestamp (prevId : κ) (timestamp : UInt64) :
    Except String (Option (Bool × UInt64)) :=
  if (db.getAltBlock prevId).isSome || db.blockExists prevId then do
    match ← db.buildAltChain prevId with
    | none => pure none
    | some (_, timestamps) => pure (some (checkBlockTimestampWithMedian timestamps timestamp))
  else pure none

end TimestampDB

end Blockchain

end Wazn
