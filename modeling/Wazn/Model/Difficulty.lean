import Mathlib.Data.List.Sort
import Mathlib.Data.BitVec

/-!
# The difficulty of the next block

`next_difficulty` (`difficulty.cpp`) turns the timestamps and cumulative difficulties of
a window of blocks into the difficulty of the next block. The blockchain calls it in
three places, each building the window its own way:

* `get_difficulty_for_next_block` reads the last `DIFFICULTY_BLOCKS_COUNT` blocks of the
  main chain below its height, the genesis block excluded;
* `get_next_difficulty_for_alternative_chain` reads main-chain blocks below the fork
  point and then the blocks of the alternative chain, or only the last
  `DIFFICULTY_BLOCKS_COUNT` blocks of the alternative chain when it is that long;
* `recalculate_difficulties` slides a window up the main chain from a start height,
  recomputing every cumulative difficulty from there and writing back those that drifted.

`difficulty_type` is boost's unchecked `uint128_t`, modelled as `BitVec 128`; timestamps
are `uint64_t`. The database is the list of the `block_info` records of the main chain,
of which the model keeps the timestamp and the cumulative difficulty; a read past the top
throws `BLOCK_DNE` with the source's message. The cache of `get_difficulty_for_next_block`
(`m_timestamps`, `m_difficulties`, the cached top hash) only feeds a consistency log: the
value returned is always computed from the database, and the model computes only that.
-/

set_option autoImplicit false

namespace Wazn

/-- `difficulty_type`: an unsigned 128-bit integer that wraps. -/
abbrev DifficultyType := BitVec 128

def difficultyTargetV2 : ℕ := 120

def difficultyTargetV1 : ℕ := 120

def difficultyWindow : ℕ := 360

def difficultyLag : ℕ := 15

def difficultyCut : ℕ := 60

/-- `DIFFICULTY_BLOCKS_COUNT`, defined as `DIFFICULTY_WINDOW + DIFFICULTY_LAG` without
parentheses; every use of it in the source is at a place where that parses as the sum. -/
def difficultyBlocksCount : ℕ := difficultyWindow + difficultyLag

/-- `std::vector::resize`: cut to `n` elements, or pad with `a` up to `n`. -/
def vectorResize {α : Type} (l : List α) (n : ℕ) (a : α) : List α :=
  l.take n ++ List.replicate (n - l.length) a

/-- `next_difficulty`: sort the timestamps of the window, cut `DIFFICULTY_CUT` outliers
from each end, and divide the work done between the ends by the time it took, scaled to
the target block time and rounded up. A result above `2^128 - 1` becomes 0. -/
def nextDifficulty (timestamps : List UInt64) (cumulativeDifficulties : List DifficultyType)
    (targetSeconds : ℕ) : DifficultyType :=
  -- cutoff DIFFICULTY_LAG
  let (timestamps, cumulativeDifficulties) :=
    if timestamps.length > difficultyWindow then
      (vectorResize timestamps difficultyWindow 0,
        vectorResize cumulativeDifficulties difficultyWindow 0)
    else (timestamps, cumulativeDifficulties)
  let length := timestamps.length
  if length ≤ 1 then 1
  else
    let timestamps := timestamps.insertionSort (· ≤ ·)
    let (cutBegin, cutEnd) :=
      if length ≤ difficultyWindow - 2 * difficultyCut then (0, length)
      else
        let cutBegin := (length - (difficultyWindow - 2 * difficultyCut) + 1) / 2
        (cutBegin, cutBegin + (difficultyWindow - 2 * difficultyCut))
    let timeSpan := timestamps.getD (cutEnd - 1) 0 - timestamps.getD cutBegin 0
    let timeSpan := if timeSpan = 0 then 1 else timeSpan
    let totalWork := cumulativeDifficulties.getD (cutEnd - 1) 0 -
      cumulativeDifficulties.getD cutBegin 0
    -- computed in `uint256_t`, where it cannot overflow
    let res := (totalWork.toNat * targetSeconds + timeSpan.toNat - 1) / timeSpan.toNat
    if res > 2 ^ 128 - 1 then 0 else BitVec.ofNat 128 res

/-- The part of a `block_info` record that the difficulty code reads. -/
@[ext] structure BlockInfo where
  timestamp : UInt64
  cumulativeDifficulty : DifficultyType
  deriving DecidableEq, Repr, Inhabited

/-- The part of `block_extended_info` that the alternative-chain code reads: the block's
height, the timestamp of `bl`, and the cumulative difficulty. -/
structure BlockExtendedInfo where
  height : ℕ
  timestamp : UInt64
  cumulativeDifficulty : DifficultyType
  deriving DecidableEq, Repr, Inhabited

/-- The state of `Blockchain` the difficulty code reads: the `block_info` records of the
main chain, `m_fixed_difficulty`, and the hard-fork versions that choose the target. -/
structure Blockchain where
  db : List BlockInfo
  fixedDifficulty : DifficultyType
  currentHardForkVersion : UInt8
  idealHardForkVersion : ℕ → UInt8

namespace Blockchain

variable (bc : Blockchain)

/-- `m_db->height()`. -/
def height : ℕ := bc.db.length

/-- `BlockchainLMDB::get_block_timestamp`. -/
def getBlockTimestamp (height : ℕ) : Except String UInt64 :=
  match bc.db[height]? with
  | some b => .ok b.timestamp
  | none => .error ("Attempt to get timestamp from height " ++ toString height ++
      " failed -- timestamp not in db")

/-- `BlockchainLMDB::get_block_cumulative_difficulty`. -/
def getBlockCumulativeDifficulty (height : ℕ) : Except String DifficultyType :=
  match bc.db[height]? with
  | some b => .ok b.cumulativeDifficulty
  | none => .error ("Attempt to get cumulative difficulty from height " ++ toString height ++
      " failed -- difficulty not in db")

/-- The body of the loops that read a window from the database: the timestamp, then the
cumulative difficulty, of one height. -/
def readWindowEntry (height : ℕ) : Except String (UInt64 × DifficultyType) := do
  let timestamp ← bc.getBlockTimestamp height
  let difficulty ← bc.getBlockCumulativeDifficulty height
  pure (timestamp, difficulty)

/-- `get_difficulty_target`. -/
def getDifficultyTarget : ℕ :=
  if bc.currentHardForkVersion < 2 then difficultyTargetV1 else difficultyTargetV2

/-- `get_difficulty_for_next_block`: `next_difficulty` over the blocks from
`max(1, height - DIFFICULTY_BLOCKS_COUNT)` to the top. -/
def getDifficultyForNextBlock : Except String DifficultyType :=
  if bc.fixedDifficulty ≠ 0 then .ok (if bc.height ≠ 0 then bc.fixedDifficulty else 1)
  else do
    let height := bc.height
    let offset := height - min height difficultyBlocksCount
    let offset := if offset = 0 then offset + 1 else offset
    let window ← (List.range' offset (height - offset)).mapM bc.readWindowEntry
    pure (nextDifficulty (window.map Prod.fst) (window.map Prod.snd) bc.getDifficultyTarget)

/-- The target of the block at `height` in `recalculate_difficulties` and in
`get_next_difficulty_for_alternative_chain`: by the ideal version at that height. -/
def idealDifficultyTarget (height : ℕ) : ℕ :=
  if bc.idealHardForkVersion height < 2 then difficultyTargetV1 else difficultyTargetV2

/-- The `else` branch of `get_next_difficulty_for_alternative_chain`: vectors of
`DIFFICULTY_BLOCKS_COUNT` zeros, written from the back with the alternative chain's
blocks, newest first, until they are full. -/
def fillFromAltChain (altChain : List BlockExtendedInfo) : List UInt64 × List DifficultyType :=
  let maxI := difficultyBlocksCount - 1
  ((altChain.reverse.take difficultyBlocksCount).zipIdx).foldl
    (fun acc p => (acc.1.set (maxI - p.2) p.1.timestamp,
      acc.2.set (maxI - p.2) p.1.cumulativeDifficulty))
    (List.replicate difficultyBlocksCount 0, List.replicate difficultyBlocksCount 0)

/-- `get_next_difficulty_for_alternative_chain`: the difficulty of the block `bei` that
extends the alternative chain `altChain`. A short alternative chain is completed below
its fork point with main-chain blocks; the internal-error check answers `false`, which
converts to the difficulty 0. -/
def getNextDifficultyForAlternativeChain (altChain : List BlockExtendedInfo)
    (bei : BlockExtendedInfo) : Except String DifficultyType :=
  if bc.fixedDifficulty ≠ 0 then .ok (if bc.height ≠ 0 then bc.fixedDifficulty else 1)
  else
    let target := bc.idealDifficultyTarget bei.height
    if altChain.length < difficultyBlocksCount then do
      let mainChainStopOffset := (altChain.head?.map BlockExtendedInfo.height).getD bei.height
      let mainChainCount := difficultyBlocksCount - min difficultyBlocksCount altChain.length
      let mainChainCount := min mainChainCount mainChainStopOffset
      let mainChainStartOffset := mainChainStopOffset - mainChainCount
      -- skip genesis block
      let mainChainStartOffset :=
        if mainChainStartOffset = 0 then mainChainStartOffset + 1 else mainChainStartOffset
      let window ← (List.range' mainChainStartOffset
        (mainChainStopOffset - mainChainStartOffset)).mapM bc.readWindowEntry
      if altChain.length + window.length ≤ difficultyBlocksCount then
        pure (nextDifficulty (window.map Prod.fst ++ altChain.map BlockExtendedInfo.timestamp)
          (window.map Prod.snd ++ altChain.map BlockExtendedInfo.cumulativeDifficulty) target)
      else pure 0
    else
      let filled := fillFromAltChain altChain
      pure (nextDifficulty filled.1 filled.2 target)

/-- The loop state of `recalculate_difficulties`. -/
structure RecalcState where
  timestamps : List UInt64
  difficulties : List DifficultyType
  lastCumDiff : DifficultyType
  driftStartHeight : ℕ
  newCumulativeDifficulties : List DifficultyType

/-- The seeding loop of `recalculate_difficulties`: `for (i = 0; i < DIFFICULTY_BLOCKS_COUNT;
++i)` read the block at `start_height - 1 - i` and insert it at the front, stopping at the
genesis block. The first argument counts the iterations left. -/
def seedWindow (startHeight : ℕ) :
    ℕ → ℕ → List UInt64 × List DifficultyType → Except String (List UInt64 × List DifficultyType)
  | 0, _, acc => .ok acc
  | n + 1, i, (timestamps, difficulties) =>
    let height := startHeight - 1 - i
    if height = 0 then .ok (timestamps, difficulties)
    else do
      let timestamp ← bc.getBlockTimestamp height
      let difficulty ← bc.getBlockCumulativeDifficulty height
      seedWindow startHeight n (i + 1) (timestamp :: timestamps, difficulty :: difficulties)

/-- `recalculated_cum_diff` at `height`: the difficulty of the window added to
`last_cum_diff` in `uint256_t`, which must fit in `difficulty_type`. -/
def recalculatedCumDiff (st : RecalcState) (height : ℕ) : Except String DifficultyType :=
  let recalculatedDiff :=
    nextDifficulty st.timestamps st.difficulties (bc.idealDifficultyTarget height)
  let recalculatedCumDiff256 := recalculatedDiff.toNat + st.lastCumDiff.toNat
  if recalculatedCumDiff256 > 2 ^ 128 - 1 then throw "Difficulty overflow!"
  else pure (BitVec.ofNat 128 recalculatedCumDiff256)

/-- `if (drift_start_height == 0)`: compare with the stored cumulative difficulty until
the first height where they differ, and remember that height. -/
def detectDrift (driftStartHeight height : ℕ) (recalculatedCumDiff : DifficultyType) :
    Except String ℕ :=
  if driftStartHeight = 0 then do
    let existingCumDiff ← bc.getBlockCumulativeDifficulty height
    pure (if recalculatedCumDiff ≠ existingCumDiff then height else driftStartHeight)
  else pure driftStartHeight

/-- `if (height > 0)`: push the block's timestamp and its recalculated cumulative
difficulty onto the window. -/
def pushWindow (timestamps : List UInt64) (difficulties : List DifficultyType) (height : ℕ)
    (recalculatedCumDiff : DifficultyType) : Except String (List UInt64 × List DifficultyType) :=
  if height > 0 then do
    let timestamp ← bc.getBlockTimestamp height
    pure (timestamps ++ [timestamp], difficulties ++ [recalculatedCumDiff])
  else pure (timestamps, difficulties)

/-- `if (timestamps.size() > DIFFICULTY_BLOCKS_COUNT)`: drop the oldest entry, after
checking that the window grew by one only. -/
def trimDifficultyWindow (window : List UInt64 × List DifficultyType) :
    Except String (List UInt64 × List DifficultyType) :=
  if window.1.length > difficultyBlocksCount then
    if window.1.length = difficultyBlocksCount + 1 then pure (window.1.tail, window.2.tail)
    else throw ("Wrong timestamps size: " ++ toString window.1.length)
  else pure window

/-- One iteration of the main loop of `recalculate_difficulties`, at `height`: recompute
the cumulative difficulty from the window, note the first height where it differs from the
stored one and collect the recomputed values from there, then slide the window. -/
def recalculateStep (st : RecalcState) (height : ℕ) : Except String RecalcState := do
  let recalculatedCumDiff ← bc.recalculatedCumDiff st height
  let driftStartHeight ← bc.detectDrift st.driftStartHeight height recalculatedCumDiff
  let newCumulativeDifficulties :=
    if driftStartHeight > 0 then st.newCumulativeDifficulties ++ [recalculatedCumDiff]
    else st.newCumulativeDifficulties
  let pushed ← bc.pushWindow st.timestamps st.difficulties height recalculatedCumDiff
  let window ← trimDifficultyWindow pushed
  pure {
    timestamps := window.1
    difficulties := window.2
    lastCumDiff := recalculatedCumDiff
    driftStartHeight := driftStartHeight
    newCumulativeDifficulties := newCumulativeDifficulties }

/-- `BlockchainLMDB::correct_block_cumulative_difficulties`: overwrite the cumulative
difficulties from `startHeight` to the top. -/
def correctBlockCumulativeDifficulties (startHeight : ℕ)
    (newCumulativeDifficulties : List DifficultyType) : Except String Blockchain :=
  if startHeight + newCumulativeDifficulties.length ≠ bc.height then
    .error "Incorrect new_cumulative_difficulties size"
  else
    .ok { bc with
      db := bc.db.mapIdx fun height b =>
        if startHeight ≤ height then
          { b with cumulativeDifficulty := newCumulativeDifficulties.getD (height - startHeight) 0 }
        else b }

/-- The loop state `recalculate_difficulties` starts from at `startHeight`: the seeded
window, and `last_cum_diff = start_height <= 1 ? start_height : difficulties.back()`. -/
def recalculateInit (startHeight : ℕ) : Except String RecalcState := do
  let seeded ←
    if startHeight > 1 then bc.seedWindow startHeight difficultyBlocksCount 0 ([], [])
    else pure ([], [])
  let lastCumDiff : DifficultyType :=
    if startHeight ≤ 1 then BitVec.ofNat 128 startHeight else seeded.2.getLastD 0
  pure {
    timestamps := seeded.1
    difficulties := seeded.2
    lastCumDiff := lastCumDiff
    driftStartHeight := 0
    newCumulativeDifficulties := [] }

/-- `recalculate_difficulties`: recompute the cumulative difficulties from `startHeight`
to the top and write back those from the first that drifted; returns how many were
written. A failed write is logged and dropped. -/
def recalculateDifficulties (startHeight : ℕ) : Except String (ℕ × Blockchain) :=
  if bc.fixedDifficulty ≠ 0 then .ok (0, bc)
  else do
    -- `m_db->height() - 1` in `uint64_t`
    let topHeight := (bc.height + (2 ^ 64 - 1)) % 2 ^ 64
    let st₀ ← bc.recalculateInit startHeight
    let st ← (List.range' startHeight (topHeight + 1 - startHeight)).foldlM bc.recalculateStep st₀
    if st.driftStartHeight > 0 then
      let corrected :=
        match bc.correctBlockCumulativeDifficulties st.driftStartHeight
            st.newCumulativeDifficulties with
        | .ok bc' => bc'
        | .error _ => bc
      pure (st.newCumulativeDifficulties.length, corrected)
    else pure (st.newCumulativeDifficulties.length, bc)

end Blockchain

end Wazn
