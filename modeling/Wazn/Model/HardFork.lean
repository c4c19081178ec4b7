import Mathlib.Data.List.Chain
import Wazn.Library.Tally

/-!
# The hard-fork tracker

`HardFork` (src/cryptonote_basic/hardfork.cpp) decides which consensus version each
height runs. It owns the fork schedule `heights`, which `add_fork` extends in
increasing order, a rolling window `versions` of the votes of the last `window_size`
blocks with the histogram `last_versions` of those votes, and `current_fork_index`,
the index in `heights` of the fork in force. Every block it accepts has its version
written to the database table that `get` reads back.

The model keeps every field that the operations below read or write, and the part of
the database they use. `forked_time` and `update_time` (read only by `get_state`) and
`original_version_till_height` (read only by the private `get_block_version`, which
no operation calls) are left out. The `unsigned int` vote counters and the vote sum of
`get_voted_fork_index` are natural numbers here; they could wrap only past `2^32`
votes in one window.
-/

set_option autoImplicit false

namespace Wazn

/-- The two fields of `cryptonote::block` that the tracker reads. -/
structure BlockVersion where
  majorVersion : UInt8
  minorVersion : UInt8
deriving DecidableEq, Repr, Inhabited

/-- `get_block_vote`: blocks from before voting carry a minor version of 0, which
counts as a vote for version 1. -/
def getBlockVote (b : BlockVersion) : UInt8 :=
  if b.minorVersion = 0 then 1 else b.minorVersion

/-- `get_block_version`. -/
def getBlockVersion (b : BlockVersion) : UInt8 :=
  b.majorVersion

/-- The database as the tracker sees it: the stored blocks, and the `hf_versions` table
of the version each height was accepted under. `get_block_from_height` and
`get_hard_fork_version` throw for a height that was never stored; the tracker only
reads heights below `height`. -/
structure BlockchainDB where
  blocks : List BlockVersion
  hfVersions : ℕ → UInt8

namespace BlockchainDB

/-- `BlockchainDB::height`. -/
def height (db : BlockchainDB) : ℕ :=
  db.blocks.length

/-- `BlockchainDB::get_block_from_height`. -/
def getBlockFromHeight (db : BlockchainDB) (h : ℕ) : BlockVersion :=
  db.blocks.getD h default

/-- `BlockchainDB::set_hard_fork_version`: a put that overwrites. -/
def setHardForkVersion (db : BlockchainDB) (h : ℕ) (v : UInt8) : BlockchainDB :=
  { db with hfVersions := Function.update db.hfVersions h v }

/-- `BlockchainDB::get_hard_fork_version`. -/
def getHardForkVersion (db : BlockchainDB) (h : ℕ) : UInt8 :=
  db.hfVersions h

/-- The block store after `add_block` appends `b`. -/
def addBlock (db : BlockchainDB) (b : BlockVersion) : BlockchainDB :=
  { db with blocks := db.blocks ++ [b] }

/-- The block store after `pop_block` was called `n` times. The `hf_versions` entries of
the popped heights stay, as in the LMDB store. -/
def popBlocks (db : BlockchainDB) (n : ℕ) : BlockchainDB :=
  { db with blocks := db.blocks.take (db.height - n) }

@[simp] theorem height_addBlock (db : BlockchainDB) (b : BlockVersion) :
    (db.addBlock b).height = db.height + 1 := by
  simp [addBlock, height]

@[simp] theorem height_popBlocks (db : BlockchainDB) (n : ℕ) :
    (db.popBlocks n).height = db.height - n := by
  simp [popBlocks, height]

@[simp] theorem height_setHardForkVersion (db : BlockchainDB) (h : ℕ) (v : UInt8) :
    (db.setHardForkVersion h v).height = db.height := rfl

@[simp] theorem blocks_setHardForkVersion (db : BlockchainDB) (h : ℕ) (v : UInt8) :
    (db.setHardForkVersion h v).blocks = db.blocks := rfl

end BlockchainDB

/-- `hardfork_t`: a fork to `version` allowed from `height` once `threshold` percent of
the window votes for it; `time` is its expected date. -/
structure HardforkT where
  version : UInt8
  height : ℕ
  threshold : UInt8
  time : ℤ
deriving DecidableEq, Repr, Inhabited

/-- The order `add_fork` keeps: each fork strictly later in version, height and time
than the one before it. -/
def HardforkT.Precedes (a b : HardforkT) : Prop :=
  a.version < b.version ∧ a.height < b.height ∧ a.time < b.time

/-- A `HardFork` object. The constructor throws unless the window is positive and the
default threshold at most 100, and `add_fork` appends only a fork that follows the last
one with a threshold of at most 100: the last four fields record these facts. -/
structure HardFork where
  db : BlockchainDB
  windowSize : ℕ
  defaultThresholdPercent : UInt8
  originalVersion : UInt8
  heights : List HardforkT
  versions : List UInt8
  lastVersions : UInt8 → ℕ
  currentForkIndex : ℕ
  windowSize_pos : 0 < windowSize
  defaultThresholdPercent_le : defaultThresholdPercent.toNat ≤ 100
  heights_chain : heights.IsChain HardforkT.Precedes
  heights_threshold : ∀ f ∈ heights, f.threshold.toNat ≤ 100

namespace HardFork

/-- `HardFork::HardFork`: `none` when it throws. The vote counters start uninitialized
in the source; `init` clears them before any use, and they are zero here. -/
def create (db : BlockchainDB) (originalVersion : UInt8) (windowSize : ℕ)
    (defaultThresholdPercent : UInt8) : Option HardFork :=
  if h : 0 < windowSize ∧ defaultThresholdPercent.toNat ≤ 100 then
    some {
      db := db
      windowSize := windowSize
      defaultThresholdPercent := defaultThresholdPercent
      originalVersion := originalVersion
      heights := []
      versions := []
      lastVersions := fun _ => 0
      currentForkIndex := 0
      windowSize_pos := h.1
      defaultThresholdPercent_le := h.2
      heights_chain := .nil
      heights_threshold := by simp }
  else none

variable (hf : HardFork)

/-- `heights[i]`. -/
def forkAt (i : ℕ) : HardforkT :=
  hf.heights.getD i default

/-- Whether `add_fork` accepts a fork: a non-zero version, later than the last fork in
version, height and time, with a threshold of at most 100. -/
def acceptsFork (version : UInt8) (height : ℕ) (threshold : UInt8) (time : ℤ) : Prop :=
  version ≠ 0 ∧
    (hf.heights.getLast?.all fun b => b.version < version ∧ b.height < height ∧ b.time < time) ∧
    threshold.toNat ≤ 100

instance (version : UInt8) (height : ℕ) (threshold : UInt8) (time : ℤ) :
    Decidable (hf.acceptsFork version height threshold time) := by
  unfold acceptsFork
  infer_instance

/-- `HardFork::add_fork`. -/
def addFork (version : UInt8) (height : ℕ) (threshold : UInt8) (time : ℤ) : Bool × HardFork :=
  if hacc : hf.acceptsFork version height threshold time then
    (true, { hf with
      heights := hf.heights ++ [⟨version, height, threshold, time⟩]
      heights_chain := by
        refine hf.heights_chain.append (.singleton _) ?_
        intro x hx y hy
        have hlast := hacc.2.1
        rw [Option.mem_def] at hx
        simp only [List.head?_cons, Option.mem_def, Option.some.injEq] at hy
        subst hy
        simpa [hx, HardforkT.Precedes] using hlast
      heights_threshold := by
        intro f hf'
        rcases List.mem_append.mp hf' with h | h
        · exact hf.heights_threshold f h
        · simp only [List.mem_singleton] at h
          subst h
          exact hacc.2.2 })
  else (false, hf)

/-- `get_effective_version`: a vote above the last scheduled version counts for it. -/
def getEffectiveVersion (votingVersion : UInt8) : UInt8 :=
  match hf.heights.getLast? with
  | none => votingVersion
  | some last => if votingVersion > last.version then last.version else votingVersion

/-- `do_check`: the block has the version in force and votes for it or later. -/
def doCheck (blockVersion votingVersion : UInt8) : Bool :=
  blockVersion == (hf.forkAt hf.currentForkIndex).version &&
    decide ((hf.forkAt hf.currentForkIndex).version ≤ votingVersion)

/-- `HardFork::check`. -/
def check (b : BlockVersion) : Bool :=
  hf.doCheck (getBlockVersion b) (getBlockVote b)

/-- The loop of `get_voted_fork_index` over forks `n - 1` down to `0`, with the votes for
the forks from `n` on already summed in `acc`; it falls back to the current index. -/
def votedForkIndexFrom (height : ℕ) : ℕ → ℕ → ℕ
  | 0, _ => hf.currentForkIndex
  | n + 1, acc =>
    let acc' := acc + hf.lastVersions (hf.forkAt n).version
    if (hf.forkAt n).height ≤ height ∧
        (hf.windowSize * (hf.forkAt n).threshold.toNat + 99) / 100 ≤ acc' then n
    else votedForkIndexFrom height n acc'

/-- `get_voted_fork_index`: the latest fork whose height is reached and which, together
with the later forks, has its threshold of votes in the window. -/
def getVotedForkIndex (height : ℕ) : ℕ :=
  hf.votedForkIndexFrom height hf.heights.length 0

/-- `uint8_t voted = get_voted_fork_index(height); if (voted > current_fork_index)
current_fork_index = voted;`, the vote step that `add`, `reorganize_from_block_height`
and `rescan_from_block_height` end with. -/
def raiseForkIndex (height : ℕ) : HardFork :=
  let voted := hf.getVotedForkIndex height % 256
  if hf.currentForkIndex < voted then { hf with currentForkIndex := voted } else hf

@[simp] theorem raiseForkIndex_versions (height : ℕ) :
    (hf.raiseForkIndex height).versions = hf.versions := by
  unfold raiseForkIndex; dsimp only; split <;> rfl

@[simp] theorem raiseForkIndex_lastVersions (height : ℕ) :
    (hf.raiseForkIndex height).lastVersions = hf.lastVersions := by
  unfold raiseForkIndex; dsimp only; split <;> rfl

@[simp] theorem raiseForkIndex_db (height : ℕ) : (hf.raiseForkIndex height).db = hf.db := by
  unfold raiseForkIndex; dsimp only; split <;> rfl

@[simp] theorem raiseForkIndex_heights (height : ℕ) :
    (hf.raiseForkIndex height).heights = hf.heights := by
  unfold raiseForkIndex; dsimp only; split <;> rfl

@[simp] theorem raiseForkIndex_windowSize (height : ℕ) :
    (hf.raiseForkIndex height).windowSize = hf.windowSize := by
  unfold raiseForkIndex; dsimp only; split <;> rfl

@[simp] theorem raiseForkIndex_originalVersion (height : ℕ) :
    (hf.raiseForkIndex height).originalVersion = hf.originalVersion := by
  unfold raiseForkIndex; dsimp only; split <;> rfl

theorem raiseForkIndex_currentForkIndex (height : ℕ) :
    (hf.raiseForkIndex height).currentForkIndex =
      max hf.currentForkIndex (hf.getVotedForkIndex height % 256) := by
  unfold raiseForkIndex
  dsimp only
  split
  · next h => exact (max_eq_right h.le).symm
  · next h => exact (max_eq_left (Nat.le_of_not_lt h)).symm

/-- `last_versions[v]++; versions.push_back(v);` -/
def pushVote (v : UInt8) : HardFork :=
  { hf with versions := hf.versions ++ [v], lastVersions := Tally.bump hf.lastVersions v }

@[simp] theorem pushVote_versions (v : UInt8) : (hf.pushVote v).versions = hf.versions ++ [v] :=
  rfl

@[simp] theorem pushVote_lastVersions (v : UInt8) :
    (hf.pushVote v).lastVersions = Tally.bump hf.lastVersions v := rfl

@[simp] theorem pushVote_db (v : UInt8) : (hf.pushVote v).db = hf.db := rfl

@[simp] theorem pushVote_heights (v : UInt8) : (hf.pushVote v).heights = hf.heights := rfl

@[simp] theorem pushVote_windowSize (v : UInt8) : (hf.pushVote v).windowSize = hf.windowSize :=
  rfl

@[simp] theorem pushVote_currentForkIndex (v : UInt8) :
    (hf.pushVote v).currentForkIndex = hf.currentForkIndex := rfl

/-- `get_effective_version(get_block_vote(db.get_block_from_height(h)))`: the vote that
the stored block at height `h` puts in the window. -/
def storedVote (h : ℕ) : UInt8 :=
  hf.getEffectiveVersion (getBlockVote (hf.db.getBlockFromHeight h))

/-- The loop body of `reorganize_from_block_height` and `rescan_from_block_height`:
count the vote of the stored block at height `h`. -/
def pushBlockVote (h : ℕ) : HardFork :=
  hf.pushVote (hf.storedVote h)

/-- The `while (versions.size() >= window_size)` loop of `add`: drop the oldest votes,
uncounting each, until there is room for one more. -/
def trimWindow (windowSize : ℕ) : List UInt8 → (UInt8 → ℕ) → List UInt8 × (UInt8 → ℕ)
  | [], lv => ([], lv)
  | v :: vs, lv =>
    if windowSize ≤ (v :: vs).length then trimWindow windowSize vs (Tally.unbump lv v)
    else (v :: vs, lv)

/-- The private `HardFork::add(block_version, voting_version, height)`. -/
def addVersion (blockVersion votingVersion : UInt8) (height : ℕ) : Bool × HardFork :=
  if hf.doCheck blockVersion votingVersion then
    let trimmed := trimWindow hf.windowSize hf.versions hf.lastVersions
    let hf₁ : HardFork := { hf with
      db := hf.db.setHardForkVersion height (hf.forkAt hf.currentForkIndex).version
      versions := trimmed.1
      lastVersions := trimmed.2 }
    (true, (hf₁.pushVote (hf.getEffectiveVersion votingVersion)).raiseForkIndex (height + 1))
  else (false, hf)

/-- `HardFork::add(block, height)`. -/
def add (b : BlockVersion) (height : ℕ) : Bool × HardFork :=
  hf.addVersion (getBlockVersion b) (getBlockVote b) height

/-- `versions.clear(); for (n = 0; n < 256; ++n) last_versions[n] = 0;` -/
def clearVotes : HardFork :=
  { hf with versions := [], lastVersions := fun _ => 0 }

@[simp] theorem clearVotes_versions : hf.clearVotes.versions = [] := rfl

@[simp] theorem clearVotes_lastVersions : hf.clearVotes.lastVersions = fun _ => 0 := rfl

@[simp] theorem clearVotes_db : hf.clearVotes.db = hf.db := rfl

@[simp] theorem clearVotes_heights : hf.clearVotes.heights = hf.heights := rfl

@[simp] theorem clearVotes_windowSize : hf.clearVotes.windowSize = hf.windowSize := rfl

@[simp] theorem clearVotes_currentForkIndex :
    hf.clearVotes.currentForkIndex = hf.currentForkIndex := rfl

/-- The `while` loop of `rescan_from_block_height`: the first fork index whose version is
`lastv`, stopping at the last index. -/
def findForkIndex (lastv : UInt8) : List HardforkT → ℕ
  | [] => 0
  | f :: rest => if rest ≠ [] ∧ f.version ≠ lastv then findForkIndex lastv rest + 1 else 0

/-- `HardFork::rescan_from_block_height`: recount the votes of every stored block from
`height` on, and take the fork in force from the version stored for the top block. -/
def rescanFromBlockHeight (height : ℕ) : Bool × HardFork :=
  if hf.db.height ≤ height then (false, hf)
  else
    let hf₁ := (List.range' height (hf.db.height - height)).foldl pushBlockVote hf.clearVotes
    let lastv := hf.db.getHardForkVersion (hf.db.height - 1)
    (true, ({ hf₁ with currentForkIndex := findForkIndex lastv hf.heights }).raiseForkIndex
      hf.db.height)

/-- `HardFork::rescan_from_chain_height`. -/
def rescanFromChainHeight (height : ℕ) : Bool × HardFork :=
  if height = 0 then (false, hf) else hf.rescanFromBlockHeight (height - 1)

/-- `if (heights.empty()) heights.push_back(hardfork_t(original_version, 0, 0, 0));` -/
def withPlaceholder : HardFork :=
  if hf.heights = [] then
    { hf with
      heights := [⟨hf.originalVersion, 0, 0, 0⟩]
      heights_chain := .singleton _
      heights_threshold := by simp }
  else hf

/-- `HardFork::init`: add the placeholder fork if none was added, clear the window, and
restore it from the last `window_size` stored blocks. -/
def init : HardFork :=
  let height := if hf.windowSize < hf.db.height then hf.db.height - (hf.windowSize - 1) else 1
  ({ hf.withPlaceholder.clearVotes with currentForkIndex := 0 }.rescanFromChainHeight height).2

/-- The `while` loop of `reorganize_from_block_height` that winds the fork index back
while the fork it names is newer than `startVersion`. -/
def windBack (startVersion : UInt8) : ℕ → ℕ
  | 0 => 0
  | i + 1 => if startVersion < (hf.forkAt (i + 1)).version then windBack startVersion i else i + 1

/-- The replay loop of `reorganize_from_block_height`: `add` every stored block from
`height` on, at its height. -/
def addStoredBlocks (heights : List ℕ) : HardFork :=
  heights.foldl (fun s h => (s.add (s.db.getBlockFromHeight h) h).2) hf

/-- `HardFork::reorganize_from_block_height`: rebuild the window ending at `height`,
wind the fork index back to the version stored at `height`, vote, and replay `add` for
every later block. -/
def reorganizeFromBlockHeight (height : ℕ) : Bool × HardFork :=
  if hf.db.height ≤ height then (false, hf)
  else
    let rescanHeight := if hf.windowSize - 1 ≤ height then height - (hf.windowSize - 1) else 0
    let startVersion := if height = 0 then hf.originalVersion else hf.db.getHardForkVersion height
    let hf₁ : HardFork :=
      { hf.clearVotes with currentForkIndex := hf.windBack startVersion hf.currentForkIndex }
    let hf₂ := ((List.range' rescanHeight (height + 1 - rescanHeight)).foldl pushBlockVote
      hf₁).raiseForkIndex (height + 1)
    (true, hf₂.addStoredBlocks (List.range' (height + 1) (hf.db.height - (height + 1))))

/-- `HardFork::reorganize_from_chain_height`. -/
def reorganizeFromChainHeight (height : ℕ) : Bool × HardFork :=
  if height = 0 then (false, hf) else hf.reorganizeFromBlockHeight (height - 1)

/-- One turn of the loop of `on_block_popped` for the popped height `h`: drop the newest
vote and put the version stored for `h` in front. `none` when the window is empty, where
`versions.back()` is undefined. -/
def rotateVote (h : ℕ) : Option HardFork :=
  match hf.versions.getLast? with
  | none => none
  | some v =>
    let w := hf.db.getHardForkVersion h
    some { hf with
      versions := w :: hf.versions.dropLast
      lastVersions := Tally.bump (Tally.unbump hf.lastVersions v) w }

/-- The loop that resets the fork index after a pop: the last fork whose height the chain
still reaches, counting down from the last index and stopping at 0. -/
def lastForkReached (chainHeight : ℕ) : ℕ → ℕ
  | 0 => 0
  | i + 1 => if (hf.forkAt (i + 1)).height ≤ chainHeight then i + 1 else lastForkReached chainHeight i

/-- `HardFork::on_block_popped(nblocks)`, run after the database dropped its top `nblocks`
blocks. `none` when the call does not return normally: it throws for `nblocks = 0`, reads
the back of an empty window, never leaves its loop when the chain height is 0 (the
unsigned `height >= new_chain_height` always holds), and indexes past the schedule when
it is empty. -/
def onBlockPopped (nblocks : ℕ) : Option HardFork :=
  if nblocks = 0 ∨ hf.db.height = 0 ∨ hf.heights = [] then none
  else
    ((List.range' hf.db.height nblocks).reverse.foldlM rotateVote hf).map fun s =>
      { s with currentForkIndex := hf.lastForkReached hf.db.height (hf.heights.length - 1) }

/-- `HardFork::get_current_version`. -/
def getCurrentVersion : UInt8 :=
  (hf.forkAt hf.currentForkIndex).version

/-- The loop of `get_ideal_version(height)` over forks `n` down to `1`: the version of the
latest of them whose height is reached, else `original_version`. -/
def idealVersionFrom (height : ℕ) : ℕ → UInt8
  | 0 => hf.originalVersion
  | n + 1 =>
    if (hf.forkAt (n + 1)).height ≤ height then (hf.forkAt (n + 1)).version
    else idealVersionFrom height n

/-- `HardFork::get_ideal_version(height)`. The first fork is never looked at. The unsigned
loop index starts at `heights.size() - 1`, which wraps on an empty schedule; `init` never
leaves the schedule empty, and the model starts at 0 there. -/
def getIdealVersion (height : ℕ) : UInt8 :=
  hf.idealVersionFrom height (hf.heights.length - 1)

/-- `HardFork::get`: the version of a stored height, the current version for the next
height, and 255 above it. -/
def get (height : ℕ) : UInt8 :=
  if hf.db.height < height then 255
  else if height = hf.db.height then hf.getCurrentVersion
  else hf.db.getHardForkVersion height

/-- `BlockchainDB::add_block` as the tracker sees it: the block is stored, then handed to
`add` at the height it was stored at. -/
def storeBlock (b : BlockVersion) : Bool × HardFork :=
  ({ hf with db := hf.db.addBlock b } : HardFork).add b hf.db.height

/-- The tracker after the blocks `bs` are stored one after another; `none` as soon as
`add` refuses one. -/
def addBlocks : HardFork → List BlockVersion → Option HardFork
  | hf, [] => some hf
  | hf, b :: bs =>
    let r := hf.storeBlock b
    if r.1 then r.2.addBlocks bs else none

/-- The calls the node makes on the tracker, each with the change of the database that
comes with it. -/
inductive Event
  /-- `handle_block_to_main_chain` stores a block only if `check` accepts it, and
  `BlockchainDB::add_block` then hands it to `add` at its height. -/
  | addBlock (b : BlockVersion)
  /-- The top `n` blocks are popped, then `on_block_popped(n)`; `pop_block_from_blockchain`
  never pops the genesis block. -/
  | popBlocks (n : ℕ)
  | reorganize (height : ℕ)
  | init

/-- The tracker after one event; `none` when the call does not return normally. -/
def next (hf : HardFork) : Event → Option HardFork
  | .addBlock b => if hf.check b then some (hf.storeBlock b).2 else some hf
  | .popBlocks n =>
    if n < hf.db.height then ({ hf with db := hf.db.popBlocks n } : HardFork).onBlockPopped n
    else none
  | .reorganize height => some (hf.reorganizeFromBlockHeight height).2
  | .init => some hf.init

/-- One call of the node on the tracker that returns. -/
def Step (hf hf' : HardFork) : Prop :=
  ∃ e, hf.next e = some hf'

/-- The tracker once `init` has run, after any `add_fork` calls, on any stored chain. -/
def Started (hf : HardFork) : Prop :=
  ∃ hf₀ : HardFork, hf = hf₀.init

end HardFork

end Wazn
