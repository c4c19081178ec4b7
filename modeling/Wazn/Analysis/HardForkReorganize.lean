import Mathlib.Data.List.GetD
import Wazn.Analysis.HardForkWindow

/-!
# Reorganising a consistent chain changes nothing

`reorganize_from_block_height(r)` throws the window away and rebuilds the tracker
from the database: it winds the fork index back to the version stored at `r`, recounts
the votes of the `window_size` blocks ending at `r`, votes once, and replays `add` for
every later block. On a chain that the tracker itself accepted block by block, this
must land exactly where the incremental run stood.

The proof compares the two computations through `SameVotes`, the part of a tracker
that `add` reads. The replay of `add` from a tracker that agrees with the run at
height `r + 1` agrees with it at every later height and rewrites the version table
with the values it already holds (`replay_sameVotes`). That the rebuilt tracker agrees
with the run at height `r + 1` rests on three facts about the run: its window holds
the votes of the last blocks (`addBlocks_window`), its fork index only grows
(`addBlocks_currentForkIndex_le`), and it records the version in force at each height
(`addBlocks_hfVersions_below`). Winding back then finds the index of height `r`
because the schedule's versions strictly increase (`windBack_eq`).
-/

set_option autoImplicit false

namespace Wazn

namespace HardFork

/-- Two trackers with the same schedule, window size, window, histogram and fork index:
`add` and the vote step treat them alike, whatever their databases. -/
structure SameVotes (s t : HardFork) : Prop where
  heights : s.heights = t.heights
  windowSize : s.windowSize = t.windowSize
  versions : s.versions = t.versions
  lastVersions : s.lastVersions = t.lastVersions
  currentForkIndex : s.currentForkIndex = t.currentForkIndex

theorem SameVotes.refl (s : HardFork) : SameVotes s s :=
  ⟨rfl, rfl, rfl, rfl, rfl⟩

theorem SameVotes.symm {s t : HardFork} (h : SameVotes s t) : SameVotes t s :=
  ⟨h.heights.symm, h.windowSize.symm, h.versions.symm, h.lastVersions.symm,
    h.currentForkIndex.symm⟩

theorem SameVotes.trans {s t u : HardFork} (h₁ : SameVotes s t) (h₂ : SameVotes t u) :
    SameVotes s u :=
  ⟨h₁.heights.trans h₂.heights, h₁.windowSize.trans h₂.windowSize,
    h₁.versions.trans h₂.versions, h₁.lastVersions.trans h₂.lastVersions,
    h₁.currentForkIndex.trans h₂.currentForkIndex⟩

theorem SameVotes.forkAt {s t : HardFork} (h : SameVotes s t) (i : ℕ) : s.forkAt i = t.forkAt i := by
  simp only [HardFork.forkAt, h.heights]

theorem SameVotes.getEffectiveVersion {s t : HardFork} (h : SameVotes s t) (v : UInt8) :
    s.getEffectiveVersion v = t.getEffectiveVersion v := by
  simp only [HardFork.getEffectiveVersion, h.heights]

theorem SameVotes.doCheck {s t : HardFork} (h : SameVotes s t) (bv vv : UInt8) :
    s.doCheck bv vv = t.doCheck bv vv := by
  simp only [HardFork.doCheck, h.forkAt, h.currentForkIndex]

/-- The vote loop reads only the schedule, the window size, the histogram and the fork
index. -/
theorem SameVotes.votedForkIndexFrom {s t : HardFork} (h : SameVotes s t) (height : ℕ) :
    ∀ n acc, s.votedForkIndexFrom height n acc = t.votedForkIndexFrom height n acc
  | 0, _ => by simp only [HardFork.votedForkIndexFrom, h.currentForkIndex]
  | n + 1, acc => by
    simp only [HardFork.votedForkIndexFrom, h.forkAt, h.lastVersions, h.windowSize]
    rw [h.votedForkIndexFrom height n]

theorem SameVotes.raiseForkIndex {s t : HardFork} (h : SameVotes s t) (height : ℕ) :
    SameVotes (s.raiseForkIndex height) (t.raiseForkIndex height) := by
  have hvoted : s.getVotedForkIndex height = t.getVotedForkIndex height := by
    unfold getVotedForkIndex
    rw [h.heights, h.votedForkIndexFrom]
  refine ⟨?_, ?_, ?_, ?_, ?_⟩
  · simpa using h.heights
  · simpa using h.windowSize
  · simpa using h.versions
  · simpa using h.lastVersions
  · rw [raiseForkIndex_currentForkIndex, raiseForkIndex_currentForkIndex, hvoted,
      h.currentForkIndex]

/-- `add` on two trackers that agree returns the same answer and trackers that agree. -/
theorem SameVotes.addVersion {s t : HardFork} (h : SameVotes s t) (bv vv : UInt8)
    (height : ℕ) :
    (s.addVersion bv vv height).1 = (t.addVersion bv vv height).1 ∧
      SameVotes (s.addVersion bv vv height).2 (t.addVersion bv vv height).2 := by
  cases hcheck : t.doCheck bv vv with
  | false =>
    have hs : s.doCheck bv vv = false := by rw [h.doCheck]; exact hcheck
    rw [addVersion_of_not_doCheck s bv vv height hs, addVersion_of_not_doCheck t bv vv height hcheck]
    exact ⟨rfl, h⟩
  | true =>
    have hs : s.doCheck bv vv = true := by rw [h.doCheck]; exact hcheck
    rw [addVersion_of_doCheck s bv vv height hs, addVersion_of_doCheck t bv vv height hcheck]
    refine ⟨rfl, SameVotes.raiseForkIndex ⟨?_, ?_, ?_, ?_, ?_⟩ _⟩
    · simpa using h.heights
    · simpa using h.windowSize
    · simp only [pushVote_versions, h.windowSize, h.versions, h.lastVersions, h.getEffectiveVersion]
    · simp only [pushVote_lastVersions, h.windowSize, h.versions, h.lastVersions,
        h.getEffectiveVersion]
    · simpa using h.currentForkIndex

/-- What a successful `add` writes to the version table: the version in force at the
height it is given. -/
theorem addVersion_db_of_doCheck (hf : HardFork) (bv vv : UInt8) (height : ℕ)
    (hcheck : hf.doCheck bv vv = true) :
    (hf.addVersion bv vv height).2.db =
      hf.db.setHardForkVersion height (hf.forkAt hf.currentForkIndex).version := by
  rw [addVersion_of_doCheck hf bv vv height hcheck]
  simp

theorem addVersion_fst (hf : HardFork) (bv vv : UInt8) (height : ℕ) :
    (hf.addVersion bv vv height).1 = hf.doCheck bv vv := by
  cases hcheck : hf.doCheck bv vv with
  | false => rw [addVersion_of_not_doCheck hf bv vv height hcheck]
  | true => rw [addVersion_of_doCheck hf bv vv height hcheck]

theorem addVersion_heights (hf : HardFork) (bv vv : UInt8) (height : ℕ) :
    (hf.addVersion bv vv height).2.heights = hf.heights := by
  cases hcheck : hf.doCheck bv vv with
  | false => rw [addVersion_of_not_doCheck hf bv vv height hcheck]
  | true => rw [addVersion_of_doCheck hf bv vv height hcheck]; simp

theorem addVersion_windowSize (hf : HardFork) (bv vv : UInt8) (height : ℕ) :
    (hf.addVersion bv vv height).2.windowSize = hf.windowSize := by
  cases hcheck : hf.doCheck bv vv with
  | false => rw [addVersion_of_not_doCheck hf bv vv height hcheck]
  | true => rw [addVersion_of_doCheck hf bv vv height hcheck]; simp

theorem addVersion_originalVersion (hf : HardFork) (bv vv : UInt8) (height : ℕ) :
    (hf.addVersion bv vv height).2.originalVersion = hf.originalVersion := by
  cases hcheck : hf.doCheck bv vv with
  | false => rw [addVersion_of_not_doCheck hf bv vv height hcheck]
  | true => rw [addVersion_of_doCheck hf bv vv height hcheck]; simp [pushVote]

/-- `add` never lowers the fork index: the vote step only raises it. -/
theorem addVersion_currentForkIndex_le (hf : HardFork) (bv vv : UInt8) (height : ℕ) :
    hf.currentForkIndex ≤ (hf.addVersion bv vv height).2.currentForkIndex := by
  cases hcheck : hf.doCheck bv vv with
  | false => rw [addVersion_of_not_doCheck hf bv vv height hcheck]
  | true =>
    rw [addVersion_of_doCheck hf bv vv height hcheck, raiseForkIndex_currentForkIndex]
    exact le_max_left _ _

/-- A version table that already holds `v` at `h` is not changed by writing it again. -/
theorem BlockchainDB.setHardForkVersion_of_eq (db : BlockchainDB) (h : ℕ) (v : UInt8)
    (hv : db.hfVersions h = v) : db.setHardForkVersion h v = db := by
  unfold BlockchainDB.setHardForkVersion
  rw [← hv, Function.update_eq_self]

/-! ## The incremental run -/

theorem storeBlock_fst (s : HardFork) (b : BlockVersion) : (s.storeBlock b).1 = s.check b :=
  addVersion_fst _ _ _ _

/-- What storing an accepted block writes: the block, and at its height the version in
force before it. -/
theorem storeBlock_db (s : HardFork) (b : BlockVersion) (hacc : (s.storeBlock b).1 = true) :
    (s.storeBlock b).2.db =
      (s.db.addBlock b).setHardForkVersion s.db.height (s.forkAt s.currentForkIndex).version := by
  rw [storeBlock_fst] at hacc
  exact addVersion_db_of_doCheck _ _ _ _ hacc

/-- `add` on a tracker that agrees with `s` does what storing the block on `s` does. -/
theorem SameVotes.storeBlock {t s : HardFork} (h : SameVotes t s) (b : BlockVersion) :
    (t.add b s.db.height).1 = (s.storeBlock b).1 ∧
      SameVotes (t.add b s.db.height).2 (s.storeBlock b).2 :=
  (h.trans (⟨rfl, rfl, rfl, rfl, rfl⟩ : SameVotes s { s with db := s.db.addBlock b })).addVersion
    _ _ _

theorem storeBlock_currentForkIndex_le (s : HardFork) (b : BlockVersion) :
    s.currentForkIndex ≤ (s.storeBlock b).2.currentForkIndex :=
  addVersion_currentForkIndex_le { s with db := s.db.addBlock b } _ _ _

theorem storeBlock_heights (s : HardFork) (b : BlockVersion) :
    (s.storeBlock b).2.heights = s.heights :=
  addVersion_heights _ _ _ _

theorem storeBlock_windowSize (s : HardFork) (b : BlockVersion) :
    (s.storeBlock b).2.windowSize = s.windowSize :=
  addVersion_windowSize { s with db := s.db.addBlock b } _ _ _

theorem storeBlock_originalVersion (s : HardFork) (b : BlockVersion) :
    (s.storeBlock b).2.originalVersion = s.originalVersion :=
  addVersion_originalVersion { s with db := s.db.addBlock b } _ _ _

theorem storeBlock_windowInv' {s : HardFork} (hinv : WindowInv s) (b : BlockVersion) :
    WindowInv (s.storeBlock b).2 := by
  have hinv' : WindowInv ({ s with db := s.db.addBlock b } : HardFork) :=
    ⟨hinv.tally, hinv.length_le, hinv.index_lt⟩
  exact add_windowInv hinv' b _

theorem addBlocks_nil (s : HardFork) : s.addBlocks [] = some s := rfl

theorem addBlocks_cons (s : HardFork) (b : BlockVersion) (bs : List BlockVersion) :
    s.addBlocks (b :: bs) =
      if (s.storeBlock b).1 then (s.storeBlock b).2.addBlocks bs else none := rfl

theorem addBlocks_cons_eq_some {s f : HardFork} {b : BlockVersion} {bs : List BlockVersion}
    (h : s.addBlocks (b :: bs) = some f) :
    (s.storeBlock b).1 = true ∧ (s.storeBlock b).2.addBlocks bs = some f := by
  rw [addBlocks_cons] at h
  split at h
  · next hacc => exact ⟨hacc, h⟩
  · cases h

theorem addBlocks_append (s : HardFork) (bs cs : List BlockVersion) :
    s.addBlocks (bs ++ cs) = (s.addBlocks bs).bind (·.addBlocks cs) := by
  induction bs generalizing s with
  | nil => rfl
  | cons b bs ih =>
    rw [List.cons_append, addBlocks_cons, addBlocks_cons]
    split
    · exact ih _
    · rfl

/-- The run stores exactly the blocks it is given. -/
theorem addBlocks_db_blocks {s f : HardFork} {bs : List BlockVersion}
    (h : s.addBlocks bs = some f) : f.db.blocks = s.db.blocks ++ bs := by
  induction bs generalizing s with
  | nil =>
    simp only [addBlocks_nil, Option.some.injEq] at h
    simp [h]
  | cons b bs ih =>
    obtain ⟨hacc, hrest⟩ := addBlocks_cons_eq_some h
    rw [ih hrest, storeBlock_db s b hacc]
    simp [BlockchainDB.addBlock]

/-- The run writes the version table only at the heights of the blocks it stores. -/
theorem addBlocks_hfVersions_below {s f : HardFork} {bs : List BlockVersion}
    (h : s.addBlocks bs = some f) : ∀ k < s.db.height, f.db.hfVersions k = s.db.hfVersions k := by
  induction bs generalizing s with
  | nil =>
    simp only [addBlocks_nil, Option.some.injEq] at h
    simp [h]
  | cons b bs ih =>
    obtain ⟨hacc, hrest⟩ := addBlocks_cons_eq_some h
    intro k hk
    have hheight : (s.storeBlock b).2.db.height = s.db.height + 1 := by
      rw [storeBlock_db s b hacc]
      simp
    rw [ih hrest k (by omega), storeBlock_db s b hacc]
    simp [BlockchainDB.setHardForkVersion, BlockchainDB.addBlock,
      Function.update_of_ne (Nat.ne_of_lt hk)]

theorem addBlocks_currentForkIndex_le {s f : HardFork} {bs : List BlockVersion}
    (h : s.addBlocks bs = some f) : s.currentForkIndex ≤ f.currentForkIndex := by
  induction bs generalizing s with
  | nil =>
    simp only [addBlocks_nil, Option.some.injEq] at h
    simp [h]
  | cons b bs ih =>
    obtain ⟨-, hrest⟩ := addBlocks_cons_eq_some h
    exact (storeBlock_currentForkIndex_le s b).trans (ih hrest)

theorem addBlocks_heights {s f : HardFork} {bs : List BlockVersion}
    (h : s.addBlocks bs = some f) : f.heights = s.heights := by
  induction bs generalizing s with
  | nil =>
    simp only [addBlocks_nil, Option.some.injEq] at h
    simp [h]
  | cons b bs ih =>
    obtain ⟨-, hrest⟩ := addBlocks_cons_eq_some h
    rw [ih hrest, storeBlock_heights]

theorem addBlocks_windowInv {s f : HardFork} {bs : List BlockVersion} (hinv : WindowInv s)
    (h : s.addBlocks bs = some f) : WindowInv f := by
  induction bs generalizing s with
  | nil =>
    simp only [addBlocks_nil, Option.some.injEq] at h
    exact h ▸ hinv
  | cons b bs ih =>
    obtain ⟨-, hrest⟩ := addBlocks_cons_eq_some h
    exact ih (storeBlock_windowInv' hinv b) hrest

theorem addBlocks_windowSize {s f : HardFork} {bs : List BlockVersion}
    (h : s.addBlocks bs = some f) : f.windowSize = s.windowSize := by
  induction bs generalizing s with
  | nil =>
    simp only [addBlocks_nil, Option.some.injEq] at h
    simp [h]
  | cons b bs ih =>
    obtain ⟨-, hrest⟩ := addBlocks_cons_eq_some h
    rw [ih hrest, storeBlock_windowSize]

theorem addBlocks_originalVersion {s f : HardFork} {bs : List BlockVersion}
    (h : s.addBlocks bs = some f) : f.originalVersion = s.originalVersion := by
  induction bs generalizing s with
  | nil =>
    simp only [addBlocks_nil, Option.some.injEq] at h
    simp [h]
  | cons b bs ih =>
    obtain ⟨-, hrest⟩ := addBlocks_cons_eq_some h
    rw [ih hrest, storeBlock_originalVersion]

/-- A run of `add` passes through a state at every height below its top, and stores the
block of that height from it. -/
theorem addBlocks_split {s f : HardFork} {blocks : List BlockVersion}
    (h : s.addBlocks blocks = some f) {r : ℕ} (hr : r < blocks.length) :
    ∃ sr, s.addBlocks (blocks.take r) = some sr ∧ (sr.storeBlock blocks[r]).1 = true ∧
      (sr.storeBlock blocks[r]).2.addBlocks (blocks.drop (r + 1)) = some f := by
  rw [← List.take_append_drop r blocks, addBlocks_append, Option.bind_eq_some_iff] at h
  obtain ⟨sr, hsr, hrest⟩ := h
  rw [List.drop_eq_getElem_cons hr] at hrest
  obtain ⟨hacc, hrest⟩ := addBlocks_cons_eq_some hrest
  exact ⟨sr, hsr, hacc, hrest⟩

/-- An accepted block is stored by a vote step at the next height, from a tracker whose
fork index is still the one before the block. -/
theorem storeBlock_eq_raiseForkIndex (s : HardFork) (b : BlockVersion)
    (hacc : (s.storeBlock b).1 = true) :
    ∃ p : HardFork, (s.storeBlock b).2 = p.raiseForkIndex (s.db.height + 1) ∧
      p.currentForkIndex = s.currentForkIndex := by
  have hcheck : ({ s with db := s.db.addBlock b } : HardFork).doCheck (getBlockVersion b)
      (getBlockVote b) = true := by
    rw [storeBlock_fst] at hacc
    exact hacc
  unfold storeBlock add
  rw [addVersion_of_doCheck _ _ _ _ hcheck]
  exact ⟨_, rfl, rfl⟩

/-! ## The window of the run -/

/-- The effective votes of the last `window_size` stored blocks, oldest first. -/
def recentVotes (hf : HardFork) : List UInt8 :=
  (List.range' (hf.db.height - min hf.db.height hf.windowSize)
    (min hf.db.height hf.windowSize)).map hf.storedVote

theorem storedVote_congr {s t : HardFork} {h : ℕ} (hheights : s.heights = t.heights)
    (hblock : s.db.getBlockFromHeight h = t.db.getBlockFromHeight h) :
    s.storedVote h = t.storedVote h := by
  simp only [storedVote, getEffectiveVersion, hheights, hblock]

theorem storeBlock_getBlockFromHeight (s : HardFork) (b : BlockVersion)
    (hacc : (s.storeBlock b).1 = true) (h : ℕ) :
    (s.storeBlock b).2.db.getBlockFromHeight h = (s.db.blocks ++ [b]).getD h default := by
  rw [storeBlock_db s b hacc]
  rfl

theorem storeBlock_storedVote_of_lt (s : HardFork) (b : BlockVersion)
    (hacc : (s.storeBlock b).1 = true) {h : ℕ} (hh : h < s.db.height) :
    (s.storeBlock b).2.storedVote h = s.storedVote h := by
  apply storedVote_congr (storeBlock_heights s b)
  rw [storeBlock_getBlockFromHeight s b hacc, List.getD_append _ _ _ _ hh]
  rfl

theorem storeBlock_storedVote_self (s : HardFork) (b : BlockVersion)
    (hacc : (s.storeBlock b).1 = true) :
    (s.storeBlock b).2.storedVote s.db.height = s.getEffectiveVersion (getBlockVote b) := by
  simp only [storedVote, getEffectiveVersion, storeBlock_heights,
    storeBlock_getBlockFromHeight s b hacc]
  rw [List.getD_append_right _ _ _ s.db.height le_rfl]
  simp [BlockchainDB.height]

/-- The window after an accepted block: the oldest vote dropped if the window was full,
and the block's effective vote appended. -/
theorem storeBlock_versions {s : HardFork} (hinv : WindowInv s) (b : BlockVersion)
    (hacc : (s.storeBlock b).1 = true) :
    (s.storeBlock b).2.versions =
      s.versions.drop (s.versions.length + 1 - s.windowSize) ++
        [s.getEffectiveVersion (getBlockVote b)] := by
  have hcheck : ({ s with db := s.db.addBlock b } : HardFork).doCheck (getBlockVersion b)
      (getBlockVote b) = true := by
    rw [storeBlock_fst] at hacc
    exact hacc
  unfold storeBlock add
  rw [addVersion_of_doCheck _ _ _ _ hcheck]
  simp only [raiseForkIndex_versions, pushVote_versions]
  rw [(trimWindow_spec s.windowSize s.versions s.lastVersions hinv.tally).2]
  rfl

/-- Storing a block extends a run of stored votes that ends at its height by its vote. -/
theorem storeBlock_map_storedVote (s : HardFork) (b : BlockVersion)
    (hacc : (s.storeBlock b).1 = true) {a n : ℕ} (han : a + n = s.db.height) :
    (List.range' a n).map s.storedVote ++ [s.getEffectiveVersion (getBlockVote b)] =
      (List.range' a (n + 1)).map (s.storeBlock b).2.storedVote := by
  rw [List.range'_concat, List.map_append, List.map_singleton, Nat.one_mul, han,
    storeBlock_storedVote_self s b hacc]
  congr 1
  apply List.map_congr_left
  intro h hh
  rw [List.mem_range'_1] at hh
  exact (storeBlock_storedVote_of_lt s b hacc (by omega)).symm

/-- The window keeps holding the votes of the last `window_size` blocks when a block is
stored: the dropped vote is the oldest, the appended one the block's. -/
theorem storeBlock_recentVotes {s : HardFork} (hinv : WindowInv s)
    (hwin : s.versions = s.recentVotes) (b : BlockVersion) (hacc : (s.storeBlock b).1 = true) :
    (s.storeBlock b).2.versions = (s.storeBlock b).2.recentVotes := by
  have hw := s.windowSize_pos
  have hheight : (s.storeBlock b).2.db.height = s.db.height + 1 := by
    rw [storeBlock_db s b hacc]
    simp
  have hlen : s.versions.length = min s.db.height s.windowSize := by
    rw [hwin, recentVotes, List.length_map, List.length_range']
  -- the new window has at least the new block's vote
  obtain ⟨n, hn⟩ : ∃ n, min (s.db.height + 1) s.windowSize = n + 1 :=
    ⟨min (s.db.height + 1) s.windowSize - 1, by omega⟩
  -- the old window shifted by one height, or grown by one while not full
  have hdrop : (List.range' (s.db.height - min s.db.height s.windowSize)
      (min s.db.height s.windowSize)).drop (min s.db.height s.windowSize + 1 - s.windowSize) =
      List.range' (s.db.height - n) n := by
    rw [List.drop_range']
    congr 1 <;> omega
  rw [storeBlock_versions hinv b hacc, hlen, hwin, recentVotes, recentVotes, hheight,
    storeBlock_windowSize, ← List.map_drop, hdrop, hn, Nat.add_sub_add_right]
  exact storeBlock_map_storedVote s b hacc (by omega)

theorem addBlocks_recentVotes {s f : HardFork} {bs : List BlockVersion} (hinv : WindowInv s)
    (hwin : s.versions = s.recentVotes) (h : s.addBlocks bs = some f) :
    f.versions = f.recentVotes := by
  induction bs generalizing s with
  | nil =>
    simp only [addBlocks_nil, Option.some.injEq] at h
    exact h ▸ hwin
  | cons b bs ih =>
    obtain ⟨hacc, hrest⟩ := addBlocks_cons_eq_some h
    exact ih (storeBlock_windowInv' hinv b) (storeBlock_recentVotes hinv hwin b hacc) hrest

/-! ## Winding the fork index back -/

/-- The versions of the schedule strictly increase with the index. -/
theorem forkAt_version_lt (hf : HardFork) {i j : ℕ} (hij : i < j) (hj : j < hf.heights.length) :
    (hf.forkAt i).version < (hf.forkAt j).version := by
  have hchain : (hf.heights.map HardforkT.version).IsChain (· < ·) :=
    (List.isChain_map HardforkT.version).2 (hf.heights_chain.imp fun _ _ h => h.1)
  have hlt := List.pairwise_iff_getElem.1 hchain.pairwise i j (by simp; omega) (by simpa using hj) hij
  rw [forkAt, forkAt, List.getD_eq_getElem _ _ (hij.trans hj), List.getD_eq_getElem _ _ hj]
  simpa using hlt

/-- Winding back from `i` stops at `j` when the start version is at least that of fork `j`
and below those of the forks after it up to `i`. -/
theorem windBack_eq (hf : HardFork) (sv : UInt8) (j : ℕ)
    (hj : j = 0 ∨ (hf.forkAt j).version ≤ sv) :
    ∀ i, j ≤ i → (∀ k, j < k → k ≤ i → sv < (hf.forkAt k).version) → hf.windBack sv i = j
  | 0, hji, _ => by
    rw [windBack]
    omega
  | i + 1, hji, hgt => by
    rcases Nat.lt_or_ge j (i + 1) with hlt | hge
    · rw [windBack, if_pos (hgt (i + 1) hlt le_rfl)]
      exact windBack_eq hf sv j hj i (by omega) fun k hk hki => hgt k hk (by omega)
    · obtain rfl : j = i + 1 := by omega
      rw [windBack, if_neg]
      rcases hj with h0 | hle
      · omega
      · exact UInt8.not_lt.2 hle

/-! ## Replaying `add` -/

theorem addStoredBlocks_cons (hf : HardFork) (h : ℕ) (hs : List ℕ) :
    hf.addStoredBlocks (h :: hs) =
      (hf.add (hf.db.getBlockFromHeight h) h).2.addStoredBlocks hs := rfl

/-- Replaying `add` over the blocks a run stored, from a tracker that agrees with the run
and already holds the version table the run ends with, retraces the run: every step
agrees with the run's step and writes a version the table already holds. -/
theorem replay_sameVotes : ∀ (bs : List BlockVersion) {S T F : HardFork},
    S.addBlocks bs = some F → SameVotes T S → T.db.blocks = S.db.blocks ++ bs →
      T.db.hfVersions = F.db.hfVersions →
      SameVotes (T.addStoredBlocks (List.range' S.db.height bs.length)) F ∧
        (T.addStoredBlocks (List.range' S.db.height bs.length)).db = T.db
  | [], S, T, F, hrun, hsame, _, _ => by
    simp only [addBlocks_nil, Option.some.injEq] at hrun
    subst hrun
    exact ⟨hsame, rfl⟩
  | b :: bs, S, T, F, hrun, hsame, hblocks, htable => by
    obtain ⟨hacc, hrest⟩ := addBlocks_cons_eq_some hrun
    obtain ⟨hfst, hsame'⟩ := hsame.storeBlock b
    have hheight : (S.storeBlock b).2.db.height = S.db.height + 1 := by
      rw [storeBlock_db S b hacc]
      simp
    -- the replay reads back the block the run stored at this height
    have hblock : T.db.getBlockFromHeight S.db.height = b := by
      rw [BlockchainDB.getBlockFromHeight, hblocks,
        List.getD_append_right _ _ _ S.db.height le_rfl]
      simp [BlockchainDB.height]
    -- and writes there the version the run wrote, which the table already holds
    have hdb : (T.add b S.db.height).2.db = T.db := by
      have hcheck : T.doCheck (getBlockVersion b) (getBlockVote b) = true := by
        rw [← addVersion_fst]
        exact hfst.trans hacc
      rw [add, addVersion_db_of_doCheck _ _ _ _ hcheck]
      apply BlockchainDB.setHardForkVersion_of_eq
      rw [htable, addBlocks_hfVersions_below hrest _ (by omega), storeBlock_db S b hacc,
        hsame.forkAt, hsame.currentForkIndex]
      simp [BlockchainDB.setHardForkVersion]
    have hblocks' : (T.add b S.db.height).2.db.blocks = (S.storeBlock b).2.db.blocks ++ bs := by
      rw [hdb, hblocks, storeBlock_db S b hacc]
      simp [BlockchainDB.addBlock]
    obtain ⟨hsameF, hdbF⟩ := replay_sameVotes bs hrest hsame' hblocks' (by rw [hdb, htable])
    rw [List.length_cons, List.range'_succ, addStoredBlocks_cons, hblock, ← hheight]
    exact ⟨hsameF, hdbF.trans hdb⟩

/-! ## Reorganising a chain of the run -/

theorem forkAt_eq_of_heights {s t : HardFork} (h : s.heights = t.heights) : s.forkAt = t.forkAt := by
  funext i
  simp only [HardFork.forkAt, h]

theorem addBlocks_storedVote {s f : HardFork} {bs : List BlockVersion}
    (h : s.addBlocks bs = some f) {k : ℕ} (hk : k < s.db.height) :
    f.storedVote k = s.storedVote k := by
  apply storedVote_congr (addBlocks_heights h)
  rw [BlockchainDB.getBlockFromHeight, BlockchainDB.getBlockFromHeight, addBlocks_db_blocks h,
    List.getD_append _ _ _ _ hk]

theorem foldl_pushBlockVote_eq (hf : HardFork) (l : List ℕ) :
    l.foldl pushBlockVote hf = { hf with
      versions := hf.versions ++ l.map hf.storedVote
      lastVersions := (l.map hf.storedVote).foldl Tally.bump hf.lastVersions } := by
  rw [foldl_pushBlockVote, foldl_pushVote]

theorem withPlaceholder_originalVersion (hf : HardFork) :
    hf.withPlaceholder.originalVersion = hf.originalVersion := by
  unfold withPlaceholder
  split <;> rfl

theorem withPlaceholder_db (hf : HardFork) : hf.withPlaceholder.db = hf.db := by
  unfold withPlaceholder
  split <;> rfl

/-- With `original_version` at most the version of every scheduled fork, the first fork of
the schedule `init` installs is not older than it. -/
theorem originalVersion_le_withPlaceholder (hf : HardFork)
    (horig : ∀ f ∈ hf.heights, hf.originalVersion ≤ f.version) :
    hf.originalVersion ≤ (hf.withPlaceholder.forkAt 0).version := by
  unfold withPlaceholder
  split
  · simp [forkAt]
  · next hne =>
    obtain ⟨f, rest, hfr⟩ := List.exists_cons_of_ne_nil hne
    simpa [forkAt, hfr] using horig f (by simp [hfr])

/-- On an empty database `init` installs the placeholder fork and clears the window. -/
theorem init_of_empty (hf : HardFork) (hdb : hf.db.blocks = []) :
    hf.init = { hf.withPlaceholder.clearVotes with currentForkIndex := 0 } := by
  have hheight : hf.db.height = 0 := by simp [BlockchainDB.height, hdb]
  simp [init, rescanFromChainHeight, rescanFromBlockHeight, hheight, withPlaceholder_db]

/-- Winding back from an index in range finds `j` when the start version is at most that
of fork `j` and, unless `j = 0`, equal to it. -/
theorem windBack_eq_of_le (hf : HardFork) (sv : UInt8) {i j : ℕ} (hji : j ≤ i)
    (hi : i < hf.heights.length) (hsv : sv ≤ (hf.forkAt j).version)
    (hj : j = 0 ∨ (hf.forkAt j).version ≤ sv) : hf.windBack sv i = j :=
  hf.windBack_eq sv j hj i hji fun _ hjk hki =>
    UInt8.lt_of_le_of_lt hsv (hf.forkAt_version_lt hjk (by omega))

/-- `reorganize_from_block_height` below the top: the rebuilt window holds the votes of the
blocks up to `height`, at most `window_size` of them, and the fork index is wound back to
the version stored at `height`. -/
theorem reorganizeFromBlockHeight_of_lt (hf : HardFork) {height : ℕ}
    (h : height < hf.db.height) :
    (hf.reorganizeFromBlockHeight height).2 =
      (((List.range' (height + 1 - min (height + 1) hf.windowSize)
        (min (height + 1) hf.windowSize)).foldl pushBlockVote
          { hf.clearVotes with
            currentForkIndex := hf.windBack
              (if height = 0 then hf.originalVersion else hf.db.getHardForkVersion height)
              hf.currentForkIndex }).raiseForkIndex (height + 1)).addStoredBlocks
        (List.range' (height + 1) (hf.db.height - (height + 1))) := by
  have hw := hf.windowSize_pos
  have hrescan : (if hf.windowSize - 1 ≤ height then height - (hf.windowSize - 1) else 0) =
      height + 1 - min (height + 1) hf.windowSize := by
    split <;> omega
  have hcount : height + 1 - (height + 1 - min (height + 1) hf.windowSize) =
      min (height + 1) hf.windowSize := by
    omega
  simp only [reorganizeFromBlockHeight, if_neg (Nat.not_le.2 h), hrescan, hcount]

/-- On a chain the tracker accepted block by block from an empty database, reorganising at
a stored height rebuilds a tracker that agrees with it, over the same database. -/
theorem reorganizeFromBlockHeight_sameVotes {hf₀ hf : HardFork} (hdb : hf₀.db.blocks = [])
    (horig : ∀ f ∈ hf₀.heights, hf₀.originalVersion ≤ f.version) {blocks : List BlockVersion}
    (hrun : hf₀.init.addBlocks blocks = some hf) {r : ℕ} (hr : r < hf.db.height) :
    SameVotes (hf.reorganizeFromBlockHeight r).2 hf ∧
      (hf.reorganizeFromBlockHeight r).2.db = hf.db := by
  -- the run starts from `init` on the empty database, with an empty window
  have hs₀ := init_of_empty hf₀ hdb
  have hs₀blocks : hf₀.init.db.blocks = [] := by
    rw [hs₀]
    simpa [withPlaceholder_db] using hdb
  have hs₀inv : WindowInv hf₀.init := (init_windowInv hf₀).1
  have hs₀win : hf₀.init.versions = hf₀.init.recentVotes := by
    rw [recentVotes, BlockchainDB.height, hs₀blocks, hs₀]
    rfl
  have hblocks : hf.db.blocks = blocks := by
    rw [addBlocks_db_blocks hrun, hs₀blocks, List.nil_append]
  have hrb : r < blocks.length := by
    rw [← hblocks]
    exact hr
  -- the run's state `sr` at height `r`, and the one after it stores block `r`
  obtain ⟨sr, hsr, hacc, hrest⟩ := addBlocks_split hrun hrb
  set b := blocks[r]
  have hsrheight : sr.db.height = r := by
    simp [BlockchainDB.height, addBlocks_db_blocks hsr, hs₀blocks]
    omega
  have hsrinv : WindowInv sr := addBlocks_windowInv hs₀inv hsr
  have hwin : (sr.storeBlock b).2.versions = (sr.storeBlock b).2.recentVotes :=
    storeBlock_recentVotes hsrinv (addBlocks_recentVotes hs₀inv hs₀win hsr) b hacc
  have hheight' : (sr.storeBlock b).2.db.height = r + 1 := by
    rw [storeBlock_db sr b hacc]
    simp [hsrheight]
  have hheights : hf.heights = sr.heights := by
    rw [addBlocks_heights hrest, storeBlock_heights]
  have hwindow : hf.windowSize = (sr.storeBlock b).2.windowSize := addBlocks_windowSize hrest
  -- winding back recovers the fork index of the run at height `r`
  have hwind : hf.windBack (if r = 0 then hf.originalVersion else hf.db.getHardForkVersion r)
      hf.currentForkIndex = sr.currentForkIndex := by
    have hle : sr.currentForkIndex ≤ hf.currentForkIndex :=
      (storeBlock_currentForkIndex_le sr b).trans (addBlocks_currentForkIndex_le hrest)
    -- the start version lies at or below the fork of that index, and on it unless it is 0
    have hstart : (if r = 0 then hf.originalVersion else hf.db.getHardForkVersion r) ≤
          (hf.forkAt sr.currentForkIndex).version ∧
        (sr.currentForkIndex = 0 ∨ (hf.forkAt sr.currentForkIndex).version ≤
          (if r = 0 then hf.originalVersion else hf.db.getHardForkVersion r)) := by
      rw [forkAt_eq_of_heights hheights]
      split
      · next hr0 =>
        -- at height 0 the run is still at `init`, at index 0
        subst hr0
        have hsr0 : sr = hf₀.init := by simpa [addBlocks_nil] using hsr.symm
        have hcfi : hf₀.init.currentForkIndex = 0 := by rw [hs₀]
        have hov : hf₀.init.originalVersion = hf₀.originalVersion := by
          rw [hs₀]
          exact withPlaceholder_originalVersion hf₀
        have hfork : hf₀.init.forkAt = hf₀.withPlaceholder.forkAt := by
          rw [hs₀]
          rfl
        rw [addBlocks_originalVersion hrun, hsr0, hov, hcfi, hfork]
        exact ⟨originalVersion_le_withPlaceholder hf₀ horig, Or.inl rfl⟩
      · next hr0 =>
        -- the table holds at `r` the version in force when block `r` was stored
        have htable : hf.db.getHardForkVersion r = (sr.forkAt sr.currentForkIndex).version := by
          rw [BlockchainDB.getHardForkVersion, addBlocks_hfVersions_below hrest r (by omega),
            storeBlock_db sr b hacc, hsrheight]
          simp [BlockchainDB.setHardForkVersion]
        rw [htable]
        exact ⟨UInt8.le_refl _, Or.inr (UInt8.le_refl _)⟩
    exact windBack_eq_of_le hf _ hle (addBlocks_windowInv hs₀inv hrun).index_lt hstart.1 hstart.2
  -- the rebuilt window before the vote: the run's window at `r + 1`, counted afresh
  set Q := (List.range' (r + 1 - min (r + 1) hf.windowSize) (min (r + 1) hf.windowSize)).foldl
    pushBlockVote { hf.clearVotes with currentForkIndex := sr.currentForkIndex } with hQ
  have hQversions : Q.versions = (sr.storeBlock b).2.versions := by
    rw [hwin, recentVotes, hQ, foldl_pushBlockVote_eq, hheight', ← hwindow]
    simp only [clearVotes_versions, List.nil_append]
    apply List.map_congr_left
    intro h hh
    rw [List.mem_range'_1] at hh
    exact addBlocks_storedVote hrest (by omega)
  have hQtally : Tally.Tallies Q.lastVersions Q.versions := by
    rw [hQ, foldl_pushBlockVote_eq]
    exact Tally.tallies_nil.append _
  have hQdb : Q.db = hf.db := by
    rw [hQ, foldl_pushBlockVote_eq]
    rfl
  -- the run's step at `r` is a vote from a tracker `p` with the index of height `r`
  obtain ⟨p, hp, hpcfi⟩ := storeBlock_eq_raiseForkIndex sr b hacc
  have hQp : SameVotes Q p := by
    have hptally : Tally.Tallies p.lastVersions p.versions := by
      have := (storeBlock_windowInv' hsrinv b).tally
      rwa [hp, raiseForkIndex_lastVersions, raiseForkIndex_versions] at this
    have hpversions : Q.versions = p.versions := by
      rw [hQversions, hp, raiseForkIndex_versions]
    refine ⟨?_, ?_, hpversions, hQtally.unique (hpversions ▸ hptally), ?_⟩
    · rw [hQ, foldl_pushBlockVote_eq]
      simpa [hp] using hheights.trans (storeBlock_heights sr b).symm
    · rw [hQ, foldl_pushBlockVote_eq]
      simpa [hp] using hwindow
    · rw [hQ, foldl_pushBlockVote_eq, hpcfi]
  have hrebuilt : SameVotes (Q.raiseForkIndex (r + 1)) (sr.storeBlock b).2 := by
    rw [hp, hsrheight]
    exact hQp.raiseForkIndex (r + 1)
  -- replaying the blocks above `r` retraces the run
  have hT : (Q.raiseForkIndex (r + 1)).db = hf.db := by
    rw [raiseForkIndex_db, hQdb]
  obtain ⟨hsame, hdbF⟩ := replay_sameVotes (blocks.drop (r + 1)) hrest hrebuilt
    (by rw [hT, addBlocks_db_blocks hrest]) (by rw [hT])
  have hlen : (blocks.drop (r + 1)).length = hf.db.height - (r + 1) := by
    simp [BlockchainDB.height, hblocks]
  rw [hheight', hlen] at hsame hdbF
  rw [reorganizeFromBlockHeight_of_lt hf hr, hwind]
  exact ⟨hsame, hdbF.trans hT⟩

/-- Reorganising at any stored height of a chain the tracker accepted block by block from
an empty database changes no version it reports, nor its window: as long as
`original_version`, the version `reorganize_from_block_height` restarts from at height 0,
is not above the schedule. -/
theorem reorganizeFromBlockHeight_unchanged (hf₀ : HardFork) (hdb : hf₀.db.blocks = [])
    (horig : ∀ f ∈ hf₀.heights, hf₀.originalVersion ≤ f.version) (blocks : List BlockVersion)
    (hf : HardFork) (hrun : hf₀.init.addBlocks blocks = some hf) (r : ℕ)
    (hr : r < hf.db.height) :
    (∀ h ≤ hf.db.height, (hf.reorganizeFromBlockHeight r).2.get h = hf.get h) ∧
      (hf.reorganizeFromBlockHeight r).2.getCurrentVersion = hf.getCurrentVersion ∧
      (hf.reorganizeFromBlockHeight r).2.versions = hf.versions ∧
      (hf.reorganizeFromBlockHeight r).2.lastVersions = hf.lastVersions := by
  obtain ⟨hsame, hdb'⟩ := reorganizeFromBlockHeight_sameVotes hdb horig hrun hr
  have hcurrent : (hf.reorganizeFromBlockHeight r).2.getCurrentVersion = hf.getCurrentVersion := by
    rw [getCurrentVersion, getCurrentVersion, hsame.forkAt, hsame.currentForkIndex]
  refine ⟨fun h _ => ?_, hcurrent, hsame.versions, hsame.lastVersions⟩
  rw [get, get, hdb', hcurrent]

/-- `twoForkTracker` after three blocks, the second fork in force from the second block. -/
def twoForkChain : HardFork :=
  (twoForkTracker.init.addBlocks [⟨1, 2⟩, ⟨2, 2⟩, ⟨2, 2⟩]).get (by decide)

theorem reorganizeFromBlockHeight_unchanged_twoForkChain :
    (∀ h ≤ twoForkChain.db.height,
        (twoForkChain.reorganizeFromBlockHeight 1).2.get h = twoForkChain.get h) ∧
      (twoForkChain.reorganizeFromBlockHeight 1).2.getCurrentVersion =
        twoForkChain.getCurrentVersion ∧
      (twoForkChain.reorganizeFromBlockHeight 1).2.versions = twoForkChain.versions ∧
      (twoForkChain.reorganizeFromBlockHeight 1).2.lastVersions = twoForkChain.lastVersions :=
  reorganizeFromBlockHeight_unchanged twoForkTracker rfl (by decide) _ _
    (Option.some_get _).symm 1 (by decide)

/-- A tracker whose `original_version` 2 lies above its first fork, version 1; the second
fork, version 2, starts at height 2, and the window holds three votes. -/
def lateForkTracker : HardFork :=
  ((((HardFork.create ⟨[], fun _ => 0⟩ 2 3 0).get (by decide)).addFork 1 0 0 0).2.addFork
    2 2 0 1).2

/-- `lateForkTracker` after two blocks of version 1 and one of version 2. -/
def lateForkChain : HardFork :=
  (lateForkTracker.init.addBlocks [⟨1, 2⟩, ⟨1, 2⟩, ⟨2, 2⟩]).get (by decide)

/-- Without the bound on `original_version`, reorganising at height 0 winds the fork index
back only to the second fork, so the replay refuses block 1 and the window loses its vote. -/
theorem reorganizeFromBlockHeight_original_above_schedule :
    lateForkTracker.db.blocks = [] ∧
      lateForkTracker.init.addBlocks [⟨1, 2⟩, ⟨1, 2⟩, ⟨2, 2⟩] = some lateForkChain ∧
      0 < lateForkChain.db.height ∧
      lateForkChain.versions = [2, 2, 2] ∧
      (lateForkChain.reorganizeFromBlockHeight 0).2.versions = [2, 2] :=
  ⟨rfl, (Option.some_get _).symm, by decide, by decide, by decide⟩

end HardFork

end Wazn
