import Wazn.Model.HardFork
import Wazn.Library.StateMachine

/-!
# The voting window stays counted

The tracker keeps the window `versions` and its histogram `last_versions` apart, and
five calls change them in five ways: `add` slides the window, `init` and
`reorganize_from_block_height` rebuild it from the stored blocks (through
`rescan_from_block_height` and a replay of `add`), and `on_block_popped` rotates it
with versions read back from the database. This file shows that each call keeps the
histogram equal to the counts of the window, the window within `window_size`, and the
fork index inside the schedule (`WindowInv`), so that these hold in every state the
node can drive the tracker to (`reachable_windowInv`).

`on_block_popped` reads `versions.back()` before it checks anything; it is only
defined because the window of a tracker whose chain has a block is never empty. That
is the second half of the invariant (`VotesStored`), and `onBlockPopped_isSome` states
the consequence.
-/

set_option autoImplicit false

namespace Wazn

namespace HardFork

/-- The three facts about the window that every call keeps. -/
structure WindowInv (hf : HardFork) : Prop where
  tally : Tally.Tallies hf.lastVersions hf.versions
  length_le : hf.versions.length ≤ hf.windowSize
  index_lt : hf.currentForkIndex < hf.heights.length

/-- A tracker whose chain has a block has a vote in its window. -/
def VotesStored (hf : HardFork) : Prop :=
  0 < hf.db.height → hf.versions ≠ []

/-! ## The vote step -/

/-- INTERNAL: the loop of `get_voted_fork_index` returns an index below the one it started
from, or the current index. -/
theorem votedForkIndexFrom_lt (hf : HardFork) (height : ℕ)
    (hcur : hf.currentForkIndex < hf.heights.length) :
    ∀ n acc, n ≤ hf.heights.length → hf.votedForkIndexFrom height n acc < hf.heights.length
  | 0, _, _ => by simpa [votedForkIndexFrom] using hcur
  | n + 1, acc, hn => by
    simp only [votedForkIndexFrom]
    split
    · omega
    · exact votedForkIndexFrom_lt hf height hcur n _ (by omega)

/-- The vote step keeps the fork index inside the schedule: the truncation to `uint8_t`
can only lower an index that is already in range. -/
theorem raiseForkIndex_index_lt (hf : HardFork) (height : ℕ)
    (hcur : hf.currentForkIndex < hf.heights.length) :
    (hf.raiseForkIndex height).currentForkIndex < hf.heights.length := by
  have hvoted : hf.getVotedForkIndex height < hf.heights.length :=
    votedForkIndexFrom_lt hf height hcur _ 0 le_rfl
  have htrunc : hf.getVotedForkIndex height % 256 ≤ hf.getVotedForkIndex height :=
    Nat.mod_le _ _
  rw [raiseForkIndex_currentForkIndex]
  exact max_lt hcur (lt_of_le_of_lt htrunc hvoted)

theorem raiseForkIndex_windowInv {hf : HardFork} (hinv : WindowInv hf) (height : ℕ) :
    WindowInv (hf.raiseForkIndex height) := by
  refine ⟨?_, ?_, ?_⟩
  · simpa using hinv.tally
  · simpa using hinv.length_le
  · simpa using raiseForkIndex_index_lt hf height hinv.index_lt

/-! ## Sliding the window in `add` -/

/-- The trimming loop of `add` keeps the counts, and leaves the last `window_size - 1`
votes. -/
theorem trimWindow_spec (w : ℕ) :
    ∀ (vs : List UInt8) (lv : UInt8 → ℕ), Tally.Tallies lv vs →
      Tally.Tallies (trimWindow w vs lv).2 (trimWindow w vs lv).1 ∧
        (trimWindow w vs lv).1 = vs.drop (vs.length + 1 - w)
  | [], lv, ht => by simpa [trimWindow] using ht
  | v :: vs, lv, ht => by
    unfold trimWindow
    split
    · next hw =>
      obtain ⟨htally, hdrop⟩ := trimWindow_spec w vs (Tally.unbump lv v) ht.pop_front
      refine ⟨htally, ?_⟩
      -- one vote is gone, so the rest drops one fewer
      have hcount : (v :: vs).length + 1 - w = (vs.length + 1 - w) + 1 := by
        simp only [List.length_cons] at hw ⊢
        omega
      rw [hdrop, hcount, List.drop_succ_cons]
    · next hw =>
      have hcount : (v :: vs).length + 1 - w = 0 := by omega
      exact ⟨ht, by rw [hcount, List.drop_zero]⟩

theorem trimWindow_length (w : ℕ) (vs : List UInt8) (lv : UInt8 → ℕ)
    (ht : Tally.Tallies lv vs) : (trimWindow w vs lv).1.length = vs.length - (vs.length + 1 - w) := by
  rw [(trimWindow_spec w vs lv ht).2, List.length_drop]

/-- What a successful `add` does to the window, the histogram, the fork index and the
database; the schedule and the window size stay. -/
theorem addVersion_of_doCheck (hf : HardFork) (bv vv : UInt8) (height : ℕ)
    (hcheck : hf.doCheck bv vv = true) :
    let trimmed := trimWindow hf.windowSize hf.versions hf.lastVersions
    let hf₁ : HardFork := { hf with
      db := hf.db.setHardForkVersion height (hf.forkAt hf.currentForkIndex).version
      versions := trimmed.1
      lastVersions := trimmed.2 }
    hf.addVersion bv vv height =
      (true, (hf₁.pushVote (hf.getEffectiveVersion vv)).raiseForkIndex (height + 1)) := by
  simp [addVersion, hcheck]

theorem addVersion_of_not_doCheck (hf : HardFork) (bv vv : UInt8) (height : ℕ)
    (hcheck : hf.doCheck bv vv = false) : hf.addVersion bv vv height = (false, hf) := by
  simp [addVersion, hcheck]

/-- `add` keeps the window counted, bounded, and its fork index in range. -/
theorem addVersion_windowInv {hf : HardFork} (hinv : WindowInv hf) (bv vv : UInt8)
    (height : ℕ) : WindowInv (hf.addVersion bv vv height).2 := by
  cases hcheck : hf.doCheck bv vv with
  | false => simpa [addVersion_of_not_doCheck hf bv vv height hcheck] using hinv
  | true =>
    rw [addVersion_of_doCheck hf bv vv height hcheck]
    obtain ⟨htally, -⟩ := trimWindow_spec hf.windowSize hf.versions hf.lastVersions hinv.tally
    have hlen := trimWindow_length hf.windowSize hf.versions hf.lastVersions hinv.tally
    have hw := hf.windowSize_pos
    apply raiseForkIndex_windowInv
    refine ⟨?_, ?_, ?_⟩
    · exact htally.push_back _
    · simp only [pushVote_versions, List.length_append, List.length_singleton, pushVote_windowSize]
      rw [hlen]
      omega
    · exact hinv.index_lt

theorem addVersion_db_blocks (hf : HardFork) (bv vv : UInt8) (height : ℕ) :
    (hf.addVersion bv vv height).2.db.blocks = hf.db.blocks := by
  cases hcheck : hf.doCheck bv vv with
  | false => rw [addVersion_of_not_doCheck hf bv vv height hcheck]
  | true =>
    rw [addVersion_of_doCheck hf bv vv height hcheck]
    simp

theorem addVersion_versions_ne_nil (hf : HardFork) (bv vv : UInt8) (height : ℕ)
    (hcheck : hf.doCheck bv vv = true) : (hf.addVersion bv vv height).2.versions ≠ [] := by
  rw [addVersion_of_doCheck hf bv vv height hcheck]
  simp

theorem addVersion_versions_ne_nil_of_ne_nil (hf : HardFork) (bv vv : UInt8) (height : ℕ)
    (hne : hf.versions ≠ []) : (hf.addVersion bv vv height).2.versions ≠ [] := by
  cases hcheck : hf.doCheck bv vv with
  | false => simpa [addVersion_of_not_doCheck hf bv vv height hcheck] using hne
  | true => exact addVersion_versions_ne_nil hf bv vv height hcheck

/-! ## Rebuilding the window from the stored blocks -/

/-- Votes pushed one by one land at the back of the window, each counted once more. -/
theorem foldl_pushVote (hf : HardFork) (vs : List UInt8) :
    vs.foldl pushVote hf = { hf with
      versions := hf.versions ++ vs
      lastVersions := vs.foldl Tally.bump hf.lastVersions } := by
  induction vs generalizing hf with
  | nil => simp
  | cons v vs ih => simp [ih, pushVote]

/-- The rebuilding loop pushes the votes of the stored blocks it visits, in order. -/
theorem foldl_pushBlockVote (hf : HardFork) (l : List ℕ) :
    l.foldl pushBlockVote hf = (l.map hf.storedVote).foldl pushVote hf := by
  induction l generalizing hf with
  | nil => rfl
  | cons h l ih =>
    -- a pushed vote leaves the database and the schedule, so the later votes read the same
    have hsame : (hf.pushBlockVote h).storedVote = hf.storedVote := rfl
    simp only [List.foldl_cons, List.map_cons]
    rw [ih, hsame]
    rfl

theorem foldl_pushBlockVote_windowInv {hf : HardFork} (hinv : WindowInv hf) (l : List ℕ)
    (hlen : hf.versions.length + l.length ≤ hf.windowSize) :
    WindowInv (l.foldl pushBlockVote hf) := by
  rw [foldl_pushBlockVote, foldl_pushVote]
  refine ⟨hinv.tally.append _, ?_, hinv.index_lt⟩
  simpa using hlen

theorem findForkIndex_lt (lastv : UInt8) :
    ∀ hs : List HardforkT, hs ≠ [] → findForkIndex lastv hs < hs.length
  | [], hne => absurd rfl hne
  | f :: rest, _ => by
    simp only [findForkIndex, List.length_cons]
    split
    · next h => have := findForkIndex_lt lastv rest h.1; omega
    · omega

theorem rescanFromBlockHeight_db (hf : HardFork) (height : ℕ) :
    (hf.rescanFromBlockHeight height).2.db = hf.db := by
  unfold rescanFromBlockHeight
  split
  · rfl
  · simp [foldl_pushBlockVote, foldl_pushVote]

/-- `rescan_from_block_height` keeps the invariant as long as no more than `window_size`
blocks lie above the height it starts from, as at its one call site in `init`. -/
theorem rescanFromBlockHeight_windowInv {hf : HardFork} (hinv : WindowInv hf) (height : ℕ)
    (hbound : hf.db.height ≤ height + hf.windowSize) :
    WindowInv (hf.rescanFromBlockHeight height).2 ∧
      (height < hf.db.height → (hf.rescanFromBlockHeight height).2.versions ≠ []) := by
  unfold rescanFromBlockHeight
  split
  · next hle => exact ⟨hinv, fun hlt => absurd hle (Nat.not_le.mpr hlt)⟩
  · next hlt =>
    dsimp only
    have hne : hf.heights ≠ [] := List.ne_nil_of_length_pos (by have := hinv.index_lt; omega)
    have hclear : WindowInv hf.clearVotes := ⟨Tally.tallies_nil, by simp, hinv.index_lt⟩
    set hf₁ := (List.range' height (hf.db.height - height)).foldl pushBlockVote hf.clearVotes
      with hhf₁
    have hfold : WindowInv hf₁ := foldl_pushBlockVote_windowInv hclear _
      (by simp only [clearVotes_versions, List.length_nil, List.length_range', clearVotes_windowSize]; omega)
    have hheights : hf₁.heights = hf.heights := by simp [hhf₁, foldl_pushBlockVote, foldl_pushVote]
    have hidx : WindowInv { hf₁ with
        currentForkIndex := findForkIndex (hf.db.getHardForkVersion (hf.db.height - 1)) hf.heights } :=
      ⟨hfold.tally, hfold.length_le, by simpa [hheights] using findForkIndex_lt _ hf.heights hne⟩
    refine ⟨raiseForkIndex_windowInv hidx _, fun _ => ?_⟩
    simp only [raiseForkIndex_versions, hhf₁, foldl_pushBlockVote, foldl_pushVote,
      clearVotes_versions, List.nil_append, ne_eq, List.map_eq_nil_iff, List.range'_eq_nil_iff]
    omega

/-- After `init` the invariant holds, whatever the schedule and the stored chain. -/
theorem init_windowInv (hf : HardFork) : WindowInv hf.init ∧ VotesStored hf.init := by
  have hw := hf.windowSize_pos
  -- the placeholder makes the schedule non-empty, so index 0 is in range
  have hplace : hf.withPlaceholder.heights ≠ [] := by
    unfold withPlaceholder
    split
    · simp
    · assumption
  set s₀ : HardFork := { hf.withPlaceholder.clearVotes with currentForkIndex := 0 } with hs₀
  have hs₀inv : WindowInv s₀ :=
    ⟨Tally.tallies_nil, by simp [s₀], List.length_pos_of_ne_nil hplace⟩
  have hdb : s₀.db = hf.db := by
    simp only [s₀, clearVotes_db]
    unfold withPlaceholder
    split <;> rfl
  have hws : s₀.windowSize = hf.windowSize := by
    simp only [s₀, clearVotes_windowSize]
    unfold withPlaceholder
    split <;> rfl
  set height := if hf.windowSize < hf.db.height then hf.db.height - (hf.windowSize - 1) else 1
    with hheight
  have hpos : height ≠ 0 := by
    rw [hheight]
    split <;> omega
  have hbound : s₀.db.height ≤ (height - 1) + s₀.windowSize := by
    rw [hdb, hws, hheight]
    split <;> omega
  obtain ⟨hinv, hne⟩ := rescanFromBlockHeight_windowInv hs₀inv (height - 1) hbound
  have hinit : hf.init = (s₀.rescanFromBlockHeight (height - 1)).2 := by
    simp only [init, rescanFromChainHeight]
    rw [← hheight, if_neg hpos]
  rw [hinit]
  refine ⟨hinv, fun hH => hne ?_⟩
  rw [rescanFromBlockHeight_db, hdb] at hH
  rw [hdb, hheight]
  split <;> omega

/-! ## Reorganisation -/

theorem windBack_le (hf : HardFork) (startVersion : UInt8) : ∀ i, hf.windBack startVersion i ≤ i
  | 0 => le_rfl
  | i + 1 => by
    simp only [windBack]
    split
    · exact (windBack_le hf startVersion i).trans (Nat.le_succ i)
    · exact le_rfl

theorem add_windowInv {hf : HardFork} (hinv : WindowInv hf) (b : BlockVersion) (height : ℕ) :
    WindowInv (hf.add b height).2 :=
  addVersion_windowInv hinv _ _ height

/-- The replay of `add` keeps the invariant, the stored blocks, and a non-empty window. -/
theorem addStoredBlocks_windowInv {hf : HardFork} (hinv : WindowInv hf) (l : List ℕ) :
    WindowInv (hf.addStoredBlocks l) ∧ (hf.addStoredBlocks l).db.blocks = hf.db.blocks ∧
      (hf.versions ≠ [] → (hf.addStoredBlocks l).versions ≠ []) := by
  unfold addStoredBlocks
  refine StateMachine.foldl_invariant
    (P := fun s => WindowInv s ∧ s.db.blocks = hf.db.blocks ∧ (hf.versions ≠ [] → s.versions ≠ []))
    ?_ l hf ⟨hinv, rfl, id⟩
  intro s h ⟨hs, hblocks, hne⟩
  refine ⟨add_windowInv hs _ h, ?_, ?_⟩
  · rw [← hblocks]
    exact addVersion_db_blocks s _ _ h
  · intro hv
    exact addVersion_versions_ne_nil_of_ne_nil s _ _ h (hne hv)

/-- `reorganize_from_block_height` keeps the invariant: the rebuilt window holds at most
`window_size` votes, and the replay keeps it from there. -/
theorem reorganizeFromBlockHeight_windowInv {hf : HardFork} (hinv : WindowInv hf)
    (hvs : VotesStored hf) (height : ℕ) :
    WindowInv (hf.reorganizeFromBlockHeight height).2 ∧
      VotesStored (hf.reorganizeFromBlockHeight height).2 := by
  unfold reorganizeFromBlockHeight
  split
  · exact ⟨hinv, hvs⟩
  · next hlt =>
    dsimp only
    have hw := hf.windowSize_pos
    set rescanHeight := if hf.windowSize - 1 ≤ height then height - (hf.windowSize - 1) else 0
      with hrescan
    set startVersion := if height = 0 then hf.originalVersion else hf.db.getHardForkVersion height
    set hf₁ : HardFork :=
      { hf.clearVotes with currentForkIndex := hf.windBack startVersion hf.currentForkIndex }
    have hf₁inv : WindowInv hf₁ :=
      ⟨Tally.tallies_nil, by simp [hf₁],
        lt_of_le_of_lt (windBack_le hf _ _) hinv.index_lt⟩
    have hcount : height + 1 - rescanHeight ≤ hf.windowSize := by
      rw [hrescan]
      split <;> omega
    have hfold := foldl_pushBlockVote_windowInv hf₁inv
      (List.range' rescanHeight (height + 1 - rescanHeight)) (by simpa [hf₁] using hcount)
    set hf₂ := ((List.range' rescanHeight (height + 1 - rescanHeight)).foldl pushBlockVote
      hf₁).raiseForkIndex (height + 1) with hhf₂
    have hf₂inv : WindowInv hf₂ := raiseForkIndex_windowInv hfold _
    have hf₂ne : hf₂.versions ≠ [] := by
      simp only [hhf₂, raiseForkIndex_versions, foldl_pushBlockVote, foldl_pushVote, hf₁,
        clearVotes_versions, List.nil_append, ne_eq, List.map_eq_nil_iff, List.range'_eq_nil_iff]
      rw [hrescan]
      split <;> omega
    obtain ⟨hrinv, hblocks, hrne⟩ := addStoredBlocks_windowInv hf₂inv
      (List.range' (height + 1) (hf.db.height - (height + 1)))
    refine ⟨hrinv, fun _ => hrne hf₂ne⟩

/-! ## Popping blocks -/

/-- INTERNAL: what the turns of the pop loop keep, relative to the tracker they started
from. -/
def RotatedFrom (hf t : HardFork) : Prop :=
  Tally.Tallies t.lastVersions t.versions ∧ t.versions.length = hf.versions.length ∧
    t.db = hf.db ∧ t.heights = hf.heights ∧ t.windowSize = hf.windowSize

/-- One turn of the pop loop on a non-empty window returns, with the window as long as
before and still counted. -/
theorem rotateVote_rotatedFrom {hf s : HardFork} (hs : RotatedFrom hf s)
    (hne : s.versions ≠ []) (h : ℕ) : ∃ t, s.rotateVote h = some t ∧ RotatedFrom hf t := by
  obtain ⟨htally, hlen, hdb, hheights, hws⟩ := hs
  obtain ⟨init, v, hsplit⟩ := List.eq_nil_or_concat s.versions |>.resolve_left hne
  rw [List.concat_eq_append] at hsplit
  have hlast : s.versions.getLast? = some v := by simp [hsplit]
  have hrot : s.rotateVote h = some { s with
      versions := s.db.getHardForkVersion h :: s.versions.dropLast
      lastVersions := Tally.bump (Tally.unbump s.lastVersions v) (s.db.getHardForkVersion h) } := by
    simp only [rotateVote, hlast]
  refine ⟨_, hrot, ?_, ?_, hdb, hheights, hws⟩
  · have hpop : Tally.Tallies (Tally.unbump s.lastVersions v) init :=
      Tally.Tallies.pop_back (by rw [← hsplit]; exact htally)
    simpa [hsplit] using hpop.push_front (s.db.getHardForkVersion h)
  · rw [← hlen, hsplit]
    simp

/-- The whole pop loop returns when the window it starts from is not empty. -/
theorem foldlM_rotateVote_rotatedFrom (hf : HardFork) (hne : hf.versions ≠ []) :
    ∀ (l : List ℕ) (s : HardFork), RotatedFrom hf s →
      ∃ t, l.foldlM rotateVote s = some t ∧ RotatedFrom hf t
  | [], s, hs => ⟨s, rfl, hs⟩
  | h :: l, s, hs => by
    have hsne : s.versions ≠ [] := by
      rw [← List.length_pos_iff, hs.2.1]
      exact List.length_pos_of_ne_nil hne
    obtain ⟨t, ht, htr⟩ := rotateVote_rotatedFrom hs hsne h
    obtain ⟨u, hu, hur⟩ := foldlM_rotateVote_rotatedFrom hf hne l t htr
    exact ⟨u, by simp [ht, hu], hur⟩

theorem lastForkReached_le (hf : HardFork) (chainHeight : ℕ) :
    ∀ i, hf.lastForkReached chainHeight i ≤ i
  | 0 => le_rfl
  | i + 1 => by
    simp only [lastForkReached]
    split
    · exact le_rfl
    · exact (lastForkReached_le hf chainHeight i).trans (Nat.le_succ i)

/-- `on_block_popped` returns on a tracker with a counted, non-empty window, a schedule and
a chain left, and keeps the invariant. -/
theorem onBlockPopped_windowInv {hf : HardFork} (hinv : WindowInv hf) (hne : hf.versions ≠ [])
    (n : ℕ) (hn : n ≠ 0) (hH : 0 < hf.db.height) :
    ∃ t, hf.onBlockPopped n = some t ∧ WindowInv t ∧ t.versions ≠ [] ∧ t.db = hf.db := by
  have hheights : hf.heights ≠ [] :=
    List.ne_nil_of_length_pos (lt_of_le_of_lt (Nat.zero_le _) hinv.index_lt)
  obtain ⟨t, ht, htally, hlen, hdb, hhs, hws⟩ :=
    foldlM_rotateVote_rotatedFrom hf hne (List.range' hf.db.height n).reverse hf
      ⟨hinv.tally, rfl, rfl, rfl, rfl⟩
  have hcond : ¬(n = 0 ∨ hf.db.height = 0 ∨ hf.heights = []) := by
    simp only [not_or]
    exact ⟨hn, by omega, hheights⟩
  have hpop : hf.onBlockPopped n = some { t with
      currentForkIndex := hf.lastForkReached hf.db.height (hf.heights.length - 1) } := by
    simp only [onBlockPopped, hcond, if_false, ht, Option.map_some]
  refine ⟨_, hpop, ?_, ?_, hdb⟩
  · refine ⟨htally, by rw [hlen, hws]; exact hinv.length_le, ?_⟩
    have hle := lastForkReached_le hf hf.db.height (hf.heights.length - 1)
    have hpos := List.length_pos_of_ne_nil hheights
    simp only [hhs]
    omega
  · simp only [ne_eq]
    rw [← List.length_eq_zero_iff, hlen, List.length_eq_zero_iff]
    exact hne

/-! ## Every tracker the node can reach -/

/-- Storing a block that `check` accepts and handing it to `add` keeps the invariant and
leaves a vote in the window. -/
theorem storeBlock_windowInv {hf : HardFork} (hinv : WindowInv hf) (b : BlockVersion)
    (hcheck : hf.check b = true) :
    WindowInv (hf.storeBlock b).2 ∧ VotesStored (hf.storeBlock b).2 := by
  set s : HardFork := { hf with db := hf.db.addBlock b }
  have hsinv : WindowInv s := ⟨hinv.tally, hinv.length_le, hinv.index_lt⟩
  -- `check` only reads the schedule and the fork index, which storing the block leaves
  have hscheck : s.doCheck (getBlockVersion b) (getBlockVote b) = true := hcheck
  exact ⟨add_windowInv hsinv b _, fun _ => addVersion_versions_ne_nil s _ _ _ hscheck⟩

/-- Popping blocks from a chain that keeps its genesis block keeps the invariant. -/
theorem popBlocks_windowInv {hf hf' : HardFork} (hinv : WindowInv hf) (hvs : VotesStored hf)
    (n : ℕ) (hn : n < hf.db.height)
    (hpop : ({ hf with db := hf.db.popBlocks n } : HardFork).onBlockPopped n = some hf') :
    WindowInv hf' ∧ VotesStored hf' := by
  set s : HardFork := { hf with db := hf.db.popBlocks n }
  have hsinv : WindowInv s := ⟨hinv.tally, hinv.length_le, hinv.index_lt⟩
  have hn0 : n ≠ 0 := by
    rintro rfl
    simp [onBlockPopped] at hpop
  have hsH : 0 < s.db.height := by
    simp only [s, BlockchainDB.height_popBlocks]
    omega
  obtain ⟨t, ht, htinv, htne, -⟩ :=
    onBlockPopped_windowInv hsinv (hvs (by omega)) n hn0 hsH
  rw [ht, Option.some.injEq] at hpop
  subst hpop
  exact ⟨htinv, fun _ => htne⟩

/-- One call of the node on the tracker keeps the invariant and a stored vote for a stored
chain. -/
theorem step_windowInv {hf hf' : HardFork} (hinv : WindowInv hf) (hvs : VotesStored hf)
    (hstep : Step hf hf') : WindowInv hf' ∧ VotesStored hf' := by
  obtain ⟨e, he⟩ := hstep
  cases e with
  | addBlock b =>
    simp only [next] at he
    split at he
    · next hcheck =>
      rw [Option.some.injEq] at he
      subst he
      exact storeBlock_windowInv hinv b hcheck
    · next =>
      rw [Option.some.injEq] at he
      subst he
      exact ⟨hinv, hvs⟩
  | popBlocks n =>
    simp only [next] at he
    split at he
    · next hn => exact popBlocks_windowInv hinv hvs n hn he
    · cases he
  | reorganize height =>
    simp only [next, Option.some.injEq] at he
    subst he
    exact reorganizeFromBlockHeight_windowInv hinv hvs height
  | init =>
    simp only [next, Option.some.injEq] at he
    subst he
    exact init_windowInv hf

/-- The invariant and a stored vote hold in every tracker the node can reach. -/
theorem reachable_windowInv_votesStored {hf : HardFork}
    (hr : StateMachine.Reachable Started Step hf) : WindowInv hf ∧ VotesStored hf := by
  refine StateMachine.Reachable.induction (I := fun s => WindowInv s ∧ VotesStored s) ?_ ?_ hr
  · rintro s ⟨hf₀, rfl⟩
    exact init_windowInv hf₀
  · rintro s t ⟨hinv, hvs⟩ hst
    exact step_windowInv hinv hvs hst

/-- In every state the node can drive the tracker to, after `add_fork` and `init` on any
stored chain and any sequence of stored blocks, pops, reorganisations and `init`, the
histogram counts every version exactly as often as it occurs in the window, the window
holds at most `window_size` votes, and the fork index names a scheduled fork. -/
theorem reachable_window_counted {hf : HardFork} (hr : StateMachine.Reachable Started Step hf) :
    (∀ v, hf.lastVersions v = hf.versions.count v) ∧ hf.versions.length ≤ hf.windowSize ∧
      hf.currentForkIndex < hf.heights.length := by
  obtain ⟨hinv, -⟩ := reachable_windowInv_votesStored hr
  exact ⟨hinv.tally, hinv.length_le, hinv.index_lt⟩

/-- A tracker with a window of two votes and forks to version 1 at height 0 and to version
2 at height 1, on an empty chain. -/
def twoForkTracker : HardFork :=
  ((((HardFork.create ⟨[], fun _ => 0⟩ 1 2 0).get (by decide)).addFork 1 0 0 0).2.addFork
    2 1 0 1).2

/-- `twoForkTracker` after `init` and one stored block of version 1 voting for 2. -/
def twoForkTrackerAfterBlock : HardFork :=
  (twoForkTracker.init.storeBlock ⟨1, 2⟩).2

theorem reachable_window_counted_after_block :
    (∀ v, twoForkTrackerAfterBlock.lastVersions v = twoForkTrackerAfterBlock.versions.count v) ∧
      twoForkTrackerAfterBlock.versions.length ≤ twoForkTrackerAfterBlock.windowSize ∧
      twoForkTrackerAfterBlock.currentForkIndex < twoForkTrackerAfterBlock.heights.length :=
  reachable_window_counted
    (StateMachine.Reachable.tail (StateMachine.Reachable.of_init ⟨twoForkTracker, rfl⟩)
      ⟨.addBlock ⟨1, 2⟩, by simp only [next]; rw [if_pos (by decide)]; rfl⟩)

/-- Every pop the node may make returns: the window it rotates is never empty. -/
theorem onBlockPopped_isSome {hf : HardFork} (hr : StateMachine.Reachable Started Step hf)
    (n : ℕ) (hn : 0 < n) (hlt : n < hf.db.height) : ∃ hf', hf.next (.popBlocks n) = some hf' := by
  obtain ⟨hinv, hvs⟩ := reachable_windowInv_votesStored hr
  set s : HardFork := { hf with db := hf.db.popBlocks n }
  have hsinv : WindowInv s := ⟨hinv.tally, hinv.length_le, hinv.index_lt⟩
  have hsH : 0 < s.db.height := by
    simp only [s, BlockchainDB.height_popBlocks]
    omega
  obtain ⟨t, ht, -⟩ := onBlockPopped_windowInv hsinv (hvs (by omega)) n (by omega) hsH
  exact ⟨t, by simp only [next, hlt, if_true]; exact ht⟩

end HardFork

end Wazn
