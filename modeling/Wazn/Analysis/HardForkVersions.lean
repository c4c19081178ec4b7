import Mathlib.Data.List.Perm.Subperm
import Wazn.Analysis.HardForkReorganize

/-!
# The versions a run records move forward

Each block that `add` accepts has the version of the fork in force written at its height.
The fork index only grows, and the schedule's versions strictly increase with the index, so
the recorded versions never decrease. The index also never names a fork before its height:
the vote step picks only forks whose height the next block reaches (`ForkReached`), so the
recorded version is at most what `get_ideal_version` names for that height, except that
`get_ideal_version` never looks at the first fork and answers `original_version` before the
second: from height 0 the tracker runs the first fork, and `original_version` must not lie
below it.
-/

set_option autoImplicit false

namespace Wazn

namespace HardFork

/-- The fork in force is reached at `height`: the first fork is in force from the start,
every later one only from its own height on. -/
def ForkReached (hf : HardFork) (height : ℕ) : Prop :=
  hf.currentForkIndex = 0 ∨ (hf.forkAt hf.currentForkIndex).height ≤ height

theorem ForkReached.mono {hf : HardFork} {a b : ℕ} (h : hf.ForkReached a) (hab : a ≤ b) :
    hf.ForkReached b := by
  rcases h with h0 | hle
  · exact .inl h0
  · exact .inr (hle.trans hab)

theorem forkAt_version_le (hf : HardFork) {i j : ℕ} (hij : i ≤ j) (hj : j < hf.heights.length) :
    (hf.forkAt i).version ≤ (hf.forkAt j).version := by
  rcases Nat.lt_or_eq_of_le hij with hlt | rfl
  · exact UInt8.le_of_lt (hf.forkAt_version_lt hlt hj)
  · exact UInt8.le_refl _

theorem forkAt_mem (hf : HardFork) {i : ℕ} (hi : i < hf.heights.length) :
    hf.forkAt i ∈ hf.heights := by
  rw [forkAt, List.getD_eq_getElem _ _ hi]
  exact List.getElem_mem hi

/-- A schedule of strictly increasing `uint8_t` versions has at most 256 forks, so the
truncation of the voted index to `uint8_t` never changes it. -/
theorem length_heights_le (hf : HardFork) : hf.heights.length ≤ 256 := by
  have hchain : (hf.heights.map fun f => f.version.toNat).IsChain (· < ·) :=
    (List.isChain_map _).2 (hf.heights_chain.imp fun _ _ h => UInt8.lt_iff_toNat_lt.1 h.1)
  have hsub : (hf.heights.map fun f => f.version.toNat) ⊆ List.range 256 := by
    intro v hv
    obtain ⟨f, -, rfl⟩ := List.mem_map.1 hv
    exact List.mem_range.2 f.version.toNat_lt
  have hnodup : (hf.heights.map fun f => f.version.toNat).Nodup :=
    hchain.pairwise.imp Nat.ne_of_lt
  have hle := (hnodup.subperm hsub).length_le
  rwa [List.length_map, List.length_range] at hle

/-! ## The vote step picks a reached fork -/

/-- The loop of `get_voted_fork_index` either falls back to the current index or stops at a
fork whose height is reached. -/
theorem votedForkIndexFrom_cases (hf : HardFork) (height : ℕ) : ∀ n acc,
    hf.votedForkIndexFrom height n acc = hf.currentForkIndex ∨
      (hf.forkAt (hf.votedForkIndexFrom height n acc)).height ≤ height
  | 0, _ => .inl rfl
  | n + 1, acc => by
    simp only [votedForkIndexFrom]
    split
    · next h => exact .inr h.1
    · exact votedForkIndexFrom_cases hf height n _

theorem raiseForkIndex_forkReached {hf : HardFork} (hidx : hf.currentForkIndex < hf.heights.length)
    {height : ℕ} (hreach : hf.ForkReached height) :
    (hf.raiseForkIndex height).ForkReached height := by
  have hvoted : hf.getVotedForkIndex height < 256 :=
    lt_of_lt_of_le (votedForkIndexFrom_lt hf height hidx _ 0 le_rfl) hf.length_heights_le
  unfold ForkReached
  rw [forkAt_eq_of_heights (raiseForkIndex_heights hf height), raiseForkIndex_currentForkIndex,
    Nat.mod_eq_of_lt hvoted]
  rcases le_total (hf.getVotedForkIndex height) hf.currentForkIndex with hle | hlt
  · rw [max_eq_left hle]
    exact hreach
  · rw [max_eq_right hlt]
    rcases votedForkIndexFrom_cases hf height _ 0 with heq | hreached
    · rw [getVotedForkIndex, heq]
      exact hreach
    · exact .inr hreached

/-- Storing an accepted block keeps the fork in force reached by the chain. -/
theorem storeBlock_forkReached {s : HardFork} (hinv : WindowInv s)
    (hreach : s.ForkReached s.db.height) (b : BlockVersion) (hacc : (s.storeBlock b).1 = true) :
    (s.storeBlock b).2.ForkReached (s.storeBlock b).2.db.height := by
  have hheight : (s.storeBlock b).2.db.height = s.db.height + 1 := by
    rw [storeBlock_db s b hacc]
    simp
  obtain ⟨p, hp, hpidx⟩ := storeBlock_eq_raiseForkIndex s b hacc
  have hpheights : p.heights = s.heights := by
    rw [← raiseForkIndex_heights p (s.db.height + 1), ← hp, storeBlock_heights]
  have hpreach : p.ForkReached (s.db.height + 1) := by
    unfold ForkReached
    rw [hpidx, forkAt_eq_of_heights hpheights]
    exact hreach.mono (Nat.le_succ _)
  rw [hheight, hp]
  exact raiseForkIndex_forkReached (by rw [hpidx, hpheights]; exact hinv.index_lt) hpreach

theorem addBlocks_forkReached {s f : HardFork} {bs : List BlockVersion} (hinv : WindowInv s)
    (hreach : s.ForkReached s.db.height) (h : s.addBlocks bs = some f) :
    f.ForkReached f.db.height := by
  induction bs generalizing s with
  | nil =>
    simp only [addBlocks_nil, Option.some.injEq] at h
    subst h
    exact hreach
  | cons b bs ih =>
    obtain ⟨hacc, hrest⟩ := addBlocks_cons_eq_some h
    exact ih (storeBlock_windowInv' hinv b) (storeBlock_forkReached hinv hreach b hacc) hrest

/-! ## The ideal version -/

/-- A reached fork is not newer than the ideal version, provided the first fork is not
newer than `original_version`, which the loop answers when it reaches index 0. -/
theorem forkAt_version_le_idealVersionFrom (hf : HardFork) (height : ℕ) {i : ℕ}
    (hfirst : i = 0 → (hf.forkAt 0).version ≤ hf.originalVersion)
    (hreach : i = 0 ∨ (hf.forkAt i).height ≤ height) :
    ∀ n, i ≤ n → n < hf.heights.length →
      (hf.forkAt i).version ≤ hf.idealVersionFrom height n
  | 0, hin, _ => by
    obtain rfl : i = 0 := by omega
    exact hfirst rfl
  | n + 1, hin, hn => by
    rw [idealVersionFrom]
    split
    · exact hf.forkAt_version_le hin hn
    · next hgt =>
      -- fork `n + 1` is not reached, so it is not the fork `i`
      have hi : i ≠ n + 1 := by
        rintro rfl
        rcases hreach with h0 | hle
        · omega
        · exact hgt hle
      exact forkAt_version_le_idealVersionFrom hf height hfirst hreach n (by omega) (by omega)

theorem forkAt_version_le_getIdealVersion (hf : HardFork) (height : ℕ) {i : ℕ}
    (hi : i < hf.heights.length) (hfirst : (hf.forkAt 0).version ≤ hf.originalVersion)
    (hreach : i = 0 ∨ (hf.forkAt i).height ≤ height) :
    (hf.forkAt i).version ≤ hf.getIdealVersion height :=
  hf.forkAt_version_le_idealVersionFrom height (fun _ => hfirst) hreach _ (by omega) (by omega)

/-! ## What a run records -/

/-- `check` accepts a block of the version in force that votes for it or a later one. -/
theorem check_eq_true_iff (hf : HardFork) (b : BlockVersion) :
    hf.check b = true ↔ b.majorVersion = (hf.forkAt hf.currentForkIndex).version ∧
      (hf.forkAt hf.currentForkIndex).version ≤ getBlockVote b := by
  simp [check, doCheck, getBlockVersion]

theorem addBlocks_height {s f : HardFork} {bs : List BlockVersion} (h : s.addBlocks bs = some f) :
    f.db.height = s.db.height + bs.length := by
  rw [BlockchainDB.height, addBlocks_db_blocks h, List.length_append]
  rfl

/-- The version a run records at the height of its `r`-th block is that of the fork in force
in the state the block was stored from, which accepted the block. -/
theorem addBlocks_hfVersions_at {s f : HardFork} {bs : List BlockVersion}
    (h : s.addBlocks bs = some f) {r : ℕ} (hr : r < bs.length) :
    ∃ sr, s.addBlocks (bs.take r) = some sr ∧ sr.check bs[r] = true ∧
      f.db.getHardForkVersion (s.db.height + r) = (sr.forkAt sr.currentForkIndex).version := by
  obtain ⟨sr, hsr, hacc, hrest⟩ := addBlocks_split h hr
  have hsrheight : sr.db.height = s.db.height + r := by
    rw [addBlocks_height hsr, List.length_take, min_eq_left hr.le]
  have hstored : sr.db.height < (sr.storeBlock bs[r]).2.db.height := by
    rw [storeBlock_db sr _ hacc]
    simp
  refine ⟨sr, hsr, (storeBlock_fst sr _).symm.trans hacc, ?_⟩
  rw [BlockchainDB.getHardForkVersion, ← hsrheight, addBlocks_hfVersions_below hrest _ hstored,
    storeBlock_db sr _ hacc]
  simp [BlockchainDB.setHardForkVersion]

/-- The fork index of a run at an earlier height is at most the one at a later height. -/
theorem addBlocks_take_currentForkIndex_le {s s₁ s₂ : HardFork} {bs : List BlockVersion}
    {r₁ r₂ : ℕ} (hr : r₁ ≤ r₂) (h₁ : s.addBlocks (bs.take r₁) = some s₁)
    (h₂ : s.addBlocks (bs.take r₂) = some s₂) :
    s₁.currentForkIndex ≤ s₂.currentForkIndex := by
  have htake : bs.take r₂ = bs.take r₁ ++ (bs.take r₂).drop r₁ := by
    conv_lhs => rw [← List.take_append_drop r₁ (bs.take r₂)]
    rw [List.take_take, min_eq_left hr]
  rw [htake, addBlocks_append, h₁, Option.bind_some] at h₂
  exact addBlocks_currentForkIndex_le h₂

/-- At the height of its `r`-th block a run records the version of a fork of the schedule
that the chain has reached there, the block has that version and votes for it or later, and
the fork is the one in force in the state the block was stored from. -/
theorem addBlocks_recorded {s f : HardFork} {bs : List BlockVersion} (hinv : WindowInv s)
    (hreach : s.ForkReached s.db.height) (h : s.addBlocks bs = some f) {r : ℕ}
    (hr : r < bs.length) :
    ∃ sr, s.addBlocks (bs.take r) = some sr ∧ sr.currentForkIndex < s.heights.length ∧
      (sr.currentForkIndex = 0 ∨ (s.forkAt sr.currentForkIndex).height ≤ s.db.height + r) ∧
      f.db.getHardForkVersion (s.db.height + r) = (s.forkAt sr.currentForkIndex).version ∧
      bs[r].majorVersion = (s.forkAt sr.currentForkIndex).version ∧
      (s.forkAt sr.currentForkIndex).version ≤ getBlockVote bs[r] := by
  obtain ⟨sr, hsr, hcheck, hrec⟩ := addBlocks_hfVersions_at h hr
  have hheights := addBlocks_heights hsr
  have hidx : sr.currentForkIndex < s.heights.length := by
    rw [← hheights]
    exact (addBlocks_windowInv hinv hsr).index_lt
  have hreached := addBlocks_forkReached hinv hreach hsr
  unfold ForkReached at hreached
  rw [check_eq_true_iff] at hcheck
  rw [forkAt_eq_of_heights hheights] at hcheck hrec hreached
  rw [addBlocks_height hsr, List.length_take, min_eq_left hr.le] at hreached
  exact ⟨sr, hsr, hidx, hreached, hrec, hcheck⟩

/-- On an empty chain `init` puts the first fork in force. -/
theorem init_forkReached (hf₀ : HardFork) (hdb : hf₀.db.blocks = []) :
    hf₀.init.ForkReached hf₀.init.db.height := by
  rw [init_of_empty hf₀ hdb]
  exact .inl rfl

theorem addBlocks_versions_forward (hf₀ : HardFork) (hdb : hf₀.db.blocks = [])
    {bs : List BlockVersion} {f : HardFork} (hrun : hf₀.init.addBlocks bs = some f) :
    (∀ h₁ h₂, h₁ ≤ h₂ → h₂ < bs.length →
        f.db.getHardForkVersion h₁ ≤ f.db.getHardForkVersion h₂) ∧
      (∀ h < bs.length, ∃ fork ∈ hf₀.init.heights,
        fork.version = f.db.getHardForkVersion h) ∧
      ((hf₀.init.forkAt 0).version ≤ hf₀.originalVersion →
        ∀ h < bs.length, f.db.getHardForkVersion h ≤ hf₀.init.getIdealVersion h) ∧
      ∀ h (hh : h < bs.length), bs[h].majorVersion = f.db.getHardForkVersion h ∧
        f.db.getHardForkVersion h ≤ getBlockVote bs[h] := by
  have hheight : hf₀.init.db.height = 0 := by
    rw [init_of_empty hf₀ hdb]
    simp [BlockchainDB.height, withPlaceholder_db, hdb]
  have horig : hf₀.init.originalVersion = hf₀.originalVersion := by
    rw [init_of_empty hf₀ hdb]
    exact withPlaceholder_originalVersion hf₀
  have hrec := fun h (hh : h < bs.length) =>
    addBlocks_recorded (init_windowInv hf₀).1 (init_forkReached hf₀ hdb) hrun hh
  simp only [hheight, Nat.zero_add] at hrec
  refine ⟨?monotone, ?scheduled, ?ideal, ?vote⟩
  case monotone =>
    intro h₁ h₂ h12 h₂lt
    obtain ⟨s₁, hs₁, -, -, hv₁, -⟩ := hrec h₁ (by omega)
    obtain ⟨s₂, hs₂, hi₂, -, hv₂, -⟩ := hrec h₂ h₂lt
    rw [hv₁, hv₂]
    exact hf₀.init.forkAt_version_le (addBlocks_take_currentForkIndex_le h12 hs₁ hs₂) hi₂
  case scheduled =>
    intro h hh
    obtain ⟨sr, -, hi, -, hv, -⟩ := hrec h hh
    exact ⟨_, hf₀.init.forkAt_mem hi, hv.symm⟩
  case ideal =>
    intro hfirst h hh
    obtain ⟨sr, -, hi, hreach, hv, -⟩ := hrec h hh
    rw [hv]
    exact hf₀.init.forkAt_version_le_getIdealVersion h hi (horig ▸ hfirst) hreach
  case vote =>
    intro h hh
    obtain ⟨sr, -, -, -, hv, hmajor, hvote⟩ := hrec h hh
    rw [hv]
    exact ⟨hmajor, hvote⟩

theorem addBlocks_versions_forward_twoForkChain :
    (∀ h₁ h₂, h₁ ≤ h₂ → h₂ < 3 →
        twoForkChain.db.getHardForkVersion h₁ ≤ twoForkChain.db.getHardForkVersion h₂) ∧
      (∀ h < 3, ∃ fork ∈ twoForkTracker.init.heights,
        fork.version = twoForkChain.db.getHardForkVersion h) ∧
      ((twoForkTracker.init.forkAt 0).version ≤ twoForkTracker.originalVersion →
        ∀ h < 3,
          twoForkChain.db.getHardForkVersion h ≤ twoForkTracker.init.getIdealVersion h) ∧
      ∀ h (hh : h < 3),
        ([⟨1, 2⟩, ⟨2, 2⟩, ⟨2, 2⟩] : List BlockVersion)[h].majorVersion =
          twoForkChain.db.getHardForkVersion h ∧
        twoForkChain.db.getHardForkVersion h ≤
          getBlockVote ([⟨1, 2⟩, ⟨2, 2⟩, ⟨2, 2⟩] : List BlockVersion)[h] :=
  @addBlocks_versions_forward twoForkTracker rfl [⟨1, 2⟩, ⟨2, 2⟩, ⟨2, 2⟩] twoForkChain
    (Option.some_get _).symm

/-- A tracker created with `original_version` 1 and a window of one vote, whose only fork,
to version 2, starts at height 0. -/
def earlyForkTracker : HardFork :=
  (((HardFork.create ⟨[], fun _ => 0⟩ 1 1 0).get (by decide)).addFork 2 0 0 0).2

/-- `earlyForkTracker` after one block of version 2. -/
def earlyForkChain : HardFork :=
  (earlyForkTracker.init.addBlocks [⟨2, 2⟩]).get (by decide)

/-- Without the bound on the first fork, the recorded version can lie above the ideal one:
`add_fork` accepts the fork, the block at height 0 is recorded under version 2, and
`get_ideal_version(0)` answers `original_version`, 1. -/
theorem addBlocks_above_idealVersion :
    (((HardFork.create ⟨[], fun _ => 0⟩ 1 1 0).get (by decide)).addFork 2 0 0 0).1 = true ∧
      earlyForkTracker.db.blocks = [] ∧
      earlyForkTracker.init.addBlocks [⟨2, 2⟩] = some earlyForkChain ∧
      earlyForkTracker.init.getIdealVersion 0 = 1 ∧
      earlyForkChain.db.getHardForkVersion 0 = 2 :=
  ⟨by decide, rfl, (Option.some_get _).symm, by decide, by decide⟩

end HardFork

end Wazn
