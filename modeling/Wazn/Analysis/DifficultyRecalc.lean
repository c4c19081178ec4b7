import Wazn.Analysis.DifficultyWindow

/-!
# Recalculating the cumulative difficulties

`recalculate_difficulties(s)` recomputes the cumulative difficulty of every height from
`s` to the top and writes back those from the first height where the stored value
drifted. What it should leave is `recalculatedChain`: the stored records below `s`, and
from `s` on each block's cumulative difficulty the previous one plus the difficulty of
its window of the chain recomputed so far.

The main loop keeps a window that it seeds from the database below `s`, slides by one
height per iteration, and feeds to `next_difficulty`. `RecalcInv` states what the loop
state is before height `k`: the window of height `k` of the recalculated chain, its last
cumulative difficulty, and the drift found so far. The seeding establishes it
(`recalculateInit_recalcInv`), each iteration keeps it (`recalcInv_step`), and at the top
the write-back leaves exactly the recalculated chain in the database
(`recalculateDifficulties_run`).

The one assumption is that the genesis block's stored cumulative difficulty is 1, as for
every chain the node stores: `last_cum_diff` starts at `start_height` when that is 0 or
1, which assumes it, and a drift at height 0 is never written back, since
`drift_start_height == 0` also means that no drift was found.
-/

set_option autoImplicit false

namespace Wazn

namespace Blockchain

variable (bc : Blockchain)

/-- The first `k` records of the chain `recalculate_difficulties startHeight` should
leave: the stored ones below `startHeight`, and from there on the stored timestamp with
the previous cumulative difficulty plus the difficulty of the block's window. -/
def recalculatedChain (startHeight : ℕ) : ℕ → List BlockInfo
  | 0 => []
  | k + 1 =>
    let chain := recalculatedChain startHeight k
    let b := bc.db.getD k default
    if k < startHeight then chain ++ [b]
    else chain ++ [{ b with
      cumulativeDifficulty :=
        windowDifficulty chain k difficultyTargetV2 + (chain.getLastD default).cumulativeDifficulty }]

variable {bc}

theorem recalculatedChain_length (startHeight : ℕ) :
    ∀ k, (bc.recalculatedChain startHeight k).length = k
  | 0 => rfl
  | k + 1 => by
    simp only [recalculatedChain]
    split <;> simp [recalculatedChain_length startHeight k]

/-- Each record is fixed once the chain reaches its height: a shorter chain is a prefix of a
longer one. -/
theorem recalculatedChain_take (startHeight : ℕ) {k : ℕ} :
    ∀ m, k ≤ m → (bc.recalculatedChain startHeight m).take k = bc.recalculatedChain startHeight k
  | 0, hk => by
    obtain rfl : k = 0 := by omega
    rfl
  | m + 1, hk => by
    rcases Nat.lt_or_ge k (m + 1) with hlt | hge
    · have hlen : (bc.recalculatedChain startHeight m).length = m :=
        recalculatedChain_length startHeight m
      have htake : (bc.recalculatedChain startHeight (m + 1)).take k =
          (bc.recalculatedChain startHeight m).take k := by
        simp only [recalculatedChain]
        split <;> rw [List.take_append_of_le_length (by omega)]
      rw [htake, recalculatedChain_take startHeight m (by omega)]
    · obtain rfl : k = m + 1 := by omega
      rw [List.take_of_length_le (by rw [recalculatedChain_length])]

/-- The record at height `k` of the recalculated chain. -/
theorem recalculatedChain_getD_self (startHeight k : ℕ) :
    (bc.recalculatedChain startHeight (k + 1)).getD k default =
      if k < startHeight then bc.db.getD k default
      else { bc.db.getD k default with
        cumulativeDifficulty := windowDifficulty (bc.recalculatedChain startHeight k) k
            difficultyTargetV2 +
          ((bc.recalculatedChain startHeight k).getLastD default).cumulativeDifficulty } := by
  have hlen : (bc.recalculatedChain startHeight k).length = k :=
    recalculatedChain_length startHeight k
  simp only [recalculatedChain]
  split <;> rw [List.getD_append_right _ _ _ _ (by omega), hlen, Nat.sub_self] <;> rfl

/-- Reading a height below `k` reads the record that height got when it was reached. -/
theorem recalculatedChain_getD_of_lt (startHeight : ℕ) {h k : ℕ} (hk : h < k) :
    (bc.recalculatedChain startHeight k).getD h default =
      (bc.recalculatedChain startHeight (h + 1)).getD h default := by
  rw [← recalculatedChain_take startHeight k hk, List.getD_eq_getElem?_getD,
    List.getD_eq_getElem?_getD, List.getElem?_take_of_lt (by omega)]

/-- Recalculation keeps the stored timestamps. -/
theorem recalculatedChain_timestamp (startHeight : ℕ) {h k : ℕ} (hk : h < k) :
    ((bc.recalculatedChain startHeight k).getD h default).timestamp =
      (bc.db.getD h default).timestamp := by
  rw [recalculatedChain_getD_of_lt startHeight hk, recalculatedChain_getD_self]
  split <;> rfl

theorem recalculatedChain_getLastD (startHeight k : ℕ) :
    (bc.recalculatedChain startHeight (k + 1)).getLastD default =
      (bc.recalculatedChain startHeight (k + 1)).getD k default := by
  have hlen : (bc.recalculatedChain startHeight (k + 1)).length = k + 1 :=
    recalculatedChain_length startHeight (k + 1)
  rw [List.getLastD_eq_getLast?, List.getLast?_eq_getElem?, hlen, Nat.add_sub_cancel,
    List.getD_eq_getElem?_getD]

/-- Below the start height the recalculated chain is the stored one. -/
theorem recalculatedChain_getD_of_lt_start {startHeight h k : ℕ} (hk : h < k)
    (hs : h < startHeight) :
    (bc.recalculatedChain startHeight k).getD h default = bc.db.getD h default := by
  rw [recalculatedChain_getD_of_lt startHeight hk, recalculatedChain_getD_self, if_pos hs]

/-! ## The sliding window -/

theorem difficultyWindowHeights_length (k : ℕ) :
    (difficultyWindowHeights k).length = k - max 1 (k - difficultyBlocksCount) := by
  rw [difficultyWindowHeights, List.length_range']

theorem difficultyWindowHeights_of_le_one {k : ℕ} (hk : k ≤ 1) : difficultyWindowHeights k = [] := by
  rw [difficultyWindowHeights, show k - max 1 (k - difficultyBlocksCount) = 0 by omega,
    List.range'_zero]

/-- The window of the next height: the height pushed, and the oldest one dropped when
that makes more than `DIFFICULTY_BLOCKS_COUNT`. -/
theorem difficultyWindowHeights_succ {k : ℕ} (hk : 1 ≤ k) :
    difficultyWindowHeights (k + 1) =
      if (difficultyWindowHeights k ++ [k]).length > difficultyBlocksCount then
        (difficultyWindowHeights k ++ [k]).tail
      else difficultyWindowHeights k ++ [k] := by
  have hconcat : difficultyWindowHeights k ++ [k] =
      List.range' (max 1 (k - difficultyBlocksCount))
        (k - max 1 (k - difficultyBlocksCount) + 1) := by
    rw [difficultyWindowHeights, List.range'_concat, Nat.one_mul,
      Nat.add_sub_of_le (by omega : max 1 (k - difficultyBlocksCount) ≤ k)]
  rw [hconcat, List.length_range', difficultyWindowHeights]
  split
  · next hfull =>
    -- a full window moves up by one height
    have hstart : max 1 (k + 1 - difficultyBlocksCount) = max 1 (k - difficultyBlocksCount) + 1 := by
      omega
    have hcount : k - max 1 (k - difficultyBlocksCount) + 1 = difficultyBlocksCount + 1 := by
      omega
    rw [hcount, List.range'_succ, List.tail_cons, hstart,
      show k + 1 - (max 1 (k - difficultyBlocksCount) + 1) = difficultyBlocksCount by omega]
  · next hroom =>
    -- a window with room grows by one height
    have hstart : max 1 (k + 1 - difficultyBlocksCount) = max 1 (k - difficultyBlocksCount) := by
      omega
    rw [hstart, show k + 1 - max 1 (k - difficultyBlocksCount) =
      k - max 1 (k - difficultyBlocksCount) + 1 by omega]

/-- The difficulty of the genesis block, whose window is empty. -/
theorem windowDifficulty_zero (chain : List BlockInfo) (target : ℕ) :
    windowDifficulty chain 0 target = 1 := by
  simp [windowDifficulty, difficultyWindowHeights_of_le_one, nextDifficulty]

/-! ## One iteration -/

/-- A recalculated cumulative difficulty is the window's difficulty added to
`last_cum_diff`, without overflow. -/
theorem recalculatedCumDiff_eq_ok {st : RecalcState} {k : ℕ} {c : DifficultyType}
    (h : bc.recalculatedCumDiff st k = .ok c) :
    c = nextDifficulty st.timestamps st.difficulties difficultyTargetV2 + st.lastCumDiff ∧
      c.toNat = (nextDifficulty st.timestamps st.difficulties difficultyTargetV2).toNat +
        st.lastCumDiff.toNat := by
  simp only [recalculatedCumDiff, idealDifficultyTarget_eq] at h
  split at h
  · cases h
  · next hfit =>
    rw [ExceptLoop.pure_eq_ok, Except.ok.injEq] at h
    rw [← h, BitVec.add_def, BitVec.toNat_ofNat, Nat.mod_eq_of_lt (by omega)]
    exact ⟨rfl, rfl⟩

theorem detectDrift_eq_ok {d k d' : ℕ} {c : DifficultyType} (hk : k < bc.height)
    (h : bc.detectDrift d k c = .ok d') :
    d' = if d = 0 then (if c ≠ (bc.db.getD k default).cumulativeDifficulty then k else d)
      else d := by
  unfold detectDrift at h
  split at h
  · next hd =>
    rw [bc.getBlockCumulativeDifficulty_of_lt hk, ExceptLoop.ok_bind, ExceptLoop.pure_eq_ok] at h
    rw [Except.ok.injEq] at h
    rw [← h, if_pos hd]
  · next hd =>
    rw [ExceptLoop.pure_eq_ok, Except.ok.injEq] at h
    rw [← h, if_neg hd]

/-- Pushing the block at `k` and trimming slides a window of height `k` to the window of
height `k + 1`. -/
theorem pushWindow_trim {k : ℕ} (hk : k < bc.height) (f : ℕ → UInt64) (g : ℕ → DifficultyType)
    (hfk : f k = (bc.db.getD k default).timestamp)
    {p w : List UInt64 × List DifficultyType}
    (hp : bc.pushWindow ((difficultyWindowHeights k).map f) ((difficultyWindowHeights k).map g) k
      (g k) = .ok p)
    (hw : trimDifficultyWindow p = .ok w) :
    w = ((difficultyWindowHeights (k + 1)).map f, (difficultyWindowHeights (k + 1)).map g) := by
  unfold pushWindow at hp
  split at hp
  · next hpos =>
    rw [bc.getBlockTimestamp_of_lt hk, ExceptLoop.ok_bind, ExceptLoop.pure_eq_ok] at hp
    rw [Except.ok.injEq] at hp
    subst hp
    rw [← hfk, ← List.map_singleton (f := f), ← List.map_singleton (f := g), ← List.map_append, ← List.map_append]
      at hw
    rw [difficultyWindowHeights_succ (by omega)]
    unfold trimDifficultyWindow at hw
    simp only [List.length_map] at hw
    split at hw
    · next hfull =>
      -- the window held at most `DIFFICULTY_BLOCKS_COUNT` heights, so it is one too many now
      have hone : (difficultyWindowHeights k ++ [k]).length = difficultyBlocksCount + 1 := by
        rw [List.length_append, difficultyWindowHeights_length, List.length_singleton]
        rw [List.length_append, difficultyWindowHeights_length, List.length_singleton] at hfull
        omega
      rw [if_pos hone, ExceptLoop.pure_eq_ok] at hw
      rw [Except.ok.injEq] at hw
      subst hw
      rw [if_pos hfull, List.map_tail, List.map_tail]
    · next hroom =>
      rw [ExceptLoop.pure_eq_ok, Except.ok.injEq] at hw
      subst hw
      rw [if_neg hroom]
  · next hzero =>
    rw [ExceptLoop.pure_eq_ok, Except.ok.injEq] at hp
    subst hp
    obtain rfl : k = 0 := by omega
    unfold trimDifficultyWindow at hw
    simp only [difficultyWindowHeights_of_le_one (Nat.le_refl 1),
      difficultyWindowHeights_of_le_one (Nat.zero_le 1), List.map_nil, List.length_nil] at hw ⊢
    rw [if_neg (by decide), ExceptLoop.pure_eq_ok] at hw
    rw [Except.ok.injEq] at hw
    rw [← hw]

/-! ## The loop invariant -/

/-- What the main loop of `recalculate_difficulties startHeight` holds before height `k`:
the window of height `k` of the recalculated chain, that chain's last cumulative
difficulty, and either no drift yet, the chain agreeing with the database from
`startHeight` on, or a first drift at `driftStartHeight`, with the chain's values from
there collected. -/
structure RecalcInv (bc : Blockchain) (startHeight k : ℕ) (st : RecalcState) : Prop where
  timestamps : st.timestamps =
    (difficultyWindowHeights k).map fun h => (bc.db.getD h default).timestamp
  difficulties : st.difficulties = (difficultyWindowHeights k).map fun h =>
    ((bc.recalculatedChain startHeight k).getD h default).cumulativeDifficulty
  lastCumDiff : st.lastCumDiff =
    ((bc.recalculatedChain startHeight k).getLastD default).cumulativeDifficulty
  drift :
    (st.driftStartHeight = 0 ∧ st.newCumulativeDifficulties = [] ∧
      ∀ h, startHeight ≤ h → h < k →
        (bc.recalculatedChain startHeight k).getD h default = bc.db.getD h default) ∨
    (0 < st.driftStartHeight ∧ st.driftStartHeight < k ∧
      (∀ h, startHeight ≤ h → h < st.driftStartHeight →
        (bc.recalculatedChain startHeight k).getD h default = bc.db.getD h default) ∧
      st.newCumulativeDifficulties =
        (List.range' st.driftStartHeight (k - st.driftStartHeight)).map fun h =>
          ((bc.recalculatedChain startHeight k).getD h default).cumulativeDifficulty)

/-- The loop's window is the window of the recalculated chain. -/
theorem RecalcInv.nextDifficulty_eq {startHeight k : ℕ} {st : RecalcState}
    (hinv : bc.RecalcInv startHeight k st) :
    nextDifficulty st.timestamps st.difficulties difficultyTargetV2 =
      windowDifficulty (bc.recalculatedChain startHeight k) k difficultyTargetV2 := by
  have hts : ((difficultyWindowHeights k).map fun h => (bc.db.getD h default).timestamp) =
      (difficultyWindowHeights k).map fun h =>
        ((bc.recalculatedChain startHeight k).getD h default).timestamp := by
    apply List.map_congr_left
    intro h hh
    rw [difficultyWindowHeights, List.mem_range'_1] at hh
    rw [recalculatedChain_timestamp startHeight (by omega : h < k)]
  rw [hinv.timestamps, hinv.difficulties, windowDifficulty, hts]

/-- The value the loop recalculates at `k` is the record the recalculated chain has there. -/
theorem RecalcInv.getD_succ {startHeight k : ℕ} {st : RecalcState} {c : DifficultyType}
    (hinv : bc.RecalcInv startHeight k st) (hsk : startHeight ≤ k)
    (hc : bc.recalculatedCumDiff st k = .ok c) :
    (bc.recalculatedChain startHeight (k + 1)).getD k default =
      { bc.db.getD k default with cumulativeDifficulty := c } := by
  rw [recalculatedChain_getD_self, if_neg (by omega), (recalculatedCumDiff_eq_ok hc).1,
    hinv.nextDifficulty_eq, hinv.lastCumDiff]

/-- One iteration of the main loop keeps the invariant. -/
theorem recalcInv_step {startHeight k : ℕ} {st st' : RecalcState}
    (hgen : startHeight ≤ 1 → (bc.db.getD 0 default).cumulativeDifficulty = 1)
    (hsk : startHeight ≤ k) (hk : k < bc.height) (hinv : bc.RecalcInv startHeight k st)
    (h : bc.recalculateStep st k = .ok st') : bc.RecalcInv startHeight (k + 1) st' := by
  set R := bc.recalculatedChain startHeight with hR
  obtain ⟨c, hc, h⟩ := ExceptLoop.bind_eq_ok.1 h
  obtain ⟨d', hd, h⟩ := ExceptLoop.bind_eq_ok.1 h
  obtain ⟨p, hp, h⟩ := ExceptLoop.bind_eq_ok.1 h
  obtain ⟨w, hw, h⟩ := ExceptLoop.bind_eq_ok.1 h
  rw [ExceptLoop.pure_eq_ok, Except.ok.injEq] at h
  subst h
  -- the step computes the next record of the recalculated chain
  have hwindow := hinv.nextDifficulty_eq
  have hrecord := hinv.getD_succ hsk hc
  have hbelow : ∀ h < k, (R (k + 1)).getD h default = (R k).getD h default := fun h hh => by
    rw [recalculatedChain_getD_of_lt startHeight (by omega : h < k + 1),
      recalculatedChain_getD_of_lt startHeight hh]
  -- the window slides to height `k + 1`
  have hds : st.difficulties = (difficultyWindowHeights k).map fun h =>
      ((R (k + 1)).getD h default).cumulativeDifficulty := by
    rw [hinv.difficulties]
    apply List.map_congr_left
    intro h hh
    rw [difficultyWindowHeights, List.mem_range'_1] at hh
    rw [hbelow h (by omega)]
  have hck : c = ((R (k + 1)).getD k default).cumulativeDifficulty := by
    rw [hrecord]
  rw [hinv.timestamps, hds, hck] at hp
  have hslide := pushWindow_trim hk _ _ rfl hp hw
  subst hslide
  refine ⟨?_, ?_, ?_, ?_⟩
  · dsimp only
  · dsimp only
  · rw [recalculatedChain_getLastD, hrecord]
  -- the drift: found here, found before, or still none
  rw [detectDrift_eq_ok hk hd]
  dsimp only
  rcases hinv.drift with ⟨h0, hnew, hagree⟩ | ⟨hpos, hlt, hagree, hnew⟩
  · rw [if_pos h0]
    by_cases hcd : c = (bc.db.getD k default).cumulativeDifficulty
    · -- no drift at `k` either
      rw [if_neg (not_not.2 hcd), h0]
      refine Or.inl ⟨rfl, by simp [hnew], fun h hsh hhk => ?_⟩
      rcases Nat.lt_or_ge h k with hhk' | hhk'
      · rw [hbelow h hhk', hagree h hsh hhk']
      · obtain rfl : h = k := by omega
        rw [hrecord, hcd]
    · -- the first drift is at `k`, which is not the genesis block
      have hkpos : 0 < k := by
        rcases Nat.eq_zero_or_pos k with rfl | hpos
        · have hzero : c = 1 := by
            rw [(recalculatedCumDiff_eq_ok hc).1, hwindow, hinv.lastCumDiff, windowDifficulty_zero]
            rfl
          exact absurd (hzero.trans (hgen (by omega)).symm) hcd
        · exact hpos
      rw [if_pos hcd]
      refine Or.inr ⟨hkpos, by omega, fun h hsh hhk => ?_, ?_⟩
      · rw [hbelow h hhk, hagree h hsh hhk]
      · rw [if_pos hkpos, hnew, List.nil_append, Nat.add_sub_cancel_left, List.range'_one,
          List.map_singleton, hck]
  · rw [if_neg (Nat.pos_iff_ne_zero.1 hpos), if_pos hpos]
    refine Or.inr ⟨hpos, by omega, fun h hsh hhd => ?_, ?_⟩
    · rw [hbelow h (by omega), hagree h hsh hhd]
    · -- one more recalculated value collected
      have hcount : k + 1 - st.driftStartHeight = (k - st.driftStartHeight) + 1 := by omega
      rw [hnew, hcount, List.range'_concat, List.map_append, List.map_singleton, Nat.one_mul,
        Nat.add_sub_of_le hlt.le, ← hck]
      congr 1
      apply List.map_congr_left
      intro h hh
      rw [List.mem_range'_1] at hh
      rw [hbelow h (by omega)]

/-! ## Seeding and write-back -/

/-- The seeding loop from its iteration `i`, which reads height `startHeight - 1 - i`:
it puts the heights from `max 1 (startHeight - i - n)` up to that one in front of what it
holds. -/
theorem seedWindow_eq {startHeight : ℕ} (hs : startHeight ≤ bc.height) :
    ∀ n i (ts : List UInt64) (ds : List DifficultyType), i < startHeight →
      bc.seedWindow startHeight n i (ts, ds) =
        .ok ((List.range' (max 1 (startHeight - i - n))
              (startHeight - i - max 1 (startHeight - i - n))).map
              (fun h => (bc.db.getD h default).timestamp) ++ ts,
          (List.range' (max 1 (startHeight - i - n))
              (startHeight - i - max 1 (startHeight - i - n))).map
              (fun h => (bc.db.getD h default).cumulativeDifficulty) ++ ds)
  | 0, i, ts, ds, hi => by
    rw [show startHeight - i - max 1 (startHeight - i - 0) = 0 by omega, List.range'_zero]
    rfl
  | n + 1, i, ts, ds, hi => by
    unfold seedWindow
    dsimp only
    split
    · next hzero =>
      -- the genesis block stops the loop
      rw [show startHeight - i - max 1 (startHeight - i - (n + 1)) = 0 by omega, List.range'_zero]
      rfl
    · next hpos =>
      rw [bc.getBlockTimestamp_of_lt (by omega), bc.getBlockCumulativeDifficulty_of_lt (by omega),
        ExceptLoop.ok_bind, ExceptLoop.ok_bind, seedWindow_eq hs n (i + 1) _ _ (by omega)]
      -- the height read is the last of the run the recursion prepends to
      have hlo : max 1 (startHeight - (i + 1) - n) = max 1 (startHeight - i - (n + 1)) := by
        omega
      have hrun : List.range' (max 1 (startHeight - i - (n + 1)))
          (startHeight - i - max 1 (startHeight - i - (n + 1))) =
          List.range' (max 1 (startHeight - i - (n + 1)))
            (startHeight - (i + 1) - max 1 (startHeight - i - (n + 1))) ++ [startHeight - 1 - i] := by
        rw [show startHeight - i - max 1 (startHeight - i - (n + 1)) =
          startHeight - (i + 1) - max 1 (startHeight - i - (n + 1)) + 1 by omega,
          List.range'_concat, Nat.one_mul]
        congr 2
        omega
      rw [hlo, hrun]
      simp

/-- The seeded loop state satisfies the invariant at the start height. -/
theorem recalculateInit_recalcInv {startHeight : ℕ} (hs : startHeight ≤ bc.height)
    (hgen : startHeight ≤ 1 → (bc.db.getD 0 default).cumulativeDifficulty = 1)
    {st : RecalcState} (h : bc.recalculateInit startHeight = .ok st) :
    bc.RecalcInv startHeight startHeight st := by
  unfold recalculateInit at h
  dsimp only at h
  -- below the start height the recalculated chain is the stored one
  have hstored : ∀ k < startHeight,
      (bc.recalculatedChain startHeight startHeight).getD k default = bc.db.getD k default :=
    fun k hk => recalculatedChain_getD_of_lt_start hk hk
  have hwindow : ((difficultyWindowHeights startHeight).map fun k =>
      ((bc.recalculatedChain startHeight startHeight).getD k default).cumulativeDifficulty) =
      (difficultyWindowHeights startHeight).map fun k => (bc.db.getD k default).cumulativeDifficulty := by
    apply List.map_congr_left
    intro k hk
    rw [difficultyWindowHeights, List.mem_range'_1] at hk
    rw [hstored k (by omega)]
  split at h
  · next hgt =>
    -- the seeding loop reads the window of the start height
    rw [seedWindow_eq hs _ 0 [] [] (by omega), ExceptLoop.ok_bind, ExceptLoop.pure_eq_ok,
      Except.ok.injEq] at h
    simp only [Nat.sub_zero] at h
    subst h
    have hlast : ((bc.recalculatedChain startHeight startHeight).getLastD default) =
        bc.db.getD (startHeight - 1) default := by
      obtain ⟨m, rfl⟩ : ∃ m, startHeight = m + 1 := ⟨startHeight - 1, by omega⟩
      rw [recalculatedChain_getLastD, Nat.add_sub_cancel, hstored m (by omega)]
    refine ⟨?_, ?_, ?_, Or.inl ⟨rfl, rfl, fun k hk hk' => absurd hk' (by omega)⟩⟩
    · simp [difficultyWindowHeights]
    · rw [hwindow]
      simp [difficultyWindowHeights]
    · -- the last seeded value is the stored one at `startHeight - 1`
      have hN : difficultyBlocksCount = 375 := rfl
      have hcount : startHeight - max 1 (startHeight - difficultyBlocksCount) =
          (startHeight - 1 - max 1 (startHeight - difficultyBlocksCount)) + 1 := by
        omega
      have hend : max 1 (startHeight - difficultyBlocksCount) +
          1 * (startHeight - 1 - max 1 (startHeight - difficultyBlocksCount)) = startHeight - 1 := by
        omega
      simp only [if_neg (by omega : ¬startHeight ≤ 1)]
      rw [hcount, List.range'_concat, List.map_append, List.map_singleton, List.append_nil,
        List.getLastD_concat, hlast, hend]
  · next hle =>
    rw [ExceptLoop.pure_eq_ok, ExceptLoop.ok_bind, ExceptLoop.pure_eq_ok, Except.ok.injEq] at h
    subst h
    have hempty := difficultyWindowHeights_of_le_one (Nat.le_of_not_lt hle)
    refine ⟨by simp [hempty], by simp [hempty], ?_, Or.inl ⟨rfl, rfl, fun k hk hk' => absurd hk' (by omega)⟩⟩
    -- `last_cum_diff = start_height`, the genesis block's cumulative difficulty when it is 1
    simp only [if_pos (Nat.le_of_not_lt hle)]
    rcases Nat.lt_or_ge startHeight 1 with h0 | h1
    · obtain rfl : startHeight = 0 := by omega
      rfl
    · obtain rfl : startHeight = 1 := by omega
      rw [recalculatedChain_getLastD, hstored 0 (by omega), hgen le_rfl]
      rfl

/-- The main loop keeps the invariant up to every height it reaches. -/
theorem foldlM_recalculateStep {startHeight n : ℕ}
    (hgen : startHeight ≤ 1 → (bc.db.getD 0 default).cumulativeDifficulty = 1)
    (hn : startHeight + n ≤ bc.height) {st₀ st : RecalcState}
    (h₀ : bc.RecalcInv startHeight startHeight st₀)
    (h : (List.range' startHeight n).foldlM bc.recalculateStep st₀ = .ok st) :
    bc.RecalcInv startHeight (startHeight + n) st :=
  ExceptLoop.foldlM_range'_invariant n startHeight
    (fun _ _ _ hk hkn hinv hstep => recalcInv_step hgen hk (by omega) hinv hstep) st₀ st h₀ h

/-- Without drift the recalculated chain is the stored one. -/
theorem RecalcInv.recalculatedChain_eq_db {startHeight : ℕ} {st : RecalcState}
    (hinv : bc.RecalcInv startHeight bc.height st) (h0 : st.driftStartHeight = 0) :
    bc.recalculatedChain startHeight bc.height = bc.db := by
  have hagree : ∀ h, startHeight ≤ h → h < bc.height →
      (bc.recalculatedChain startHeight bc.height).getD h default = bc.db.getD h default := by
    rcases hinv.drift with ⟨-, -, hagree⟩ | ⟨hpos, -⟩
    · exact hagree
    · omega
  apply List.ext_getElem
  · rw [recalculatedChain_length]
    rfl
  · intro h h₁ h₂
    have hh : h < bc.height := h₂
    rw [← List.getD_eq_getElem _ default h₁, ← List.getD_eq_getElem _ default h₂]
    rcases Nat.lt_or_ge h startHeight with hs | hs
    · exact recalculatedChain_getD_of_lt_start hh hs
    · exact hagree h hs hh

/-- The write-back from the first drift leaves the recalculated chain in the database. -/
theorem RecalcInv.correctBlockCumulativeDifficulties_eq {startHeight : ℕ} {st : RecalcState}
    (hinv : bc.RecalcInv startHeight bc.height st) (hpos : 0 < st.driftStartHeight) :
    bc.correctBlockCumulativeDifficulties st.driftStartHeight st.newCumulativeDifficulties =
      .ok { bc with db := bc.recalculatedChain startHeight bc.height } := by
  obtain ⟨-, hlt, hagree, hnew⟩ : 0 < st.driftStartHeight ∧ st.driftStartHeight < bc.height ∧
      (∀ h, startHeight ≤ h → h < st.driftStartHeight →
        (bc.recalculatedChain startHeight bc.height).getD h default = bc.db.getD h default) ∧
      st.newCumulativeDifficulties =
        (List.range' st.driftStartHeight (bc.height - st.driftStartHeight)).map fun h =>
          ((bc.recalculatedChain startHeight bc.height).getD h default).cumulativeDifficulty := by
    rcases hinv.drift with ⟨h0, -⟩ | hdrift
    · omega
    · exact hdrift
  have hsize : st.driftStartHeight + st.newCumulativeDifficulties.length = bc.height := by
    rw [hnew, List.length_map, List.length_range']
    omega
  rw [correctBlockCumulativeDifficulties, if_neg (not_not.2 hsize)]
  congr 2
  apply List.ext_getElem
  · rw [List.length_mapIdx, recalculatedChain_length]
    rfl
  · intro h h₁ h₂
    rw [List.length_mapIdx] at h₁
    have hh : h < bc.height := h₁
    rw [List.getElem_mapIdx, ← List.getD_eq_getElem _ default h₂,
      ← List.getD_eq_getElem _ default h₁]
    split
    · -- from the drift on, the collected value
      next hd =>
      apply BlockInfo.ext
      · exact (recalculatedChain_timestamp startHeight hh).symm
      · have hi : h - st.driftStartHeight < st.newCumulativeDifficulties.length := by
          rw [hnew, List.length_map, List.length_range']
          omega
        rw [List.getD_eq_getElem _ _ hi]
        simp only [hnew, List.getElem_map, List.getElem_range', Nat.one_mul,
          Nat.add_sub_cancel' hd]
    · -- before it, the stored record, which the recalculated chain agrees with
      next hd =>
      rcases Nat.lt_or_ge h startHeight with hs | hs
      · exact (recalculatedChain_getD_of_lt_start hh hs).symm
      · exact (hagree h hs (by omega)).symm

/-- A run of `recalculate_difficulties` on a non-empty chain goes through the seeding and
the main loop over every height from `startHeight` to the top, and leaves the recalculated
chain in the database. -/
theorem recalculateDifficulties_run {startHeight n : ℕ} {bc' : Blockchain}
    (hfixed : bc.fixedDifficulty = 0) (hheight : bc.height < 2 ^ 64)
    (hs : startHeight < bc.height)
    (hgen : startHeight ≤ 1 → (bc.db.getD 0 default).cumulativeDifficulty = 1)
    (h : bc.recalculateDifficulties startHeight = .ok (n, bc')) :
    ∃ st₀ st, bc.recalculateInit startHeight = .ok st₀ ∧
      (List.range' startHeight (bc.height - startHeight)).foldlM bc.recalculateStep st₀ = .ok st ∧
      bc' = { bc with db := bc.recalculatedChain startHeight bc.height } := by
  -- `m_db->height() - 1` does not wrap on a non-empty chain
  have htop : (bc.height + (2 ^ 64 - 1)) % 2 ^ 64 + 1 - startHeight = bc.height - startHeight := by
    rw [show bc.height + (2 ^ 64 - 1) = (bc.height - 1) + 2 ^ 64 by omega, Nat.add_mod_right,
      Nat.mod_eq_of_lt (by omega)]
    omega
  rw [recalculateDifficulties, if_neg (not_not.2 hfixed)] at h
  dsimp only at h
  rw [htop] at h
  obtain ⟨st₀, h₀, h⟩ := ExceptLoop.bind_eq_ok.1 h
  obtain ⟨st, hloop, h⟩ := ExceptLoop.bind_eq_ok.1 h
  refine ⟨st₀, st, h₀, hloop, ?_⟩
  have hinv := foldlM_recalculateStep hgen (by omega) (recalculateInit_recalcInv hs.le hgen h₀) hloop
  rw [Nat.add_sub_of_le hs.le] at hinv
  split at h
  · next hpos =>
    rw [hinv.correctBlockCumulativeDifficulties_eq hpos, ExceptLoop.pure_eq_ok, Except.ok.injEq,
      Prod.mk.injEq] at h
    exact h.2.symm
  · next h0 =>
    rw [ExceptLoop.pure_eq_ok, Except.ok.injEq, Prod.mk.injEq] at h
    rw [← h.2, hinv.recalculatedChain_eq_db (by omega)]

/-- The recalculated chain's record at a height from `startHeight` on: the previous
cumulative difficulty plus what `get_difficulty_for_next_block` gives for the chain up to it. -/
theorem recalculatedChain_cumulativeDifficulty {startHeight h k : ℕ} (hsh : startHeight ≤ h)
    (h1 : 1 ≤ h) (hk : h < k) :
    ((bc.recalculatedChain startHeight k).getD h default).cumulativeDifficulty =
      ((bc.recalculatedChain startHeight k).getD (h - 1) default).cumulativeDifficulty +
        windowDifficulty (bc.recalculatedChain startHeight h) h difficultyTargetV2 := by
  have hlast : (bc.recalculatedChain startHeight h).getLastD default =
      (bc.recalculatedChain startHeight k).getD (h - 1) default := by
    obtain ⟨j, rfl⟩ : ∃ j, h = j + 1 := ⟨h - 1, by omega⟩
    rw [recalculatedChain_getLastD, Nat.add_sub_cancel,
      recalculatedChain_getD_of_lt startHeight (by omega : j < k)]
  rw [recalculatedChain_getD_of_lt startHeight hk, recalculatedChain_getD_self, if_neg (by omega),
    hlast, BitVec.add_comm]

/-- `recalculate_difficulties` agrees with `get_difficulty_for_next_block`. With a fixed
difficulty it recalculates nothing. Otherwise, when the main loop reaches a height `h`, its
window holds the timestamps and cumulative difficulties of the window of height `h` of the
chain it leaves, and the cumulative difficulty it leaves at `h` is the one below plus what
`get_difficulty_for_next_block` computes on that chain cut at `h`. -/
theorem recalculateDifficulties_window_eq {startHeight n h : ℕ} {bc' : Blockchain}
    (hheight : bc.height < 2 ^ 64)
    (hgen : startHeight ≤ 1 → (bc.db.getD 0 default).cumulativeDifficulty = 1)
    (hrun : bc.recalculateDifficulties startHeight = .ok (n, bc'))
    (hsh : startHeight ≤ h) (hh : h < bc.height) :
    (bc.fixedDifficulty ≠ 0 ∧ n = 0 ∧ bc' = bc) ∨
    (∃ st₀ st, bc.recalculateInit startHeight = .ok st₀ ∧
      (List.range' startHeight (h - startHeight)).foldlM bc.recalculateStep st₀ = .ok st ∧
      st.timestamps =
        (difficultyWindowHeights h).map (fun t => (bc'.db.getD t default).timestamp) ∧
      st.difficulties =
        (difficultyWindowHeights h).map (fun t => (bc'.db.getD t default).cumulativeDifficulty)) ∧
    (1 ≤ h → ∃ d, { bc' with db := bc'.db.take h }.getDifficultyForNextBlock = .ok d ∧
      (bc'.db.getD h default).cumulativeDifficulty =
        (bc'.db.getD (h - 1) default).cumulativeDifficulty + d) := by
  by_cases hfixed : bc.fixedDifficulty = 0
  swap
  · -- a fixed difficulty returns at once
    rw [recalculateDifficulties, if_pos hfixed, Except.ok.injEq, Prod.mk.injEq] at hrun
    exact .inl ⟨hfixed, hrun.1.symm, hrun.2.symm⟩
  right
  obtain ⟨st₀, st, h₀, hloop, rfl⟩ := recalculateDifficulties_run hfixed hheight (by omega) hgen hrun
  refine ⟨?_, fun h1 => ?_⟩
  · -- the loop up to `h` is a prefix of the whole loop
    have hsplit : List.range' startHeight (bc.height - startHeight) =
        List.range' startHeight (h - startHeight) ++ List.range' h (bc.height - h) := by
      have happend := List.range'_append_1 (s := startHeight) (m := h - startHeight)
        (n := bc.height - h)
      rw [Nat.add_sub_of_le hsh,
        show h - startHeight + (bc.height - h) = bc.height - startHeight by omega] at happend
      exact happend.symm
    rw [hsplit] at hloop
    obtain ⟨st, hhead, -⟩ := ExceptLoop.foldlM_append_eq_ok hloop
    have hinv := foldlM_recalculateStep hgen (by omega)
      (recalculateInit_recalcInv (by omega) hgen h₀) hhead
    rw [Nat.add_sub_of_le hsh] at hinv
    refine ⟨st₀, st, h₀, hhead, ?_, ?_⟩
    · rw [hinv.timestamps]
      apply List.map_congr_left
      intro t ht
      rw [difficultyWindowHeights, List.mem_range'_1] at ht
      rw [recalculatedChain_timestamp startHeight (by omega : t < bc.height)]
    · rw [hinv.difficulties]
      apply List.map_congr_left
      intro t ht
      rw [difficultyWindowHeights, List.mem_range'_1] at ht
      rw [recalculatedChain_getD_of_lt startHeight (by omega : t < bc.height),
        recalculatedChain_getD_of_lt startHeight (by omega : t < h)]
  · -- the chain cut at `h` is the recalculated chain of length `h`
    have hcut : (bc.recalculatedChain startHeight bc.height).take h =
        bc.recalculatedChain startHeight h :=
      recalculatedChain_take startHeight bc.height hh.le
    refine ⟨_, getDifficultyForNextBlock_eq _ hfixed, ?_⟩
    dsimp only [Blockchain.height] at hcut ⊢
    rw [hcut, recalculatedChain_length]
    exact recalculatedChain_cumulativeDifficulty hsh h1 hh

/-- The write-back changes the database only. -/
theorem correctBlockCumulativeDifficulties_frame {driftStartHeight : ℕ}
    {cds : List DifficultyType} {bc' : Blockchain}
    (h : bc.correctBlockCumulativeDifficulties driftStartHeight cds = .ok bc') :
    bc' = { bc with db := bc'.db } := by
  unfold correctBlockCumulativeDifficulties at h
  split at h
  · cases h
  · rw [Except.ok.injEq] at h
    subst h
    rfl

/-- `recalculate_difficulties` changes the database only. -/
theorem recalculateDifficulties_frame {startHeight n : ℕ} {bc' : Blockchain}
    (h : bc.recalculateDifficulties startHeight = .ok (n, bc')) :
    bc' = { bc with db := bc'.db } := by
  unfold recalculateDifficulties at h
  split at h
  · rw [Except.ok.injEq, Prod.mk.injEq] at h
    rw [← h.2]
  · dsimp only at h
    obtain ⟨st₀, -, h⟩ := ExceptLoop.bind_eq_ok.1 h
    obtain ⟨st, -, h⟩ := ExceptLoop.bind_eq_ok.1 h
    split at h
    · rw [ExceptLoop.pure_eq_ok, Except.ok.injEq, Prod.mk.injEq] at h
      rw [← h.2]
      split
      · next hc => exact correctBlockCumulativeDifficulties_frame hc
      · rfl
    · rw [ExceptLoop.pure_eq_ok, Except.ok.injEq, Prod.mk.injEq] at h
      rw [← h.2]

/-- A run is determined by the count and the database it returns. -/
theorem recalculateDifficulties_eq_ok_of_db {startHeight n : ℕ} {db' : List BlockInfo}
    (h : (bc.recalculateDifficulties startHeight).map (fun r => (r.1, r.2.db)) = .ok (n, db')) :
    bc.recalculateDifficulties startHeight = .ok (n, { bc with db := db' }) := by
  cases hr : bc.recalculateDifficulties startHeight with
  | error e =>
    rw [hr] at h
    cases h
  | ok r =>
    rw [hr] at h
    obtain ⟨n', bc'⟩ := r
    have hr' : (n', bc'.db) = (n, db') := Except.ok.inj h
    rw [Prod.mk.injEq] at hr'
    rw [recalculateDifficulties_frame hr, hr'.1, hr'.2]

/-- `threeBlockChain` with a drifted cumulative difficulty at its top. -/
def driftedChain : Blockchain :=
  { threeBlockChain with db := [⟨0, 1⟩, ⟨120, 2⟩, ⟨240, 7⟩] }

theorem recalculateDifficulties_window_eq_driftedChain :
    (driftedChain.fixedDifficulty ≠ 0 ∧ 1 = 0 ∧ threeBlockChain = driftedChain) ∨
    (∃ st₀ st, driftedChain.recalculateInit 1 = .ok st₀ ∧
      (List.range' 1 (2 - 1)).foldlM driftedChain.recalculateStep st₀ = .ok st ∧
      st.timestamps =
        (difficultyWindowHeights 2).map (fun t => (threeBlockChain.db.getD t default).timestamp) ∧
      st.difficulties = (difficultyWindowHeights 2).map
        (fun t => (threeBlockChain.db.getD t default).cumulativeDifficulty)) ∧
    (1 ≤ 2 → ∃ d, { threeBlockChain with db := threeBlockChain.db.take 2 }.getDifficultyForNextBlock =
        .ok d ∧
      (threeBlockChain.db.getD 2 default).cumulativeDifficulty =
        (threeBlockChain.db.getD (2 - 1) default).cumulativeDifficulty + d) :=
  recalculateDifficulties_window_eq (by decide) (by decide)
    (recalculateDifficulties_eq_ok_of_db (n := 1) (by decide)) (by decide) (by decide)

end Blockchain

end Wazn