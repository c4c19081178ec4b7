import Wazn.Model.Difficulty
import Wazn.Library.ExceptLoop
import Wazn.Library.ListWindow

/-!
# The difficulty window

The difficulty of the block at height `h` is `next_difficulty` over the blocks of the
heights `max(1, h - DIFFICULTY_BLOCKS_COUNT)` to `h - 1` (`difficultyWindowHeights`):
`windowDifficulty` states that over any chain. `get_difficulty_for_next_block` computes
it for the main chain at its height (`getDifficultyForNextBlock_eq`), and
`get_next_difficulty_for_alternative_chain` computes it for the chain made of the main
chain below the fork point and the alternative chain (`altChainDifficulty_eq`), in both
of its branches: the short alternative chain completed from the main chain, and the long
one read from its back.

Both targets are 120 seconds whatever the hard-fork version (`difficultyTarget_eq`), so
that the two functions choose the target from different versions does not matter.
-/

set_option autoImplicit false

namespace Wazn

/-- The heights whose blocks set the difficulty of the block at `height`: the last
`DIFFICULTY_BLOCKS_COUNT` below it, the genesis block excluded. -/
def difficultyWindowHeights (height : ℕ) : List ℕ :=
  List.range' (max 1 (height - difficultyBlocksCount))
    (height - max 1 (height - difficultyBlocksCount))

/-- The difficulty of the block at `height` of `chain`: `next_difficulty` over its window. -/
def windowDifficulty (chain : List BlockInfo) (height target : ℕ) : DifficultyType :=
  nextDifficulty ((difficultyWindowHeights height).map fun h => (chain.getD h default).timestamp)
    ((difficultyWindowHeights height).map fun h => (chain.getD h default).cumulativeDifficulty)
    target

/-- The version picks one of two targets, and both are 120 seconds. -/
theorem difficultyTarget_eq (version : UInt8) :
    (if version < 2 then difficultyTargetV1 else difficultyTargetV2) = difficultyTargetV2 := by
  split <;> rfl

/-- The record of an alternative block as the database would store it. -/
def BlockExtendedInfo.toBlockInfo (b : BlockExtendedInfo) : BlockInfo :=
  ⟨b.timestamp, b.cumulativeDifficulty⟩

@[simp] theorem BlockExtendedInfo.toBlockInfo_timestamp (b : BlockExtendedInfo) :
    b.toBlockInfo.timestamp = b.timestamp := rfl

@[simp] theorem BlockExtendedInfo.toBlockInfo_cumulativeDifficulty (b : BlockExtendedInfo) :
    b.toBlockInfo.cumulativeDifficulty = b.cumulativeDifficulty := rfl

namespace Blockchain

variable (bc : Blockchain)

theorem getDifficultyTarget_eq : bc.getDifficultyTarget = difficultyTargetV2 :=
  difficultyTarget_eq _

theorem idealDifficultyTarget_eq (height : ℕ) : bc.idealDifficultyTarget height = difficultyTargetV2 :=
  difficultyTarget_eq _

theorem getElem?_db_of_lt {h : ℕ} (hh : h < bc.height) : bc.db[h]? = some (bc.db.getD h default) := by
  rw [List.getD_eq_getElem _ _ hh, List.getElem?_eq_getElem hh]

/-- A read below the top returns the stored timestamp. -/
theorem getBlockTimestamp_of_lt {h : ℕ} (hh : h < bc.height) :
    bc.getBlockTimestamp h = .ok (bc.db.getD h default).timestamp := by
  simp only [getBlockTimestamp, bc.getElem?_db_of_lt hh]

/-- A read below the top returns the stored cumulative difficulty. -/
theorem getBlockCumulativeDifficulty_of_lt {h : ℕ} (hh : h < bc.height) :
    bc.getBlockCumulativeDifficulty h = .ok (bc.db.getD h default).cumulativeDifficulty := by
  simp only [getBlockCumulativeDifficulty, bc.getElem?_db_of_lt hh]

/-- A read below the top returns the stored record. -/
theorem readWindowEntry_of_lt {h : ℕ} (hh : h < bc.height) :
    bc.readWindowEntry h =
      .ok ((bc.db.getD h default).timestamp, (bc.db.getD h default).cumulativeDifficulty) := by
  simp only [readWindowEntry, bc.getBlockTimestamp_of_lt hh,
    bc.getBlockCumulativeDifficulty_of_lt hh, ExceptLoop.ok_bind, ExceptLoop.pure_eq_ok]

/-- Reading a range of heights below the top reads the stored records. -/
theorem mapM_readWindowEntry {a n : ℕ} (hn : ∀ h ∈ List.range' a n, h < bc.height) :
    (List.range' a n).mapM bc.readWindowEntry =
      .ok ((List.range' a n).map fun h =>
        ((bc.db.getD h default).timestamp, (bc.db.getD h default).cumulativeDifficulty)) := by
  apply ExceptLoop.mapM_eq_ok
  intro h hh
  exact bc.readWindowEntry_of_lt (hn h hh)

/-- `get_difficulty_for_next_block` without a fixed difficulty computes the difficulty
of the window below the chain's height. -/
theorem getDifficultyForNextBlock_eq (hfixed : bc.fixedDifficulty = 0) :
    bc.getDifficultyForNextBlock =
      .ok (windowDifficulty bc.db bc.height difficultyTargetV2) := by
  -- the offset is the window's first height
  have hoffset : (if bc.height - min bc.height difficultyBlocksCount = 0 then
        bc.height - min bc.height difficultyBlocksCount + 1
      else bc.height - min bc.height difficultyBlocksCount) =
      max 1 (bc.height - difficultyBlocksCount) := by
    split <;> omega
  simp only [getDifficultyForNextBlock, hfixed, ne_eq, not_true_eq_false, if_false, hoffset]
  have hreads : ∀ h ∈ List.range' (max 1 (bc.height - difficultyBlocksCount))
      (bc.height - max 1 (bc.height - difficultyBlocksCount)), h < bc.height := by
    intro h hh
    rw [List.mem_range'_1] at hh
    omega
  rw [bc.mapM_readWindowEntry hreads, getDifficultyTarget_eq]
  simp [windowDifficulty, difficultyWindowHeights, Function.comp_def]

/-- The chain formed by the main chain below `forkHeight` and the alternative chain. -/
def withAltChain (forkHeight : ℕ) (altChain : List BlockExtendedInfo) : Blockchain :=
  { bc with db := bc.db.take forkHeight ++ altChain.map BlockExtendedInfo.toBlockInfo }

theorem withAltChain_height {forkHeight : ℕ} (hf : forkHeight ≤ bc.height)
    (altChain : List BlockExtendedInfo) :
    (bc.withAltChain forkHeight altChain).height = forkHeight + altChain.length := by
  simp only [withAltChain, height, List.length_append, List.length_take, List.length_map]
  rw [height] at hf
  omega

/-- Below the fork point the combined chain is the main chain. -/
theorem withAltChain_getD_of_lt {forkHeight h : ℕ} (hf : forkHeight ≤ bc.height)
    (hh : h < forkHeight) (altChain : List BlockExtendedInfo) :
    (bc.withAltChain forkHeight altChain).db.getD h default = bc.db.getD h default := by
  have hlen : (bc.db.take forkHeight).length = forkHeight := by
    rw [List.length_take]
    rw [height] at hf
    omega
  rw [withAltChain, List.getD_append _ _ _ _ (by omega), List.getD_eq_getElem?_getD,
    List.getD_eq_getElem?_getD, List.getElem?_take_of_lt hh]

/-- The branch for an alternative chain shorter than `DIFFICULTY_BLOCKS_COUNT`: the
main-chain blocks from the window's first height up to the fork point, then the whole
alternative chain, are the combined chain's window. -/
theorem altChainDifficulty_short (hfixed : bc.fixedDifficulty = 0) {forkHeight : ℕ}
    (hf1 : 1 ≤ forkHeight) (hf : forkHeight ≤ bc.height) (altChain : List BlockExtendedInfo)
    (hfront : ∀ front ∈ altChain.head?, front.height = forkHeight) (bei : BlockExtendedInfo)
    (hbei : bei.height = forkHeight + altChain.length)
    (hshort : altChain.length < difficultyBlocksCount) :
    bc.getNextDifficultyForAlternativeChain altChain bei =
      .ok (windowDifficulty (bc.withAltChain forkHeight altChain).db
        (forkHeight + altChain.length) difficultyTargetV2) := by
  set lo := max 1 (forkHeight + altChain.length - difficultyBlocksCount) with hlo
  -- the main-chain part stops at the fork point, whether or not the alternative chain is empty
  have hstop : (altChain.head?.map BlockExtendedInfo.height).getD bei.height = forkHeight := by
    cases hhead : altChain.head? with
    | some front => exact hfront front hhead
    | none =>
      rw [List.head?_eq_none_iff] at hhead
      rw [Option.map_none, Option.getD_none, hbei, hhead, List.length_nil, Nat.add_zero]
  -- and starts at the combined chain's window's first height
  have hstart : (if forkHeight - min (difficultyBlocksCount - min difficultyBlocksCount altChain.length)
          forkHeight = 0 then
        forkHeight - min (difficultyBlocksCount - min difficultyBlocksCount altChain.length) forkHeight + 1
      else forkHeight - min (difficultyBlocksCount - min difficultyBlocksCount altChain.length) forkHeight) =
      lo := by
    split <;> omega
  have hreads : ∀ h ∈ List.range' lo (forkHeight - lo), h < bc.height := by
    intro h hh
    rw [List.mem_range'_1] at hh
    omega
  have hcheck : altChain.length + (List.range' lo (forkHeight - lo)).length ≤ difficultyBlocksCount := by
    rw [List.length_range']
    omega
  -- the combined window splits at the fork point
  have hsplit : difficultyWindowHeights (forkHeight + altChain.length) =
      List.range' lo (forkHeight - lo) ++ List.range' forkHeight altChain.length := by
    have hcount : forkHeight + altChain.length - lo = (forkHeight - lo) + altChain.length := by
      omega
    rw [difficultyWindowHeights, ← hlo, hcount, ← List.range'_append, Nat.one_mul,
      Nat.add_sub_of_le (by omega : lo ≤ forkHeight)]
  have hmain : ∀ {γ : Type} (g : BlockInfo → γ),
      (List.range' lo (forkHeight - lo)).map
          (fun h => g ((bc.withAltChain forkHeight altChain).db.getD h default)) =
        (List.range' lo (forkHeight - lo)).map (fun h => g (bc.db.getD h default)) := by
    intro γ g
    apply List.map_congr_left
    intro h hh
    rw [List.mem_range'_1] at hh
    rw [bc.withAltChain_getD_of_lt hf (by omega)]
  have halt : ∀ {γ : Type} (g : BlockInfo → γ),
      (List.range' forkHeight altChain.length).map
          (fun h => g ((bc.withAltChain forkHeight altChain).db.getD h default)) =
        (altChain.map BlockExtendedInfo.toBlockInfo).map g :=
    fun g => ListWindow.map_range'_getD_append _ _ _ g
      (by rw [List.length_take]; rw [height] at hf; omega) (by simp)
  simp only [getNextDifficultyForAlternativeChain, hfixed, ne_eq, not_true_eq_false, if_false,
    if_pos hshort, hstop, hstart, bc.mapM_readWindowEntry hreads, ExceptLoop.ok_bind,
    List.length_map, if_pos hcheck, ExceptLoop.pure_eq_ok, idealDifficultyTarget_eq]
  -- the two windows are the same lists
  simp only [windowDifficulty, hsplit, List.map_append, hmain, halt, List.map_map,
    Function.comp_def, BlockExtendedInfo.toBlockInfo_timestamp,
    BlockExtendedInfo.toBlockInfo_cumulativeDifficulty]

/-- The other branch's loop leaves the last `DIFFICULTY_BLOCKS_COUNT` blocks of a long
alternative chain in the vectors, in order. -/
theorem fillFromAltChain_eq (altChain : List BlockExtendedInfo)
    (hlong : difficultyBlocksCount ≤ altChain.length) :
    fillFromAltChain altChain =
      ((altChain.drop (altChain.length - difficultyBlocksCount)).map BlockExtendedInfo.timestamp,
        (altChain.drop (altChain.length - difficultyBlocksCount)).map
          BlockExtendedInfo.cumulativeDifficulty) := by
  set l := altChain.reverse.take difficultyBlocksCount with hl
  have hlen : l.length = difficultyBlocksCount := by
    rw [hl, List.length_take, List.length_reverse]
    omega
  have hrev : l.reverse = altChain.drop (altChain.length - difficultyBlocksCount) := by
    rw [hl, List.take_reverse, List.reverse_reverse]
  -- the loop writes both vectors independently
  rw [fillFromAltChain, ← hl, List.foldl_hom₂ l.zipIdx Prod.mk
    (fun acc p => acc.set (difficultyBlocksCount - 1 - p.2) p.1.timestamp)
    (fun acc p => acc.set (difficultyBlocksCount - 1 - p.2) p.1.cumulativeDifficulty) _ _ _
    fun _ _ _ => rfl]
  rw [ListWindow.foldl_set_back _ l 0 _ (List.length_replicate ..) (by omega),
    ListWindow.foldl_set_back _ l 0 _ (List.length_replicate ..) (by omega)]
  simp [hlen, hrev]

/-- The branch for an alternative chain of at least `DIFFICULTY_BLOCKS_COUNT` blocks: its
last `DIFFICULTY_BLOCKS_COUNT` blocks are the combined chain's window. -/
theorem altChainDifficulty_long (hfixed : bc.fixedDifficulty = 0) {forkHeight : ℕ}
    (hf1 : 1 ≤ forkHeight) (hf : forkHeight ≤ bc.height) (altChain : List BlockExtendedInfo) (bei : BlockExtendedInfo)
    (hlong : difficultyBlocksCount ≤ altChain.length) :
    bc.getNextDifficultyForAlternativeChain altChain bei =
      .ok (windowDifficulty (bc.withAltChain forkHeight altChain).db
        (forkHeight + altChain.length) difficultyTargetV2) := by
  set k := altChain.length - difficultyBlocksCount with hk
  -- the window lies inside the alternative chain, from its block `k` on
  have hwindow : difficultyWindowHeights (forkHeight + altChain.length) =
      List.range' (forkHeight + k) difficultyBlocksCount := by
    rw [difficultyWindowHeights,
      show max 1 (forkHeight + altChain.length - difficultyBlocksCount) = forkHeight + k by omega,
      show forkHeight + altChain.length - (forkHeight + k) = difficultyBlocksCount by omega]
  have hdb : (bc.withAltChain forkHeight altChain).db =
      (bc.db.take forkHeight ++ (altChain.take k).map BlockExtendedInfo.toBlockInfo) ++
        (altChain.drop k).map BlockExtendedInfo.toBlockInfo := by
    rw [List.append_assoc, ← List.map_append, List.take_append_drop]
    rfl
  have hread : ∀ {γ : Type} (g : BlockInfo → γ),
      (List.range' (forkHeight + k) difficultyBlocksCount).map
          (fun h => g ((bc.withAltChain forkHeight altChain).db.getD h default)) =
        ((altChain.drop k).map BlockExtendedInfo.toBlockInfo).map g := by
    intro γ g
    rw [hdb]
    apply ListWindow.map_range'_getD_append
    · simp only [List.length_append, List.length_take, List.length_map]
      rw [height] at hf
      omega
    · simp only [List.length_map, List.length_drop]
      omega
  simp only [getNextDifficultyForAlternativeChain, hfixed, ne_eq, not_true_eq_false, if_false,
    if_neg (Nat.not_lt.2 hlong), fillFromAltChain_eq altChain hlong, ExceptLoop.pure_eq_ok,
    idealDifficultyTarget_eq]
  -- the two windows are the same lists
  simp only [windowDifficulty, hwindow, hread, List.map_map, Function.comp_def,
    BlockExtendedInfo.toBlockInfo_timestamp, BlockExtendedInfo.toBlockInfo_cumulativeDifficulty]
  rw [hk]

/-- `get_next_difficulty_for_alternative_chain`, for a block extending an alternative
chain that forks off the main chain at a height `forkHeight ≥ 1`, answers what
`get_difficulty_for_next_block` answers on the chain made of the main chain below the fork
point and the alternative chain; without a fixed difficulty, that is `next_difficulty` over
that chain's window. -/
theorem getNextDifficultyForAlternativeChain_eq_main (bc : Blockchain) (forkHeight : ℕ)
    (hf1 : 1 ≤ forkHeight) (hf : forkHeight ≤ bc.height) (altChain : List BlockExtendedInfo)
    (halt : ∀ i (hi : i < altChain.length), altChain[i].height = forkHeight + i)
    (bei : BlockExtendedInfo) (hbei : bei.height = forkHeight + altChain.length) :
    bc.getNextDifficultyForAlternativeChain altChain bei =
        (bc.withAltChain forkHeight altChain).getDifficultyForNextBlock ∧
      (bc.fixedDifficulty = 0 →
        bc.getNextDifficultyForAlternativeChain altChain bei =
          .ok (windowDifficulty (bc.withAltChain forkHeight altChain).db
            (forkHeight + altChain.length) difficultyTargetV2)) := by
  -- only the front block's height is read
  have hfront : ∀ front ∈ altChain.head?, front.height = forkHeight := by
    cases altChain with
    | nil =>
      intro front hmem
      cases hmem
    | cons b rest =>
      intro front hmem
      simp only [List.head?_cons, Option.mem_def, Option.some.injEq] at hmem
      subst hmem
      have h0 := halt 0 (by simp)
      rwa [List.getElem_cons_zero, Nat.add_zero] at h0
  have hwindow : bc.fixedDifficulty = 0 →
      bc.getNextDifficultyForAlternativeChain altChain bei =
        .ok (windowDifficulty (bc.withAltChain forkHeight altChain).db
          (forkHeight + altChain.length) difficultyTargetV2) := by
    intro hfixed
    rcases Nat.lt_or_ge altChain.length difficultyBlocksCount with hshort | hlong
    · exact bc.altChainDifficulty_short hfixed hf1 hf altChain hfront bei hbei hshort
    · exact bc.altChainDifficulty_long hfixed hf1 hf altChain bei hlong
  refine ⟨?_, hwindow⟩
  by_cases hfixed : bc.fixedDifficulty = 0
  · rw [hwindow hfixed, getDifficultyForNextBlock_eq (bc.withAltChain forkHeight altChain) hfixed,
      withAltChain_height bc hf]
  · -- a fixed difficulty: both chains hold more than the genesis block
    have hpos : bc.height ≠ 0 := by omega
    have hpos' : (bc.withAltChain forkHeight altChain).height ≠ 0 := by
      rw [withAltChain_height bc hf]
      omega
    have hfixed' : (bc.withAltChain forkHeight altChain).fixedDifficulty ≠ 0 := hfixed
    rw [getNextDifficultyForAlternativeChain, getDifficultyForNextBlock, if_pos hfixed,
      if_pos hfixed', if_pos hpos, if_pos hpos']
    rfl

/-- A main chain of three blocks. -/
def threeBlockChain : Blockchain where
  db := [⟨0, 1⟩, ⟨120, 2⟩, ⟨240, 3⟩]
  fixedDifficulty := 0
  currentHardForkVersion := 1
  idealHardForkVersion := fun _ => 1

/-- An alternative chain of two blocks forking off `threeBlockChain` at height 2. -/
def twoBlockAltChain : List BlockExtendedInfo :=
  [⟨2, 250, 3⟩, ⟨3, 370, 4⟩]

theorem getNextDifficultyForAlternativeChain_eq_main_twoBlockAltChain :
    threeBlockChain.getNextDifficultyForAlternativeChain twoBlockAltChain ⟨4, 0, 0⟩ =
        (threeBlockChain.withAltChain 2 twoBlockAltChain).getDifficultyForNextBlock ∧
      (threeBlockChain.fixedDifficulty = 0 →
        threeBlockChain.getNextDifficultyForAlternativeChain twoBlockAltChain ⟨4, 0, 0⟩ =
          .ok (windowDifficulty (threeBlockChain.withAltChain 2 twoBlockAltChain).db
            (2 + twoBlockAltChain.length) difficultyTargetV2)) :=
  getNextDifficultyForAlternativeChain_eq_main threeBlockChain 2 (by decide) (by decide)
    twoBlockAltChain (by decide) ⟨4, 0, 0⟩ rfl

end Blockchain

end Wazn
