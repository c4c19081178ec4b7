import Wazn.Model.ChainSync

/-!
# The short chain history finds the split point

`get_short_chain_history` lists heights from the top of the chain down: the ten below the top
one by one, then with steps that double, and the genesis last. The loop keeps its offset at
least twice its multiplier once the unit steps are over (`HistoryLoopInv`), so each step at most
doubles the offset. The list is strictly decreasing, starts at the top, holds the eleven
heights below the top and ends with the genesis.

A peer whose chain agrees with ours below height `p` and has none of our blocks above answers
with the largest listed height below `p` (`chainSync_findsSplit`). Since the step to the first
listed height below `p` at most doubles an offset that was still above it, that height is at
most `sz - p` below the split: the blocks re-sent are no more than those we have past it
(`shortChainHistoryLoop_split`).
-/

set_option autoImplicit false

namespace Wazn

namespace Cryptonote

/-! ## The loop -/

/-- The multiplier and the offset after the round `i`. -/
def nextBackOffset (i currentMultiplier currentBackOffset : ℕ) : ℕ × ℕ :=
  if i < 10 then (currentMultiplier, currentBackOffset + 1)
  else (currentMultiplier * 2, currentBackOffset + currentMultiplier * 2)

theorem shortChainHistoryLoop_zero (sz i currentMultiplier currentBackOffset : ℕ) :
    shortChainHistoryLoop sz 0 i currentMultiplier currentBackOffset = [] := rfl

theorem shortChainHistoryLoop_succ (sz fuel i currentMultiplier currentBackOffset : ℕ) :
    shortChainHistoryLoop sz (fuel + 1) i currentMultiplier currentBackOffset =
      if currentBackOffset < sz then
        (sz - currentBackOffset) :: shortChainHistoryLoop sz fuel (i + 1)
          (nextBackOffset i currentMultiplier currentBackOffset).1
          (nextBackOffset i currentMultiplier currentBackOffset).2
      else [] := by
  rw [shortChainHistoryLoop, nextBackOffset]
  by_cases hi : i < 10 <;> simp [hi]

/-- The variables of the loop: ten unit steps with the multiplier at one, then an offset at
least twice the multiplier. -/
structure HistoryLoopInv (i currentMultiplier currentBackOffset : ℕ) : Prop where
  unit : i ≤ 10 → currentMultiplier = 1 ∧ currentBackOffset = i + 1
  doubling : 10 ≤ i → 2 * currentMultiplier ≤ currentBackOffset
  multiplier_pos : 0 < currentMultiplier

theorem historyLoopInv_init : HistoryLoopInv 0 1 1 :=
  ⟨fun _ => ⟨rfl, rfl⟩, fun h => absurd h (by omega), Nat.one_pos⟩

/-- A round keeps the invariant, and moves the offset up, to at most twice what it was. -/
theorem HistoryLoopInv.next {i m o : ℕ} (h : HistoryLoopInv i m o) :
    HistoryLoopInv (i + 1) (nextBackOffset i m o).1 (nextBackOffset i m o).2 ∧
      o < (nextBackOffset i m o).2 ∧ (nextBackOffset i m o).2 ≤ 2 * o := by
  unfold nextBackOffset
  by_cases hi : i < 10
  · obtain ⟨rfl, rfl⟩ := h.unit (by omega)
    simp only [hi, if_true]
    refine ⟨⟨fun _ => ⟨rfl, by omega⟩, fun _ => by omega, Nat.one_pos⟩, by omega, by omega⟩
  · have hdouble := h.doubling (by omega)
    have hpos := h.multiplier_pos
    simp only [hi, if_false]
    refine ⟨⟨fun _ => by omega, fun _ => by omega, by omega⟩, by omega, by omega⟩

variable {sz : ℕ}

/-- Every height the loop pushes from the offset `o` on is a height of the chain, at least `o`
below its height. -/
theorem shortChainHistoryLoop_le :
    ∀ (fuel i m o : ℕ), HistoryLoopInv i m o →
      ∀ h ∈ shortChainHistoryLoop sz fuel i m o, 0 < h ∧ h ≤ sz - o := by
  intro fuel
  induction fuel with
  | zero =>
    intro i m o _ h hh
    simp [shortChainHistoryLoop_zero] at hh
  | succ fuel ih =>
    intro i m o hinv h hh
    rw [shortChainHistoryLoop_succ] at hh
    split_ifs at hh with ho
    · obtain ⟨hnext, hup, -⟩ := hinv.next
      rcases List.mem_cons.mp hh with rfl | hh
      · omega
      · have := ih _ _ _ hnext h hh
        omega
    · simp at hh

/-- The loop's heights decrease strictly. -/
theorem shortChainHistoryLoop_sorted :
    ∀ (fuel i m o : ℕ), HistoryLoopInv i m o →
      (shortChainHistoryLoop sz fuel i m o).Pairwise (· > ·) := by
  intro fuel
  induction fuel with
  | zero =>
    intro i m o _
    simp [shortChainHistoryLoop_zero]
  | succ fuel ih =>
    intro i m o hinv
    rw [shortChainHistoryLoop_succ]
    split_ifs with ho
    · obtain ⟨hnext, hup, -⟩ := hinv.next
      apply List.Pairwise.cons _ (ih _ _ _ hnext)
      intro h hh
      have := shortChainHistoryLoop_le fuel _ _ _ hnext h hh
      omega
    · exact List.Pairwise.nil

/-- While the offset leaves the loop enough rounds to reach the top, each height from the
offset down to eleven below the top is pushed. -/
theorem shortChainHistoryLoop_recent :
    ∀ (fuel i : ℕ), i ≤ 10 → sz < i + 1 + fuel →
      ∀ h, 0 < h → sz - 11 ≤ h → h ≤ sz - (i + 1) →
        h ∈ shortChainHistoryLoop sz fuel i 1 (i + 1) := by
  intro fuel
  induction fuel with
  | zero =>
    intro i _ hfuel h hpos _ hh
    omega
  | succ fuel ih =>
    intro i hi hfuel h hpos hlow hh
    rw [shortChainHistoryLoop_succ, if_pos (by omega)]
    by_cases htop : h = sz - (i + 1)
    · rw [htop]
      exact List.mem_cons_self
    · -- a lower height, still within the unit steps
      have hi' : i < 10 := by omega
      apply List.mem_cons_of_mem
      simp only [nextBackOffset, hi', if_true]
      exact ih (i + 1) (by omega) (by omega) h hpos hlow (by omega)

/-- The first height of the loop's list, with the genesis after it, below a split height
`p`: it is within `sz - p` of the split, as long as the offset so far is at most twice
`sz - p` and one, and the rounds left reach the top. -/
theorem shortChainHistoryLoop_split {p : ℕ} (hp : 0 < p) (hpsz : p ≤ sz) :
    ∀ (fuel i m o : ℕ), HistoryLoopInv i m o → o ≤ 2 * (sz - p) + 1 → sz < o + fuel →
      ∃ s, (shortChainHistoryLoop sz fuel i m o ++ [0]).find? (· < p) = some s ∧
        p - 1 - s ≤ sz - p := by
  intro fuel
  induction fuel with
  | zero =>
    intro i m o _ ho hfuel
    refine ⟨0, by simp [shortChainHistoryLoop_zero, hp], by omega⟩
  | succ fuel ih =>
    intro i m o hinv ho hfuel
    rw [shortChainHistoryLoop_succ]
    split_ifs with hsz
    · by_cases hbelow : sz - o < p
      · -- the first height below the split
        refine ⟨sz - o, by simp [hbelow], by omega⟩
      · -- still above the split: the next offset at most doubles
        obtain ⟨hnext, hup, hdouble⟩ := hinv.next
        obtain ⟨s, hs, hbound⟩ := ih _ _ _ hnext (by omega) (by omega)
        refine ⟨s, ?_, hbound⟩
        rw [List.cons_append, List.find?_cons_of_neg (by simpa using hbelow)]
        exact hs
    · refine ⟨0, by simp [hp], by omega⟩

/-! ## The list of heights -/

/-- The loop never pushes the genesis, so it is appended. -/
theorem shortChainHistoryHeights_eq (hsz : 0 < sz) :
    shortChainHistoryHeights sz = shortChainHistoryLoop sz sz 0 1 1 ++ [0] := by
  have hgenesis : 0 ∉ shortChainHistoryLoop sz sz 0 1 1 := fun h =>
    absurd (shortChainHistoryLoop_le sz 0 1 1 historyLoopInv_init 0 h).1 (Nat.lt_irrefl 0)
  rw [shortChainHistoryHeights, if_neg (by omega)]
  simp only [hgenesis, if_false]

theorem shortChainHistoryHeights_lt (hsz : 0 < sz) :
    ∀ h ∈ shortChainHistoryHeights sz, h < sz := by
  intro h hh
  rw [shortChainHistoryHeights_eq hsz, List.mem_append, List.mem_singleton] at hh
  rcases hh with hh | rfl
  · have := shortChainHistoryLoop_le sz 0 1 1 historyLoopInv_init h hh
    omega
  · exact hsz

theorem shortChainHistoryHeights_sorted (hsz : 0 < sz) :
    (shortChainHistoryHeights sz).Pairwise (· > ·) := by
  rw [shortChainHistoryHeights_eq hsz, List.pairwise_append]
  refine ⟨shortChainHistoryLoop_sorted sz 0 1 1 historyLoopInv_init,
    List.pairwise_singleton _ _, ?_⟩
  intro h hh z hz
  rw [List.mem_singleton.mp hz]
  exact (shortChainHistoryLoop_le sz 0 1 1 historyLoopInv_init h hh).1

theorem shortChainHistoryHeights_head (hsz : 0 < sz) :
    (shortChainHistoryHeights sz).head? = some (sz - 1) := by
  rw [shortChainHistoryHeights_eq hsz]
  obtain ⟨fuel, hfuel⟩ : ∃ fuel, sz = fuel + 1 := ⟨sz - 1, by omega⟩
  conv => lhs; rw [hfuel]
  rw [shortChainHistoryLoop_succ]
  by_cases hone : 1 < sz
  · rw [if_pos (by omega)]
    simp [hfuel]
  · rw [if_neg (by omega)]
    simp
    omega

theorem shortChainHistoryHeights_recent (hsz : 0 < sz) :
    ∀ h, max 1 (sz - 11) ≤ h → h < sz → h ∈ shortChainHistoryHeights sz := by
  intro h hlow hh
  rw [shortChainHistoryHeights_eq hsz]
  exact List.mem_append_left _
    (shortChainHistoryLoop_recent sz 0 (by omega) (by omega) h (by omega) (by omega) (by omega))

example : shortChainHistoryHeights 30 = [29, 28, 27, 26, 25, 24, 23, 22, 21, 20, 19, 17, 13, 5, 0] :=
  by decide

/-! ## The peer's answer -/

variable {κ : Type}

theorem getD_of_lt (blocks : List κ) (d : κ) {h : ℕ} (hh : h < blocks.length) :
    blocks.getD h d = blocks[h] := by
  rw [List.getD_eq_getElem?_getD, List.getElem?_eq_getElem hh, Option.getD_some]

/-- The history's hashes are those of the chain at its heights. -/
theorem getShortChainHistory_eq (blocks : List κ) (hsz : 0 < blocks.length) (d : κ) :
    getShortChainHistory blocks =
      (shortChainHistoryHeights blocks.length).map fun h => blocks.getD h d := by
  rw [getShortChainHistory, List.filterMap_eq_map_iff_forall_eq_some]
  intro h hh
  rw [getD_of_lt _ _ (shortChainHistoryHeights_lt hsz h hh),
    List.getElem?_eq_getElem (shortChainHistoryHeights_lt hsz h hh)]

variable [DecidableEq κ]

/-- On the peer's chain, a hash of ours is found at its height below the split, and not at all
above it. -/
theorem blockExists_getElem {L R : List κ} {p : ℕ} (hagree : L.take p = R.take p)
    (hfork : ∀ x ∈ L.drop p, x ∉ R) (hR : R.Nodup) {h : ℕ} (hh : h < L.length) :
    blockExists R L[h] = if h < p then some h else none := by
  unfold blockExists
  split_ifs with hp
  · have hR' : h < R.length := by
      have := congrArg List.length hagree
      simp only [List.length_take] at this
      omega
    have hsame : L[h] = R[h] := by
      have := congrArg (·[h]?) hagree
      simp only [List.getElem?_take, hp, if_true, List.getElem?_eq_getElem hh,
        List.getElem?_eq_getElem hR', Option.some.injEq] at this
      exact this
    rw [hsame, List.idxOf?_eq_some_iff]
    refine ⟨hR', rfl, fun j hj hjh => ?_⟩
    have := hR.getElem_inj_iff.mp hjh
    omega
  · rw [List.idxOf?_eq_none_iff]
    apply hfork
    rw [List.mem_drop_iff_getElem]
    exact ⟨h - p, by omega, by simp [Nat.add_sub_cancel' (by omega : p ≤ h)]⟩

/-- The peer's search over our hashes is the search for the first height below the split. -/
theorem findSome?_blockExists {L R : List κ} {p : ℕ} (hagree : L.take p = R.take p)
    (hfork : ∀ x ∈ L.drop p, x ∉ R) (hR : R.Nodup) (d : κ) :
    ∀ heights : List ℕ, (∀ h ∈ heights, h < L.length) →
      (heights.map fun h => L.getD h d).findSome? (blockExists R) =
        heights.find? (· < p) := by
  intro heights
  induction heights with
  | nil => simp
  | cons h heights ih =>
    intro hall
    have hh := hall h List.mem_cons_self
    rw [List.map_cons, List.findSome?_cons, List.find?_cons,
      getD_of_lt _ _ hh, blockExists_getElem hagree hfork hR hh,
      ih fun h' hh' => hall h' (List.mem_cons_of_mem _ hh')]
    by_cases hp : h < p <;> simp [hp]

/-- **The split point.** On a local chain of height `sz`, the short chain history lists
heights strictly decreasing from `sz - 1`, all of the eleven below the top, and the genesis
last. A peer whose chain agrees with it below `p`, and holds none of its blocks above,
answers with the largest listed height below `p`, no more than `sz - p` below the split. -/
theorem chainSync_findsSplit (L R : List κ) (p : ℕ) (hp : 1 ≤ p) (hpL : p ≤ L.length)
    (hagree : L.take p = R.take p) (hfork : ∀ x ∈ L.drop p, x ∉ R) (hR : R.Nodup) :
    let heights := shortChainHistoryHeights L.length
    heights.Pairwise (· > ·) ∧ heights.head? = some (L.length - 1) ∧
      (∀ h, max 1 (L.length - 11) ≤ h → h < L.length → h ∈ heights) ∧
      (getShortChainHistory L).getLast? = L[0]? ∧
      ∃ s, findBlockchainSupplement R (getShortChainHistory L) = some s ∧
        s ∈ heights ∧ s < p ∧ (∀ h ∈ heights, h < p → h ≤ s) ∧
        p - 1 - s ≤ L.length - p := by
  intro heights
  have hL : 0 < L.length := by omega
  have hsorted := shortChainHistoryHeights_sorted hL
  have hids := getShortChainHistory_eq L hL L[0]
  have hlast : (shortChainHistoryHeights L.length).getLast? = some 0 := by
    simp [shortChainHistoryHeights_eq hL]
  -- the peer's chain starts with our genesis
  have hgenesis : R[0]? = some L[0] := by
    have := congrArg (·[0]?) hagree
    simp only [List.getElem?_take, show 0 < p by omega, if_true] at this
    rw [← this, List.getElem?_eq_getElem hL]
  obtain ⟨s, hs, hbound⟩ := shortChainHistoryLoop_split (by omega) hpL L.length
    0 1 1 historyLoopInv_init (by omega) (by omega)
  rw [← shortChainHistoryHeights_eq hL] at hs
  obtain ⟨hsp, pre, post, hsplit, hpre⟩ := List.find?_eq_some_iff_append.mp hs
  refine ⟨hsorted, shortChainHistoryHeights_head hL, shortChainHistoryHeights_recent hL,
    by rw [hids, List.getLast?_map, hlast, Option.map_some, getD_of_lt _ _ hL,
      List.getElem?_eq_getElem hL], s, ?_,
    by simp [heights, hsplit], by simpa using hsp, fun h hh hhp => ?_, hbound⟩
  · rw [findBlockchainSupplement, hids, List.getLast?_map, hlast]
    simp only [Option.map_some, getD_of_lt _ _ hL, hgenesis, ne_eq, not_true_eq_false,
      if_false]
    rw [findSome?_blockExists hagree hfork hR _ _ (shortChainHistoryHeights_lt hL), hs]
  · -- the heights before `s` are not below `p`; those after it are below `s`
    change h ∈ shortChainHistoryHeights L.length at hh
    rw [hsplit] at hh hsorted
    rcases List.mem_append.mp hh with hh | hh
    · have := hpre h hh
      simp at this
      omega
    · rcases List.mem_cons.mp hh with rfl | hh
      · exact Nat.le_refl _
      · have := List.rel_of_pairwise_cons (List.pairwise_append.mp hsorted).2.1 hh
        omega

/-- Two chains of heights 5 and 6 that split at height 3. -/
theorem chainSync_findsSplit_fork :
    let L : List ℕ := [10, 11, 12, 13, 14]
    let R : List ℕ := [10, 11, 12, 20, 21, 22]
    let heights := shortChainHistoryHeights L.length
    (1 ≤ 3 ∧ 3 ≤ L.length ∧ L.take 3 = R.take 3 ∧ (∀ x ∈ L.drop 3, x ∉ R) ∧ R.Nodup) ∧
      heights.Pairwise (· > ·) ∧ heights.head? = some (L.length - 1) ∧
      (∀ h, max 1 (L.length - 11) ≤ h → h < L.length → h ∈ heights) ∧
      (getShortChainHistory L).getLast? = L[0]? ∧
      ∃ s, findBlockchainSupplement R (getShortChainHistory L) = some s ∧
        s ∈ heights ∧ s < 3 ∧ (∀ h ∈ heights, h < 3 → h ≤ s) ∧
        3 - 1 - s ≤ L.length - 3 :=
  ⟨⟨by decide, by decide, rfl, by decide, by decide⟩,
    chainSync_findsSplit _ _ 3 (by decide) (by decide) rfl (by decide) (by decide)⟩

end Cryptonote

end Wazn
