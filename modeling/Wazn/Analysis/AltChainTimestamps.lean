import Mathlib.Data.List.Induction
import Wazn.Library.ExceptLoop
import Wazn.Model.BlockTimestamp

/-!
# The timestamps of an alternative chain

`ForksAt` says what an alternative chain of the table is: blocks stored under their ids,
each the parent of the next, the front one at the split height `s` on top of the main-chain
block `s - 1`. For such a chain, `build_alt_chain` finds the whole chain
(`walkAltChain_eq`: the walk does not run out, since the ids are distinct,
`ForksAt.nodup`) and gathers its timestamps, newest first, then the timestamps of the
main-chain heights `s - 1` down to `s - m`, where `m` tops the vector up to
`BLOCKCHAIN_TIMESTAMP_CHECK_WINDOW` values but never reaches height 0
(`buildAltChain_eq`).

When the alternative chain has at most 60 blocks and the new block's height is above 60,
these are the 60 timestamps that `check_block_timestamp` reads on the chain made of the
main chain below `s` and the alternative chain, in reverse order; the medians agree, and so
do the verdicts (`checkAltBlockTimestamp_agrees`). Outside that range they do not: below it
the main chain checks nothing while the alternative path checks against the chain without
its genesis block; at height exactly 60 both check, but the alternative path has 59
timestamps, since `complete_timestamps_vector` stops above height 0; and above 60
alternative blocks the alternative path takes the median of all of them
(`checkAltBlockTimestamp_disagrees`).
-/

set_option autoImplicit false

namespace Wazn

namespace Blockchain

namespace TimestampDB

variable {κ : Type} (db : TimestampDB κ)

/-- The timestamps of the main chain, by height. -/
def timestamps : List UInt64 := db.blocks.map MainBlock.timestamp

@[simp] theorem length_timestamps : db.timestamps.length = db.height := by
  simp [timestamps, height]

/-- A read below the top returns the stored timestamp. -/
theorem getBlockTimestamp_of_lt {h : ℕ} (hh : h < db.height) :
    db.getBlockTimestamp h = .ok (db.timestamps.getD h 0) := by
  have hh' : h < db.blocks.length := hh
  simp only [getBlockTimestamp, List.getElem?_eq_getElem hh', timestamps,
    List.getD_eq_getElem?_getD, List.getElem?_map, Option.map_some, Option.getD_some]

/-- The countdown from `stopOffset + n` pushes the timestamps of the `n` heights above
`stopOffset`, highest first. -/
theorem completeTimestampsLoop_eq (stopOffset : ℕ) :
    ∀ (n : ℕ) (ts : List UInt64), stopOffset + n < db.height →
      db.completeTimestampsLoop stopOffset (stopOffset + n) ts =
        .ok (ts ++ ((List.range' (stopOffset + 1) n).map (db.timestamps.getD · 0)).reverse)
  | 0, ts, _ => by
    cases stopOffset with
    | zero => simp [completeTimestampsLoop]
    | succ k => simp [completeTimestampsLoop]
  | n + 1, ts, hn => by
    -- one iteration reads the height `stopOffset + n + 1`, then the loop goes on below it
    have hlt : stopOffset + n + 1 < db.height := by omega
    have hread := db.getBlockTimestamp_of_lt hlt
    have hrest := completeTimestampsLoop_eq stopOffset n
      (ts ++ [db.timestamps.getD (stopOffset + n + 1) 0]) (by omega)
    rw [← Nat.add_assoc, completeTimestampsLoop, if_neg (by omega), hread, ExceptLoop.ok_bind,
      hrest, List.range'_concat, List.map_append, List.reverse_append, List.append_assoc]
    simp [Nat.add_right_comm]

/-- `complete_timestamps_vector` from a height below the top: a vector short of 60 values
gets the timestamps of the `m` heights from `startTopHeight` down, where `m` is what it is
short of, or `startTopHeight` if that is less. -/
theorem completeTimestampsVector_eq {startTopHeight : ℕ} (hstart : startTopHeight < db.height)
    (ts : List UInt64) :
    db.completeTimestampsVector startTopHeight ts =
      .ok (true, ts ++ if ts.length < blockchainTimestampCheckWindow then
        ((List.range' (startTopHeight + 1 - min (blockchainTimestampCheckWindow - ts.length)
          startTopHeight) (min (blockchainTimestampCheckWindow - ts.length)
            startTopHeight)).map (db.timestamps.getD · 0)).reverse
        else []) := by
  unfold completeTimestampsVector
  by_cases hfull : blockchainTimestampCheckWindow ≤ ts.length
  · rw [if_pos hfull, if_neg (by omega), List.append_nil]
    rfl
  · rw [if_neg hfull, if_neg (not_not.mpr hstart),
      if_pos (show ts.length < blockchainTimestampCheckWindow by omega)]
    -- the loop runs from `stopOffset + m` down to `stopOffset`
    have hstop : (if blockchainTimestampCheckWindow - ts.length < startTopHeight then
        startTopHeight - (blockchainTimestampCheckWindow - ts.length) else 0) +
          min (blockchainTimestampCheckWindow - ts.length) startTopHeight = startTopHeight := by
      split <;> omega
    have hloop := db.completeTimestampsLoop_eq
      (if blockchainTimestampCheckWindow - ts.length < startTopHeight then
        startTopHeight - (blockchainTimestampCheckWindow - ts.length) else 0)
      (min (blockchainTimestampCheckWindow - ts.length) startTopHeight) ts (by omega)
    have hfirst : (if blockchainTimestampCheckWindow - ts.length < startTopHeight then
        startTopHeight - (blockchainTimestampCheckWindow - ts.length) else 0) + 1 =
          startTopHeight + 1 - min (blockchainTimestampCheckWindow - ts.length) startTopHeight := by
      omega
    rw [hstop, hfirst] at hloop
    simp only [hloop, ExceptLoop.ok_bind]
    rfl

/-! ## Alternative chains of the table -/

variable [DecidableEq κ]

/-- `A` (ids and blocks, front first) is an alternative chain of the table that forks from
the main chain at height `s` and ends at `tip`: `root`, the id of the main-chain block at
height `s - 1`, is not in the table; every block of `A` is stored under its id and has the
id before it as parent, the front's parent being `root`; the front is at height `s`; and
`tip` is the last id, or `root` when `A` is empty. -/
structure ForksAt (s : ℕ) (root : κ) (A : List (κ × AltBlock κ)) (tip : κ) : Prop where
  pos : 0 < s
  lt_height : s < db.height
  root_eq : db.blocks[s - 1]?.map MainBlock.hash = some root
  root_fresh : db.getAltBlock root = none
  stored : ∀ p ∈ A, db.getAltBlock p.1 = some p.2
  parents : A.map (·.2.prevId) = (root :: A.map Prod.fst).dropLast
  tip_eq : tip = (root :: A.map Prod.fst).getLast (List.cons_ne_nil _ _)
  front_height : ∀ p ∈ A.head?, p.2.height = s

variable {db} {s : ℕ} {root tip : κ} {A : List (κ × AltBlock κ)}

/-- The parent of the block at position `i` is the id at position `i` of `root :: ids`. -/
theorem ForksAt.getElem?_parent (h : db.ForksAt s root A tip) {i : ℕ} (hi : i < A.length) :
    A[i]?.map (·.2.prevId) = (root :: A.map Prod.fst)[i]? := by
  have hpar := congrArg (·[i]?) h.parents
  simp only [List.getElem?_map, List.getElem?_dropLast, List.length_cons, List.length_map,
    Nat.add_sub_cancel, if_pos hi] at hpar
  exact hpar

/-- Two positions with the same id hold the same block. -/
theorem ForksAt.getElem?_eq_of_id (h : db.ForksAt s root A tip) {i j : ℕ} (hi : i < A.length)
    (hj : j < A.length) (hid : (A.map Prod.fst)[i]? = (A.map Prod.fst)[j]?) : A[i]? = A[j]? := by
  rw [List.getElem?_map, List.getElem?_map, List.getElem?_eq_getElem hi,
    List.getElem?_eq_getElem hj, Option.map_some, Option.map_some, Option.some_inj] at hid
  have hsi := h.stored A[i] (List.getElem_mem hi)
  have hsj := h.stored A[j] (List.getElem_mem hj)
  rw [hid, hsj, Option.some_inj] at hsi
  rw [List.getElem?_eq_getElem hi, List.getElem?_eq_getElem hj, Option.some_inj]
  exact Prod.ext hid hsi.symm

/-- The ids of an alternative chain are distinct: a repeated id repeats its block, so its
parent, and so on down to the front, whose parent `root` is not in the table. -/
theorem ForksAt.nodup (h : db.ForksAt s root A tip) : (A.map Prod.fst).Nodup := by
  rw [List.nodup_iff_getElem?_ne_getElem?]
  intro i
  induction i with
  | zero =>
    intro j hij hj hid
    simp only [List.length_map] at hj
    have hpar := congrArg (Option.map (·.2.prevId)) (h.getElem?_eq_of_id (by omega) hj hid)
    rw [h.getElem?_parent (by omega), h.getElem?_parent hj] at hpar
    -- `root` would be the id of the block at position `j - 1`, which is stored
    obtain ⟨j', rfl⟩ : ∃ j', j = j' + 1 := ⟨j - 1, by omega⟩
    simp only [List.getElem?_cons_zero, List.getElem?_cons_succ, List.getElem?_map,
      List.getElem?_eq_getElem (by omega : j' < A.length), Option.map_some,
      Option.some_inj] at hpar
    have hstored := h.stored A[j'] (List.getElem_mem _)
    rw [← hpar, h.root_fresh] at hstored
    cases hstored
  | succ i ih =>
    intro j hij hj hid
    simp only [List.length_map] at hj
    have hpar := congrArg (Option.map (·.2.prevId)) (h.getElem?_eq_of_id (by omega) hj hid)
    rw [h.getElem?_parent (by omega), h.getElem?_parent hj] at hpar
    obtain ⟨j', rfl⟩ : ∃ j', j = j' + 1 := ⟨j - 1, by omega⟩
    simp only [List.getElem?_cons_succ] at hpar
    exact ih j' (by omega) (by simp only [List.length_map]; omega) hpar

/-- An alternative chain has no more blocks than the table. -/
theorem ForksAt.length_le (h : db.ForksAt s root A tip) : A.length ≤ db.altBlocks.length := by
  have hsub : A.map Prod.fst ⊆ db.altBlocks.map Prod.fst := by
    intro id hid
    obtain ⟨p, hp, rfl⟩ := List.mem_map.mp hid
    obtain ⟨l₁, l₂, hsplit, -⟩ := List.lookup_eq_some_iff.mp (h.stored p hp)
    rw [hsplit]
    simp
  simpa using h.nodup.length_le_of_subset hsub

variable (db)

/-- Walking back from the last id of a chain stored in the table meets the chain's blocks,
last first, and stops at `root`, given enough fuel. -/
theorem walkAltChain_eq (hroot : db.getAltBlock root = none) :
    ∀ (A : List (κ × AltBlock κ)) (fuel : ℕ), A.length ≤ fuel →
      (∀ p ∈ A, db.getAltBlock p.1 = some p.2) →
      A.map (·.2.prevId) = (root :: A.map Prod.fst).dropLast →
      db.walkAltChain fuel ((root :: A.map Prod.fst).getLast (List.cons_ne_nil _ _)) =
        (A.map Prod.snd).reverse := by
  intro A
  induction A using List.reverseRecOn with
  | nil =>
    intro fuel _ _ _
    cases fuel with
    | zero => rfl
    | succ fuel => simp [walkAltChain, hroot]
  | append_singleton B p ih =>
    intro fuel hfuel hstored hparents
    obtain ⟨fuel, rfl⟩ : ∃ f, fuel = f + 1 := ⟨fuel - 1, by simp at hfuel; omega⟩
    -- the last block's parent is the id before it, and the blocks before it form a chain
    have hsplit : B.map (·.2.prevId) ++ [p.2.prevId] = root :: B.map Prod.fst := by
      rw [List.map_append, List.map_append, List.map_singleton, List.map_singleton,
        ← List.cons_append, List.dropLast_concat] at hparents
      exact hparents
    have hB : B.map (·.2.prevId) = (root :: B.map Prod.fst).dropLast := by
      rw [← hsplit, List.dropLast_concat]
    have hlast : p.2.prevId = (root :: B.map Prod.fst).getLast (List.cons_ne_nil _ _) := by
      have hl := congrArg List.getLast? hsplit
      rw [List.getLast?_concat, List.getLast?_eq_some_getLast (List.cons_ne_nil _ _)] at hl
      exact Option.some_inj.mp hl
    have htip : (root :: (B ++ [p]).map Prod.fst).getLast (List.cons_ne_nil _ _) = p.1 := by
      simp only [List.map_append, List.map_singleton, ← List.cons_append,
        List.getLast_append_singleton]
    have hp := hstored p (by simp)
    have hrest := ih fuel (by simp at hfuel; omega)
      (fun q hq => hstored q (List.mem_append_left _ hq)) hB
    rw [htip]
    simp only [walkAltChain, hp]
    rw [hlast, hrest]
    simp

variable {db}

/-- `build_alt_chain` walks the whole alternative chain. -/
theorem ForksAt.walkAltChain_eq (h : db.ForksAt s root A tip) :
    db.walkAltChain db.altBlocks.length tip = (A.map Prod.snd).reverse := by
  rw [h.tip_eq]
  exact db.walkAltChain_eq h.root_fresh A _ h.length_le h.stored h.parents

/-- On a main chain with distinct ids, `root` exists, is found at height `s - 1`, and is
the block id there. -/
theorem ForksAt.root_lookups (hmain : (db.blocks.map MainBlock.hash).Nodup)
    (h : db.ForksAt s root A tip) :
    db.blockExists root = true ∧ db.getBlockHeight root = .ok (s - 1) ∧
      db.getBlockHashFromHeight (s - 1) = .ok root := by
  have hlt : s - 1 < db.blocks.length := by
    have := h.lt_height
    rw [height] at this
    omega
  have hroot : db.blocks[s - 1].hash = root := by
    have := h.root_eq
    rwa [List.getElem?_eq_getElem hlt, Option.map_some, Option.some_inj] at this
  refine ⟨?_, ?_, ?_⟩
  · simp only [blockExists, List.any_eq_true, decide_eq_true_eq]
    exact ⟨_, List.getElem_mem hlt, hroot⟩
  · -- no lower block has the same id
    have hfind : db.blocks.findIdx? (fun b => decide (b.hash = root)) = some (s - 1) := by
      rw [List.findIdx?_eq_some_iff_getElem]
      refine ⟨hlt, by simpa using hroot, fun j hj hjroot => ?_⟩
      have hjlt : j < (db.blocks.map MainBlock.hash).length := by simp; omega
      have hslt : s - 1 < (db.blocks.map MainBlock.hash).length := by simpa using hlt
      have hsame : (db.blocks.map MainBlock.hash)[j] = (db.blocks.map MainBlock.hash)[s - 1] := by
        simpa [hroot] using hjroot
      have hinj := hmain.getElem_inj_iff.mp hsame
      omega
    simp only [getBlockHeight, hfind]
  · simp only [getBlockHashFromHeight, List.getElem?_eq_getElem hlt, hroot]

/-- The timestamps that `build_alt_chain` gathers for a block on top of an alternative
chain: the chain's, newest first, then, when it has fewer than 60 blocks, those of the
main-chain heights `s - 1` down to `s - m`, with `m` what the chain is short of 60, or
`s - 1` if that is less. -/
def altTimestamps (db : TimestampDB κ) (s : ℕ) (A : List (κ × AltBlock κ)) : List UInt64 :=
  (A.map (·.2.timestamp)).reverse ++
    if A.length < blockchainTimestampCheckWindow then
      ((List.range' (s - min (blockchainTimestampCheckWindow - A.length) (s - 1))
        (min (blockchainTimestampCheckWindow - A.length) (s - 1))).map
          (db.timestamps.getD · 0)).reverse
    else []

/-- **`build_alt_chain` on an alternative chain.** On a main chain with distinct ids, the
alternative chain `A` forking at `s` is found whole, and the timestamps gathered are
`altTimestamps`. -/
theorem buildAltChain_eq (hmain : (db.blocks.map MainBlock.hash).Nodup)
    (h : db.ForksAt s root A tip) :
    db.buildAltChain tip = .ok (some (A.map Prod.snd, db.altTimestamps s A)) := by
  obtain ⟨hexists, hheight, hhash⟩ := h.root_lookups hmain
  have hstart : s - 1 < db.height := by
    have := h.lt_height
    omega
  have hcomplete := db.completeTimestampsVector_eq hstart
    ((A.map Prod.snd).reverse.map AltBlock.timestamp)
  have hsub : s - 1 + 1 = s := by
    have := h.pos
    omega
  simp only [List.length_map, List.length_reverse, hsub] at hcomplete
  have hts : (A.map Prod.snd).reverse.map AltBlock.timestamp = (A.map (·.2.timestamp)).reverse := by
    simp [List.map_reverse]
  rw [hts] at hcomplete
  unfold buildAltChain
  simp only [h.walkAltChain_eq, List.reverse_reverse, hts]
  cases A with
  | nil =>
    have htip : tip = root := by simpa using h.tip_eq
    subst htip
    simp only [hexists, not_true_eq_false, if_false, hheight, ExceptLoop.ok_bind, hcomplete]
    rfl
  | cons front rest =>
    have hfront : front.2.height = s := h.front_height front rfl
    have hprev : front.2.prevId = root := by
      have := h.getElem?_parent (i := 0) (by simp)
      simpa using this
    simp only [List.map_cons] at hcomplete
    simp only [List.map_cons, hfront, hprev, h.lt_height, not_true_eq_false, if_false, hexists,
      if_neg (Nat.pos_iff_ne_zero.mp h.pos), hhash, ExceptLoop.ok_bind, ne_eq, hheight,
      hcomplete]
    rfl

/-! ## Against the main chain -/

variable (db)

/-- The chain made of the main chain below `s` and the alternative chain `A`, as the main
chain. -/
def withAltChain (s : ℕ) (A : List (κ × AltBlock κ)) : TimestampDB κ :=
  { db with blocks := db.blocks.take s ++ A.map fun p => ⟨p.1, p.2.timestamp⟩ }

omit [DecidableEq κ] in
theorem withAltChain_timestamps (s : ℕ) (A : List (κ × AltBlock κ)) :
    (db.withAltChain s A).timestamps = db.timestamps.take s ++ A.map (·.2.timestamp) := by
  simp [withAltChain, timestamps, List.map_take]

omit [DecidableEq κ] in
theorem withAltChain_height {s : ℕ} (hs : s ≤ db.height) (A : List (κ × AltBlock κ)) :
    (db.withAltChain s A).height = s + A.length := by
  simp only [withAltChain, height, List.length_append, List.length_take, List.length_map]
  rw [height] at hs
  omega

omit [DecidableEq κ] in
/-- On a chain of at least 60 blocks, `check_block_timestamp` checks against the median of
the last 60 timestamps. -/
theorem checkBlockTimestamp_of_le (hh : blockchainTimestampCheckWindow ≤ db.height)
    {now timestamp : UInt64} (hnow : ¬ now + cryptonoteBlockFutureTimeLimit < timestamp) :
    db.checkBlockTimestamp now timestamp =
      .ok ((checkBlockTimestampWithMedian ((List.range' (db.height - blockchainTimestampCheckWindow)
        blockchainTimestampCheckWindow).map (db.timestamps.getD · 0)) timestamp).1,
        some (checkBlockTimestampWithMedian ((List.range' (db.height - blockchainTimestampCheckWindow)
          blockchainTimestampCheckWindow).map (db.timestamps.getD · 0)) timestamp).2) := by
  have hcount : db.height - (db.height - blockchainTimestampCheckWindow) =
      blockchainTimestampCheckWindow := by omega
  have hreads : (List.range' (db.height - blockchainTimestampCheckWindow)
      blockchainTimestampCheckWindow).mapM db.getBlockTimestamp =
        .ok ((List.range' (db.height - blockchainTimestampCheckWindow)
          blockchainTimestampCheckWindow).map (db.timestamps.getD · 0)) := by
    apply ExceptLoop.mapM_eq_ok
    intro i hi
    rw [List.mem_range'_1] at hi
    exact db.getBlockTimestamp_of_lt (by omega)
  unfold checkBlockTimestamp
  rw [if_neg hnow, if_neg (by omega)]
  simp only [hcount, hreads, ExceptLoop.ok_bind]
  rfl

variable {db}

/-- When the alternative chain has at most 60 blocks and the new block's height is above
60, the timestamps `build_alt_chain` gathers are the last 60 of the chain made of the main
chain below `s` and the alternative chain, in reverse order. -/
theorem altTimestamps_eq_reverse (h : db.ForksAt s root A tip)
    (hshort : A.length ≤ blockchainTimestampCheckWindow)
    (hlong : blockchainTimestampCheckWindow < s + A.length) :
    db.altTimestamps s A = ((List.range' (s + A.length - blockchainTimestampCheckWindow)
      blockchainTimestampCheckWindow).map ((db.withAltChain s A).timestamps.getD · 0)).reverse := by
  have hs : s ≤ db.height := Nat.le_of_lt h.lt_height
  set m := blockchainTimestampCheckWindow - A.length with hm
  have hmin : min m (s - 1) = m := by omega
  -- the window is the main chain's last `m` heights below `s`, then the alternative chain
  have hwindow : List.range' (s + A.length - blockchainTimestampCheckWindow)
      blockchainTimestampCheckWindow = List.range' (s - m) m ++ List.range' s A.length := by
    rw [show s + A.length - blockchainTimestampCheckWindow = s - m by omega,
      show blockchainTimestampCheckWindow = m + A.length by omega, ← List.range'_append,
      Nat.one_mul, Nat.sub_add_cancel (by omega : m ≤ s)]
  have hlen : (db.timestamps.take s).length = s := by simp; omega
  have hA : (List.range' s A.length).map ((db.withAltChain s A).timestamps.getD · 0) =
      A.map (·.2.timestamp) := by
    have hread := ListWindow.map_range'_getD_append (db.timestamps.take s)
      (A.map (·.2.timestamp)) 0 id hlen (List.length_map _)
    rw [List.map_id] at hread
    rw [withAltChain_timestamps]
    exact hread
  have hbelow : (List.range' (s - m) m).map ((db.withAltChain s A).timestamps.getD · 0) =
      (List.range' (s - m) m).map (db.timestamps.getD · 0) := by
    rw [withAltChain_timestamps]
    apply List.map_congr_left
    intro i hi
    rw [List.mem_range'_1] at hi
    rw [List.getD_append _ _ _ _ (by omega), List.getD_eq_getElem?_getD,
      List.getD_eq_getElem?_getD, List.getElem?_take_of_lt (by omega)]
  rw [hwindow, List.map_append, hA, hbelow, List.reverse_append]
  unfold altTimestamps
  rw [hmin]
  congr 1
  by_cases hlt : A.length < blockchainTimestampCheckWindow
  · rw [if_pos hlt]
  · rw [if_neg hlt, show m = 0 by omega]
    rfl

/-- **Alternative and main-chain timestamp checks agree on long chains.** On a main chain
with distinct ids, for an alternative chain `A` of at most 60 blocks forking at `s`, with
the new block's height `s + A.length` above 60: `handle_alternative_block` checks the block
against the same median as `check_block_timestamp` on the chain made of the main chain
below `s` and `A`, and both give the same verdict, for a timestamp within the future
limit. -/
theorem checkAltBlockTimestamp_agrees (db : TimestampDB κ)
    (hmain : (db.blocks.map MainBlock.hash).Nodup) (s : ℕ) (root : κ)
    (A : List (κ × AltBlock κ)) (tip : κ) (h : db.ForksAt s root A tip)
    (hshort : A.length ≤ blockchainTimestampCheckWindow)
    (hlong : blockchainTimestampCheckWindow < s + A.length) (now timestamp : UInt64)
    (hnow : ¬ now + cryptonoteBlockFutureTimeLimit < timestamp) :
    ∃ verdict medianTs, db.checkAltBlockTimestamp tip timestamp = .ok (some (verdict, medianTs)) ∧
      (db.withAltChain s A).checkBlockTimestamp now timestamp =
        .ok (verdict, some medianTs) := by
  have hs : s ≤ db.height := Nat.le_of_lt h.lt_height
  have hheight := db.withAltChain_height hs A
  have hmain' := (db.withAltChain s A).checkBlockTimestamp_of_le (by omega) hnow
  -- the alternative path reads the main-chain window in reverse, which has the same median
  have hmedian : MiscUtils.median (db.altTimestamps s A) =
      MiscUtils.median ((List.range' (s + A.length - blockchainTimestampCheckWindow)
        blockchainTimestampCheckWindow).map ((db.withAltChain s A).timestamps.getD · 0)) := by
    rw [altTimestamps_eq_reverse h hshort hlong]
    exact MiscUtils.median_eq_of_perm (List.reverse_perm _)
  have hparent : ((db.getAltBlock tip).isSome || db.blockExists tip) = true := by
    cases A with
    | nil =>
      have htip : tip = root := by simpa using h.tip_eq
      rw [htip, (h.root_lookups hmain).1, Bool.or_true]
    | cons front rest =>
      have hlast := h.stored _ (List.getLast_mem (List.cons_ne_nil front rest))
      have htip : tip = ((front :: rest).getLast (List.cons_ne_nil _ _)).1 := by
        rw [h.tip_eq, List.getLast_cons (by simp)]
        exact List.getLast_map (f := Prod.fst) (l := front :: rest) (List.cons_ne_nil _ _)
      rw [htip, hlast, Option.isSome_some, Bool.true_or]
  refine ⟨(checkBlockTimestampWithMedian (db.altTimestamps s A) timestamp).1,
    (checkBlockTimestampWithMedian (db.altTimestamps s A) timestamp).2, ?_, ?_⟩
  · unfold checkAltBlockTimestamp
    rw [if_pos hparent, buildAltChain_eq hmain h, ExceptLoop.ok_bind]
    rfl
  · rw [hmain', hheight]
    simp only [checkBlockTimestampWithMedian, hmedian]

/-- The first 62 blocks of a chain with a block every two minutes, and one alternative
block at height 61. -/
theorem checkAltBlockTimestamp_agrees_steadyChain :
    ∃ verdict medianTs,
      (TimestampDB.mk ((List.range 62).map fun i => ⟨i, UInt64.ofNat (120 * i)⟩)
        [(100, ⟨61, 7320, 60⟩)]).checkAltBlockTimestamp 100 7400 =
          .ok (some (verdict, medianTs)) ∧
      ((TimestampDB.mk ((List.range 62).map fun i => ⟨i, UInt64.ofNat (120 * i)⟩)
        [(100, ⟨61, 7320, 60⟩)]).withAltChain 61 [(100, ⟨61, 7320, 60⟩)]).checkBlockTimestamp
          10000 7400 = .ok (verdict, some medianTs) :=
  checkAltBlockTimestamp_agrees _ (by decide) 61 60 [(100, ⟨61, 7320, 60⟩)] 100
    ⟨by decide, by decide, by decide, by decide, by decide, by decide, by decide, by decide⟩
    (by decide) (by decide) 10000 7400 (by decide)

/-- A main chain of 70 blocks, one every two minutes, with no alternative blocks. -/
def steadyMainChain : TimestampDB ℕ :=
  ⟨(List.range 70).map fun i => ⟨i, UInt64.ofNat (120 * i)⟩, []⟩

/-- Outside that range the two checks disagree. On a chain of three blocks with an
alternative block at height 2, the alternative path refuses a timestamp below the median
of the alternative block and main-chain block 1 (the genesis block is left out), while the
main chain would check nothing. With 61 alternative blocks forking after the genesis block,
the alternative path takes the median of all 61, and the main chain that of the last 60.
A block at height 60 on top of main-chain block 59 of `steadyMainChain` is checked against
the 59 timestamps of heights 59 down to 1, with median 3600, where the main chain cut at 60
takes all 60 from height 0, with median 3540: 3550 passes one check and fails the other. -/
theorem checkAltBlockTimestamp_disagrees :
    (∃ (db : TimestampDB ℕ) (s root : ℕ) (A : List (ℕ × AltBlock ℕ)) (tip : ℕ),
      (db.blocks.map MainBlock.hash).Nodup ∧ db.ForksAt s root A tip ∧
      A.length ≤ blockchainTimestampCheckWindow ∧
      db.checkAltBlockTimestamp tip 120 = .ok (some (false, 150)) ∧
      (db.withAltChain s A).checkBlockTimestamp 1000 120 = .ok (true, none)) ∧
    (∃ (db : TimestampDB ℕ) (s root : ℕ) (A : List (ℕ × AltBlock ℕ)) (tip : ℕ),
      (db.blocks.map MainBlock.hash).Nodup ∧ db.ForksAt s root A tip ∧
      blockchainTimestampCheckWindow < s + A.length ∧
      db.checkAltBlockTimestamp tip 600 = .ok (some (false, 1000)) ∧
      (db.withAltChain s A).checkBlockTimestamp 1000 600 = .ok (true, some 500)) ∧
    ((steadyMainChain.blocks.map MainBlock.hash).Nodup ∧ steadyMainChain.ForksAt 60 59 [] 59 ∧
      60 + ([] : List (ℕ × AltBlock ℕ)).length = blockchainTimestampCheckWindow ∧
      steadyMainChain.altTimestamps 60 [] =
        ((List.range' 1 59).map (steadyMainChain.timestamps.getD · 0)).reverse ∧
      steadyMainChain.checkAltBlockTimestamp 59 3550 = .ok (some (false, 3600)) ∧
      (steadyMainChain.withAltChain 60 []).checkBlockTimestamp 10000 3550 =
        .ok (true, some 3540)) := by
  refine ⟨⟨⟨[⟨0, 0⟩, ⟨1, 100⟩, ⟨2, 110⟩], [(10, ⟨2, 200, 1⟩)]⟩, 2, 1, [(10, ⟨2, 200, 1⟩)], 10,
    by decide, ⟨by decide, by decide, by decide, by decide, by decide, by decide, by decide,
      by decide⟩, by decide, by decide, by decide⟩, ?_⟩
  -- ids `1, ..., 61` at heights `1, ..., 61`: 31 timestamps of 1000, then 30 of 0
  refine ⟨⟨⟨[⟨0, 0⟩, ⟨1000, 0⟩], (List.range 61).map fun i =>
      (i + 1, ⟨i + 1, if i < 31 then 1000 else 0, i⟩)⟩, 1, 0,
    (List.range 61).map (fun i => (i + 1, ⟨i + 1, if i < 31 then 1000 else 0, i⟩)), 61,
    by decide, ⟨by decide, by decide, by decide, by decide, by decide, by decide, by decide,
      by decide⟩, by decide, by decide, by decide⟩, ?_⟩
  -- the alternative block's parent is main-chain block 59, and the alternative chain is empty
  exact ⟨by decide, ⟨by decide, by decide, by decide, by decide, by decide, by decide, by decide,
      by decide⟩, rfl, by decide, by decide, by decide⟩

end TimestampDB

end Blockchain

end Wazn
