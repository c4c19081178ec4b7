import Mathlib
import Wazn.Analysis.RollingMedianHeap

/-!
# The rolling median is exact

`rolling_median_t` answers the median of the last `N` values inserted. `Inv s w` says what a
state holds for the window `w` of those values, oldest first: the circular queue `data` holds
`w` from `idx` on; the counts of the two heaps are `w.length / 2` and `(w.length - 1) / 2`;
`pos` and `heap` are inverse to each other, and the indexes not written yet sit where `clear`
put them; the active slots, from `-maxCt` to `minCt`, hold the values of `w`; and both heaps are
in order (`Layout` is all but the order).

`clear` gives the empty window (`inv_clear`). `insert` moves the window on by one value
(`inv_insert`): its first steps write the value and grow a heap (`pre`, `layout_pre`), and each
of its five branches then sifts (`inv_minSortDown`, `inv_minTail`, `inv_maxSortDown`,
`inv_maxTail`, `inv_rootFix`). With both heaps in order around the median, the median sits at
position `maxCt` of the sorted window and the top of the max heap just before it
(`median_eq`), which is what `epee::misc_utils::median` reads.
-/

set_option autoImplicit false

namespace Wazn

namespace MiscUtils

namespace RollingMedianT

open SiftHeap

variable {Item : Type}

/-! ## The pattern of `clear` -/

theorem fillPos_even {j : ℕ} (h : j % 2 = 0) : fillPos j = ((j / 2 : ℕ) : ℤ) := by
  rw [fillPos, if_neg (by omega), mul_one]
  congr 1
  omega

theorem fillPos_odd {j : ℕ} (h : j % 2 = 1) : fillPos j = -(((j + 1) / 2 : ℕ) : ℤ) := by
  rw [fillPos, if_pos h, mul_neg_one]

theorem fillPos_slot {N j : ℕ} (hj : j < N) : Slot N (fillPos j) := by
  rcases Nat.mod_two_eq_zero_or_one j with h | h
  · rw [fillPos_even h]
    constructor <;> omega
  · rw [fillPos_odd h]
    constructor <;> omega

theorem fillPos_injective : Function.Injective fillPos := by
  intro j k hjk
  rcases Nat.mod_two_eq_zero_or_one j with hj | hj
  · rcases Nat.mod_two_eq_zero_or_one k with hk | hk
    · rw [fillPos_even hj, fillPos_even hk] at hjk
      omega
    · rw [fillPos_even hj, fillPos_odd hk] at hjk
      omega
  · rcases Nat.mod_two_eq_zero_or_one k with hk | hk
    · rw [fillPos_odd hj, fillPos_even hk] at hjk
      omega
    · rw [fillPos_odd hj, fillPos_odd hk] at hjk
      omega

/-- The index `clear` puts at a slot. -/
def unfill (p : ℤ) : ℕ := if 0 ≤ p then 2 * p.toNat else 2 * (-p).toNat - 1

theorem fillPos_unfill {N : ℕ} (hN : 1 ≤ N) {p : ℤ} (hp : Slot N p) :
    fillPos (unfill p) = p ∧ unfill p < N := by
  obtain ⟨hlo, hhi⟩ := hp
  unfold unfill
  split_ifs with h
  · have hp : (p.toNat : ℤ) = p := Int.toNat_of_nonneg h
    rw [fillPos_even (by omega)]
    constructor <;> omega
  · have hp : ((-p).toNat : ℤ) = -p := Int.toNat_of_nonneg (by omega)
    rw [fillPos_odd (by omega)]
    constructor <;> omega

/-- An index the window has not reached sits outside the active slots. -/
theorem fillPos_inactive {len j : ℕ} (hlen : 1 ≤ len) (hj : len ≤ j) :
    fillPos j < -((len / 2 : ℕ) : ℤ) ∨ (((len - 1) / 2 : ℕ) : ℤ) < fillPos j := by
  rcases Nat.mod_two_eq_zero_or_one j with h | h
  · rw [fillPos_even h]
    omega
  · rw [fillPos_odd h]
    omega

/-! ## `clear` -/

theorem clearLoop_fields : ∀ (n : ℕ) (s : RollingMedianT Item),
    clearLoop n s = { s with pos := (clearLoop n s).pos, heap := (clearLoop n s).heap }
  | 0, _ => rfl
  | n + 1, s => by
    rw [clearLoop, clearLoop_fields n]

theorem pos_clearLoop : ∀ (n : ℕ) (s : RollingMedianT Item) (j : ℕ),
    (clearLoop n s).pos j = if j < n then fillPos j else s.pos j
  | 0, _, j => by simp [clearLoop]
  | n + 1, s, j => by
    rw [clearLoop, pos_clearLoop n]
    simp only [Function.update_apply]
    split_ifs <;> first | rfl | omega | (subst_vars; rfl)

theorem heap_clearLoop_of_ne : ∀ (n : ℕ) (s : RollingMedianT Item) (p : ℤ),
    (∀ j, j < n → p ≠ fillPos j) → (clearLoop n s).heap p = s.heap p
  | 0, _, _, _ => rfl
  | n + 1, s, p, hp => by
    rw [clearLoop, heap_clearLoop_of_ne n _ p fun j hj => hp j (by omega)]
    dsimp only
    rw [Function.update_apply, if_neg (hp n (by omega))]

theorem heap_clearLoop : ∀ (n : ℕ) (s : RollingMedianT Item) (j : ℕ), j < n →
    (clearLoop n s).heap (fillPos j) = j
  | 0, _, _, hj => absurd hj (Nat.not_lt_zero _)
  | n + 1, s, j, hj => by
    rw [clearLoop]
    by_cases hjn : j = n
    · -- the last index set is the first written, and later rounds leave its slot alone
      subst hjn
      rw [heap_clearLoop_of_ne _ _ _ fun k hk h => absurd (fillPos_injective h) (by omega)]
      dsimp only
      rw [Function.update_self]
    · exact heap_clearLoop n _ j (by omega)

/-- `clear` lays every index out at its slot of the initial pattern. -/
theorem bij_clear (s : RollingMedianT Item) (hone : 1 ≤ s.N) : Bij s.clear := by
  have hfields := clearLoop_fields s.N { s with idx := 0, minCt := 0, maxCt := 0, sz := 0 }
  have hN : s.clear.N = s.N := by rw [clear, hfields]
  have hpos : ∀ j, j < s.N → s.clear.pos j = fillPos j := fun j hj => by
    rw [clear, pos_clearLoop, if_pos hj]
  have hheap : ∀ j, j < s.N → s.clear.heap (fillPos j) = j := fun j hj =>
    heap_clearLoop _ _ j hj
  refine ⟨fun j hj => ?_, fun j hj => ?_, fun p hp => ?_, fun p hp => ?_⟩
  · rw [hN] at hj ⊢
    rw [hpos j hj]
    exact fillPos_slot hj
  · rw [hN] at hj
    rw [hpos j hj, hheap j hj]
  · rw [hN] at hp ⊢
    obtain ⟨hfill, hlt⟩ := fillPos_unfill hone hp
    rw [← hfill, hheap _ hlt]
    exact hlt
  · rw [hN] at hp
    obtain ⟨hfill, hlt⟩ := fillPos_unfill hone hp
    rw [← hfill, hheap _ hlt, hpos _ hlt]

/-! ## The window -/

/-- The window after `v`: `v` appended, and the oldest value dropped once there were `N`. -/
def nextWindow (N : ℕ) (w : List Item) (v : Item) : List Item :=
  (w ++ [v]).drop (w.length + 1 - N)

theorem length_nextWindow (N : ℕ) (w : List Item) (v : Item) :
    (nextWindow N w v).length = min (w.length + 1) N := by
  rw [nextWindow, List.length_drop, List.length_append, List.length_singleton]
  omega

theorem nextWindow_of_lt {N : ℕ} {w : List Item} (v : Item) (h : w.length < N) :
    nextWindow N w v = w ++ [v] := by
  rw [nextWindow, Nat.sub_eq_zero_of_le (by omega), List.drop_zero]

theorem nextWindow_of_eq {N : ℕ} {w : List Item} (v : Item) (h : w.length = N) :
    nextWindow N w v = (w ++ [v]).drop 1 := by
  rw [nextWindow, h, Nat.add_sub_cancel_left]

/-- One more value after the last `N` of `l` leaves the last `N` of `l ++ [v]`. -/
theorem nextWindow_drop {N : ℕ} (l : List Item) (v : Item) :
    nextWindow N (l.drop (l.length - N)) v = (l ++ [v]).drop ((l ++ [v]).length - N) := by
  rw [nextWindow, ← List.drop_append_of_le_length (by omega), List.drop_drop, List.length_drop,
    List.length_append, List.length_singleton]
  congr 1
  omega

/-- The window after a run of values is the last `N` of all of them. -/
theorem foldl_nextWindow {N : ℕ} : ∀ (vs l : List Item),
    vs.foldl (nextWindow N) (l.drop (l.length - N)) = (l ++ vs).drop ((l ++ vs).length - N)
  | [], l => by rw [List.foldl_nil, List.append_nil]
  | v :: vs, l => by
    rw [List.foldl_cons, nextWindow_drop, foldl_nextWindow vs, List.append_assoc,
      List.singleton_append]

/-- The active slots, `-maxCt` to `minCt`. -/
def activeSlots (s : RollingMedianT Item) : List ℤ :=
  (List.range (s.maxCt + 1 + s.minCt)).map fun k : ℕ => (k : ℤ) - s.maxCt

theorem mem_activeSlots {s : RollingMedianT Item} {p : ℤ} :
    p ∈ activeSlots s ↔ -(s.maxCt : ℤ) ≤ p ∧ p ≤ s.minCt := by
  rw [activeSlots, List.mem_map]
  constructor
  · rintro ⟨k, hk, rfl⟩
    rw [List.mem_range] at hk
    omega
  · rintro ⟨hlo, hhi⟩
    refine ⟨(p + s.maxCt).toNat, List.mem_range.mpr (by omega), by omega⟩

theorem nodup_activeSlots (s : RollingMedianT Item) : (activeSlots s).Nodup :=
  (List.nodup_range).map fun a b hab => by simpa using hab

/-- The max heap's slots, the median's, then the min heap's. -/
theorem activeSlots_eq (s : RollingMedianT Item) :
    activeSlots s = (List.range s.maxCt).map (fun k : ℕ => (k : ℤ) - s.maxCt) ++
      0 :: (List.range s.minCt).map (fun k : ℕ => ((k + 1 : ℕ) : ℤ)) := by
  rw [activeSlots, List.range_add, List.range_succ, List.map_append, List.map_append,
    List.map_map, List.map_singleton, List.append_assoc, List.singleton_append, sub_self]
  congr 2
  apply List.map_congr_left
  intro k _
  simp only [Function.comp_apply]
  push_cast
  ring

/-- The values of the max heap, at the slots `-maxCt` to `-1`. -/
def maxVals (s : RollingMedianT Item) : List Item :=
  (List.range s.maxCt).map fun k : ℕ => s.key ((k : ℤ) - s.maxCt)

/-- The values of the min heap, at the slots `1` to `minCt`. -/
def minVals (s : RollingMedianT Item) : List Item :=
  (List.range s.minCt).map fun k : ℕ => s.key ((k + 1 : ℕ) : ℤ)

/-- A max heap that is not empty holds the values below its top, then its top at slot `-1`. -/
theorem maxVals_eq_append {s : RollingMedianT Item} (hm : 1 ≤ s.maxCt) :
    maxVals s =
      ((List.range (s.maxCt - 1)).map fun k : ℕ => s.key ((k : ℤ) - s.maxCt)) ++ [s.key (-1)] := by
  obtain ⟨m, hm'⟩ : ∃ m, s.maxCt = m + 1 := ⟨s.maxCt - 1, by omega⟩
  rw [maxVals, hm', List.range_succ, List.map_append, List.map_singleton, Nat.add_sub_cancel,
    show (m : ℤ) - ((m + 1 : ℕ) : ℤ) = -1 by omega]

/-- What `insert` keeps of a window `w` of values, oldest first, before the sifts put the heaps
in order. -/
structure Layout (s : RollingMedianT Item) (w : List Item) : Prop where
  one_le : 1 ≤ s.N
  length_le : w.length ≤ s.N
  sz_eq : s.sz = w.length
  idx_lt : s.idx < s.N
  idx_eq : w.length < s.N → s.idx = w.length
  data_eq : ∀ t (ht : t < w.length), s.data ((s.idx + (s.N - w.length) + t) % s.N) = w[t]
  maxCt_eq : s.maxCt = w.length / 2
  minCt_eq : s.minCt = (w.length - 1) / 2
  bij : Bij s
  unfilled : ∀ j, w.length ≤ j → j < s.N → s.pos j = fillPos j
  perm : w ≠ [] → w.Perm ((activeSlots s).map s.key)

/-- Swaps of active slots keep the layout. -/
theorem Layout.exchanged {s t : RollingMedianT Item} {w : List Item} (hlay : Layout s w)
    (hw : w ≠ []) (hex : Exchanged (-s.maxCt) s.minCt s t) : Layout t w := by
  have hlen : 1 ≤ w.length := List.length_pos_iff.mpr hw
  have hlo : -((s.N / 2 : ℕ) : ℤ) ≤ -(s.maxCt : ℤ) := by
    have := hlay.maxCt_eq
    have := hlay.length_le
    omega
  have hhi : (s.minCt : ℤ) ≤ ((s.N - 1) / 2 : ℕ) := by
    have := hlay.minCt_eq
    have := hlay.length_le
    omega
  have hslots : activeSlots t = activeSlots s := by
    rw [activeSlots, activeSlots, hex.maxCt_eq, hex.minCt_eq]
  refine ⟨?_, ?_, ?_, ?_, ?_, ?_, ?_, ?_, ?_, ?_, ?_⟩
  · rw [hex.N_eq]; exact hlay.one_le
  · rw [hex.N_eq]; exact hlay.length_le
  · rw [hex.sz_eq]; exact hlay.sz_eq
  · rw [hex.idx_eq, hex.N_eq]; exact hlay.idx_lt
  · rw [hex.idx_eq, hex.N_eq]; exact hlay.idx_eq
  · rw [hex.data_eq, hex.idx_eq, hex.N_eq]; exact hlay.data_eq
  · rw [hex.maxCt_eq]; exact hlay.maxCt_eq
  · rw [hex.minCt_eq]; exact hlay.minCt_eq
  · exact hex.bij hlo hhi hlay.bij
  · -- the indexes not written yet sit outside the active slots, which the swaps keep to
    intro j hj hjN
    rw [hex.N_eq] at hjN
    rw [hex.pos_of_not_mem hlo hhi hlay.bij (by
      rw [hlay.unfilled j hj hjN, hlay.maxCt_eq, hlay.minCt_eq]
      exact fillPos_inactive hlen hj), hlay.unfilled j hj hjN]
  · intro hw'
    rw [hslots]
    exact (hlay.perm hw').trans (hex.perm (nodup_activeSlots s)
      fun p hp hp' => mem_activeSlots.mpr ⟨hp, hp'⟩).symm

/-! ## The first steps of `insert` -/

/-- What `insert(v)` does before it sifts: `v` written over the oldest value, the queue and the
count moved on, and the heap of the new value's slot grown while it is not full. -/
def pre (s : RollingMedianT Item) (v : Item) : RollingMedianT Item :=
  let t : RollingMedianT Item := { s with
    data := Function.update s.data s.idx v
    idx := (s.idx + 1) % s.N
    sz := min (s.sz + 1) s.N }
  if 0 < s.pos s.idx ∧ t.minCt < (t.N - 1) / 2 then { t with minCt := t.minCt + 1 }
  else if s.pos s.idx < 0 ∧ t.maxCt < t.N / 2 then { t with maxCt := t.maxCt + 1 }
  else t

section Pre

variable (s : RollingMedianT Item) (v : Item)

theorem pre_fields : (pre s v).data = Function.update s.data s.idx v ∧ (pre s v).pos = s.pos ∧
    (pre s v).heap = s.heap ∧ (pre s v).N = s.N ∧ (pre s v).idx = (s.idx + 1) % s.N ∧
    (pre s v).sz = min (s.sz + 1) s.N := by
  unfold pre
  dsimp only
  split_ifs <;> exact ⟨rfl, rfl, rfl, rfl, rfl, rfl⟩

@[simp] theorem pre_data : (pre s v).data = Function.update s.data s.idx v := (pre_fields s v).1
@[simp] theorem pre_pos : (pre s v).pos = s.pos := (pre_fields s v).2.1
@[simp] theorem pre_heap : (pre s v).heap = s.heap := (pre_fields s v).2.2.1
@[simp] theorem pre_N : (pre s v).N = s.N := (pre_fields s v).2.2.2.1
@[simp] theorem pre_idx : (pre s v).idx = (s.idx + 1) % s.N := (pre_fields s v).2.2.2.2.1
@[simp] theorem pre_sz : (pre s v).sz = min (s.sz + 1) s.N := (pre_fields s v).2.2.2.2.2

theorem pre_minCt : (pre s v).minCt =
    if 0 < s.pos s.idx ∧ s.minCt < (s.N - 1) / 2 then s.minCt + 1 else s.minCt := by
  unfold pre
  dsimp only
  split_ifs <;> rfl

theorem pre_maxCt : (pre s v).maxCt =
    if s.pos s.idx < 0 ∧ s.maxCt < s.N / 2 then s.maxCt + 1 else s.maxCt := by
  unfold pre
  dsimp only
  split_ifs <;> first | rfl | omega

end Pre

/-- After the write, the slot of the written index holds `v`, and every other slot its value. -/
theorem key_pre {s : RollingMedianT Item} (hbij : Bij s) (hidx : s.idx < s.N) (v : Item)
    {q : ℤ} (hq : Slot s.N q) : (pre s v).key q = if q = s.pos s.idx then v else s.key q := by
  rw [key, pre_data, pre_heap, Function.update_apply, key]
  have hiff : s.heap q = s.idx ↔ q = s.pos s.idx := by
    constructor
    · intro h
      rw [← h, hbij.pos_heap q hq]
    · intro h
      rw [h, hbij.heap_pos _ hidx]
  by_cases h : q = s.pos s.idx
  · rw [if_pos (hiff.mpr h), if_pos h]
  · rw [if_neg (mt hiff.mp h), if_neg h]

/-- `Bij` reads `pos`, `heap` and `N` only. -/
theorem Bij.congr {s t : RollingMedianT Item} (hbij : Bij s) (hpos : t.pos = s.pos)
    (hheap : t.heap = s.heap) (hN : t.N = s.N) : Bij t := by
  constructor
  · rw [hpos, hN]
    exact hbij.pos_slot
  · rw [hpos, hheap, hN]
    exact hbij.heap_pos
  · rw [hheap, hN]
    exact hbij.heap_lt
  · rw [hpos, hheap, hN]
    exact hbij.pos_heap

section Layout

variable {s : RollingMedianT Item} {w : List Item}

theorem Layout.slot_of_mem (hlay : Layout s w) {q : ℤ} (hq : q ∈ activeSlots s) :
    Slot s.N q := by
  rw [mem_activeSlots, hlay.maxCt_eq, hlay.minCt_eq] at hq
  have := hlay.length_le
  constructor <;> omega

/-- While the window is not full, the index written next is the next one of the pattern. -/
theorem Layout.pos_idx_of_lt (hlay : Layout s w) (hlt : w.length < s.N) :
    s.pos s.idx = fillPos w.length := by
  rw [hlay.idx_eq hlt]
  exact hlay.unfilled _ le_rfl hlt

theorem Layout.slot_pos_idx (hlay : Layout s w) : Slot s.N (s.pos s.idx) :=
  hlay.bij.pos_slot _ hlay.idx_lt

/-- The heap the new value goes to grows exactly while the window does. -/
theorem Layout.pre_counts (hlay : Layout s w) (v : Item) :
    (pre s v).maxCt = min (w.length + 1) s.N / 2 ∧
      (pre s v).minCt = (min (w.length + 1) s.N - 1) / 2 := by
  rw [pre_maxCt, pre_minCt, hlay.maxCt_eq, hlay.minCt_eq]
  have hle := hlay.length_le
  rcases Nat.lt_or_ge w.length s.N with hlt | hge
  · rw [hlay.pos_idx_of_lt hlt]
    rcases Nat.mod_two_eq_zero_or_one w.length with h | h
    · rw [fillPos_even h]
      constructor <;> split_ifs <;> omega
    · rw [fillPos_odd h]
      constructor <;> split_ifs <;> omega
  · constructor <;> split_ifs <;> omega

/-- The queue holds the next window from the next `idx` on. -/
theorem Layout.pre_data_eq (hlay : Layout s w) (v : Item) (t : ℕ)
    (ht : t < (nextWindow s.N w v).length) :
    (pre s v).data (((pre s v).idx + ((pre s v).N - (nextWindow s.N w v).length) + t) %
      (pre s v).N) = (nextWindow s.N w v)[t] := by
  have hN := hlay.one_le
  have hle := hlay.length_le
  simp only [pre_data, pre_idx, pre_N, length_nextWindow] at ht ⊢
  rcases Nat.lt_or_ge w.length s.N with hlt | hge
  · -- the window grows: the queue is written in order from `0`
    have hidx := hlay.idx_eq hlt
    have hpos : ((s.idx + 1) % s.N + (s.N - min (w.length + 1) s.N) + t) % s.N = t := by
      rw [hidx]
      rcases Nat.lt_or_ge (w.length + 1) s.N with h | h
      · rw [Nat.mod_eq_of_lt h, show w.length + 1 + (s.N - min (w.length + 1) s.N) + t =
          t + s.N by omega, Nat.add_mod_right, Nat.mod_eq_of_lt (by omega)]
      · rw [show w.length + 1 = s.N by omega, Nat.mod_self, Nat.mod_eq_of_lt (by omega)]
        omega
    simp only [hpos, nextWindow_of_lt v hlt, Function.update_apply]
    by_cases htl : t = w.length
    · rw [if_pos (by omega), List.getElem_append_right (by omega)]
      simp [htl]
    · rw [if_neg (by omega), List.getElem_append_left (by omega)]
      have hold := hlay.data_eq t (by omega)
      rwa [hidx, show w.length + (s.N - w.length) + t = t + s.N by omega, Nat.add_mod_right,
        Nat.mod_eq_of_lt (by omega)] at hold
  · -- the window is full: the oldest value gives way to `v`
    have hlen : w.length = s.N := by omega
    have hidx := hlay.idx_lt
    have hpos : ((s.idx + 1) % s.N + (s.N - min (w.length + 1) s.N) + t) % s.N =
        (s.idx + (t + 1)) % s.N := by
      rw [show s.N - min (w.length + 1) s.N = 0 by omega, Nat.add_zero, Nat.mod_add_mod]
      congr 1
      omega
    simp only [hpos, nextWindow_of_eq v hlen, List.getElem_drop, Function.update_apply]
    by_cases htl : t + 1 = s.N
    · rw [if_pos (by rw [htl, Nat.add_mod_right, Nat.mod_eq_of_lt hidx]),
        List.getElem_append_right (by omega)]
      simp [hlen]
    · have hne : (s.idx + (t + 1)) % s.N ≠ s.idx := by
        rcases Nat.lt_or_ge (s.idx + (t + 1)) s.N with h | h
        · rw [Nat.mod_eq_of_lt h]
          omega
        · rw [Nat.mod_eq_sub_mod h, Nat.mod_eq_of_lt (by omega)]
          omega
      rw [if_neg hne, List.getElem_append_left (by omega)]
      have hold := hlay.data_eq (t + 1) (by omega)
      rw [show s.idx + (s.N - w.length) + (t + 1) = s.idx + (t + 1) by omega] at hold
      simpa only [Nat.add_comm 1 t] using hold

/-- The window after the write is what the active slots after it hold: one slot more, holding
`v`, while the window grows, and `v` in place of the oldest value once it is full. -/
theorem Layout.pre_perm (hlay : Layout s w) (v : Item) :
    (nextWindow s.N w v).Perm ((activeSlots (pre s v)).map (pre s v).key) := by
  classical
  obtain ⟨hmax, hmin⟩ := hlay.pre_counts v
  have hN := hlay.one_le
  have hkey := fun q (hq : Slot s.N q) => key_pre hlay.bij hlay.idx_lt v hq
  rcases Nat.lt_or_ge w.length s.N with hlt | hge
  · rw [nextWindow_of_lt v hlt]
    have hp := hlay.pos_idx_of_lt hlt
    rcases Nat.eq_zero_or_pos w.length with h0 | hpos
    · -- the first value goes to the median's slot
      have hw : w = [] := List.length_eq_zero_iff.mp h0
      have hslots : activeSlots (pre s v) = [0] := by
        rw [activeSlots, hmax, hmin, h0, min_eq_left hN]
        rfl
      rw [hw, hslots, List.map_singleton, hkey 0 ⟨by omega, by omega⟩,
        if_pos (by rw [hp, h0]; rfl), List.nil_append]
    · -- a slot more, outside the old ones, and holding `v`
      have hnew : s.pos s.idx ∉ activeSlots s := by
        rw [mem_activeSlots, hp, hlay.maxCt_eq, hlay.minCt_eq]
        have := fillPos_inactive hpos (le_refl w.length)
        omega
      have hslots : (activeSlots (pre s v)).Perm (activeSlots s ++ [s.pos s.idx]) := by
        rw [List.perm_ext_iff_of_nodup (nodup_activeSlots _)
          (List.nodup_append_comm.mpr (List.nodup_cons.mpr ⟨hnew, nodup_activeSlots s⟩))]
        intro q
        rw [mem_activeSlots, List.mem_append, mem_activeSlots, List.mem_singleton, hmax, hmin,
          hlay.maxCt_eq, hlay.minCt_eq, hp]
        rcases Nat.mod_two_eq_zero_or_one w.length with h | h
        · rw [fillPos_even h]
          omega
        · rw [fillPos_odd h]
          omega
      have hold : (activeSlots s).map (pre s v).key = (activeSlots s).map s.key := by
        apply List.map_congr_left
        intro q hq
        rw [hkey q (hlay.slot_of_mem hq), if_neg fun h : q = s.pos s.idx => hnew (h ▸ hq)]
      refine List.Perm.trans ?_ (hslots.map _).symm
      rw [List.map_append, List.map_singleton, hkey _ hlay.slot_pos_idx, if_pos rfl, hold]
      exact (hlay.perm (List.ne_nil_of_length_pos hpos)).append_right [v]
  · -- the window is full: `v` takes the oldest value's place
    have hlen : w.length = s.N := by
      have := hlay.length_le
      omega
    rw [nextWindow_of_eq v hlen]
    have hslots : activeSlots (pre s v) = activeSlots s := by
      rw [activeSlots, activeSlots, hmax, hmin, hlay.maxCt_eq, hlay.minCt_eq, hlen,
        min_eq_right (by omega)]
    have hp : s.pos s.idx ∈ activeSlots s := by
      have := hlay.slot_pos_idx
      rw [mem_activeSlots, hlay.maxCt_eq, hlay.minCt_eq, hlen]
      exact this
    have hchange := map_perm_of_eq_off (f := s.key) (g := (pre s v).key) (nodup_activeSlots s) hp
      fun q hq hqp => by rw [hkey q (hlay.slot_of_mem hq), if_neg hqp]
    rw [hkey _ hlay.slot_pos_idx, if_pos rfl] at hchange
    have hne : w ≠ [] := List.ne_nil_of_length_pos (by omega)
    obtain ⟨a, w', rfl⟩ := List.exists_cons_of_ne_nil hne
    -- the oldest value was at the slot of `idx`
    have hfirst : s.key (s.pos s.idx) = a := by
      have hold := hlay.data_eq 0 (by simp)
      have hi : (s.idx + (s.N - (a :: w').length) + 0) % s.N = s.idx := by
        rw [hlen, Nat.sub_self, Nat.add_zero, Nat.mod_eq_of_lt hlay.idx_lt]
      rw [hi] at hold
      rw [key, hlay.bij.heap_pos _ hlay.idx_lt, hold]
      rfl
    rw [hfirst] at hchange
    rw [hslots, List.cons_append, List.drop_one, List.tail_cons]
    refine List.Perm.trans ?_ hchange.symm
    have herase := (hlay.perm hne).erase a
    rw [List.erase_cons_head] at herase
    exact herase.append_right [v]

/-- The first steps of `insert` keep the layout, for the window moved on by `v`. -/
theorem layout_pre (hlay : Layout s w) (v : Item) : Layout (pre s v) (nextWindow s.N w v) := by
  obtain ⟨hmax, hmin⟩ := hlay.pre_counts v
  have hlen := length_nextWindow s.N w v
  have hN := hlay.one_le
  refine ⟨?_, ?_, ?_, ?_, ?_, hlay.pre_data_eq v, ?_, ?_, ?_, ?_, fun _ => hlay.pre_perm v⟩
  · rw [pre_N]
    exact hN
  · rw [pre_N, hlen]
    omega
  · rw [pre_sz, hlen, hlay.sz_eq]
  · rw [pre_idx, pre_N]
    exact Nat.mod_lt _ (by omega)
  · intro hlt
    rw [pre_N, hlen] at hlt
    rw [pre_idx, hlen, hlay.idx_eq (by omega), Nat.mod_eq_of_lt (by omega)]
    omega
  · rw [hmax, hlen]
  · rw [hmin, hlen]
  · exact hlay.bij.congr (pre_pos s v) (pre_heap s v) (pre_N s v)
  · intro j hj hjN
    rw [pre_N] at hjN
    rw [hlen] at hj
    rw [pre_pos]
    exact hlay.unfilled j (by omega) hjN

theorem nextWindow_ne_nil {N : ℕ} (hN : 1 ≤ N) (w : List Item) (v : Item) :
    nextWindow N w v ≠ [] := by
  apply List.ne_nil_of_length_pos
  rw [length_nextWindow]
  omega

/-- The oldest value sits at the slot of `idx`. -/
theorem Layout.key_pos_idx (hlay : Layout s w) : s.key (s.pos s.idx) = s.data s.idx := by
  rw [key, hlay.bij.heap_pos _ hlay.idx_lt]

theorem Layout.key_pre_pos_idx (hlay : Layout s w) (v : Item) :
    (pre s v).key (s.pos s.idx) = v := by
  rw [key_pre hlay.bij hlay.idx_lt v hlay.slot_pos_idx, if_pos rfl]

theorem Layout.minKey_pre (hlay : Layout s w) (v : Item) {i : ℕ} (hi : i ≤ s.minCt)
    (hne : (i : ℤ) ≠ s.pos s.idx) : (pre s v).minKey i = s.minKey i := by
  have hmin := hlay.minCt_eq
  have hle := hlay.length_le
  rw [minKey, minKey, key_pre hlay.bij hlay.idx_lt v ⟨by omega, by omega⟩, if_neg hne]

theorem Layout.maxKey_pre (hlay : Layout s w) (v : Item) {i : ℕ} (hi : i ≤ s.maxCt)
    (hne : -(i : ℤ) ≠ s.pos s.idx) : (pre s v).maxKey i = s.maxKey i := by
  have hmax := hlay.maxCt_eq
  have hle := hlay.length_le
  rw [maxKey, maxKey, key_pre hlay.bij hlay.idx_lt v ⟨by omega, by omega⟩, if_neg hne]

/-- A slot of the min heap to write over: the next one while the min heap grows, else an active
one. -/
theorem Layout.pos_idx_pos (hlay : Layout s w) (hp : 0 < s.pos s.idx) :
    ∃ h : ℕ, s.pos s.idx = h ∧ 1 ≤ h ∧
      (s.minCt < (s.N - 1) / 2 ∧ h = s.minCt + 1 ∨ ¬s.minCt < (s.N - 1) / 2 ∧ h ≤ s.minCt) := by
  have htn := Int.toNat_of_nonneg hp.le
  refine ⟨(s.pos s.idx).toNat, htn.symm, by omega, ?_⟩
  have hmin := hlay.minCt_eq
  have hle := hlay.length_le
  rcases Nat.lt_or_ge w.length s.N with hlt | hge
  · have hfill := hlay.pos_idx_of_lt hlt
    rcases Nat.mod_two_eq_zero_or_one w.length with h | h
    · rw [fillPos_even h] at hfill
      omega
    · rw [fillPos_odd h] at hfill
      omega
  · obtain ⟨_, hhi⟩ := hlay.slot_pos_idx
    omega

/-- A slot of the max heap to write over, the mirror image of `Layout.pos_idx_pos`. -/
theorem Layout.pos_idx_neg (hlay : Layout s w) (hp : s.pos s.idx < 0) :
    ∃ h : ℕ, s.pos s.idx = -(h : ℤ) ∧ 1 ≤ h ∧
      (s.maxCt < s.N / 2 ∧ h = s.maxCt + 1 ∨ ¬s.maxCt < s.N / 2 ∧ h ≤ s.maxCt) := by
  have htn := Int.toNat_of_nonneg (neg_nonneg.mpr hp.le)
  refine ⟨(-s.pos s.idx).toNat, by omega, by omega, ?_⟩
  have hmax := hlay.maxCt_eq
  have hle := hlay.length_le
  rcases Nat.lt_or_ge w.length s.N with hlt | hge
  · have hfill := hlay.pos_idx_of_lt hlt
    rcases Nat.mod_two_eq_zero_or_one w.length with h | h
    · rw [fillPos_even h] at hfill
      omega
    · rw [fillPos_odd h] at hfill
      omega
  · obtain ⟨hlo, _⟩ := hlay.slot_pos_idx
    omega

/-- The window is what the max heap, the median and the min heap hold. -/
theorem Layout.perm_vals (hlay : Layout s w) (hw : w ≠ []) :
    w.Perm (maxVals s ++ s.key 0 :: minVals s) := by
  have hperm := hlay.perm hw
  rwa [activeSlots_eq, List.map_append, List.map_cons, List.map_map, List.map_map] at hperm

end Layout

/-- `insert` keeps the capacity. -/
@[simp] theorem N_insert [LT Item] [DecidableLT Item] (s : RollingMedianT Item) (v : Item) :
    (s.insert v).N = s.N := by
  unfold insert
  dsimp only
  split_ifs <;> simp [minSortDown, maxSortDown, minSortUp, maxSortUp]

theorem clear_fields (s : RollingMedianT Item) :
    s.clear.N = s.N ∧ s.clear.idx = 0 ∧ s.clear.sz = 0 ∧ s.clear.minCt = 0 ∧
      s.clear.maxCt = 0 := by
  have hfields := clearLoop_fields s.N { s with idx := 0, minCt := 0, maxCt := 0, sz := 0 }
  rw [clear, hfields]
  exact ⟨rfl, rfl, rfl, rfl, rfl⟩

/-! ## Both heaps in order -/

section Order

variable [LinearOrder Item]

/-- What a state holds for the window `w` of the last values inserted, oldest first: the layout,
and both heaps in order around the median at slot `0`. -/
structure Inv (s : RollingMedianT Item) (w : List Item) : Prop extends Layout s w where
  minOrd : Ordered s.minKey s.minCt
  maxOrd : Ordered s.maxKey s.maxCt

/-- `clear` leaves the empty window. -/
theorem inv_clear (s : RollingMedianT Item) (hN : 1 ≤ s.N) : Inv s.clear [] := by
  obtain ⟨hN', hidx, hsz, hmin, hmax⟩ := clear_fields s
  refine ⟨⟨?_, Nat.zero_le _, hsz, ?_, fun _ => hidx, fun t ht => absurd ht (Nat.not_lt_zero t),
    ?_, ?_, bij_clear s hN, fun j _ hj => ?_, fun h => absurd rfl h⟩, ?_, ?_⟩
  · rw [hN']
    exact hN
  · rw [hidx, hN']
    exact hN
  · rw [hmax, List.length_nil]
  · rw [hmin, List.length_nil]
  · rw [hN'] at hj
    rw [clear, pos_clearLoop, if_pos hj]
  · rw [hmin]
    exact ordered_zero _
  · rw [hmax]
    exact ordered_zero _

/-- A state laid out for `w`, sifted by swaps of its active slots into two heaps in order, holds
the invariant. -/
theorem Inv.of_exchanged {t r : RollingMedianT Item} {w : List Item} (hlay : Layout t w)
    (hw : w ≠ []) (hex : Exchanged (-t.maxCt) t.minCt t r) (hmin : Ordered r.minKey t.minCt)
    (hmax : Ordered r.maxKey t.maxCt) : Inv r w := by
  refine ⟨hlay.exchanged hw hex, ?_, ?_⟩
  · rw [hex.minCt_eq]
    exact hmin
  · rw [hex.maxCt_eq]
    exact hmax

section Insert

variable {s : RollingMedianT Item} {w : List Item}

/-- A value written over a smaller one of the full min heap sifts down. -/
theorem inv_minSortDown (hinv : Inv s w) (v : Item) {h : ℕ} (hp : s.pos s.idx = h)
    (hh : 1 ≤ h) (hhm : h ≤ s.minCt) (hgrow : ¬s.minCt < (s.N - 1) / 2)
    (hlt : s.data s.idx < v) : Inv ((pre s v).minSortDown h) (nextWindow s.N w v) := by
  have hlay := hinv.toLayout
  have htmin : (pre s v).minCt = s.minCt := by rw [pre_minCt, if_neg (by omega)]
  have htmax : (pre s v).maxCt = s.maxCt := by rw [pre_maxCt, if_neg (by omega)]
  have hdown : DownInv (pre s v).minKey (pre s v).minCt h := by
    rw [htmin]
    refine hinv.minOrd.downInv_of_le hh hhm ?_ fun i hi hne => hlay.minKey_pre v hi (by omega)
    rw [minKey, minKey, ← hp, hlay.key_pre_pos_idx, hlay.key_pos_idx]
    exact hlt.le
  obtain ⟨hord, hex⟩ := minSortDown_spec hh hdown
  refine Inv.of_exchanged (layout_pre hlay v) (nextWindow_ne_nil hlay.one_le w v)
    (hex.mono (by omega) le_rfl) hord ?_
  -- the max heap was not touched
  rw [htmax]
  apply hinv.maxOrd.congr
  intro i hi
  rw [hex.maxKey_of_not_mem (Or.inl (by omega)), hlay.maxKey_pre v hi (by omega)]

/-- Any other value of the min heap sifts up: a new last slot of the min heap, or a value written
over a larger one. -/
theorem inv_minTail (hinv : Inv s w) (v : Item) {h : ℕ} (hp : s.pos s.idx = h) (hh : 1 ≤ h)
    (hcase : s.minCt < (s.N - 1) / 2 ∧ h = s.minCt + 1 ∨
      ¬s.minCt < (s.N - 1) / 2 ∧ h ≤ s.minCt ∧ v ≤ s.data s.idx) :
    Inv (minTail (pre s v) h) (nextWindow s.N w v) := by
  have hlay := hinv.toLayout
  obtain ⟨hcmax, hcmin⟩ := hlay.pre_counts v
  have htmax : (pre s v).maxCt = s.maxCt := by rw [pre_maxCt, if_neg (by omega)]
  have hsame : ∀ i, i ≤ s.minCt → i ≠ h → (pre s v).minKey i = s.minKey i :=
    fun i hi hne => hlay.minKey_pre v hi (by omega)
  have hup : UpInv (pre s v).minKey (pre s v).minCt h := by
    rcases hcase with ⟨hgrow, rfl⟩ | ⟨hgrow, hhm, hle⟩
    · rw [pre_minCt, if_pos ⟨by omega, hgrow⟩]
      exact hinv.minOrd.upInv_extend fun i hi => hsame i hi (by omega)
    · rw [pre_minCt, if_neg (by omega)]
      refine hinv.minOrd.upInv_of_le hh ?_ hsame
      rw [minKey, minKey, ← hp, hlay.key_pre_pos_idx, hlay.key_pos_idx]
      exact hle
  have hhm : h ≤ (pre s v).minCt := by
    rw [pre_minCt]
    split_ifs <;> omega
  have hmax : Ordered (pre s v).maxKey (pre s v).maxCt := by
    rw [htmax]
    apply hinv.maxOrd.congr
    intro i hi
    exact hlay.maxKey_pre v hi (by omega)
  obtain ⟨hord, hmax', hex⟩ := minTail_spec hh hhm (by omega) hup hmax
  exact Inv.of_exchanged (layout_pre hlay v) (nextWindow_ne_nil hlay.one_le w v) hex hord hmax'

/-- A value written over a larger one of the full max heap sifts down. -/
theorem inv_maxSortDown (hinv : Inv s w) (v : Item) {h : ℕ} (hp : s.pos s.idx = -h)
    (hh : 1 ≤ h) (hhm : h ≤ s.maxCt) (hgrow : ¬s.maxCt < s.N / 2) (hlt : v < s.data s.idx) :
    Inv ((pre s v).maxSortDown (-h)) (nextWindow s.N w v) := by
  have hlay := hinv.toLayout
  have htmin : (pre s v).minCt = s.minCt := by rw [pre_minCt, if_neg (by omega)]
  have htmax : (pre s v).maxCt = s.maxCt := by rw [pre_maxCt, if_neg (by omega)]
  have hdown : DownInv (pre s v).maxKey (pre s v).maxCt h := by
    rw [htmax]
    refine hinv.maxOrd.downInv_of_le hh hhm ?_ fun i hi hne => hlay.maxKey_pre v hi (by omega)
    rw [maxKey, maxKey, ← hp, hlay.key_pre_pos_idx, hlay.key_pos_idx,
      OrderDual.toDual_le_toDual]
    exact hlt.le
  obtain ⟨hord, hex⟩ := maxSortDown_spec hh hdown
  refine Inv.of_exchanged (layout_pre hlay v) (nextWindow_ne_nil hlay.one_le w v)
    (hex.mono le_rfl (by omega)) ?_ hord
  -- the min heap was not touched
  rw [htmin]
  apply hinv.minOrd.congr
  intro i hi
  rw [hex.minKey_of_not_mem (Or.inr (by omega)), hlay.minKey_pre v hi (by omega)]

/-- Any other value of the max heap sifts up, the mirror image of `inv_minTail`. -/
theorem inv_maxTail (hinv : Inv s w) (v : Item) {h : ℕ} (hp : s.pos s.idx = -h) (hh : 1 ≤ h)
    (hcase : s.maxCt < s.N / 2 ∧ h = s.maxCt + 1 ∨
      ¬s.maxCt < s.N / 2 ∧ h ≤ s.maxCt ∧ s.data s.idx ≤ v) :
    Inv (maxTail (pre s v) (-h)) (nextWindow s.N w v) := by
  have hlay := hinv.toLayout
  have htmin : (pre s v).minCt = s.minCt := by rw [pre_minCt, if_neg (by omega)]
  have hsame : ∀ i, i ≤ s.maxCt → i ≠ h → (pre s v).maxKey i = s.maxKey i :=
    fun i hi hne => hlay.maxKey_pre v hi (by omega)
  have hup : UpInv (pre s v).maxKey (pre s v).maxCt h := by
    rcases hcase with ⟨hgrow, rfl⟩ | ⟨hgrow, hhm, hle⟩
    · rw [pre_maxCt, if_pos ⟨by omega, hgrow⟩]
      exact hinv.maxOrd.upInv_extend fun i hi => hsame i hi (by omega)
    · rw [pre_maxCt, if_neg (by omega)]
      refine hinv.maxOrd.upInv_of_le hh ?_ hsame
      rw [maxKey, maxKey, ← hp, hlay.key_pre_pos_idx, hlay.key_pos_idx,
        OrderDual.toDual_le_toDual]
      exact hle
  have hhm : h ≤ (pre s v).maxCt := by
    rw [pre_maxCt]
    split_ifs <;> omega
  have hmin : Ordered (pre s v).minKey (pre s v).minCt := by
    rw [htmin]
    apply hinv.minOrd.congr
    intro i hi
    exact hlay.minKey_pre v hi (by omega)
  obtain ⟨hord, hmax', hex⟩ := maxTail_spec hh hhm hup hmin
  exact Inv.of_exchanged (layout_pre hlay v) (nextWindow_ne_nil hlay.one_le w v) hex hord hmax'

/-- A value written at the median's slot is sifted into the max heap, then into the min heap. -/
theorem inv_rootFix (hinv : Inv s w) (v : Item) (hp : s.pos s.idx = 0) :
    Inv (rootFix (pre s v)) (nextWindow s.N w v) := by
  have hlay := hinv.toLayout
  have htmin : (pre s v).minCt = s.minCt := by rw [pre_minCt, if_neg (by omega)]
  have htmax : (pre s v).maxCt = s.maxCt := by rw [pre_maxCt, if_neg (by omega)]
  -- below their roots both heaps are as they were
  have hminsame : ∀ i, 1 ≤ i → i ≤ (pre s v).minCt → (pre s v).minKey i = s.minKey i :=
    fun i hi him => hlay.minKey_pre v (by omega) (by omega)
  have hmaxsame : ∀ i, 1 ≤ i → i ≤ (pre s v).maxCt → (pre s v).maxKey i = s.maxKey i :=
    fun i hi him => hlay.maxKey_pre v (by omega) (by omega)
  -- the old median sat between the two tops
  have hcross : 1 ≤ (pre s v).maxCt → 1 ≤ (pre s v).minCt →
      (pre s v).key (-1) ≤ (pre s v).key 1 := by
    intro hm1 hn1
    have hlo := hinv.maxOrd 1 le_rfl (by omega)
    have hhi := hinv.minOrd 1 le_rfl (by omega)
    rw [show (1 : ℕ) / 2 = 0 from rfl, maxKey_zero, maxKey_one, OrderDual.toDual_le_toDual] at hlo
    have htop := hmaxsame 1 le_rfl hm1
    rw [maxKey_one, maxKey_one] at htop
    calc (pre s v).key (-1) = s.key (-1) := OrderDual.toDual.injective htop
      _ ≤ s.key 0 := hlo
      _ ≤ s.key 1 := hhi
      _ = (pre s v).key 1 := (hminsame 1 le_rfl hn1).symm
  obtain ⟨hord, hmax', hex⟩ := rootFix_spec (htmin ▸ hinv.minOrd) hminsame
    (htmax ▸ hinv.maxOrd) hmaxsame hcross
  exact Inv.of_exchanged (layout_pre hlay v) (nextWindow_ne_nil hlay.one_le w v) hex hord hmax'

/-- `insert` in its five branches, after the write and the growth of a heap. -/
theorem insert_eq (s : RollingMedianT Item) (v : Item) :
    s.insert v =
      if 0 < s.pos s.idx then
        if ¬s.minCt < (s.N - 1) / 2 ∧ s.data s.idx < v then (pre s v).minSortDown (s.pos s.idx)
        else minTail (pre s v) (s.pos s.idx)
      else if s.pos s.idx < 0 then
        if ¬s.maxCt < s.N / 2 ∧ v < s.data s.idx then (pre s v).maxSortDown (s.pos s.idx)
        else maxTail (pre s v) (s.pos s.idx)
      else rootFix (pre s v) := by
  unfold insert pre minTail maxTail rootFix
  dsimp only
  -- the sign of the slot picks the branch, and the count of its heap whether `pre` grew it
  by_cases hp : 0 < s.pos s.idx
  · have hn : ¬s.pos s.idx < 0 := by omega
    by_cases hg : s.minCt < (s.N - 1) / 2 <;>
      simp only [hp, hn, hg, true_and, false_and, not_true_eq_false, not_false_eq_true,
        if_true, if_false]
  · by_cases hn : s.pos s.idx < 0
    · by_cases hg : s.maxCt < s.N / 2 <;>
        simp only [hp, hn, hg, true_and, false_and, not_true_eq_false, not_false_eq_true,
          if_true, if_false]
    · simp only [hp, hn, false_and, if_false]

/-- `insert` moves the window on by `v` and keeps the invariant. -/
theorem inv_insert (hinv : Inv s w) (v : Item) : Inv (s.insert v) (nextWindow s.N w v) := by
  have hlay := hinv.toLayout
  rw [insert_eq]
  split_ifs with hp hdown hn hdown'
  · obtain ⟨h, hph, hh, hcase⟩ := hlay.pos_idx_pos hp
    rw [hph]
    exact inv_minSortDown hinv v hph hh (by omega) hdown.1 hdown.2
  · obtain ⟨h, hph, hh, hcase⟩ := hlay.pos_idx_pos hp
    rw [hph]
    refine inv_minTail hinv v hph hh ?_
    rcases hcase with hg | ⟨hgrow, hhm⟩
    · exact Or.inl hg
    · exact Or.inr ⟨hgrow, hhm, not_lt.mp fun hlt => hdown ⟨hgrow, hlt⟩⟩
  · obtain ⟨h, hph, hh, hcase⟩ := hlay.pos_idx_neg hn
    rw [hph]
    exact inv_maxSortDown hinv v hph hh (by omega) hdown'.1 hdown'.2
  · obtain ⟨h, hph, hh, hcase⟩ := hlay.pos_idx_neg hn
    rw [hph]
    refine inv_maxTail hinv v hph hh ?_
    rcases hcase with hg | ⟨hgrow, hhm⟩
    · exact Or.inl hg
    · exact Or.inr ⟨hgrow, hhm, not_lt.mp fun hlt => hdown' ⟨hgrow, hlt⟩⟩
  · exact inv_rootFix hinv v (by omega)

/-- Every run of `insert` keeps the invariant, for the window moved on by each value in turn. -/
theorem inv_foldl_insert : ∀ (vs : List Item) {s : RollingMedianT Item} {w : List Item},
    Inv s w → Inv (vs.foldl RollingMedianT.insert s) (vs.foldl (nextWindow s.N) w)
  | [], _, _, hinv => hinv
  | v :: vs, s, w, hinv => by
    have hrun := inv_foldl_insert vs (inv_insert hinv v)
    rw [N_insert] at hrun
    exact hrun

end Insert

section Sorted

variable {s : RollingMedianT Item} {w : List Item}

/-- The max heap's values are at most the median. -/
theorem Inv.le_of_mem_maxVals (hinv : Inv s w) {x : Item} (hx : x ∈ maxVals s) :
    x ≤ s.key 0 := by
  obtain ⟨k, hk, rfl⟩ := List.mem_map.mp hx
  rw [List.mem_range] at hk
  have hle := hinv.maxOrd.root_le (s.maxCt - k) (by omega)
  rw [maxKey_zero, maxKey, OrderDual.toDual_le_toDual] at hle
  rwa [show -((s.maxCt - k : ℕ) : ℤ) = (k : ℤ) - s.maxCt by omega] at hle

/-- The min heap's values are at least the median. -/
theorem Inv.le_of_mem_minVals (hinv : Inv s w) {y : Item} (hy : y ∈ minVals s) :
    s.key 0 ≤ y := by
  obtain ⟨k, hk, rfl⟩ := List.mem_map.mp hy
  rw [List.mem_range] at hk
  exact hinv.minOrd.root_le (k + 1) (by omega)

/-- The max heap's values below its top are at most the top. -/
theorem Inv.le_top (hinv : Inv s w) {x : Item}
    (hx : x ∈ (List.range (s.maxCt - 1)).map fun k : ℕ => s.key ((k : ℤ) - s.maxCt)) :
    x ≤ s.key (-1) := by
  obtain ⟨k, hk, rfl⟩ := List.mem_map.mp hx
  rw [List.mem_range] at hk
  have hle := hinv.maxOrd.one_le (s.maxCt - k) (by omega) (by omega)
  rw [maxKey_one, maxKey, OrderDual.toDual_le_toDual] at hle
  rwa [show -((s.maxCt - k : ℕ) : ℤ) = (k : ℤ) - s.maxCt by omega] at hle

/-- In the sorted window the median sits at position `maxCt`, and the top of a max heap that is
not empty just before it. -/
theorem Inv.getD_insertionSort (hinv : Inv s w) (hw : w ≠ []) (d : Item) :
    (w.insertionSort (· ≤ ·)).getD s.maxCt d = s.key 0 ∧
      (1 ≤ s.maxCt → (w.insertionSort (· ≤ ·)).getD (s.maxCt - 1) d = s.key (-1)) := by
  have hsort := OrderStat.insertionSort_eq_split (r := (· ≤ ·)) (hinv.perm_vals hw)
    (fun _ hx => hinv.le_of_mem_maxVals hx) (fun _ hy => hinv.le_of_mem_minVals hy)
  have hlen : ((maxVals s).insertionSort (· ≤ ·)).length = s.maxCt := by
    rw [List.length_insertionSort, maxVals, List.length_map, List.length_range]
  refine ⟨?_, fun hm => ?_⟩
  · rw [hsort, List.getD_append_right _ _ _ _ hlen.le, hlen, Nat.sub_self, List.getD_cons_zero]
  · -- the top is the last value of the sorted max heap
    have htop := OrderStat.insertionSort_eq_split (r := (· ≤ ·)) (U := [])
      (List.Perm.of_eq (maxVals_eq_append hm)) (fun _ hx => hinv.le_top hx)
      (fun _ hy => absurd hy List.not_mem_nil)
    rw [List.insertionSort_nil] at htop
    have hlen' : (((List.range (s.maxCt - 1)).map fun k : ℕ =>
        s.key ((k : ℤ) - s.maxCt)).insertionSort (· ≤ ·)).length = s.maxCt - 1 := by
      rw [List.length_insertionSort, List.length_map, List.length_range]
    rw [hsort, htop, List.append_assoc, List.getD_append_right _ _ _ _ hlen'.le, hlen',
      Nat.sub_self, List.singleton_append, List.getD_cons_zero]

end Sorted

end Order

/-! ## `rolling_median_t<uint64_t>` -/

/-- The order of `uint64_t` as a linear order, for the heaps of `rolling_median_t<uint64_t>`: its
comparisons are the ones `insert` makes. -/
@[reducible] def uint64Order : LinearOrder UInt64 where
  le := (· ≤ ·)
  lt := (· < ·)
  le_refl := UInt64.le_refl
  le_trans _ _ _ := UInt64.le_trans
  le_antisymm _ _ := UInt64.le_antisymm
  le_total := UInt64.le_total
  lt_iff_le_not_ge _ _ := by
    rw [UInt64.lt_iff_toNat_lt, UInt64.le_iff_toNat_le, UInt64.le_iff_toNat_le]
    omega
  toDecidableLE := fun a b => UInt64.decLe a b
  toDecidableLT := fun a b => UInt64.decLt a b
  toDecidableEq := instDecidableEqUInt64

/-- With the invariant, `median()` is `epee::misc_utils::median` of the window: the value at the
median's slot, or `get_mid` of it and the top of the max heap for an even count. -/
theorem median_eq_of_inv {s : RollingMedianT UInt64} {w : List UInt64}
    (hinv : @Inv UInt64 uint64Order s w) (hw : w ≠ []) : s.median = MiscUtils.median w := by
  obtain ⟨hmid, htop⟩ := @Inv.getD_insertionSort UInt64 uint64Order s w hinv hw 0
  have hmax := hinv.maxCt_eq
  have hmin := hinv.minCt_eq
  have hlen : 1 ≤ w.length := List.length_pos_iff.mpr hw
  have hsorted_mid : (w.insertionSort (· ≤ ·)).getD (w.length / 2) 0 = s.key 0 := by
    rw [← hmax]
    exact hmid
  have hnonempty : ¬w.isEmpty = true := by
    rw [List.isEmpty_iff]
    exact hw
  by_cases hodd : w.length % 2 = 1
  · -- an odd count: both heaps hold as many values, and the median is the middle value
    have hlhs : s.median = s.key 0 := by
      rw [RollingMedianT.median, if_neg (by omega)]
      rfl
    have hrhs : MiscUtils.median w = s.key 0 := by
      rw [MiscUtils.median, if_neg hnonempty]
      by_cases h1 : w.length = 1
      · obtain ⟨a, rfl⟩ := List.length_eq_one_iff.mp h1
        rw [if_pos h1]
        simpa [List.insertionSort] using hsorted_mid
      · rw [if_neg h1]
        dsimp only
        rw [List.length_insertionSort, if_pos (by omega)]
        exact hsorted_mid
    rw [hlhs, hrhs]
  · -- an even count: the max heap holds one value more, and its top is the lower middle value
    have hsorted_top : (w.insertionSort (· ≤ ·)).getD (w.length / 2 - 1) 0 = s.key (-1) := by
      rw [← hmax]
      exact htop (by omega)
    have hlhs : s.median = getMid (s.key 0) (s.key (-1)) := by
      rw [RollingMedianT.median, if_pos (by omega)]
      rfl
    have hrhs : MiscUtils.median w = getMid (s.key (-1)) (s.key 0) := by
      rw [MiscUtils.median, if_neg hnonempty, if_neg (by omega)]
      dsimp only
      rw [List.length_insertionSort, if_neg (by omega), hsorted_mid, hsorted_top]
    rw [hlhs, hrhs, getMid_comm]

/-- `rolling_median_t<uint64_t>` is exact: after values `vs`, at least one, are inserted into a
cleared state of capacity `N ≥ 1`, `size()` is `min(k, N)` for the `k` values, and `median()` is
`epee::misc_utils::median` of the last `min(k, N)` of them. -/
theorem size_median_foldl_insert (s : RollingMedianT UInt64) (hN : 1 ≤ s.N) (vs : List UInt64)
    (hvs : vs ≠ []) :
    (vs.foldl RollingMedianT.insert s.clear).size = min vs.length s.N ∧
      (vs.foldl RollingMedianT.insert s.clear).median =
        MiscUtils.median (vs.drop (vs.length - s.N)) := by
  have hwin : vs.foldl (nextWindow s.clear.N) [] = vs.drop (vs.length - s.N) := by
    have hfold := foldl_nextWindow (N := s.N) vs []
    rw [(clear_fields s).1]
    rwa [List.drop_nil, List.nil_append] at hfold
  have hrun : @Inv UInt64 uint64Order (vs.foldl RollingMedianT.insert s.clear)
      (vs.drop (vs.length - s.N)) := by
    have hrun := @inv_foldl_insert UInt64 uint64Order vs s.clear [] (@inv_clear UInt64 uint64Order s hN)
    rw [hwin] at hrun
    exact hrun
  refine ⟨?_, median_eq_of_inv hrun ?_⟩
  · rw [size, hrun.sz_eq, List.length_drop]
    omega
  · apply List.ne_nil_of_length_pos
    rw [List.length_drop]
    have := List.length_pos_iff.mpr hvs
    omega

theorem size_median_foldl_insert_three :
    (1 ≤ (⟨fun _ => 0, fun _ => 0, fun _ => 0, 3, 0, 0, 0, 0⟩ : RollingMedianT UInt64).N ∧
      ([5, 1, 4, 2] : List UInt64) ≠ []) ∧
    (([5, 1, 4, 2] : List UInt64).foldl RollingMedianT.insert
        (⟨fun _ => 0, fun _ => 0, fun _ => 0, 3, 0, 0, 0, 0⟩ : RollingMedianT UInt64).clear).size =
      min 4 3 ∧
    (([5, 1, 4, 2] : List UInt64).foldl RollingMedianT.insert
        (⟨fun _ => 0, fun _ => 0, fun _ => 0, 3, 0, 0, 0, 0⟩ : RollingMedianT UInt64).clear).median =
      MiscUtils.median (([5, 1, 4, 2] : List UInt64).drop (4 - 3)) :=
  ⟨⟨by decide, by decide⟩, size_median_foldl_insert _ (by decide) _ (by decide)⟩

end RollingMedianT

end MiscUtils

end Wazn
