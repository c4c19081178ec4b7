import Mathlib
import Wazn.Library.SiftHeap
import Wazn.Model.RollingMedian

/-!
# The heaps of the rolling median

What the sifts of `rolling_median_t` do to its slots. The value at a slot is its key. The slots
`0, 1, …, minCt` are the positions of a min heap (`minKey`), and the slots `0, -1, …, -maxCt`
the positions of a max heap, read in the reversed order (`maxKey`, with keys in `Itemᵒᵈ`): both
are heaps of `SiftHeap`, with the median as their common root.

`mmexchange` swaps two keys (`minKey_mmexchange`, `maxKey_mmexchange`) and keeps `pos` and
`heap` inverse to each other (`Bij.mmexchange`). A sift is a run of such swaps between the slots
of one range (`Exchanged`): the keys outside the range, the fields other than `heap` and `pos`,
and the keys the range holds, up to their order, stay as they were. Each of the four sift loops
restores its heap from the matching invariant of `SiftHeap` (`minSortDownLoop_spec`,
`maxSortDownLoop_spec`, `minSortUpLoop_spec`, `maxSortUpLoop_spec`); the two that sift up also
say what they did to the median.
-/

set_option autoImplicit false

namespace Wazn

namespace MiscUtils

namespace RollingMedianT

open SiftHeap

variable {Item : Type}

/-- The value at slot `p`. -/
def key (s : RollingMedianT Item) (p : ℤ) : Item := s.data (s.heap p)

/-- The keys of the min heap: slot `i` at position `i`. -/
def minKey (s : RollingMedianT Item) (i : ℕ) : Item := s.key i

/-- The keys of the max heap, in the reversed order: slot `-i` at position `i`. -/
def maxKey (s : RollingMedianT Item) (i : ℕ) : Itemᵒᵈ := OrderDual.toDual (s.key (-i))

section Exchange

variable (s : RollingMedianT Item) (a b : ℤ)

@[simp] theorem data_mmexchange : (s.mmexchange a b).data = s.data := rfl
@[simp] theorem N_mmexchange : (s.mmexchange a b).N = s.N := rfl
@[simp] theorem idx_mmexchange : (s.mmexchange a b).idx = s.idx := rfl
@[simp] theorem minCt_mmexchange : (s.mmexchange a b).minCt = s.minCt := rfl
@[simp] theorem maxCt_mmexchange : (s.mmexchange a b).maxCt = s.maxCt := rfl
@[simp] theorem sz_mmexchange : (s.mmexchange a b).sz = s.sz := rfl

theorem heap_mmexchange : (s.mmexchange a b).heap = s.heap ∘ Equiv.swap a b := by
  funext p
  simp only [mmexchange, Function.comp_apply, Function.update_apply, Equiv.swap_apply_def]
  split_ifs <;> simp_all

theorem pos_mmexchange : (s.mmexchange a b).pos =
    Function.update (Function.update s.pos (s.heap b) a) (s.heap a) b := by
  have ha : (s.mmexchange a b).heap a = s.heap b := by
    rw [heap_mmexchange, Function.comp_apply, Equiv.swap_apply_left]
  have hb : (s.mmexchange a b).heap b = s.heap a := by
    rw [heap_mmexchange, Function.comp_apply, Equiv.swap_apply_right]
  show Function.update (Function.update s.pos ((s.mmexchange a b).heap a) a)
    ((s.mmexchange a b).heap b) b = _
  rw [ha, hb]

theorem key_mmexchange : (s.mmexchange a b).key = s.key ∘ Equiv.swap a b := by
  funext p
  simp only [key, Function.comp_apply, data_mmexchange, heap_mmexchange]

end Exchange

theorem minKey_mmexchange (s : RollingMedianT Item) (a b : ℕ) :
    (s.mmexchange a b).minKey = s.minKey ∘ Equiv.swap a b := by
  funext i
  simp only [minKey, Function.comp_apply, key_mmexchange]
  rw [Function.Injective.swap_apply Nat.cast_injective]

theorem maxKey_mmexchange (s : RollingMedianT Item) (a b : ℕ) :
    (s.mmexchange (-a) (-b)).maxKey = s.maxKey ∘ Equiv.swap a b := by
  funext i
  simp only [maxKey, Function.comp_apply, key_mmexchange]
  congr 2
  simp only [Equiv.swap_apply_def, neg_inj, Nat.cast_inj]
  split_ifs <;> rfl

/-- The swap of the median with the top of the max heap, on the max heap's keys. -/
theorem maxKey_mmexchange_zero (s : RollingMedianT Item) :
    (s.mmexchange 0 (-1)).maxKey = s.maxKey ∘ Equiv.swap 1 0 := by
  have hswap := maxKey_mmexchange s 0 1
  rw [Nat.cast_zero, neg_zero, Nat.cast_one] at hswap
  rw [hswap, Equiv.swap_comm]

/-- The swap of the top of the min heap with the median, on the min heap's keys. -/
theorem minKey_mmexchange_one (s : RollingMedianT Item) :
    (s.mmexchange 1 0).minKey = s.minKey ∘ Equiv.swap 1 0 := by
  have hswap := minKey_mmexchange s 1 0
  rwa [Nat.cast_zero, Nat.cast_one] at hswap

theorem maxKey_zero (s : RollingMedianT Item) : s.maxKey 0 = OrderDual.toDual (s.key 0) := by
  simp only [maxKey, Nat.cast_zero, neg_zero]

theorem maxKey_one (s : RollingMedianT Item) : s.maxKey 1 = OrderDual.toDual (s.key (-1)) := by
  simp only [maxKey, Nat.cast_one]

/-- The slots of the heap array of `N` values: `-(N / 2)` to `(N - 1) / 2`. -/
def Slot (N : ℕ) (p : ℤ) : Prop := -((N / 2 : ℕ) : ℤ) ≤ p ∧ p ≤ ((N - 1) / 2 : ℕ)

/-- `pos` and `heap` are inverse to each other between the indexes below `N` and the slots. -/
structure Bij (s : RollingMedianT Item) : Prop where
  pos_slot : ∀ j, j < s.N → Slot s.N (s.pos j)
  heap_pos : ∀ j, j < s.N → s.heap (s.pos j) = j
  heap_lt : ∀ p, Slot s.N p → s.heap p < s.N
  pos_heap : ∀ p, Slot s.N p → s.pos (s.heap p) = p

theorem Bij.heap_inj {s : RollingMedianT Item} (hbij : Bij s) {p q : ℤ} (hp : Slot s.N p)
    (hq : Slot s.N q) (h : s.heap p = s.heap q) : p = q := by
  rw [← hbij.pos_heap p hp, ← hbij.pos_heap q hq, h]

/-- A swap of two slots keeps `pos` and `heap` inverse to each other. -/
theorem Bij.mmexchange {s : RollingMedianT Item} (hbij : Bij s) {a b : ℤ} (ha : Slot s.N a)
    (hb : Slot s.N b) : Bij (s.mmexchange a b) := by
  have hswap : ∀ p, Slot s.N p → Slot s.N (Equiv.swap a b p) := by
    intro p hp
    rw [Equiv.swap_apply_def]
    split_ifs <;> assumption
  constructor
  · intro j hj
    rw [N_mmexchange] at hj ⊢
    rw [pos_mmexchange]
    simp only [Function.update_apply]
    split_ifs
    · exact hb
    · exact ha
    · exact hbij.pos_slot j hj
  · intro j hj
    rw [N_mmexchange] at hj
    rw [pos_mmexchange, heap_mmexchange]
    simp only [Function.update_apply, Function.comp_apply]
    split_ifs with h₁ h₂
    · rw [Equiv.swap_apply_right, h₁]
    · rw [Equiv.swap_apply_left, h₂]
    · -- an index at neither slot keeps its slot
      have hpa : s.pos j ≠ a := fun h => h₁ (by rw [← h, hbij.heap_pos j hj])
      have hpb : s.pos j ≠ b := fun h => h₂ (by rw [← h, hbij.heap_pos j hj])
      rw [Equiv.swap_apply_of_ne_of_ne hpa hpb, hbij.heap_pos j hj]
  · intro p hp
    rw [N_mmexchange] at hp ⊢
    rw [heap_mmexchange, Function.comp_apply]
    exact hbij.heap_lt _ (hswap p hp)
  · intro p hp
    rw [N_mmexchange] at hp
    rw [pos_mmexchange, heap_mmexchange, Function.comp_apply]
    simp only [Function.update_apply]
    have hq := hswap p hp
    split_ifs with h₁ h₂
    · -- the index came from slot `a`, so `p` is `b`
      have hqa := hbij.heap_inj hq ha h₁
      rw [Equiv.swap_apply_eq_iff, Equiv.swap_apply_left] at hqa
      exact hqa.symm
    · have hqb := hbij.heap_inj hq hb h₂
      rw [Equiv.swap_apply_eq_iff, Equiv.swap_apply_right] at hqb
      exact hqb.symm
    · have hpa : p ≠ a := by
        rintro rfl
        exact h₂ (by rw [Equiv.swap_apply_left])
      have hpb : p ≠ b := by
        rintro rfl
        exact h₁ (by rw [Equiv.swap_apply_right])
      rw [Equiv.swap_apply_of_ne_of_ne hpa hpb, hbij.pos_heap p hp]

/-- One swap of two slots from `lo` to `hi`. -/
def ExchangeStep (lo hi : ℤ) (s t : RollingMedianT Item) : Prop :=
  ∃ a b, lo ≤ a ∧ a ≤ hi ∧ lo ≤ b ∧ b ≤ hi ∧ t = s.mmexchange a b

/-- Any number of swaps of slots from `lo` to `hi`. -/
def Exchanged (lo hi : ℤ) : RollingMedianT Item → RollingMedianT Item → Prop :=
  Relation.ReflTransGen (ExchangeStep lo hi)

namespace Exchanged

variable {lo hi : ℤ} {s t u : RollingMedianT Item}

theorem refl : Exchanged lo hi s s := Relation.ReflTransGen.refl

theorem trans (h₁ : Exchanged lo hi s t) (h₂ : Exchanged lo hi t u) : Exchanged lo hi s u :=
  Relation.ReflTransGen.trans h₁ h₂

theorem mmexchange_left {a b : ℤ} (ha : lo ≤ a ∧ a ≤ hi) (hb : lo ≤ b ∧ b ≤ hi)
    (h : Exchanged lo hi (s.mmexchange a b) t) : Exchanged lo hi s t :=
  Relation.ReflTransGen.head ⟨a, b, ha.1, ha.2, hb.1, hb.2, rfl⟩ h

theorem mono {lo' hi' : ℤ} (hlo : lo' ≤ lo) (hhi : hi ≤ hi') (h : Exchanged lo hi s t) :
    Exchanged lo' hi' s t := by
  induction h with
  | refl => exact refl
  | tail _ hstep ih =>
    obtain ⟨a, b, ha, ha', hb, hb', rfl⟩ := hstep
    exact ih.tail ⟨a, b, by omega, by omega, by omega, by omega, rfl⟩

/-- Swaps change `heap` and `pos` only. -/
theorem fields (h : Exchanged lo hi s t) :
    t.data = s.data ∧ t.N = s.N ∧ t.idx = s.idx ∧ t.minCt = s.minCt ∧ t.maxCt = s.maxCt ∧
      t.sz = s.sz := by
  induction h with
  | refl => exact ⟨rfl, rfl, rfl, rfl, rfl, rfl⟩
  | tail _ hstep ih =>
    obtain ⟨a, b, -, -, -, -, rfl⟩ := hstep
    exact ih

theorem data_eq (h : Exchanged lo hi s t) : t.data = s.data := h.fields.1
theorem N_eq (h : Exchanged lo hi s t) : t.N = s.N := h.fields.2.1
theorem idx_eq (h : Exchanged lo hi s t) : t.idx = s.idx := h.fields.2.2.1
theorem minCt_eq (h : Exchanged lo hi s t) : t.minCt = s.minCt := h.fields.2.2.2.1
theorem maxCt_eq (h : Exchanged lo hi s t) : t.maxCt = s.maxCt := h.fields.2.2.2.2.1
theorem sz_eq (h : Exchanged lo hi s t) : t.sz = s.sz := h.fields.2.2.2.2.2

/-- The slots outside the range keep their index. -/
theorem heap_of_not_mem (h : Exchanged lo hi s t) {p : ℤ} (hp : p < lo ∨ hi < p) :
    t.heap p = s.heap p := by
  induction h with
  | refl => rfl
  | tail _ hstep ih =>
    obtain ⟨a, b, ha, ha', hb, hb', rfl⟩ := hstep
    rw [heap_mmexchange, Function.comp_apply,
      Equiv.swap_apply_of_ne_of_ne (by omega) (by omega), ih]

theorem key_of_not_mem (h : Exchanged lo hi s t) {p : ℤ} (hp : p < lo ∨ hi < p) :
    t.key p = s.key p := by
  rw [key, key, h.data_eq, h.heap_of_not_mem hp]

theorem minKey_of_not_mem (h : Exchanged lo hi s t) {i : ℕ} (hi : (i : ℤ) < lo ∨ hi < i) :
    t.minKey i = s.minKey i :=
  h.key_of_not_mem hi

theorem maxKey_of_not_mem (h : Exchanged lo hi s t) {i : ℕ} (hi : -(i : ℤ) < lo ∨ hi < -i) :
    t.maxKey i = s.maxKey i := by
  rw [maxKey, maxKey, h.key_of_not_mem hi]

/-- Swaps of slots keep `pos` and `heap` inverse to each other. -/
theorem bij (h : Exchanged lo hi s t) (hlo : -((s.N / 2 : ℕ) : ℤ) ≤ lo)
    (hhi : hi ≤ ((s.N - 1) / 2 : ℕ)) (hbij : Bij s) : Bij t := by
  induction h with
  | refl => exact hbij
  | tail hst hstep ih =>
    obtain ⟨a, b, ha, ha', hb, hb', rfl⟩ := hstep
    have hN := Exchanged.N_eq hst
    exact ih.mmexchange ⟨by rw [hN]; omega, by rw [hN]; omega⟩
      ⟨by rw [hN]; omega, by rw [hN]; omega⟩

/-- An index at a slot outside the range stays there. -/
theorem pos_of_not_mem (h : Exchanged lo hi s t) (hlo : -((s.N / 2 : ℕ) : ℤ) ≤ lo)
    (hhi : hi ≤ ((s.N - 1) / 2 : ℕ)) (hbij : Bij s) {j : ℕ}
    (hp : s.pos j < lo ∨ hi < s.pos j) : t.pos j = s.pos j := by
  induction h with
  | refl => rfl
  | @tail v w hst hstep ih =>
    obtain ⟨a, b, ha, ha', hb, hb', rfl⟩ := hstep
    have hN := Exchanged.N_eq hst
    have hbu := Exchanged.bij hst hlo hhi hbij
    -- the index at a swapped slot has that slot, which is in the range
    have hslot : ∀ q, lo ≤ q → q ≤ hi → j ≠ v.heap q := fun q hq hq' hjq => by
      have hpos := hbu.pos_heap q ⟨by rw [hN]; omega, by rw [hN]; omega⟩
      rw [← hjq, ih] at hpos
      omega
    rw [pos_mmexchange, Function.update_apply, Function.update_apply,
      if_neg (hslot a ha ha'), if_neg (hslot b hb hb'), ih]

/-- Swaps within a list of slots without repeats only reorder the keys read there. -/
theorem perm (h : Exchanged lo hi s t) {L : List ℤ} (hL : L.Nodup)
    (hmem : ∀ p, lo ≤ p → p ≤ hi → p ∈ L) : (L.map t.key).Perm (L.map s.key) := by
  induction h with
  | refl => exact List.Perm.refl _
  | tail _ hstep ih =>
    obtain ⟨a, b, ha, ha', hb, hb', rfl⟩ := hstep
    rw [key_mmexchange]
    exact (map_swap_perm _ hL (hmem a ha ha') (hmem b hb hb')).trans ih

end Exchanged

/-! ## The capacity stays -/

section Capacity

variable [LT Item] [DecidableLT Item]

@[simp] theorem N_mmCmpExch (s : RollingMedianT Item) (i j : ℤ) : (s.mmCmpExch i j).2.N = s.N := by
  unfold mmCmpExch
  split <;> rfl

@[simp] theorem N_minSortDownLoop : ∀ (fuel : ℕ) (s : RollingMedianT Item) (i : ℤ),
    (s.minSortDownLoop fuel i).N = s.N
  | 0, _, _ => rfl
  | fuel + 1, s, i => by
    unfold minSortDownLoop
    dsimp only
    split_ifs <;> simp only [N_minSortDownLoop fuel, N_mmCmpExch]

@[simp] theorem N_maxSortDownLoop : ∀ (fuel : ℕ) (s : RollingMedianT Item) (i : ℤ),
    (s.maxSortDownLoop fuel i).N = s.N
  | 0, _, _ => rfl
  | fuel + 1, s, i => by
    unfold maxSortDownLoop
    dsimp only
    split_ifs <;> simp only [N_maxSortDownLoop fuel, N_mmCmpExch]

@[simp] theorem N_minSortUpLoop : ∀ (fuel : ℕ) (s : RollingMedianT Item) (i : ℤ),
    (s.minSortUpLoop fuel i).2.N = s.N
  | 0, _, _ => rfl
  | fuel + 1, s, i => by
    unfold minSortUpLoop
    dsimp only
    split_ifs <;> simp only [N_minSortUpLoop fuel, N_mmCmpExch]

@[simp] theorem N_maxSortUpLoop : ∀ (fuel : ℕ) (s : RollingMedianT Item) (i : ℤ),
    (s.maxSortUpLoop fuel i).2.N = s.N
  | 0, _, _ => rfl
  | fuel + 1, s, i => by
    unfold maxSortUpLoop
    dsimp only
    split_ifs <;> simp only [N_maxSortUpLoop fuel, N_mmCmpExch]

end Capacity

section Order

variable [LinearOrder Item]

theorem mmless_natCast (s : RollingMedianT Item) (a b : ℕ) :
    s.mmless a b = decide (s.minKey a < s.minKey b) := rfl

theorem mmless_neg_natCast (s : RollingMedianT Item) (a b : ℕ) :
    s.mmless (-a) (-b) = decide (s.maxKey b < s.maxKey a) := by
  simp only [mmless, maxKey, key, OrderDual.toDual_lt_toDual]

theorem tdiv_two_natCast (a : ℕ) : (a : ℤ).tdiv 2 = ((a / 2 : ℕ) : ℤ) := by
  simp

theorem tdiv_two_neg_natCast (a : ℕ) : (-(a : ℤ)).tdiv 2 = -((a / 2 : ℕ) : ℤ) := by
  simp

/-- A round of the loop of `minSortDown` at the children of the hole `h`: the lesser child
`c` changes place with the hole when it is below it. -/
theorem minSortDownLoop_succ {fuel : ℕ} {s : RollingMedianT Item} {h c : ℕ}
    (hin : 2 * h ≤ s.minCt)
    (hc : c = if 2 * h < s.minCt ∧ s.minKey (2 * h + 1) < s.minKey (2 * h) then 2 * h + 1
      else 2 * h) :
    s.minSortDownLoop (fuel + 1) ((h : ℤ) * 2) =
      if s.minKey c < s.minKey h then (s.mmexchange c h).minSortDownLoop fuel ((c : ℤ) * 2)
      else s := by
  have hchild : (if (h : ℤ) * 2 < s.minCt ∧ s.mmless ((h : ℤ) * 2 + 1) ((h : ℤ) * 2) = true
      then (h : ℤ) * 2 + 1 else (h : ℤ) * 2) = (c : ℤ) := by
    have h₁ : (h : ℤ) * 2 + 1 = ((2 * h + 1 : ℕ) : ℤ) := by push_cast; ring
    have h₂ : (h : ℤ) * 2 = ((2 * h : ℕ) : ℤ) := by push_cast; ring
    rw [h₁, h₂, mmless_natCast, hc]
    split_ifs with hA hB hB
    · rfl
    · exact absurd ⟨by exact_mod_cast hA.1, of_decide_eq_true hA.2⟩ hB
    · exact absurd ⟨by exact_mod_cast hB.1, decide_eq_true hB.2⟩ hA
    · rfl
  have hpar : (c : ℤ).tdiv 2 = h := by
    rw [tdiv_two_natCast, hc]
    split_ifs <;> omega
  rw [minSortDownLoop, if_pos (by omega)]
  dsimp only
  rw [hchild, hpar, mmCmpExch, mmless_natCast]
  by_cases hlt : s.minKey c < s.minKey h
  · simp only [hlt, decide_true, if_true]
  · simp only [hlt, decide_false, Bool.false_eq_true, if_false]

theorem minSortDownLoop_of_lt {fuel : ℕ} {s : RollingMedianT Item} {h : ℕ}
    (hout : s.minCt < 2 * h) : s.minSortDownLoop fuel ((h : ℤ) * 2) = s := by
  cases fuel with
  | zero => rfl
  | succ fuel => rw [minSortDownLoop, if_neg (by omega)]

/-- A round of the loop of `maxSortDown` at the children of the hole `-h`, the mirror image of
`minSortDownLoop_succ`. -/
theorem maxSortDownLoop_succ {fuel : ℕ} {s : RollingMedianT Item} {h c : ℕ}
    (hin : 2 * h ≤ s.maxCt)
    (hc : c = if 2 * h < s.maxCt ∧ s.maxKey (2 * h + 1) < s.maxKey (2 * h) then 2 * h + 1
      else 2 * h) :
    s.maxSortDownLoop (fuel + 1) (-(h : ℤ) * 2) =
      if s.maxKey c < s.maxKey h then
        (s.mmexchange (-h) (-c)).maxSortDownLoop fuel (-(c : ℤ) * 2)
      else s := by
  have hchild : (if -(s.maxCt : ℤ) < -(h : ℤ) * 2 ∧
      s.mmless (-(h : ℤ) * 2) (-(h : ℤ) * 2 - 1) = true
      then -(h : ℤ) * 2 - 1 else -(h : ℤ) * 2) = -(c : ℤ) := by
    have h₁ : -(h : ℤ) * 2 - 1 = -((2 * h + 1 : ℕ) : ℤ) := by push_cast; ring
    have h₂ : -(h : ℤ) * 2 = -((2 * h : ℕ) : ℤ) := by push_cast; ring
    rw [h₁, h₂, mmless_neg_natCast, hc]
    split_ifs with hA hB hB
    · rfl
    · exact absurd ⟨by omega, of_decide_eq_true hA.2⟩ hB
    · exact absurd ⟨by omega, decide_eq_true hB.2⟩ hA
    · rfl
  have hpar : (-(c : ℤ)).tdiv 2 = -(h : ℤ) := by
    rw [tdiv_two_neg_natCast, hc]
    split_ifs <;> omega
  rw [maxSortDownLoop, if_pos (by omega)]
  dsimp only
  rw [hchild, hpar, mmCmpExch, mmless_neg_natCast]
  by_cases hlt : s.maxKey c < s.maxKey h
  · simp only [hlt, decide_true, if_true]
  · simp only [hlt, decide_false, Bool.false_eq_true, if_false]

theorem maxSortDownLoop_of_lt {fuel : ℕ} {s : RollingMedianT Item} {h : ℕ}
    (hout : s.maxCt < 2 * h) : s.maxSortDownLoop fuel (-(h : ℤ) * 2) = s := by
  cases fuel with
  | zero => rfl
  | succ fuel => rw [maxSortDownLoop, if_neg (by omega)]

/-- The loop of `minSortDown` at the children of the hole `h`: with a round left for each level
below the hole, it ends with the min heap in order, having swapped slots from `1` to `minCt`
only. -/
theorem minSortDownLoop_spec : ∀ (fuel : ℕ) (s : RollingMedianT Item) (h : ℕ), 1 ≤ h →
    s.minCt < 2 * h + fuel → DownInv s.minKey s.minCt h →
    Ordered (s.minSortDownLoop fuel ((h : ℤ) * 2)).minKey s.minCt ∧
      Exchanged 1 s.minCt s (s.minSortDownLoop fuel ((h : ℤ) * 2)) := by
  intro fuel
  induction fuel with
  | zero =>
    intro s h hh hfuel hinv
    -- the hole has no children left
    rw [minSortDownLoop_of_lt (by omega)]
    exact ⟨hinv.ordered fun c _ hcm hch => absurd hcm (by omega), Exchanged.refl⟩
  | succ fuel ih =>
    intro s h hh hfuel hinv
    by_cases hin : 2 * h ≤ s.minCt
    · obtain ⟨c, hc⟩ : ∃ c, c = if 2 * h < s.minCt ∧ s.minKey (2 * h + 1) < s.minKey (2 * h)
          then 2 * h + 1 else 2 * h := ⟨_, rfl⟩
      obtain ⟨hch, hcm, hleast⟩ := least_child hin hc
      rw [minSortDownLoop_succ hin hc]
      split_ifs with hlt
      · -- the hole moves down to the lesser child
        have hinv' := hinv.swap hh hch hcm hleast hlt
        rw [Equiv.swap_comm, ← minKey_mmexchange] at hinv'
        obtain ⟨hord, hex⟩ := ih _ _ (by omega) (by simp; omega) hinv'
        exact ⟨hord, Exchanged.mmexchange_left ⟨by omega, by omega⟩ ⟨by omega, by omega⟩ hex⟩
      · -- the hole is at most its lesser child, and so at most both
        exact ⟨hinv.ordered fun d hd hdm hdh => (not_lt.mp hlt).trans (hleast d hd hdm hdh),
          Exchanged.refl⟩
    · rw [minSortDownLoop_of_lt (by omega)]
      exact ⟨hinv.ordered fun c _ hcm hch => absurd hcm (by omega), Exchanged.refl⟩

/-- The loop of `maxSortDown` at the children of the hole `-h`: the mirror image of
`minSortDownLoop_spec`, with slots from `-maxCt` to `-1`. -/
theorem maxSortDownLoop_spec : ∀ (fuel : ℕ) (s : RollingMedianT Item) (h : ℕ), 1 ≤ h →
    s.maxCt < 2 * h + fuel → DownInv s.maxKey s.maxCt h →
    Ordered (s.maxSortDownLoop fuel (-(h : ℤ) * 2)).maxKey s.maxCt ∧
      Exchanged (-s.maxCt) (-1) s (s.maxSortDownLoop fuel (-(h : ℤ) * 2)) := by
  intro fuel
  induction fuel with
  | zero =>
    intro s h hh hfuel hinv
    rw [maxSortDownLoop_of_lt (by omega)]
    exact ⟨hinv.ordered fun c _ hcm hch => absurd hcm (by omega), Exchanged.refl⟩
  | succ fuel ih =>
    intro s h hh hfuel hinv
    by_cases hin : 2 * h ≤ s.maxCt
    · obtain ⟨c, hc⟩ : ∃ c, c = if 2 * h < s.maxCt ∧ s.maxKey (2 * h + 1) < s.maxKey (2 * h)
          then 2 * h + 1 else 2 * h := ⟨_, rfl⟩
      obtain ⟨hch, hcm, hleast⟩ := least_child hin hc
      rw [maxSortDownLoop_succ hin hc]
      split_ifs with hlt
      · have hinv' := hinv.swap hh hch hcm hleast hlt
        rw [← maxKey_mmexchange] at hinv'
        obtain ⟨hord, hex⟩ := ih _ _ (by omega) (by simp; omega) hinv'
        exact ⟨hord, Exchanged.mmexchange_left ⟨by omega, by omega⟩ ⟨by omega, by omega⟩ hex⟩
      · exact ⟨hinv.ordered fun d hd hdm hdh => (not_lt.mp hlt).trans (hleast d hd hdm hdh),
          Exchanged.refl⟩
    · rw [maxSortDownLoop_of_lt (by omega)]
      exact ⟨hinv.ordered fun c _ hcm hch => absurd hcm (by omega), Exchanged.refl⟩

theorem minSortUpLoop_zero (fuel : ℕ) (s : RollingMedianT Item) :
    s.minSortUpLoop fuel 0 = (true, s) := by
  cases fuel <;> rfl

theorem maxSortUpLoop_zero (fuel : ℕ) (s : RollingMedianT Item) :
    s.maxSortUpLoop fuel 0 = (true, s) := by
  cases fuel <;> rfl

/-- A round of the loop of `minSortUp` at the hole `h`: the hole changes place with its parent
when it is below it. -/
theorem minSortUpLoop_succ (fuel : ℕ) (s : RollingMedianT Item) {h : ℕ} (hh : 1 ≤ h) :
    s.minSortUpLoop (fuel + 1) h =
      if s.minKey h < s.minKey (h / 2) then
        (s.mmexchange h ((h / 2 : ℕ) : ℤ)).minSortUpLoop fuel ((h / 2 : ℕ) : ℤ)
      else (false, s) := by
  rw [minSortUpLoop, if_pos (by omega), tdiv_two_natCast]
  dsimp only
  rw [mmCmpExch, mmless_natCast]
  by_cases hlt : s.minKey h < s.minKey (h / 2)
  · simp only [hlt, decide_true, if_true]
  · simp only [hlt, decide_false, Bool.false_eq_true, if_false, Prod.mk.injEq, and_true,
      decide_eq_false_iff_not]
    omega

/-- A round of the loop of `maxSortUp` at the hole `-h`, the mirror image of
`minSortUpLoop_succ`. -/
theorem maxSortUpLoop_succ (fuel : ℕ) (s : RollingMedianT Item) {h : ℕ} (hh : 1 ≤ h) :
    s.maxSortUpLoop (fuel + 1) (-h) =
      if s.maxKey h < s.maxKey (h / 2) then
        (s.mmexchange (-((h / 2 : ℕ) : ℤ)) (-h)).maxSortUpLoop fuel (-((h / 2 : ℕ) : ℤ))
      else (false, s) := by
  rw [maxSortUpLoop, if_pos (by omega), tdiv_two_neg_natCast]
  dsimp only
  rw [mmCmpExch, mmless_neg_natCast]
  by_cases hlt : s.maxKey h < s.maxKey (h / 2)
  · simp only [hlt, decide_true, if_true]
  · simp only [hlt, decide_false, Bool.false_eq_true, if_false, Prod.mk.injEq, and_true,
      decide_eq_false_iff_not]
    omega

/-- The loop of `minSortUp` from the hole `h`: with a round for each level above the hole, it
ends with the min heap in order, the median included, having swapped slots from `0` to `minCt`
only. When it reports that it reached the median, the old median is at slot `1`; when it does
not, the median is as it was. -/
theorem minSortUpLoop_spec : ∀ (fuel : ℕ) (s : RollingMedianT Item) (h : ℕ), 1 ≤ h →
    h ≤ s.minCt → h ≤ fuel → UpInv s.minKey s.minCt h →
    Ordered (s.minSortUpLoop fuel h).2.minKey s.minCt ∧
      Exchanged 0 s.minCt s (s.minSortUpLoop fuel h).2 ∧
      ((s.minSortUpLoop fuel h).1 = true → (s.minSortUpLoop fuel h).2.minKey 1 = s.minKey 0) ∧
      ((s.minSortUpLoop fuel h).1 = false → (s.minSortUpLoop fuel h).2.minKey 0 = s.minKey 0) := by
  intro fuel
  induction fuel with
  | zero =>
    intro s h hh hhm hfuel hinv
    omega
  | succ fuel ih =>
    intro s h hh hhm hfuel hinv
    rw [minSortUpLoop_succ fuel s hh]
    split_ifs with hlt
    · -- the hole moves up to its parent
      have hinv' := hinv.swap hh hhm hlt
      rw [← minKey_mmexchange] at hinv'
      have hex : Exchanged 0 s.minCt s (s.mmexchange h ((h / 2 : ℕ) : ℤ)) :=
        Exchanged.mmexchange_left ⟨by omega, by omega⟩ ⟨by omega, by omega⟩ Exchanged.refl
      by_cases hq : h / 2 = 0
      · -- it reached the median, and the old median moved to slot `1`
        have hh1 : h = 1 := by omega
        have hloop : (s.mmexchange h ((h / 2 : ℕ) : ℤ)).minSortUpLoop fuel ((h / 2 : ℕ) : ℤ) =
            (true, s.mmexchange h ((h / 2 : ℕ) : ℤ)) := by
          rw [hq, Nat.cast_zero, minSortUpLoop_zero]
        rw [hloop]
        refine ⟨hinv'.ordered fun h0 => absurd h0 (by omega), hex, fun _ => ?_,
          fun h' => by simp at h'⟩
        rw [minKey_mmexchange, Function.comp_apply, hq, hh1, Equiv.swap_apply_left]
      · obtain ⟨hord, hex', hroot, hsame⟩ := ih _ (h / 2) (by omega) (by simp; omega) (by omega) hinv'
        -- the first swap is above the median
        have hzero : (s.mmexchange h ((h / 2 : ℕ) : ℤ)).minKey 0 = s.minKey 0 := by
          rw [minKey_mmexchange, Function.comp_apply,
            Equiv.swap_apply_of_ne_of_ne (by omega) (by omega)]
        rw [minCt_mmexchange] at hord hex'
        exact ⟨hord, hex.trans hex', fun h' => (hroot h').trans hzero,
          fun h' => (hsame h').trans hzero⟩
    · exact ⟨hinv.ordered fun _ => not_lt.mp hlt, Exchanged.refl,
        fun h' => by simp at h', fun _ => rfl⟩

/-- The loop of `maxSortUp` from the hole `-h`: the mirror image of `minSortUpLoop_spec`, with
slots from `-maxCt` to `0`. -/
theorem maxSortUpLoop_spec : ∀ (fuel : ℕ) (s : RollingMedianT Item) (h : ℕ), 1 ≤ h →
    h ≤ s.maxCt → h ≤ fuel → UpInv s.maxKey s.maxCt h →
    Ordered (s.maxSortUpLoop fuel (-h)).2.maxKey s.maxCt ∧
      Exchanged (-s.maxCt) 0 s (s.maxSortUpLoop fuel (-h)).2 ∧
      ((s.maxSortUpLoop fuel (-h)).1 = true →
        (s.maxSortUpLoop fuel (-h)).2.maxKey 1 = s.maxKey 0) ∧
      ((s.maxSortUpLoop fuel (-h)).1 = false →
        (s.maxSortUpLoop fuel (-h)).2.maxKey 0 = s.maxKey 0) := by
  intro fuel
  induction fuel with
  | zero =>
    intro s h hh hhm hfuel hinv
    omega
  | succ fuel ih =>
    intro s h hh hhm hfuel hinv
    rw [maxSortUpLoop_succ fuel s hh]
    split_ifs with hlt
    · have hinv' := hinv.swap hh hhm hlt
      rw [Equiv.swap_comm, ← maxKey_mmexchange] at hinv'
      have hex : Exchanged (-s.maxCt) 0 s (s.mmexchange (-((h / 2 : ℕ) : ℤ)) (-h)) :=
        Exchanged.mmexchange_left ⟨by omega, by omega⟩ ⟨by omega, by omega⟩ Exchanged.refl
      by_cases hq : h / 2 = 0
      · have hh1 : h = 1 := by omega
        have hloop : (s.mmexchange (-((h / 2 : ℕ) : ℤ)) (-h)).maxSortUpLoop fuel
            (-((h / 2 : ℕ) : ℤ)) = (true, s.mmexchange (-((h / 2 : ℕ) : ℤ)) (-h)) := by
          rw [hq, Nat.cast_zero, neg_zero, maxSortUpLoop_zero]
        rw [hloop]
        refine ⟨hinv'.ordered fun h0 => absurd h0 (by omega), hex, fun _ => ?_,
          fun h' => by simp at h'⟩
        rw [maxKey_mmexchange, Function.comp_apply, hq, hh1, Equiv.swap_apply_right]
      · obtain ⟨hord, hex', hroot, hsame⟩ :=
          ih _ (h / 2) (by omega) (by simp; omega) (by omega) hinv'
        have hzero : (s.mmexchange (-((h / 2 : ℕ) : ℤ)) (-h)).maxKey 0 = s.maxKey 0 := by
          rw [maxKey_mmexchange, Function.comp_apply,
            Equiv.swap_apply_of_ne_of_ne (by omega) (by omega)]
        rw [maxCt_mmexchange] at hord hex'
        exact ⟨hord, hex.trans hex', fun h' => (hroot h').trans hzero,
          fun h' => (hsame h').trans hzero⟩
    · exact ⟨hinv.ordered fun _ => not_lt.mp hlt, Exchanged.refl,
        fun h' => by simp at h', fun _ => rfl⟩

theorem minSortDown_spec {s : RollingMedianT Item} {h : ℕ} (hh : 1 ≤ h)
    (hinv : DownInv s.minKey s.minCt h) :
    Ordered (s.minSortDown h).minKey s.minCt ∧ Exchanged 1 s.minCt s (s.minSortDown h) :=
  minSortDownLoop_spec (s.minCt + 1) s h hh (by omega) hinv

theorem maxSortDown_spec {s : RollingMedianT Item} {h : ℕ} (hh : 1 ≤ h)
    (hinv : DownInv s.maxKey s.maxCt h) :
    Ordered (s.maxSortDown (-h)).maxKey s.maxCt ∧
      Exchanged (-s.maxCt) (-1) s (s.maxSortDown (-h)) :=
  maxSortDownLoop_spec (s.maxCt + 1) s h hh (by omega) hinv

theorem minSortUp_spec {s : RollingMedianT Item} {h : ℕ} (hh : 1 ≤ h) (hhm : h ≤ s.minCt)
    (hinv : UpInv s.minKey s.minCt h) :
    Ordered (s.minSortUp h).2.minKey s.minCt ∧ Exchanged 0 s.minCt s (s.minSortUp h).2 ∧
      ((s.minSortUp h).1 = true → (s.minSortUp h).2.minKey 1 = s.minKey 0) ∧
      ((s.minSortUp h).1 = false → (s.minSortUp h).2.minKey 0 = s.minKey 0) := by
  simp only [minSortUp, Int.toNat_natCast]
  exact minSortUpLoop_spec h s h hh hhm le_rfl hinv

theorem maxSortUp_spec {s : RollingMedianT Item} {h : ℕ} (hh : 1 ≤ h) (hhm : h ≤ s.maxCt)
    (hinv : UpInv s.maxKey s.maxCt h) :
    Ordered (s.maxSortUp (-h)).2.maxKey s.maxCt ∧
      Exchanged (-s.maxCt) 0 s (s.maxSortUp (-h)).2 ∧
      ((s.maxSortUp (-h)).1 = true → (s.maxSortUp (-h)).2.maxKey 1 = s.maxKey 0) ∧
      ((s.maxSortUp (-h)).1 = false → (s.maxSortUp (-h)).2.maxKey 0 = s.maxKey 0) := by
  simp only [maxSortUp, neg_neg, Int.toNat_natCast]
  exact maxSortUpLoop_spec h s h hh hhm le_rfl hinv

/-- `minSortUp(1)`: one comparison of the top of the min heap with the median. -/
theorem minSortUp_one (s : RollingMedianT Item) :
    s.minSortUp 1 = if s.minKey 1 < s.minKey 0 then (true, s.mmexchange 1 0) else (false, s) := by
  have hstep := minSortUpLoop_succ 0 s (h := 1) le_rfl
  rw [show (1 : ℕ) / 2 = 0 from rfl, Nat.cast_zero, minSortUpLoop_zero, Nat.cast_one] at hstep
  exact hstep

/-- `maxSortUp(-1)`: one comparison of the median with the top of the max heap. -/
theorem maxSortUp_neg_one (s : RollingMedianT Item) :
    s.maxSortUp (-1) =
      if s.maxKey 1 < s.maxKey 0 then (true, s.mmexchange 0 (-1)) else (false, s) := by
  have hstep := maxSortUpLoop_succ 0 s (h := 1) le_rfl
  rw [show (1 : ℕ) / 2 = 0 from rfl, Nat.cast_zero, neg_zero, maxSortUpLoop_zero,
    Nat.cast_one] at hstep
  exact hstep

/-- `mmCmpExch(0, -1)`: the median against the top of the max heap. -/
theorem mmCmpExch_zero_neg_one (s : RollingMedianT Item) :
    s.mmCmpExch 0 (-1) =
      if s.maxKey 1 < s.maxKey 0 then (true, s.mmexchange 0 (-1)) else (false, s) := by
  simp only [mmCmpExch, mmless, maxKey, key, OrderDual.toDual_lt_toDual, decide_eq_true_eq,
    Nat.cast_one, Nat.cast_zero, neg_zero]

/-- `mmCmpExch(1, 0)`: the top of the min heap against the median. -/
theorem mmCmpExch_one_zero (s : RollingMedianT Item) :
    s.mmCmpExch 1 0 = if s.minKey 1 < s.minKey 0 then (true, s.mmexchange 1 0) else (false, s) := by
  simp only [mmCmpExch, mmless, minKey, key, decide_eq_true_eq, Nat.cast_one, Nat.cast_zero]

/-! ## The median between the two heaps -/

/-- A new median sifted into the max heap: when below the top of the max heap, it changes place
with it and sifts down from there. -/
def pushMax (s : RollingMedianT Item) : RollingMedianT Item :=
  if s.maxKey 1 < s.maxKey 0 then (s.mmexchange 0 (-1)).maxSortDown (-1) else s

/-- A new median sifted into the min heap, the mirror image of `pushMax`. -/
def pushMin (s : RollingMedianT Item) : RollingMedianT Item :=
  if s.minKey 1 < s.minKey 0 then (s.mmexchange 1 0).minSortDown 1 else s

theorem pushMax_of_not_lt {s : RollingMedianT Item} (h : ¬s.maxKey 1 < s.maxKey 0) :
    pushMax s = s :=
  if_neg h

theorem pushMin_of_not_lt {s : RollingMedianT Item} (h : ¬s.minKey 1 < s.minKey 0) :
    pushMin s = s :=
  if_neg h

/-- `pushMax` puts back in order a max heap whose root alone changed, and leaves the min heap
below the root as it was; a median that moves down is replaced by the old top. -/
theorem pushMax_spec {s : RollingMedianT Item} {kmax : ℕ → Itemᵒᵈ} (hm : 1 ≤ s.maxCt)
    (hmax : Ordered kmax s.maxCt) (hsame : ∀ i, 1 ≤ i → i ≤ s.maxCt → s.maxKey i = kmax i) :
    Ordered (pushMax s).maxKey s.maxCt ∧ Exchanged (-s.maxCt) 0 s (pushMax s) ∧
      (∀ i : ℕ, 1 ≤ i → (pushMax s).minKey i = s.minKey i) ∧
      (s.maxKey 1 < s.maxKey 0 → (pushMax s).key 0 = s.key (-1)) := by
  by_cases hlt : s.maxKey 1 < s.maxKey 0
  · -- the swap leaves the hole at position `1` of the max heap
    have hdown : DownInv (s.mmexchange 0 (-1)).maxKey (s.mmexchange 0 (-1)).maxCt 1 := by
      rw [maxKey_mmexchange_zero, maxCt_mmexchange]
      exact hmax.downInv_swap_root hm hsame hlt
    obtain ⟨hord, hex⟩ := maxSortDown_spec le_rfl hdown
    rw [maxCt_mmexchange, Nat.cast_one] at hord hex
    rw [pushMax, if_pos hlt]
    refine ⟨hord, Exchanged.mmexchange_left ⟨by omega, le_rfl⟩ ⟨by omega, by omega⟩
      (hex.mono le_rfl (by omega)), fun i hi => ?_, fun _ => ?_⟩
    · rw [minKey, hex.key_of_not_mem (Or.inr (by omega)), key_mmexchange, Function.comp_apply,
        Equiv.swap_apply_of_ne_of_ne (by omega) (by omega)]
      rfl
    · rw [hex.key_of_not_mem (Or.inr (by omega)), key_mmexchange, Function.comp_apply,
        Equiv.swap_apply_left]
  · rw [pushMax_of_not_lt hlt]
    exact ⟨hmax.of_top_le hsame fun _ => not_lt.mp hlt, Exchanged.refl, fun _ _ => rfl,
      fun h => absurd h hlt⟩

/-- `pushMin` puts back in order a min heap whose root alone changed, and leaves the max heap
below the root as it was; a median that moves up is replaced by the old top. -/
theorem pushMin_spec {s : RollingMedianT Item} {kmin : ℕ → Item} (hm : 1 ≤ s.minCt)
    (hmin : Ordered kmin s.minCt) (hsame : ∀ i, 1 ≤ i → i ≤ s.minCt → s.minKey i = kmin i) :
    Ordered (pushMin s).minKey s.minCt ∧ Exchanged 0 s.minCt s (pushMin s) ∧
      (∀ i : ℕ, 1 ≤ i → (pushMin s).maxKey i = s.maxKey i) ∧
      (s.minKey 1 < s.minKey 0 → (pushMin s).key 0 = s.key 1) := by
  by_cases hlt : s.minKey 1 < s.minKey 0
  · have hdown : DownInv (s.mmexchange 1 0).minKey (s.mmexchange 1 0).minCt 1 := by
      rw [minKey_mmexchange_one, minCt_mmexchange]
      exact hmin.downInv_swap_root hm hsame hlt
    obtain ⟨hord, hex⟩ := minSortDown_spec le_rfl hdown
    rw [minCt_mmexchange, Nat.cast_one] at hord hex
    rw [pushMin, if_pos hlt]
    refine ⟨hord, Exchanged.mmexchange_left ⟨by omega, by omega⟩ ⟨le_rfl, by omega⟩
      (hex.mono (by omega) le_rfl), fun i hi => ?_, fun _ => ?_⟩
    · rw [maxKey, hex.key_of_not_mem (Or.inl (by omega)), key_mmexchange, Function.comp_apply,
        Equiv.swap_apply_of_ne_of_ne (by omega) (by omega)]
      rfl
    · rw [hex.key_of_not_mem (Or.inl (by omega)), key_mmexchange, Function.comp_apply,
        Equiv.swap_apply_right]
  · rw [pushMin_of_not_lt hlt]
    exact ⟨hmin.of_top_le hsame fun _ => not_lt.mp hlt, Exchanged.refl, fun _ _ => rfl,
      fun h => absurd h hlt⟩

/-! ## The branches of `insert` that sift up -/

/-- The branch of `insert` for a lowered slot of the min heap: sifted up, and on past the median
into the max heap when it gets there. -/
def minTail (s : RollingMedianT Item) (p : ℤ) : RollingMedianT Item :=
  let r := s.minSortUp p
  if r.1 then
    let c := r.2.mmCmpExch 0 (-1)
    if c.1 then c.2.maxSortDown (-1) else c.2
  else r.2

/-- The branch of `insert` for a raised slot of the max heap, the mirror image of `minTail`; the
min heap may still be empty. -/
def maxTail (s : RollingMedianT Item) (p : ℤ) : RollingMedianT Item :=
  let r := s.maxSortUp p
  if r.1 ∧ 0 < r.2.minCt then
    let c := r.2.mmCmpExch 1 0
    if c.1 then c.2.minSortDown 1 else c.2
  else r.2

/-- The branch of `insert` for a new median: sifted into the max heap, then into the min heap. -/
def rootFix (s : RollingMedianT Item) : RollingMedianT Item :=
  let s : RollingMedianT Item :=
    if 0 < s.maxCt then
      let r := s.maxSortUp (-1)
      if r.1 then r.2.maxSortDown (-1) else r.2
    else s
  if 0 < s.minCt then
    let r := s.minSortUp 1
    if r.1 then r.2.minSortDown 1 else r.2
  else s

theorem minTail_eq (s : RollingMedianT Item) (p : ℤ) :
    minTail s p = if (s.minSortUp p).1 then pushMax (s.minSortUp p).2 else (s.minSortUp p).2 := by
  by_cases hc : (s.minSortUp p).2.maxKey 1 < (s.minSortUp p).2.maxKey 0 <;>
    simp [minTail, mmCmpExch_zero_neg_one, pushMax, hc]

theorem maxTail_eq (s : RollingMedianT Item) (p : ℤ) :
    maxTail s p = if (s.maxSortUp p).1 ∧ 0 < (s.maxSortUp p).2.minCt then
      pushMin (s.maxSortUp p).2 else (s.maxSortUp p).2 := by
  by_cases hc : (s.maxSortUp p).2.minKey 1 < (s.maxSortUp p).2.minKey 0 <;>
    simp [maxTail, mmCmpExch_one_zero, pushMin, hc]

/-- The first half of `rootFix`: `maxSortUp(-1)` is one comparison, so with the sift down after
it, it is `pushMax`. -/
theorem maxSortUp_neg_one_pushMax (s : RollingMedianT Item) :
    (if (s.maxSortUp (-1)).1 then (s.maxSortUp (-1)).2.maxSortDown (-1)
      else (s.maxSortUp (-1)).2) = pushMax s := by
  by_cases hc : s.maxKey 1 < s.maxKey 0 <;> simp [maxSortUp_neg_one, pushMax, hc]

theorem minSortUp_one_pushMin (s : RollingMedianT Item) :
    (if (s.minSortUp 1).1 then (s.minSortUp 1).2.minSortDown 1 else (s.minSortUp 1).2) =
      pushMin s := by
  by_cases hc : s.minKey 1 < s.minKey 0 <;> simp [minSortUp_one, pushMin, hc]

theorem rootFix_eq (s : RollingMedianT Item) :
    rootFix s =
      let u := if 0 < s.maxCt then pushMax s else s
      if 0 < u.minCt then pushMin u else u := by
  simp only [rootFix, maxSortUp_neg_one_pushMax, minSortUp_one_pushMin]

/-- `minTail` from a hole `h` of the min heap that only needs to move up: both heaps end in order,
and only the active slots changed place. -/
theorem minTail_spec {t : RollingMedianT Item} {h : ℕ} (hh : 1 ≤ h) (hhm : h ≤ t.minCt)
    (hm : 1 ≤ t.maxCt) (hup : UpInv t.minKey t.minCt h) (hmax : Ordered t.maxKey t.maxCt) :
    Ordered (minTail t h).minKey t.minCt ∧ Ordered (minTail t h).maxKey t.maxCt ∧
      Exchanged (-t.maxCt) t.minCt t (minTail t h) := by
  obtain ⟨hord, hex, hmoved, hstay⟩ := minSortUp_spec hh hhm hup
  obtain ⟨b, r, hbr⟩ : ∃ b r, t.minSortUp h = (b, r) := ⟨_, _, rfl⟩
  rw [hbr] at hord hex hmoved hstay
  dsimp only at hord hex hmoved hstay
  have hmaxCt : r.maxCt = t.maxCt := hex.maxCt_eq
  -- the max heap below its root is as it was
  have hsame : ∀ i, 1 ≤ i → i ≤ r.maxCt → r.maxKey i = t.maxKey i := fun i hi _ =>
    hex.maxKey_of_not_mem (Or.inl (by omega))
  have hex' : Exchanged (-t.maxCt) t.minCt t r := hex.mono (by omega) le_rfl
  rw [minTail_eq, hbr]
  dsimp only
  cases b with
  | false =>
    -- the median stayed where it was
    rw [if_neg Bool.false_ne_true]
    have hroot : r.maxKey 0 = t.maxKey 0 := by
      rw [maxKey_zero, maxKey_zero]
      exact congrArg OrderDual.toDual (hstay rfl)
    refine ⟨hord, hmax.congr fun i him => ?_, hex'⟩
    rcases Nat.eq_zero_or_pos i with rfl | hi
    · exact hroot
    · exact hsame i hi (by omega)
  | true =>
    -- the median moved up into the min heap, and the new one is pushed into the max heap
    rw [if_pos rfl]
    obtain ⟨hpord, hpex, hpmin, hproot⟩ := pushMax_spec (hmaxCt ▸ hm) (hmaxCt ▸ hmax) hsame
    rw [hmaxCt] at hpord hpex
    refine ⟨hord.of_top_le (fun i hi _ => hpmin i hi) fun hm1 => ?_, hpord,
      hex'.trans (hpex.mono le_rfl (by omega))⟩
    rw [hpmin 1 le_rfl, hmoved rfl]
    by_cases hlt : r.maxKey 1 < r.maxKey 0
    · -- the old top of the max heap is the new median, below the old median
      have htop : t.key (-1) ≤ t.key 0 := by
        have h1 := hmax 1 le_rfl hm
        rwa [show (1 : ℕ) / 2 = 0 from rfl, maxKey_zero, maxKey_one,
          OrderDual.toDual_le_toDual] at h1
      rw [minKey, Nat.cast_zero, hproot hlt, hex.key_of_not_mem (Or.inl (by omega))]
      exact htop
    · rw [pushMax_of_not_lt hlt, ← hmoved rfl]
      exact hord 1 le_rfl hm1

/-- `maxTail` from a hole `h` of the max heap that only needs to move up, the mirror image of
`minTail_spec`. -/
theorem maxTail_spec {t : RollingMedianT Item} {h : ℕ} (hh : 1 ≤ h) (hhm : h ≤ t.maxCt)
    (hup : UpInv t.maxKey t.maxCt h) (hmin : Ordered t.minKey t.minCt) :
    Ordered (maxTail t (-h)).minKey t.minCt ∧ Ordered (maxTail t (-h)).maxKey t.maxCt ∧
      Exchanged (-t.maxCt) t.minCt t (maxTail t (-h)) := by
  obtain ⟨hord, hex, hmoved, hstay⟩ := maxSortUp_spec hh hhm hup
  obtain ⟨b, r, hbr⟩ : ∃ b r, t.maxSortUp (-h) = (b, r) := ⟨_, _, rfl⟩
  rw [hbr] at hord hex hmoved hstay
  dsimp only at hord hex hmoved hstay
  have hminCt : r.minCt = t.minCt := hex.minCt_eq
  -- the min heap above its root is as it was
  have hsame : ∀ i, 1 ≤ i → i ≤ r.minCt → r.minKey i = t.minKey i := fun i hi _ =>
    hex.minKey_of_not_mem (Or.inr (by omega))
  have hex' : Exchanged (-t.maxCt) t.minCt t r := hex.mono le_rfl (by omega)
  rw [maxTail_eq, hbr]
  dsimp only
  by_cases hcase : b = true ∧ 0 < r.minCt
  · -- the median moved down into the max heap, and the new one is pushed into the min heap
    rw [if_pos hcase]
    obtain ⟨hb, hm⟩ := hcase
    obtain ⟨hpord, hpex, hpmax, hproot⟩ := pushMin_spec hm (hminCt ▸ hmin) hsame
    rw [hminCt] at hpord hpex
    refine ⟨hpord, hord.of_top_le (fun i hi _ => hpmax i hi) fun hm1 => ?_,
      hex'.trans (hpex.mono (by omega) le_rfl)⟩
    rw [hpmax 1 le_rfl, hmoved hb]
    by_cases hlt : r.minKey 1 < r.minKey 0
    · -- the old top of the min heap is the new median, above the old median
      have htop : t.key 0 ≤ t.key 1 := hmin 1 le_rfl (by omega)
      rw [maxKey_zero, maxKey_zero, OrderDual.toDual_le_toDual, hproot hlt,
        hex.key_of_not_mem (Or.inr (by omega))]
      exact htop
    · rw [pushMin_of_not_lt hlt, ← hmoved hb]
      exact hord 1 le_rfl hm1
  · rw [if_neg hcase]
    refine ⟨?_, hord, hex'⟩
    by_cases hb : b = true
    · -- an empty min heap is in order
      have hzero : t.minCt = 0 := by
        simp only [hb, true_and, not_lt] at hcase
        omega
      rw [hzero]
      exact ordered_zero _
    · -- the median stayed where it was
      have hroot : r.minKey 0 = t.minKey 0 := by
        have h0 := hstay (by simpa using hb)
        rw [maxKey_zero, maxKey_zero] at h0
        exact OrderDual.toDual.injective h0
      apply hmin.congr
      intro i him
      rcases Nat.eq_zero_or_pos i with rfl | hi
      · exact hroot
      · exact hsame i hi (by omega)

/-- `rootFix` after a new median: both heaps end in order, given that below their roots they are
as they were (`kmin`, `kmax`), and that the top of the max heap is at most the top of the min
heap. -/
theorem rootFix_spec {t : RollingMedianT Item} {kmin : ℕ → Item} {kmax : ℕ → Itemᵒᵈ}
    (hmin : Ordered kmin t.minCt) (hminsame : ∀ i, 1 ≤ i → i ≤ t.minCt → t.minKey i = kmin i)
    (hmax : Ordered kmax t.maxCt) (hmaxsame : ∀ i, 1 ≤ i → i ≤ t.maxCt → t.maxKey i = kmax i)
    (hcross : 1 ≤ t.maxCt → 1 ≤ t.minCt → t.key (-1) ≤ t.key 1) :
    Ordered (rootFix t).minKey t.minCt ∧ Ordered (rootFix t).maxKey t.maxCt ∧
      Exchanged (-t.maxCt) t.minCt t (rootFix t) := by
  rw [rootFix_eq]
  dsimp only
  obtain ⟨u, hu⟩ : ∃ u, u = if 0 < t.maxCt then pushMax t else t := ⟨_, rfl⟩
  rw [← hu]
  -- first the max heap: the median is left as it was or replaced by the old top
  have hA : Ordered u.maxKey t.maxCt ∧ Exchanged (-t.maxCt) 0 t u ∧
      (∀ i : ℕ, 1 ≤ i → u.minKey i = t.minKey i) ∧
      (u = t ∨ u.key 0 = t.key (-1) ∧ 1 ≤ t.maxCt) := by
    by_cases hm : 0 < t.maxCt
    · rw [if_pos hm] at hu
      subst hu
      obtain ⟨hord, hex, hsame, hroot⟩ := pushMax_spec hm hmax hmaxsame
      refine ⟨hord, hex, hsame, ?_⟩
      by_cases hlt : t.maxKey 1 < t.maxKey 0
      · exact Or.inr ⟨hroot hlt, hm⟩
      · exact Or.inl (pushMax_of_not_lt hlt)
    · rw [if_neg hm] at hu
      rw [hu]
      have hzero : t.maxCt = 0 := by omega
      exact ⟨hzero ▸ ordered_zero _, Exchanged.refl, fun _ _ => rfl, Or.inl rfl⟩
  obtain ⟨hAord, hAex, hAmin, hAroot⟩ := hA
  have huminCt : u.minCt = t.minCt := hAex.minCt_eq
  -- then the min heap
  by_cases hm : 0 < u.minCt
  · rw [if_pos hm]
    have hsame : ∀ i, 1 ≤ i → i ≤ u.minCt → u.minKey i = kmin i := fun i hi him => by
      rw [hAmin i hi]
      exact hminsame i hi (by omega)
    obtain ⟨hord, hex, hmax', hroot⟩ := pushMin_spec hm (huminCt ▸ hmin) hsame
    rw [huminCt] at hord hex
    refine ⟨hord, hAord.of_top_le (fun i hi _ => hmax' i hi) fun hm1 => ?_,
      (hAex.mono le_rfl (by omega)).trans (hex.mono (by omega) le_rfl)⟩
    by_cases hlt : u.minKey 1 < u.minKey 0
    · -- the median moved up: the two tops stay apart
      rw [hmax' 1 le_rfl, maxKey_zero, maxKey_one, OrderDual.toDual_le_toDual, hroot hlt]
      rcases hAroot with hut | ⟨hroot0, _⟩
      · rw [hut]
        exact hcross hm1 (by omega)
      · -- a median from the max heap is at most the top of the min heap, so it never moves up
        have hle : u.key 0 ≤ u.key 1 := by
          rw [hroot0]
          have h1 := hAmin 1 le_rfl
          rw [minKey, minKey, Nat.cast_one] at h1
          rw [h1]
          exact hcross hm1 (by omega)
        exact absurd hlt (not_lt.mpr hle)
    · rw [pushMin_of_not_lt hlt]
      exact hAord 1 le_rfl hm1
  · rw [if_neg hm]
    have hzero : t.minCt = 0 := by omega
    exact ⟨hzero ▸ ordered_zero _, hAord, hAex.mono le_rfl (by omega)⟩

end Order

end RollingMedianT

end MiscUtils

end Wazn
