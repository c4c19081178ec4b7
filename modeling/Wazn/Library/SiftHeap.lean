import Mathlib

/-!
# Sifting in a binary heap

An array heap keeps each of its positions `1, …, m` at least as large as its parent, the parent
of `i` being `i / 2`: position `1` hangs below a root at position `0`, and a position `h ≥ 1`
has the children `2 h` and `2 h + 1`. `Ordered key m` says so of the keys. A key that changes
breaks the order at its position, the hole, which a sift moves down (swapping it with its least
child) or up (swapping it with its parent) until the order holds again. Between two swaps the
order holds but at the hole, and the hole's children are at least its parent: `DownInv` and
`UpInv`. One swap keeps them at the hole's new position (`DownInv.swap`, `UpInv.swap`), and
where the sift stops they give the order back (`DownInv.ordered`, `UpInv.ordered`).

A changed key starts one of them (`Ordered.downInv_of_le`, `Ordered.upInv_of_le`, and
`Ordered.upInv_extend` for a key added at the end), and a root that grows past its child starts
a sift down from position `1` after one swap (`Ordered.downInv_swap_root`). In an ordered heap
the root is below every key, and the key at position `1` below every key after it
(`Ordered.root_le`, `Ordered.one_le`). Swaps move keys between positions and never change
which keys the heap holds (`map_swap_perm`); a key that changes replaces its old value among
them (`map_perm_of_eq_off`).
-/

set_option autoImplicit false

namespace SiftHeap

variable {α : Type} [LinearOrder α]

/-- Each key at the positions `1` to `m` is at least its parent's. -/
def Ordered (key : ℕ → α) (m : ℕ) : Prop :=
  ∀ i, 1 ≤ i → i ≤ m → key (i / 2) ≤ key i

/-- Between two swaps of a sift down at the hole `h`: the pairs below other parents are in
order, and the hole's children are at least the hole's parent. -/
structure DownInv (key : ℕ → α) (m h : ℕ) : Prop where
  except : ∀ i, 1 ≤ i → i ≤ m → i / 2 ≠ h → key (i / 2) ≤ key i
  grand : 1 ≤ h → ∀ c, 1 ≤ c → c ≤ m → c / 2 = h → key (h / 2) ≤ key c

/-- Between two swaps of a sift up at the hole `h`: the pairs at other children are in order,
and the hole's children are at least the hole's parent. -/
structure UpInv (key : ℕ → α) (m h : ℕ) : Prop where
  except : ∀ i, 1 ≤ i → i ≤ m → i ≠ h → key (i / 2) ≤ key i
  grand : 1 ≤ h → ∀ c, 1 ≤ c → c ≤ m → c / 2 = h → key (h / 2) ≤ key c

variable {key : ℕ → α} {m : ℕ}

/-- A heap of the root alone is in order. -/
theorem ordered_zero (key : ℕ → α) : Ordered key 0 := fun _ hi him => absurd him (by omega)

/-- The child a sift down picks, `2 h + 1` when it is in the heap and below `2 h`, is a child
of the hole and at most each of its children. -/
theorem least_child {h c : ℕ} (hcm : 2 * h ≤ m)
    (hc : c = if 2 * h < m ∧ key (2 * h + 1) < key (2 * h) then 2 * h + 1 else 2 * h) :
    c / 2 = h ∧ c ≤ m ∧ ∀ d, 1 ≤ d → d ≤ m → d / 2 = h → key c ≤ key d := by
  split_ifs at hc with hlt
  · subst hc
    refine ⟨by omega, by omega, fun d _ hdm hdh => ?_⟩
    rcases (by omega : d = 2 * h ∨ d = 2 * h + 1) with rfl | rfl
    · exact hlt.2.le
    · exact le_rfl
  · subst hc
    refine ⟨by omega, hcm, fun d _ hdm hdh => ?_⟩
    rcases (by omega : d = 2 * h ∨ d = 2 * h + 1) with rfl | rfl
    · exact le_rfl
    · exact not_lt.mp fun h' => hlt ⟨by omega, h'⟩

/-- A swap of the hole with its least child, when that child is below it, moves the hole down
to the child. -/
theorem DownInv.swap {h c : ℕ} (hinv : DownInv key m h) (hh : 1 ≤ h) (hc : c / 2 = h)
    (hcm : c ≤ m) (hleast : ∀ d, 1 ≤ d → d ≤ m → d / 2 = h → key c ≤ key d)
    (hlt : key c < key h) : DownInv (key ∘ Equiv.swap h c) m c := by
  have hhc : h < c := by omega
  constructor
  · intro i hi him hic
    simp only [Function.comp_apply]
    by_cases hih : i = h
    · -- the hole takes the least child's key, at least the hole's parent
      rw [hih, Equiv.swap_apply_left, Equiv.swap_apply_of_ne_of_ne (by omega) (by omega)]
      exact hinv.grand hh c (by omega) hcm hc
    · by_cases hic' : i = c
      · -- the child takes the hole's key, above its own old key now at the hole
        rw [hic', hc, Equiv.swap_apply_left, Equiv.swap_apply_right]
        exact hlt.le
      · rw [Equiv.swap_apply_of_ne_of_ne hih hic']
        by_cases hph : i / 2 = h
        · -- a sibling of the child: at least the least child
          rw [hph, Equiv.swap_apply_left]
          exact hleast i hi him hph
        · rw [Equiv.swap_apply_of_ne_of_ne hph hic]
          exact hinv.except i hi him hph
  · intro _ d hd hdm hdc
    simp only [Function.comp_apply]
    rw [hc, Equiv.swap_apply_left, Equiv.swap_apply_of_ne_of_ne (by omega) (by omega)]
    -- the new hole's children were in order below the child
    have hdown := hinv.except d hd hdm (by omega)
    rwa [hdc] at hdown

/-- A sift down stops with the heap in order once the hole is at most its children. -/
theorem DownInv.ordered {h : ℕ} (hinv : DownInv key m h)
    (hle : ∀ c, 1 ≤ c → c ≤ m → c / 2 = h → key h ≤ key c) : Ordered key m := by
  intro i hi him
  by_cases hih : i / 2 = h
  · rw [hih]
    exact hle i hi him hih
  · exact hinv.except i hi him hih

/-- A swap of the hole with its parent, when the hole is below it, moves the hole up to the
parent. -/
theorem UpInv.swap {h : ℕ} (hinv : UpInv key m h) (hh : 1 ≤ h) (hhm : h ≤ m)
    (hlt : key h < key (h / 2)) : UpInv (key ∘ Equiv.swap h (h / 2)) m (h / 2) := by
  constructor
  · intro i hi him hiq
    simp only [Function.comp_apply]
    by_cases hih : i = h
    · rw [hih, Equiv.swap_apply_right, Equiv.swap_apply_left]
      exact hlt.le
    · rw [Equiv.swap_apply_of_ne_of_ne hih hiq]
      have hpair := hinv.except i hi him hih
      by_cases hph : i / 2 = h
      · -- a child of the hole: at least the parent's key, which moved to the hole
        rw [hph, Equiv.swap_apply_left]
        exact hinv.grand hh i hi him hph
      · by_cases hpq : i / 2 = h / 2
        · -- a sibling of the hole: above the parent's key, itself above the hole's
          rw [hpq, Equiv.swap_apply_right]
          rw [hpq] at hpair
          exact hlt.le.trans hpair
        · rw [Equiv.swap_apply_of_ne_of_ne hph hpq]
          exact hpair
  · intro hq c hc hcm hcq
    simp only [Function.comp_apply]
    rw [Equiv.swap_apply_of_ne_of_ne (by omega) (by omega)]
    have hup : key (h / 2 / 2) ≤ key (h / 2) := hinv.except (h / 2) hq (by omega) (by omega)
    by_cases hch : c = h
    · rw [hch, Equiv.swap_apply_left]
      exact hup
    · rw [Equiv.swap_apply_of_ne_of_ne hch (by omega)]
      have hpair := hinv.except c hc hcm hch
      rw [hcq] at hpair
      exact hup.trans hpair

/-- A sift up stops with the heap in order at the root, or once the hole is at least its
parent. -/
theorem UpInv.ordered {h : ℕ} (hinv : UpInv key m h) (hstop : 1 ≤ h → key (h / 2) ≤ key h) :
    Ordered key m := by
  intro i hi him
  by_cases hih : i = h
  · rw [hih] at hi ⊢
    exact hstop hi
  · exact hinv.except i hi him hih

/-- Lowering the key at a position of an ordered heap starts a sift up there. -/
theorem Ordered.upInv_of_le {key' : ℕ → α} {h : ℕ} (hord : Ordered key m) (hh : 1 ≤ h)
    (hle : key' h ≤ key h) (hsame : ∀ i, i ≤ m → i ≠ h → key' i = key i) :
    UpInv key' m h := by
  constructor
  · intro i hi him hih
    rw [hsame i him hih]
    by_cases hph : i / 2 = h
    · have hpair := hord i hi him
      rw [hph] at hpair ⊢
      exact hle.trans hpair
    · rw [hsame (i / 2) (by omega) hph]
      exact hord i hi him
  · intro _ c hc hcm hch
    rw [hsame (h / 2) (by omega) (by omega), hsame c hcm (by omega)]
    have hpair := hord c hc hcm
    rw [hch] at hpair
    exact (hord h hh (by omega)).trans hpair

/-- Raising the key at a position of an ordered heap starts a sift down there. -/
theorem Ordered.downInv_of_le {key' : ℕ → α} {h : ℕ} (hord : Ordered key m) (hh : 1 ≤ h)
    (hhm : h ≤ m) (hle : key h ≤ key' h) (hsame : ∀ i, i ≤ m → i ≠ h → key' i = key i) :
    DownInv key' m h := by
  constructor
  · intro i hi him hph
    rw [hsame (i / 2) (by omega) hph]
    by_cases hih : i = h
    · rw [hih]
      exact (hord h hh hhm).trans hle
    · rw [hsame i him hih]
      exact hord i hi him
  · intro _ c hc hcm hch
    rw [hsame (h / 2) (by omega) (by omega), hsame c hcm (by omega)]
    have hpair := hord c hc hcm
    rw [hch] at hpair
    exact (hord h hh hhm).trans hpair

/-- A key added after the last position of an ordered heap starts a sift up there. -/
theorem Ordered.upInv_extend {key' : ℕ → α} (hord : Ordered key m)
    (hsame : ∀ i, i ≤ m → key' i = key i) : UpInv key' (m + 1) (m + 1) := by
  constructor
  · intro i hi him hih
    rw [hsame i (by omega), hsame (i / 2) (by omega)]
    exact hord i hi (by omega)
  · intro _ c _ hcm hch
    -- the new position has no children in the heap
    omega

/-- A heap whose root grew past the key at position `1`, once the two are swapped, starts a
sift down from position `1`. -/
theorem Ordered.downInv_swap_root {key' : ℕ → α} (hord : Ordered key m) (hm : 1 ≤ m)
    (hsame : ∀ i, 1 ≤ i → i ≤ m → key' i = key i) (hlt : key' 1 < key' 0) :
    DownInv (key' ∘ Equiv.swap 1 0) m 1 := by
  constructor
  · intro i hi him hph
    simp only [Function.comp_apply]
    by_cases hi1 : i = 1
    · rw [hi1, show (1 : ℕ) / 2 = 0 from rfl, Equiv.swap_apply_right, Equiv.swap_apply_left]
      exact hlt.le
    · rw [Equiv.swap_apply_of_ne_of_ne (by omega) (by omega),
        Equiv.swap_apply_of_ne_of_ne hi1 (by omega), hsame i hi him,
        hsame (i / 2) (by omega) (by omega)]
      exact hord i hi him
  · intro _ c hc hcm hch
    simp only [Function.comp_apply]
    rw [show (1 : ℕ) / 2 = 0 from rfl, Equiv.swap_apply_right,
      Equiv.swap_apply_of_ne_of_ne (by omega) (by omega), hsame 1 (Nat.le_refl 1) hm, hsame c hc hcm]
    have hpair := hord c hc hcm
    rwa [hch] at hpair

/-- An ordered heap whose root changes to a key at most the one at position `1` stays ordered. -/
theorem Ordered.of_top_le {key' : ℕ → α} (hord : Ordered key m)
    (hsame : ∀ i, 1 ≤ i → i ≤ m → key' i = key i) (hle : 1 ≤ m → key' 0 ≤ key' 1) :
    Ordered key' m := by
  intro i hi him
  by_cases hi1 : i = 1
  · rw [hi1, show (1 : ℕ) / 2 = 0 from rfl]
    exact hle (hi1 ▸ him)
  · rw [hsame i hi him, hsame (i / 2) (by omega) (by omega)]
    exact hord i hi him

/-- The order depends on the keys of the positions up to `m` only. -/
theorem Ordered.congr {key' : ℕ → α} (hord : Ordered key m)
    (hsame : ∀ i, i ≤ m → key' i = key i) : Ordered key' m := by
  intro i hi him
  rw [hsame i him, hsame (i / 2) (by omega)]
  exact hord i hi him

/-- The root of an ordered heap is at most every key. -/
theorem Ordered.root_le (hord : Ordered key m) : ∀ i, i ≤ m → key 0 ≤ key i := by
  intro i
  induction i using Nat.strongRecOn with
  | ind i ih =>
    intro him
    rcases Nat.eq_zero_or_pos i with hi | hi
    · rw [hi]
    · exact (ih (i / 2) (by omega) (by omega)).trans (hord i hi him)

/-- The key at position `1` of an ordered heap is at most every key after it. -/
theorem Ordered.one_le (hord : Ordered key m) : ∀ i, 1 ≤ i → i ≤ m → key 1 ≤ key i := by
  intro i
  induction i using Nat.strongRecOn with
  | ind i ih =>
    intro hi him
    by_cases hi1 : i = 1
    · rw [hi1]
    · exact (ih (i / 2) (by omega) (by omega) (by omega)).trans (hord i hi him)

/-- Reading the keys after a swap of two positions of a list of positions without repeats reads
the same keys in another order. -/
theorem map_swap_perm {β γ : Type} [DecidableEq β] (f : β → γ) {L : List β} (hL : L.Nodup)
    {a b : β} (ha : a ∈ L) (hb : b ∈ L) : (L.map (f ∘ Equiv.swap a b)).Perm (L.map f) := by
  rw [← List.map_map]
  refine List.Perm.map f ?_
  rw [List.perm_ext_iff_of_nodup (hL.map (Equiv.injective _)) hL]
  intro q
  rw [List.mem_map]
  constructor
  · rintro ⟨x, hx, rfl⟩
    rw [Equiv.swap_apply_def]
    split_ifs <;> assumption
  · intro hq
    refine ⟨Equiv.swap a b q, ?_, Equiv.swap_apply_self a b q⟩
    rw [Equiv.swap_apply_def]
    split_ifs <;> assumption

/-- Reading the keys after the key at one position of a list of positions without repeats
changes reads the other keys and the new one. -/
theorem map_perm_of_eq_off {β γ : Type} [DecidableEq β] [DecidableEq γ] {f g : β → γ}
    {L : List β} (hL : L.Nodup) {p : β} (hp : p ∈ L) (hfg : ∀ q ∈ L, q ≠ p → g q = f q) :
    (L.map g).Perm ((L.map f).erase (f p) ++ [g p]) := by
  have hL' := List.perm_cons_erase hp
  -- off `p` the two readings agree
  have hoff : (L.erase p).map g = (L.erase p).map f := by
    apply List.map_congr_left
    intro q hq
    exact hfg q (List.mem_of_mem_erase hq) ((hL.mem_erase_iff).mp hq).1
  have hg : (L.map g).Perm ((L.erase p).map f ++ [g p]) := by
    refine (hL'.map g).trans ?_
    rw [List.map_cons, hoff]
    exact (List.perm_append_singleton _ _).symm
  have hf : ((L.map f).erase (f p)).Perm ((L.erase p).map f) := by
    have herase := (hL'.map f).erase (f p)
    rwa [List.map_cons, List.erase_cons_head] at herase
  exact hg.trans (hf.symm.append_right _)

end SiftHeap
