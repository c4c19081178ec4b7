import Wazn.Analysis.MultiExp

/-!
# `straus` computes the multi-scalar product

`straus` returns `∑ scalarᵢ • pointᵢ` (`naiveMultiexp`) over any commutative monoid of points,
for every list of scalars and points and every band size, with no cache or with a cache built
from a list whose first points are those of the data (`straus_eq_naiveMultiexp`).

It cuts the points into bands. In a band, every window of four bits is summed from the cache of
multiples, and the windows are put together from the top one down with four doublings between
them: Horner's rule in base 16 (`strausBand_eq`). Its cache holds multiple `d` of point `j` at
`j + size * (d - 1)` (`strausInitCache_cacheOffset`).
-/

set_option autoImplicit false

namespace Wazn

namespace Rct

open MultiScalar

variable {G : Type} [AddCommMonoid G]

/-! ## The Straus cache -/

/-- Index `j + N * q` with `j < N` is the index of remainder `j` and quotient `q`. -/
theorem eq_add_mul_iff {N j q x : ℕ} (hj : j < N) : x = j + N * q ↔ x % N = j ∧ x / N = q := by
  constructor
  · rintro rfl
    rw [Nat.add_mul_mod_self_left, Nat.mod_eq_of_lt hj, Nat.add_mul_div_left _ _ (by omega),
      Nat.div_eq_of_lt hj, zero_add]
    exact ⟨rfl, rfl⟩
  · rintro ⟨hm, hd⟩
    rw [← hm, ← hd, Nat.mod_add_div]

/-- Point `j` of `straus_init_cache` writes multiple `q + 1` of its point at `j + size * q`, for
`q < 15`, and nothing else. -/
theorem strausInitPoint_apply {size j : ℕ} (hj : j < size) (P : G) (m : ℕ → G) (x : ℕ) :
    strausInitPoint size j P m x =
      if x % size = j ∧ x / size < 15 then (x / size + 1) • P else m x := by
  unfold strausInitPoint
  -- after the multiples `1` to `k + 1`
  suffices h : ∀ k, ∀ x, (List.range' 2 k).foldl
      (fun m i => Function.update m (j + size * (i - 1)) (P + m (j + size * (i - 1 - 1))))
      (Function.update m (j + size * (1 - 1)) P) x =
      if x % size = j ∧ x / size < k + 1 then (x / size + 1) • P else m x from h 14 x
  intro k
  induction k with
  | zero =>
    intro x
    rw [List.range'_zero, List.foldl_nil, Function.update_apply, Nat.sub_self]
    by_cases hx : x = j + size * 0
    · obtain ⟨hxm, hxd⟩ := (eq_add_mul_iff hj).mp hx
      rw [if_pos hx, if_pos ⟨hxm, by rw [hxd]; exact Nat.zero_lt_one⟩, hxd, zero_add, one_smul]
    · rw [if_neg hx, if_neg fun h => hx ((eq_add_mul_iff hj).mpr ⟨h.1, Nat.lt_one_iff.mp h.2⟩)]
  | succ k ih =>
    intro x
    have hnew : 2 + 1 * k - 1 = k + 1 := by omega
    have hread := (eq_add_mul_iff (q := k) hj).mp rfl
    rw [List.range'_concat, List.foldl_append, List.foldl_cons, List.foldl_nil,
      Function.update_apply, hnew, Nat.add_sub_cancel, ih, hread.1, hread.2,
      if_pos (And.intro rfl (Nat.lt_succ_self k))]
    by_cases hx : x = j + size * (k + 1)
    · obtain ⟨hxm, hxd⟩ := (eq_add_mul_iff hj).mp hx
      rw [if_pos hx, if_pos ⟨hxm, by rw [hxd]; exact Nat.lt_succ_self _⟩, hxd, ← succ_nsmul']
    · rw [if_neg hx, ih x]
      -- below the new multiple, the condition is the old one
      have hiff : (x % size = j ∧ x / size < k + 1) ↔ (x % size = j ∧ x / size < k + 1 + 1) := by
        constructor
        · rintro ⟨h1, h2⟩
          exact ⟨h1, Nat.lt_succ_of_lt h2⟩
        · rintro ⟨h1, h2⟩
          refine ⟨h1, lt_of_le_of_ne (Nat.lt_succ_iff.mp h2) fun he => hx ?_⟩
          exact (eq_add_mul_iff hj).mpr ⟨h1, he⟩
      by_cases hc : x % size = j ∧ x / size < k + 1
      · rw [if_pos hc, if_pos (hiff.mp hc)]
      · rw [if_neg hc, if_neg fun h => hc (hiff.mpr h)]

/-- The loop over the points of `straus_init_cache`, from point `n` on. -/
theorem foldl_strausInitPoint {N : ℕ} :
    ∀ (l : List (MultiexpData G)) (n : ℕ) (m : ℕ → G), n + l.length ≤ N → ∀ x,
      (l.zipIdx n).foldl (fun m x => strausInitPoint N x.2 x.1.point m) m x =
        if n ≤ x % N ∧ x % N < n + l.length ∧ x / N < 15 then
          (x / N + 1) • (l.map (·.point)).getD (x % N - n) 0
        else m x
  | [], n, m, _, x => by
    rw [List.zipIdx_nil, List.foldl_nil, if_neg fun h => by simp at h; omega]
  | a :: l, n, m, hlen, x => by
    rw [List.length_cons] at hlen
    rw [List.zipIdx_cons, List.foldl_cons, foldl_strausInitPoint l (n + 1) _ (by omega),
      strausInitPoint_apply (by omega), List.length_cons, List.map_cons]
    dsimp only
    generalize x % N = r
    generalize x / N = q
    by_cases hl : n + 1 ≤ r ∧ r < n + 1 + l.length ∧ q < 15
    · rw [if_pos hl, if_pos (And.intro (by omega) (And.intro (by omega) hl.2.2)),
        show r - n = r - (n + 1) + 1 by omega, List.getD_cons_succ]
    · rw [if_neg hl]
      by_cases ha : r = n ∧ q < 15
      · rw [if_pos ha, if_pos (And.intro (by omega) (And.intro (by omega) ha.2)), ha.1,
          Nat.sub_self, List.getD_cons_zero]
      · rw [if_neg ha, if_neg fun h => by omega]

/-- `straus_init_cache(base, N)` holds multiple `d` of point `j` of `base` at
`CACHE_OFFSET(cache, j, d)`, for `j` below its size and `d` from 1 to 15. -/
theorem strausInitCache_cacheOffset {base : List (MultiexpData G)} {N : ℕ}
    {cache : StrausCachedData G} (h : strausInitCache base N = .ok cache) :
    cache.size ≤ base.length ∧ ∀ j < cache.size, ∀ d, 1 ≤ d → d < 16 →
      cacheOffset cache j d = d • (base.map (·.point)).getD j 0 := by
  rw [strausInitCache] at h
  generalize (if N = 0 then base.length else N) = N' at h
  by_cases hN : N' ≤ base.length
  · rw [if_pos hN] at h
    cases h
    refine ⟨hN, ?_⟩
    intro j hj d hd1 hd16
    dsimp only at hj
    have hidx := (eq_add_mul_iff (q := d - 1) hj).mp rfl
    have htake : (base.take N').length = N' := List.length_take_of_le hN
    have hin : 0 ≤ j ∧ j < 0 + (base.take N').length ∧ d - 1 < 15 :=
      ⟨Nat.zero_le j, by rw [htake, zero_add]; exact hj, by omega⟩
    rw [cacheOffset]
    dsimp only
    rw [foldl_strausInitPoint _ 0 _ (by rw [htake, zero_add]), hidx.1, hidx.2, if_pos hin,
      Nat.sub_add_cancel hd1, Nat.sub_zero, List.map_take, List.getD_eq_getElem?_getD,
      List.getD_eq_getElem?_getD, List.getElem?_take, if_pos hj]
  · rw [if_neg hN] at h
    cases h

/-! ## Straus -/

/-- A Straus cache that holds the multiples `1` to `15` of every point of `data`. -/
def StrausCachedData.Holds (cache : StrausCachedData G) (data : List (MultiexpData G)) : Prop :=
  ∀ j < data.length, ∀ d, 1 ≤ d → d < 16 → cacheOffset cache j d = d • (data.map (·.point)).getD j 0

/-- Adding one point for the window of digit `m` adds the point times that digit. -/
theorem strausAddPoint_eq {cache : StrausCachedData G} {data : List (MultiexpData G)}
    (hcache : cache.Holds data) (m : ℕ) (band : G) {x : MultiexpData G × ℕ}
    (hx : x ∈ data.zipIdx) :
    strausAddPoint cache m band x = band + (x.1.scalar.toNat / 16 ^ m % 16) • x.1.point := by
  unfold strausAddPoint
  rw [← strausDigit_toNat]
  by_cases hd : strausDigit x.1.scalar m = 0
  · rw [if_neg (not_not.mpr hd), hd, UInt8.toNat_zero, zero_smul, add_zero]
  · have hpos : 1 ≤ (strausDigit x.1.scalar m).toNat := by
      have : (strausDigit x.1.scalar m).toNat ≠ 0 := fun h => hd (UInt8.toNat_inj.mp h)
      omega
    rw [if_pos hd, hcache x.2 (index_lt_of_mem_zipIdx hx) _ hpos (strausDigit_lt _ _),
      getD_point_of_mem_zipIdx hx]

/-- A window added into a band: the points of the band, each times its digit `m`. -/
theorem strausAddWindow_eq {cache : StrausCachedData G} {data : List (MultiexpData G)}
    (hcache : cache.Holds data) (s n m : ℕ) (band : G) :
    strausAddWindow cache data s n m band =
      band + ((((data.zipIdx).drop s).take n).map fun x =>
        (x.1.scalar.toNat / 16 ^ m % 16) • x.1.point).sum := by
  unfold strausAddWindow
  -- the loop over any part of the points, the band generalized
  suffices h : ∀ l : List (MultiexpData G × ℕ), (∀ x ∈ l, x ∈ data.zipIdx) → ∀ band : G,
      l.foldl (strausAddPoint cache m) band =
        band + (l.map fun x => (x.1.scalar.toNat / 16 ^ m % 16) • x.1.point).sum from
    h _ (fun x hx => List.mem_of_mem_drop (List.mem_of_mem_take hx)) band
  intro l
  induction l with
  | nil => intro _ band; simp
  | cons x l ih =>
    intro hl band
    rw [List.foldl_cons, ih (fun y hy => hl y (List.mem_cons_of_mem x hy)),
      strausAddPoint_eq hcache m band (hl x List.mem_cons_self), List.map_cons, List.sum_cons,
      add_assoc]

/-- The loop of a band from window `i` on is Horner's rule in base 16 over the windows below. -/
theorem strausBandLoop_eq (addWindow : ℕ → G → G) (f : ℕ → G)
    (hadd : ∀ w b, addWindow w b = b + f w) (i : ℕ) (band : G) :
    strausBandLoop addWindow i band = horner 16 f (i / 4) band := by
  rw [strausBandLoop]
  by_cases hi : i < 4
  · rw [dif_pos hi, Nat.div_eq_of_lt hi]
    rfl
  · rw [dif_neg hi, strausBandLoop_eq addWindow f hadd (i - 4), hadd, dblTimes_eq,
      show i / 4 = (i - 4) / 4 + 1 by omega, horner]
    rfl
termination_by i
decreasing_by omega

/-- A band is Horner's rule in base 16 over its `start_i / 4` windows. -/
theorem strausBand_eq (startI : ℕ) (addWindow : ℕ → G → G) (f : ℕ → G)
    (hadd : ∀ w b, addWindow w b = b + f w) :
    strausBand startI addWindow = horner 16 f (startI / 4) 0 := by
  unfold strausBand
  split_ifs with h
  · rw [Nat.div_eq_of_lt h]
    rfl
  · have h4 : 4 ≤ startI := Nat.le_of_not_lt h
    rw [strausBandLoop_eq addWindow f hadd, hadd, zero_add,
      show startI / 4 = (startI - 4) / 4 + 1 by omega, horner, smul_zero, zero_add]

/-- A band over points whose scalars are below `2 ^ start_i` is their multi-scalar product. -/
theorem strausBand_addWindow {cache : StrausCachedData G} {data : List (MultiexpData G)}
    (hcache : cache.Holds data) {startI : ℕ} (hstart : startI % 4 = 0)
    (hbound : ∀ x ∈ data.zipIdx, x.1.scalar.toNat < 2 ^ startI) (s n : ℕ) :
    strausBand startI (strausAddWindow cache data s n) =
      ((((data.zipIdx).drop s).take n).map fun x => x.1.scalar.toNat • x.1.point).sum := by
  rw [strausBand_eq startI _ _ fun w b => strausAddWindow_eq hcache s n w b, horner_sum]
  apply congrArg List.sum
  apply List.map_congr_left
  intro x hx
  have hlt : x.1.scalar.toNat < 16 ^ (startI / 4) := by
    rw [show (16 : ℕ) = 2 ^ 4 by norm_num, ← pow_mul, Nat.mul_div_cancel' (Nat.dvd_of_mod_eq_zero hstart)]
    exact hbound x (List.mem_of_mem_drop (List.mem_of_mem_take hx))
  rw [sum_range_pow_mul_div_mod, Nat.mod_eq_of_lt hlt]

/-- The loop over the bands adds the product of each band into the result. -/
theorem strausBands_eq {α : Type} (l : List α) (f : α → G) (bandAt : ℕ → ℕ → G)
    (hband : ∀ s n, bandAt s n = (((l.drop s).take n).map f).sum) {len : ℕ} (hlen : l.length = len)
    (STEP : ℕ) (hSTEP : 0 < STEP) (s : ℕ) (res : G) :
    strausBands bandAt len STEP hSTEP s res = res + ((l.drop s).map f).sum := by
  rw [strausBands]
  split_ifs with hs
  · have htake : (l.drop s).take (min (len - s) STEP) = (l.drop s).take STEP := by
      rw [List.take_eq_take_iff, List.length_drop, hlen]
      omega
    rw [strausBands_eq l f bandAt hband hlen STEP hSTEP (s + STEP), hband, htake, add_assoc,
      ← List.sum_append, ← List.map_append, ← List.drop_drop, List.take_append_drop]
  · rw [List.drop_of_length_le (by omega), List.map_nil, List.sum_nil, add_zero]
termination_by len - s

/-- The cache `straus` reads holds the multiples of the points of `data`: the one it builds, or
one built from a list whose first points are those of `data`. -/
theorem straus_localCache_holds (data : List (MultiexpData G)) (cache : Option (StrausCachedData G))
    (hsize : cache.all (fun c => data.length ≤ c.size) = true)
    (hcache : ∀ c ∈ cache, ∃ base N, strausInitCache base N = .ok c ∧
      ∀ j < data.length, (base.map (·.point)).getD j 0 = (data.map (·.point)).getD j 0) :
    ∃ lc, (match cache with
      | none => strausInitCache data 0
      | some cache => pure cache) = .ok lc ∧ lc.Holds data := by
  cases cache with
  | none =>
    have hinit : strausInitCache data 0 = .ok ⟨data.length, ((data.take data.length).zipIdx).foldl
        (fun m x => strausInitPoint data.length x.2 x.1.point m) fun _ => 0⟩ := by
      rw [strausInitCache, if_pos rfl, if_pos le_rfl]
    refine ⟨_, hinit, ?_⟩
    intro j hj d hd1 hd16
    exact (strausInitCache_cacheOffset hinit).2 j hj d hd1 hd16
  | some c =>
    obtain ⟨base, N, hinit, hpoints⟩ := hcache c rfl
    have hlen : data.length ≤ c.size := by simpa using hsize
    refine ⟨c, rfl, ?_⟩
    intro j hj d hd1 hd16
    rw [(strausInitCache_cacheOffset hinit).2 j (by omega) d hd1 hd16, hpoints j hj]

/-- The bands `straus` runs over a cache of the multiples of the points, with a width that bounds
every scalar and is a multiple of four, add up to the multi-scalar product. -/
theorem strausBands_eq_naiveMultiexp {data : List (MultiexpData G)} {lc : StrausCachedData G}
    (hholds : lc.Holds data) {r : ℕ} (hr : (maxScalar data).toNat < 2 ^ r) (hstart : r % 4 = 0)
    (STEP : ℕ) :
    strausBands (fun startOffset numPoints =>
        strausBand r (strausAddWindow lc data startOffset numPoints))
      data.length (strausStep STEP) (strausStep_pos STEP) 0 0 = naiveMultiexp data := by
  rw [strausBands_eq (data.zipIdx) (fun x => x.1.scalar.toNat • x.1.point) _
      (strausBand_addWindow hholds hstart (scalar_lt_of_maxScalar_lt hr)) List.length_zipIdx,
    zero_add, List.drop_zero, sum_zipIdx_eq_naiveMultiexp]

/-- `straus` computes the multi-scalar product, for every `STEP`, with no cache or with a cache
built by `straus_init_cache` from a list whose first points are those of `data`; a cache smaller
than `data` is refused. -/
theorem straus_eq_naiveMultiexp (data : List (MultiexpData G))
    (cache : Option (StrausCachedData G)) (STEP : ℕ)
    (hcache : ∀ c ∈ cache, ∃ base N, strausInitCache base N = .ok c ∧
      ∀ j < data.length, (base.map (·.point)).getD j 0 = (data.map (·.point)).getD j 0) :
    straus data cache STEP =
      if cache.all (fun c => data.length ≤ c.size) then .ok (naiveMultiexp data)
      else .error "Cache is too small" := by
  obtain ⟨r, hr, hbound, q, hq⟩ := startWindow_spec (maxScalar data) strausC (Nat.zero_lt_succ _) 0
  have hstart : r % 4 = 0 := by rw [hq]; simp
  unfold straus
  by_cases hsize : cache.all (fun c => data.length ≤ c.size) = true
  · obtain ⟨lc, hlc, hholds⟩ := straus_localCache_holds data cache hsize hcache
    rw [if_pos hsize]
    have hbands := strausBands_eq_naiveMultiexp hholds hbound hstart STEP
    cases cache with
    | none =>
      have hlc' : strausInitCache data 0 = .ok lc := hlc
      simp only [hsize, Bool.not_true, Bool.false_eq_true, if_false, hlc', hr, ExceptLoop.ok_bind,
        ExceptLoop.pure_eq_ok, hbands]
    | some c =>
      have hlc' : c = lc := by injection hlc
      subst hlc'
      simp only [hsize, Bool.not_true, Bool.false_eq_true, if_false, hr, ExceptLoop.ok_bind,
        ExceptLoop.pure_eq_ok, hbands]
  · rw [if_neg hsize]
    simp only [Bool.eq_false_iff.mpr hsize, Bool.not_false, if_true]
    rfl

/-- Three points with the one-byte scalars 5, 3 and 1. -/
def threeScalarPoints : List (MultiexpData ℤ) :=
  [⟨.cons 5 (.replicate 31 0), 7⟩, ⟨.cons 3 (.replicate 31 0), 11⟩,
    ⟨.cons 1 (.replicate 31 0), 13⟩]

/-- The three points with no cache, and the first two with a cache built over all three. -/
theorem straus_eq_naiveMultiexp_threeScalarPoints :
    straus threeScalarPoints none 0 =
        (if (none : Option (StrausCachedData ℤ)).all (fun c => threeScalarPoints.length ≤ c.size)
        then .ok (naiveMultiexp threeScalarPoints) else .error "Cache is too small") ∧
      straus (threeScalarPoints.take 2) (strausInitCache threeScalarPoints 0).toOption 1 =
        if (strausInitCache threeScalarPoints 0).toOption.all
          (fun c => (threeScalarPoints.take 2).length ≤ c.size)
        then .ok (naiveMultiexp (threeScalarPoints.take 2)) else .error "Cache is too small" := by
  refine ⟨straus_eq_naiveMultiexp _ none 0 fun c hc => absurd hc (Option.not_mem_none c),
    straus_eq_naiveMultiexp _ _ 1 fun c hc => ⟨threeScalarPoints, 0, ?_, fun j hj => ?_⟩⟩
  · -- the cache is the one `straus_init_cache` built
    cases h : strausInitCache threeScalarPoints 0 with
    | error e =>
      rw [h] at hc
      cases hc
    | ok c' =>
      rw [h] at hc
      cases hc
      rfl
  · obtain rfl | rfl : j = 0 ∨ j = 1 := by
      simp only [List.length_take] at hj
      omega
    · rfl
    · rfl

end Rct

end Wazn
