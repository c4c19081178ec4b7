import Wazn.Analysis.MultiExp

/-!
# `pippenger` computes the multi-scalar product

`pippenger` returns `∑ scalarᵢ • pointᵢ` (`naiveMultiexp`) over any commutative monoid of points,
for every list of scalars and points, every window width `c ≤ 9` (`0` for the default), and with
no cache or with a cache whose first points are those of the data (`pippenger_eq_naiveMultiexp`).

It runs one round per window of `c` bits, from the top one down, with `c` doublings between
them. A round puts each point in the bucket of its digit (`pippengerFill_spec`) and sums the
buckets through the pail (`pippengerPail_round`); the rounds are Horner's rule in base `2 ^ c`
(`pippengerRounds_spec`). The flags `*_init` of the source are the `Option`s of the model, and
every loop is read through `Option.getD 0`, where an unset point counts as the identity.
-/

set_option autoImplicit false

namespace Wazn

namespace Rct

open MultiScalar

variable {G : Type} [AddCommMonoid G]

/-! ## One round -/

/-- One step of the partition adds the point to the bucket of its digit, and never throws: the
check `bucket < (1u<<c)` always holds. -/
theorem pippengerFillStep_spec (cachedPoint : ℕ → G) (c r : ℕ) (buckets : ℕ → Option G)
    (x : MultiexpData G × ℕ) (hx : cachedPoint x.2 = x.1.point) :
    ∃ out, pippengerFillStep cachedPoint c r buckets x = .ok out ∧
      ∀ t, t ≠ 0 → (out t).getD 0 = (buckets t).getD 0 +
        if x.1.scalar.toNat / 2 ^ (r * c) % 2 ^ c = t then x.1.point else 0 := by
  unfold pippengerFillStep
  rw [pippengerBucket_eq]
  have hlt : x.1.scalar.toNat / 2 ^ (r * c) % 2 ^ c < 2 ^ c := Nat.mod_lt _ (by positivity)
  generalize x.1.scalar.toNat / 2 ^ (r * c) % 2 ^ c = b at hlt ⊢
  by_cases h0 : b = 0
  · refine ⟨buckets, by rw [if_pos h0]; rfl, fun t ht => ?_⟩
    rw [if_neg (by omega), add_zero]
  · rw [if_neg h0, if_pos (by rw [Nat.one_shiftLeft]; exact hlt)]
    cases hb : buckets b with
    | some p =>
      refine ⟨_, rfl, fun t _ => ?_⟩
      rw [Function.update_apply]
      by_cases htb : t = b
      · rw [if_pos htb, if_pos htb.symm, htb, hb, hx]
        rfl
      · rw [if_neg htb, if_neg (Ne.symm htb), add_zero]
    | none =>
      refine ⟨_, rfl, fun t _ => ?_⟩
      rw [Function.update_apply]
      by_cases htb : t = b
      · rw [if_pos htb, if_pos htb.symm, htb, hb, Option.getD_none, zero_add]
        rfl
      · rw [if_neg htb, if_neg (Ne.symm htb), add_zero]

/-- The partition of a round never throws, and bucket `t ≠ 0` holds the points whose digit is
`t`. -/
theorem pippengerFill_spec (data : List (MultiexpData G)) (cachedPoint : ℕ → G) (c r : ℕ)
    (hcached : ∀ x ∈ data.zipIdx, cachedPoint x.2 = x.1.point) :
    ∃ buckets, pippengerFill data cachedPoint c r = .ok buckets ∧
      ∀ t, t ≠ 0 → (buckets t).getD 0 =
        bucket data.zipIdx (fun x => x.1.scalar.toNat / 2 ^ (r * c) % 2 ^ c) (·.1.point) t := by
  unfold pippengerFill
  -- the loop over any points whose cached points are theirs, from any buckets
  suffices h : ∀ l : List (MultiexpData G × ℕ), (∀ x ∈ l, cachedPoint x.2 = x.1.point) →
      ∀ init : ℕ → Option G, ∃ out, l.foldlM (pippengerFillStep cachedPoint c r) init = .ok out ∧
        ∀ t, t ≠ 0 → (out t).getD 0 = (init t).getD 0 +
          bucket l (fun x => x.1.scalar.toNat / 2 ^ (r * c) % 2 ^ c) (·.1.point) t by
    obtain ⟨out, hout, hsum⟩ := h _ hcached fun _ => none
    exact ⟨out, hout, fun t ht => by rw [hsum t ht, Option.getD_none, zero_add]⟩
  intro l
  induction l with
  | nil =>
    intro _ init
    exact ⟨init, rfl, fun t _ => by rw [bucket, List.filter_nil, List.map_nil, List.sum_nil,
      add_zero]⟩
  | cons x l ih =>
    intro hl init
    obtain ⟨mid, hmid, hmidv⟩ :=
      pippengerFillStep_spec cachedPoint c r init x (hl x List.mem_cons_self)
    obtain ⟨out, hout, houtv⟩ := ih (fun y hy => hl y (List.mem_cons_of_mem x hy)) mid
    refine ⟨out, by rw [List.foldlM_cons, hmid, ExceptLoop.ok_bind, hout], fun t ht => ?_⟩
    rw [houtv t ht, hmidv t ht, bucket_cons, add_assoc]

theorem getD_addIfInit (acc x : Option G) : (addIfInit acc x).getD 0 = acc.getD 0 + x.getD 0 := by
  cases x with
  | none => rw [addIfInit, Option.getD_none, add_zero]
  | some b => cases acc <;> simp [addIfInit]

/-- The pail loop read through `getD` is the pail of the library over the buckets. -/
theorem pippengerPail_getD (buckets : ℕ → Option G) :
    ∀ n pail result, (pippengerPail buckets n pail result).getD 0 =
      MultiScalar.pail (fun t => (buckets t).getD 0) n (pail.getD 0) (result.getD 0)
  | 0, _, _ => rfl
  | n + 1, p, result => by
    rw [pippengerPail, pippengerPail_getD buckets n, MultiScalar.pail, getD_addIfInit,
      getD_addIfInit, getD_addIfInit]

/-- The buckets of a round summed through the pail: each point times its digit. -/
theorem pippengerPail_round (data : List (MultiexpData G)) (c r : ℕ) (buckets : ℕ → Option G)
    (hbuckets : ∀ t, t ≠ 0 → (buckets t).getD 0 =
      bucket data.zipIdx (fun x => x.1.scalar.toNat / 2 ^ (r * c) % 2 ^ c) (·.1.point) t)
    (result : Option G) :
    (pippengerPail buckets (2 ^ c - 1) none result).getD 0 = result.getD 0 +
      ((data.zipIdx).map fun x => (x.1.scalar.toNat / 2 ^ (r * c) % 2 ^ c) • x.1.point).sum := by
  rw [pippengerPail_getD, pail_eq, Option.getD_none, smul_zero, add_zero,
    sum_smul_eq_sum_buckets _ _ _ (2 ^ c) fun x _ => Nat.mod_lt _ (by positivity)]
  congr 1
  apply Finset.sum_congr rfl
  intro t _
  rw [hbuckets (t + 1) (Nat.succ_ne_zero t)]

/-! ## The rounds -/

theorem getD_map_dblTimes (c : ℕ) (result : Option G) :
    (result.map (dblTimes c)).getD 0 = 2 ^ c • result.getD 0 := by
  cases result with
  | none => rw [Option.map_none, Option.getD_none, smul_zero]
  | some p => rw [Option.map_some, Option.getD_some, Option.getD_some, dblTimes_eq]

/-- The loop over the rounds is Horner's rule in base `2 ^ c` over what each round adds. -/
theorem pippengerRounds_spec (c : ℕ) (round : ℕ → Except String (ℕ → Option G)) (F : ℕ → G)
    (hround : ∀ k, ∃ buckets, round k = .ok buckets ∧ ∀ result : Option G,
      (pippengerPail buckets (2 ^ c - 1) none result).getD 0 = result.getD 0 + F k) :
    ∀ k result, ∃ out, pippengerRounds c round k result = .ok out ∧
      out.getD 0 = horner (2 ^ c) F k (result.getD 0)
  | 0, result => ⟨result, rfl, rfl⟩
  | k + 1, result => by
    obtain ⟨buckets, hb, hpail⟩ := hround k
    obtain ⟨out, hout, hv⟩ := pippengerRounds_spec c round F hround k
      (pippengerPail buckets (2 ^ c - 1) none (result.map (dblTimes c)))
    refine ⟨out, ?_, ?_⟩
    · rw [pippengerRounds, hb, ExceptLoop.ok_bind, hout]
    · rw [hv, hpail, horner, getD_map_dblTimes]

/-- Past its checks and caches, `pippenger` computes the multi-scalar product when the points it
reads are those of `data`. -/
theorem pippengerRun_eq (data : List (MultiexpData G)) (cachedPoint : ℕ → G)
    (hcached : ∀ x ∈ data.zipIdx, cachedPoint x.2 = x.1.point) {c : ℕ} (hc : 0 < c) :
    pippengerRun data cachedPoint c = .ok (naiveMultiexp data) := by
  obtain ⟨r, hr, hbound, -⟩ := startWindow_spec (maxScalar data) 1 Nat.one_pos 0
  -- `(groups + c - 1) / c` windows of `c` bits cover the `groups` bits of the scalars
  have hcover : r ≤ c * ((r + c - 1) / c) := by
    have h1 := Nat.div_add_mod (r + c - 1) c
    have h2 := Nat.mod_lt (r + c - 1) hc
    generalize c * ((r + c - 1) / c) = P at h1 ⊢
    omega
  have hlt : ∀ x ∈ data.zipIdx, x.1.scalar.toNat < (2 ^ c) ^ ((r + c - 1) / c) := by
    intro x hx
    rw [← pow_mul]
    exact lt_of_lt_of_le (scalar_lt_of_maxScalar_lt hbound x hx)
      (Nat.pow_le_pow_right (by norm_num) hcover)
  obtain ⟨out, hout, hv⟩ := pippengerRounds_spec c (pippengerFill data cachedPoint c)
    (fun k => ((data.zipIdx).map fun x => (x.1.scalar.toNat / 2 ^ (k * c) % 2 ^ c) • x.1.point).sum)
    (fun k => by
      obtain ⟨buckets, hb, hbv⟩ := pippengerFill_spec data cachedPoint c k hcached
      exact ⟨buckets, hb, pippengerPail_round data c k buckets hbv⟩)
    ((r + c - 1) / c) none
  unfold pippengerRun
  rw [hr, ExceptLoop.ok_bind]
  dsimp only
  rw [hout, ExceptLoop.ok_bind, hv, Option.getD_none]
  simp_rw [pow_mul']
  rw [horner_sum, ← sum_zipIdx_eq_naiveMultiexp, ExceptLoop.pure_eq_ok]
  congr 1
  apply congrArg List.sum
  apply List.map_congr_left
  intro x hx
  rw [sum_range_pow_mul_div_mod, Nat.mod_eq_of_lt (hlt x hx)]

/-! ## The caches -/

omit [AddCommMonoid G] in
/-- `pippenger_init_cache(data, start_offset)` with `N = 0` caches the points from `start_offset`
on. -/
theorem pippengerInitCache_zero [Add G] [Zero G] (data : List (MultiexpData G)) {s : ℕ} (hs : s ≤ data.length) :
    pippengerInitCache data s 0 = .ok ⟨(data.drop s).map (·.point)⟩ := by
  rw [pippengerInitCache, if_pos hs]
  dsimp only
  rw [if_pos rfl, if_pos le_rfl, List.take_of_length_le (by rw [List.length_drop])]

/-- The second cache `pippenger` builds holds the points from `cache_size` on. -/
theorem pippenger_localCache2 (data : List (MultiexpData G)) (cs : ℕ) :
    ∃ lc2, (if data.length > cs then some <$> pippengerInitCache data cs 0 else pure none) =
        .ok lc2 ∧ ∀ i, cs ≤ i → i < data.length →
      ((lc2.map (·.cached)).getD []).getD (i - cs) 0 = (data.map (·.point)).getD i 0 := by
  by_cases hgt : data.length > cs
  · refine ⟨some ⟨(data.drop cs).map (·.point)⟩, ?_, ?_⟩
    · rw [if_pos hgt, pippengerInitCache_zero data hgt.le]
      rfl
    · intro i hi _
      rw [Option.map_some, Option.getD_some, List.getD_eq_getElem?_getD,
        List.getD_eq_getElem?_getD, List.getElem?_map, List.getElem?_drop, List.getElem?_map,
        Nat.add_sub_cancel' hi]
  · exact ⟨none, by rw [if_neg hgt]; rfl, fun i hi hlen => absurd (lt_of_le_of_lt hi hlen) hgt⟩

/-- The point `pippenger` reads for `data[i]`: from the first cache below `cache_size`, from the
second one from there on. -/
theorem pippenger_cachedPoint {data : List (MultiexpData G)} {lc : PippengerCachedData G}
    {lc2 : Option (PippengerCachedData G)} {cs : ℕ}
    (h1 : ∀ i < data.length, i < cs → lc.cached.getD i 0 = (data.map (·.point)).getD i 0)
    (h2 : ∀ i, cs ≤ i → i < data.length →
      ((lc2.map (·.cached)).getD []).getD (i - cs) 0 = (data.map (·.point)).getD i 0) :
    ∀ x ∈ data.zipIdx, (fun i => if i < cs then lc.cached.getD i 0
      else ((lc2.map (·.cached)).getD []).getD (i - cs) 0) x.2 = x.1.point := by
  intro x hx
  have hlen := index_lt_of_mem_zipIdx hx
  dsimp only
  split_ifs with hi
  · rw [h1 _ hlen hi, getD_point_of_mem_zipIdx hx]
  · rw [h2 _ (Nat.le_of_not_lt hi) hlen, getD_point_of_mem_zipIdx hx]

theorem getPippengerC_pos_le (N : ℕ) : 0 < getPippengerC N ∧ getPippengerC N ≤ 9 := by
  unfold getPippengerC
  split_ifs <;> omega

/-- `pippenger` computes the multi-scalar product, for every window width `c ≤ 9` (`0` for the
default) and every `cache_size` the cache has room for, with no cache or with a cache whose first
points are those of `data`. -/
theorem pippenger_eq_naiveMultiexp (data : List (MultiexpData G))
    (cache : Option (PippengerCachedData G)) (cacheSize c : ℕ) (hc : c ≤ 9)
    (hcache : ∀ pc ∈ cache, cacheSize ≤ pc.size ∧
      ∀ i < data.length, i < pc.size → pc.cached.getD i 0 = (data.map (·.point)).getD i 0) :
    pippenger data cache cacheSize c = .ok (naiveMultiexp data) := by
  have hwidth : (if c = 0 then getPippengerC data.length else c) ≤ 9 ∧
      0 < (if c = 0 then getPippengerC data.length else c) := by
    split_ifs with h0
    · exact ⟨(getPippengerC_pos_le _).2, (getPippengerC_pos_le _).1⟩
    · exact ⟨hc, Nat.pos_of_ne_zero h0⟩
  unfold pippenger
  cases cache with
  | none =>
    obtain ⟨lc2, hlc2, hpts2⟩ := pippenger_localCache2 data cacheSize
    simp only [Option.all_none, Bool.not_true, Bool.false_eq_true, if_false, hwidth.1,
      not_true_eq_false, pippengerInitCache_zero data (Nat.zero_le _), List.drop_zero,
      ExceptLoop.ok_bind, hlc2]
    exact pippengerRun_eq _ _ (pippenger_cachedPoint (fun _ _ _ => rfl) hpts2) hwidth.2
  | some pc =>
    obtain ⟨hroom, hpts⟩ := hcache pc rfl
    -- `cache_size = 0` stands for the whole cache
    have hcs : (if cacheSize = 0 then pc.size else cacheSize) ≤ pc.size := by
      split_ifs <;> omega
    obtain ⟨lc2, hlc2, hpts2⟩ :=
      pippenger_localCache2 data (if cacheSize = 0 then pc.size else cacheSize)
    rw [ExceptLoop.pure_eq_ok] at hlc2
    simp only [Option.all_some, hcs, decide_true, Bool.not_true, Bool.false_eq_true, if_false,
      hwidth.1, not_true_eq_false, ExceptLoop.pure_eq_ok, ExceptLoop.ok_bind, hlc2]
    exact pippengerRun_eq _ _ (pippenger_cachedPoint
      (fun i hi hics => hpts i hi (lt_of_lt_of_le hics hcs)) hpts2) hwidth.2

/-- Three points whose scalars 5, 13 and 5 fall into bucket 5 in the first round of width 3. -/
def sharedBucketPoints : List (MultiexpData ℤ) :=
  [⟨.cons 5 (.replicate 31 0), 7⟩, ⟨.cons 13 (.replicate 31 0), 11⟩,
    ⟨.cons 5 (.replicate 31 0), 13⟩]

theorem pippenger_eq_naiveMultiexp_sharedBucketPoints :
    pippenger sharedBucketPoints (some ⟨[7, 11, 13]⟩) 0 3 = .ok (naiveMultiexp sharedBucketPoints) :=
  pippenger_eq_naiveMultiexp _ (some ⟨[7, 11, 13]⟩) 0 3 (by decide) fun pc hpc => by
    cases hpc
    -- the cache holds the points themselves
    exact ⟨Nat.zero_le _, fun i _ _ => rfl⟩

end Rct

end Wazn
