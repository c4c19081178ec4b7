import Mathlib.Algebra.Group.Defs
import Mathlib.Logic.Function.Basic
import Wazn.Model.RctTypes

/-!
# Multi-scalar multiplication (`src/ringct/multiexp.cc`)

`straus` and `pippenger` compute `∑ scalarᵢ • pointᵢ` over the points of the curve. The
points are modelled over an arbitrary type with an addition and a zero: `ge_add` is `+`, the
identity `ge_p3_identity` is `0`, `ge_p2_dbl` is `p + p`, and the conversions between the
representations `ge_p3`, `ge_p2`, `ge_p1p1` and `ge_cached` are the identity. `ge_p3_tobytes` is
left out: both functions return the point.

The scalars are keys, read byte by byte as the source reads them: `operator<` compares from the
top byte down, `pow2` sets one bit of a zero key, `test` reads one bit, and `straus` cuts each
byte into two nibbles.

The source is compiled with `RAW_MEMORY_BLOCK` and without `ALTERNATE_LAYOUT`, so the Straus
cache is one block of multiples, multiple `d` of point `j` at `j + size * (d - 1)`
(`cacheOffset`). Memory that `aligned_realloc` leaves uninitialized reads as `0`. The table of
digits `straus` fills before its loops is read through `strausDigit`, which computes the same
entry. A `CHECK_AND_ASSERT_THROW_MES` is an `Except.error` with its message.
-/

set_option autoImplicit false

namespace Wazn

namespace Rct

variable {G : Type}

/-- `MultiexpData`: a scalar and the point it multiplies. -/
structure MultiexpData (G : Type) where
  scalar : Key
  point : G

/-- Byte `n` of a key, `k.bytes[n]`. -/
def Key.byte (k : Key) (n : ℕ) : UInt8 := k.toList.getD n 0

/-! ## Keys as scalars -/

/-- The loop of `operator<` over the bytes `n - 1` down to `0`. -/
def keyLtFrom (k0 k1 : Key) : ℕ → Bool
  | 0 => false
  | n + 1 =>
    if k0.byte n < k1.byte n then true
    else if k1.byte n < k0.byte n then false
    else keyLtFrom k0 k1 n

/-- `operator<` on keys: from byte 31 down, the first byte that differs decides. -/
def keyLt (k0 k1 : Key) : Bool := keyLtFrom k0 k1 32

/-- `pow2`: the key with only bit `n` set, bit `n & 7` of byte `n >> 3`. -/
def pow2 (n : ℕ) : Except String Key :=
  if h : n < 256 then
    .ok (Key.zero.set ⟨n >>> 3, by rw [Nat.shiftRight_eq_div_pow]; omega⟩
      (Key.zero.byte (n >>> 3) ||| (1 <<< (n &&& 7) : ℕ).toUInt8))
  else .error "Invalid pow2 argument"

/-- `test`: bit `n` of a key, as the byte masked by the bit; `0` past bit 255. -/
def test (k : Key) (n : ℕ) : ℕ :=
  if n ≥ 256 then 0 else (k.byte (n >>> 3)).toNat &&& (1 <<< (n &&& 7))

/-- The loop `straus` and `pippenger` share that finds the largest scalar by `operator<`. -/
def maxScalar (data : List (MultiexpData G)) : Key :=
  data.foldl (fun maxscalar d => if keyLt maxscalar d.scalar then d.scalar else maxscalar) Key.zero

/-- The loop `while (i < 256 && !(maxscalar < pow2(i))) i += step` that both functions run to find
how many bits the scalars take. -/
def startWindow (maxscalar : Key) (step : ℕ) (hstep : 0 < step) (i : ℕ) : Except String ℕ :=
  if _h : i < 256 then do
    let p ← pow2 i
    if !keyLt maxscalar p then startWindow maxscalar step hstep (i + step) else pure i
  else pure i
termination_by 256 - i

/-- The doubling loop: `ge_p2_dbl` `n` times. -/
def dblTimes [Add G] : ℕ → G → G
  | 0, p => p
  | n + 1, p => dblTimes n (p + p)

/-! ## Straus -/

section Straus

variable [Add G] [Zero G]

/-- `STRAUS_C`, the width of a Straus window. -/
abbrev strausC : ℕ := 4

/-- `straus_cached_data` in the raw memory layout. -/
structure StrausCachedData (G : Type) where
  size : ℕ
  multiples : ℕ → G

/-- `CACHE_OFFSET(cache, point, digit)`. -/
def cacheOffset (cache : StrausCachedData G) (point digit : ℕ) : G :=
  cache.multiples (point + cache.size * (digit - 1))

/-- The body of the loop over the points of `straus_init_cache`: multiple `1` of point `j` is the
point, and multiple `i` is the point plus multiple `i - 1`, for `i` from 2 to 15. -/
def strausInitPoint (size j : ℕ) (P : G) (multiples : ℕ → G) : ℕ → G :=
  (List.range' 2 (2 ^ strausC - 2)).foldl
    (fun m i => Function.update m (j + size * (i - 1)) (P + m (j + size * (i - 1 - 1))))
    (Function.update multiples (j + size * (1 - 1)) P)

/-- `straus_init_cache(data, N)`. The cache is fresh, so its old `size`, the `offset` the loop
starts from, is `0`. -/
def strausInitCache (data : List (MultiexpData G)) (N : ℕ) : Except String (StrausCachedData G) :=
  let N := if N = 0 then data.length else N
  if N ≤ data.length then
    .ok ⟨N, ((data.take N).zipIdx).foldl (fun m x => strausInitPoint N x.2 x.1.point m)
      fun _ => 0⟩
  else .error "Bad cache base data"

/-- Digit `m` of the table `straus` fills from a scalar: the low nibble of byte `m / 2` for even
`m`, the high nibble for odd `m`. -/
def strausDigit (k : Key) (m : ℕ) : UInt8 :=
  if m % 2 = 0 then k.byte (m / 2) &&& 0xf else k.byte (m / 2) >>> 4

/-- The body of the loop over the points of a band, for the window of digit `m`: point `j` is
added as its cached multiple, and only if its digit is not zero. -/
def strausAddPoint (cache : StrausCachedData G) (m : ℕ) (band : G) (x : MultiexpData G × ℕ) : G :=
  let digit := strausDigit x.1.scalar m
  if digit ≠ 0 then band + cacheOffset cache x.2 digit.toNat else band

/-- The points `start_offset` to `start_offset + num_points - 1` added into a band for the window
of digit `m`. -/
def strausAddWindow (cache : StrausCachedData G) (data : List (MultiexpData G))
    (startOffset numPoints m : ℕ) (band : G) : G :=
  (((data.zipIdx).drop startOffset).take numPoints).foldl (strausAddPoint cache m) band

/-- The `while (!(i < STRAUS_C))` loop of a band from `skipfirst` on, after window `i`: four
doublings, then the window below. -/
def strausBandLoop (addWindow : ℕ → G → G) (i : ℕ) (band : G) : G :=
  if _h : i < strausC then band
  else strausBandLoop addWindow (i - strausC)
    (addWindow ((i - strausC) / strausC) (dblTimes strausC band))
termination_by i
decreasing_by
  simp only [strausC] at _h ⊢
  omega

/-- One band: nothing when `start_i < STRAUS_C`; otherwise the jump to `skipfirst` adds the top
window into the identity without doubling, and the loop goes on from there. -/
def strausBand (startI : ℕ) (addWindow : ℕ → G → G) : G :=
  if startI < strausC then 0
  else strausBandLoop addWindow (startI - strausC)
    (addWindow ((startI - strausC) / strausC) 0)

/-- `STEP = STEP ? STEP : 192`. -/
def strausStep (STEP : ℕ) : ℕ := if STEP ≠ 0 then STEP else 192

theorem strausStep_pos (STEP : ℕ) : 0 < strausStep STEP := by
  unfold strausStep
  split_ifs with h <;> omega

/-- The loop over the bands of `STEP` points: each band is added into the result. -/
def strausBands (bandAt : ℕ → ℕ → G) (len STEP : ℕ) (hSTEP : 0 < STEP) (startOffset : ℕ)
    (res : G) : G :=
  if startOffset < len then
    strausBands bandAt len STEP hSTEP (startOffset + STEP)
      (res + bandAt startOffset (min (len - startOffset) STEP))
  else res
termination_by len - startOffset

/-- `straus(data, cache, STEP)`. -/
def straus (data : List (MultiexpData G)) (cache : Option (StrausCachedData G)) (STEP : ℕ) :
    Except String G := do
  if !cache.all (fun cache => data.length ≤ cache.size) then throw "Cache is too small"
  let localCache ← match cache with
    | none => strausInitCache data 0
    | some cache => pure cache
  let startI ← startWindow (maxScalar data) strausC (Nat.zero_lt_succ _) 0
  pure (strausBands
    (fun startOffset numPoints =>
      strausBand startI (strausAddWindow localCache data startOffset numPoints))
    data.length (strausStep STEP) (strausStep_pos STEP) 0 0)

end Straus

/-! ## Pippenger -/

section Pippenger

variable [Add G] [Zero G]

/-- `get_pippenger_c`: the window width for `N` points. -/
def getPippengerC (N : ℕ) : ℕ :=
  if N ≤ 13 then 2
  else if N ≤ 29 then 3
  else if N ≤ 83 then 4
  else if N ≤ 185 then 5
  else if N ≤ 465 then 6
  else if N ≤ 1180 then 7
  else if N ≤ 2295 then 8
  else 9

/-- `pippenger_cached_data`: `size` is the number of cached points. -/
structure PippengerCachedData (G : Type) where
  cached : List G

/-- `cache->size`. -/
def PippengerCachedData.size (cache : PippengerCachedData G) : ℕ := cache.cached.length

/-- `pippenger_init_cache(data, start_offset, N)`. -/
def pippengerInitCache (data : List (MultiexpData G)) (startOffset N : ℕ) :
    Except String (PippengerCachedData G) :=
  if startOffset ≤ data.length then
    let N := if N = 0 then data.length - startOffset else N
    if N ≤ data.length - startOffset then
      .ok ⟨((data.drop startOffset).take N).map (·.point)⟩
    else .error "Bad cache base data"
  else .error "Bad cache base data"

/-- The bucket of a scalar in round `k`: bit `j` is set when `test(scalar, k*c+j)`. -/
def pippengerBucket (k : Key) (c round : ℕ) : ℕ :=
  (List.range c).foldl (fun bucket j => if test k (round * c + j) ≠ 0 then bucket ||| 1 <<< j
    else bucket) 0

/-- The body of the loop that partitions the scalars of round `k` into buckets, a bucket `none`
while its `buckets_init` flag is false. The first point of a bucket is `data[i].point`; later
ones are read from the cache by `cachedPoint`. -/
def pippengerFillStep (cachedPoint : ℕ → G) (c round : ℕ) (buckets : ℕ → Option G)
    (x : MultiexpData G × ℕ) : Except String (ℕ → Option G) :=
  let bucket := pippengerBucket x.1.scalar c round
  if bucket = 0 then pure buckets
  else if bucket < 1 <<< c then
    match buckets bucket with
    | some p => pure (Function.update buckets bucket (some (p + cachedPoint x.2)))
    | none => pure (Function.update buckets bucket (some x.1.point))
  else throw "bucket overflow"

/-- The partition of the scalars of round `k` into buckets. -/
def pippengerFill (data : List (MultiexpData G)) (cachedPoint : ℕ → G) (c round : ℕ) :
    Except String (ℕ → Option G) :=
  (data.zipIdx).foldlM (pippengerFillStep cachedPoint c round) fun _ => none

/-- `if (x_init) { if (acc_init) add(acc, x); else { acc = x; acc_init = true; } }`: a point whose
flag may be false added into an accumulator whose flag may be false. -/
def addIfInit (acc x : Option G) : Option G :=
  match x with
  | some b => some (match acc with | some a => a + b | none => b)
  | none => acc

/-- The loop that sums the buckets `i` down to `1` into `result`, through the running `pail`. -/
def pippengerPail (buckets : ℕ → Option G) : ℕ → Option G → Option G → Option G
  | 0, _, result => result
  | i + 1, pail, result =>
    let pail := addIfInit pail (buckets (i + 1))
    pippengerPail buckets i pail (addIfInit result pail)

/-- The loop over the rounds `k - 1` down to `0`: `c` doublings of the result once it is set,
then the buckets of the round. -/
def pippengerRounds (c : ℕ) (round : ℕ → Except String (ℕ → Option G)) :
    ℕ → Option G → Except String (Option G)
  | 0, result => pure result
  | k + 1, result => do
    let result := result.map (dblTimes c)
    let buckets ← round k
    pippengerRounds c round k (pippengerPail buckets (2 ^ c - 1) none result)

/-- The rounds of `pippenger` and its result, once its caches are set: `cachedPoint i` is the
point `add` reads for `data[i]`. -/
def pippengerRun (data : List (MultiexpData G)) (cachedPoint : ℕ → G) (c : ℕ) :
    Except String G := do
  let groups ← startWindow (maxScalar data) 1 Nat.one_pos 0
  let groups := (groups + c - 1) / c
  let result ← pippengerRounds c (pippengerFill data cachedPoint c) groups none
  pure (result.getD 0)

/-- `pippenger(data, cache, cache_size, c)`. -/
def pippenger (data : List (MultiexpData G)) (cache : Option (PippengerCachedData G))
    (cacheSize c : ℕ) : Except String G := do
  let cacheSize := match cache with
    | some cache => if cacheSize = 0 then cache.size else cacheSize
    | none => cacheSize
  if !cache.all (fun cache => cacheSize ≤ cache.size) then throw "Cache is too small"
  let c := if c = 0 then getPippengerC data.length else c
  if ¬c ≤ 9 then throw "c is too large"
  let localCache ← match cache with
    | none => pippengerInitCache data 0 0
    | some cache => pure cache
  let localCache2 ← (if data.length > cacheSize then some <$> pippengerInitCache data cacheSize 0
    else pure none)
  pippengerRun data
    (fun i => if i < cacheSize then localCache.cached.getD i 0
      else ((localCache2.map (·.cached)).getD []).getD (i - cacheSize) 0)
    c

end Pippenger

end Rct

end Wazn
