import Wazn.Model.Base58
import Wazn.Library.Radix
import Wazn.Library.Blocks

/-!
# Base58 decodes what it encodes, and encodes what it decodes

A block of `k` bytes is a number below `256 ^ k`, and its `encoded_block_sizes[k]`
letters are the base-58 field of that number (`encodeBlock_eq`): the table leaves room
for every value (`pow_le_encodedBlockSizes`), so the loop of `encode_block` never runs
past the front of its slice. The loop of `decode_block` reads the field back, and its two
overflow checks together refuse exactly the values that do not fit in the block's bytes
(`decodeBlock_eq`). Both directions hold block by block (`decodeBlock_encodeBlock`,
`encodeBlock_of_decodeBlock`), and the cutting into blocks of 8 bytes and of 11 letters
lines up because a partial block has fewer than 11 letters (`encodedBlockSizes_lt`).

The result, `decode_eq_some_iff_encode`, is that `decode` is the inverse of `encode` on
all byte strings: it accepts exactly the strings `encode` produces.
-/

set_option autoImplicit false

namespace Wazn

namespace Base58

/-! ## The tables -/

theorem alphabetSize_eq : alphabetSize = 58 := by decide

theorem alphabet_length : alphabet.length = 58 := alphabetSize_eq

theorem fullBlockSize_eq : fullBlockSize = 8 := rfl

theorem fullEncodedBlockSize_eq : fullEncodedBlockSize = 11 := rfl

theorem alphabet_nodup : alphabet.Nodup := by decide

/-- A digit's letter reads back as the digit. -/
theorem reverseAlphabet_getD {d : ℕ} (hd : d < 58) :
    reverseAlphabet (alphabet.getD d 0) = some d := by
  have hlen : d < alphabet.length := by rw [alphabet_length]; exact hd
  rw [reverseAlphabet, List.idxOf?_eq_some_iff, List.getD_eq_getElem _ _ hlen]
  refine ⟨hlen, rfl, fun j hj heq => ?_⟩
  have : j = d := (alphabet_nodup.getElem_inj_iff).1 heq
  omega

/-- A letter that reads back as a digit is that digit's letter. -/
theorem reverseAlphabet_eq_some {c : UInt8} {d : ℕ} (h : reverseAlphabet c = some d) :
    d < 58 ∧ alphabet.getD d 0 = c := by
  obtain ⟨hd, hc, -⟩ := List.idxOf?_eq_some_iff.1 h
  exact ⟨alphabet_length ▸ hd, by rw [List.getD_eq_getElem _ _ hd, hc]⟩

theorem decodedBlockSizes_encodedBlockSizes :
    ∀ k ≤ 8, decodedBlockSizes (encodedBlockSizes.getD k 0) = some k := by
  decide
theorem decodedBlockSizes_eq_some {n k : ℕ} (h : decodedBlockSizes n = some k) :
    k ≤ 8 ∧ encodedBlockSizes.getD k 0 = n := by
  obtain ⟨hk, hn, -⟩ := List.idxOf?_eq_some_iff.1 h
  have hk9 : k < 9 := hk
  exact ⟨by omega, by rw [List.getD_eq_getElem _ _ hk, hn]⟩

/-- The letters of a block of `k` bytes have room for every value of `k` bytes. -/
theorem pow_le_encodedBlockSizes : ∀ k ≤ 8, 256 ^ k ≤ 58 ^ encodedBlockSizes.getD k 0 := by
  decide
/-- A partial block has fewer letters than a full one. -/
theorem encodedBlockSizes_lt : ∀ k < 8, encodedBlockSizes.getD k 0 < 11 := by decide

theorem encodedBlockSizes_le : ∀ k ≤ 8, encodedBlockSizes.getD k 0 ≤ 11 := by decide

theorem encodedBlockSizes_pos : ∀ k ≤ 8, 0 < k → 0 < encodedBlockSizes.getD k 0 := by decide

/-! ## Blocks as numbers -/

theorem uint8beTo64_lt (data : List UInt8) : uint8beTo64 data < 256 ^ data.length := by
  have hlt : ∀ x ∈ data.reverse.map UInt8.toNat, x < 256 := by
    intro x hx
    obtain ⟨c, -, rfl⟩ := List.mem_map.1 hx
    exact UInt8.toNat_lt c
  have := Nat.ofDigits_lt_base_pow_length (by norm_num) hlt
  rwa [List.length_map, List.length_reverse] at this

@[simp] theorem uint64To8be_length (num size : ℕ) : (uint64To8be num size).length = size := by
  rw [uint64To8be, List.length_map, List.length_reverse,
    Nat.length_digitsAppend (by norm_num) _ (Nat.mod_lt _ (by positivity))]

/-- Writing the low bytes of a number and reading them back keeps it modulo their range. -/
theorem uint8beTo64_uint64To8be (num size : ℕ) :
    uint8beTo64 (uint64To8be num size) = num % 256 ^ size := by
  have hbytes : (Nat.digitsAppend 256 size (num % 256 ^ size)).map (UInt8.toNat ∘ UInt8.ofNat) =
      Nat.digitsAppend 256 size (num % 256 ^ size) := by
    conv_rhs => rw [← List.map_id (Nat.digitsAppend 256 size (num % 256 ^ size))]
    refine List.map_congr_left fun x hx => ?_
    rw [Function.comp_apply, UInt8.toNat_ofNat',
      Nat.mod_eq_of_lt (Nat.lt_of_mem_digitsAppend (by norm_num) _ x hx), id]
  simp only [uint8beTo64, uint64To8be, List.map_reverse, List.reverse_reverse, List.map_map]
  rw [hbytes, Radix.ofDigits_digitsAppend]

/-- Reading a block as a number and writing it back gives the block. -/
theorem uint64To8be_uint8beTo64 (data : List UInt8) :
    uint64To8be (uint8beTo64 data) data.length = data := by
  have hlt : ∀ x ∈ data.reverse.map UInt8.toNat, x < 256 := by
    intro x hx
    obtain ⟨c, -, rfl⟩ := List.mem_map.1 hx
    exact UInt8.toNat_lt c
  have hlen : data.length = (data.reverse.map UInt8.toNat).length := by simp
  rw [uint64To8be, Nat.mod_eq_of_lt (uint8beTo64_lt data), uint8beTo64, hlen,
    Radix.digitsAppend_ofDigits (by norm_num) hlt]
  simp only [List.map_reverse, List.reverse_reverse, List.map_map]
  conv_rhs => rw [← List.map_id data]
  exact List.map_congr_left fun c _ => UInt8.ofNat_toNat

/-! ## Encoding a block -/

/-- The loop of `encode_block` writes the base-58 field of `num`, most significant digit
first, over a slice of `alphabet[0]`, the letter of the digit 0, when the field is wide
enough for `num`; it stops with `num = 0`, never at the front of the slice. -/
theorem encodeBlockLoop_eq : ∀ (k num : ℕ) (rest : List UInt8), num < 58 ^ k →
    encodeBlockLoop k num (List.replicate k (alphabet.getD 0 0) ++ rest) =
      (Nat.digitsAppend 58 k num).reverse.map (fun d => alphabet.getD d 0) ++ rest
  | 0, num, rest, hn => by
    obtain rfl : num = 0 := by simpa using hn
    rw [Radix.digitsAppend_zero_right]
    rfl
  | k + 1, num, rest, hn => by
    rw [Radix.digitsAppend_succ (by norm_num) hn, encodeBlockLoop]
    rcases Nat.eq_zero_or_pos num with rfl | hpos
    · -- nothing is left to write: the slice already holds the zeros
      rw [if_neg (lt_irrefl 0), Nat.zero_mod, Nat.zero_div, Radix.digitsAppend_zero_right,
        ← List.replicate_succ, List.reverse_replicate, List.map_replicate]
    · -- the lowest digit goes to position `k`, the rest to its left
      have hdiv : num / 58 < 58 ^ k := by
        rw [Nat.div_lt_iff_lt_mul (by norm_num), ← pow_succ]
        exact hn
      have hset : (List.replicate (k + 1) (alphabet.getD 0 0) ++ rest).set k
            (alphabet.getD (num % 58) 0) =
          List.replicate k (alphabet.getD 0 0) ++ (alphabet.getD (num % 58) 0 :: rest) := by
        rw [List.replicate_succ', List.append_assoc, List.set_append_right _ _ (by simp),
          List.length_replicate, Nat.sub_self, List.singleton_append, List.set_cons_zero]
      rw [if_pos hpos, alphabetSize_eq, hset, encodeBlockLoop_eq k (num / 58) _ hdiv,
        List.reverse_cons, List.map_append, List.append_assoc]
      rfl

/-- `encode_block` writes the base-58 field of the block's value, as wide as the table
says. -/
theorem encodeBlock_eq {block : List UInt8} (h8 : block.length ≤ 8) :
    encodeBlock block =
      (Nat.digitsAppend 58 (encodedBlockSizes.getD block.length 0) (uint8beTo64 block)).reverse.map
        fun d => alphabet.getD d 0 := by
  have hfit : uint8beTo64 block < 58 ^ encodedBlockSizes.getD block.length 0 :=
    lt_of_lt_of_le (uint8beTo64_lt block) (pow_le_encodedBlockSizes _ h8)
  have hloop := encodeBlockLoop_eq _ _ [] hfit
  rw [List.append_nil, List.append_nil] at hloop
  exact hloop

theorem encodeBlock_length {block : List UInt8} (h8 : block.length ≤ 8) :
    (encodeBlock block).length = encodedBlockSizes.getD block.length 0 := by
  have hfit : uint8beTo64 block < 58 ^ encodedBlockSizes.getD block.length 0 :=
    lt_of_lt_of_le (uint8beTo64_lt block) (pow_le_encodedBlockSizes _ h8)
  rw [encodeBlock_eq h8, List.length_map, List.length_reverse,
    Nat.length_digitsAppend (by norm_num) _ hfit]

/-! ## Decoding a block -/

/-- One iteration of the loop of `decode_block` at the `i`-th letter from the right, where
`order` is `58 ^ i`: the carry test and the high half of `mul128` together refuse exactly a
sum that does not fit in 64 bits. -/
theorem decodeBlockStep_eq {r i : ℕ} (hr : r < 2 ^ 64) (hi : i ≤ 10) (c : UInt8) :
    decodeBlockStep (r, 58 ^ i % 2 ^ 64) c =
      (reverseAlphabet c).bind fun d =>
        if r + 58 ^ i * d < 2 ^ 64 then some (r + 58 ^ i * d, 58 ^ (i + 1) % 2 ^ 64) else none := by
  have horder : 58 ^ i % 2 ^ 64 = 58 ^ i :=
    Nat.mod_eq_of_lt (lt_of_le_of_lt (Nat.pow_le_pow_right (by norm_num) hi) (by norm_num))
  unfold decodeBlockStep
  cases reverseAlphabet c with
  | none => rfl
  | some d =>
    dsimp only [Option.bind_some]
    rw [horder, alphabetSize_eq, ← pow_succ]
    generalize 58 ^ i * d = p
    by_cases hp : r + p < 2 ^ 64
    · rw [if_pos hp, if_neg (by omega), show (r + p % 2 ^ 64) % 2 ^ 64 = r + p by omega]
    · rw [if_neg hp, if_pos (by omega)]

/-- The loop of `decode_block`, from the `i`-th letter from the right on, adds the value of
the letters' field times `58 ^ i` to `res_num`, and fails exactly on an unknown letter or
when the total does not fit in 64 bits: the partial sums only grow, so one that overflows
makes the total overflow. -/
theorem foldlM_decodeBlockStep : ∀ (l : List UInt8) (i r : ℕ), i + l.length ≤ 11 → r < 2 ^ 64 →
    l.foldlM decodeBlockStep (r, 58 ^ i % 2 ^ 64) =
      (l.mapM reverseAlphabet).bind fun ds =>
        if r + 58 ^ i * Nat.ofDigits 58 ds < 2 ^ 64 then
          some (r + 58 ^ i * Nat.ofDigits 58 ds, 58 ^ (i + l.length) % 2 ^ 64)
        else none
  | [], i, r, _, hr => by
    simp only [List.foldlM_nil, List.mapM_nil, Option.pure_def, Option.bind_some,
      Nat.ofDigits_nil, Nat.mul_zero, Nat.add_zero, List.length_nil, hr, ite_true]
  | c :: l, i, r, hl, hr => by
    rw [List.length_cons] at hl
    rw [List.foldlM_cons, decodeBlockStep_eq hr (by omega), List.mapM_cons]
    cases reverseAlphabet c with
    | none => rfl
    | some d =>
      simp only [Option.bind_eq_bind, Option.bind_some, Option.pure_def]
      by_cases hd : r + 58 ^ i * d < 2 ^ 64
      · rw [if_pos hd, Option.bind_some, foldlM_decodeBlockStep l (i + 1) _ (by omega) hd]
        cases l.mapM reverseAlphabet with
        | none => rfl
        | some ds =>
          have hsum : r + 58 ^ i * d + 58 ^ (i + 1) * Nat.ofDigits 58 ds =
              r + 58 ^ i * Nat.ofDigits 58 (d :: ds) := by
            rw [Nat.ofDigits_cons, pow_succ]
            ring
          rw [Option.bind_some, Option.bind_some, hsum, List.length_cons,
            show i + 1 + l.length = i + (l.length + 1) by omega]
          rfl
      · rw [if_neg hd, Option.bind_none]
        cases l.mapM reverseAlphabet with
        | none => rfl
        | some ds =>
          have hle : 58 ^ i * d ≤ 58 ^ i * Nat.ofDigits 58 (d :: ds) := by
            rw [Nat.ofDigits_cons]
            exact Nat.mul_le_mul_left _ (Nat.le_add_right _ _)
          rw [Option.bind_some, Option.bind_some, if_neg (by omega)]

/-- `decode_block` on a block of letters whose length is that of a block of `k` bytes:
the letters' field, when its value fits in `k` bytes. The check against `2 ^ (8 k)` of a
partial block and the 64-bit checks of the loop together refuse exactly the other values. -/
theorem decodeBlock_eq {block : List UInt8} {k : ℕ}
    (hk : decodedBlockSizes block.length = some k) (hk0 : 0 < k) :
    decodeBlock block = (block.reverse.mapM reverseAlphabet).bind fun ds =>
      if Nat.ofDigits 58 ds < 256 ^ k then some (uint64To8be (Nat.ofDigits 58 ds) k) else none := by
  obtain ⟨hk8, hlen⟩ := decodedBlockSizes_eq_some hk
  have hlen11 : 0 + block.reverse.length ≤ 11 := by
    rw [List.length_reverse, ← hlen, Nat.zero_add]
    exact encodedBlockSizes_le k hk8
  have hfold := foldlM_decodeBlockStep block.reverse 0 0 hlen11 (by norm_num)
  have hbytes : 256 ^ k ≤ 2 ^ 64 := by
    calc 256 ^ k ≤ 256 ^ 8 := Nat.pow_le_pow_right (by norm_num) hk8
      _ = 2 ^ 64 := by norm_num
  have hbits : 2 ^ (8 * k) = 256 ^ k := by rw [pow_mul]; norm_num
  unfold decodeBlock
  rw [hk]
  dsimp only
  rw [if_neg (by omega), show ((0 : ℕ), (1 : ℕ)) = (0, 58 ^ 0 % 2 ^ 64) from rfl, hfold]
  cases block.reverse.mapM reverseAlphabet with
  | none => rfl
  | some ds =>
    simp only [Option.bind_some, Nat.zero_add, pow_zero, Nat.one_mul, fullBlockSize_eq, hbits]
    by_cases hx : Nat.ofDigits 58 ds < 256 ^ k
    · have h64 : Nat.ofDigits 58 ds < 2 ^ 64 := lt_of_lt_of_le hx hbytes
      have hfits : ¬ (k < 8 ∧ 256 ^ k ≤ Nat.ofDigits 58 ds) := by omega
      simp only [if_pos h64, if_pos hx, if_neg hfits]
    · by_cases h64 : Nat.ofDigits 58 ds < 2 ^ 64
      · -- a value of more than `k` bytes, which only a partial block can have
        have hk8' : k < 8 := by
          rcases Nat.lt_or_ge k 8 with h | h
          · exact h
          · exfalso
            rw [show k = 8 by omega] at hx
            exact hx (lt_of_lt_of_le h64 (by norm_num))
        have hover : k < 8 ∧ 256 ^ k ≤ Nat.ofDigits 58 ds := ⟨hk8', by omega⟩
        simp only [if_pos h64, if_neg hx, if_pos hover]
      · simp only [if_neg h64, if_neg hx]

/-- `decode_block` reads back what `encode_block` writes. -/
theorem decodeBlock_encodeBlock {block : List UInt8} (h1 : 0 < block.length)
    (h8 : block.length ≤ 8) : decodeBlock (encodeBlock block) = some block := by
  have hfit : uint8beTo64 block < 58 ^ encodedBlockSizes.getD block.length 0 :=
    lt_of_lt_of_le (uint8beTo64_lt block) (pow_le_encodedBlockSizes _ h8)
  have hdigits : ∀ d ∈ Nat.digitsAppend 58 (encodedBlockSizes.getD block.length 0)
      (uint8beTo64 block), d < 58 :=
    fun d hd => Nat.lt_of_mem_digitsAppend (by norm_num) _ d hd
  have hread : ((Nat.digitsAppend 58 (encodedBlockSizes.getD block.length 0)
      (uint8beTo64 block)).map fun d => alphabet.getD d 0).mapM reverseAlphabet =
        some (Nat.digitsAppend 58 (encodedBlockSizes.getD block.length 0) (uint8beTo64 block)) := by
    have hmapM := Blocks.mapM_eq_some_of_forall (f := reverseAlphabet ∘ fun d => alphabet.getD d 0)
      (g := id) _ fun d hd => reverseAlphabet_getD (hdigits d hd)
    rwa [List.map_id, ← List.mapM_map] at hmapM
  have hsize : decodedBlockSizes (encodeBlock block).length = some block.length := by
    rw [encodeBlock_length h8]
    exact decodedBlockSizes_encodedBlockSizes _ h8
  rw [decodeBlock_eq hsize h1, encodeBlock_eq h8, List.map_reverse, List.reverse_reverse, hread,
    Option.bind_some, Radix.ofDigits_digitsAppend, if_pos (uint8beTo64_lt block),
    uint64To8be_uint8beTo64]

/-- What `decode_block` accepts is what `encode_block` writes for the bytes it returns. -/
theorem encodeBlock_of_decodeBlock {enc data : List UInt8} (h : decodeBlock enc = some data) :
    decodedBlockSizes enc.length = some data.length ∧ 0 < data.length ∧
      encodeBlock data = enc := by
  cases hk : decodedBlockSizes enc.length with
  | none =>
    unfold decodeBlock at h
    rw [hk] at h
    cases h
  | some k =>
    rcases Nat.eq_zero_or_pos k with rfl | hk0
    · unfold decodeBlock at h
      rw [hk] at h
      cases h
    obtain ⟨hk8, hlen⟩ := decodedBlockSizes_eq_some hk
    rw [decodeBlock_eq hk hk0] at h
    cases hds : enc.reverse.mapM reverseAlphabet with
    | none =>
      rw [hds] at h
      cases h
    | some ds =>
      rw [hds, Option.bind_some] at h
      split at h
      · next hx =>
        rw [Option.some.injEq] at h
        subst h
        -- the letters are the field of the value they read as
        have hdlen : ds.length = enc.length := by
          rw [← (Blocks.mapM_eq_some_iff.1 hds).length_eq, List.length_reverse]
        have hdlt : ∀ d ∈ ds, d < 58 :=
          Blocks.forall_of_mapM_eq_some (fun _ _ hc => (reverseAlphabet_eq_some hc).1) hds
        have hletters : ds.map (fun d => alphabet.getD d 0) = enc.reverse :=
          Blocks.map_of_mapM_eq_some (fun _ _ hc => (reverseAlphabet_eq_some hc).2) hds
        refine ⟨by rw [uint64To8be_length], by rw [uint64To8be_length]; exact hk0, ?_⟩
        rw [encodeBlock_eq (by rw [uint64To8be_length]; exact hk8), uint64To8be_length,
          uint8beTo64_uint64To8be, Nat.mod_eq_of_lt hx, hlen, ← hdlen,
          Radix.digitsAppend_ofDigits (by norm_num) hdlt, List.map_reverse, hletters,
          List.reverse_reverse]
      · cases h

theorem encodedBlockSizes_eq_zero : ∀ k ≤ 8, encodedBlockSizes.getD k 0 = 0 → k = 0 := by decide

/-! ## Whole strings -/

/-- `encode` on a non-empty string: the letters of its full blocks of 8 bytes, then those
of its last partial block. -/
theorem encode_of_ne_nil {data : List UInt8} (h : data ≠ []) :
    encode data = (List.range (data.length / 8)).flatMap
        (fun i => encodeBlock ((data.drop (i * 8)).take 8)) ++
      (if 0 < data.length % 8 then encodeBlock (data.drop (data.length / 8 * 8)) else []) := by
  rw [encode, if_neg (by simpa using h)]
  rfl

/-- `decode` on a non-empty string: its full blocks of 11 letters, then its last partial
block, each decoded on its own. -/
theorem decode_of_ne_nil {enc : List UInt8} (h : enc ≠ []) :
    decode enc = (decodedBlockSizes (enc.length % 11)).bind fun _ =>
      ((List.range (enc.length / 11)).mapM fun i => decodeBlock ((enc.drop (i * 11)).take 11)).bind
        fun full =>
          (if 0 < enc.length % 11 then decodeBlock (enc.drop (enc.length / 11 * 11))
            else some []).bind fun last => some (full.flatten ++ last) := by
  rw [decode, if_neg (by simpa using h), fullEncodedBlockSize_eq]
  dsimp only
  cases decodedBlockSizes (enc.length % 11) with
  | none => rfl
  | some _ =>
    dsimp only
    cases (List.range (enc.length / 11)).mapM fun i => decodeBlock ((enc.drop (i * 11)).take 11) with
    | none => rfl
    | some full => split <;> rfl

/-- `encode` writes `res_size` letters: 11 for each full block, and the table's number for
the last partial block. -/
theorem encode_length (data : List UInt8) :
    (encode data).length =
      data.length / fullBlockSize * fullEncodedBlockSize +
        encodedBlockSizes.getD (data.length % fullBlockSize) 0 := by
  rw [fullBlockSize_eq, fullEncodedBlockSize_eq]
  obtain rfl | hne := eq_or_ne data []
  · rfl
  have hpiece : ∀ i < data.length / 8, (encodeBlock ((data.drop (i * 8)).take 8)).length = 11 := by
    intro i hi
    rw [encodeBlock_length (by rw [Blocks.length_drop_take hi]), Blocks.length_drop_take hi]
    rfl
  have hlast : (if 0 < data.length % 8 then encodeBlock (data.drop (data.length / 8 * 8))
      else []).length = encodedBlockSizes.getD (data.length % 8) 0 := by
    split
    · rw [encodeBlock_length (by rw [List.length_drop]; omega), List.length_drop,
        show data.length - data.length / 8 * 8 = data.length % 8 by omega]
    · next h => rw [show data.length % 8 = 0 by omega]; rfl
  rw [encode_of_ne_nil hne, List.length_append, Blocks.length_flatMap_range hpiece, hlast]

/-- `decode` reads every block of `encode`'s letters back. -/
theorem decode_encode (data : List UInt8) : decode (encode data) = some data := by
  obtain rfl | hne := eq_or_ne data []
  · rfl
  have hs8 : data.length % 8 < 8 := Nat.mod_lt _ (by norm_num)
  have hpiece : ∀ i < data.length / 8, (encodeBlock ((data.drop (i * 8)).take 8)).length = 11 := by
    intro i hi
    rw [encodeBlock_length (by rw [Blocks.length_drop_take hi]), Blocks.length_drop_take hi]
    rfl
  have hlen : (encode data).length =
      data.length / 8 * 11 + encodedBlockSizes.getD (data.length % 8) 0 := encode_length data
  have hlt : encodedBlockSizes.getD (data.length % 8) 0 < 11 := encodedBlockSizes_lt _ hs8
  have hne' : encode data ≠ [] := by
    intro h0
    have hzero : (encode data).length = 0 := by rw [h0]; rfl
    have hs0 : data.length % 8 = 0 := by
      by_contra hs0
      have := encodedBlockSizes_pos _ hs8.le (by omega)
      omega
    exact hne (List.eq_nil_of_length_eq_zero (by omega))
  -- every full block reads back
  have hfull : ((List.range (data.length / 8)).mapM fun i =>
      decodeBlock (((encode data).drop (i * 11)).take 11)) =
        some ((List.range (data.length / 8)).map fun i => (data.drop (i * 8)).take 8) := by
    refine Blocks.mapM_eq_some_of_forall _ fun i hi => ?_
    rw [List.mem_range] at hi
    rw [encode_of_ne_nil hne, Blocks.drop_take_flatMap_range hpiece _ i hi,
      decodeBlock_encodeBlock (by rw [Blocks.length_drop_take hi]; norm_num)
        (by rw [Blocks.length_drop_take hi])]
  -- and so does the last, partial one
  have hlast : (if 0 < encodedBlockSizes.getD (data.length % 8) 0 then
      decodeBlock ((encode data).drop (data.length / 8 * 11)) else some []) =
        some (data.drop (data.length / 8 * 8)) := by
    rw [encode_of_ne_nil hne, Blocks.drop_flatMap_range hpiece]
    by_cases hs0 : 0 < data.length % 8
    · rw [if_pos (encodedBlockSizes_pos _ hs8.le hs0), if_pos hs0,
        decodeBlock_encodeBlock (by rw [List.length_drop]; omega) (by rw [List.length_drop]; omega)]
    · rw [show data.length % 8 = 0 by omega, if_neg (lt_irrefl _),
        List.drop_of_length_le (by omega)]
      rfl
  rw [decode_of_ne_nil hne', hlen, show (data.length / 8 * 11 +
      encodedBlockSizes.getD (data.length % 8) 0) / 11 = data.length / 8 by omega,
    show (data.length / 8 * 11 + encodedBlockSizes.getD (data.length % 8) 0) % 11 =
      encodedBlockSizes.getD (data.length % 8) 0 by omega,
    decodedBlockSizes_encodedBlockSizes _ hs8.le, Option.bind_some, hfull, Option.bind_some,
    hlast, Option.bind_some, ← List.flatMap_def, Blocks.flatMap_range_drop_take,
    List.take_append_drop]

/-- What a successful `decode` of a non-empty string went through. -/
theorem decode_eq_some_inv {enc data : List UInt8} (hne : enc ≠ []) (h : decode enc = some data) :
    ∃ k full last, decodedBlockSizes (enc.length % 11) = some k ∧
      ((List.range (enc.length / 11)).mapM fun i => decodeBlock ((enc.drop (i * 11)).take 11)) =
        some full ∧
      (if 0 < enc.length % 11 then decodeBlock (enc.drop (enc.length / 11 * 11)) else some []) =
        some last ∧
      data = full.flatten ++ last := by
  rw [decode_of_ne_nil hne] at h
  obtain ⟨k, hk, h⟩ := Option.bind_eq_some_iff.1 h
  obtain ⟨full, hfull, h⟩ := Option.bind_eq_some_iff.1 h
  obtain ⟨last, hlast, h⟩ := Option.bind_eq_some_iff.1 h
  exact ⟨k, full, last, hk, hfull, hlast, (Option.some.inj h).symm⟩

/-- The last, partial block that `decode` reads has the number of bytes the table gives
for its length. -/
theorem decode_last_length {enc last : List UInt8} {k : ℕ}
    (hk : decodedBlockSizes (enc.length % 11) = some k)
    (hlast : (if 0 < enc.length % 11 then decodeBlock (enc.drop (enc.length / 11 * 11))
      else some []) = some last) :
    last.length = k := by
  split at hlast
  · next hr =>
    obtain ⟨hsize, -, -⟩ := encodeBlock_of_decodeBlock hlast
    rw [List.length_drop, show enc.length - enc.length / 11 * 11 = enc.length % 11 by omega,
      hk, Option.some.injEq] at hsize
    exact hsize.symm
  · next hr =>
    rw [Option.some.injEq] at hlast
    subst hlast
    obtain ⟨hk8, hlen⟩ := decodedBlockSizes_eq_some hk
    exact (encodedBlockSizes_eq_zero k hk8 (by omega)).symm

/-- `decode` fills `data_size` bytes: 8 for each full block, and the table's number for the
last partial block. -/
theorem decode_length {enc data : List UInt8} (h : decode enc = some data) :
    ∃ k, decodedBlockSizes (enc.length % fullEncodedBlockSize) = some k ∧
      data.length = enc.length / fullEncodedBlockSize * fullBlockSize + k := by
  rw [fullBlockSize_eq, fullEncodedBlockSize_eq]
  obtain rfl | hne := eq_or_ne enc []
  · rw [show decode [] = some [] from rfl, Option.some.injEq] at h
    subst h
    exact ⟨0, rfl, rfl⟩
  obtain ⟨k, full, last, hk, hfull, hlast, rfl⟩ := decode_eq_some_inv hne h
  obtain ⟨hmap, heach⟩ := Blocks.mapM_range_eq_some hfull []
  have hpiece : ∀ i < enc.length / 11, (full.getD i []).length = 8 := by
    intro i hi
    obtain ⟨hsize, -, -⟩ := encodeBlock_of_decodeBlock (heach i hi)
    rw [Blocks.length_drop_take hi] at hsize
    exact (Option.some.inj hsize).symm
  refine ⟨k, hk, ?_⟩
  rw [hmap, ← List.flatMap_def, List.length_append, Blocks.length_flatMap_range hpiece,
    decode_last_length hk hlast]

/-- `encode` writes back every string `decode` accepts. -/
theorem encode_of_decode {enc data : List UInt8} (h : decode enc = some data) :
    encode data = enc := by
  obtain rfl | hne := eq_or_ne enc []
  · rw [show decode [] = some [] from rfl, Option.some.injEq] at h
    subst h
    rfl
  obtain ⟨k', hk', hdlen⟩ := decode_length h
  obtain ⟨k, full, last, hk, hfull, hlast, rfl⟩ := decode_eq_some_inv hne h
  have hkk : k' = k := Option.some.inj (hk'.symm.trans hk)
  rw [fullBlockSize_eq, fullEncodedBlockSize_eq, hkk] at hdlen
  obtain ⟨hk8, hr⟩ := decodedBlockSizes_eq_some hk
  have hr11 : enc.length % 11 < 11 := Nat.mod_lt _ (by norm_num)
  -- a last block of 8 bytes would have 11 letters: it is partial
  have hk8' : k < 8 := by
    rcases Nat.lt_or_ge k 8 with hlt | hge
    · exact hlt
    · rw [show k = 8 by omega] at hr
      exact absurd hr (by change 11 ≠ _; omega)
  have hlastlen : last.length = k := decode_last_length hk hlast
  -- the full blocks: what each decoded to, and the letters it encodes back to
  obtain ⟨hmap, heach⟩ := Blocks.mapM_range_eq_some hfull []
  have hblock : ∀ i < enc.length / 11,
      (full.getD i []).length = 8 ∧ encodeBlock (full.getD i []) = (enc.drop (i * 11)).take 11 := by
    intro i hi
    obtain ⟨hsize, -, henc⟩ := encodeBlock_of_decodeBlock (heach i hi)
    rw [Blocks.length_drop_take hi] at hsize
    exact ⟨(Option.some.inj hsize).symm, henc⟩
  have hpiece : ∀ i < enc.length / 11, (full.getD i []).length = 8 := fun i hi => (hblock i hi).1
  have hdata : full.flatten ++ last =
      (List.range (enc.length / 11)).flatMap (fun i => full.getD i []) ++ last := by
    rw [List.flatMap_def, ← hmap]
  have hne' : full.flatten ++ last ≠ [] := by
    intro h0
    have hzero : (full.flatten ++ last).length = 0 := by rw [h0]; rfl
    have hk0 : k = 0 := by omega
    rw [hk0] at hr
    exact hne (List.eq_nil_of_length_eq_zero (by change 0 = enc.length % 11 at hr; omega))
  rw [encode_of_ne_nil hne', hdlen, show (enc.length / 11 * 8 + k) / 8 = enc.length / 11 by omega,
    show (enc.length / 11 * 8 + k) % 8 = k by omega, hdata]
  -- the full blocks of the bytes are what the full blocks of letters decoded to
  have hfullenc : (List.range (enc.length / 11)).flatMap (fun i => encodeBlock
      (((((List.range (enc.length / 11)).flatMap fun i => full.getD i []) ++ last).drop
        (i * 8)).take 8)) = enc.take (enc.length / 11 * 11) := by
    rw [← Blocks.flatMap_range_drop_take enc 11]
    refine List.flatMap_congr fun i hi => ?_
    rw [List.mem_range] at hi
    rw [Blocks.drop_take_flatMap_range hpiece last i hi, (hblock i hi).2]
  -- and the last block encodes back to the last letters
  have hlastenc : (if 0 < k then encodeBlock ((((List.range (enc.length / 11)).flatMap
      fun i => full.getD i []) ++ last).drop (enc.length / 11 * 8)) else []) =
        enc.drop (enc.length / 11 * 11) := by
    rw [Blocks.drop_flatMap_range hpiece]
    by_cases hk0 : 0 < k
    · have hr0 : 0 < enc.length % 11 := by
        have := encodedBlockSizes_pos k hk8 hk0
        omega
      rw [if_pos hr0] at hlast
      rw [if_pos hk0, (encodeBlock_of_decodeBlock hlast).2.2]
    · rw [if_neg hk0, List.drop_of_length_le]
      have hr0 : enc.length % 11 = 0 := by
        rw [show k = 0 by omega] at hr
        exact hr.symm
      omega
  rw [hfullenc, hlastenc, List.take_append_drop]

/-- Base58 is a bijection with its decoder as inverse: `decode` accepts a string exactly
when it is what `encode` writes for the bytes it returns. -/
theorem decode_eq_some_iff_encode (enc data : List UInt8) :
    decode enc = some data ↔ encode data = enc := by
  constructor
  · exact encode_of_decode
  · rintro rfl
    exact decode_encode data

-- the unit tests' full block of `0xFF` bytes, and a block of letters above `2 ^ 64`
example : encode [255, 255, 255, 255, 255, 255, 255, 255] =
    "jpXCZedGfVQ".toList.map Char.toUInt8 := by decide

example : decode ("zzzzzzzzzzz".toList.map Char.toUInt8) = none := by decide

end Base58

end Wazn
