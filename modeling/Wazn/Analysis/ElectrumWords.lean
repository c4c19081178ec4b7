import Mathlib.Data.List.ModifyLast
import Wazn.Library.Radix
import Wazn.Analysis.AmountText
import Wazn.Model.ElectrumWords

/-!
# Mnemonic seeds round trip

With 1626 words, three base-1626 digits hold more than a `uint32_t`, so the decoder's sum can
wrap; it cannot then pass the "mumble" check, as `2 ^ 32` is not a multiple of 1626. A triple
of indices is accepted exactly when it is the encoding of a value, and decodes to it
(`decodeTriple_eq_some_iff`).

For a word list of 1626 words, none empty or with white space, whose prefixes differ under
`WordEqual`, the populated maps find each word at its index (`trimmedWordMap_find`). The words
`bytes_to_words` writes split back into the seed (`split_flatMap`), each matched to the index it
was written for, and their checksum word passes the checksum test; once `find_seed_language`
picks the list, `words_to_bytes` decodes the bytes written (`wordsToBytes_bytesToWords`).
-/

set_option autoImplicit false

namespace Wazn

namespace ElectrumWords

open Wazn.Language Cryptonote

/-! ## One triple -/

theorem toNat_digitSum (w1 a b : UInt32) :
    (w1 + 1626 * a + 1626 * 1626 * b).toNat =
      (w1.toNat + 1626 * a.toNat + 2643876 * b.toNat) % 2 ^ 32 := by
  simp only [UInt32.toNat_add, UInt32.toNat_mul, UInt32.reduceMul, UInt32.reduceToNat]
  omega

theorem toNat_digitDiff {x y : UInt32} (hx : x.toNat < 1626) (hy : y.toNat < 1626) :
    ((1626 - x + y) % 1626).toNat = (1626 - x.toNat + y.toNat) % 1626 := by
  have hs : (1626 - x).toNat = 1626 - x.toNat :=
    UInt32.toNat_sub_of_le _ _ (by rw [UInt32.le_iff_toNat_le]; simp; omega)
  simp only [UInt32.toNat_mod, UInt32.toNat_add, hs, UInt32.reduceToNat]
  omega

/-- The value `words_to_bytes` computes from three indices, in natural numbers. -/
def digitSum (w1 w2 w3 : ℕ) : ℕ :=
  w1 + 1626 * ((1626 - w1 + w2) % 1626) + 2643876 * ((1626 - w2 + w3) % 1626)

/-- The three indices `bytes_to_words` computes from a value, in natural numbers. -/
def digits (w : ℕ) : ℕ × ℕ × ℕ :=
  (w % 1626, (w / 1626 + w % 1626) % 1626,
    (w / 1626 / 1626 + (w / 1626 + w % 1626) % 1626) % 1626)

/-- Subtracting a digit and adding it back modulo 1626. -/
theorem sub_add_mod_eq (x y : ℕ) (hx : x < 1626) :
    (1626 - x + (y + x) % 1626) % 1626 = y % 1626 := by
  omega

/-- The digits of a value below `2 ^ 32` sum back to it. -/
theorem digitSum_digits {w : ℕ} (hw : w < 2 ^ 32) :
    digitSum (digits w).1 (digits w).2.1 (digits w).2.2 = w := by
  unfold digitSum digits
  dsimp only
  rw [sub_add_mod_eq _ _ (Nat.mod_lt _ (by omega)), sub_add_mod_eq _ _ (Nat.mod_lt _ (by omega))]
  have h1 := Nat.div_add_mod w 1626
  have h2 := Nat.div_add_mod (w / 1626) 1626
  have hq : w / 1626 / 1626 < 1626 := by omega
  omega

/-- A sum of three digits that passes the check modulo `2 ^ 32` did not wrap: a wrapped sum
is `2 ^ 32` less, which is not a multiple of 1626. -/
theorem lt_of_digit_check {w1 A B : ℕ} (hA : A < 1626) (hB : B < 1626)
    (hcheck : (w1 + 1626 * A + 2643876 * B) % 2 ^ 32 % 1626 = w1) :
    w1 + 1626 * A + 2643876 * B < 2 ^ 32 := by
  omega

theorem digits_sum {w1 A B : ℕ} (h1 : w1 < 1626) (hA : A < 1626) :
    digits (w1 + 1626 * A + 2643876 * B) =
      (w1, (A + w1) % 1626, (B + (A + w1) % 1626) % 1626) := by
  have hdiv : (w1 + 1626 * A + 2643876 * B) / 1626 = A + 1626 * B := by omega
  have hmod : (w1 + 1626 * A + 2643876 * B) % 1626 = w1 := by omega
  have hdiv2 : (A + 1626 * B) / 1626 = B := by omega
  have hmod2 : (A + 1626 * B + w1) % 1626 = (A + w1) % 1626 := by omega
  rw [digits, hdiv, hmod, hdiv2, hmod2]

/-- Adding a digit back to its difference modulo 1626. -/
theorem add_sub_mod_eq {x y : ℕ} (hx : x < 1626) (hy : y < 1626) :
    ((1626 - x + y) % 1626 + x) % 1626 = y := by
  omega

/-- Three digits whose sum passes the check are the digits of the sum. -/
theorem digits_digitSum {w1 w2 w3 : ℕ} (h2 : w2 < 1626) (h3 : w3 < 1626)
    (hcheck : digitSum w1 w2 w3 % 2 ^ 32 % 1626 = w1) :
    digitSum w1 w2 w3 < 2 ^ 32 ∧ digits (digitSum w1 w2 w3) = (w1, w2, w3) := by
  have hA := Nat.mod_lt (1626 - w1 + w2) (by omega : 0 < 1626)
  have hB := Nat.mod_lt (1626 - w2 + w3) (by omega : 0 < 1626)
  have h1 : w1 < 1626 := by
    rw [← hcheck]
    exact Nat.mod_lt _ (by omega)
  refine ⟨lt_of_digit_check hA hB hcheck, ?_⟩
  rw [digitSum, digits_sum h1 hA, add_sub_mod_eq h1 h2, add_sub_mod_eq h2 h3]

theorem toNat_1626 : (1626 : UInt32).toNat = 1626 := rfl

/-- The value `decodeTriple` computes, read as a natural number. -/
theorem toNat_decodeSum {w1 w2 w3 : UInt32} (h1 : w1.toNat < 1626) (h2 : w2.toNat < 1626)
    (h3 : w3.toNat < 1626) :
    (w1 + 1626 * ((1626 - w1 + w2) % 1626) + 1626 * 1626 * ((1626 - w2 + w3) % 1626)).toNat =
      digitSum w1.toNat w2.toNat w3.toNat % 2 ^ 32 := by
  rw [toNat_digitSum, toNat_digitDiff h1 h2, toNat_digitDiff h2 h3, digitSum]

theorem toNat_encodeTriple (w : UInt32) :
    ((encodeTriple 1626 w).1.toNat, (encodeTriple 1626 w).2.1.toNat,
      (encodeTriple 1626 w).2.2.toNat) = digits w.toNat := by
  have hw := w.toNat_lt
  have hlt1 : w.toNat / 1626 + w.toNat % 1626 < 2 ^ 32 := by omega
  have hlt2 : w.toNat / 1626 / 1626 + (w.toNat / 1626 + w.toNat % 1626) % 1626 < 2 ^ 32 := by
    omega
  simp only [encodeTriple, digits, UInt32.toNat_mod, UInt32.toNat_add, UInt32.toNat_div,
    UInt32.reduceToNat, Nat.mod_eq_of_lt hlt1, Nat.mod_eq_of_lt hlt2]

/-- A triple of `uint32_t` is determined by the natural numbers it holds. -/
theorem triple_eq_of_toNat {x y : UInt32 × UInt32 × UInt32}
    (h : (x.1.toNat, x.2.1.toNat, x.2.2.toNat) = (y.1.toNat, y.2.1.toNat, y.2.2.toNat)) : x = y := by
  simp only [Prod.mk.injEq, UInt32.toNat_inj] at h
  obtain ⟨h1, h2, h3⟩ := h
  exact Prod.ext h1 (Prod.ext h2 h3)

/-- **The "mumble" check.** Three indices below 1626 decode to `w` exactly when they are the
encoding of `w`. -/
theorem decodeTriple_eq_some_iff {w1 w2 w3 : UInt32} (h1 : w1.toNat < 1626)
    (h2 : w2.toNat < 1626) (h3 : w3.toNat < 1626) (w : UInt32) :
    decodeTriple 1626 w1 w2 w3 = some w ↔ encodeTriple 1626 w = (w1, w2, w3) := by
  have hsum := toNat_decodeSum h1 h2 h3
  have henc := toNat_encodeTriple w
  unfold decodeTriple
  dsimp only
  constructor
  · intro hdecode
    split_ifs at hdecode with hcheck
    cases hdecode
    have hcheck' := congrArg UInt32.toNat hcheck
    rw [UInt32.toNat_mod, hsum, toNat_1626] at hcheck'
    obtain ⟨hsmall, hdigits⟩ := digits_digitSum h2 h3 hcheck'
    rw [hsum, Nat.mod_eq_of_lt hsmall, hdigits] at henc
    exact triple_eq_of_toNat henc
  · intro hencode
    rw [hencode] at henc
    have hw : digitSum w1.toNat w2.toNat w3.toNat = w.toNat := by
      have := digitSum_digits w.toNat_lt
      rw [← henc] at this
      exact this
    have hw0 : w1 + 1626 * ((1626 - w1 + w2) % 1626) + 1626 * 1626 * ((1626 - w2 + w3) % 1626) = w := by
      rw [← UInt32.toNat_inj, hsum, hw, Nat.mod_eq_of_lt w.toNat_lt]
    have hcheck : w % 1626 = w1 := by
      rw [← UInt32.toNat_inj, UInt32.toNat_mod, toNat_1626]
      exact (Prod.mk.inj henc).1.symm
    rw [hw0, if_pos hcheck]

/-! ## Four bytes -/

/-- Four bytes read as a `uint32_t` do not wrap. -/
theorem toNat_readUint32LE {bytes : List UInt8} (hlen : bytes.length = 4) :
    (readUint32LE bytes).toNat = Nat.ofDigits 256 (bytes.map UInt8.toNat) := by
  have hdigits : ∀ d ∈ bytes.map UInt8.toNat, d < 256 := by
    intro d hd
    obtain ⟨byte, -, rfl⟩ := List.mem_map.mp hd
    exact byte.toNat_lt
  have hlt := Nat.ofDigits_lt_base_pow_length (by omega) hdigits
  rw [List.length_map, hlen, show (256 : ℕ) ^ 4 = 2 ^ 32 by rfl] at hlt
  rw [readUint32LE, UInt32.toNat_ofNat', Nat.mod_eq_of_lt hlt]

/-- Four bytes read as a `uint32_t` and written back. -/
theorem uint32LEBytes_readUint32LE {bytes : List UInt8} (hlen : bytes.length = 4) :
    uint32LEBytes (readUint32LE bytes) = bytes := by
  have hdigits : ∀ d ∈ bytes.map UInt8.toNat, d < 256 := by
    intro d hd
    obtain ⟨byte, -, rfl⟩ := List.mem_map.mp hd
    exact byte.toNat_lt
  have hfield := Radix.digitsAppend_ofDigits (by omega) hdigits
  rw [List.length_map, hlen] at hfield
  rw [uint32LEBytes, toNat_readUint32LE hlen, hfield, List.map_map]
  simp [Function.comp_def]

/-! ## The word indices -/

/-- The word indices `bytes_to_words` writes, three for each four bytes. -/
def encodeIndices : List UInt8 → List ℕ
  | b0 :: b1 :: b2 :: b3 :: src =>
    let w := (readUint32LE [b0, b1, b2, b3]).toNat
    [(digits w).1, (digits w).2.1, (digits w).2.2] ++ encodeIndices src
  | [] => []
  | [_] => []
  | [_, _] => []
  | [_, _, _] => []

theorem encodeIndices_cons (b0 b1 b2 b3 : UInt8) (src : List UInt8) :
    encodeIndices (b0 :: b1 :: b2 :: b3 :: src) =
      [(digits (readUint32LE [b0, b1, b2, b3]).toNat).1,
        (digits (readUint32LE [b0, b1, b2, b3]).toNat).2.1,
        (digits (readUint32LE [b0, b1, b2, b3]).toNat).2.2] ++ encodeIndices src := rfl

/-- A list of at least four elements begins with four. -/
theorem exists_four_cons {β : Type} {l : List β} (h : 4 ≤ l.length) :
    ∃ a b c d rest, l = a :: b :: c :: d :: rest := by
  rcases l with _ | ⟨a, _ | ⟨b, _ | ⟨c, _ | ⟨d, rest⟩⟩⟩⟩ <;> simp at h
  exact ⟨a, b, c, d, rest, rfl⟩

theorem digits_lt (w : ℕ) :
    (digits w).1 < 1626 ∧ (digits w).2.1 < 1626 ∧ (digits w).2.2 < 1626 := by
  refine ⟨Nat.mod_lt _ ?_, Nat.mod_lt _ ?_, Nat.mod_lt _ ?_⟩ <;> omega

/-- The words of `bytes_to_words` are those at the indices `encodeIndices`. -/
theorem encodeLoop_eq {wordList : List (List Char)} (hlen : wordList.length = 1626) :
    ∀ src : List UInt8,
      encodeLoop wordList src = (encodeIndices src).map fun i => wordList.getD i []
  | b0 :: b1 :: b2 :: b3 :: src => by
    have henc := toNat_encodeTriple (readUint32LE [b0, b1, b2, b3])
    rcases hE : encodeTriple 1626 (readUint32LE [b0, b1, b2, b3]) with ⟨w1, w2, w3⟩
    rw [hE] at henc
    simp only [encodeLoop, encodeIndices_cons, hlen, show UInt32.ofNat 1626 = 1626 from rfl, hE,
      ← henc, encodeLoop_eq hlen src, List.map_append, List.map_cons, List.map_nil]
  | [] => rfl
  | [_] => rfl
  | [_, _] => rfl
  | [_, _, _] => rfl

theorem length_encodeIndices (k : ℕ) :
    ∀ src : List UInt8, src.length = 4 * k → (encodeIndices src).length = 3 * k := by
  induction k with
  | zero =>
    intro src hlen
    rw [List.length_eq_zero_iff.mp hlen]
    rfl
  | succ k ih =>
    intro src hlen
    obtain ⟨b0, b1, b2, b3, rest, rfl⟩ := exists_four_cons (l := src) (by omega)
    have hrest : rest.length = 4 * k := by
      simp only [List.length_cons] at hlen
      omega
    rw [encodeIndices_cons, List.length_append, ih rest hrest, List.length_cons, List.length_cons,
      List.length_singleton]
    omega

theorem lt_of_mem_encodeIndices : ∀ {src : List UInt8} {i : ℕ}, i ∈ encodeIndices src → i < 1626
  | b0 :: b1 :: b2 :: b3 :: src, i, hi => by
    have hdigits := digits_lt (readUint32LE [b0, b1, b2, b3]).toNat
    rw [encodeIndices_cons] at hi
    rcases List.mem_append.mp hi with hi | hi
    · simp only [List.mem_cons, List.not_mem_nil, or_false] at hi
      rcases hi with rfl | rfl | rfl
      · exact hdigits.1
      · exact hdigits.2.1
      · exact hdigits.2.2
    · exact lt_of_mem_encodeIndices hi
  | [], _, hi | [_], _, hi | [_, _], _, hi | [_, _, _], _, hi => absurd hi List.not_mem_nil

/-- The indices of a value decode back to it. -/
theorem decodeTriple_digits (w : UInt32) :
    decodeTriple 1626 (UInt32.ofNat (digits w.toNat).1) (UInt32.ofNat (digits w.toNat).2.1)
      (UInt32.ofNat (digits w.toNat).2.2) = some w := by
  obtain ⟨h1, h2, h3⟩ := digits_lt w.toNat
  have hofNat : ∀ {i : ℕ}, i < 1626 → (UInt32.ofNat i).toNat = i := by
    intro i hi
    rw [UInt32.toNat_ofNat', Nat.mod_eq_of_lt (by omega)]
  rw [decodeTriple_eq_some_iff (by rw [hofNat h1]; exact h1) (by rw [hofNat h2]; exact h2)
    (by rw [hofNat h3]; exact h3)]
  apply triple_eq_of_toNat
  rw [toNat_encodeTriple, hofNat h1, hofNat h2, hofNat h3]

/-- The decoding loop reads the bytes back from their indices, whatever follows them. -/
theorem decodeLoop_encodeIndices (k : ℕ) :
    ∀ (src : List UInt8) (extra : List ℕ), src.length = 4 * k →
      decodeLoop 1626 k (encodeIndices src ++ extra) = some src := by
  induction k with
  | zero =>
    intro src extra hlen
    rw [List.length_eq_zero_iff.mp hlen]
    rfl
  | succ k ih =>
    intro src extra hlen
    obtain ⟨b0, b1, b2, b3, rest, rfl⟩ := exists_four_cons (l := src) (by omega)
    have hrest : rest.length = 4 * k := by
      simp only [List.length_cons] at hlen
      omega
    simp only [encodeIndices_cons, List.cons_append, List.nil_append, decodeLoop, Option.bind_eq_bind,
      decodeTriple_digits, Option.bind_some, ih rest extra hrest,
      uint32LEBytes_readUint32LE (show [b0, b1, b2, b3].length = 4 from rfl)]
    rfl

/-! ## The word maps -/

section WordMaps

variable (canon : List Char → List Char)

/-- A key equal to none in the map is added at its end. -/
theorem insert_of_fresh {m : WordMap} {k : List Char} (hk : canon k ∉ m.map fun e => canon e.1)
    (v : ℕ) : m.insert canon k v = m ++ [(k, v)] := by
  rw [WordMap.insert, if_neg]
  simpa using hk

/-- Keys that are pairwise different are inserted in order, each with its index. -/
theorem populateLoop_eq : ∀ (keys : List (List Char)) (ii : ℕ) (m : WordMap),
    ((m.map fun e => canon e.1) ++ keys.map canon).Nodup →
      populateLoop canon keys ii m = m ++ keys.zipIdx ii
  | [], _, m, _ => by rw [populateLoop, List.zipIdx_nil, List.append_nil]
  | key :: keys, ii, m, hnodup => by
    rw [List.map_cons] at hnodup
    have hfresh : canon key ∉ m.map fun e => canon e.1 := fun hk =>
      (List.nodup_cons.mp (List.nodup_middle.mp hnodup)).1 (List.mem_append_left _ hk)
    have hnext : (((m ++ [(key, ii)]).map fun e => canon e.1) ++ keys.map canon).Nodup := by
      rwa [List.map_append, List.map_singleton, List.append_assoc, List.singleton_append]
    rw [populateLoop, insert_of_fresh canon hfresh, populateLoop_eq keys (ii + 1) _ hnext,
      List.zipIdx_cons, List.append_assoc, List.singleton_append]

/-- In keys that differ under `canon`, each is found with its index. -/
theorem find_zipIdx : ∀ (keys : List (List Char)) (s i : ℕ) (hi : i < keys.length),
    (keys.map canon).Nodup → WordMap.find canon (keys.zipIdx s) keys[i] = some (keys[i], s + i)
  | key :: keys, s, 0, _, _ => by
    simp [WordMap.find, List.zipIdx_cons]
  | key :: keys, s, i + 1, hi, hnodup => by
    rw [List.map_cons, List.nodup_cons] at hnodup
    have hi' : i < keys.length := by simpa using hi
    have hne : canon key ≠ canon keys[i] := fun h =>
      hnodup.1 (h ▸ List.mem_map_of_mem (List.getElem_mem hi'))
    have hrest := find_zipIdx keys (s + 1) i hi' hnodup.2
    rw [WordMap.find] at hrest ⊢
    rw [List.zipIdx_cons, List.find?_cons_of_neg (by simpa using hne), List.getElem_cons_succ,
      hrest, Nat.add_right_comm, Nat.add_assoc]

/-- The trimmed word map finds each word's prefix at the word's index. -/
theorem trimmedWordMap_find {language : Base}
    (hnodup : ((language.wordList.map fun w =>
      utf8Prefix w language.uniquePrefixLength).map canon).Nodup)
    {i : ℕ} (hi : i < language.wordList.length) :
    (language.trimmedWordMap canon).find canon
        (utf8Prefix language.wordList[i] language.uniquePrefixLength) =
      some (utf8Prefix language.wordList[i] language.uniquePrefixLength, i) := by
  have hmap := populateLoop_eq canon (language.wordList.map fun w =>
    utf8Prefix w language.uniquePrefixLength) 0 [] (by simpa using hnodup)
  have hfind := find_zipIdx canon _ 0 i (by simpa using hi) hnodup
  rw [List.getElem_map, Nat.zero_add] at hfind
  rw [Base.trimmedWordMap, hmap, List.nil_append, hfind]

end WordMaps

/-! ## The seed's words -/

section Seed

variable (canon : List Char → List Char) (crc32 : List Char → UInt32)

/-- What the round trip takes of a list of `get_language_list`: 1626 words, none empty or with
white space, whose unique prefixes differ under `WordEqual`. -/
structure WellFormed (language : Base) : Prop where
  length_wordList : language.wordList.length = 1626
  ne_nil : ∀ w ∈ language.wordList, w ≠ []
  not_isSpace : ∀ w ∈ language.wordList, ∀ c ∈ w, isSpace c = false
  nodup_prefixes :
    ((language.wordList.map fun w => utf8Prefix w language.uniquePrefixLength).map canon).Nodup

variable {canon} {language : Base}

theorem WellFormed.getD_eq (hwf : WellFormed canon language) {i : ℕ} (hi : i < 1626) :
    ∃ h : i < language.wordList.length, language.wordList.getD i [] = language.wordList[i] := by
  have hi' : i < language.wordList.length := hwf.length_wordList ▸ hi
  exact ⟨hi', by rw [List.getD_eq_getElem?_getD, List.getElem?_eq_getElem hi', Option.getD_some]⟩

/-- The word at an index, trimmed, is found in the trimmed word map at that index. -/
theorem WellFormed.trimmed_find (hwf : WellFormed canon language) {i : ℕ} (hi : i < 1626) :
    (language.trimmedWordMap canon).find canon
        (utf8Prefix (language.wordList.getD i []) language.uniquePrefixLength) =
      some (utf8Prefix (language.wordList.getD i []) language.uniquePrefixLength, i) := by
  obtain ⟨hi', hget⟩ := hwf.getD_eq hi
  rw [hget]
  exact trimmedWordMap_find canon hwf.nodup_prefixes hi'

/-- The words at indices below 1626 are matched, with a checksum word, to those indices. -/
theorem matchSeed_map_getD (hwf : WellFormed canon language) :
    ∀ idxs : List ℕ, (∀ i ∈ idxs, i < 1626) →
      matchSeed canon language (idxs.map fun i => language.wordList.getD i []) true = some idxs
  | [], _ => rfl
  | i :: idxs, hlt => by
    have hword := hwf.trimmed_find (hlt i List.mem_cons_self)
    have hrest := matchSeed_map_getD hwf idxs fun j hj => hlt j (List.mem_cons_of_mem i hj)
    rw [matchSeed] at hrest ⊢
    simp only [List.map_cons, List.mapM_cons, if_true, hword, Option.map_some,
      Option.bind_eq_bind, Option.bind_some] at hrest ⊢
    rw [hrest]
    rfl

/-- Words of the list are matched, with a checksum word, to their indices in it. -/
theorem matchSeed_of_forall_mem (hwf : WellFormed canon language) {seed : List (List Char)}
    (hmem : ∀ w ∈ seed, w ∈ language.wordList) :
    matchSeed canon language seed true = some (seed.map language.wordList.idxOf) := by
  have hlt : ∀ w ∈ seed, language.wordList.idxOf w < language.wordList.length :=
    fun w hw => List.idxOf_lt_length_of_mem (hmem w hw)
  -- each word is the word at its own index
  have hseed : (seed.map language.wordList.idxOf).map (fun i => language.wordList.getD i []) =
      seed := by
    rw [List.map_map]
    conv_rhs => rw [← List.map_id seed]
    apply List.map_congr_left
    intro w hw
    rw [Function.comp_apply, List.getD_eq_getElem _ _ (hlt w hw), List.getElem_idxOf, id]
  have hbound : ∀ i ∈ seed.map language.wordList.idxOf, i < 1626 := by
    intro i hi
    obtain ⟨w, hw, rfl⟩ := List.mem_map.mp hi
    rw [← hwf.length_wordList]
    exact hlt w hw
  have hmatch := matchSeed_map_getD hwf _ hbound
  rwa [hseed] at hmatch

/-- The prefixes of the words at indices below 1626, appended one by one. -/
theorem foldlM_checksumStep (hwf : WellFormed canon language) :
    ∀ (idxs : List ℕ) (acc : List Char), (∀ i ∈ idxs, i < 1626) →
      (idxs.map fun i => language.wordList.getD i []).foldlM (checksumStep canon language) acc =
        .ok (acc ++ (idxs.map fun i =>
          utf8Prefix (language.wordList.getD i []) language.uniquePrefixLength).flatten)
  | [], acc, _ => by rw [List.map_nil, List.foldlM_nil, List.map_nil, List.flatten_nil,
      List.append_nil]; rfl
  | i :: idxs, acc, hlt => by
    have hstep : checksumStep canon language acc (language.wordList.getD i []) =
        .ok (acc ++ utf8Prefix (language.wordList.getD i []) language.uniquePrefixLength) := by
      rw [checksumStep, hwf.trimmed_find (hlt i List.mem_cons_self)]
      rfl
    rw [List.map_cons, List.foldlM_cons, hstep]
    have hrest := foldlM_checksumStep hwf idxs
      (acc ++ utf8Prefix (language.wordList.getD i []) language.uniquePrefixLength)
      fun j hj => hlt j (List.mem_cons_of_mem i hj)
    rw [List.map_cons, List.flatten_cons, ← List.append_assoc, ← hrest]
    rfl

/-- The checksum index of words at indices below 1626 is computed, and is one of theirs. -/
theorem createChecksumIndex_map_getD (hwf : WellFormed canon language) {idxs : List ℕ}
    (hlt : ∀ i ∈ idxs, i < 1626) (hne : idxs ≠ []) :
    ∃ idx, createChecksumIndex canon crc32 (idxs.map fun i => language.wordList.getD i [])
        language = .ok idx ∧ idx < idxs.length := by
  refine ⟨(crc32 (idxs.map fun i =>
      utf8Prefix (language.wordList.getD i []) language.uniquePrefixLength).flatten).toNat %
      idxs.length, ?_, Nat.mod_lt _ (List.length_pos_of_ne_nil hne)⟩
  rw [createChecksumIndex, foldlM_checksumStep hwf idxs [] hlt, List.nil_append, List.length_map]
  rfl

/-- A seed that ends in its checksum word passes the checksum test. -/
theorem checksumTest_concat {words : List (List Char)} {idx : ℕ}
    (hidx : createChecksumIndex canon crc32 words language = .ok idx) (hlt : idx < words.length) :
    checksumTest canon crc32 (words ++ [words.getD idx []]) language = .ok true := by
  rw [checksumTest, List.getLast?_concat]
  simp only [List.dropLast_concat, hidx, bind, Except.bind]
  rw [List.getElem?_eq_getElem hlt, List.getD_eq_getElem?_getD, List.getElem?_eq_getElem hlt,
    Option.getD_some]
  simp [pure, Except.pure]

end Seed

/-! ## Splitting the words back -/

/-- Characters that are not white space extend the last field. -/
theorem foldl_splitStep_extend {w : List Char} (hw : ∀ c ∈ w, isSpace c = false) :
    ∀ (acc : List (List Char)) (p : List Char),
      w.foldl splitStep (acc ++ [p], false) = (acc ++ [p ++ w], false) := by
  induction w with
  | nil =>
    intro acc p
    rw [List.foldl_nil, List.append_nil]
  | cons c w ih =>
    intro acc p
    have hc : isSpace c = false := hw c List.mem_cons_self
    have hstep : splitStep (acc ++ [p], false) c = (acc ++ [p ++ [c]], false) := by
      simp only [splitStep, hc, Bool.false_eq_true, if_false, List.modifyLast_concat]
    rw [List.foldl_cons, hstep, ih (fun d hd => hw d (List.mem_cons_of_mem c hd)),
      List.append_assoc, List.singleton_append]

/-- A word after white space is a new field. -/
theorem foldl_splitStep_word {w : List Char} (hne : w ≠ []) (hw : ∀ c ∈ w, isSpace c = false)
    (acc : List (List Char)) : w.foldl splitStep (acc, true) = (acc ++ [w], false) := by
  obtain ⟨c, w, rfl⟩ := List.exists_cons_of_ne_nil hne
  have hc : isSpace c = false := hw c List.mem_cons_self
  have hstep : splitStep (acc, true) c = (acc ++ [[c]], false) := by
    rw [splitStep, if_neg (by rw [hc]; decide), if_pos rfl]
  rw [List.foldl_cons, hstep, foldl_splitStep_extend (fun d hd => hw d (List.mem_cons_of_mem c hd)),
    List.singleton_append]

/-- Words each followed by a space split into those words. -/
theorem foldl_splitStep_flatMap {words : List (List Char)}
    (hwords : ∀ w ∈ words, w ≠ [] ∧ ∀ c ∈ w, isSpace c = false) :
    ∀ acc : List (List Char),
      (words.flatMap (· ++ [' '])).foldl splitStep (acc, true) = (acc ++ words, true) := by
  induction words with
  | nil =>
    intro acc
    rw [List.flatMap_nil, List.foldl_nil, List.append_nil]
  | cons w words ih =>
    intro acc
    obtain ⟨hne, hw⟩ := hwords w List.mem_cons_self
    have hspace : splitStep (acc ++ [w], false) ' ' = (acc ++ [w], true) := by
      rw [splitStep, if_pos (by decide)]
    rw [List.flatMap_cons, List.foldl_append, List.foldl_append, foldl_splitStep_word hne hw,
      List.foldl_cons, List.foldl_nil, hspace,
      ih (fun v hv => hwords v (List.mem_cons_of_mem w hv)), List.append_assoc,
      List.singleton_append]

/-- `split` of what `bytes_to_words` writes: the words, each followed by a space, and the
checksum word. -/
theorem split_flatMap {words : List (List Char)} {last : List Char}
    (hwords : ∀ w ∈ words ++ [last], w ≠ [] ∧ ∀ c ∈ w, isSpace c = false) :
    split (words.flatMap (· ++ [' ']) ++ last) = words ++ [last] := by
  obtain ⟨hne, hlast⟩ := hwords last (List.mem_append_right words List.mem_cons_self)
  rw [split, List.foldl_append,
    foldl_splitStep_flatMap (fun w hw => hwords w (List.mem_append_left _ hw)),
    foldl_splitStep_word hne hlast, List.nil_append]

/-! ## The seed's language -/

section Search

variable (canon : List Char → List Char) (crc32 : List Char → UInt32)
variable {seed : List (List Char)} {language : Base} {matchedIndices : List ℕ}

/-- What the search for a seed's language with a checksum word returns: a language whose words
all matched and whose checksum test passed, with the matched indices; or, with no indices, a
language whose checksum test failed. -/
theorem findSeedLanguageLoop_eq_some :
    ∀ (languages : List Base) (fallback : Option Base),
      findSeedLanguageLoop canon crc32 seed true languages fallback =
          .ok (some (language, matchedIndices)) →
        matchSeed canon language seed true = some matchedIndices ∧
            checksumTest canon crc32 seed language = .ok true ∨
          matchedIndices = [] ∧
            (fallback = some language ∨ checksumTest canon crc32 seed language = .ok false)
  | [], fallback, h => by
    cases fallback with
    | none => cases h
    | some f =>
      simp only [findSeedLanguageLoop, Option.map_some, pure, Except.pure, Except.ok.injEq,
        Option.some.injEq, Prod.mk.injEq] at h
      obtain ⟨rfl, rfl⟩ := h
      exact .inr ⟨rfl, .inl rfl⟩
  | l :: languages, fallback, h => by
    rw [findSeedLanguageLoop] at h
    cases hmatch : matchSeed canon l seed true with
    | none =>
      rw [hmatch] at h
      exact findSeedLanguageLoop_eq_some languages fallback h
    | some matched =>
      simp only [hmatch, if_true] at h
      cases htest : checksumTest canon crc32 seed l with
      | error e =>
        rw [htest] at h
        cases h
      | ok fullMatch =>
        rw [htest] at h
        cases fullMatch with
        | true =>
          simp only [bind, Except.bind, if_true, pure, Except.pure, Except.ok.injEq,
            Option.some.injEq, Prod.mk.injEq] at h
          obtain ⟨rfl, rfl⟩ := h
          exact .inl ⟨hmatch, htest⟩
        | false =>
          simp only [bind, Except.bind, Bool.false_eq_true, if_false] at h
          rcases findSeedLanguageLoop_eq_some languages (some l) h with hfull | ⟨hmi, hfallback⟩
          · exact .inl hfull
          · refine .inr ⟨hmi, .inr ?_⟩
            rcases hfallback with hl | hfailed
            · rw [← Option.some.inj hl]
              exact htest
            · exact hfailed

/-- A language whose checksum test passes is found with the indices its words match. -/
theorem matchSeed_of_findSeedLanguage (languageInstances : List Base)
    (htest : checksumTest canon crc32 seed language = .ok true)
    (h : findSeedLanguage canon crc32 languageInstances seed true =
      .ok (some (language, matchedIndices))) :
    matchSeed canon language seed true = some matchedIndices := by
  rcases findSeedLanguageLoop_eq_some canon crc32 languageInstances none h with
    ⟨hmatch, -⟩ | ⟨-, hnone | hfailed⟩
  · exact hmatch
  · cases hnone
  · rw [htest] at hfailed
    cases hfailed

/-- A seed of one well-formed list's words whose checksum test passes is found in that list. -/
theorem findSeedLanguage_singleton (hwf : WellFormed canon language)
    (hmem : ∀ w ∈ seed, w ∈ language.wordList)
    (htest : checksumTest canon crc32 seed language = .ok true) :
    findSeedLanguage canon crc32 [language] seed true =
      .ok (some (language, seed.map language.wordList.idxOf)) := by
  simp only [findSeedLanguage, findSeedLanguageLoop, matchSeed_of_forall_mem hwf hmem, if_true,
    htest]
  rfl

end Search

/-! ## The round trip -/

section RoundTrip

variable (canon : List Char → List Char) (crc32 : List Char → UInt32)
variable {languageInstances : List Base} {language : Base} {matchedIndices : List ℕ}

/-- `words_to_bytes` of a seed with a checksum word, once its language is found and the checksum
test passes: the bytes the matched indices decode to. -/
theorem wordsToBytes_of_checksum {words : List Char} {len : ℕ} {dst : List UInt8}
    (hmod : len % 4 = 0) (hseed : (split words).length = len * 8 * 3 / 32 + 1)
    (hfound : findSeedLanguage canon crc32 languageInstances (split words) true =
      .ok (some (language, matchedIndices)))
    (htest : checksumTest canon crc32 (split words) language = .ok true)
    (hdecode : decodeLoop (UInt32.ofNat language.wordList.length)
      ((split words).dropLast.length / 3) matchedIndices = some dst) :
    wordsToBytes canon crc32 languageInstances words len false =
      .ok (some (dst, language.languageName)) := by
  have hcount : ¬(len ≠ 0 ∧ (split words).length ≠ len * 8 * 3 / 32 / 2 ∧
      (split words).length ≠ len * 8 * 3 / 32 ∧ (split words).length ≠ len * 8 * 3 / 32 + 1) :=
    fun h => h.2.2.2 hseed
  have hchecksum : decide (len = 0 ∨ (split words).length = len * 8 * 3 / 32 + 1) = true :=
    decide_eq_true (Or.inr hseed)
  simp only [wordsToBytes, hmod, ne_eq, not_true_eq_false, if_false, if_neg hcount, hchecksum,
    hfound]
  simp only [Except.bind, Except.map, if_true]
  -- without `duplicate` the decoded bytes are returned as they are
  simp only [htest, if_true, hdecode, Bool.false_eq_true, false_and, and_false, if_false]
  rfl

/-- What `bytes_to_words` writes for a list it finds by name: its words, each followed by a
space, then the word at their checksum index. -/
theorem bytesToWords_eq {languageList : List Base} {languageName : String} {src : List UInt8}
    (hfind : findLanguage languageList languageName = some language)
    (hmod : src.length % 4 = 0) (hpos : 0 < src.length) {idx : ℕ}
    (hidx : createChecksumIndex canon crc32 (encodeLoop language.wordList src) language = .ok idx) :
    bytesToWords canon crc32 languageList src languageName =
      .ok (some ((encodeLoop language.wordList src).flatMap (· ++ [' ']) ++
        (encodeLoop language.wordList src).getD idx [])) := by
  have hsize : ¬(src.length % 4 ≠ 0 ∨ src.length = 0) := by omega
  rw [bytesToWords, if_neg hsize, hfind]
  simp only [hidx]
  rfl

/-- **The round trip of mnemonic seeds.** A triple of word indices passes the "mumble" check
exactly when it is the encoding of a value. For a well-formed list found by name and `4 * k`
bytes, `bytes_to_words` writes `3 * k` words of the list and a checksum word that passes the
checksum test, and once `find_seed_language` finds the list for them, `words_to_bytes` gives the
bytes back. -/
theorem wordsToBytes_bytesToWords :
    (∀ w1 w2 w3 : UInt32, w1.toNat < 1626 → w2.toNat < 1626 → w3.toNat < 1626 →
      ((∃ w, decodeTriple 1626 w1 w2 w3 = some w) ↔ ∃ w, encodeTriple 1626 w = (w1, w2, w3))) ∧
    ∀ (languageList : List Base) (languageName : String) (language : Base),
      findLanguage languageList languageName = some language → WellFormed canon language →
      ∀ k : ℕ, 1 ≤ k → ∀ src : List UInt8, src.length = 4 * k →
        ∃ words seed checksum,
          bytesToWords canon crc32 languageList src languageName = .ok (some words) ∧
          split words = seed ++ [checksum] ∧ seed.length = 3 * k ∧
          (∀ w ∈ seed ++ [checksum], w ∈ language.wordList) ∧
          checksumTest canon crc32 (seed ++ [checksum]) language = .ok true ∧
          ∀ matchedIndices, findSeedLanguage canon crc32 languageList (seed ++ [checksum]) true =
              .ok (some (language, matchedIndices)) →
            wordsToBytes canon crc32 languageList words src.length false =
              .ok (some (src, language.languageName)) := by
  refine ⟨fun w1 w2 w3 h1 h2 h3 => ⟨fun ⟨w, hw⟩ => ⟨w, (decodeTriple_eq_some_iff h1 h2 h3 w).mp hw⟩,
    fun ⟨w, hw⟩ => ⟨w, (decodeTriple_eq_some_iff h1 h2 h3 w).mpr hw⟩⟩, ?_⟩
  intro languageList languageName language hfind hwf k hk src hlen
  -- the indices written, each below 1626, three for each four bytes
  have hlt : ∀ i ∈ encodeIndices src, i < 1626 := fun i hi => lt_of_mem_encodeIndices hi
  have hcount : (encodeIndices src).length = 3 * k := length_encodeIndices k src hlen
  have hne : encodeIndices src ≠ [] := List.ne_nil_of_length_pos (by omega)
  have hencode := encodeLoop_eq hwf.length_wordList src
  obtain ⟨idx, hidx, hidxlt⟩ := createChecksumIndex_map_getD crc32 hwf hlt hne
  set seed := (encodeIndices src).map fun i => language.wordList.getD i []
  -- the checksum word is the word at one of the indices
  have hchecksum : seed.getD idx [] = language.wordList.getD (encodeIndices src)[idx] [] := by
    rw [List.getD_eq_getElem?_getD, List.getElem?_map, List.getElem?_eq_getElem hidxlt]
    rfl
  have hindices : ∀ i ∈ encodeIndices src ++ [(encodeIndices src)[idx]], i < 1626 := by
    intro i hi
    rcases List.mem_append.mp hi with hi | hi
    · exact hlt i hi
    · rw [List.mem_singleton.mp hi]
      exact hlt _ (List.getElem_mem hidxlt)
  have hseedMap : seed ++ [seed.getD idx []] =
      (encodeIndices src ++ [(encodeIndices src)[idx]]).map
        fun i => language.wordList.getD i [] := by
    rw [hchecksum, List.map_append, List.map_singleton]
  have hwords : ∀ w ∈ seed ++ [seed.getD idx []], w ∈ language.wordList := by
    intro w hw
    rw [hseedMap] at hw
    obtain ⟨i, hi, rfl⟩ := List.mem_map.mp hw
    obtain ⟨hi', hget⟩ := hwf.getD_eq (hindices i hi)
    rw [hget]
    exact List.getElem_mem hi'
  have hsplit : split (seed.flatMap (· ++ [' ']) ++ seed.getD idx []) = seed ++ [seed.getD idx []] :=
    split_flatMap fun w hw => ⟨hwf.ne_nil w (hwords w hw), hwf.not_isSpace w (hwords w hw)⟩
  have htest := checksumTest_concat crc32 hidx (by rw [List.length_map]; exact hidxlt)
  refine ⟨_, seed, seed.getD idx [],
    by rw [bytesToWords_eq canon crc32 hfind (by omega) (by omega) (hencode ▸ hidx), hencode],
    hsplit, by rw [List.length_map, hcount], hwords, htest, ?_⟩
  intro matchedIndices hfound
  -- the language found matches the words to the indices written
  have hmatched : matchedIndices = encodeIndices src ++ [(encodeIndices src)[idx]] := by
    have hmatch := matchSeed_of_findSeedLanguage canon crc32 languageList htest hfound
    rw [hseedMap, matchSeed_map_getD hwf _ hindices] at hmatch
    exact (Option.some.inj hmatch).symm
  apply wordsToBytes_of_checksum canon crc32 (by omega)
  · rw [hsplit, List.length_append, List.length_map, hcount, List.length_singleton]
    omega
  · rw [hsplit]
    exact hfound
  · rw [hsplit]
    exact htest
  · rw [hsplit, List.dropLast_concat, List.length_map, hcount, hwf.length_wordList, hmatched,
      Nat.mul_div_cancel_left k (by omega)]
    exact decodeLoop_encodeIndices k src _ hlen

end RoundTrip

/-- A list of 1626 words, the decimal numerals of their indices. -/
def numeralWords : Base where
  languageName := "Numerals"
  englishLanguageName := "Numerals"
  wordList := (List.range 1626).map (Nat.toDigits 10)
  uniquePrefixLength := 4

theorem numeralWords_wordList :
    numeralWords.wordList = (List.range 1626).map (Nat.toDigits 10) := by
  simp only [numeralWords]

/-- The numerals are 1626 words of at most four digits, so their prefixes are the numerals. -/
theorem numeralWords_wellFormed : WellFormed id numeralWords where
  length_wordList := by rw [numeralWords_wordList, List.length_map, List.length_range]
  ne_nil := by
    intro w hw
    rw [numeralWords_wordList] at hw
    obtain ⟨i, -, rfl⟩ := List.mem_map.mp hw
    exact Nat.toDigits_ne_nil
  not_isSpace := by
    intro w hw c hc
    rw [numeralWords_wordList] at hw
    obtain ⟨i, -, rfl⟩ := List.mem_map.mp hw
    exact isSpace_of_isDigit (Nat.isDigit_of_mem_toDigits (by omega) (by omega) hc)
  nodup_prefixes := by
    have hshort : ∀ n ∈ List.range 1626, (Nat.toDigits 10 n).length ≤ 4 := by
      intro n hn
      rw [Nat.length_toDigits_le_iff (by omega) (by omega)]
      have := List.mem_range.mp hn
      omega
    rw [numeralWords_wordList, List.map_id, List.map_map]
    refine List.Nodup.map_on ?_ List.nodup_range
    intro x hx y hy hxy
    simp only [Function.comp_apply, utf8Prefix, show numeralWords.uniquePrefixLength = 4 from rfl,
      List.take_of_length_le (hshort x hx), List.take_of_length_le (hshort y hy)] at hxy
    rw [← Nat.ofDigitChars_ten_toDigits (n := x), hxy, Nat.ofDigitChars_ten_toDigits]

theorem wordsToBytes_bytesToWords_numerals :
    findLanguage [numeralWords] "Numerals" = some numeralWords ∧ WellFormed id numeralWords ∧
      ∃ words seed checksum matchedIndices,
        bytesToWords id (fun _ => 0) [numeralWords] [1, 2, 3, 4] "Numerals" = .ok (some words) ∧
        split words = seed ++ [checksum] ∧ seed.length = 3 * 1 ∧
        (∀ w ∈ seed ++ [checksum], w ∈ numeralWords.wordList) ∧
        checksumTest id (fun _ => 0) (seed ++ [checksum]) numeralWords = .ok true ∧
        findSeedLanguage id (fun _ => 0) [numeralWords] (seed ++ [checksum]) true =
          .ok (some (numeralWords, matchedIndices)) ∧
        wordsToBytes id (fun _ => 0) [numeralWords] words [1, 2, 3, 4].length false =
          .ok (some ([1, 2, 3, 4], numeralWords.languageName)) := by
  obtain ⟨words, seed, checksum, hwords, hsplit, hlen, hmem, htest, hround⟩ :=
    (wordsToBytes_bytesToWords id fun _ => 0).2 [numeralWords] "Numerals" numeralWords rfl
      numeralWords_wellFormed 1 le_rfl [1, 2, 3, 4] rfl
  -- the only list there is finds the seed, its words being words of the list
  have hfound := findSeedLanguage_singleton id (fun _ => 0) numeralWords_wellFormed hmem htest
  exact ⟨rfl, numeralWords_wellFormed, words, seed, checksum, _, hwords, hsplit, hlen, hmem, htest,
    hfound, hround _ hfound⟩

end ElectrumWords

end Wazn
