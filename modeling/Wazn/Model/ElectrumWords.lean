import Mathlib.Data.Nat.Digits.Lemmas
import Wazn.Model.AmountText

/-!
# Mnemonic seeds (`src/mnemonics/electrum-words.cpp`)

`bytes_to_words` writes each four bytes of a key, read as a little-endian `uint32_t` `w`, as
three words of a list of `n` words: `w % n`, then the next base-`n` digits of `w`, each added
to the word before modulo `n`. It appends a checksum word, the word at the CRC-32 of the words'
unique prefixes modulo their number. `words_to_bytes` splits the words, finds their language
(`find_seed_language`), checks the checksum word, and decodes each three indices back, checking
that the first one is what the value gives (the "mumble" check).

A word list is `Language::Base`: its names, its words, and the number of characters of a word
that tell it apart, with the maps `populate_maps` builds from them. The maps compare words by
`WordEqual`, equality after `tools::utf8canonical` with `towlower`; that canonical form is a
parameter `canon`. Words and strings are lists of characters, so `utf8prefix` takes characters.
The throws of `populate_maps`, for a list that is not 1626 words long or has a short word or
two equal prefixes without the flag that allows them, are not modelled: the maps are built as
they are when the flags allow it. `boost::crc_32_type` of the prefixes' bytes is a parameter
`crc32`. Where the source throws, the model returns `Except.error` with the message; where a
function returns `false`, `none`.
-/

set_option autoImplicit false

namespace Wazn

namespace Language

/-- A word list, `Language::Base`. -/
structure Base where
  languageName : String
  englishLanguageName : String
  wordList : List (List Char)
  uniquePrefixLength : ℕ
  deriving DecidableEq, Repr

/-- `Language::utf8prefix(s, count)`: the first `count` characters of `s`. -/
def utf8Prefix (s : List Char) (count : ℕ) : List Char := s.take count

/-- An `unordered_map` keyed with `WordEqual`: its entries in the order first inserted. -/
abbrev WordMap := List (List Char × ℕ)

variable (canon : List Char → List Char)

/-- `map[k] = v`: the value of the entry whose key is equal to `k` replaced, its key kept; or a
new entry. -/
def WordMap.insert (m : WordMap) (k : List Char) (v : ℕ) : WordMap :=
  if m.any (fun e => canon e.1 = canon k) then
    m.map fun e => if canon e.1 = canon k then (e.1, v) else e
  else m ++ [(k, v)]

/-- `map.find(k)`: the entry whose key is equal to `k`. -/
def WordMap.find (m : WordMap) (k : List Char) : Option (List Char × ℕ) :=
  m.find? fun e => canon e.1 = canon k

/-- The loop of `populate_maps` over the words from index `ii` on, inserting each key. -/
def populateLoop : List (List Char) → ℕ → WordMap → WordMap
  | [], _, m => m
  | key :: keys, ii, m => populateLoop keys (ii + 1) (m.insert canon key ii)

/-- The `word_map` of `populate_maps`: each word to its index. -/
def Base.wordMap (b : Base) : WordMap :=
  populateLoop canon b.wordList 0 []

/-- The `trimmed_word_map` of `populate_maps`: each word's first `unique_prefix_length`
characters to its index. The source keeps a word no longer than that whole, which is its
prefix. -/
def Base.trimmedWordMap (b : Base) : WordMap :=
  populateLoop canon (b.wordList.map fun w => utf8Prefix w b.uniquePrefixLength) 0 []

end Language

namespace ElectrumWords

open Wazn.Language Cryptonote

variable (canon : List Char → List Char) (crc32 : List Char → UInt32)

/-- One character of `wipeable_string::split`: the fields so far and whether the character before
was white space. -/
def splitStep (acc : List (List Char) × Bool) (c : Char) : List (List Char) × Bool :=
  if isSpace c then (acc.1, true)
  else if acc.2 then (acc.1 ++ [[c]], false)
  else (acc.1.modifyLast (· ++ [c]), false)

/-- `wipeable_string::split`: the runs of characters that are not white space. -/
def split (s : List Char) : List (List Char) :=
  (s.foldl splitStep ([], true)).1

/-- One word of `create_checksum_index`: its prefix looked up in the trimmed word map, and the
map's key appended to the prefixes so far. -/
def checksumStep (language : Base) (trimmedWords w : List Char) : Except String (List Char) :=
  let word := utf8Prefix w language.uniquePrefixLength
  match (language.trimmedWordMap canon).find canon word with
  | none =>
    throw ("Word \"" ++ String.ofList word ++ "\" not found in trimmed word map in " ++
      language.englishLanguageName)
  | some (key, _) => pure (trimmedWords ++ key)

/-- `create_checksum_index(word_list, language)`: the CRC-32 of the words' prefixes, as the
trimmed word map keys them, modulo the number of words. -/
def createChecksumIndex (wordList : List (List Char)) (language : Base) : Except String ℕ := do
  let trimmedWords ← wordList.foldlM (checksumStep canon language) []
  pure ((crc32 trimmedWords).toNat % wordList.length)

/-- `checksum_test(seed, language)`: the last word is, up to its prefix, the word the other
words' checksum index points at. A seed of one word, where the source takes a remainder by
zero, fails. -/
def checksumTest (seed : List (List Char)) (language : Base) : Except String Bool :=
  match seed.getLast? with
  | none => pure false
  | some lastWord => do
    let seed := seed.dropLast
    let uniquePrefixLength := language.uniquePrefixLength
    let idx ← createChecksumIndex canon crc32 seed language
    match seed[idx]? with
    | none => pure false
    | some checksum =>
      let trimmedChecksum :=
        if uniquePrefixLength < checksum.length then utf8Prefix checksum uniquePrefixLength
        else checksum
      let trimmedLastWord :=
        if uniquePrefixLength < lastWord.length then utf8Prefix lastWord uniquePrefixLength
        else lastWord
      pure (decide (canon trimmedChecksum = canon trimmedLastWord))

/-- The indices `find_seed_language` finds for the seed's words in one language: by the trimmed
word map for a seed with a checksum word, by the word map for one without; `none` at the first
word missing. -/
def matchSeed (language : Base) (seed : List (List Char)) (hasChecksum : Bool) :
    Option (List ℕ) :=
  seed.mapM fun w =>
    if hasChecksum then
      ((language.trimmedWordMap canon).find canon (utf8Prefix w language.uniquePrefixLength)).map
        (·.2)
    else ((language.wordMap canon).find canon w).map (·.2)

/-- The loop of `find_seed_language` over the languages, with the last language whose words
all matched but whose checksum failed as the fallback. -/
def findSeedLanguageLoop (seed : List (List Char)) (hasChecksum : Bool) :
    List Base → Option Base → Except String (Option (Base × List ℕ))
  | [], fallback => pure (fallback.map fun language => (language, []))
  | language :: languages, fallback =>
    match matchSeed canon language seed hasChecksum with
    | none => findSeedLanguageLoop seed hasChecksum languages fallback
    | some matchedIndices => do
      let fullMatch ← if hasChecksum then checksumTest canon crc32 seed language else pure true
      if fullMatch then pure (some (language, matchedIndices))
      else findSeedLanguageLoop seed hasChecksum languages (some language)

/-- `find_seed_language(seed, has_checksum, matched_indices, language)`: the language and the
matched indices; `none` where it returns `false`. The indices of a fallback are cleared. -/
def findSeedLanguage (languageInstances : List Base) (seed : List (List Char))
    (hasChecksum : Bool) : Except String (Option (Base × List ℕ)) :=
  findSeedLanguageLoop canon crc32 seed hasChecksum languageInstances none

/-- Four bytes as a little-endian `uint32_t`, `SWAP32LE(*(const uint32_t*)p)`. -/
def readUint32LE (bytes : List UInt8) : UInt32 :=
  UInt32.ofNat (Nat.ofDigits 256 (bytes.map UInt8.toNat))

/-- The four bytes of `SWAP32LE(w)` in memory. -/
def uint32LEBytes (w : UInt32) : List UInt8 :=
  (Nat.digitsAppend 256 4 w.toNat).map UInt8.ofNat

/-- The three word indices `bytes_to_words` writes for a value `w[0]`, with `n` words. -/
def encodeTriple (wordListLength w0 : UInt32) : UInt32 × UInt32 × UInt32 :=
  let w1 := w0 % wordListLength
  let w2 := (w0 / wordListLength + w1) % wordListLength
  let w3 := (w0 / wordListLength / wordListLength + w2) % wordListLength
  (w1, w2, w3)

/-- The value `words_to_bytes` decodes from three word indices, in `uint32_t`; `none` where the
"mumble" check fails. -/
def decodeTriple (wordListLength w1 w2 w3 : UInt32) : Option UInt32 :=
  let w0 := w1 + wordListLength * (((wordListLength - w1) + w2) % wordListLength) +
    wordListLength * wordListLength * (((wordListLength - w2) + w3) % wordListLength)
  if w0 % wordListLength = w1 then some w0 else none

/-- The loop of `bytes_to_words`: the three words of each four bytes. -/
def encodeLoop (wordList : List (List Char)) : List UInt8 → List (List Char)
  | b0 :: b1 :: b2 :: b3 :: src =>
    let (w1, w2, w3) :=
      encodeTriple (UInt32.ofNat wordList.length) (readUint32LE [b0, b1, b2, b3])
    [wordList.getD w1.toNat [], wordList.getD w2.toNat [], wordList.getD w3.toNat []] ++
      encodeLoop wordList src
  | _ => []

/-- The language `bytes_to_words` looks up by name: the last one with that name or English
name. -/
def findLanguage (languageList : List Base) (languageName : String) : Option Base :=
  languageList.foldl (fun language l =>
    if languageName = l.languageName ∨ languageName = l.englishLanguageName then some l
    else language) none

/-- `bytes_to_words(src, len, words, language_name)`, `words` empty: each word followed by a
space, then the checksum word. -/
def bytesToWords (languageList : List Base) (src : List UInt8) (languageName : String) :
    Except String (Option (List Char)) :=
  if src.length % 4 ≠ 0 ∨ src.length = 0 then pure none
  else
    match findLanguage languageList languageName with
    | none => pure none
    | some language => do
      let wordsStore := encodeLoop language.wordList src
      let idx ← createChecksumIndex canon crc32 wordsStore language
      pure (some (wordsStore.flatMap (· ++ [' ']) ++ wordsStore.getD idx []))

/-- The loop of `words_to_bytes`: the four bytes of each three matched indices. -/
def decodeLoop (wordListLength : UInt32) : ℕ → List ℕ → Option (List UInt8)
  | 0, _ => some []
  | k + 1, w1 :: w2 :: w3 :: matchedIndices => do
    let w0 ← decodeTriple wordListLength (UInt32.ofNat w1) (UInt32.ofNat w2) (UInt32.ofNat w3)
    let dst ← decodeLoop wordListLength k matchedIndices
    pure (uint32LEBytes w0 ++ dst)
  -- fewer indices than words: not reached, `matched_indices` has one per word
  | _ + 1, _ => none

/-- `words_to_bytes(words, dst, len, duplicate, language_name)`, `dst` empty: the bytes and the
name of the language; `none` where it returns `false`. -/
def wordsToBytes (languageInstances : List Base) (words : List Char) (len : ℕ)
    (duplicate : Bool) : Except String (Option (List UInt8 × String)) :=
  let seed := split words
  if len % 4 ≠ 0 then pure none
  else
    let expected := len * 8 * 3 / 32
    if len ≠ 0 ∧ seed.length ≠ expected / 2 ∧ seed.length ≠ expected ∧
        seed.length ≠ expected + 1 then pure none
    else
      let hasChecksum := decide (len = 0 ∨ seed.length = expected + 1)
      (findSeedLanguage canon crc32 languageInstances seed hasChecksum).bind fun
        | none => pure none
        | some (language, matchedIndices) =>
          let checked : Except String (Option (List (List Char))) :=
            if hasChecksum then
              (checksumTest canon crc32 seed language).map fun ok =>
                if ok then some seed.dropLast else none
            else pure (some seed)
          checked.bind fun
            | none => pure none
            | some seed =>
              match decodeLoop (UInt32.ofNat language.wordList.length) (seed.length / 3)
                  matchedIndices with
              | none => pure none
              | some dst =>
                -- an electrum seed of half the words is duplicated
                let dst := if 0 < len ∧ duplicate ∧ seed.length = len * 3 / 32 / 2 then dst ++ dst
                  else dst
                pure (some (dst, language.languageName))

end ElectrumWords

end Wazn
