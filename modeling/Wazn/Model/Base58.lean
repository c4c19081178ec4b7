import Mathlib.Data.Nat.Digits.Lemmas

/-!
# Base58 (`src/common/base58.cpp`)

The address codec cuts its input into blocks of 8 bytes, reads each block as a
big-endian number and writes it as a fixed number of base-58 letters: 11 for a full
block, and for a last partial block of `k` bytes the length `encoded_block_sizes[k]`.
Decoding reads the letters back, refusing a letter outside the alphabet, an encoded
length that no block size has, and a block whose value does not fit: in 64 bits (the
carry and the high half of `mul128` in the loop) or in the `k` bytes of a partial block.

Strings are byte strings, `List UInt8`. Each block writes its own slice of the result in
the source; here the slices are concatenated, and `encode_length` and `decode_length`
show that the result has the size the source allocates for it. The tables
`reverse_alphabet` and `decoded_block_sizes` invert `alphabet` and
`encoded_block_sizes`; they are written as index lookups.

`encode_addr` and `decode_addr` add a varint tag and a Keccak checksum around this codec;
they are modelled in `Wazn.Model.Address`.
-/

set_option autoImplicit false

namespace Wazn

namespace Base58

/-- `alphabet`: the 58 letters, without `0`, `I`, `O` and `l`. -/
def alphabet : List UInt8 :=
  "123456789ABCDEFGHJKLMNPQRSTUVWXYZabcdefghijkmnopqrstuvwxyz".toList.map Char.toUInt8

/-- `alphabet_size = sizeof(alphabet) - 1`. -/
def alphabetSize : ℕ := alphabet.length

/-- `encoded_block_sizes`: the number of letters for a block of `k` bytes. -/
def encodedBlockSizes : List ℕ := [0, 2, 3, 5, 6, 7, 9, 10, 11]

/-- `full_block_size`: 8 bytes. -/
def fullBlockSize : ℕ := encodedBlockSizes.length - 1

/-- `full_encoded_block_size`: 11 letters. -/
def fullEncodedBlockSize : ℕ := encodedBlockSizes.getD fullBlockSize 0

/-- `reverse_alphabet`: the digit a letter stands for; `-1`, here `none`, for any other
byte. -/
def reverseAlphabet (letter : UInt8) : Option ℕ := alphabet.idxOf? letter

/-- `decoded_block_sizes`: the number of bytes of a block of `n` letters; `-1`, here
`none`, for a length that no block has. -/
def decodedBlockSizes (encodedBlockSize : ℕ) : Option ℕ :=
  encodedBlockSizes.idxOf? encodedBlockSize

/-- `uint_8be_to_64`: the value of a block read as a big-endian number. -/
def uint8beTo64 (data : List UInt8) : ℕ :=
  Nat.ofDigits 256 (data.reverse.map UInt8.toNat)

/-- `uint_64_to_8be`: the `size` low bytes of `num`, big-endian. -/
def uint64To8be (num size : ℕ) : List UInt8 :=
  (Nat.digitsAppend 256 size (num % 256 ^ size)).reverse.map UInt8.ofNat

/-- The loop of `encode_block`: while `num` is positive, write its last base-58 digit at
position `i` and move left. The first argument is the number of positions left of and at
`i`, so the loop stops at the front of the block; that it never needs to go further is
`encodeBlockLoop_eq`. -/
def encodeBlockLoop : ℕ → ℕ → List UInt8 → List UInt8
  | 0, _, res => res
  | i + 1, num, res =>
    if 0 < num then
      encodeBlockLoop i (num / alphabetSize) (res.set i (alphabet.getD (num % alphabetSize) 0))
    else res

/-- `encode_block`: the letters of one block, into a slice filled with `alphabet[0]`. -/
def encodeBlock (block : List UInt8) : List UInt8 :=
  let encodedSize := encodedBlockSizes.getD block.length 0
  encodeBlockLoop encodedSize (uint8beTo64 block)
    (List.replicate encodedSize (alphabet.getD 0 0))

/-- One iteration of the loop of `decode_block`, from the last letter to the first: add
the letter's digit times `order` to `res_num`, refusing an unknown letter and a sum that
does not fit in 64 bits. -/
def decodeBlockStep (acc : ℕ × ℕ) (letter : UInt8) : Option (ℕ × ℕ) :=
  match reverseAlphabet letter with
  | none => none
  | some digit =>
    -- `mul128(order, digit, &product_hi)`: the low half, and the high half apart
    let product := acc.2 * digit
    let productHi := product / 2 ^ 64
    let tmp := (acc.1 + product % 2 ^ 64) % 2 ^ 64
    if tmp < acc.1 ∨ productHi ≠ 0 then none
    else some (tmp, acc.2 * alphabetSize % 2 ^ 64)

/-- `decode_block`: the bytes of one block of letters. -/
def decodeBlock (block : List UInt8) : Option (List UInt8) :=
  match decodedBlockSizes block.length with
  | none => none
  | some resSize =>
    -- `res_size <= 0`
    if resSize = 0 then none
    else
      match block.reverse.foldlM decodeBlockStep (0, 1) with
      | none => none
      | some (resNum, _) =>
        if resSize < fullBlockSize ∧ 2 ^ (8 * resSize) ≤ resNum then none
        else some (uint64To8be resNum resSize)

/-- `base58::encode`. -/
def encode (data : List UInt8) : List UInt8 :=
  if data.isEmpty then []
  else
    let fullBlockCount := data.length / fullBlockSize
    let lastBlockSize := data.length % fullBlockSize
    let full := (List.range fullBlockCount).flatMap fun i =>
      encodeBlock ((data.drop (i * fullBlockSize)).take fullBlockSize)
    let last :=
      if 0 < lastBlockSize then encodeBlock (data.drop (fullBlockCount * fullBlockSize)) else []
    full ++ last

/-- `base58::decode`; `none` where the source returns `false`. -/
def decode (enc : List UInt8) : Option (List UInt8) :=
  if enc.isEmpty then some []
  else
    let fullBlockCount := enc.length / fullEncodedBlockSize
    let lastBlockSize := enc.length % fullEncodedBlockSize
    match decodedBlockSizes lastBlockSize with
    | none => none
    | some _ => do
      let full ← (List.range fullBlockCount).mapM fun i =>
        decodeBlock ((enc.drop (i * fullEncodedBlockSize)).take fullEncodedBlockSize)
      let last ←
        if 0 < lastBlockSize then decodeBlock (enc.drop (fullBlockCount * fullEncodedBlockSize))
        else pure []
      pure (full.flatten ++ last)

end Base58

end Wazn
