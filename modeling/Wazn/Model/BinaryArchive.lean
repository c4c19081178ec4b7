import Mathlib.Data.Nat.Digits.Defs
import Wazn.Library.ByteCodec

/-!
# The binary archive (`src/serialization/binary_archive.h`, `src/common/varint.h`)

The consensus types are written by `binary_archive<true>` and read by
`binary_archive<false>` through one template per type. This file models the archive's
primitives, over which `Wazn.Model.RctTypes` and `Wazn.Model.CryptonoteBasic` write the
types' serializers: varints (`write_varint`, `read_varint`), little-endian integers of a
fixed width (`serialize_uint`), blobs, containers with their count and the check that
enough bytes remain, variant tags, and the entry points `parse_binary` and `dump_binary`.

A reader is a `ByteCodec.Reader` over the bytes left in the stream: setting the stream's
fail bit is `none`. A writer leaves a `ByteCodec.Output`: the bytes put into the stream,
and whether the serializer returned `true`. The stream itself is not modelled: the input
stream is its unread bytes, and the output stream never fails.

`read_varint` reads from an `istreambuf_iterator`, which does not touch the stream's
state: at the end of the input it returns the number of bytes read so far, which is not
negative, so `serialize_uvarint` leaves the stream good and the value is what was read
until then (`readVarintLoop`).
-/

set_option autoImplicit false

namespace Wazn

namespace BinaryArchive

open ByteCodec

/-- A reader of `binary_archive<false>`. -/
abbrev Reader (α : Type) := ByteCodec.Reader UInt8 α

/-- What a writer leaves in `binary_archive<true>`. -/
abbrev Output := ByteCodec.Output UInt8

/-! ## Varints -/

/-- The loop of `tools::write_varint`, run at most `fuel` times: seven bits a byte, lowest
first, the high bit set on every byte but the last. -/
def writeVarintLoop : ℕ → ℕ → List UInt8
  | 0, i => [UInt8.ofNat i]
  | fuel + 1, i =>
    if 0x80 ≤ i then UInt8.ofNat (i % 0x80 + 0x80) :: writeVarintLoop fuel (i / 0x80)
    else [UInt8.ofNat i]

/-- `tools::write_varint`. The loop runs fewer times than `i`, since each round divides
`i` by `0x80`; `writeVarint_eq` unfolds it with no fuel. -/
def writeVarint (i : ℕ) : List UInt8 := writeVarintLoop i i

/-- The loop of `tools::read_varint<bits>`, at the byte for `shift`, with `read` bytes read
and `write` the value so far. It returns what the source returns (the number of bytes
read, `EVARINT_OVERFLOW` or `EVARINT_REPRESENT`), the value, and the input left. -/
def readVarintLoop (bits : ℕ) : ℕ → ℕ → ℕ → List UInt8 → ℤ × ℕ × List UInt8
  -- `first == last`: the bytes read so far, and no error
  | _, read, write, [] => (read, write, [])
  | shift, read, write, byte :: rest =>
    if bits ≤ shift + 7 ∧ 2 ^ (bits - shift) ≤ byte.toNat then (-1, write, rest)
    else if byte = 0 ∧ shift ≠ 0 then (-2, write, rest)
    else
      -- `write |= (byte & 0x7f) << shift`: no bit from `shift` up is set yet, so the or adds
      let write := write + byte.toNat % 0x80 * 2 ^ shift
      if byte.toNat < 0x80 then (read + 1, write, rest)
      else readVarintLoop bits (shift + 7) (read + 1) write rest

/-- `tools::read_varint<bits>(first, last, write)`. -/
def readVarint (bits : ℕ) (input : List UInt8) : ℤ × ℕ × List UInt8 :=
  readVarintLoop bits 0 0 0 input

/-- `binary_archive<false>::serialize_uvarint` into a field of `bits` bits: a negative
return of `read_varint` sets the fail bit. -/
def serializeUvarint (bits : ℕ) : Reader ℕ := fun input =>
  match readVarint bits input with
  | (ret, v, rest) => if ret < 0 then none else some (v, rest)

/-! ## Integers of a fixed width and blobs -/

/-- `binary_archive<false>::serialize_uint` of `width` bytes, little-endian; a byte
missing sets the fail bit. -/
def serializeUint (width : ℕ) : Reader ℕ := do
  let bytes ← Reader.take width
  pure (Nat.ofDigits 256 (bytes.map UInt8.toNat))

/-- `binary_archive<true>::serialize_uint` of `width` bytes: `put(v & 0xff); v >>= 8`. -/
def writeUint : ℕ → ℕ → List UInt8
  | 0, _ => []
  | width + 1, v => UInt8.ofNat v :: writeUint width (v / 256)

/-- `binary_archive<false>::serialize_blob` of a type of `n` bytes. -/
def serializeBlob (n : ℕ) : Reader (List.Vector UInt8 n) := Reader.takeVector n

/-- `binary_archive<true>::serialize_blob`. -/
def writeBlob {n : ℕ} (v : List.Vector UInt8 n) : Output := Output.emit v.toList

/-- A `VARINT_FIELD` of type `uint64_t` or `size_t`. -/
def readVarint64 : Reader UInt64 := UInt64.ofNat <$> serializeUvarint 64

/-- Write a `VARINT_FIELD` of type `uint64_t` or `size_t`. -/
def writeVarint64 (v : UInt64) : Output := Output.emit (writeVarint v.toNat)

/-- `serialize_int` of a `uint8_t`; also `read_variant_tag`. -/
def readUint8 : Reader UInt8 := UInt8.ofNat <$> serializeUint 1

/-- `serialize_int` of a `uint8_t` written; also `write_variant_tag`. -/
def writeUint8 (v : UInt8) : Output := Output.emit (writeUint 1 v.toNat)

/-! ## Containers -/

/-- `do_serialize_container` reading: the count (`begin_array`, a `size_t` varint), the
sanity check that at least as many bytes remain, and the elements. -/
def readContainer {α : Type} (element : Reader α) : Reader (List α) := do
  let cnt ← serializeUvarint 64
  let remaining ← Reader.remaining
  if remaining < cnt then Reader.fail else Reader.replicate element cnt

/-- `do_serialize_container` writing: the count, then the elements. -/
def writeContainer {α : Type} (element : α → Output) (v : List α) : Output :=
  Output.emit (writeVarint v.length) ++ Output.concat (v.map element)

/-- A container of `uint64_t` or `size_t`, whose elements are varints
(`serialize_container_element`). -/
def readVarintContainer : Reader (List UInt64) := readContainer readVarint64

/-- `do_serialize_container` writing a container of `uint64_t`. -/
def writeVarintContainer (v : List UInt64) : Output := writeContainer writeVarint64 v

/-- A container of `uint8_t`, whose elements are integers of one byte. -/
def readByteContainer : Reader (List UInt8) := readContainer readUint8

/-- `do_serialize_container` writing a container of `uint8_t`. -/
def writeByteContainer (v : List UInt8) : Output := writeContainer writeUint8 v

/-! ## Strings (`serialization/string.h`) -/

/-- `do_serialize` of a `std::string` reading: its size as a `size_t` varint, the check that
as many bytes remain, and the bytes. -/
def readString : Reader (List UInt8) := do
  let size ← serializeUvarint 64
  let remaining ← Reader.remaining
  if remaining < size then Reader.fail else Reader.take size

/-- `do_serialize` of a `std::string` writing: its size, then its bytes. -/
def writeString (str : List UInt8) : Output :=
  Output.emit (writeVarint str.length ++ str)

/-! ## Entry points -/

/-- `serialization::parse_binary`: the object's serializer, then `check_stream_state`,
which asks the stream to be good and at its end (`EOF == s.peek()`). -/
def parseBinary {α : Type} (r : Reader α) (blob : List UInt8) : Option α :=
  match r.run blob with
  | some (v, []) => some v
  | _ => none

/-- `serialization::dump_binary`: the blob, when the serializer returns `true`. -/
def dumpBinary (o : Output) : Option (List UInt8) :=
  if o.ok then some o.tokens else none

end BinaryArchive

end Wazn
