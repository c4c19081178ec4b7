import Mathlib.Data.List.Lex
import Mathlib.Data.Vector.Basic
import Wazn.Library.OrderedSet
import Wazn.Model.BinaryArchive

/-!
# The portable storage binary format (`epee/include/storages/portable_storage*.h`)

The P2P and RPC messages of the node are `epee::serialization::portable_storage` objects: a root
`section`, a map from names to `storage_entry`s, each a scalar, a string, a section, or an
`array_entry` of values of one type. `store_to_binary` writes a header (two signatures and a
version) and then the root section (`pack_entry_to_buff`); `load_from_binary` checks the header
and reads the root back with a `throwable_buffer_reader`.

A scalar is its object representation: its type and its `sizeof` bytes, which `CONVERT_POD`
leaves as they are on a little-endian host and `memcpy` copies in and out; a `double` is its
eight bytes and a `bool` its one. Strings and names are byte lists. A section is the list of its
pairs in the order of the `std::map`, names compared as unsigned bytes (`nameKey`).

The reader's recursion guard counts the reader's functions on the call stack: each one increments
`m_recursion_count` on entry, throws when the count reaches
`EPEE_PORTABLE_STORAGE_RECURSION_LIMIT_INTERNAL`, and decrements it on exit. Here each reader
takes the count of its caller (`rc`), checks `rc + 1`, and passes `rc + 1` to what it calls. The
counts `m_objects`, `m_fields` and `m_strings` are the `Counters` of the reader's state, and the
limits on them are `Counters` too. An exception is `Except.error` with its message, the values
streamed into it written as the stream writes them; `store_to_binary` and `load_from_binary`
catch it and return false, which is `none` here.
-/

set_option autoImplicit false

namespace Wazn

namespace Serialization

open BinaryArchive

/-! ## Entries -/

/-- The scalar types of a `storage_entry`. -/
inductive PodType
  | int64 | int32 | int16 | int8 | uint64 | uint32 | uint16 | uint8 | double | bool
  deriving DecidableEq, Repr

/-- `SERIALIZE_TYPE_*` of each scalar type. -/
def PodType.code : PodType → UInt8
  | .int64 => 1
  | .int32 => 2
  | .int16 => 3
  | .int8 => 4
  | .uint64 => 5
  | .uint32 => 6
  | .uint16 => 7
  | .uint8 => 8
  | .double => 9
  | .bool => 11

/-- `sizeof` of each scalar type, which is also its `ps_min_bytes<T>::strict`. -/
def PodType.size : PodType → ℕ
  | .int64 | .uint64 | .double => 8
  | .int32 | .uint32 => 4
  | .int16 | .uint16 => 2
  | .int8 | .uint8 | .bool => 1

/-- The scalar type of a `SERIALIZE_TYPE_*` code. -/
def podTypeOfCode : UInt8 → Option PodType
  | 1 => some .int64
  | 2 => some .int32
  | 3 => some .int16
  | 4 => some .int8
  | 5 => some .uint64
  | 6 => some .uint32
  | 7 => some .uint16
  | 8 => some .uint8
  | 9 => some .double
  | 11 => some .bool
  | _ => none

/-- `SERIALIZE_TYPE_STRING`. -/
def serializeTypeString : UInt8 := 10

/-- `SERIALIZE_TYPE_OBJECT`. -/
def serializeTypeObject : UInt8 := 12

/-- `SERIALIZE_TYPE_ARRAY`. -/
def serializeTypeArray : UInt8 := 13

/-- `SERIALIZE_FLAG_ARRAY`. -/
def serializeFlagArray : UInt8 := 0x80

mutual

/-- `storage_entry`. -/
inductive StorageEntry where
  | pod (t : PodType) (v : List.Vector UInt8 t.size)
  | string (s : List UInt8)
  | section (s : Section)
  | array (a : ArrayEntry)

/-- `array_entry`: an `array_entry_t` of values of one type. -/
inductive ArrayEntry where
  | pods (t : PodType) (vs : List (List.Vector UInt8 t.size))
  | strings (ss : List (List UInt8))
  | sections (ss : List Section)
  | arrays (as : List ArrayEntry)

/-- `section`: the pairs of its `std::map` of entries. -/
inductive Section where
  | mk (entries : List (List UInt8 × StorageEntry))

end

/-- `std::map<std::string, storage_entry>` orders its pairs by their names, compared as
unsigned bytes. -/
def nameKey (p : List UInt8 × StorageEntry) : List ℕ := p.1.map UInt8.toNat

/-- The pairs of a section. -/
def Section.entries : Section → List (List UInt8 × StorageEntry)
  | .mk entries => entries

/-- A byte string as the log stream prints it. -/
def bytesText (s : List UInt8) : String := String.ofList (s.map fun b => Char.ofNat b.toNat)

/-! ## Writing (`portable_storage_to_bin.h`) -/

/-- `PORTABLE_RAW_SIZE_MARK_BYTE`, `_WORD`, `_DWORD` and `_INT64`. -/
def portableRawSizeMarkByte : ℕ := 0
def portableRawSizeMarkWord : ℕ := 1
def portableRawSizeMarkDword : ℕ := 2
def portableRawSizeMarkInt64 : ℕ := 3

/-- `pack_varint_t<pack_value>`: the value shifted left by two with the size mark in the low bits,
in a `pack_value` of `width` bytes. -/
def packVarintT (width typeOr pv : ℕ) : List UInt8 :=
  writeUint width (pv <<< 2 ||| typeOr)

/-- `pack_varint`: the smallest of 1, 2, 4 and 8 bytes that holds the value with its mark. -/
def packVarint (val : ℕ) : Except String (List UInt8) :=
  if val ≤ 63 then .ok (packVarintT 1 portableRawSizeMarkByte val)
  else if val ≤ 16383 then .ok (packVarintT 2 portableRawSizeMarkWord val)
  else if val ≤ 1073741823 then .ok (packVarintT 4 portableRawSizeMarkDword val)
  else if val ≤ 4611686018427387903 then .ok (packVarintT 8 portableRawSizeMarkInt64 val)
  else .error ("failed to pack varint - too big amount = " ++ toString val)

/-- `put_string`: the length and the bytes. -/
def putString (v : List UInt8) : Except String (List UInt8) := do
  let n ← packVarint v.length
  pure (n ++ v)

/-- `pack_pod_type`: the type code and the value's bytes. -/
def packPodType (t : PodType) (v : List.Vector UInt8 t.size) : List UInt8 :=
  t.code :: v.toList

/-- `pack_pod_array_type`: the type code with the array flag, the count, and the values' bytes. -/
def packPodArrayType (t : PodType) (vs : List (List.Vector UInt8 t.size)) :
    Except String (List UInt8) := do
  let n ← packVarint vs.length
  pure ((t.code ||| serializeFlagArray) :: n ++ vs.flatMap List.Vector.toList)

/-- The checks `pack_entry_to_buff` makes of a name before writing it with its length. -/
def packName (name : List UInt8) : Except String (List UInt8) :=
  if ¬ name.length < 255 then
    .error ("storage_entry_name is too long: " ++ toString name.length ++ ", val: " ++
      bytesText name)
  else if name.isEmpty then .error "storage_entry_name is empty"
  else .ok (name.length.toUInt8 :: name)

mutual

/-- `storage_entry_store_visitor`: a scalar, a string or a section after its type code; an array
as `array_entry_store_visitor` writes it. -/
def packEntry : StorageEntry → Except String (List UInt8)
  | .pod t v => .ok (packPodType t v)
  | .string s => do
    let body ← putString s
    pure (serializeTypeString :: body)
  | .section s => do
    let body ← packSection s
    pure (serializeTypeObject :: body)
  | .array a => packArray a

/-- `array_entry_store_visitor`: the contained type with the array flag, the count, and the
elements. -/
def packArray : ArrayEntry → Except String (List UInt8)
  | .pods t vs => packPodArrayType t vs
  | .strings ss => do
    let n ← packVarint ss.length
    let body ← packStrings ss
    pure ((serializeTypeString ||| serializeFlagArray) :: n ++ body)
  | .sections ss => do
    let n ← packVarint ss.length
    let body ← packSections ss
    pure ((serializeTypeObject ||| serializeFlagArray) :: n ++ body)
  | .arrays as => do
    let n ← packVarint as.length
    let body ← packArrays as
    pure ((serializeTypeArray ||| serializeFlagArray) :: n ++ body)

/-- `pack_entry_to_buff` of a section: the count, then each name and entry in map order. -/
def packSection : Section → Except String (List UInt8)
  | .mk entries => do
    let n ← packVarint entries.length
    let body ← packEntries entries
    pure (n ++ body)

/-- The loop of `pack_entry_to_buff` over the pairs of a section. -/
def packEntries : List (List UInt8 × StorageEntry) → Except String (List UInt8)
  | [] => .ok []
  | (name, e) :: rest => do
    let nameBytes ← packName name
    let entry ← packEntry e
    let tail ← packEntries rest
    pure (nameBytes ++ entry ++ tail)

/-- The loop of `put_string` over an array of strings. -/
def packStrings : List (List UInt8) → Except String (List UInt8)
  | [] => .ok []
  | s :: ss => do
    let head ← putString s
    let tail ← packStrings ss
    pure (head ++ tail)

/-- The loop of `pack_entry_to_buff` over an array of sections. -/
def packSections : List Section → Except String (List UInt8)
  | [] => .ok []
  | s :: ss => do
    let head ← packSection s
    let tail ← packSections ss
    pure (head ++ tail)

/-- The loop of `pack_entry_to_buff` over an array of arrays. -/
def packArrays : List ArrayEntry → Except String (List UInt8)
  | [] => .ok []
  | a :: as => do
    let head ← packArray a
    let tail ← packArrays as
    pure (head ++ tail)

end

/-! ## The header -/

/-- `PORTABLE_STORAGE_SIGNATUREA`, `PORTABLE_STORAGE_SIGNATUREB` and `PORTABLE_STORAGE_FORMAT_VER`. -/
def portableStorageSignaturea : ℕ := 0x01011101
def portableStorageSignatureb : ℕ := 0x01020101
def portableStorageFormatVer : UInt8 := 1

/-- `storage_block_header` as `store_to_binary` writes it: the signatures little-endian and the
version, nine bytes packed. -/
def storageBlockHeader : List UInt8 :=
  writeUint 4 portableStorageSignaturea ++ writeUint 4 portableStorageSignatureb ++
    [portableStorageFormatVer]

/-- `portable_storage::store_to_binary` of the root section. -/
def storeToBinary (root : Section) : Option (List UInt8) :=
  (packSection root).toOption.map (storageBlockHeader ++ ·)

/-! ## Reading (`portable_storage_from_bin.h`) -/

/-- The counts of objects, fields and strings a reader has read (`m_objects`, `m_fields`,
`m_strings`), or the limits on them (`max_objects`, `max_fields`, `max_strings`). -/
structure Counters where
  objects : ℕ
  fields : ℕ
  strings : ℕ

/-- `throwable_buffer_reader`: the bytes left from `m_ptr` on (`m_count` of them) and the counts. -/
structure BufferReader where
  bytes : List UInt8
  counters : Counters

/-- A reader over a `throwable_buffer_reader`, throwing a message. -/
abbrev ReadM := StateT BufferReader (Except String)

/-- `EPEE_PORTABLE_STORAGE_RECURSION_LIMIT_INTERNAL`. -/
def epeePortableStorageRecursionLimitInternal : ℕ := 100

/-- The message of `RECURSION_LIMITATION()`. -/
def recursionLimitationMessage : String :=
  "Wrong blob data in portable storage: recursion limitation (100) exceeded"

/-- `RECURSION_LIMITATION()` on entry of a reader called at the count `rc`. -/
def recursionLimitation (rc : ℕ) : ReadM Unit :=
  if rc + 1 < epeePortableStorageRecursionLimitInternal then pure ()
  else throw recursionLimitationMessage

/-- `MAX_STRING_LEN_POSSIBLE`. -/
def maxStringLenPossible : ℕ := 2000000000

/-- The value of the bytes of a scalar read little-endian. -/
def podValue {n : ℕ} (v : List.Vector UInt8 n) : ℕ := Nat.ofDigits 256 (v.toList.map UInt8.toNat)

section Reader

variable (lim : Counters)

/-- `read(void* target, size_t count)`. -/
def readBytes (rc count : ℕ) : ReadM (List.Vector UInt8 count) := do
  recursionLimitation rc
  let s ← get
  if h : count ≤ s.bytes.length then
    set { s with bytes := s.bytes.drop count }
    pure ⟨s.bytes.take count, by simp [h]⟩
  else
    throw (" attempt to read " ++ toString count ++ " bytes from buffer with " ++
      toString s.bytes.length ++ " bytes remained")

/-- `read(t_pod_type& pod_val)`. -/
def readPod (rc : ℕ) (t : PodType) : ReadM (List.Vector UInt8 t.size) := do
  recursionLimitation rc
  readBytes (rc + 1) t.size

/-- `read<t_type>()` of a scalar. -/
def readTPod (rc : ℕ) (t : PodType) : ReadM (List.Vector UInt8 t.size) := do
  recursionLimitation rc
  readPod (rc + 1) t

/-- `read_sec_name`: the length byte, which may not be zero, and the name. -/
def readSecName (rc : ℕ) : ReadM (List UInt8) := do
  recursionLimitation rc
  let nameLen ← readPod (rc + 1) .uint8
  if ¬ podValue nameLen > 0 then throw "Section name is missing"
  let name ← readBytes (rc + 1) (podValue nameLen)
  pure name.toList

/-- `read_varint`: the size mark of the first byte chooses the width, and the value drops it. -/
def readVarint (rc : ℕ) : ReadM ℕ := do
  recursionLimitation rc
  let s ← get
  match s.bytes with
  | [] => throw "empty buff, expected place for varint"
  | b :: _ =>
    let sizeMask := b &&& 0x03
    let v ← match sizeMask.toNat with
      | 0 => podValue <$> readTPod (rc + 1) .uint8
      | 1 => podValue <$> readTPod (rc + 1) .uint16
      | 2 => podValue <$> readTPod (rc + 1) .uint32
      | 3 => podValue <$> readTPod (rc + 1) .uint64
      | _ => throw ("unknown varint size_mask = " ++ bytesText [sizeMask])
    pure (v >>> 2)

/-- `read(std::string& str)`: the length, its two checks, and the bytes, taken without a call to
`read`. -/
def readString (rc : ℕ) : ReadM (List UInt8) := do
  recursionLimitation rc
  let len ← readVarint (rc + 1)
  if ¬ len < maxStringLenPossible then
    throw ("to big string len value in storage: " ++ toString len)
  let s ← get
  if ¬ s.bytes.length ≥ len then
    throw ("string len count value " ++ toString len ++ " goes out of remain storage len " ++
      toString s.bytes.length)
  set { s with bytes := s.bytes.drop len }
  pure (s.bytes.take len)

/-- `read<std::string>()`. -/
def readTString (rc : ℕ) : ReadM (List UInt8) := do
  recursionLimitation rc
  readString (rc + 1)

/-- `read(array_entry& ae)`, which no array can get past. -/
def readArrayEntry (rc : ℕ) : ReadM ArrayEntry := do
  recursionLimitation rc
  throw "Reading array entry is not supported"

/-- `read<array_entry>()`. -/
def readTArray (rc : ℕ) : ReadM ArrayEntry := do
  recursionLimitation rc
  readArrayEntry (rc + 1)

/-- `while (size--) sa.m_array.push_back(read<type_name>())`. -/
def readN {α : Type} (elem : ReadM α) : ℕ → ReadM (List α)
  | 0 => pure []
  | n + 1 => do
    let a ← elem
    let as ← readN elem n
    pure (a :: as)

/-- The three counts of a reader. -/
inductive Counted
  | objects | fields | strings

/-- One count. -/
def Counters.get (c : Counters) : Counted → ℕ
  | .objects => c.objects
  | .fields => c.fields
  | .strings => c.strings

/-- One count raised by `n`. -/
def Counters.bump (c : Counters) : Counted → ℕ → Counters
  | .objects, n => { c with objects := c.objects + n }
  | .fields, n => { c with fields := c.fields + n }
  | .strings, n => { c with strings := c.strings + n }

/-- `CHECK_AND_ASSERT_THROW_MES(size <= max_x - m_x, message); m_x += size;`, as `read_ae` counts
objects and strings and `read(section&)` fields. -/
def countUp (which : Counted) (message : String) (size : ℕ) : ReadM Unit := do
  let s ← get
  if ¬ size ≤ lim.get which - s.counters.get which then throw message
  set { s with counters := s.counters.bump which size }

/-- The count of objects `read_ae<section>` adds. -/
def countObjects (size : ℕ) : ReadM Unit := countUp lim .objects "Too many objects" size

/-- The count of strings `read_ae<std::string>` adds. -/
def countStrings (size : ℕ) : ReadM Unit := countUp lim .strings "Too many strings" size

/-- The count of fields `read(section&)` adds. -/
def countFields (size : ℕ) : ReadM Unit := countUp lim .fields "Too many object fields" size

/-- `read_ae<type_name>`: the count, its sanity check against the bytes left at `minBytes`
(`ps_min_bytes<type_name>::strict`) a value, the count of objects or strings it adds, and the
elements, each read by `elem`, which is `read<type_name>()` as `read_ae` calls it. -/
def readAe {α : Type} (rc minBytes : ℕ) (count : ℕ → ReadM Unit) (elem : ReadM α) :
    ReadM (List α) := do
  recursionLimitation rc
  let size ← readVarint (rc + 1)
  let s ← get
  if ¬ size ≤ s.bytes.length / minBytes then throw "Size sanity check failed"
  count size
  readN elem size

/-- `read_se<t_type>` of a scalar. -/
def readSePod (rc : ℕ) (t : PodType) : ReadM StorageEntry := do
  recursionLimitation rc
  let v ← readPod (rc + 1) t
  pure (.pod t v)

/-- `read_se<std::string>` before its string is read: the count of strings it adds, checked as
`m_strings + 1 <= max_strings`. -/
def countSeString : ReadM Unit := do
  let s ← get
  if ¬ s.counters.strings + 1 ≤ lim.strings then throw "Too many strings"
  set { s with counters := { s.counters with strings := s.counters.strings + 1 } }

/-- `read_se<std::string>`. -/
def readSeString (rc : ℕ) : ReadM StorageEntry := do
  recursionLimitation rc
  countSeString lim
  let str ← readTString (rc + 1)
  pure (.string str)

/-- `read_se<section>` before its section is read: the count of objects it adds, checked as
`m_objects < max_objects`. -/
def countSeSection : ReadM Unit := do
  let s ← get
  if ¬ s.counters.objects < lim.objects then throw "Too many objects"
  set { s with counters := { s.counters with objects := s.counters.objects + 1 } }

mutual

/-- `read(section& sec)`: the count of fields, its limit, and the fields. -/
def readSection (rc : ℕ) : ReadM Section :=
  if h : rc + 1 < epeePortableStorageRecursionLimitInternal then do
    let count ← readVarint (rc + 1)
    countFields lim count
    let entries ← readFields (rc + 1) count []
    pure (.mk entries)
  else throw recursionLimitationMessage
termination_by (epeePortableStorageRecursionLimitInternal - rc, 0)

/-- The loop of `read(section&)`: a name, which may not be in the map yet, and its entry, put
into the map at its place. -/
def readFields (rc : ℕ) :
    ℕ → List (List UInt8 × StorageEntry) → ReadM (List (List UInt8 × StorageEntry))
  | 0, sec => pure sec
  | n + 1, sec => do
    let secName ← readSecName rc
    if sec.any (·.1 == secName) then throw ("duplicate key: " ++ bytesText secName)
    let e ← loadStorageEntry rc
    readFields rc n (OrderedSet.insert nameKey (secName, e) sec)
termination_by n _ => (epeePortableStorageRecursionLimitInternal - rc, n + 1)

/-- `load_storage_entry`: the type code, then an array, or the alternative of the code. -/
def loadStorageEntry (rc : ℕ) : ReadM StorageEntry :=
  if _h : rc + 1 < epeePortableStorageRecursionLimitInternal then do
    let entType ← readPod (rc + 1) .uint8
    let entType := entType.head
    if entType &&& serializeFlagArray ≠ 0 then
      let ae ← loadStorageArrayEntry (rc + 1) entType
      pure (.array ae)
    else match podTypeOfCode entType with
      | some t => readSePod (rc + 1) t
      | none =>
        if entType = serializeTypeString then readSeString lim (rc + 1)
        else if entType = serializeTypeObject then readSeSection (rc + 1)
        else if entType = serializeTypeArray then readSeArray (rc + 1)
        else throw ("unknown entry_type code = " ++ bytesText [entType])
  else throw recursionLimitationMessage
termination_by (epeePortableStorageRecursionLimitInternal - rc, 0)

/-- `read_se<section>`. -/
def readSeSection (rc : ℕ) : ReadM StorageEntry :=
  if h : rc + 1 < epeePortableStorageRecursionLimitInternal then do
    countSeSection lim
    let sec ← readSection (rc + 1)
    pure (.section sec)
  else throw recursionLimitationMessage
termination_by (epeePortableStorageRecursionLimitInternal - rc, 0)

/-- `read_se<array_entry>`: a second type code, which must carry the array flag. -/
def readSeArray (rc : ℕ) : ReadM StorageEntry :=
  if h : rc + 1 < epeePortableStorageRecursionLimitInternal then do
    let entType ← readPod (rc + 1) .uint8
    let entType := entType.head
    if entType &&& serializeFlagArray = 0 then throw "wrong type sequenses"
    let ae ← loadStorageArrayEntry (rc + 1) entType
    pure (.array ae)
  else throw recursionLimitationMessage
termination_by (epeePortableStorageRecursionLimitInternal - rc, 0)

/-- `load_storage_array_entry`: `read_ae` of the contained type. -/
def loadStorageArrayEntry (rc : ℕ) (type : UInt8) : ReadM ArrayEntry :=
  if _h : rc + 1 < epeePortableStorageRecursionLimitInternal then
    let type := type &&& ~~~serializeFlagArray
    match podTypeOfCode type with
    | some t => ArrayEntry.pods t <$> readAe (rc + 1) t.size (fun _ => pure ()) (readTPod (rc + 2) t)
    | none =>
      if type = serializeTypeString then
        ArrayEntry.strings <$> readAe (rc + 1) 2 (countStrings lim) (readTString (rc + 2))
      else if type = serializeTypeObject then
        ArrayEntry.sections <$> readAe (rc + 1) 1 (countObjects lim) (readTSection (rc + 2))
      else if type = serializeTypeArray then
        ArrayEntry.arrays <$> readAe (rc + 1) 1 (fun _ => pure ()) (readTArray (rc + 2))
      else throw ("unknown entry_type code = " ++ bytesText [type])
  else throw recursionLimitationMessage
termination_by (epeePortableStorageRecursionLimitInternal - rc, 0)

/-- `read<section>()`. -/
def readTSection (rc : ℕ) : ReadM Section :=
  if h : rc + 1 < epeePortableStorageRecursionLimitInternal then readSection (rc + 1)
  else throw recursionLimitationMessage
termination_by (epeePortableStorageRecursionLimitInternal - rc, 0)

end

end Reader

/-- `SIZE_MAX`, the limits `throwable_buffer_reader` starts with. -/
def sizeMaxLimits : Counters := ⟨2 ^ 64 - 1, 2 ^ 64 - 1, 2 ^ 64 - 1⟩

/-- `portable_storage::load_from_binary(source, limits)`: the header, then the root section read
from the bytes after it with the limits given, or `SIZE_MAX` ones. -/
def loadFromBinary (source : List UInt8) (limits : Option Counters) : Option Section :=
  if source.length < 9 then none
  else if source.take 8 ≠ storageBlockHeader.take 8 then none
  else if source[8]? ≠ some portableStorageFormatVer then none
  -- the reader refuses an empty buffer
  else if source.length - 9 = 0 then none
  else
    match (readSection (limits.getD sizeMaxLimits) 0).run ⟨source.drop 9, ⟨0, 0, 0⟩⟩ with
    | .ok (root, _) => some root
    | .error _ => none

end Serialization

end Wazn
