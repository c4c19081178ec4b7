import Wazn.Model.CryptonoteBasic

/-!
# The extra field of a transaction (`tx_extra.h`, `cryptonote_format_utils.cpp`)

`tx_extra` is a run of fields, each a `tx_extra_field` variant written by `binary_archive`:
a one-byte tag, then the alternative. A public key is 32 bytes; a nonce, the mysterious
minergate data and the merge-mining tag are strings (a varint size, then the bytes), the
tag's string holding its depth as a varint and its Merkle root; the additional public keys
are a container of keys. Padding has no length: after its tag it reads zero bytes until the
end of the stream, at most `TX_EXTRA_PADDING_MAX_COUNT - 1` of them, so it can only be the
last field.

`parse_tx_extra`, `sort_tx_extra` and `remove_field_from_tx_extra` each run the same loop:
read a field, and stop when the stream is at its end (`EOF == iss.peek()`). The loop is
modelled once (`readTxExtraFields`). Every field reads at least its tag, so as many rounds
as the extra has bytes let it reach the end. `sort_tx_extra` then writes the fields again,
kind after kind (`pick`); `remove_field_from_tx_extra` writes those not of the given kind.

A field's reader returns `true` only with the stream good: where a string reader returns
`true` after a varint that failed, the `FIELD` macro around it checks the stream, and the
merge-mining tag fails on the empty string it then holds. So a field that fails is `none`,
whichever way the source learns it. `remove_field_from_tx_extra` takes the `type_info` of
a type; it is one of the variant's alternatives here (`TxExtraKind`).
-/

set_option autoImplicit false

namespace Wazn

namespace Cryptonote

open ByteCodec BinaryArchive

/-- `TX_EXTRA_PADDING_MAX_COUNT`. -/
def txExtraPaddingMaxCount : ℕ := 255

/-- `TX_EXTRA_NONCE_MAX_COUNT`. -/
def txExtraNonceMaxCount : ℕ := 255

/-- `TX_EXTRA_TAG_PADDING`. -/
def txExtraTagPadding : UInt8 := 0x00

/-- `TX_EXTRA_TAG_PUBKEY`. -/
def txExtraTagPubkey : UInt8 := 0x01

/-- `TX_EXTRA_NONCE`. -/
def txExtraNonce : UInt8 := 0x02

/-- `TX_EXTRA_MERGE_MINING_TAG`. -/
def txExtraMergeMiningTag : UInt8 := 0x03

/-- `TX_EXTRA_TAG_ADDITIONAL_PUBKEYS`. -/
def txExtraTagAdditionalPubkeys : UInt8 := 0x04

/-- `TX_EXTRA_MYSTERIOUS_MINERGATE_TAG`. -/
def txExtraMysteriousMinergateTag : UInt8 := 0xDE

/-- `tx_extra_field`. The `size` of a padding counts its tag. -/
inductive TxExtraField where
  | padding (size : ℕ)
  | pubKey (pubKey : PublicKey)
  | nonce (nonce : List UInt8)
  | mergeMiningTag (depth : UInt64) (merkleRoot : Hash)
  | additionalPubKeys (data : List PublicKey)
  | mysteriousMinergate (data : List UInt8)
  deriving DecidableEq

/-- The alternatives of `tx_extra_field`, which `type()` tells apart. -/
inductive TxExtraKind where
  | padding
  | pubKey
  | nonce
  | mergeMiningTag
  | additionalPubKeys
  | mysteriousMinergate
  deriving DecidableEq, Repr

/-- `field.type()`. -/
def TxExtraField.kind : TxExtraField → TxExtraKind
  | .padding _ => .padding
  | .pubKey _ => .pubKey
  | .nonce _ => .nonce
  | .mergeMiningTag _ _ => .mergeMiningTag
  | .additionalPubKeys _ => .additionalPubKeys
  | .mysteriousMinergate _ => .mysteriousMinergate

/-- `VARIANT_TAG(binary_archive, ...)` of each alternative. -/
def TxExtraKind.tag : TxExtraKind → UInt8
  | .padding => txExtraTagPadding
  | .pubKey => txExtraTagPubkey
  | .nonce => txExtraNonce
  | .mergeMiningTag => txExtraMergeMiningTag
  | .additionalPubKeys => txExtraTagAdditionalPubkeys
  | .mysteriousMinergate => txExtraMysteriousMinergateTag

/-! ## The fields -/

/-- The load loop of `tx_extra_padding` at `size`, with `n` rounds left before `size` passes
`TX_EXTRA_PADDING_MAX_COUNT`: until the stream is at its end, each byte must be zero. -/
def readPaddingLoop : ℕ → ℕ → Reader ℕ
  | 0, size => pure size
  | n + 1, size => do
    let remaining ← Reader.remaining
    if remaining = 0 then pure size
    else
      let zero ← readUint8
      if zero ≠ 0 then Reader.fail else readPaddingLoop n (size + 1)

/-- `tx_extra_padding::do_serialize` loading. -/
def readPadding : Reader ℕ := do
  let size ← readPaddingLoop txExtraPaddingMaxCount 1
  if size ≤ txExtraPaddingMaxCount then pure size else Reader.fail

/-- `tx_extra_padding::do_serialize` storing: `size - 1` zero bytes after the tag. -/
def writePadding (size : ℕ) : Output :=
  if txExtraPaddingMaxCount < size then Output.fail
  else Output.concat (List.replicate (size - 1) (writeUint8 0))

/-- `tx_extra_nonce::do_serialize` loading: the string, at most `TX_EXTRA_NONCE_MAX_COUNT`
bytes. -/
def readTxExtraNonce : Reader (List UInt8) := do
  let nonce ← readString
  if txExtraNonceMaxCount < nonce.length then Reader.fail else pure nonce

/-- `tx_extra_nonce::do_serialize` storing: the string is written before the check. -/
def writeTxExtraNonce (nonce : List UInt8) : Output :=
  writeString nonce ++ if txExtraNonceMaxCount < nonce.length then Output.fail else Output.emit []

/-- `tx_extra_merge_mining_tag::serialize_helper`: the depth, then the Merkle root. -/
def readMergeMiningTagHelper : Reader (UInt64 × Hash) := do
  let depth ← readVarint64
  let merkleRoot ← serializeBlob 32
  pure (depth, merkleRoot)

/-- `tx_extra_merge_mining_tag::do_serialize` loading: a string, which the helper must read
to its end (`serialization::serialize`). -/
def readTxExtraMergeMiningTag : Reader (UInt64 × Hash) := do
  let field ← readString
  match parseBinary readMergeMiningTagHelper field with
  | some tag => pure tag
  | none => Reader.fail

/-- `tx_extra_merge_mining_tag::do_serialize` storing: the helper's bytes, as a string. -/
def writeTxExtraMergeMiningTag (depth : UInt64) (merkleRoot : Hash) : Output :=
  let oar := writeVarint64 depth ++ writeBlob merkleRoot
  if oar.ok then writeString oar.tokens else Output.fail

/-- The `variant_reader` of `tx_extra_field` past the tag: the tag picks the alternative, in
the order of the variant's types; an unknown tag sets the fail bit. -/
def readTxExtraFieldBody (tag : UInt8) : Reader TxExtraField :=
  if tag = txExtraTagPadding then TxExtraField.padding <$> readPadding
  else if tag = txExtraTagPubkey then TxExtraField.pubKey <$> serializeBlob 32
  else if tag = txExtraNonce then TxExtraField.nonce <$> readTxExtraNonce
  else if tag = txExtraMergeMiningTag then
    (fun tag => TxExtraField.mergeMiningTag tag.1 tag.2) <$> readTxExtraMergeMiningTag
  else if tag = txExtraTagAdditionalPubkeys then
    TxExtraField.additionalPubKeys <$> readContainer (serializeBlob 32)
  else if tag = txExtraMysteriousMinergateTag then
    TxExtraField.mysteriousMinergate <$> readString
  else Reader.fail

/-- `do_serialize` of a `tx_extra_field`: the tag, then the alternative. -/
def readTxExtraField : Reader TxExtraField := do
  let tag ← readUint8
  readTxExtraFieldBody tag

/-- `do_serialize` of the alternative a field holds, written without its tag. -/
def writeTxExtraFieldBody : TxExtraField → Output
  | .padding size => writePadding size
  | .pubKey pubKey => writeBlob pubKey
  | .nonce nonce => writeTxExtraNonce nonce
  | .mergeMiningTag depth merkleRoot => writeTxExtraMergeMiningTag depth merkleRoot
  | .additionalPubKeys data => writeContainer writeBlob data
  | .mysteriousMinergate data => writeString data

/-- The variant writer of `tx_extra_field`: the tag, then the alternative. -/
def writeTxExtraField (field : TxExtraField) : Output :=
  writeUint8 field.kind.tag ++ writeTxExtraFieldBody field

/-! ## Reading, sorting and removing fields -/

/-- The loop over the stream with `fuel` rounds: a field, until the stream is at its end. It
returns the fields read, the bytes left after the last of them, and whether it stopped at
the end of the stream rather than at a field that failed. -/
def readTxExtraFields : ℕ → List UInt8 → List TxExtraField × List UInt8 × Bool
  | 0, input => ([], input, false)
  | fuel + 1, input =>
    match readTxExtraField.run input with
    | none => ([], input, false)
    | some (field, rest) =>
      if rest = [] then ([field], [], true)
      else
        let (fields, left, eof) := readTxExtraFields fuel rest
        (field :: fields, left, eof)

/-- `parse_tx_extra`. -/
def parseTxExtra (txExtra : List UInt8) : Option (List TxExtraField) :=
  if txExtra = [] then some []
  else
    let (fields, _, eof) := readTxExtraFields txExtra.length txExtra
    if eof then some fields else none

/-- `pick<T>` with at most `fuel` rounds: while a field of `kind` is left, write `tag` and
the first such field after `out`, and erase it; `none` when a write fails. -/
def pick (kind : TxExtraKind) (tag : UInt8) :
    ℕ → List UInt8 → List TxExtraField → Option (List UInt8 × List TxExtraField)
  | 0, out, fields => some (out, fields)
  | fuel + 1, out, fields =>
    match fields.find? (·.kind == kind) with
    | none => some (out, fields)
    | some field =>
      let o := writeUint8 tag ++ writeTxExtraFieldBody field
      if o.ok then pick kind tag fuel (out ++ o.tokens) (fields.eraseP (·.kind == kind))
      else none

/-- `sort_tx_extra(tx_extra, sorted_tx_extra, allow_partial)`: the sorted bytes, or `none`
where it returns `false`. With `allow_partial` a field that fails ends the loop, and the
bytes from it on are appended unsorted. -/
def sortTxExtra (txExtra : List UInt8) (allowPartial : Bool) : Option (List UInt8) :=
  if txExtra = [] then some []
  else
    let (fields, left, eof) := readTxExtraFields txExtra.length txExtra
    if !eof && !allowPartial then none
    else do
      -- sort by kind
      let (out, fields) ← pick .pubKey txExtraTagPubkey fields.length [] fields
      let (out, fields) ← pick .additionalPubKeys txExtraTagAdditionalPubkeys fields.length out
        fields
      let (out, fields) ← pick .nonce txExtraNonce fields.length out fields
      let (out, fields) ← pick .mergeMiningTag txExtraMergeMiningTag fields.length out fields
      let (out, fields) ← pick .mysteriousMinergate txExtraMysteriousMinergateTag fields.length
        out fields
      let (out, fields) ← pick .padding txExtraTagPadding fields.length out fields
      -- if not empty, someone added a new type and did not add a case above
      if fields ≠ [] then none
      else some (if allowPartial && left ≠ [] then out ++ left else out)

/-- `remove_field_from_tx_extra(tx_extra, type)`: the bytes it leaves in `tx_extra`, or
`none` where it returns `false` and leaves `tx_extra` as it was. The writes of the fields
kept are not checked. -/
def removeFieldFromTxExtra (txExtra : List UInt8) (kind : TxExtraKind) : Option (List UInt8) :=
  if txExtra = [] then some []
  else
    let (fields, _, eof) := readTxExtraFields txExtra.length txExtra
    if !eof then none
    else some (Output.concat ((fields.filter (·.kind != kind)).map writeTxExtraField)).tokens

end Cryptonote

end Wazn
