import Wazn.Model.RctTypes

/-!
# Transactions and blocks and their serializers (`src/cryptonote_basic/cryptonote_basic.h`)

A transaction is its prefix (version, unlock time, inputs, outputs, extra) followed by
its signatures: for version 1 one vector of ring signatures per input, for version 2 the
RingCT signature, whose base follows the prefix and whose prunable part comes last.
Inputs and outputs are variants, written as a one-byte tag and the alternative's fields
(`VARIANT_TAG(binary_archive, ...)`). A block is its header, its miner transaction and
the hashes of its other transactions.

Each `do_serialize` is a reader into a fresh object and a writer. A fresh transaction is
the one `set_null` leaves: version 1, no inputs, outputs or signatures, `RCTTypeNull`,
not pruned. The cached hashes and sizes of a transaction and a block are not modelled.
-/

set_option autoImplicit false

namespace Wazn

namespace Cryptonote

open ByteCodec BinaryArchive Rct

/-! ## Types -/

/-- `crypto::hash`. -/
abbrev Hash := List.Vector UInt8 32

/-- `crypto::public_key`. -/
abbrev PublicKey := List.Vector UInt8 32

/-- `crypto::key_image`. -/
abbrev KeyImage := List.Vector UInt8 32

/-- `crypto::signature`. -/
abbrev Signature := List.Vector UInt8 64

/-- `CURRENT_TRANSACTION_VERSION`. -/
def currentTransactionVersion : UInt64 := 2

/-- `CRYPTONOTE_MAX_TX_PER_BLOCK`. -/
def cryptonoteMaxTxPerBlock : ℕ := 0x10000000

/-- `txout_to_script`. -/
structure TxoutToScript where
  keys : List PublicKey
  script : List UInt8
  deriving DecidableEq

/-- `txout_to_scripthash`. -/
structure TxoutToScripthash where
  hash : Hash
  deriving DecidableEq

/-- `txout_to_key`. -/
structure TxoutToKey where
  key : PublicKey
  deriving DecidableEq

/-- `txin_gen`. -/
structure TxinGen where
  height : UInt64
  deriving DecidableEq

/-- `txin_to_script`. -/
structure TxinToScript where
  prev : Hash
  prevout : UInt64
  sigset : List UInt8
  deriving DecidableEq

/-- `txin_to_scripthash`. -/
structure TxinToScripthash where
  prev : Hash
  prevout : UInt64
  script : TxoutToScript
  sigset : List UInt8
  deriving DecidableEq

/-- `txin_to_key`. -/
structure TxinToKey where
  amount : UInt64
  keyOffsets : List UInt64
  kImage : KeyImage
  deriving DecidableEq

/-- `txin_v`. -/
inductive TxinV where
  | txinGen (txin : TxinGen)
  | txinToScript (txin : TxinToScript)
  | txinToScripthash (txin : TxinToScripthash)
  | txinToKey (txin : TxinToKey)
  deriving DecidableEq

/-- `txout_target_v`. -/
inductive TxoutTargetV where
  | txoutToScript (target : TxoutToScript)
  | txoutToScripthash (target : TxoutToScripthash)
  | txoutToKey (target : TxoutToKey)
  deriving DecidableEq

/-- `tx_out`. -/
structure TxOut where
  amount : UInt64
  target : TxoutTargetV
  deriving DecidableEq

/-- `transaction_prefix`. -/
structure TransactionPrefix where
  version : UInt64
  unlockTime : UInt64
  vin : List TxinV
  vout : List TxOut
  extra : List UInt8
  deriving DecidableEq

/-- `transaction`, without its cached hashes and sizes. -/
structure Transaction extends TransactionPrefix where
  signatures : List (List Signature)
  rctSignatures : RctSig
  pruned : Bool
  deriving DecidableEq

/-- A fresh `transaction`, as `set_null` leaves it: version 1 and nothing else. -/
def Transaction.null : Transaction := ⟨⟨1, 0, [], [], []⟩, [], RctSig.null, false⟩

/-- `block_header`. -/
structure BlockHeader where
  majorVersion : UInt8
  minorVersion : UInt8
  timestamp : UInt64
  prevId : Hash
  nonce : UInt32
  deriving DecidableEq

/-- `block`, without its cached hash. -/
structure Block extends BlockHeader where
  minerTx : Transaction
  txHashes : List Hash
  deriving DecidableEq

/-- `transaction::get_signature_size`: the ring size of a `txin_to_key`, 0 for the other
inputs. -/
def getSignatureSize : TxinV → ℕ
  | .txinGen _ => 0
  | .txinToScript _ => 0
  | .txinToScripthash _ => 0
  | .txinToKey txin => txin.keyOffsets.length

/-- The `mixin` passed to `serialize_rctsig_prunable`: `key_offsets.size() - 1` of the
first input if it is a `txin_to_key`, as a `size_t` (an empty ring wraps to `2^64 - 1`),
and 0 otherwise. -/
def mixinOf (vin : List TxinV) : ℕ :=
  match vin with
  | .txinToKey txin :: _ => (txin.keyOffsets.length + 2 ^ 64 - 1) % 2 ^ 64
  | _ => 0

/-! ## Inputs and outputs -/

/-- `txout_to_script` as an object. -/
def readTxoutToScript : Reader TxoutToScript := do
  let keys ← readContainer (serializeBlob 32)
  let script ← readByteContainer
  pure ⟨keys, script⟩

/-- Write a `txout_to_script`. -/
def writeTxoutToScript (target : TxoutToScript) : Output :=
  writeContainer writeBlob target.keys ++ writeByteContainer target.script

/-- `txin_gen` as an object. -/
def readTxinGen : Reader TxinGen := do
  let height ← readVarint64
  pure ⟨height⟩

/-- `txin_to_script` as an object. -/
def readTxinToScript : Reader TxinToScript := do
  let prev ← serializeBlob 32
  let prevout ← readVarint64
  let sigset ← readByteContainer
  pure ⟨prev, prevout, sigset⟩

/-- `txin_to_scripthash` as an object. -/
def readTxinToScripthash : Reader TxinToScripthash := do
  let prev ← serializeBlob 32
  let prevout ← readVarint64
  let script ← readTxoutToScript
  let sigset ← readByteContainer
  pure ⟨prev, prevout, script, sigset⟩

/-- `txin_to_key` as an object. -/
def readTxinToKey : Reader TxinToKey := do
  let amount ← readVarint64
  let keyOffsets ← readVarintContainer
  let kImage ← serializeBlob 32
  pure ⟨amount, keyOffsets, kImage⟩

/-- The `variant_reader` of `txin_v`: the tag picks the alternative, in the order of the
variant's types; an unknown tag sets the fail bit. -/
def readTxinV : Reader TxinV := do
  let tag ← readUint8
  if tag = 0xff then TxinV.txinGen <$> readTxinGen
  else if tag = 0x0 then TxinV.txinToScript <$> readTxinToScript
  else if tag = 0x1 then TxinV.txinToScripthash <$> readTxinToScripthash
  else if tag = 0x2 then TxinV.txinToKey <$> readTxinToKey
  else Reader.fail

/-- Write a `txin_v`: its tag, then the alternative. -/
def writeTxinV : TxinV → Output
  | .txinGen txin => writeUint8 0xff ++ writeVarint64 txin.height
  | .txinToScript txin =>
    writeUint8 0x0 ++ writeBlob txin.prev ++ writeVarint64 txin.prevout ++
      writeByteContainer txin.sigset
  | .txinToScripthash txin =>
    writeUint8 0x1 ++ writeBlob txin.prev ++ writeVarint64 txin.prevout ++
      writeTxoutToScript txin.script ++ writeByteContainer txin.sigset
  | .txinToKey txin =>
    writeUint8 0x2 ++ writeVarint64 txin.amount ++ writeVarintContainer txin.keyOffsets ++
      writeBlob txin.kImage

/-- The `variant_reader` of `txout_target_v`; `txout_to_scripthash` and `txout_to_key` are
blobs. -/
def readTxoutTargetV : Reader TxoutTargetV := do
  let tag ← readUint8
  if tag = 0x0 then TxoutTargetV.txoutToScript <$> readTxoutToScript
  else if tag = 0x1 then (fun hash => TxoutTargetV.txoutToScripthash ⟨hash⟩) <$> serializeBlob 32
  else if tag = 0x2 then (fun key => TxoutTargetV.txoutToKey ⟨key⟩) <$> serializeBlob 32
  else Reader.fail

/-- Write a `txout_target_v`. -/
def writeTxoutTargetV : TxoutTargetV → Output
  | .txoutToScript target => writeUint8 0x0 ++ writeTxoutToScript target
  | .txoutToScripthash target => writeUint8 0x1 ++ writeBlob target.hash
  | .txoutToKey target => writeUint8 0x2 ++ writeBlob target.key

/-- `tx_out` as an object. -/
def readTxOut : Reader TxOut := do
  let amount ← readVarint64
  let target ← readTxoutTargetV
  pure ⟨amount, target⟩

/-- Write a `tx_out`. -/
def writeTxOut (out : TxOut) : Output := writeVarint64 out.amount ++ writeTxoutTargetV out.target

/-! ## Transactions -/

/-- `transaction_prefix::do_serialize` reading. -/
def readTransactionPrefix : Reader TransactionPrefix := do
  let version ← readVarint64
  if version = 0 ∨ currentTransactionVersion < version then Reader.fail
  else do
    let unlockTime ← readVarint64
    let vin ← readContainer readTxinV
    let vout ← readContainer readTxOut
    let extra ← readByteContainer
    pure ⟨version, unlockTime, vin, vout, extra⟩

/-- `transaction_prefix::do_serialize` writing; the version is written before it is
checked. -/
def writeTransactionPrefix (tx : TransactionPrefix) : Output :=
  writeVarint64 tx.version ++
  if tx.version = 0 ∨ currentTransactionVersion < tx.version then Output.fail
  else
    writeVarint64 tx.unlockTime ++ writeContainer writeTxinV tx.vin ++
      writeContainer writeTxOut tx.vout ++ writeByteContainer tx.extra

/-- The `std::vector<crypto::signature>` reader for `cnt` signatures: the sanity check on
the bytes left, then the blobs. -/
def readSignatures (cnt : ℕ) : Reader (List Signature) := do
  let remaining ← Reader.remaining
  if remaining < cnt * 64 then Reader.fail else Reader.replicate (serializeBlob 64) cnt

/-- The `std::vector<crypto::signature>` writer: the blobs, without a count. -/
def writeSignatures (v : List Signature) : Output := Output.concat (v.map writeBlob)

/-- The version 1 signatures, read into a fresh transaction: `signatures` is resized to
`vin.size()`, so they are expected exactly when there are inputs, and each input's
vector is resized to its signature size. -/
def readSignaturesV1 (vin : List TxinV) : Reader (List (List Signature)) :=
  vin.mapM fun txin => readSignatures (getSignatureSize txin)

/-- The version 1 signatures written. Whether signatures are expected does not change in
the source's loop over the inputs: here it picks one of two loops. -/
def writeSignaturesV1 (tx : Transaction) : Output :=
  let signaturesNotExpected := tx.signatures.isEmpty
  if ¬ signaturesNotExpected ∧ tx.vin.length ≠ tx.signatures.length then Output.fail
  else if tx.pruned then Output.emit []
  else if signaturesNotExpected then
    Output.concat (tx.vin.map fun txin =>
      if getSignatureSize txin = 0 then Output.emit [] else Output.fail)
  else
    Output.concat (List.zipWith (fun txin signatures =>
      if getSignatureSize txin ≠ signatures.length then Output.fail
      else writeSignatures signatures) tx.vin tx.signatures)

/-- `transaction::do_serialize` reading into a fresh transaction. -/
def readTransaction : Reader Transaction := do
  let txPrefix ← readTransactionPrefix
  if txPrefix.version = 1 then do
    let signatures ← readSignaturesV1 txPrefix.vin
    pure ⟨txPrefix, signatures, RctSig.null, false⟩
  else if txPrefix.vin.isEmpty then pure ⟨txPrefix, [], RctSig.null, false⟩
  else do
    let base ← readRctSigBase txPrefix.vin.length txPrefix.vout.length
    -- the fresh transaction is not pruned
    if base.type = rctTypeNull then pure ⟨txPrefix, [], ⟨base, RctSigPrunable.null⟩, false⟩
    else do
      let p ← readRctSigPrunable base.type txPrefix.vin.length txPrefix.vout.length
        (mixinOf txPrefix.vin)
      pure ⟨txPrefix, [], ⟨base, p⟩, false⟩

/-- `transaction::do_serialize` writing. -/
def writeTransaction (tx : Transaction) : Output :=
  writeTransactionPrefix tx.toTransactionPrefix ++
  if tx.version = 1 then writeSignaturesV1 tx
  else if tx.vin.isEmpty then Output.emit []
  else
    writeRctSigBase tx.rctSignatures.toRctSigBase tx.vin.length tx.vout.length ++
    if ¬ tx.pruned ∧ tx.rctSignatures.type ≠ rctTypeNull then
      writeRctSigPrunable tx.rctSignatures.p tx.rctSignatures.type tx.vin.length tx.vout.length
        (mixinOf tx.vin)
    else Output.emit []

/-- `transaction::serialize_base` reading into a fresh transaction: the prefix and the base
of the RingCT signature, and the transaction is marked pruned. The stream is not checked
for its end. -/
def readTransactionBase : Reader Transaction := do
  let txPrefix ← readTransactionPrefix
  if txPrefix.version = 1 ∨ txPrefix.vin.isEmpty then pure ⟨txPrefix, [], RctSig.null, true⟩
  else do
    let base ← readRctSigBase txPrefix.vin.length txPrefix.vout.length
    pure ⟨txPrefix, [], ⟨base, RctSigPrunable.null⟩, true⟩

/-! ## Blocks -/

/-- `block_header::do_serialize` reading: the versions are varints of 8 bits, the nonce an
integer of 4 bytes. -/
def readBlockHeader : Reader BlockHeader := do
  let majorVersion ← UInt8.ofNat <$> serializeUvarint 8
  let minorVersion ← UInt8.ofNat <$> serializeUvarint 8
  let timestamp ← readVarint64
  let prevId ← serializeBlob 32
  let nonce ← UInt32.ofNat <$> serializeUint 4
  pure ⟨majorVersion, minorVersion, timestamp, prevId, nonce⟩

/-- `block_header::do_serialize` writing. -/
def writeBlockHeader (h : BlockHeader) : Output :=
  Output.emit (writeVarint h.majorVersion.toNat) ++ Output.emit (writeVarint h.minorVersion.toNat) ++
    writeVarint64 h.timestamp ++ writeBlob h.prevId ++ Output.emit (writeUint 4 h.nonce.toNat)

/-- `block::do_serialize` reading. -/
def readBlock : Reader Block := do
  let header ← readBlockHeader
  let minerTx ← readTransaction
  let txHashes ← readContainer (serializeBlob 32)
  if cryptonoteMaxTxPerBlock < txHashes.length then Reader.fail
  else pure ⟨header, minerTx, txHashes⟩

/-- `block::do_serialize` writing. -/
def writeBlock (b : Block) : Output :=
  writeBlockHeader b.toBlockHeader ++ writeTransaction b.minerTx ++
    writeContainer writeBlob b.txHashes ++
    if cryptonoteMaxTxPerBlock < b.txHashes.length then Output.fail else Output.emit []

end Cryptonote

end Wazn
