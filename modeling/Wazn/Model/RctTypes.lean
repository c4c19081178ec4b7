import Wazn.Model.BinaryArchive

/-!
# RingCT signatures and their serializers (`src/ringct/rctTypes.h`, `rctTypes.cpp`)

A RingCT signature has a base, kept by pruned nodes, and a prunable part. Neither stores
its lengths: `serialize_rctsig_base` and `serialize_rctsig_prunable` take the number of
inputs, of outputs and the ring size of the first input from the transaction, and read or
write that many items. Each serializer is modelled twice, as a reader into a fresh object
and as a writer, side by side.

What the serializers skip is modelled where other code reads it: the commitments `V` of a
bulletproof (restored from `outPk`), the `dest` of each output key (restored from the
outputs), the masks of `ecdhInfo` and the last 24 bytes of its amounts for the types from
`RCTTypeBulletproof2` on. The fields that nothing modelled reads (`message`, `mixRing`,
the key images `II` and `I`) are left out. `boroSig` and `key64` are blobs for the
archive, and are blobs here.

A fresh `rctSig` has type `RCTTypeNull`, empty vectors and zero keys; its `txnFee` is
not initialized in the source, and is 0 here (`RctSig.null`).
-/

set_option autoImplicit false

namespace Wazn

namespace Rct

open ByteCodec BinaryArchive

/-! ## Types -/

/-- `rct::key`. -/
abbrev Key := List.Vector UInt8 32

/-- The key of zero bytes, which value-initialization gives. -/
def Key.zero : Key := List.Vector.replicate 32 0

/-- `rct::key64`, for the archive a blob of 64 keys. -/
abbrev Key64 := List.Vector UInt8 2048

/-- `rct::boroSig`, for the archive a blob of `s0`, `s1` and `ee`. -/
abbrev BoroSig := List.Vector UInt8 4128

/-- `rct::ctkey`. -/
structure CtKey where
  dest : Key
  mask : Key
  deriving DecidableEq

/-- `rct::ecdhTuple`. -/
structure EcdhTuple where
  mask : Key
  amount : Key
  deriving DecidableEq

/-- `rct::mgSig`, without the key images `II`. -/
structure MgSig where
  ss : List (List Key)
  cc : Key
  deriving DecidableEq

/-- `rct::clsag`, without the key image `I`. -/
structure Clsag where
  s : List Key
  c1 : Key
  D : Key
  deriving DecidableEq

/-- `rct::rangeSig`. -/
structure RangeSig where
  asig : BoroSig
  Ci : Key64
  deriving DecidableEq

/-- `rct::Bulletproof`. -/
structure Bulletproof where
  V : List Key
  A : Key
  S : Key
  T1 : Key
  T2 : Key
  taux : Key
  mu : Key
  L : List Key
  R : List Key
  a : Key
  b : Key
  t : Key
  deriving DecidableEq

/-- `RCTTypeNull`. -/
def rctTypeNull : UInt8 := 0

/-- `RCTTypeFull`. -/
def rctTypeFull : UInt8 := 1

/-- `RCTTypeSimple`. -/
def rctTypeSimple : UInt8 := 2

/-- `RCTTypeBulletproof`. -/
def rctTypeBulletproof : UInt8 := 3

/-- `RCTTypeBulletproof2`. -/
def rctTypeBulletproof2 : UInt8 := 4

/-- `RCTTypeCLSAG`. -/
def rctTypeCLSAG : UInt8 := 5

/-- The types besides `RCTTypeNull` that both serializers accept: the test
`type != RCTTypeFull && type != RCTTypeSimple && ...` fails exactly on these. -/
def isSerializableType (type : UInt8) : Bool :=
  type == rctTypeFull || type == rctTypeSimple || type == rctTypeBulletproof ||
    type == rctTypeBulletproof2 || type == rctTypeCLSAG

/-- `rct::is_rct_bulletproof`. -/
def isRctBulletproof (type : UInt8) : Bool :=
  type == rctTypeBulletproof || type == rctTypeBulletproof2 || type == rctTypeCLSAG

/-- The types whose `ecdhInfo` keeps only the first 8 bytes of each amount. -/
def isCompactEcdhType (type : UInt8) : Bool :=
  type == rctTypeBulletproof2 || type == rctTypeCLSAG

/-- `rct::rctSigBase`, without `message` and `mixRing`. -/
structure RctSigBase where
  type : UInt8
  pseudoOuts : List Key
  ecdhInfo : List EcdhTuple
  outPk : List CtKey
  txnFee : UInt64
  deriving DecidableEq

/-- `rct::rctSigPrunable`. -/
structure RctSigPrunable where
  rangeSigs : List RangeSig
  bulletproofs : List Bulletproof
  MGs : List MgSig
  CLSAGs : List Clsag
  pseudoOuts : List Key
  deriving DecidableEq

/-- `rct::rctSig`. -/
structure RctSig extends RctSigBase where
  p : RctSigPrunable
  deriving DecidableEq

/-- The base of a fresh `rctSig`. -/
def RctSigBase.null : RctSigBase := ⟨rctTypeNull, [], [], [], 0⟩

/-- The prunable part of a fresh `rctSig`. -/
def RctSigPrunable.null : RctSigPrunable := ⟨[], [], [], [], []⟩

/-- A fresh `rctSig`. -/
def RctSig.null : RctSig := ⟨RctSigBase.null, RctSigPrunable.null⟩

/-! ## Counting bulletproof amounts -/

/-- `n_bulletproof_max_amounts` of one proof: `2 ^ (L.size() - 6)`, or 0 for a proof
whose `L` and `R` are not of one size between 6 and 10. -/
def nBulletproofMaxAmounts (proof : Bulletproof) : ℕ :=
  if proof.L.length < 6 then 0
  else if proof.L.length ≠ proof.R.length then 0
  else if 6 + 4 < proof.L.length then 0
  else 2 ^ (proof.L.length - 6)

/-- The loop of `n_bulletproof_max_amounts` over a vector of proofs, with the sum `n` so
far. The sum stays below `0xffffffff`, so the source's `max() - n` does not wrap. -/
def nBulletproofMaxAmountsLoop : ℕ → List Bulletproof → ℕ
  | n, [] => n
  | n, proof :: proofs =>
    let n2 := nBulletproofMaxAmounts proof
    if ¬ n2 < 0xffffffff - n then 0
    else if n2 = 0 then 0
    else nBulletproofMaxAmountsLoop (n + n2) proofs

/-- `n_bulletproof_max_amounts` of a vector of proofs. -/
def nBulletproofMaxAmountsV (proofs : List Bulletproof) : ℕ :=
  nBulletproofMaxAmountsLoop 0 proofs

/-! ## Readers and writers of the parts -/

/-- A key is a blob of 32 bytes. -/
def readKey : Reader Key := serializeBlob 32

/-- Write a key. -/
def writeKey (k : Key) : Output := writeBlob k

/-- `ecdhTuple` as an object: `mask`, then `amount`. -/
def readEcdhTuple : Reader EcdhTuple := do
  let mask ← readKey
  let amount ← readKey
  pure ⟨mask, amount⟩

/-- Write an `ecdhTuple` as an object. -/
def writeEcdhTuple (e : EcdhTuple) : Output := writeKey e.mask ++ writeKey e.amount

/-- The compact `ecdhInfo` item: the amount is zeroed, and its first 8 bytes are read as a
`crypto::hash8`; the mask keeps its fresh value. -/
def readEcdhAmount : Reader EcdhTuple := do
  let amount ← serializeBlob 8
  pure ⟨Key.zero, ⟨amount.toList ++ List.replicate 24 0, by simp⟩⟩

/-- Write the compact `ecdhInfo` item: the first 8 bytes of the amount. -/
def writeEcdhAmount (e : EcdhTuple) : Output := Output.emit (e.amount.toList.take 8)

/-- `Bulletproof` as an object, into a fresh proof: `V` is not read. -/
def readBulletproof : Reader Bulletproof := do
  let A ← readKey
  let S ← readKey
  let T1 ← readKey
  let T2 ← readKey
  let taux ← readKey
  let mu ← readKey
  let L ← readContainer readKey
  let R ← readContainer readKey
  let a ← readKey
  let b ← readKey
  let t ← readKey
  if L.isEmpty ∨ L.length ≠ R.length then Reader.fail
  else pure ⟨[], A, S, T1, T2, taux, mu, L, R, a, b, t⟩

/-- Write a `Bulletproof` as an object; the check on `L` and `R` comes after them. -/
def writeBulletproof (proof : Bulletproof) : Output :=
  writeKey proof.A ++ writeKey proof.S ++ writeKey proof.T1 ++ writeKey proof.T2 ++
    writeKey proof.taux ++ writeKey proof.mu ++ writeContainer writeKey proof.L ++
    writeContainer writeKey proof.R ++ writeKey proof.a ++ writeKey proof.b ++ writeKey proof.t ++
    (if proof.L.isEmpty ∨ proof.L.length ≠ proof.R.length then Output.fail else Output.emit [])

/-- `rangeSig` as an object: two blobs. -/
def readRangeSig : Reader RangeSig := do
  let asig ← serializeBlob 4128
  let Ci ← serializeBlob 2048
  pure ⟨asig, Ci⟩

/-- Write a `rangeSig`. -/
def writeRangeSig (sig : RangeSig) : Output := writeBlob sig.asig ++ writeBlob sig.Ci

/-- One MLSAG as the prunable part writes it, without counts: `mixin + 1` rows of
`ss2Elements` keys, then `cc`. -/
def readMgSig (mixin ss2Elements : ℕ) : Reader MgSig := do
  let ss ← Reader.replicate (Reader.replicate readKey ss2Elements) (mixin + 1)
  let cc ← readKey
  pure ⟨ss, cc⟩

/-- Write one MLSAG of the prunable part. -/
def writeMgSig (mixin ss2Elements : ℕ) (mg : MgSig) : Output :=
  (if mg.ss.length ≠ mixin + 1 then Output.fail
   else Output.concat (mg.ss.map fun row =>
     if row.length ≠ ss2Elements then Output.fail else Output.concat (row.map writeKey))) ++
    writeKey mg.cc

/-- One CLSAG as the prunable part writes it: `mixin + 1` scalars, `c1` and `D`. -/
def readClsag (mixin : ℕ) : Reader Clsag := do
  let s ← Reader.replicate readKey (mixin + 1)
  let c1 ← readKey
  let D ← readKey
  pure ⟨s, c1, D⟩

/-- Write one CLSAG of the prunable part. -/
def writeClsag (mixin : ℕ) (sig : Clsag) : Output :=
  (if sig.s.length ≠ mixin + 1 then Output.fail else Output.concat (sig.s.map writeKey)) ++
    writeKey sig.c1 ++ writeKey sig.D

/-! ## `serialize_rctsig_base` -/

/-- `rctSigBase::serialize_rctsig_base` reading into a fresh object. -/
def readRctSigBase (inputs outputs : ℕ) : Reader RctSigBase := do
  let type ← readUint8
  if type = rctTypeNull then pure { RctSigBase.null with type }
  else if isSerializableType type = false then Reader.fail
  else do
    let txnFee ← readVarint64
    let pseudoOuts ← (if type = rctTypeSimple then Reader.replicate readKey inputs else pure [])
    let ecdhInfo ← Reader.replicate
      (if isCompactEcdhType type then readEcdhAmount else readEcdhTuple) outputs
    -- only the masks of `outPk` are read
    let outPk ← Reader.replicate (do let mask ← readKey; pure ⟨Key.zero, mask⟩) outputs
    pure ⟨type, pseudoOuts, ecdhInfo, outPk, txnFee⟩

/-- `rctSigBase::serialize_rctsig_base` writing. -/
def writeRctSigBase (rv : RctSigBase) (inputs outputs : ℕ) : Output :=
  writeUint8 rv.type ++
  if rv.type = rctTypeNull then Output.emit []
  else if isSerializableType rv.type = false then Output.fail
  else
    writeVarint64 rv.txnFee ++
    (if rv.type = rctTypeSimple then
      if rv.pseudoOuts.length ≠ inputs then Output.fail
      else Output.concat (rv.pseudoOuts.map writeKey)
     else Output.emit []) ++
    (if rv.ecdhInfo.length ≠ outputs then Output.fail
     else Output.concat (rv.ecdhInfo.map
       (if isCompactEcdhType rv.type then writeEcdhAmount else writeEcdhTuple))) ++
    (if rv.outPk.length ≠ outputs then Output.fail
     else Output.concat (rv.outPk.map fun k => writeKey k.mask))

/-! ## `serialize_rctsig_prunable`

The prunable part has a range proof section (`bp` or `rangeSigs`), a ring signature
section (`CLSAGs` or `MGs`) and, for bulletproof types, `pseudoOuts`. -/

/-- The `bp` section read: the number of proofs (a varint from `RCTTypeBulletproof2` on,
a `uint32_t` before), at most `outputs`, then the proofs, which must cover the outputs. -/
def readBp (type : UInt8) (outputs : ℕ) : Reader (List Bulletproof) := do
  let nbp ← (if isCompactEcdhType type then serializeUvarint 32 else serializeUint 4)
  if outputs < nbp then Reader.fail
  else do
    let bulletproofs ← Reader.replicate readBulletproof nbp
    if nBulletproofMaxAmountsV bulletproofs < outputs then Reader.fail else pure bulletproofs

/-- The `bp` section written. `nbp` is the `uint32_t` the size is stored into. -/
def writeBp (type : UInt8) (outputs : ℕ) (bulletproofs : List Bulletproof) : Output :=
  let nbp := bulletproofs.length % 2 ^ 32
  Output.emit (if isCompactEcdhType type then writeVarint nbp else writeUint 4 nbp) ++
  if outputs < nbp then Output.fail
  else
    Output.concat ((bulletproofs.take nbp).map writeBulletproof) ++
    if nBulletproofMaxAmountsV bulletproofs < outputs then Output.fail else Output.emit []

/-- The `rangeSigs` section read: one range signature per output. -/
def readRangeSigs (outputs : ℕ) : Reader (List RangeSig) := Reader.replicate readRangeSig outputs

/-- The `rangeSigs` section written. -/
def writeRangeSigs (outputs : ℕ) (rangeSigs : List RangeSig) : Output :=
  if rangeSigs.length ≠ outputs then Output.fail else Output.concat (rangeSigs.map writeRangeSig)

/-- The number of MLSAGs: one per input for the simple types, one for `RCTTypeFull`. -/
def mgElements (type : UInt8) (inputs : ℕ) : ℕ :=
  if type = rctTypeSimple ∨ type = rctTypeBulletproof ∨ type = rctTypeBulletproof2 then inputs
  else 1

/-- The number of keys in a row of an MLSAG: two for the simple types, `inputs + 1` for
`RCTTypeFull`. -/
def mgSs2Elements (type : UInt8) (inputs : ℕ) : ℕ :=
  (if type = rctTypeSimple ∨ type = rctTypeBulletproof ∨ type = rctTypeBulletproof2 then 1
   else inputs) + 1

/-- The `MGs` section read. -/
def readMGs (type : UInt8) (inputs mixin : ℕ) : Reader (List MgSig) :=
  Reader.replicate (readMgSig mixin (mgSs2Elements type inputs)) (mgElements type inputs)

/-- The `MGs` section written. -/
def writeMGs (type : UInt8) (inputs mixin : ℕ) (MGs : List MgSig) : Output :=
  if MGs.length ≠ mgElements type inputs then Output.fail
  else Output.concat (MGs.map (writeMgSig mixin (mgSs2Elements type inputs)))

/-- The `CLSAGs` section read: one per input. -/
def readCLSAGs (inputs mixin : ℕ) : Reader (List Clsag) := Reader.replicate (readClsag mixin) inputs

/-- The `CLSAGs` section written. -/
def writeCLSAGs (inputs mixin : ℕ) (CLSAGs : List Clsag) : Output :=
  if CLSAGs.length ≠ inputs then Output.fail else Output.concat (CLSAGs.map (writeClsag mixin))

/-- `rctSigPrunable::serialize_rctsig_prunable` reading into a fresh object. -/
def readRctSigPrunable (type : UInt8) (inputs outputs mixin : ℕ) : Reader RctSigPrunable :=
  if 0xffffffff ≤ inputs ∨ 0xffffffff ≤ outputs ∨ 0xffffffff ≤ mixin then Reader.fail
  else if type = rctTypeNull then pure RctSigPrunable.null
  else if isSerializableType type = false then Reader.fail
  else do
    let bulletproofs ← (if isRctBulletproof type then readBp type outputs else pure [])
    let rangeSigs ← (if isRctBulletproof type then pure [] else readRangeSigs outputs)
    let CLSAGs ← (if type = rctTypeCLSAG then readCLSAGs inputs mixin else pure [])
    let MGs ← (if type = rctTypeCLSAG then pure [] else readMGs type inputs mixin)
    let pseudoOuts ← (if isRctBulletproof type then Reader.replicate readKey inputs else pure [])
    pure ⟨rangeSigs, bulletproofs, MGs, CLSAGs, pseudoOuts⟩

/-- `rctSigPrunable::serialize_rctsig_prunable` writing. -/
def writeRctSigPrunable (p : RctSigPrunable) (type : UInt8) (inputs outputs mixin : ℕ) :
    Output :=
  if 0xffffffff ≤ inputs ∨ 0xffffffff ≤ outputs ∨ 0xffffffff ≤ mixin then Output.fail
  else if type = rctTypeNull then Output.emit []
  else if isSerializableType type = false then Output.fail
  else
    (if isRctBulletproof type then writeBp type outputs p.bulletproofs
     else writeRangeSigs outputs p.rangeSigs) ++
    (if type = rctTypeCLSAG then writeCLSAGs inputs mixin p.CLSAGs
     else writeMGs type inputs mixin p.MGs) ++
    if isRctBulletproof type then
      if p.pseudoOuts.length ≠ inputs then Output.fail
      else Output.concat (p.pseudoOuts.map writeKey)
    else Output.emit []

end Rct

end Wazn
