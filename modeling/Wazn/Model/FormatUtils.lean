import Wazn.Model.CryptonoteBasic

/-!
# Weights and the base-only parser (`src/cryptonote_basic/cryptonote_format_utils.cpp`)

A transaction's weight is the size of its blob, plus for bulletproof transactions a
clawback that charges part of the size a bulletproof of the padded output count would save
over one proof per output (`get_transaction_weight_clawback`). A pruned node keeps only a
transaction's prefix and RingCT base, which `parse_and_validate_tx_base_from_blob` reads
back; `get_pruned_transaction_weight` then adds to the size of what it kept the size the
prunable part has in canonical form, computed from the numbers of inputs and outputs and the
ring size.

Each function here returns what the source returns: `std::numeric_limits<uint64_t>::max()`
(`uint64Max`) where a check returns it, and an exception, `Except.error` with the source's
message, where one throws. Sizes are natural numbers: they are sizes of objects in memory,
which the source's 64-bit arithmetic holds without wrapping. The cached blob size of a
transaction is not modelled: `getTransactionWeight` measures the blob the writer writes.

`expand_transaction_1` is modelled for `base_only`; its other branch computes the
commitments `V` by scalar multiplication, which is not modelled.
-/

set_option autoImplicit false

namespace Wazn

namespace Cryptonote

open ByteCodec BinaryArchive Rct

/-- `BULLETPROOF_MAX_OUTPUTS`. -/
def bulletproofMaxOutputs : ℕ := 16

/-- `std::numeric_limits<uint64_t>::max()`. -/
def uint64Max : ℕ := 2 ^ 64 - 1

/-- `is_coinbase`: one input, a `txin_gen`. -/
def isCoinbase (tx : Transaction) : Bool :=
  match tx.vin with
  | [.txinGen _] => true
  | _ => false

/-- The `dest` of an output key, set from its output by `expand_transaction_1`; an output
that is not to a key fails. -/
def outPkWithDest (k : CtKey) (out : TxOut) : Option CtKey :=
  match out.target with
  | .txoutToKey target => some { k with dest := target.key }
  | _ => none

/-- `expand_transaction_1(tx, true)`: for a version 2 transaction that is not coinbase and
whose signature is not `RCTTypeNull`, one output key per output, each given its output's
key. -/
def expandTransaction1Base (tx : Transaction) : Option Transaction :=
  if 2 ≤ tx.version ∧ isCoinbase tx = false then
    if tx.rctSignatures.type = rctTypeNull then some tx
    else if tx.rctSignatures.outPk.length ≠ tx.vout.length then none
    else do
      let outPk ← (tx.rctSignatures.outPk.zip tx.vout).mapM fun kOut => outPkWithDest kOut.1 kOut.2
      pure { tx with rctSignatures := { tx.rctSignatures with outPk } }
  else some tx

/-- `parse_and_validate_tx_base_from_blob`: `serialize_base`, which does not ask for the end
of the stream, then `expand_transaction_1(tx, true)`. -/
def parseAndValidateTxBaseFromBlob (txBlob : List UInt8) : Option Transaction :=
  match readTransactionBase.run txBlob with
  | none => none
  | some (tx, _) => expandTransaction1Base tx

/-- The loop `while ((1u << nlr) < n) ++nlr` from `nlr`, for at most `fuel` rounds. -/
def ceilLog2Loop (n : ℕ) : ℕ → ℕ → ℕ
  | 0, nlr => nlr
  | fuel + 1, nlr => if 2 ^ nlr < n then ceilLog2Loop n fuel (nlr + 1) else nlr

/-- The loop above from 0: it stops before `n` rounds, as `n ≤ 2 ^ n`. -/
def ceilLog2 (n : ℕ) : ℕ := ceilLog2Loop n n 0

/-- `get_transaction_weight_clawback`: four fifths of what `n_padded_outputs` bulletproofs
of one output, at 368 bytes each, would take beyond one proof for them all. -/
def getTransactionWeightClawback (tx : Transaction) (nPaddedOutputs : ℕ) : Except String ℕ :=
  let bpBase := 368
  let nOutputs := tx.vout.length
  if nPaddedOutputs ≤ 2 then .ok 0
  else
    let nlr := ceilLog2 nPaddedOutputs + 6
    let bpSize := 32 * (9 + 2 * nlr)
    if ¬ nOutputs ≤ bulletproofMaxOutputs then
      .error ("maximum number of outputs is " ++ toString bulletproofMaxOutputs ++
        " per transaction")
    else if ¬ bpSize ≤ bpBase * nPaddedOutputs then
      .error ("Invalid bulletproof clawback: bp_base " ++ toString bpBase ++
        ", n_padded_outputs " ++ toString nPaddedOutputs ++ ", bp_size " ++ toString bpSize)
    else .ok ((bpBase * nPaddedOutputs - bpSize) * 4 / 5)

/-- `get_transaction_weight(tx, blob_size)`. -/
def getTransactionWeightOfBlobSize (tx : Transaction) (blobSize : ℕ) : Except String ℕ :=
  if tx.pruned then .ok uint64Max
  else if tx.version < 2 then .ok blobSize
  else if isRctBulletproof tx.rctSignatures.type = false then .ok blobSize
  else do
    let nPaddedOutputs := nBulletproofMaxAmountsV tx.rctSignatures.p.bulletproofs
    let bpClawback ← getTransactionWeightClawback tx nPaddedOutputs
    if ¬ bpClawback ≤ uint64Max - blobSize then throw "Weight overflow"
    else pure (blobSize + bpClawback)

/-- `get_transaction_weight(tx)`, on the size of the blob the writer writes. -/
def getTransactionWeight (tx : Transaction) : Except String ℕ :=
  getTransactionWeightOfBlobSize tx (writeTransaction tx).tokens.length

/-- The bytes of the prunable part in canonical form besides the count of bulletproofs:
one bulletproof for `2 ^ nrl` outputs, the ring signatures of `inputs` inputs with rings of
`ringSize` (CLSAGs for `RCTTypeCLSAG`, MLSAGs otherwise) and `inputs` pseudo outputs. -/
def prunedExtraWeight (type : UInt8) (nrl inputs ringSize : ℕ) : ℕ :=
  (32 * (9 + 2 * (nrl + 6)) + 2) +
    (if type = rctTypeCLSAG then inputs * (ringSize + 2) * 32
     else inputs * (ringSize * (1 + 1) * 32 + 32)) +
    32 * inputs

/-- `get_pruned_transaction_weight`: the size of the pruned blob, one byte for the count
of bulletproofs, the canonical size of the rest of the prunable part, and the clawback for
the padded output count. -/
def getPrunedTransactionWeight (tx : Transaction) : Except String ℕ :=
  if tx.pruned = false then .ok uint64Max
  else if tx.version < 2 then .ok uint64Max
  else if ¬ (rctTypeBulletproof2 ≤ tx.rctSignatures.type ∨ tx.rctSignatures.type = rctTypeCLSAG) then
    .ok uint64Max
  else
    match tx.vin with
    | .txinToKey txin :: _ => do
      let nrl := ceilLog2 tx.vout.length
      let nPaddedOutputs := 2 ^ nrl
      let weight := (writeTransaction tx).tokens.length + 1 +
        prunedExtraWeight tx.rctSignatures.type nrl tx.vin.length txin.keyOffsets.length
      let bpClawback ← getTransactionWeightClawback tx nPaddedOutputs
      if ¬ bpClawback ≤ uint64Max - weight then throw "Weight overflow"
      else pure (weight + bpClawback)
    -- an empty `vin`, or a first input that is not a `txin_to_key`
    | _ => .ok uint64Max

end Cryptonote

end Wazn
