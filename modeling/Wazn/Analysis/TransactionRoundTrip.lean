import Wazn.Model.CryptonoteBasic
import Wazn.Analysis.RctRoundTrip

/-!
# Transactions and blocks read back what was written

`readTransaction_back` and `readBlock_back` carry the read-back results of
`Wazn.Analysis.RctRoundTrip` up to whole transactions and blocks: the reader returns
`Transaction.kept`, the transaction with the fields the serializer does not write at the
values of a fresh transaction. Besides the RingCT fields, a version 1 transaction written
with no signatures at all (`signatures_not_expected`) is read back with one empty vector
per input. The writers do not look at what the archive does not keep
(`writeTransaction_kept`), so writing the object read back gives the same blob again.

Both results need the blob to be shorter than `2 ^ 64` bytes, fewer than `2 ^ 32`
bulletproofs, and a transaction that is not marked pruned: the writer of a pruned
transaction leaves out its signatures, which the reader of a full transaction reads.
-/

set_option autoImplicit false

namespace Wazn

namespace Cryptonote

open ByteCodec BinaryArchive Rct

/-! ## What the archive keeps -/

/-- The transaction as the binary archive keeps it: the signatures the version writes,
and a fresh object's values for the rest. -/
def Transaction.kept (tx : Transaction) : Transaction :=
  if tx.version = 1 then
    { tx with
      signatures := if tx.signatures.isEmpty then tx.vin.map fun _ => [] else tx.signatures
      rctSignatures := RctSig.null
      pruned := false }
  else if tx.vin.isEmpty then { tx with signatures := [], rctSignatures := RctSig.null, pruned := false }
  else
    { tx with
      signatures := []
      rctSignatures :=
        ⟨tx.rctSignatures.toRctSigBase.kept, tx.rctSignatures.p.kept tx.rctSignatures.type⟩
      pruned := false }

/-- The block as the binary archive keeps it. -/
def Block.kept (b : Block) : Block := { b with minerTx := b.minerTx.kept }

theorem Transaction.kept_toTransactionPrefix (tx : Transaction) :
    tx.kept.toTransactionPrefix = tx.toTransactionPrefix := by
  unfold Transaction.kept
  split_ifs <;> rfl

/-! ## Inputs and outputs -/

section Parts

theorem readTxoutToScript_back (target : TxoutToScript) :
    ReadsBack (2 ^ 64) readTxoutToScript (writeTxoutToScript target) target := by
  unfold readTxoutToScript writeTxoutToScript
  exact (readBlobContainer_back target.keys (by decide)).bind
    ((readByteContainer_back target.script).bind_pure _)

theorem readTxinV_back (txin : TxinV) : ReadsBack (2 ^ 64) readTxinV (writeTxinV txin) txin := by
  unfold readTxinV
  -- the tag, then the alternative it names
  cases txin with
  | txinGen txin =>
    refine (readUint8_back 0xff).bind ?_
    exact ((readVarint64_back txin.height).bind_pure _).map TxinV.txinGen
  | txinToScript txin =>
    simp only [writeTxinV, Output.append_assoc]
    refine (readUint8_back 0x0).bind ?_
    refine ReadsBack.map TxinV.txinToScript ?_
    exact (serializeBlob_back txin.prev).bind ((readVarint64_back txin.prevout).bind
      ((readByteContainer_back txin.sigset).bind_pure _))
  | txinToScripthash txin =>
    simp only [writeTxinV, Output.append_assoc]
    refine (readUint8_back 0x1).bind ?_
    refine ReadsBack.map TxinV.txinToScripthash ?_
    exact (serializeBlob_back txin.prev).bind ((readVarint64_back txin.prevout).bind
      ((readTxoutToScript_back txin.script).bind ((readByteContainer_back txin.sigset).bind_pure _)))
  | txinToKey txin =>
    simp only [writeTxinV, Output.append_assoc]
    refine (readUint8_back 0x2).bind ?_
    refine ReadsBack.map TxinV.txinToKey ?_
    exact (readVarint64_back txin.amount).bind ((readVarintContainer_back txin.keyOffsets).bind
      ((serializeBlob_back txin.kImage).bind_pure _))

theorem readTxoutTargetV_back (target : TxoutTargetV) :
    ReadsBack (2 ^ 64) readTxoutTargetV (writeTxoutTargetV target) target := by
  unfold readTxoutTargetV
  cases target with
  | txoutToScript target =>
    exact (readUint8_back 0x0).bind ((readTxoutToScript_back target).map _)
  | txoutToScripthash target =>
    exact (readUint8_back 0x1).bind ((serializeBlob_back target.hash).map _)
  | txoutToKey target =>
    exact (readUint8_back 0x2).bind ((serializeBlob_back target.key).map _)

theorem readTxOut_back (out : TxOut) : ReadsBack (2 ^ 64) readTxOut (writeTxOut out) out := by
  unfold readTxOut writeTxOut
  exact (readVarint64_back out.amount).bind ((readTxoutTargetV_back out.target).bind_pure _)

/-- Every input is written with its tag first. -/
theorem writeTxinV_ne_nil (txin : TxinV) : (writeTxinV txin).tokens ≠ [] := by
  cases txin <;> simp only [writeTxinV, Output.append_assoc] <;>
    exact Output.append_tokens_ne_nil (by simp [writeUint8, writeUint]) _

/-- Every output is written with its amount first. -/
theorem writeTxOut_ne_nil (out : TxOut) : (writeTxOut out).tokens ≠ [] :=
  Output.append_tokens_ne_nil (writeVarint_ne_nil _) _

end Parts

/-! ## Transactions -/

theorem readTransactionPrefix_back (tx : TransactionPrefix) :
    ReadsBack (2 ^ 64) readTransactionPrefix (writeTransactionPrefix tx) tx := by
  unfold readTransactionPrefix writeTransactionPrefix
  refine (readVarint64_back tx.version).bind (ReadsBack.guard fun _ => ?_)
  simp only [Output.append_assoc]
  exact (readVarint64_back tx.unlockTime).bind
    ((readContainer_back_self (fun txin _ => readTxinV_back txin)
      fun txin _ _ => writeTxinV_ne_nil txin).bind
    ((readContainer_back_self (fun out _ => readTxOut_back out)
      fun out _ _ => writeTxOut_ne_nil out).bind
    ((readByteContainer_back tx.extra).bind_pure _)))

theorem readSignatures_back {N : ℕ} (v : List Signature) :
    ReadsBack N (readSignatures v.length) (writeSignatures v) v := by
  unfold readSignatures writeSignatures
  -- the writer writes 64 bytes a signature, as many as the sanity check asks for
  have hlen : (Output.concat (v.map writeBlob)).tokens.length = v.length * 64 := by
    rw [Output.concat_tokens _ (by simp [writeBlob])]
    simp [List.flatMap_map, writeBlob]
  refine ReadsBack.guard_remaining (fun _ => hlen.ge) ?_
  exact (ReadsBack.replicate v fun sig _ => serializeBlob_back sig).congr rfl (List.map_id v)

/-- The version 1 signatures are read back, and an empty list of them becomes one empty
vector per input. -/
theorem readSignaturesV1_back (tx : Transaction) (hpruned : tx.pruned = false) :
    ReadsBack (2 ^ 64) (readSignaturesV1 tx.vin) (writeSignaturesV1 tx)
      (if tx.signatures.isEmpty then tx.vin.map fun _ => [] else tx.signatures) := by
  unfold readSignaturesV1 writeSignaturesV1
  by_cases hcount : ¬ tx.signatures.isEmpty ∧ tx.vin.length ≠ tx.signatures.length
  · rw [if_pos hcount]
    exact ReadsBack.fail _ _
  rw [if_neg hcount, hpruned, if_neg Bool.false_ne_true]
  by_cases hnone : tx.signatures.isEmpty
  · -- no signatures expected: every input must need none
    rw [if_pos hnone, if_pos hnone]
    refine ReadsBack.mapM tx.vin fun txin _ => ?_
    by_cases hsize : getSignatureSize txin = 0
    · rw [if_pos hsize, hsize]
      exact (readSignatures_back []).congr rfl rfl
    · rw [if_neg hsize]
      exact ReadsBack.fail _ _
  · rw [if_neg hnone, if_neg hnone]
    have hlen : tx.vin.length = tx.signatures.length := by
      by_contra h
      exact hcount ⟨hnone, h⟩
    refine ReadsBack.mapM_zipWith tx.vin tx.signatures hlen fun txin sigs _ => ?_
    by_cases hsize : getSignatureSize txin ≠ sigs.length
    · rw [if_pos hsize]
      exact ReadsBack.fail _ _
    · rw [if_neg hsize, not_not.1 hsize]
      exact readSignatures_back sigs

theorem readTransaction_back (tx : Transaction) (hpruned : tx.pruned = false)
    (hbp : tx.rctSignatures.p.bulletproofs.length < 2 ^ 32) :
    ReadsBack (2 ^ 64) readTransaction (writeTransaction tx) tx.kept := by
  unfold readTransaction writeTransaction
  refine (readTransactionPrefix_back tx.toTransactionPrefix).bind ?_
  unfold Transaction.kept
  by_cases hv1 : tx.version = 1
  · simp only [if_pos hv1]
    exact (readSignaturesV1_back tx hpruned).bind_pure _
  simp only [if_neg hv1]
  by_cases hempty : tx.vin.isEmpty
  · simp only [if_pos hempty]
    exact ReadsBack.pure' _
  simp only [if_neg hempty]
  refine (readRctSigBase_back tx.rctSignatures.toRctSigBase tx.vin.length tx.vout.length).bind ?_
  rw [RctSigBase.kept_type, hpruned]
  by_cases hnull : tx.rctSignatures.type = rctTypeNull
  · -- nothing more is written or read; the prunable part keeps nothing
    rw [if_pos hnull, if_neg (by simp [hnull]), RctSigPrunable.kept, if_pos hnull]
    exact ReadsBack.pure' _
  · rw [if_neg hnull, if_pos ⟨Bool.false_ne_true, hnull⟩]
    exact (readRctSigPrunable_back tx.rctSignatures.p tx.rctSignatures.type tx.vin.length
      tx.vout.length (mixinOf tx.vin) hbp).bind_pure _

/-! ## Blocks -/

theorem readBlockHeader_back (h : BlockHeader) :
    ReadsBack (2 ^ 64) readBlockHeader (writeBlockHeader h) h := by
  unfold readBlockHeader writeBlockHeader
  simp only [Output.append_assoc]
  -- the versions, varints of 8 bits
  have hversion : ∀ v : UInt8,
      ReadsBack (2 ^ 64) (UInt8.ofNat <$> serializeUvarint 8) (Output.emit (writeVarint v.toNat)) v :=
    fun v => ReadsBack.of_reads (by
      simpa using Reads.map UInt8.ofNat (@serializeUvarint_reads 8 v.toNat v.toNat_lt))
  have hnonce : ReadsBack (2 ^ 64) (UInt32.ofNat <$> serializeUint 4)
      (Output.emit (writeUint 4 h.nonce.toNat)) h.nonce := ReadsBack.of_reads (by
    have hlt : h.nonce.toNat < 256 ^ 4 := by simpa using h.nonce.toNat_lt
    simpa [Nat.mod_eq_of_lt hlt] using Reads.map UInt32.ofNat (serializeUint_reads 4 h.nonce.toNat))
  exact (hversion h.majorVersion).bind ((hversion h.minorVersion).bind
    ((readVarint64_back h.timestamp).bind ((serializeBlob_back h.prevId).bind
      (hnonce.bind_pure _))))

theorem readBlock_back (b : Block) (hpruned : b.minerTx.pruned = false)
    (hbp : b.minerTx.rctSignatures.p.bulletproofs.length < 2 ^ 32) :
    ReadsBack (2 ^ 64) readBlock (writeBlock b) b.kept := by
  unfold readBlock writeBlock
  simp only [Output.append_assoc]
  exact (readBlockHeader_back b.toBlockHeader).bind ((readTransaction_back b.minerTx hpruned hbp).bind
    ((readBlobContainer_back b.txHashes (by decide)).bind (ReadsBack.guard fun _ => ReadsBack.pure' _)))

/-! ## The writers do not look at what the archive does not keep -/

@[simp] theorem Transaction.kept_version (tx : Transaction) : tx.kept.version = tx.version :=
  congrArg TransactionPrefix.version tx.kept_toTransactionPrefix

@[simp] theorem Transaction.kept_vin (tx : Transaction) : tx.kept.vin = tx.vin :=
  congrArg TransactionPrefix.vin tx.kept_toTransactionPrefix

@[simp] theorem Transaction.kept_vout (tx : Transaction) : tx.kept.vout = tx.vout :=
  congrArg TransactionPrefix.vout tx.kept_toTransactionPrefix

/-- Empty signature vectors, one per input, are written as no signatures are. -/
theorem writeSignaturesV1_kept (tx : Transaction) (hv1 : tx.version = 1)
    (hpruned : tx.pruned = false) : writeSignaturesV1 tx.kept = writeSignaturesV1 tx := by
  unfold Transaction.kept writeSignaturesV1
  simp only [if_pos hv1, hpruned]
  by_cases hnone : tx.signatures.isEmpty
  · simp only [hnone, if_true]
    cases hvin : tx.vin with
    | nil => rfl
    | cons txin vin =>
      -- one empty vector per input: each is checked against the input's signature size
      simp only [List.map_cons, List.isEmpty_cons, Bool.false_eq_true, not_false_eq_true,
        List.length_cons, List.length_map, ne_eq, not_true_eq_false, and_false, if_false,
        List.zipWith_cons_cons, List.zipWith_map_right, List.zipWith_self, List.map_cons]
      congr 1
      refine congrArg₂ _ ?_ (List.map_congr_left fun txin' _ => ?_) <;>
        · split_ifs <;> simp_all [writeSignatures]
  · simp only [hnone, Bool.false_eq_true, if_false]

theorem writeTransaction_kept (tx : Transaction) (hpruned : tx.pruned = false) :
    writeTransaction tx.kept = writeTransaction tx := by
  unfold writeTransaction
  rw [Transaction.kept_toTransactionPrefix]
  congr 1
  by_cases hv1 : tx.version = 1
  · rw [if_pos hv1, if_pos hv1, writeSignaturesV1_kept tx hv1 hpruned]
  rw [if_neg hv1, if_neg hv1]
  by_cases hempty : tx.vin.isEmpty
  · rw [if_pos hempty, if_pos hempty]
  rw [if_neg hempty, if_neg hempty]
  have hrct : tx.kept.rctSignatures =
      ⟨tx.rctSignatures.toRctSigBase.kept, tx.rctSignatures.p.kept tx.rctSignatures.type⟩ := by
    unfold Transaction.kept
    rw [if_neg hv1, if_neg hempty]
  have hkeptPruned : tx.kept.pruned = false := by
    unfold Transaction.kept
    rw [if_neg hv1, if_neg hempty]
  rw [hrct, hkeptPruned, hpruned]
  simp only [writeRctSigBase_kept, RctSigBase.kept_type, writeRctSigPrunable_kept]

theorem writeBlock_kept (b : Block) (hpruned : b.minerTx.pruned = false) :
    writeBlock b.kept = writeBlock b := by
  unfold writeBlock Block.kept
  rw [writeTransaction_kept b.minerTx hpruned]

/-! ## `parse_binary` after `dump_binary` -/

/-- Reading back a transaction's blob gives what the archive keeps of it, and writing that
gives the blob again; likewise for blocks. -/
theorem parseBinary_dumpBinary_kept :
    (∀ (t : Transaction) (blob : List UInt8), dumpBinary (writeTransaction t) = some blob →
      blob.length < 2 ^ 64 → t.pruned = false → t.rctSignatures.p.bulletproofs.length < 2 ^ 32 →
      parseBinary readTransaction blob = some t.kept ∧
        dumpBinary (writeTransaction t.kept) = some blob) ∧
    (∀ (b : Block) (blob : List UInt8), dumpBinary (writeBlock b) = some blob →
      blob.length < 2 ^ 64 → b.minerTx.pruned = false →
      b.minerTx.rctSignatures.p.bulletproofs.length < 2 ^ 32 →
      parseBinary readBlock blob = some b.kept ∧ dumpBinary (writeBlock b.kept) = some blob) := by
  constructor
  · intro t blob hdump hlen hpruned hbp
    obtain ⟨hok, rfl⟩ := dumpBinary_eq_some.1 hdump
    exact ⟨parseBinary_of_reads (readTransaction_back t hpruned hbp hok hlen),
      by rw [writeTransaction_kept t hpruned, hdump]⟩
  · intro b blob hdump hlen hpruned hbp
    obtain ⟨hok, rfl⟩ := dumpBinary_eq_some.1 hdump
    exact ⟨parseBinary_of_reads (readBlock_back b hpruned hbp hok hlen),
      by rw [writeBlock_kept b hpruned, hdump]⟩

/-- A coinbase transaction of version 2: one `txin_gen`, one output to a key, and a RingCT
signature of type `RCTTypeNull`. -/
def coinbaseTx : Transaction :=
  ⟨⟨2, 60, [.txinGen ⟨5⟩], [⟨100, .txoutToKey ⟨Key.zero⟩⟩], []⟩, [], RctSig.null, false⟩

/-- A block with no transactions besides its miner transaction. -/
def minerOnlyBlock : Block := ⟨⟨1, 1, 1000, Key.zero, 7⟩, coinbaseTx, []⟩

theorem parseBinary_dumpBinary_kept_minerOnlyBlock :
    parseBinary readTransaction (writeTransaction coinbaseTx).tokens = some coinbaseTx.kept ∧
      parseBinary readBlock (writeBlock minerOnlyBlock).tokens = some minerOnlyBlock.kept :=
  ⟨(parseBinary_dumpBinary_kept.1 coinbaseTx _ (dumpBinary_eq_some.2 ⟨by decide, rfl⟩)
      (by decide) rfl (by decide)).1,
    (parseBinary_dumpBinary_kept.2 minerOnlyBlock _ (dumpBinary_eq_some.2 ⟨by decide, rfl⟩)
      (by decide) rfl (by decide)).1⟩

/-- A CLSAG transaction with one input of ring size 1 and one output, whose bulletproof
holds its commitment `V`, as `expand_transaction_1` leaves every parsed transaction. -/
def clsagTx : Transaction :=
  ⟨⟨2, 0, [.txinToKey ⟨0, [0], Key.zero⟩], [⟨0, .txoutToKey ⟨Key.zero⟩⟩], []⟩, [],
    ⟨⟨rctTypeCLSAG, [], [⟨Key.zero, Key.zero⟩], [⟨Key.zero, Key.zero⟩], 0⟩,
      ⟨[], [⟨[Key.zero], Key.zero, Key.zero, Key.zero, Key.zero, Key.zero, Key.zero,
          List.replicate 6 Key.zero, List.replicate 6 Key.zero, Key.zero, Key.zero, Key.zero⟩],
        [], [⟨[Key.zero], Key.zero, Key.zero⟩], [Key.zero]⟩⟩, false⟩

/-- The writer accepts `clsagTx`, and the blob is read back without the bulletproof's `V`. -/
theorem parseBinary_clsagTx :
    dumpBinary (writeTransaction clsagTx) = some (writeTransaction clsagTx).tokens ∧
      parseBinary readTransaction (writeTransaction clsagTx).tokens ≠ some clsagTx := by
  have hok : (writeTransaction clsagTx).ok = true := by decide
  refine ⟨dumpBinary_eq_some.2 ⟨hok, rfl⟩, ?_⟩
  rw [parseBinary_of_reads (readTransaction_back clsagTx rfl (by decide) hok (by decide +kernel))]
  decide
/-! ## Blobs cut short

`read_varint` returns the number of bytes read so far at the end of the input, 0 for no
byte at all, and `serialize_uvarint` takes that for success (`readVarint_nil`). A blob
that stops where a varint should begin therefore reads as if the varint were 0: the last
byte of a block with no transaction hashes, the count 0, can be cut off, and the shorter
blob parses to the same block, whose blob is the longer one. -/

/-- A block with no transaction hashes besides its miner transaction parses from its blob
without the last byte, and the block parsed writes the whole blob. -/
theorem parseBinary_readBlock_dropLast (b : Block) (blob : List UInt8)
    (hdump : dumpBinary (writeBlock b) = some blob) (hlen : blob.length < 2 ^ 64)
    (hpruned : b.minerTx.pruned = false)
    (hbp : b.minerTx.rctSignatures.p.bulletproofs.length < 2 ^ 32) (hhashes : b.txHashes = []) :
    blob.dropLast ≠ blob ∧ parseBinary readBlock blob.dropLast = some b.kept ∧
      dumpBinary (writeBlock b.kept) = some blob := by
  obtain ⟨hok, rfl⟩ := dumpBinary_eq_some.1 hdump
  obtain ⟨header, minerTx, txHashes⟩ := b
  subst hhashes
  -- the header and the miner transaction, then the count 0 of the hashes
  have hwrite : writeBlock ⟨header, minerTx, []⟩ =
      writeBlockHeader header ++ writeTransaction minerTx ++ Output.emit [0] := by
    have hmax : ¬ cryptonoteMaxTxPerBlock < ([] : List Hash).length := by decide
    rw [writeBlock, writeContainer, if_neg hmax]
    simp only [List.length_nil, List.map_nil, Output.concat_nil, Output.append_emit_nil]
    rfl
  have hpartsOk : (writeBlockHeader header).ok = true ∧ (writeTransaction minerTx).ok = true := by
    simpa [hwrite] using hok
  have htokens : (writeBlock ⟨header, minerTx, []⟩).tokens =
      (writeBlockHeader header).tokens ++ (writeTransaction minerTx).tokens ++ [0] := by
    rw [hwrite, Output.append_tokens (by simp [hpartsOk]), Output.append_tokens hpartsOk.1]
    rfl
  have hlenParts := hlen
  rw [htokens, List.length_append, List.length_append] at hlenParts
  have hheader := readBlockHeader_back header hpartsOk.1 (by omega)
  have hminer := readTransaction_back minerTx hpruned hbp hpartsOk.2 (by omega)
  refine ⟨?_, ?_, by rw [writeBlock_kept _ hpruned, hdump]⟩
  · rw [htokens, List.dropLast_concat]
    intro h
    simpa using congrArg List.length h
  · rw [htokens, List.dropLast_concat, parseBinary]
    -- the reader runs out of input where the count of hashes begins, and reads 0
    have hrun : readBlock.run ((writeBlockHeader header).tokens ++ (writeTransaction minerTx).tokens) =
        some (Block.kept ⟨header, minerTx, []⟩, []) := by
      unfold readBlock
      rw [Reads.run_bind hheader, ← List.append_nil (writeTransaction minerTx).tokens,
        Reads.run_bind hminer]
      rfl
    rw [hrun]

/-- The smallest such blob is a transaction: a lone version byte reads as version 1 with no
inputs, outputs or extra, whose blob has four bytes more. -/
example : parseBinary readTransaction [1] = some ⟨⟨1, 0, [], [], []⟩, [], RctSig.null, false⟩ ∧
    dumpBinary (writeTransaction ⟨⟨1, 0, [], [], []⟩, [], RctSig.null, false⟩) =
      some [1, 0, 0, 0, 0] := by
  decide
theorem parseBinary_readBlock_dropLast_minerOnlyBlock :
    (writeBlock minerOnlyBlock).tokens.dropLast ≠ (writeBlock minerOnlyBlock).tokens ∧
      parseBinary readBlock (writeBlock minerOnlyBlock).tokens.dropLast = some minerOnlyBlock.kept ∧
      dumpBinary (writeBlock minerOnlyBlock.kept) = some (writeBlock minerOnlyBlock).tokens :=
  parseBinary_readBlock_dropLast minerOnlyBlock _ (dumpBinary_eq_some.2 ⟨by decide, rfl⟩)
    (by decide) rfl (by decide) rfl

end Cryptonote

end Wazn
