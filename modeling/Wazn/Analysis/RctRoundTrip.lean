import Wazn.Model.RctTypes
import Wazn.Analysis.BinaryArchiveCodec

/-!
# RingCT signatures read back what was written

`serialize_rctsig_base` and `serialize_rctsig_prunable` do not write every field. What a
fresh object read back from the bytes holds is the signature with the unwritten fields at
their fresh values: `RctSigBase.kept` and `RctSigPrunable.kept` say which those are, and
`readRctSigBase_back` and `readRctSigPrunable_back` prove that the readers return exactly
that, whenever the writer succeeds and the blob is shorter than `2 ^ 64` bytes. The
prunable part needs one more condition: the source stores the number of bulletproofs in a
`uint32_t`, so there must be fewer than `2 ^ 32` of them.

The proofs follow the serializers field by field: each field's writer is read back by its
reader (`ByteCodec.ReadsBack.bind`), and each count or type check is made alike on both
sides (`ByteCodec.ReadsBack.guard`, `ByteCodec.ReadsBack.replicate_guard`).
-/

set_option autoImplicit false

namespace Wazn

namespace Rct

open ByteCodec BinaryArchive

/-! ## What the archive keeps -/

/-- An output key as the archive keeps it: the mask, without `dest`. -/
def CtKey.kept (k : CtKey) : CtKey := ⟨Key.zero, k.mask⟩

/-- A compact `ecdhInfo` item as the archive keeps it: the first 8 bytes of the amount. -/
def EcdhTuple.compact (e : EcdhTuple) : EcdhTuple :=
  ⟨Key.zero, ⟨e.amount.toList.take 8 ++ List.replicate 24 0, by simp⟩⟩

/-- A bulletproof as the archive keeps it: without the commitments `V`. -/
def Bulletproof.kept (proof : Bulletproof) : Bulletproof := { proof with V := [] }

/-- The base as the archive keeps it: for `RCTTypeNull` only the type; otherwise the fee,
`pseudoOuts` for `RCTTypeSimple` only, the `ecdhInfo` (compact for the types that write
it so) and the masks of `outPk`. -/
def RctSigBase.kept (rv : RctSigBase) : RctSigBase :=
  if rv.type = rctTypeNull then RctSigBase.null
  else
    { rv with
      pseudoOuts := if rv.type = rctTypeSimple then rv.pseudoOuts else []
      ecdhInfo := if isCompactEcdhType rv.type then rv.ecdhInfo.map EcdhTuple.compact
        else rv.ecdhInfo
      outPk := rv.outPk.map CtKey.kept }

/-- The prunable part of a signature of type `type` as the archive keeps it: the
bulletproofs without `V` or the range signatures, the CLSAGs or the MLSAGs, and
`pseudoOuts` for the bulletproof types. -/
def RctSigPrunable.kept (type : UInt8) (p : RctSigPrunable) : RctSigPrunable :=
  if type = rctTypeNull then RctSigPrunable.null
  else
    { rangeSigs := if isRctBulletproof type then [] else p.rangeSigs
      bulletproofs := if isRctBulletproof type then p.bulletproofs.map Bulletproof.kept else []
      MGs := if type = rctTypeCLSAG then [] else p.MGs
      CLSAGs := if type = rctTypeCLSAG then p.CLSAGs else []
      pseudoOuts := if isRctBulletproof type then p.pseudoOuts else [] }

/-- The base read back has the type written; the transaction reads the prunable part on
that type. -/
theorem RctSigBase.kept_type (rv : RctSigBase) : rv.kept.type = rv.type := by
  unfold RctSigBase.kept
  by_cases hnull : rv.type = rctTypeNull
  · rw [if_pos hnull]
    exact hnull.symm
  · rw [if_neg hnull]

/-- The count of amounts reads only `L` and `R`. -/
theorem nBulletproofMaxAmountsLoop_kept :
    ∀ (n : ℕ) (proofs : List Bulletproof),
      nBulletproofMaxAmountsLoop n (proofs.map Bulletproof.kept) = nBulletproofMaxAmountsLoop n proofs
  | _, [] => rfl
  | n, proof :: proofs => by
    have hkept : nBulletproofMaxAmounts proof.kept = nBulletproofMaxAmounts proof := rfl
    rw [List.map_cons, nBulletproofMaxAmountsLoop, nBulletproofMaxAmountsLoop, hkept]
    simp only [nBulletproofMaxAmountsLoop_kept _ proofs]

/-! ## The parts -/

section Parts

variable {N : ℕ}

theorem readKey_back (k : Key) : ReadsBack N readKey (writeKey k) k := serializeBlob_back k

@[simp] theorem writeKey_tokens (k : Key) : (writeKey k).tokens = k.toList := rfl

@[simp] theorem writeKey_ok (k : Key) : (writeKey k).ok = true := rfl

theorem writeKey_ne_nil (k : Key) : (writeKey k).tokens ≠ [] := by
  simp [← List.length_pos_iff]

theorem readEcdhTuple_back (e : EcdhTuple) : ReadsBack N readEcdhTuple (writeEcdhTuple e) e := by
  unfold readEcdhTuple writeEcdhTuple
  exact (readKey_back e.mask).bind ((readKey_back e.amount).bind_pure _)

theorem readEcdhAmount_back (e : EcdhTuple) :
    ReadsBack N readEcdhAmount (writeEcdhAmount e) e.compact := by
  unfold readEcdhAmount writeEcdhAmount
  exact (serializeBlob_back (⟨e.amount.toList.take 8, by simp⟩ : List.Vector UInt8 8)).bind_pure _

theorem readRangeSig_back (sig : RangeSig) : ReadsBack N readRangeSig (writeRangeSig sig) sig := by
  unfold readRangeSig writeRangeSig
  exact (serializeBlob_back sig.asig).bind ((serializeBlob_back sig.Ci).bind_pure _)

theorem readMgSig_back (mixin ss2Elements : ℕ) (mg : MgSig) :
    ReadsBack N (readMgSig mixin ss2Elements) (writeMgSig mixin ss2Elements mg) mg := by
  unfold readMgSig writeMgSig
  -- each row is checked for `ss2Elements` keys, as the reader reads that many
  have hrows := ReadsBack.replicate_guard (N := N) (n := mixin + 1) mg.ss fun row _ =>
    (ReadsBack.replicate_guard (n := ss2Elements) row fun k _ => readKey_back k).congr rfl
      (List.map_id row)
  exact (hrows.congr rfl (List.map_id mg.ss)).bind ((readKey_back mg.cc).bind_pure _)

theorem readClsag_back (mixin : ℕ) (sig : Clsag) :
    ReadsBack N (readClsag mixin) (writeClsag mixin sig) sig := by
  unfold readClsag writeClsag
  rw [Output.append_assoc]
  have hs := (ReadsBack.replicate_guard (N := N) (n := mixin + 1) sig.s fun k _ =>
    readKey_back k).congr rfl (List.map_id sig.s)
  exact hs.bind ((readKey_back sig.c1).bind ((readKey_back sig.D).bind_pure _))

end Parts

theorem readBulletproof_back (proof : Bulletproof) :
    ReadsBack (2 ^ 64) readBulletproof (writeBulletproof proof) proof.kept := by
  unfold readBulletproof writeBulletproof
  simp only [Output.append_assoc]
  -- `A`, `S`, `T1`, `T2`, `taux`, `mu`
  iterate 6 refine (readKey_back _).bind ?_
  refine (readContainer_back_self (fun k _ => readKey_back k) fun k _ _ => writeKey_ne_nil k).bind ?_
  refine (readContainer_back_self (fun k _ => readKey_back k) fun k _ _ => writeKey_ne_nil k).bind ?_
  -- `a`, `b`, `t`, then the check on `L` and `R` made alike on both sides
  iterate 3 refine (readKey_back _).bind ?_
  exact ReadsBack.guard fun _ => ReadsBack.pure' _

/-! ## `serialize_rctsig_base` -/

theorem readRctSigBase_back (rv : RctSigBase) (inputs outputs : ℕ) :
    ReadsBack (2 ^ 64) (readRctSigBase inputs outputs) (writeRctSigBase rv inputs outputs)
      rv.kept := by
  unfold readRctSigBase writeRctSigBase
  refine (readUint8_back rv.type).bind ?_
  by_cases hnull : rv.type = rctTypeNull
  · rw [if_pos hnull, if_pos hnull, RctSigBase.kept, if_pos hnull, hnull]
    exact ReadsBack.pure' _
  rw [if_neg hnull, if_neg hnull]
  refine ReadsBack.guard fun _ => ?_
  simp only [Output.append_assoc]
  refine (readVarint64_back rv.txnFee).bind ?_
  -- `pseudoOuts`, for `RCTTypeSimple` only
  refine (ReadsBack.ite (c := rv.type = rctTypeSimple) (fun _ =>
    (ReadsBack.replicate_guard (n := inputs) rv.pseudoOuts
    fun k _ => readKey_back k).congr rfl (List.map_id _)) fun _ => ReadsBack.pure' []).bind ?_
  -- `ecdhInfo`, compact or whole
  have hecdh : ReadsBack (2 ^ 64)
      (Reader.replicate (if isCompactEcdhType rv.type then readEcdhAmount else readEcdhTuple)
        outputs)
      (if rv.ecdhInfo.length ≠ outputs then Output.fail
       else Output.concat (rv.ecdhInfo.map
         (if isCompactEcdhType rv.type then writeEcdhAmount else writeEcdhTuple)))
      (if isCompactEcdhType rv.type then rv.ecdhInfo.map EcdhTuple.compact else rv.ecdhInfo) := by
    by_cases hc : isCompactEcdhType rv.type
    · simp only [hc, if_true]
      exact ReadsBack.replicate_guard rv.ecdhInfo fun e _ => readEcdhAmount_back e
    · simp only [hc, Bool.false_eq_true, if_false]
      exact (ReadsBack.replicate_guard rv.ecdhInfo fun e _ => readEcdhTuple_back e).congr rfl
        (List.map_id _)
  refine hecdh.bind ?_
  -- the masks of `outPk`
  have houtPk := ReadsBack.replicate_guard (N := 2 ^ 64) (n := outputs) rv.outPk fun k _ =>
    (readKey_back k.mask).bind_pure (fun mask => (⟨Key.zero, mask⟩ : CtKey))
  rw [RctSigBase.kept, if_neg hnull]
  exact houtPk.bind_pure _

/-! ## `serialize_rctsig_prunable` -/

/-- The `bp` section reads back the bulletproofs without `V`, when their number fits in the
`uint32_t` it is stored into. -/
theorem readBp_back (type : UInt8) (outputs : ℕ) (bulletproofs : List Bulletproof)
    (hbp : bulletproofs.length < 2 ^ 32) :
    ReadsBack (2 ^ 64) (readBp type outputs) (writeBp type outputs bulletproofs)
      (bulletproofs.map Bulletproof.kept) := by
  unfold readBp writeBp
  rw [Nat.mod_eq_of_lt hbp]
  -- the number of proofs, a varint or a `uint32_t`
  have hnbp : ReadsBack (2 ^ 64)
      (if isCompactEcdhType type then serializeUvarint 32 else serializeUint 4)
      (Output.emit (if isCompactEcdhType type then writeVarint bulletproofs.length
        else writeUint 4 bulletproofs.length)) bulletproofs.length := by
    by_cases hc : isCompactEcdhType type
    · simp only [hc, if_true]
      exact ReadsBack.of_reads (serializeUvarint_reads hbp)
    · simp only [hc, Bool.false_eq_true, if_false]
      have h := serializeUint_reads 4 bulletproofs.length
      rw [Nat.mod_eq_of_lt (by simpa using hbp)] at h
      exact ReadsBack.of_reads h
  refine hnbp.bind (ReadsBack.guard fun _ => ?_)
  rw [List.take_of_length_le le_rfl]
  refine (ReadsBack.replicate bulletproofs fun proof _ => readBulletproof_back proof).bind ?_
  rw [nBulletproofMaxAmountsV, nBulletproofMaxAmountsLoop_kept]
  exact ReadsBack.guard fun _ => ReadsBack.pure' _

theorem readRctSigPrunable_back (p : RctSigPrunable) (type : UInt8) (inputs outputs mixin : ℕ)
    (hbp : p.bulletproofs.length < 2 ^ 32) :
    ReadsBack (2 ^ 64) (readRctSigPrunable type inputs outputs mixin)
      (writeRctSigPrunable p type inputs outputs mixin) (p.kept type) := by
  unfold readRctSigPrunable writeRctSigPrunable
  refine ReadsBack.guard fun _ => ?_
  by_cases hnull : type = rctTypeNull
  · rw [if_pos hnull, if_pos hnull, RctSigPrunable.kept, if_pos hnull]
    exact ReadsBack.pure' _
  rw [if_neg hnull, if_neg hnull]
  refine ReadsBack.guard fun _ => ?_
  rw [RctSigPrunable.kept, if_neg hnull, Output.append_assoc]
  have hCLSAGs := (ReadsBack.replicate_guard (N := 2 ^ 64) (n := inputs) p.CLSAGs fun sig _ =>
    readClsag_back mixin sig).congr rfl (List.map_id _)
  have hMGs := (ReadsBack.replicate_guard (N := 2 ^ 64) (n := mgElements type inputs) p.MGs
    fun mg _ => readMgSig_back mixin (mgSs2Elements type inputs) mg).congr rfl (List.map_id _)
  unfold readCLSAGs writeCLSAGs readMGs writeMGs
  -- the sections present for the type: bulletproofs or range signatures, CLSAGs or MLSAGs
  by_cases hb : isRctBulletproof type
  · have hpseudo := (ReadsBack.replicate_guard (N := 2 ^ 64) (n := inputs) p.pseudoOuts
      fun k _ => readKey_back k).congr rfl (List.map_id _)
    simp only [if_pos hb, pure_bind]
    refine (readBp_back type outputs p.bulletproofs hbp).bind ?_
    by_cases hc : type = rctTypeCLSAG
    · simp only [if_pos hc, pure_bind]
      exact hCLSAGs.bind (hpseudo.bind_pure _)
    · simp only [if_neg hc, pure_bind]
      exact hMGs.bind (hpseudo.bind_pure _)
  · have hc : ¬ type = rctTypeCLSAG := fun hc => hb (by rw [hc]; rfl)
    simp only [if_neg hb, if_neg hc, pure_bind, readRangeSigs, writeRangeSigs]
    have hrange := (ReadsBack.replicate_guard (N := 2 ^ 64) (n := outputs) p.rangeSigs
      fun sig _ => readRangeSig_back sig).congr rfl (List.map_id _)
    exact hrange.bind (hMGs.bind (ReadsBack.pure' _))

/-! ## The writers do not look at what the archive does not keep -/

theorem writeEcdhAmount_compact (e : EcdhTuple) : writeEcdhAmount e.compact = writeEcdhAmount e := by
  have hlen : (e.amount.toList.take 8).length = 8 := by simp
  simp only [writeEcdhAmount, EcdhTuple.compact, List.Vector.toList_mk, List.take_left' hlen]

theorem writeRctSigBase_kept (rv : RctSigBase) (inputs outputs : ℕ) :
    writeRctSigBase rv.kept inputs outputs = writeRctSigBase rv inputs outputs := by
  unfold RctSigBase.kept
  by_cases hnull : rv.type = rctTypeNull
  · rw [if_pos hnull]
    simp only [writeRctSigBase, RctSigBase.null, hnull, if_true]
  rw [if_neg hnull]
  unfold writeRctSigBase
  simp only [if_neg hnull]
  -- the fee, then `pseudoOuts`, `ecdhInfo` and `outPk` each written alike
  congr 4
  · by_cases hs : rv.type = rctTypeSimple <;> simp [hs]
  · by_cases hc : isCompactEcdhType rv.type
    · simp only [hc, if_true, List.length_map, List.map_map]
      congr 2
      exact List.map_congr_left fun e _ => writeEcdhAmount_compact e
    · simp [hc]
  · rw [List.length_map]
  · rw [List.map_map]
    rfl

/-- The base writes only the masks of `outPk`. -/
theorem writeRctSigBase_outPk (rv : RctSigBase) (outPk : List CtKey)
    (hmask : outPk.map CtKey.mask = rv.outPk.map CtKey.mask) (inputs outputs : ℕ) :
    writeRctSigBase { rv with outPk } inputs outputs = writeRctSigBase rv inputs outputs := by
  have hlen : outPk.length = rv.outPk.length := by
    simpa using congrArg List.length hmask
  have hkeys : outPk.map (fun k => writeKey k.mask) = rv.outPk.map fun k => writeKey k.mask := by
    have hcomp : (fun k : CtKey => writeKey k.mask) = writeKey ∘ CtKey.mask := rfl
    rw [hcomp, ← List.map_map, hmask, List.map_map]
  unfold writeRctSigBase
  dsimp only
  rw [hlen, hkeys]

theorem writeBp_kept (type : UInt8) (outputs : ℕ) (bulletproofs : List Bulletproof) :
    writeBp type outputs (bulletproofs.map Bulletproof.kept) = writeBp type outputs bulletproofs := by
  have hwrite : writeBulletproof ∘ Bulletproof.kept = writeBulletproof := rfl
  unfold writeBp
  dsimp only
  rw [List.length_map, ← List.map_take, List.map_map, hwrite, nBulletproofMaxAmountsV,
    nBulletproofMaxAmountsLoop_kept, ← nBulletproofMaxAmountsV]

theorem writeRctSigPrunable_kept (p : RctSigPrunable) (type : UInt8) (inputs outputs mixin : ℕ) :
    writeRctSigPrunable (p.kept type) type inputs outputs mixin =
      writeRctSigPrunable p type inputs outputs mixin := by
  unfold writeRctSigPrunable RctSigPrunable.kept
  by_cases hnull : type = rctTypeNull
  · simp only [hnull, if_true]
  simp only [if_neg hnull]
  split_ifs <;> simp_all [writeBp_kept]

end Rct

end Wazn
