import Mathlib.Data.Nat.Log
import Wazn.Library.ExceptLoop
import Wazn.Model.FormatUtils
import Wazn.Analysis.TransactionRoundTrip

/-!
# A pruned node weighs a transaction as a full node does

The blob of a version 2 transaction is its prefix, its RingCT base and its prunable part
(`writeTransaction_split`). The base-only parser reads the first two back and keeps the
prefix and the base (`readTransactionBase_run`); `expand_transaction_1` then changes only the
`dest` of the output keys (`expandTransaction1Base_eq_some`), so the writer writes the same
prefix and base for the pruned transaction it returns (`writeTransaction_of_pruned`). What
`get_pruned_transaction_weight` adds for the prunable part is, for one canonical bulletproof,
exactly what the prunable writer writes (`length_writeRctSigPrunable`), and both weights take
the clawback for the same padded output count (`nBulletproofMaxAmountsV_canonical`,
`ceilLog2_eq_clog`). So the two weights are equal (`getPrunedTransactionWeight_eq`).

The base-only parser accepts the blob when every output is to a key
(`expandTransaction1Base_isSome`): it gives each output key the key of its output, and fails
on any other output.

The weights differ for a transaction without inputs: its blob has no RingCT data at all, so
the pruned transaction is of type `RCTTypeNull`, which `get_pruned_transaction_weight`
refuses (`getPrunedTransactionWeight_noInputTx`).
-/

set_option autoImplicit false

namespace Wazn

namespace Cryptonote

open ByteCodec BinaryArchive Rct

/-! ## The loop of the padded output count -/

/-- The loop `while ((1u << nlr) < n) ++nlr` stops at the least exponent whose power of
two is at least `n`. -/
theorem ceilLog2Loop_eq_clog (n : ℕ) :
    ∀ (fuel nlr : ℕ), nlr ≤ Nat.clog 2 n → Nat.clog 2 n ≤ nlr + fuel →
      ceilLog2Loop n fuel nlr = Nat.clog 2 n
  | 0, nlr, hlow, hhigh => by
    rw [ceilLog2Loop]
    omega
  | fuel + 1, nlr, hlow, hhigh => by
    rw [ceilLog2Loop]
    split
    · next hlt =>
      have hnlr : nlr < Nat.clog 2 n := Nat.lt_clog_iff_pow_lt (by norm_num) |>.2 hlt
      exact ceilLog2Loop_eq_clog n fuel (nlr + 1) hnlr (by omega)
    · next hge =>
      have hclog : Nat.clog 2 n ≤ nlr := Nat.clog_le_of_le_pow (by omega)
      omega

theorem ceilLog2_eq_clog (n : ℕ) : ceilLog2 n = Nat.clog 2 n :=
  ceilLog2Loop_eq_clog n n 0 (Nat.zero_le _)
    (by simpa using Nat.clog_le_of_le_pow (Nat.lt_two_pow_self).le)

/-- The clawback reads only the number of outputs of the transaction. -/
theorem getTransactionWeightClawback_congr {tx tx' : Transaction} (h : tx.vout = tx'.vout)
    (n : ℕ) : getTransactionWeightClawback tx n = getTransactionWeightClawback tx' n := by
  unfold getTransactionWeightClawback
  rw [h]

/-- A canonical bulletproof, for `2 ^ nrl` outputs with `nrl ≤ 4`, counts that many. -/
theorem nBulletproofMaxAmountsV_canonical (bp : Bulletproof) (nrl : ℕ) (hnrl : nrl ≤ 4)
    (hL : bp.L.length = nrl + 6) (hR : bp.R.length = bp.L.length) :
    nBulletproofMaxAmountsV [bp] = 2 ^ nrl := by
  have hone : nBulletproofMaxAmounts bp = 2 ^ nrl := by
    rw [nBulletproofMaxAmounts, if_neg (by omega), if_neg (by omega), if_neg (by omega), hL,
      Nat.add_sub_cancel]
  have hsmall : 2 ^ nrl ≤ 2 ^ 4 := Nat.pow_le_pow_right (by norm_num) hnrl
  have hpos : 0 < 2 ^ nrl := Nat.two_pow_pos nrl
  rw [nBulletproofMaxAmountsV, nBulletproofMaxAmountsLoop, hone, if_neg (by omega),
    if_neg (by omega), nBulletproofMaxAmountsLoop, Nat.zero_add]

/-! ## The bytes of the prunable part -/

section PrunableLength

@[simp] theorem length_writeKey (k : Key) : (writeKey k).tokens.length = 32 := by
  simp

/-- A bulletproof written has `L` and `R` of one length: the check at the end passed. -/
theorem length_R_of_writeBulletproof_ok (proof : Bulletproof)
    (hok : (writeBulletproof proof).ok = true) : proof.R.length = proof.L.length := by
  have hcheck := Output.not_of_ite_fail (Output.ok_right hok)
  by_contra h
  exact hcheck (Or.inr (Ne.symm h))

/-- A bulletproof is 9 keys and the two containers `L` and `R` of one length. -/
theorem length_writeBulletproof (proof : Bulletproof) (hok : (writeBulletproof proof).ok = true)
    (hL : proof.L.length < 0x80) :
    (writeBulletproof proof).tokens.length = 32 * (9 + 2 * proof.L.length) + 2 := by
  have hR := length_R_of_writeBulletproof_ok proof hok
  unfold writeBulletproof at hok ⊢
  have hcheck := Output.not_of_ite_fail (Output.ok_right hok)
  rw [if_neg hcheck, Output.append_emit_nil] at hok ⊢
  have hkeysOk : ∀ ks : List Key, (writeContainer writeKey ks).ok = true := fun ks => by
    simp [writeContainer_ok]
  have hkeys : ∀ ks : List Key, ks.length < 0x80 →
      (writeContainer writeKey ks).tokens.length = 1 + ks.length * 32 := fun ks hks =>
    length_writeContainer (hkeysOk ks) (fun k _ _ => length_writeKey k) hks
  simp only [Output.length_tokens_append, Output.append_ok, writeKey_ok, hkeysOk, Bool.and_self,
    if_true, length_writeKey, hkeys proof.L hL, hkeys proof.R (hR ▸ hL), hR]
  omega

/-- The `bp` section of one proof was written only if the proof was. -/
theorem writeBulletproof_ok_of_writeBp (type : UInt8) (outputs : ℕ) (proof : Bulletproof)
    (hok : (writeBp type outputs [proof]).ok = true) : (writeBulletproof proof).ok = true := by
  have hnbp : [proof].length % 2 ^ 32 = 1 := rfl
  unfold writeBp at hok
  dsimp only at hok
  rw [hnbp] at hok
  have hcount := Output.not_of_ite_fail (Output.ok_right hok)
  rw [if_neg hcount] at hok
  have hproofs := Output.ok_left (Output.ok_right hok)
  simp only [List.take_succ_cons, List.take_zero, List.map_cons, List.map_nil, Output.concat_cons,
    Output.concat_nil, Output.append_emit_nil] at hproofs
  exact hproofs

/-- The `bp` section of a compact type with one proof: the count 1 as a varint, then the
proof. -/
theorem length_writeBp_single (type : UInt8) (outputs : ℕ) (proof : Bulletproof)
    (hc : isCompactEcdhType type = true) (hok : (writeBp type outputs [proof]).ok = true)
    (hL : proof.L.length < 0x80) :
    (writeBp type outputs [proof]).tokens.length = 1 + (32 * (9 + 2 * proof.L.length) + 2) := by
  have hnbp : [proof].length % 2 ^ 32 = 1 := rfl
  unfold writeBp at hok ⊢
  dsimp only at hok ⊢
  rw [hnbp, if_pos hc] at hok ⊢
  -- the two checks passed: a proof for at most `outputs`, covering them
  have hcount := Output.not_of_ite_fail (Output.ok_right hok)
  rw [if_neg hcount] at hok ⊢
  have hamounts := Output.not_of_ite_fail (Output.ok_right (Output.ok_right hok))
  simp only [if_neg hamounts, Output.append_emit_nil, List.take_succ_cons, List.take_zero,
    List.map_cons, List.map_nil, Output.concat_cons, Output.concat_nil] at hok ⊢
  rw [Output.length_tokens_append_of_ok hok, Output.emit_tokens,
    writeVarint_length_of_lt (by norm_num), length_writeBulletproof proof (Output.ok_right hok) hL]

/-- A CLSAG is `mixin + 1` scalars, `c1` and `D`. -/
theorem length_writeClsag (mixin : ℕ) (sig : Clsag) (hok : (writeClsag mixin sig).ok = true) :
    (writeClsag mixin sig).tokens.length = (mixin + 1) * 32 + 64 := by
  unfold writeClsag at hok ⊢
  have hs := Output.not_of_ite_fail (Output.ok_left (Output.ok_left hok))
  rw [if_neg hs] at hok ⊢
  rw [Output.length_tokens_append_of_ok hok, Output.length_tokens_append_of_ok (Output.ok_left hok),
    Output.length_concat_map (Output.ok_left (Output.ok_left hok)) fun k _ _ => length_writeKey k,
    not_not.1 hs, length_writeKey, length_writeKey]

/-- An MLSAG is `mixin + 1` rows of `ss2Elements` keys, and `cc`. -/
theorem length_writeMgSig (mixin ss2Elements : ℕ) (mg : MgSig)
    (hok : (writeMgSig mixin ss2Elements mg).ok = true) :
    (writeMgSig mixin ss2Elements mg).tokens.length = (mixin + 1) * (ss2Elements * 32) + 32 := by
  unfold writeMgSig at hok ⊢
  have hss := Output.not_of_ite_fail (Output.ok_left hok)
  rw [if_neg hss] at hok ⊢
  have hrows : ∀ row ∈ mg.ss,
      (if row.length ≠ ss2Elements then Output.fail else Output.concat (row.map writeKey)).ok =
        true →
      (if row.length ≠ ss2Elements then Output.fail
       else Output.concat (row.map writeKey)).tokens.length = ss2Elements * 32 := by
    intro row _ hrow
    have hlen := Output.not_of_ite_fail hrow
    rw [if_neg hlen] at hrow ⊢
    rw [Output.length_concat_map hrow fun k _ _ => length_writeKey k, not_not.1 hlen]
  rw [Output.length_tokens_append_of_ok hok, Output.length_concat_map (Output.ok_left hok) hrows,
    not_not.1 hss, length_writeKey]

theorem length_writeCLSAGs (inputs mixin : ℕ) (CLSAGs : List Clsag)
    (hok : (writeCLSAGs inputs mixin CLSAGs).ok = true) :
    (writeCLSAGs inputs mixin CLSAGs).tokens.length = inputs * ((mixin + 1) * 32 + 64) := by
  unfold writeCLSAGs at hok ⊢
  have hcount := Output.not_of_ite_fail hok
  rw [if_neg hcount] at hok ⊢
  rw [Output.length_concat_map hok fun sig _ hsig => length_writeClsag mixin sig hsig,
    not_not.1 hcount]

theorem length_writeMGs (type : UInt8) (inputs mixin : ℕ) (MGs : List MgSig)
    (hok : (writeMGs type inputs mixin MGs).ok = true) :
    (writeMGs type inputs mixin MGs).tokens.length =
      mgElements type inputs * ((mixin + 1) * (mgSs2Elements type inputs * 32) + 32) := by
  unfold writeMGs at hok ⊢
  have hcount := Output.not_of_ite_fail hok
  rw [if_neg hcount] at hok ⊢
  rw [Output.length_concat_map hok fun mg _ hmg => length_writeMgSig _ _ mg hmg,
    not_not.1 hcount]

/-- The prunable part of a compact bulletproof type with one proof of `nrl + 6` rounds is
what `get_pruned_transaction_weight` counts for it, with rings of `mixin + 1` members. -/
theorem length_writeRctSigPrunable (p : RctSigPrunable) (type : UInt8) (inputs outputs mixin : ℕ)
    (htype : type = rctTypeBulletproof2 ∨ type = rctTypeCLSAG) (proof : Bulletproof) (nrl : ℕ)
    (hbp : p.bulletproofs = [proof]) (hL : proof.L.length = nrl + 6) (hnrl : nrl + 6 < 0x80)
    (hok : (writeRctSigPrunable p type inputs outputs mixin).ok = true) :
    (writeRctSigPrunable p type inputs outputs mixin).tokens.length =
      1 + prunedExtraWeight type nrl inputs (mixin + 1) := by
  have hnull : type ≠ rctTypeNull := by rcases htype with rfl | rfl <;> decide
  have hser : ¬ isSerializableType type = false := by rcases htype with rfl | rfl <;> decide
  have hb : isRctBulletproof type = true := by rcases htype with rfl | rfl <;> decide
  have hc : isCompactEcdhType type = true := by rcases htype with rfl | rfl <;> decide
  unfold writeRctSigPrunable at hok ⊢
  have hbounds := Output.not_of_ite_fail hok
  simp only [if_neg hbounds, if_neg hnull, if_neg hser, hb, if_true] at hok ⊢
  -- the `bp` section, the ring signatures, `pseudoOuts`
  have hpseudo := Output.not_of_ite_fail (Output.ok_right hok)
  rw [if_neg hpseudo] at hok ⊢
  rw [Output.length_tokens_append_of_ok hok, Output.length_tokens_append_of_ok (Output.ok_left hok),
    Output.length_concat_map (Output.ok_right hok) fun k _ _ => length_writeKey k,
    not_not.1 hpseudo]
  rw [hbp] at hok ⊢
  rw [length_writeBp_single type outputs proof hc (Output.ok_left (Output.ok_left hok)) (by omega),
    hL]
  have hsigs := Output.ok_right (Output.ok_left hok)
  rcases htype with rfl | rfl
  · -- MLSAGs of two keys a row, one per input
    have hmg : ¬ rctTypeBulletproof2 = rctTypeCLSAG := by decide
    rw [if_neg hmg] at hsigs ⊢
    rw [length_writeMGs _ _ _ _ hsigs, prunedExtraWeight, if_neg hmg, mgElements,
      if_pos (by decide), mgSs2Elements, if_pos (by decide)]
    ring
  · rw [if_pos rfl] at hsigs ⊢
    rw [length_writeCLSAGs _ _ _ hsigs, prunedExtraWeight, if_pos rfl]
    ring

/-- The prunable part of a bulletproof type was written only if its `bp` section was. -/
theorem writeBp_ok_of_writeRctSigPrunable (p : RctSigPrunable) (type : UInt8)
    (inputs outputs mixin : ℕ) (hb : isRctBulletproof type = true)
    (hok : (writeRctSigPrunable p type inputs outputs mixin).ok = true) :
    (writeBp type outputs p.bulletproofs).ok = true := by
  have hnull : type ≠ rctTypeNull := fun h => by rw [h] at hb; exact Bool.false_ne_true hb
  unfold writeRctSigPrunable at hok
  have hbounds := Output.not_of_ite_fail hok
  rw [if_neg hbounds, if_neg hnull] at hok
  have hser := Output.not_of_ite_fail hok
  rw [if_neg hser, if_pos hb] at hok
  exact Output.ok_left (Output.ok_left hok)

end PrunableLength

/-! ## The blob with and without the prunable part -/

section Split

variable (t : Transaction)

/-- The blob of a version 2 transaction with inputs and a signature, not pruned: the
prefix, the base, the prunable part. -/
theorem writeTransaction_split (hversion : t.version ≠ 1) (hvin : t.vin ≠ [])
    (hpruned : t.pruned = false) (hnull : t.rctSignatures.type ≠ rctTypeNull) :
    writeTransaction t = writeTransactionPrefix t.toTransactionPrefix ++
      writeRctSigBase t.rctSignatures.toRctSigBase t.vin.length t.vout.length ++
      writeRctSigPrunable t.rctSignatures.p t.rctSignatures.type t.vin.length t.vout.length
        (mixinOf t.vin) := by
  unfold writeTransaction
  rw [if_neg hversion, if_neg (by simpa using hvin), if_pos ⟨by simp [hpruned], hnull⟩,
    Output.append_assoc]

/-- The blob of a pruned version 2 transaction with inputs: the prefix and the base. -/
theorem writeTransaction_of_pruned (hversion : t.version ≠ 1) (hvin : t.vin ≠ [])
    (hpruned : t.pruned = true) :
    writeTransaction t = writeTransactionPrefix t.toTransactionPrefix ++
      writeRctSigBase t.rctSignatures.toRctSigBase t.vin.length t.vout.length := by
  unfold writeTransaction
  rw [if_neg hversion, if_neg (by simpa using hvin), if_neg (by simp [hpruned]),
    Output.append_emit_nil]

end Split

/-- A base that was written has one output key per output. -/
theorem length_outPk_of_writeRctSigBase_ok (rv : RctSigBase) (inputs outputs : ℕ)
    (hnull : rv.type ≠ rctTypeNull) (hok : (writeRctSigBase rv inputs outputs).ok = true) :
    rv.outPk.length = outputs := by
  unfold writeRctSigBase at hok
  rw [if_neg hnull] at hok
  have hser := Output.not_of_ite_fail (Output.ok_right hok)
  rw [if_neg hser] at hok
  exact not_not.1 (Output.not_of_ite_fail (Output.ok_right (Output.ok_right hok)))

/-- The ring of the first input is written inside the prefix, one byte or more an offset. -/
theorem length_keyOffsets_le (pre : TransactionPrefix) (txin : TxinToKey) (vin : List TxinV)
    (hvin : pre.vin = .txinToKey txin :: vin) (hok : (writeTransactionPrefix pre).ok = true) :
    txin.keyOffsets.length ≤ (writeTransactionPrefix pre).tokens.length := by
  unfold writeTransactionPrefix at hok ⊢
  have hcheck := Output.not_of_ite_fail (Output.ok_right hok)
  rw [if_neg hcheck] at hok ⊢
  rw [hvin] at hok ⊢
  -- the ring, inside the input, inside the inputs, inside the prefix
  have hinner := Output.ok_right hok
  have hinputs := Output.ok_left (Output.ok_left hinner)
  have hcontainer := Output.ok_right hinputs
  have hfirst := Output.ok_right hcontainer
  rw [List.map_cons, Output.concat_cons] at hfirst
  have hkey := Output.ok_left hfirst
  have hring := Output.ok_right (Output.ok_left hkey)
  have hne : ∀ o ∈ txin.keyOffsets.map writeVarint64, o.tokens ≠ [] := by
    simp only [List.mem_map, forall_exists_index, and_imp, forall_apply_eq_imp_iff₂]
    exact fun v _ => writeVarint_ne_nil _
  have hall : ∀ o ∈ txin.keyOffsets.map writeVarint64, o.ok = true := by
    simp [writeVarint64]
  calc txin.keyOffsets.length
      ≤ (Output.concat (txin.keyOffsets.map writeVarint64)).tokens.length := by
        simpa using Output.length_le_length_concat hall hne
    _ ≤ (writeVarintContainer txin.keyOffsets).tokens.length :=
        Output.length_tokens_le_append_right hring
    _ ≤ (writeTxinV (.txinToKey txin)).tokens.length :=
        (Output.length_tokens_le_append_right (Output.ok_left hkey)).trans
          (Output.length_tokens_le_append_left _ _)
    _ ≤ (writeContainer writeTxinV (.txinToKey txin :: vin)).tokens.length := by
        have hcons := Output.length_tokens_le_append_right hcontainer
        rw [List.map_cons, Output.concat_cons] at hcons
        exact (Output.length_tokens_le_append_left _ _).trans hcons
    _ ≤ _ :=
        (Output.length_tokens_le_append_right hinputs).trans
          ((Output.length_tokens_le_append_left _ _).trans
          ((Output.length_tokens_le_append_left _ _).trans
          (Output.length_tokens_le_append_right hok)))

/-- The mixin the prunable part accepts is one less than the ring size. -/
theorem mixinOf_add_one (txin : TxinToKey) (vin : List TxinV)
    (hlen : txin.keyOffsets.length < 2 ^ 64) (hmixin : ¬ 0xffffffff ≤ mixinOf (.txinToKey txin :: vin)) :
    mixinOf (.txinToKey txin :: vin) + 1 = txin.keyOffsets.length := by
  rw [mixinOf] at hmixin ⊢
  omega

/-! ## What the base-only parser returns -/

/-- `serialize_base` reads the prefix and the base back, whatever follows them, and marks
the transaction pruned. -/
theorem readTransactionBase_run (pre : TransactionPrefix) (rv : RctSigBase)
    (hversion : pre.version ≠ 1) (hvin : pre.vin ≠ []) (rest : List UInt8)
    (hok : (writeTransactionPrefix pre ++ writeRctSigBase rv pre.vin.length pre.vout.length).ok)
    (hlen : (writeTransactionPrefix pre ++
      writeRctSigBase rv pre.vin.length pre.vout.length).tokens.length < 2 ^ 64) :
    readTransactionBase.run ((writeTransactionPrefix pre ++
        writeRctSigBase rv pre.vin.length pre.vout.length).tokens ++ rest) =
      some (⟨pre, [], ⟨rv.kept, RctSigPrunable.null⟩, true⟩, rest) := by
  rw [Output.length_tokens_append_of_ok hok] at hlen
  have hpre := readTransactionPrefix_back pre (Output.ok_left hok) (by omega)
  have hbase := readRctSigBase_back rv pre.vin.length pre.vout.length (Output.ok_right hok)
    (by omega)
  unfold readTransactionBase
  rw [Output.append_tokens (Output.ok_left hok), List.append_assoc, Reads.run_bind hpre,
    if_neg (by simp [hversion, hvin]), Reads.run_bind hbase]
  rfl

/-- `expand_transaction_1(tx, true)` of a version 2 transaction with a signature changes
only the `dest` of the output keys. -/
theorem expandTransaction1Base_eq_some (tx tp : Transaction) (hversion : 2 ≤ tx.version)
    (hcoinbase : isCoinbase tx = false) (hnull : tx.rctSignatures.type ≠ rctTypeNull)
    (h : expandTransaction1Base tx = some tp) :
    ∃ outPk : List CtKey, outPk.map CtKey.mask = tx.rctSignatures.outPk.map CtKey.mask ∧
      tp = { tx with rctSignatures := { tx.rctSignatures with outPk } } := by
  unfold expandTransaction1Base at h
  rw [if_pos ⟨hversion, hcoinbase⟩, if_neg hnull] at h
  by_cases hcount : tx.rctSignatures.outPk.length ≠ tx.vout.length
  · rw [if_pos hcount] at h
    cases h
  rw [if_neg hcount] at h
  -- the `mapM` that sets each `dest`
  cases hmap : (tx.rctSignatures.outPk.zip tx.vout).mapM (fun kOut => outPkWithDest kOut.1 kOut.2)
    with
  | none =>
    rw [hmap] at h
    cases h
  | some outPk =>
    rw [hmap] at h
    cases h
    refine ⟨outPk, ?_, rfl⟩
    have hmasks := ExceptLoop.map_of_mapM_eq_some (g := CtKey.mask) (h := fun kOut => kOut.1.mask)
      (fun kOut k hk => by
        unfold outPkWithDest at hk
        split at hk
        · cases hk
          rfl
        · cases hk) hmap
    have hfst : (tx.rctSignatures.outPk.zip tx.vout).map Prod.fst = tx.rctSignatures.outPk :=
      List.map_fst_zip (by omega)
    rw [hmasks]
    conv_rhs => rw [← hfst, List.map_map]
    rfl

/-- `expand_transaction_1(tx, true)` returns when every output is to a key. -/
theorem expandTransaction1Base_isSome (tx : Transaction)
    (hlen : tx.rctSignatures.outPk.length = tx.vout.length)
    (hkeys : ∀ out ∈ tx.vout, ∃ key, out.target = .txoutToKey key) :
    ∃ tp, expandTransaction1Base tx = some tp := by
  unfold expandTransaction1Base
  split_ifs with hcheck hnull hcount
  · exact ⟨_, rfl⟩
  · exact absurd hlen hcount
  · -- each pair's output is to a key
    obtain ⟨outPk, hmap⟩ := ExceptLoop.mapM_eq_some_of_forall
      (tx.rctSignatures.outPk.zip tx.vout) (f := fun kOut => outPkWithDest kOut.1 kOut.2)
      fun kOut hk => by
        obtain ⟨key, hkey⟩ := hkeys kOut.2 (List.of_mem_zip hk).2
        exact ⟨{ kOut.1 with dest := key.key }, by simp [outPkWithDest, hkey]⟩
    exact ⟨_, by rw [hmap]; rfl⟩
  · exact ⟨_, rfl⟩

/-! ## The two weights -/

theorem getPrunedTransactionWeight_eq (t : Transaction) (blob : List UInt8)
    (hdump : dumpBinary (writeTransaction t) = some blob) (hlen : blob.length < 2 ^ 64)
    (hpruned : t.pruned = false) (hversion : t.version = 2)
    (htype : t.rctSignatures.type = rctTypeBulletproof2 ∨ t.rctSignatures.type = rctTypeCLSAG)
    (txin : TxinToKey) (vin : List TxinV) (hvin : t.vin = .txinToKey txin :: vin)
    (hvout : 1 ≤ t.vout.length ∧ t.vout.length ≤ bulletproofMaxOutputs)
    (proof : Bulletproof) (hbp : t.rctSignatures.p.bulletproofs = [proof])
    (hL : proof.L.length = Nat.clog 2 t.vout.length + 6) :
    ((∀ out ∈ t.vout, ∃ key, out.target = .txoutToKey key) →
      ∃ tp, parseAndValidateTxBaseFromBlob blob = some tp) ∧
    ∀ tp, parseAndValidateTxBaseFromBlob blob = some tp →
      getPrunedTransactionWeight tp = getTransactionWeight t := by
  obtain ⟨hok, rfl⟩ := dumpBinary_eq_some.1 hdump
  have hv1 : t.version ≠ 1 := by rw [hversion]; decide
  have hvinNe : t.vin ≠ [] := by simp [hvin]
  have hnull : t.rctSignatures.type ≠ rctTypeNull := by
    rcases htype with h | h <;> rw [h] <;> decide
  have hclog : Nat.clog 2 t.vout.length ≤ 4 :=
    Nat.clog_le_of_le_pow (by simpa [bulletproofMaxOutputs] using hvout.2)
  -- the blob: the prefix and the base `PB`, then the prunable part `Q`
  have hsplit := writeTransaction_split t hv1 hvinNe hpruned hnull
  generalize hQ : writeRctSigPrunable t.rctSignatures.p t.rctSignatures.type t.vin.length
    t.vout.length (mixinOf t.vin) = Q at hsplit
  generalize hPB : writeTransactionPrefix t.toTransactionPrefix ++
    writeRctSigBase t.rctSignatures.toRctSigBase t.vin.length t.vout.length = PB at hsplit
  rw [hsplit] at hok hlen
  rw [hsplit]
  have hPBok := Output.ok_left hok
  have hQok := Output.ok_right hok
  have htokens := Output.append_tokens (p := Q) hPBok
  have hlenPB : PB.tokens.length < 2 ^ 64 := by
    rw [htokens, List.length_append] at hlen
    omega
  have hrun := readTransactionBase_run t.toTransactionPrefix t.rctSignatures.toRctSigBase hv1
    hvinNe Q.tokens (hPB ▸ hPBok) (hPB ▸ hlenPB)
  rw [hPB] at hrun
  -- what the base-only parser returns before `expand_transaction_1`
  have hparse : parseAndValidateTxBaseFromBlob (PB ++ Q).tokens =
      expandTransaction1Base ⟨t.toTransactionPrefix, [],
        ⟨t.rctSignatures.toRctSigBase.kept, RctSigPrunable.null⟩, true⟩ := by
    rw [parseAndValidateTxBaseFromBlob, htokens, hrun]
  have hBok : (writeRctSigBase t.rctSignatures.toRctSigBase t.vin.length t.vout.length).ok :=
    Output.ok_right (hPB ▸ hPBok)
  have houtPk : t.rctSignatures.toRctSigBase.kept.outPk.length = t.vout.length := by
    rw [RctSigBase.kept, if_neg hnull, List.length_map]
    exact length_outPk_of_writeRctSigBase_ok _ _ _ hnull hBok
  rw [hparse]
  refine ⟨fun hkeys => expandTransaction1Base_isSome _ houtPk hkeys, fun tp htp => ?_⟩
  obtain ⟨outPk, hmask, htpEq⟩ := expandTransaction1Base_eq_some _ tp
    (by show 2 ≤ t.version; rw [hversion]; decide) (by simp [isCoinbase, hvin])
    (by show t.rctSignatures.toRctSigBase.kept.type ≠ rctTypeNull
        rw [RctSigBase.kept_type]
        exact hnull) htp
  -- the transaction parsed: the prefix and the base written, and marked pruned
  have htpPre : tp.toTransactionPrefix = t.toTransactionPrefix := by rw [htpEq]
  have htpPruned : tp.pruned = true := by rw [htpEq]
  have htpType : tp.rctSignatures.type = t.rctSignatures.type := by
    rw [htpEq]
    exact RctSigBase.kept_type _
  have htpBase : ∀ inputs outputs, writeRctSigBase tp.rctSignatures.toRctSigBase inputs outputs =
      writeRctSigBase t.rctSignatures.toRctSigBase inputs outputs := fun inputs outputs => by
    rw [htpEq]
    exact (writeRctSigBase_outPk _ _ hmask _ _).trans (writeRctSigBase_kept _ _ _)
  have hwrite : writeTransaction tp = PB := by
    rw [writeTransaction_of_pruned tp (by rw [htpPre]; exact hv1) (by rw [htpPre]; exact hvinNe)
      htpPruned, htpPre, htpBase, hPB]
  -- the prunable part is what `get_pruned_transaction_weight` counts for it
  have hring : txin.keyOffsets.length < 2 ^ 64 := by
    have hpre := length_keyOffsets_le t.toTransactionPrefix txin vin hvin
      (Output.ok_left (hPB ▸ hPBok))
    have hle := Output.length_tokens_le_append_left (writeTransactionPrefix t.toTransactionPrefix)
      (writeRctSigBase t.rctSignatures.toRctSigBase t.vin.length t.vout.length)
    rw [hPB] at hle
    omega
  have hQlen : Q.tokens.length = 1 + prunedExtraWeight t.rctSignatures.type
      (Nat.clog 2 t.vout.length) t.vin.length txin.keyOffsets.length := by
    rw [← hQ] at hQok ⊢
    have hbounds := hQok
    unfold writeRctSigPrunable at hbounds
    replace hbounds := Output.not_of_ite_fail hbounds
    have hmixin : mixinOf t.vin + 1 = txin.keyOffsets.length := by
      rw [hvin] at hbounds ⊢
      exact mixinOf_add_one txin vin hring fun h => hbounds (Or.inr (Or.inr h))
    rw [length_writeRctSigPrunable _ _ _ _ _ htype proof _ hbp hL (by omega) hQok, hmixin]
  have hR : proof.R.length = proof.L.length := by
    have hbpOk := writeBp_ok_of_writeRctSigPrunable _ _ _ _ _
      (by rcases htype with h | h <;> rw [h] <;> rfl) (hQ ▸ hQok)
    rw [hbp] at hbpOk
    exact length_R_of_writeBulletproof_ok proof (writeBulletproof_ok_of_writeBp _ _ proof hbpOk)
  -- both weights: the same size, and the clawback for the same padded output count
  have htpVin : tp.vin = .txinToKey txin :: vin := by rw [htpPre]; exact hvin
  have htpVout : tp.vout = t.vout := by rw [htpPre]
  have htpVersion : tp.version = 2 := by rw [htpPre]; exact hversion
  have hprunedChecks : ¬ tp.pruned = false ∧ ¬ tp.version < 2 ∧
      ¬ ¬ (rctTypeBulletproof2 ≤ tp.rctSignatures.type ∨ tp.rctSignatures.type = rctTypeCLSAG) := by
    rw [htpPruned, htpVersion, htpType]
    rcases htype with h | h <;> rw [h] <;> decide
  have hfullChecks : ¬ t.pruned = true ∧ ¬ t.version < 2 ∧
      ¬ isRctBulletproof t.rctSignatures.type = false := by
    rw [hpruned, hversion]
    rcases htype with h | h <;> rw [h] <;> decide
  unfold getPrunedTransactionWeight getTransactionWeight getTransactionWeightOfBlobSize
  rw [if_neg hprunedChecks.1, if_neg hprunedChecks.2.1, if_neg hprunedChecks.2.2,
    if_neg hfullChecks.1, if_neg hfullChecks.2.1, if_neg hfullChecks.2.2]
  simp only [htpVin]
  rw [hwrite, hsplit, hbp, nBulletproofMaxAmountsV_canonical proof _ hclog hL hR, htpVout, htpType,
    ceilLog2_eq_clog, getTransactionWeightClawback_congr htpVout, htokens, List.length_append,
    hQlen, ← hvin, ← Nat.add_assoc]

theorem getPrunedTransactionWeight_eq_clsagTx :
    (∃ tp, parseAndValidateTxBaseFromBlob (writeTransaction clsagTx).tokens = some tp) ∧
      ∀ tp, parseAndValidateTxBaseFromBlob (writeTransaction clsagTx).tokens = some tp →
        getPrunedTransactionWeight tp = getTransactionWeight clsagTx := by
  have h := getPrunedTransactionWeight_eq clsagTx _ (dumpBinary_eq_some.2 ⟨by decide, rfl⟩)
    (by decide +kernel) rfl rfl (Or.inr rfl) ⟨0, [0], Key.zero⟩ [] rfl (by decide) _ rfl
    (by simp [clsagTx])
  refine ⟨h.1 fun out hout => ?_, h.2⟩
  simp only [clsagTx, List.mem_singleton] at hout
  exact ⟨_, by rw [hout]⟩

/-- `clsagTx` without its input, its CLSAG and its pseudo output: a version 2 CLSAG
transaction with one output and one canonical bulletproof, all of whose inputs (none) are
to a key. -/
def noInputTx : Transaction :=
  { clsagTx with
    vin := []
    rctSignatures := { clsagTx.rctSignatures with
      p := { clsagTx.rctSignatures.p with CLSAGs := [], pseudoOuts := [] } } }

/-- Without inputs the blob has no RingCT data, so the pruned transaction has type
`RCTTypeNull` and `get_pruned_transaction_weight` returns the maximum, while the full
transaction weighs its blob. -/
theorem getPrunedTransactionWeight_noInputTx :
    noInputTx.vin = [] ∧ dumpBinary (writeTransaction noInputTx) = some (writeTransaction noInputTx).tokens ∧
      ∃ tp, parseAndValidateTxBaseFromBlob (writeTransaction noInputTx).tokens = some tp ∧
        getPrunedTransactionWeight tp ≠ getTransactionWeight noInputTx := by
  refine ⟨rfl, dumpBinary_eq_some.2 ⟨by decide, rfl⟩,
    ⟨⟨2, 0, [], [⟨0, .txoutToKey ⟨Key.zero⟩⟩], []⟩, [], RctSig.null, true⟩, by decide, ?_⟩
  decide

end Cryptonote

end Wazn
