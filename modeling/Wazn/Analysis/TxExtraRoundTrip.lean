import Mathlib.Data.List.Infix
import Wazn.Model.TxExtra
import Wazn.Analysis.BinaryArchiveCodec

/-!
# Sorting the extra field keeps its fields

A field's writer writes what its reader reads back, for every field a reader can return
(`TxExtraField.Valid`): a padding of 1 to `TX_EXTRA_PADDING_MAX_COUNT` bytes, a nonce within
`TX_EXTRA_NONCE_MAX_COUNT`, strings and containers whose sizes fit their varints. The loop
reads a run of such fields back when the only padding is the last field
(`WellFormed`), since a padding reads to the end of the stream; and every run it reads is
of that form. `sort_tx_extra` writes the fields it read kind by kind (`sortedByKind`), a run
of the same form, which the loop reads back; `remove_field_from_tx_extra` writes a run of
the same form with one kind left out.
-/

set_option autoImplicit false

namespace Wazn

namespace Cryptonote

open ByteCodec BinaryArchive

/-! ## Fields -/

/-- The fields a reader can return, which their writers write back. -/
def TxExtraField.Valid : TxExtraField → Prop
  | .padding size => 1 ≤ size ∧ size ≤ txExtraPaddingMaxCount
  | .pubKey _ => True
  | .nonce bytes => bytes.length ≤ txExtraNonceMaxCount
  | .mergeMiningTag _ _ => True
  | .additionalPubKeys keys => keys.length < 2 ^ 64
  | .mysteriousMinergate bytes => bytes.length < 2 ^ 64

theorem writePadding_tokens {size : ℕ} (h : size ≤ txExtraPaddingMaxCount) :
    (writePadding size).tokens = List.replicate (size - 1) 0 ∧ (writePadding size).ok = true := by
  rw [writePadding, if_neg (by omega)]
  have hok : ∀ o ∈ List.replicate (size - 1) (writeUint8 0), o.ok = true := by
    intro o ho
    rw [List.eq_of_mem_replicate ho]
    rfl
  refine ⟨?_, ?_⟩
  · rw [Output.concat_tokens _ hok, List.flatMap_replicate, writeUint8_tokens]
    simp
  · rw [Output.concat_ok, List.all_eq_true]
    exact hok

/-- The merge-mining tag's string: the helper's bytes, fewer than `2 ^ 64`. -/
theorem writeTxExtraMergeMiningTag_eq (depth : UInt64) (merkleRoot : Hash) :
    writeTxExtraMergeMiningTag depth merkleRoot =
      writeString (writeVarint depth.toNat ++ merkleRoot.toList) ∧
      (writeVarint depth.toNat ++ merkleRoot.toList).length < 2 ^ 64 := by
  have hvarint := length_writeVarint_le 9 depth.toNat
    (lt_of_lt_of_le depth.toNat_lt (Nat.pow_le_pow_right (by omega) (by omega)))
  refine ⟨rfl, ?_⟩
  rw [List.length_append, List.Vector.toList_length]
  omega

theorem writeTxExtraFieldBody_ok {field : TxExtraField} (hv : field.Valid) :
    (writeTxExtraFieldBody field).ok = true := by
  cases field with
  | padding size => exact (writePadding_tokens hv.2).2
  | pubKey pubKey => rfl
  | nonce nonce =>
    rw [writeTxExtraFieldBody, writeTxExtraNonce, if_neg (Nat.not_lt.2 hv)]
    rfl
  | mergeMiningTag depth merkleRoot =>
    rw [writeTxExtraFieldBody, (writeTxExtraMergeMiningTag_eq _ _).1]
    rfl
  | additionalPubKeys data =>
    rw [writeTxExtraFieldBody, writeContainer_ok, List.all_eq_true]
    intro _ _
    rfl
  | mysteriousMinergate data => rfl

/-- A field's writer writes its tag, then the alternative. -/
theorem writeTxExtraField_tokens (field : TxExtraField) :
    (writeTxExtraField field).tokens = field.kind.tag :: (writeTxExtraFieldBody field).tokens := by
  rw [writeTxExtraField, Output.append_tokens (rfl : (writeUint8 _).ok = true), writeUint8_tokens]
  rfl

theorem writeTxExtraField_ok {field : TxExtraField} (hv : field.Valid) :
    (writeTxExtraField field).ok = true := by
  rw [writeTxExtraField, Output.append_ok, writeTxExtraFieldBody_ok hv]
  rfl

/-- The alternative's reader reads back what its writer wrote, for every alternative but the
padding, whatever follows it. -/
theorem readTxExtraFieldBody_reads {field : TxExtraField} (hv : field.Valid)
    (hpad : field.kind ≠ .padding) :
    Reads (readTxExtraFieldBody field.kind.tag) (writeTxExtraFieldBody field).tokens field := by
  cases field with
  | padding size => exact absurd rfl hpad
  | pubKey pubKey =>
    show Reads (TxExtraField.pubKey <$> serializeBlob 32) pubKey.toList _
    exact Reads.map _ (Reads.takeVector pubKey)
  | nonce nonce =>
    have hcheck : ¬ txExtraNonceMaxCount < nonce.length := Nat.not_lt.2 hv
    have hlen : nonce.length < 2 ^ 64 := lt_of_le_of_lt hv (by decide)
    show Reads (TxExtraField.nonce <$> readTxExtraNonce) (writeTxExtraNonce nonce).tokens _
    rw [writeTxExtraNonce, if_neg hcheck, Output.append_emit_nil,
      ← List.append_nil (writeString nonce).tokens]
    refine Reads.map _ (Reads.bind (readString_reads nonce hlen) ?_)
    simp only [if_neg hcheck]
    exact Reads.pure' nonce
  | mergeMiningTag depth merkleRoot =>
    obtain ⟨hwrite, hlen⟩ := writeTxExtraMergeMiningTag_eq depth merkleRoot
    -- the helper reads the string to its end
    have hhelper : parseBinary readMergeMiningTagHelper
        (writeVarint depth.toNat ++ merkleRoot.toList) = some (depth, merkleRoot) := by
      apply parseBinary_of_reads
      rw [← List.append_nil merkleRoot.toList]
      exact Reads.bind (readVarint64_reads depth)
        (Reads.bind (Reads.takeVector merkleRoot) (Reads.pure' _))
    have hread : Reads readTxExtraMergeMiningTag
        (writeTxExtraMergeMiningTag depth merkleRoot).tokens (depth, merkleRoot) := by
      rw [hwrite, ← List.append_nil (writeString _).tokens]
      refine Reads.bind (readString_reads _ hlen) ?_
      simp only [hhelper]
      exact Reads.pure' _
    exact Reads.map (fun tag => TxExtraField.mergeMiningTag tag.1 tag.2) hread
  | additionalPubKeys keys =>
    show Reads (TxExtraField.additionalPubKeys <$> readContainer (serializeBlob 32))
      (writeContainer writeBlob keys).tokens _
    refine Reads.map _ (readContainer_reads (fun key _ => ⟨rfl, ?_, Reads.takeVector key⟩) hv)
    simp [writeBlob, ← List.length_pos_iff]
  | mysteriousMinergate bytes =>
    show Reads (TxExtraField.mysteriousMinergate <$> readString) (writeString bytes).tokens _
    exact Reads.map _ (readString_reads bytes hv)

theorem TxExtraField.kind_eq_padding {field : TxExtraField} :
    field.kind = .padding ↔ ∃ size, field = .padding size := by
  cases field <;> simp [TxExtraField.kind]

/-- On `k` zero bytes and nothing after them, the padding loop counts them. -/
theorem readPaddingLoop_zeros : ∀ (n size k : ℕ), k ≤ n →
    (readPaddingLoop n size).run (List.replicate k 0) = some (size + k, [])
  | 0, size, k, hk => by
    obtain rfl : k = 0 := by omega
    rfl
  | n + 1, size, 0, _ => rfl
  | n + 1, size, k + 1, hk => by
    rw [readPaddingLoop, Reader.run_remaining_bind, List.length_replicate, if_neg (by omega),
      List.replicate_succ, ← List.singleton_append, (readUint8_reads 0).run_bind,
      if_neg (not_not.2 rfl), readPaddingLoop_zeros n (size + 1) k (by omega),
      show size + 1 + k = size + (k + 1) by omega]

theorem readPadding_run_replicate {size : ℕ} (h1 : 1 ≤ size)
    (h : size ≤ txExtraPaddingMaxCount) :
    readPadding.run (List.replicate (size - 1) 0) = some (size, []) := by
  have hloop := readPaddingLoop_zeros txExtraPaddingMaxCount 1 (size - 1) (by omega)
  rw [Nat.add_sub_cancel' h1] at hloop
  rw [readPadding, StateT.run_bind, hloop]
  simp [h]

/-- A field's reader reads back what its writer wrote, followed by anything when it is not a
padding, and at the end of the stream when it is. -/
theorem readTxExtraField_run_write {field : TxExtraField} (hv : field.Valid) {rest : List UInt8}
    (hrest : field.kind = .padding → rest = []) :
    readTxExtraField.run ((writeTxExtraField field).tokens ++ rest) = some (field, rest) := by
  rw [writeTxExtraField_tokens, ← List.singleton_append, List.append_assoc, readTxExtraField,
    (readUint8_reads _).run_bind]
  by_cases hpad : field.kind = .padding
  · obtain ⟨size, rfl⟩ := TxExtraField.kind_eq_padding.1 hpad
    rw [hrest hpad, List.append_nil]
    show (TxExtraField.padding <$> readPadding).run (writePadding size).tokens = _
    rw [(writePadding_tokens hv.2).1, StateT.run_map, readPadding_run_replicate hv.1 hv.2]
    rfl
  · exact readTxExtraFieldBody_reads hv hpad rest

/-- What the padding loop returns: at least the size it started from, and either the stream
is at its end or every round read a zero. -/
theorem readPaddingLoop_run : ∀ (n size : ℕ) {input rest : List UInt8} {s : ℕ},
    (readPaddingLoop n size).run input = some (s, rest) →
      size ≤ s ∧ (rest = [] ∨ s = size + n)
  | 0, size, input, rest, s, h => by
    rw [readPaddingLoop, Reader.run_pure_eq_some] at h
    exact ⟨h.1.le, .inr (by omega)⟩
  | n + 1, size, input, rest, s, h => by
    rw [readPaddingLoop, Reader.run_remaining_bind] at h
    split at h
    · next hend =>
      rw [Reader.run_pure_eq_some] at h
      obtain ⟨rfl, rfl⟩ := h
      exact ⟨le_rfl, .inl (List.length_eq_zero_iff.1 hend)⟩
    · rw [Reader.run_bind_eq_some] at h
      obtain ⟨zero, mid, -, h⟩ := h
      split at h
      · cases h
      · obtain ⟨hle, hrest⟩ := readPaddingLoop_run n (size + 1) h
        exact ⟨by omega, hrest.imp id (by omega)⟩

/-- A padding that was read is 1 to `TX_EXTRA_PADDING_MAX_COUNT` bytes and ends the stream. -/
theorem readPadding_run_eq_some {input rest : List UInt8} {size : ℕ}
    (h : readPadding.run input = some (size, rest)) :
    1 ≤ size ∧ size ≤ txExtraPaddingMaxCount ∧ rest = [] := by
  rw [readPadding, Reader.run_bind_eq_some] at h
  obtain ⟨s, mid, hloop, h⟩ := h
  split at h
  · next hle =>
    rw [Reader.run_pure_eq_some] at h
    obtain ⟨rfl, rfl⟩ := h
    obtain ⟨h1, hrest⟩ := readPaddingLoop_run _ _ hloop
    refine ⟨h1, hle, hrest.resolve_right ?_⟩
    unfold txExtraPaddingMaxCount at hle ⊢
    omega
  · cases h

theorem readTxExtraNonce_length {input rest nonce : List UInt8}
    (h : readTxExtraNonce.run input = some (nonce, rest)) :
    nonce.length ≤ txExtraNonceMaxCount := by
  rw [readTxExtraNonce, Reader.run_bind_eq_some] at h
  obtain ⟨bytes, mid, -, h⟩ := h
  split at h
  · cases h
  · next hle =>
    rw [Reader.run_pure_eq_some] at h
    rw [← h.1]
    exact Nat.not_lt.1 hle

/-- Every field a reader returns is valid, and a padding ends the stream. -/
theorem readTxExtraField_valid {input rest : List UInt8} {field : TxExtraField}
    (h : readTxExtraField.run input = some (field, rest)) :
    field.Valid ∧ (field.kind = .padding → rest = []) := by
  rw [readTxExtraField, Reader.run_bind_eq_some] at h
  obtain ⟨tag, mid, -, h⟩ := h
  unfold readTxExtraFieldBody at h
  split at h
  · obtain ⟨size, hrun, rfl⟩ := Reader.run_map_eq_some.1 h
    obtain ⟨h1, h2, rfl⟩ := readPadding_run_eq_some hrun
    exact ⟨⟨h1, h2⟩, fun _ => rfl⟩
  split at h
  · obtain ⟨key, -, rfl⟩ := Reader.run_map_eq_some.1 h
    exact ⟨trivial, nofun⟩
  split at h
  · obtain ⟨nonce, hrun, rfl⟩ := Reader.run_map_eq_some.1 h
    exact ⟨readTxExtraNonce_length hrun, nofun⟩
  split at h
  · obtain ⟨tag, -, rfl⟩ := Reader.run_map_eq_some.1 h
    exact ⟨trivial, nofun⟩
  split at h
  · obtain ⟨keys, hrun, rfl⟩ := Reader.run_map_eq_some.1 h
    exact ⟨length_of_run_readContainer hrun, nofun⟩
  split at h
  · obtain ⟨bytes, hrun, rfl⟩ := Reader.run_map_eq_some.1 h
    exact ⟨length_of_run_readString hrun, nofun⟩
  · cases h

/-! ## Runs of fields -/

/-- The bytes of a run of fields, each written by the variant writer. -/
def encodeTxExtra (fields : List TxExtraField) : List UInt8 :=
  fields.flatMap fun field => (writeTxExtraField field).tokens

/-- A run of fields that the loop reads back: valid fields, no padding but the last. -/
structure WellFormedTxExtra (fields : List TxExtraField) : Prop where
  valid : ∀ field ∈ fields, field.Valid
  paddingLast : ∀ field ∈ fields.dropLast, field.kind ≠ .padding

theorem wellFormedTxExtra_nil : WellFormedTxExtra [] :=
  ⟨nofun, nofun⟩

theorem wellFormedTxExtra_cons {field : TxExtraField} {fields : List TxExtraField} :
    WellFormedTxExtra (field :: fields) ↔
      field.Valid ∧ (fields ≠ [] → field.kind ≠ .padding) ∧ WellFormedTxExtra fields := by
  constructor
  · intro h
    refine ⟨h.valid field List.mem_cons_self, fun hne => h.paddingLast field ?_,
      fun f hf => h.valid f (List.mem_cons_of_mem _ hf), fun f hf => h.paddingLast f ?_⟩
    · rw [List.dropLast_cons_of_ne_nil hne]
      exact List.mem_cons_self
    · rw [List.dropLast_cons_of_ne_nil (List.ne_nil_of_mem (List.mem_of_mem_dropLast hf))]
      exact List.mem_cons_of_mem _ hf
  · rintro ⟨hv, hpad, hwf⟩
    refine ⟨?_, ?_⟩
    · intro f hf
      rcases List.mem_cons.1 hf with rfl | hf
      · exact hv
      · exact hwf.valid f hf
    · intro f hf
      by_cases hnil : fields = []
      · subst hnil
        simp at hf
      · rw [List.dropLast_cons_of_ne_nil hnil] at hf
        rcases List.mem_cons.1 hf with rfl | hf
        · exact hpad hnil
        · exact hwf.paddingLast f hf

theorem encodeTxExtra_cons (field : TxExtraField) (fields : List TxExtraField) :
    encodeTxExtra (field :: fields) = (writeTxExtraField field).tokens ++ encodeTxExtra fields :=
  List.flatMap_cons

/-- Each field writes at least its tag. -/
theorem length_le_encodeTxExtra : ∀ fields : List TxExtraField,
    fields.length ≤ (encodeTxExtra fields).length
  | [] => le_rfl
  | field :: fields => by
    rw [encodeTxExtra_cons, writeTxExtraField_tokens, List.length_append, List.length_cons,
      List.length_cons]
    have := length_le_encodeTxExtra fields
    omega

theorem encodeTxExtra_eq_nil {fields : List TxExtraField} :
    encodeTxExtra fields = [] ↔ fields = [] := by
  cases fields with
  | nil => simp [encodeTxExtra]
  | cons field fields => simp [encodeTxExtra_cons, writeTxExtraField_tokens]

/-- The loop reads back a well-formed run, given a round per field. -/
theorem readTxExtraFields_encode : ∀ (fields : List TxExtraField) (fuel : ℕ),
    WellFormedTxExtra fields → fields ≠ [] → fields.length ≤ fuel →
      readTxExtraFields fuel (encodeTxExtra fields) = (fields, [], true)
  | [], _, _, hne, _ => absurd rfl hne
  | _ :: _, 0, _, _, hlen => by simp at hlen
  | field :: fields, fuel + 1, hwf, _, hlen => by
    obtain ⟨hv, hpad, hwf'⟩ := wellFormedTxExtra_cons.1 hwf
    -- a padding is the last field, so nothing follows it
    have hrest : field.kind = .padding → encodeTxExtra fields = [] := fun hp =>
      encodeTxExtra_eq_nil.2 (not_not.1 (mt hpad (not_not.2 hp)))
    rw [encodeTxExtra_cons, readTxExtraFields, readTxExtraField_run_write hv hrest]
    by_cases hnil : fields = []
    · subst hnil
      rfl
    · simp only
      rw [if_neg (mt encodeTxExtra_eq_nil.1 hnil),
        readTxExtraFields_encode fields fuel hwf' hnil (by simpa using hlen)]

/-- Every run the loop reads to the end of the stream is well-formed. -/
theorem readTxExtraFields_wellFormed : ∀ (fuel : ℕ) {input left : List UInt8}
    {fields : List TxExtraField},
    readTxExtraFields fuel input = (fields, left, true) → WellFormedTxExtra fields
  | 0, _, _, _, h => by simp [readTxExtraFields] at h
  | fuel + 1, input, left, fields, h => by
    rw [readTxExtraFields] at h
    split at h
    · simp at h
    · next field rest hrun =>
      obtain ⟨hv, hpad⟩ := readTxExtraField_valid hrun
      split at h
      · simp only [Prod.mk.injEq] at h
        obtain ⟨rfl, -, -⟩ := h
        exact wellFormedTxExtra_cons.2 ⟨hv, fun hne => absurd rfl hne, wellFormedTxExtra_nil⟩
      · next hrest =>
        rcases hloop : readTxExtraFields fuel rest with ⟨fields', left', eof⟩
        rw [hloop] at h
        simp only [Prod.mk.injEq] at h
        obtain ⟨rfl, rfl, rfl⟩ := h
        exact wellFormedTxExtra_cons.2
          ⟨hv, fun _ hp => hrest (hpad hp), readTxExtraFields_wellFormed fuel hloop⟩

/-- `parse_tx_extra` reads back a well-formed run. -/
theorem parseTxExtra_encode {fields : List TxExtraField} (hwf : WellFormedTxExtra fields) :
    parseTxExtra (encodeTxExtra fields) = some fields := by
  by_cases hnil : fields = []
  · subst hnil
    rfl
  · rw [parseTxExtra, if_neg (mt encodeTxExtra_eq_nil.1 hnil),
      readTxExtraFields_encode fields _ hwf hnil (length_le_encodeTxExtra fields)]
    rfl

/-- What `parse_tx_extra` returns from a non-empty extra is what the loop read to its end. -/
theorem readTxExtraFields_of_parseTxExtra {txExtra : List UInt8} {fields : List TxExtraField}
    (h : parseTxExtra txExtra = some fields) (hne : txExtra ≠ []) :
    ∃ left, readTxExtraFields txExtra.length txExtra = (fields, left, true) := by
  rw [parseTxExtra, if_neg hne] at h
  rcases hloop : readTxExtraFields txExtra.length txExtra with ⟨fields', left, eof⟩
  rw [hloop] at h
  cases eof
  · cases h
  · cases h
    exact ⟨left, rfl⟩

theorem parseTxExtra_wellFormed {txExtra : List UInt8} {fields : List TxExtraField}
    (h : parseTxExtra txExtra = some fields) : WellFormedTxExtra fields := by
  by_cases hnil : txExtra = []
  · rw [parseTxExtra, if_pos hnil, Option.some.injEq] at h
    subst h
    exact wellFormedTxExtra_nil
  · obtain ⟨left, hloop⟩ := readTxExtraFields_of_parseTxExtra h hnil
    exact readTxExtraFields_wellFormed _ hloop

/-! ## Sorting and removing -/

/-- The kinds in the order `sort_tx_extra` writes them. -/
def sortOrder : List TxExtraKind :=
  [.pubKey, .additionalPubKeys, .nonce, .mergeMiningTag, .mysteriousMinergate, .padding]

/-- The fields grouped by kind in `sortOrder`, each kind's fields in the order they came:
what `sort_tx_extra` is to leave. -/
def sortedByKind (fields : List TxExtraField) : List TxExtraField :=
  sortOrder.flatMap fun kind => fields.filter (·.kind == kind)

theorem filter_kind_ne_eq_self {kind : TxExtraKind} {fields : List TxExtraField}
    (h : fields.filter (·.kind == kind) = []) : fields.filter (·.kind != kind) = fields := by
  rw [List.filter_eq_self]
  intro field hfield
  have := List.filter_eq_nil_iff.1 h field hfield
  simpa using this

/-- `pick<T>` writes the fields of its kind in order and leaves the others, given a round
for each. -/
theorem pick_eq (kind : TxExtraKind) : ∀ (fuel : ℕ) (out : List UInt8)
    (fields : List TxExtraField), (∀ field ∈ fields, field.Valid) →
      (fields.filter (·.kind == kind)).length ≤ fuel →
      pick kind kind.tag fuel out fields =
        some (out ++ encodeTxExtra (fields.filter (·.kind == kind)),
          fields.filter (·.kind != kind))
  | 0, out, fields, _, hfuel => by
    have hnil := List.length_eq_zero_iff.1 (Nat.le_zero.1 hfuel)
    rw [pick, hnil, filter_kind_ne_eq_self hnil, encodeTxExtra, List.flatMap_nil, List.append_nil]
  | fuel + 1, out, fields, hvalid, hfuel => by
    rw [pick]
    cases hfind : fields.find? (·.kind == kind) with
    | none =>
      have hnil : fields.filter (·.kind == kind) = [] :=
        List.filter_eq_nil_iff.2 (List.find?_eq_none.1 hfind)
      simp only [hnil, filter_kind_ne_eq_self hnil, encodeTxExtra, List.flatMap_nil,
        List.append_nil]
    | some field =>
      obtain ⟨hkind, pre, post, rfl, hpre⟩ := List.find?_eq_some_iff_append.1 hfind
      have hpre' : pre.filter (·.kind == kind) = [] :=
        List.filter_eq_nil_iff.2 fun f hf => by simpa using hpre f hf
      have herase : (pre ++ field :: post).eraseP (·.kind == kind) = pre ++ post := by
        rw [List.eraseP_append_right _ fun f hf => by simpa using hpre f hf,
          List.eraseP_cons_of_pos (p := fun x : TxExtraField => x.kind == kind) hkind]
      have hfield : field.kind = kind := by simpa using hkind
      have hvalid' : ∀ f ∈ pre ++ post, f.Valid := fun f hf =>
        hvalid f (by rcases List.mem_append.1 hf with h | h <;> simp [h])
      -- the field picked is the first of its kind, written as the variant writer writes it
      have hwrite :
          writeUint8 kind.tag ++ writeTxExtraFieldBody field = writeTxExtraField field := by
        rw [writeTxExtraField, hfield]
      have hok := writeTxExtraField_ok (hvalid field (by simp))
      have hcount : ((pre ++ post).filter (·.kind == kind)).length ≤ fuel := by
        simp only [List.filter_append, List.filter_cons, hkind, if_true, hpre', List.nil_append,
          List.length_cons] at hfuel ⊢
        omega
      simp only [hwrite, hok, if_true]
      rw [herase, pick_eq kind fuel _ (pre ++ post) hvalid' hcount]
      simp [List.filter_append, hpre', encodeTxExtra_cons, hfield]

/-- The picks of `sort_tx_extra` for `kinds` in turn, each with a round per field left, then
`k` on the bytes written and the fields left. -/
def pickAll {β : Type} (k : List UInt8 → List TxExtraField → Option β) :
    List TxExtraKind → List UInt8 → List TxExtraField → Option β
  | [], out, fields => k out fields
  | kind :: kinds, out, fields =>
    (pick kind kind.tag fields.length out fields).bind fun r => pickAll k kinds r.1 r.2

theorem pickAll_eq {β : Type} (k : List UInt8 → List TxExtraField → Option β) :
    ∀ (kinds : List TxExtraKind) (out : List UInt8) (fields : List TxExtraField),
      kinds.Nodup → (∀ field ∈ fields, field.Valid) →
      pickAll k kinds out fields =
        k (out ++ encodeTxExtra (kinds.flatMap fun kind => fields.filter (·.kind == kind)))
          (fields.filter fun field => !kinds.contains field.kind)
  | [], out, fields, _, _ => by
    simp [pickAll, encodeTxExtra]
  | kind :: kinds, out, fields, hnodup, hvalid => by
    have hkind : kind ∉ kinds := (List.nodup_cons.1 hnodup).1
    have hvalid' : ∀ f ∈ fields.filter (·.kind != kind), f.Valid := fun f hf =>
      hvalid f (List.mem_of_mem_filter hf)
    rw [pickAll, pick_eq kind _ out fields hvalid (List.length_filter_le _ _), Option.bind_some,
      pickAll_eq k kinds _ _ (List.nodup_cons.1 hnodup).2 hvalid', List.flatMap_cons,
      encodeTxExtra, encodeTxExtra, encodeTxExtra, List.flatMap_append, List.append_assoc,
      List.filter_filter]
    -- dropping `kind` first changes no later kind's fields
    have hlater : (kinds.flatMap fun kind' => (fields.filter (·.kind != kind)).filter
        (·.kind == kind')) = kinds.flatMap fun kind' => fields.filter (·.kind == kind') := by
      apply List.flatMap_congr
      intro kind' hkind'
      rw [List.filter_filter]
      apply List.filter_congr
      intro f _
      by_cases hf : f.kind = kind'
      · have : kind' ≠ kind := fun h => hkind (h ▸ hkind')
        simp [hf, this]
      · simp [hf]
    have hleft : (fields.filter fun f => !kinds.contains f.kind && f.kind != kind) =
        fields.filter fun f => !(kind :: kinds).contains f.kind := by
      apply List.filter_congr
      intro f _
      by_cases hf : f.kind = kind <;> simp [hf]
    rw [hlater, hleft]

/-- `sort_tx_extra` without `allow_partial` runs the six picks on the fields it read. -/
theorem sortTxExtra_eq_pickAll {txExtra : List UInt8} {fields : List TxExtraField}
    {left : List UInt8} (hne : txExtra ≠ [])
    (hloop : readTxExtraFields txExtra.length txExtra = (fields, left, true)) :
    sortTxExtra txExtra false =
      pickAll (fun out fields => if fields ≠ [] then none else some out) sortOrder [] fields := by
  rw [sortTxExtra, if_neg hne, hloop]
  rfl

theorem filter_not_sortOrder (fields : List TxExtraField) :
    fields.filter (fun field => !sortOrder.contains field.kind) = [] := by
  rw [List.filter_eq_nil_iff]
  intro field _
  cases field <;> simp [sortOrder, TxExtraField.kind]

/-- `sort_tx_extra` of an extra that `parse_tx_extra` reads writes its fields by kind. -/
theorem sortTxExtra_eq {txExtra : List UInt8} {fields : List TxExtraField}
    (h : parseTxExtra txExtra = some fields) :
    sortTxExtra txExtra false = some (encodeTxExtra (sortedByKind fields)) := by
  by_cases hnil : txExtra = []
  · rw [parseTxExtra, if_pos hnil, Option.some.injEq] at h
    subst h hnil
    rfl
  · obtain ⟨left, hloop⟩ := readTxExtraFields_of_parseTxExtra h hnil
    rw [sortTxExtra_eq_pickAll hnil hloop,
      pickAll_eq _ sortOrder [] fields (by decide) (parseTxExtra_wellFormed h).valid,
      filter_not_sortOrder]
    rfl

/-- `remove_field_from_tx_extra` of an extra that `parse_tx_extra` reads writes the fields of
the other kinds. -/
theorem removeFieldFromTxExtra_eq {txExtra : List UInt8} {fields : List TxExtraField}
    (h : parseTxExtra txExtra = some fields) (kind : TxExtraKind) :
    removeFieldFromTxExtra txExtra kind =
      some (encodeTxExtra (fields.filter (·.kind != kind))) := by
  by_cases hnil : txExtra = []
  · rw [parseTxExtra, if_pos hnil, Option.some.injEq] at h
    subst h hnil
    rfl
  · obtain ⟨left, hloop⟩ := readTxExtraFields_of_parseTxExtra h hnil
    have hvalid := (parseTxExtra_wellFormed h).valid
    have hok : ∀ o ∈ (fields.filter (·.kind != kind)).map writeTxExtraField, o.ok = true := by
      simp only [List.mem_map, forall_exists_index, and_imp, forall_apply_eq_imp_iff₂]
      exact fun f hf => writeTxExtraField_ok (hvalid f (List.mem_of_mem_filter hf))
    rw [removeFieldFromTxExtra, if_neg hnil, hloop]
    simp only [Bool.not_true, Bool.false_eq_true, if_false, Option.some.injEq]
    rw [Output.concat_tokens _ hok, List.flatMap_map]
    rfl

/-! ## The runs sorting and removing leave -/

theorem WellFormedTxExtra.filter {fields : List TxExtraField} (hwf : WellFormedTxExtra fields)
    (p : TxExtraField → Bool) : WellFormedTxExtra (fields.filter p) := by
  induction fields with
  | nil => exact wellFormedTxExtra_nil
  | cons field fields ih =>
    obtain ⟨hv, hpad, hwf'⟩ := wellFormedTxExtra_cons.1 hwf
    rw [List.filter_cons]
    split
    · refine wellFormedTxExtra_cons.2 ⟨hv, fun hne => hpad ?_, ih hwf'⟩
      rintro rfl
      exact hne rfl
    · exact ih hwf'

/-- A well-formed run has at most one padding. -/
theorem WellFormedTxExtra.length_filter_padding {fields : List TxExtraField}
    (hwf : WellFormedTxExtra fields) : (fields.filter (·.kind == .padding)).length ≤ 1 := by
  induction fields with
  | nil => simp
  | cons field fields ih =>
    obtain ⟨-, hpad, hwf'⟩ := wellFormedTxExtra_cons.1 hwf
    by_cases hnil : fields = []
    · subst hnil
      rw [List.filter_cons]
      split <;> simp
    · rw [List.filter_cons, if_neg (by simpa using hpad hnil)]
      exact ih hwf'

/-- Sorting puts the padding last. -/
theorem WellFormedTxExtra.sorted {fields : List TxExtraField}
    (hwf : WellFormedTxExtra fields) : WellFormedTxExtra (sortedByKind fields) := by
  -- the kinds before the padding, then the padding
  set before : List TxExtraField :=
    [TxExtraKind.pubKey, .additionalPubKeys, .nonce, .mergeMiningTag, .mysteriousMinergate].flatMap
      fun kind => fields.filter (·.kind == kind)
  have hsplit : sortedByKind fields = before ++ fields.filter (·.kind == .padding) := by
    simp [sortedByKind, sortOrder, before]
  have hbefore : ∀ f ∈ before, f.kind ≠ .padding := by
    intro f hf hpad
    simp only [before, List.mem_flatMap, List.mem_filter, beq_iff_eq] at hf
    obtain ⟨kind, hkind, -, hfk⟩ := hf
    rw [hpad] at hfk
    subst hfk
    simp at hkind
  refine ⟨?_, ?_⟩
  · intro f hf
    simp only [sortedByKind, List.mem_flatMap, List.mem_filter] at hf
    obtain ⟨-, -, hf, -⟩ := hf
    exact hwf.valid f hf
  · intro f hf
    rw [hsplit, List.dropLast_append] at hf
    split at hf
    · exact hbefore f (List.mem_of_mem_dropLast hf)
    · have hdrop : (fields.filter (·.kind == .padding)).dropLast = [] := by
        apply List.eq_nil_of_length_eq_zero
        rw [List.length_dropLast]
        have := hwf.length_filter_padding
        omega
      rw [hdrop, List.append_nil] at hf
      exact hbefore f hf

/-- Sorting keeps each kind's fields in order. -/
theorem sortedByKind_filter (fields : List TxExtraField) (kind : TxExtraKind) :
    (sortedByKind fields).filter (·.kind == kind) = fields.filter (·.kind == kind) := by
  have hblock : ∀ kind' : TxExtraKind,
      (fields.filter (·.kind == kind')).filter (·.kind == kind) =
        if kind' = kind then fields.filter (·.kind == kind) else [] := by
    intro kind'
    rw [List.filter_filter]
    split
    · next heq =>
      subst heq
      apply List.filter_congr
      intro f _
      simp
    · next hne =>
      rw [List.filter_eq_nil_iff]
      intro f _
      by_cases hf : f.kind = kind <;> simp [hf, Ne.symm hne]
  rw [sortedByKind, List.filter_flatMap]
  simp only [hblock]
  cases kind <;> simp [sortOrder]

theorem sortedByKind_sortedByKind (fields : List TxExtraField) :
    sortedByKind (sortedByKind fields) = sortedByKind fields :=
  calc sortedByKind (sortedByKind fields)
      = sortOrder.flatMap fun kind => (sortedByKind fields).filter (·.kind == kind) := rfl
    _ = sortOrder.flatMap fun kind => fields.filter (·.kind == kind) := by
      simp only [sortedByKind_filter]
    _ = sortedByKind fields := rfl

theorem sortTxExtra_roundTrip (txExtra : List UInt8) (fields : List TxExtraField)
    (h : parseTxExtra txExtra = some fields) :
    (∃ sorted, sortTxExtra txExtra false = some sorted ∧
        parseTxExtra sorted = some (sortedByKind fields) ∧
        sortTxExtra sorted false = some sorted) ∧
      ∀ kind, ∃ removed, removeFieldFromTxExtra txExtra kind = some removed ∧
        parseTxExtra removed = some (fields.filter (·.kind != kind)) := by
  have hwf := parseTxExtra_wellFormed h
  have hsorted := parseTxExtra_encode hwf.sorted
  refine ⟨⟨_, sortTxExtra_eq h, hsorted, ?_⟩,
    fun kind => ⟨_, removeFieldFromTxExtra_eq h kind, parseTxExtra_encode (hwf.filter _)⟩⟩
  rw [sortTxExtra_eq hsorted, sortedByKind_sortedByKind]

theorem sortTxExtra_roundTrip_nonceThenPadding :
    (∃ sorted, sortTxExtra [2, 1, 7, 0] false = some sorted ∧
        parseTxExtra sorted = some (sortedByKind [.nonce [7], .padding 1]) ∧
        sortTxExtra sorted false = some sorted) ∧
      ∀ kind, ∃ removed, removeFieldFromTxExtra [2, 1, 7, 0] kind = some removed ∧
        parseTxExtra removed = some ([.nonce [7], .padding 1].filter (·.kind != kind)) :=
  sortTxExtra_roundTrip [2, 1, 7, 0] [.nonce [7], .padding 1] (by decide)

end Cryptonote

end Wazn
