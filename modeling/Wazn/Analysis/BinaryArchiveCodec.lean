import Wazn.Model.BinaryArchive

/-!
# The archive's primitives read back what they write

Each primitive of `binary_archive<false>` reads back what the matching primitive of
`binary_archive<true>` wrote, whatever follows it in the stream:

* `serializeUvarint_reads`: a varint of a value that fits in the field's bits. The loop
  lemma `readVarintLoop_writeVarint` follows `write_varint` byte by byte: no byte the writer
  emits trips the overflow test or the test against a non-canonical zero byte.
* `serializeUint_reads`: an integer of a fixed width, modulo the width.
* `readContainer_back`: a container, when the blob is shorter than `2 ^ 64` bytes, so that
  its count fits in the `size_t` varint, and each element writes at least one byte, so that
  the sanity check on the bytes left passes.

`readVarint_nil` is the other side of the coin: at the end of the input, `read_varint`
reads the value 0 and reports no error. So what `read_varint` accepts is either exactly the
bytes `write_varint` writes for the value read, or the rest of the input, all continuation
bytes (`readVarintLoop_cases`); a lone `0x80` reads as 0 (`readVarint_writeVarint_inverse`,
`readVarint_continuation_byte`).
-/

set_option autoImplicit false

namespace Wazn

namespace BinaryArchive

open ByteCodec

/-! ## Varints -/

/-- The loop of `write_varint` does not depend on its fuel, once the fuel is at least the
value. -/
theorem writeVarintLoop_fuel : ∀ (fuel fuel' i : ℕ), i ≤ fuel → i ≤ fuel' →
    writeVarintLoop fuel i = writeVarintLoop fuel' i
  | 0, 0, _, _, _ => rfl
  | 0, _ + 1, i, hi, _ => by
    rw [show i = 0 by omega, writeVarintLoop, writeVarintLoop, if_neg (by omega)]
  | _ + 1, 0, i, _, hi => by
    rw [show i = 0 by omega, writeVarintLoop, writeVarintLoop, if_neg (by omega)]
  | fuel + 1, fuel' + 1, i, hi, hi' => by
    rw [writeVarintLoop, writeVarintLoop]
    split
    · rw [writeVarintLoop_fuel fuel fuel' (i / 0x80) (by omega) (by omega)]
    · rfl

/-- `write_varint`, one round of its loop. -/
theorem writeVarint_eq (i : ℕ) :
    writeVarint i =
      if 0x80 ≤ i then UInt8.ofNat (i % 0x80 + 0x80) :: writeVarint (i / 0x80)
      else [UInt8.ofNat i] := by
  rw [writeVarint]
  cases i with
  | zero => rfl
  | succ n =>
    rw [writeVarintLoop]
    split
    · rw [writeVarint, writeVarintLoop_fuel n ((n + 1) / 0x80) _ (by omega) le_rfl]
    · rfl

theorem writeVarint_ne_nil (i : ℕ) : writeVarint i ≠ [] := by
  rw [writeVarint_eq]
  split <;> simp

/-- A value below `0x80` is one byte. -/
theorem writeVarint_length_of_lt {i : ℕ} (hi : i < 0x80) : (writeVarint i).length = 1 := by
  rw [writeVarint_eq, if_neg (by omega), List.length_singleton]

/-- The loop of `read_varint` reads back the bytes `write_varint` wrote for `v`, from the
byte for `shift` on, when `v` fits in the bits above `shift` and, past the first byte, is
not zero. -/
theorem readVarintLoop_writeVarint (bits : ℕ) (rest : List UInt8) :
    ∀ (v shift read write : ℕ), v < 2 ^ (bits - shift) → (shift ≠ 0 → 0 < v) →
      readVarintLoop bits shift read write (writeVarint v ++ rest) =
        (((read + (writeVarint v).length : ℕ) : ℤ), write + v * 2 ^ shift, rest) := by
  intro v
  induction v using Nat.strong_induction_on with
  | _ v ih =>
    intro shift read write hv hpos
    rw [writeVarint_eq]
    by_cases hlow : 0x80 ≤ v
    · -- a byte with the high bit set, then the varint of `v / 0x80` seven bits higher
      rw [if_pos hlow, List.cons_append, readVarintLoop]
      have hbyte : (UInt8.ofNat (v % 0x80 + 0x80)).toNat = v % 0x80 + 0x80 := by
        rw [UInt8.toNat_ofNat']
        omega
      have hbits : shift + 8 ≤ bits := by
        by_contra hlt
        have : 2 ^ (bits - shift) ≤ 2 ^ 7 := Nat.pow_le_pow_right (by omega) (by omega)
        omega
      have hv' : v / 0x80 < 2 ^ (bits - (shift + 7)) := by
        rw [Nat.div_lt_iff_lt_mul (by omega)]
        calc v < 2 ^ (bits - shift) := hv
          _ = 2 ^ (bits - (shift + 7)) * 0x80 := by
            rw [show bits - shift = bits - (shift + 7) + 7 by omega, pow_add]
            rfl
      rw [if_neg (by omega), if_neg (by rw [← UInt8.toNat_inj, hbyte]; simp), hbyte,
        if_neg (by omega), ih (v / 0x80) (Nat.div_lt_self (by omega) (by omega)) (shift + 7)
          (read + 1) _ hv' (fun _ => by omega)]
      have hsplit : (v % 0x80 + 0x80) % 0x80 * 2 ^ shift + v / 0x80 * 2 ^ (shift + 7) =
          v * 2 ^ shift := by
        have hdigit : (v % 0x80 + 0x80) % 0x80 = v % 0x80 := by omega
        calc (v % 0x80 + 0x80) % 0x80 * 2 ^ shift + v / 0x80 * 2 ^ (shift + 7)
            = (v % 0x80 + 0x80 * (v / 0x80)) * 2 ^ shift := by rw [hdigit, pow_add]; ring
          _ = v * 2 ^ shift := by rw [Nat.mod_add_div]
      simp only [List.length_cons, Prod.mk.injEq, and_true]
      constructor
      · push_cast
        ring
      · rw [Nat.add_assoc, hsplit]
    · -- the last byte
      rw [if_neg hlow, List.singleton_append, readVarintLoop]
      have hbyte : (UInt8.ofNat v).toNat = v := by
        rw [UInt8.toNat_ofNat']
        omega
      rw [if_neg (by omega), if_neg (by rw [← UInt8.toNat_inj, hbyte]; simp; omega), hbyte,
        if_pos (by omega), Nat.mod_eq_of_lt (by omega)]
      simp

/-- `serialize_uvarint` reads back a varint whose value fits in the field. -/
theorem serializeUvarint_reads {bits v : ℕ} (hv : v < 2 ^ bits) :
    Reads (serializeUvarint bits) (writeVarint v) v := by
  intro rest
  have hloop := readVarintLoop_writeVarint bits rest v 0 0 0 (by simpa using hv) (by simp)
  simp only [StateT.run, serializeUvarint, readVarint, hloop]
  simp

/-- At the end of the input `read_varint` returns 0 bytes read, which is no error, and the
value 0. -/
theorem readVarint_nil (bits : ℕ) : readVarint bits [] = (0, 0, []) := rfl

/-- What the loop of `read_varint` returns without an error fits in the field's bits: the
overflow test stops a byte that would set a bit from `bits` up, and a byte with the high
bit set there. -/
theorem readVarintLoop_lt (bits : ℕ) : ∀ (input : List UInt8) (shift read write : ℕ),
    write < 2 ^ shift → shift ≤ bits →
      0 ≤ (readVarintLoop bits shift read write input).1 →
        (readVarintLoop bits shift read write input).2.1 < 2 ^ bits
  | [], shift, read, write, hwrite, hshift, _ =>
    lt_of_lt_of_le hwrite (Nat.pow_le_pow_right (by omega) hshift)
  | byte :: rest, shift, read, write, hwrite, hshift, hret => by
    rw [readVarintLoop] at hret ⊢
    by_cases hover : bits ≤ shift + 7 ∧ 2 ^ (bits - shift) ≤ byte.toNat
    · rw [if_pos hover] at hret
      simp at hret
    rw [if_neg hover] at hret ⊢
    by_cases hzero : byte = 0 ∧ shift ≠ 0
    · rw [if_pos hzero] at hret
      simp at hret
    rw [if_neg hzero] at hret ⊢
    have hdigit : byte.toNat % 0x80 * 2 ^ shift ≤ 127 * 2 ^ shift :=
      Nat.mul_le_mul_right _ (by omega)
    have hseven : 2 ^ (shift + 7) = 128 * 2 ^ shift := by rw [pow_add]; ring
    by_cases hlast : bits ≤ shift + 7
    · -- the top byte: below `2 ^ (bits - shift)`, so it has no high bit and ends the varint
      have hbyte : byte.toNat < 2 ^ (bits - shift) := by omega
      have hsmall : 2 ^ (bits - shift) ≤ 2 ^ 7 := Nat.pow_le_pow_right (by omega) (by omega)
      have htop : (byte.toNat + 1) * 2 ^ shift ≤ 2 ^ (bits - shift) * 2 ^ shift :=
        Nat.mul_le_mul_right _ hbyte
      have hbits : 2 ^ (bits - shift) * 2 ^ shift = 2 ^ bits := by
        rw [← pow_add, Nat.sub_add_cancel hshift]
      have hmod : byte.toNat % 0x80 * 2 ^ shift ≤ byte.toNat * 2 ^ shift :=
        Nat.mul_le_mul_right _ (Nat.mod_le _ _)
      rw [if_pos (by omega)]
      rw [Nat.add_mul, Nat.one_mul] at htop
      simp only
      omega
    · have hbound : 2 ^ (shift + 7) ≤ 2 ^ bits := Nat.pow_le_pow_right (by omega) (by omega)
      by_cases hend : byte.toNat < 0x80
      · rw [if_pos hend]
        simp only
        omega
      · rw [if_neg hend] at hret ⊢
        exact readVarintLoop_lt bits rest (shift + 7) (read + 1) _ (by omega) (by omega) hret

/-- `serialize_uvarint` reads a value that fits in the field's bits. -/
theorem serializeUvarint_lt {bits v : ℕ} {input rest : List UInt8}
    (h : (serializeUvarint bits).run input = some (v, rest)) : v < 2 ^ bits := by
  have hlt : 0 ≤ (readVarint bits input).1 → (readVarint bits input).2.1 < 2 ^ bits :=
    readVarintLoop_lt bits input 0 0 0 (by simp) (Nat.zero_le _)
  simp only [StateT.run, serializeUvarint] at h
  generalize readVarint bits input = res at h hlt
  obtain ⟨ret, w, rest'⟩ := res
  by_cases hret : ret < 0
  · simp [hret] at h
  · simp only [hret, if_false, Option.some.injEq, Prod.mk.injEq] at h
    rw [← h.1]
    exact hlt (by simpa using hret)

theorem writeVarint_of_lt {b : UInt8} (hb : b.toNat < 0x80) : writeVarint b.toNat = [b] := by
  rw [writeVarint_eq, if_neg (by omega), UInt8.ofNat_toNat]

theorem writeVarint_cons {b : UInt8} (hb : 0x80 ≤ b.toNat) {v : ℕ} (hv : 0 < v) :
    writeVarint (b.toNat % 0x80 + 0x80 * v) = b :: writeVarint v := by
  have hlt := b.toNat_lt
  rw [writeVarint_eq, if_pos (by omega)]
  congr 2
  · apply UInt8.toNat_inj.mp
    rw [UInt8.toNat_ofNat']
    omega
  · omega

/-- A byte that passes the overflow test at `shift` fits the bits left above `shift`. -/
theorem lt_two_pow_of_not_overflow {bits shift : ℕ} {byte : UInt8}
    (hover : ¬ (bits ≤ shift + 7 ∧ 2 ^ (bits - shift) ≤ byte.toNat)) :
    byte.toNat < 2 ^ (bits - shift) := by
  by_cases hb : bits ≤ shift + 7
  · exact Nat.lt_of_not_le fun h => hover ⟨hb, h⟩
  · calc byte.toNat < 2 ^ 8 := byte.toNat_lt
      _ ≤ 2 ^ (bits - shift) := Nat.pow_le_pow_right (by omega) (by omega)

/-- What `read_varint` accepts from `shift` on: either exactly the bytes `write_varint` writes
for some value, which fits the bits left, or the rest of the input, all continuation bytes. -/
theorem readVarintLoop_cases (bits : ℕ) :
    ∀ (input : List UInt8) (shift read write : ℕ) {r : ℤ} {w : ℕ} {rest : List UInt8},
      readVarintLoop bits shift read write input = (r, w, rest) → 0 ≤ r →
      (∃ v, input = writeVarint v ++ rest ∧ (shift ≠ 0 → 0 < v) ∧
          v < 2 ^ (bits - shift) ∧ w = write + v * 2 ^ shift ∧
          r = read + (writeVarint v).length) ∨
        (rest = [] ∧ (∀ b ∈ input, 0x80 ≤ b.toNat) ∧ r = read + input.length) := by
  intro input
  induction input with
  | nil =>
    intro shift read write r w rest h _
    simp only [readVarintLoop, Prod.mk.injEq] at h
    obtain ⟨rfl, -, rfl⟩ := h
    exact .inr ⟨rfl, by simp, by simp⟩
  | cons byte input ih =>
    intro shift read write r w rest h hr
    have hbyte := byte.toNat_lt
    unfold readVarintLoop at h
    split at h
    · simp only [Prod.mk.injEq] at h
      omega
    · rename_i hover
      split at h
      · simp only [Prod.mk.injEq] at h
        omega
      · rename_i hzero
        dsimp only at h
        split at h
        · -- the last byte
          rename_i hlast
          simp only [Prod.mk.injEq] at h
          obtain ⟨rfl, rfl, rfl⟩ := h
          refine .inl ⟨byte.toNat, by rw [writeVarint_of_lt hlast]; rfl, ?_, ?_, ?_, ?_⟩
          · intro hs
            have : byte ≠ 0 := fun h0 => hzero ⟨h0, hs⟩
            have : byte.toNat ≠ 0 := fun h0 => this (UInt8.toNat_inj.mp h0)
            omega
          · exact lt_two_pow_of_not_overflow hover
          · rw [Nat.mod_eq_of_lt hlast]
          · rw [writeVarint_of_lt hlast]
            simp
        · -- a continuation byte: the rest of the varint is read from `shift + 7`
          rename_i hmore
          have hfit := lt_two_pow_of_not_overflow hover
          have hbits : shift + 7 < bits := by
            by_contra hle
            have : 2 ^ (bits - shift) ≤ 2 ^ 7 := Nat.pow_le_pow_right (by omega) (by omega)
            omega
          rcases ih (shift + 7) (read + 1) _ h hr with
            ⟨v, hinput, hpos, hlt, hw, hr'⟩ | ⟨hrest, hall, hr'⟩
          · have hv : 0 < v := hpos (by omega)
            have hpow : 2 ^ (bits - shift) = 2 ^ (bits - (shift + 7)) * 2 ^ 7 := by
              rw [← Nat.pow_add]
              congr 1
              omega
            refine .inl ⟨byte.toNat % 0x80 + 0x80 * v, ?_, fun _ => by omega, ?_, ?_, ?_⟩
            · rw [writeVarint_cons (by omega) hv, hinput]
              rfl
            · rw [hpow]
              omega
            · rw [hw, Nat.pow_add]
              ring
            · rw [hr', writeVarint_cons (by omega) hv, List.length_cons]
              push_cast
              ring
          · refine .inr ⟨hrest, ?_, ?_⟩
            · intro b hb
              rcases List.mem_cons.mp hb with rfl | hb
              · omega
              · exact hall b hb
            · rw [hr', List.length_cons]
              push_cast
              ring

/-- `read_varint` reads back what `write_varint` writes, for a value that fits the field,
whatever follows; and what it reads with a positive count is what `write_varint` writes for
the value read, unless it ran out of input on continuation bytes, all of which it counts. -/
theorem readVarint_writeVarint_inverse (bits : ℕ) :
    (∀ x < 2 ^ bits, ∀ t : List UInt8,
        readVarint bits (writeVarint x ++ t) = (((writeVarint x).length : ℤ), x, t)) ∧
      ∀ (s : List UInt8) (n : ℤ) (v : ℕ) (rest : List UInt8),
        readVarint bits s = (n, v, rest) → 0 < n →
        s.take n.toNat = writeVarint v ∨
          (rest = [] ∧ n = s.length ∧ ∀ b ∈ s, 0x80 ≤ b.toNat) := by
  refine ⟨fun x hx t => ?_, fun s n v rest h hn => ?_⟩
  · have hloop := readVarintLoop_writeVarint bits t x 0 0 0 (by simpa using hx) (by simp)
    simpa [readVarint] using hloop
  · rcases readVarintLoop_cases bits s 0 0 0 h (by omega) with
      ⟨v', hs, -, -, hv, hn'⟩ | ⟨hrest, hall, hn'⟩
    · -- the bytes of a varint, then the rest
      left
      have hlen : n.toNat = (writeVarint v').length := by omega
      rw [hs, hlen, List.take_left, hv]
      simp
    · -- the input ran out inside the varint
      exact .inr ⟨hrest, by simpa using hn', hall⟩

/-- A lone continuation byte reads as the value 0 with one byte read, but `write_varint`
writes 0 as the byte 0. -/
theorem readVarint_continuation_byte :
    readVarint 64 [0x80] = (1, 0, []) ∧ [(0x80 : UInt8)].take 1 ≠ writeVarint 0 := by
  decide

/-- A varint of a value below `2 ^ (7 * (k + 1))` has at most `k + 1` bytes. -/
theorem length_writeVarint_le : ∀ (k i : ℕ), i < 2 ^ (7 * (k + 1)) →
    (writeVarint i).length ≤ k + 1
  | 0, i, hi => by
    rw [writeVarint_length_of_lt (by simpa using hi)]
  | k + 1, i, hi => by
    rw [writeVarint_eq]
    split
    · have hdiv : i / 0x80 < 2 ^ (7 * (k + 1)) := by
        rw [Nat.div_lt_iff_lt_mul (by omega)]
        calc i < 2 ^ (7 * (k + 1 + 1)) := hi
          _ = 2 ^ (7 * (k + 1)) * 0x80 := by
            rw [show 7 * (k + 1 + 1) = 7 * (k + 1) + 7 by ring, pow_add]
            rfl
      rw [List.length_cons]
      have := length_writeVarint_le k (i / 0x80) hdiv
      omega
    · simp

/-! ## Integers of a fixed width -/

theorem writeUint_length : ∀ (width v : ℕ), (writeUint width v).length = width
  | 0, _ => rfl
  | width + 1, v => by rw [writeUint, List.length_cons, writeUint_length width (v / 256)]

/-- The bytes `serialize_uint` writes are the value modulo the width, little-endian. -/
theorem ofDigits_writeUint : ∀ (width v : ℕ),
    Nat.ofDigits 256 ((writeUint width v).map UInt8.toNat) = v % 256 ^ width
  | 0, v => by simp [writeUint, Nat.mod_one]
  | width + 1, v => by
    have hbyte : (UInt8.ofNat v).toNat = v % 256 := UInt8.toNat_ofNat'
    rw [writeUint, List.map_cons, Nat.ofDigits_cons, ofDigits_writeUint width (v / 256), hbyte,
      pow_succ', Nat.mod_mul]

theorem serializeUint_reads (width v : ℕ) :
    Reads (serializeUint width) (writeUint width v) (v % 256 ^ width) := by
  have htake := Reads.take (writeUint width v)
  rw [writeUint_length] at htake
  rw [← List.append_nil (writeUint width v), ← ofDigits_writeUint width v]
  exact Reads.bind htake (Reads.pure' _)

/-! ## Fields -/

section Fields

variable {N : ℕ}

theorem readVarint64_reads (v : UInt64) : Reads readVarint64 (writeVarint v.toNat) v := by
  have h := Reads.map UInt64.ofNat (serializeUvarint_reads v.toNat_lt)
  rwa [UInt64.ofNat_toNat] at h

theorem readVarint64_back (v : UInt64) : ReadsBack N readVarint64 (writeVarint64 v) v :=
  ReadsBack.of_reads (readVarint64_reads v)

theorem readUint8_back (v : UInt8) : ReadsBack N readUint8 (writeUint8 v) v := by
  have h := Reads.map UInt8.ofNat (serializeUint_reads 1 v.toNat)
  rw [Nat.mod_eq_of_lt (by simpa using v.toNat_lt), UInt8.ofNat_toNat] at h
  exact ReadsBack.of_reads h

@[simp] theorem writeUint8_tokens (v : UInt8) : (writeUint8 v).tokens = [v] := by
  simp [writeUint8, writeUint, UInt8.ofNat_toNat]

theorem readUint8_reads (v : UInt8) : Reads readUint8 [v] v := by
  have h := readUint8_back (N := 2) v rfl (by simp)
  rwa [writeUint8_tokens] at h

theorem serializeBlob_back {n : ℕ} (v : List.Vector UInt8 n) :
    ReadsBack N (serializeBlob n) (writeBlob v) v :=
  ReadsBack.of_reads (Reads.takeVector v)

end Fields

/-! ## Containers -/

theorem writeContainer_ok {α : Type} (w : α → Output) (xs : List α) :
    (writeContainer w xs).ok = xs.all fun x => (w x).ok := by
  rw [writeContainer, Output.append_ok, Output.emit_ok, Bool.true_and, Output.concat_ok,
    List.all_map]
  rfl

/-- A container of fewer than `0x80` items of `k` bytes each: one byte of count, then the
items. -/
theorem length_writeContainer {α : Type} {w : α → Output} {xs : List α} {k : ℕ}
    (hok : (writeContainer w xs).ok = true)
    (hlen : ∀ x ∈ xs, (w x).ok = true → (w x).tokens.length = k) (hcount : xs.length < 0x80) :
    (writeContainer w xs).tokens.length = 1 + xs.length * k := by
  rw [writeContainer] at hok ⊢
  rw [Output.length_tokens_append_of_ok hok, Output.emit_tokens, writeVarint_length_of_lt hcount,
    Output.length_concat_map (Output.ok_right hok) hlen]

/-- A container reads back what its writer wrote, when the blob is shorter than `2 ^ 64`
bytes and every element writes a byte. -/
theorem readContainer_back {α β : Type} {r : Reader β} {w : α → Output} {g : α → β}
    {xs : List α} (h : ∀ x ∈ xs, ReadsBack (2 ^ 64) r (w x) (g x))
    (hne : ∀ x ∈ xs, (w x).ok = true → (w x).tokens ≠ []) :
    ReadsBack (2 ^ 64) (readContainer r) (writeContainer w xs) (xs.map g) := by
  intro hok hlen
  rw [writeContainer, Output.append_ok, Output.emit_ok, Bool.true_and] at hok
  have helems : ∀ o ∈ xs.map w, o.ok = true := by
    rw [Output.concat_ok, List.all_eq_true] at hok
    simpa using hok
  -- the count is at most the number of bytes of the elements
  have hcount : xs.length ≤ (Output.concat (xs.map w)).tokens.length := by
    have := Output.length_le_length_concat helems (by
      simp only [List.mem_map, forall_exists_index, and_imp, forall_apply_eq_imp_iff₂]
      exact fun x hx => hne x hx (helems (w x) (List.mem_map_of_mem hx)))
    rwa [List.length_map] at this
  rw [writeContainer, Output.append_tokens (Output.emit_ok _), Output.emit_tokens] at hlen ⊢
  rw [List.length_append] at hlen
  have hrep := ReadsBack.replicate xs h hok (by omega)
  exact Reads.bind (serializeUvarint_reads (by omega)) (Reads.guard_remaining hcount hrep)

/-- A container reads back what its writer wrote, when its count fits the `size_t` varint
and every element writes at least one byte; unlike `readContainer_back`, nothing bounds the
bytes of the elements. -/
theorem readContainer_reads {α : Type} {r : Reader α} {w : α → Output} {xs : List α}
    (h : ∀ x ∈ xs, (w x).ok = true ∧ (w x).tokens ≠ [] ∧ Reads r (w x).tokens x)
    (hcount : xs.length < 2 ^ 64) :
    Reads (readContainer r) (writeContainer w xs).tokens xs := by
  have hok : ∀ o ∈ xs.map w, o.ok = true := by
    simp only [List.mem_map, forall_exists_index, and_imp, forall_apply_eq_imp_iff₂]
    exact fun x hx => (h x hx).1
  -- the count is at most the number of bytes of the elements
  have hle : xs.length ≤ (Output.concat (xs.map w)).tokens.length := by
    have := Output.length_le_length_concat hok (by
      simp only [List.mem_map, forall_exists_index, and_imp, forall_apply_eq_imp_iff₂]
      exact fun x hx => (h x hx).2.1)
    rwa [List.length_map] at this
  have hrep := Reads.replicate (g := id) xs fun x hx => (h x hx).2.2
  rw [List.map_id, ← List.flatMap_map, ← Output.concat_tokens _ hok] at hrep
  rw [writeContainer, Output.append_tokens (Output.emit_ok _), Output.emit_tokens]
  exact Reads.bind (serializeUvarint_reads hcount) (Reads.guard_remaining hle hrep)

/-- A container that was read has a count that fits the `size_t` varint. -/
theorem length_of_run_readContainer {α : Type} {r : Reader α} {input rest : List UInt8}
    {xs : List α} (h : (readContainer r).run input = some (xs, rest)) : xs.length < 2 ^ 64 := by
  rw [readContainer, Reader.run_bind_eq_some] at h
  obtain ⟨cnt, mid, hcnt, h⟩ := h
  rw [Reader.run_remaining_bind] at h
  split at h
  · cases h
  · rw [Reader.length_of_run_replicate h]
    exact serializeUvarint_lt hcnt

/-- `readContainer_back` for elements read back as themselves. -/
theorem readContainer_back_self {α : Type} {r : Reader α} {w : α → Output} {xs : List α}
    (h : ∀ x ∈ xs, ReadsBack (2 ^ 64) r (w x) x)
    (hne : ∀ x ∈ xs, (w x).ok = true → (w x).tokens ≠ []) :
    ReadsBack (2 ^ 64) (readContainer r) (writeContainer w xs) xs :=
  (readContainer_back (g := id) h hne).congr rfl (List.map_id xs)

theorem readVarintContainer_back (v : List UInt64) :
    ReadsBack (2 ^ 64) readVarintContainer (writeVarintContainer v) v :=
  readContainer_back_self (fun e _ => readVarint64_back e) (fun _ _ _ => writeVarint_ne_nil _)

theorem readByteContainer_back (v : List UInt8) :
    ReadsBack (2 ^ 64) readByteContainer (writeByteContainer v) v :=
  readContainer_back_self (fun e _ => readUint8_back e) (fun _ _ _ => by simp)

/-- A container of blobs, such as keys or hashes. -/
theorem readBlobContainer_back {n : ℕ} (v : List (List.Vector UInt8 n)) (hn : 0 < n) :
    ReadsBack (2 ^ 64) (readContainer (serializeBlob n)) (writeContainer writeBlob v) v :=
  readContainer_back_self (fun e _ => serializeBlob_back e)
    (fun e _ _ => by simpa [writeBlob, ← List.length_pos_iff] using hn)

/-! ## Strings -/

/-- A string reads back what its writer wrote, when its size fits the `size_t` varint. -/
theorem readString_reads (str : List UInt8) (h : str.length < 2 ^ 64) :
    Reads readString (writeString str).tokens str := by
  rw [writeString, Output.emit_tokens]
  exact Reads.bind (serializeUvarint_reads h) (Reads.guard_remaining le_rfl (Reads.take str))

/-- A string that was read has a size that fits the `size_t` varint. -/
theorem length_of_run_readString {input rest str : List UInt8}
    (h : readString.run input = some (str, rest)) : str.length < 2 ^ 64 := by
  rw [readString, Reader.run_bind_eq_some] at h
  obtain ⟨size, mid, hsize, h⟩ := h
  rw [Reader.run_remaining_bind] at h
  split at h
  · cases h
  · obtain ⟨hle, htake, -⟩ := Reader.run_take_eq_some.1 h
    rw [← htake, List.length_take, min_eq_left hle]
    exact serializeUvarint_lt hsize

/-! ## Entry points -/

/-- `parse_binary` of a blob that the reader reads entirely. -/
theorem parseBinary_of_reads {α : Type} {r : Reader α} {blob : List UInt8} {a : α}
    (h : Reads r blob a) : parseBinary r blob = some a := by
  have hrun := h []
  rw [List.append_nil] at hrun
  rw [parseBinary, hrun]

theorem dumpBinary_eq_some {o : Output} {blob : List UInt8} :
    dumpBinary o = some blob ↔ o.ok = true ∧ o.tokens = blob := by
  rw [dumpBinary]
  split <;> simp_all

end BinaryArchive

end Wazn
