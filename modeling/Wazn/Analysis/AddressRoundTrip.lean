import Wazn.Model.Address
import Wazn.Analysis.BinaryArchiveCodec
import Wazn.Analysis.Base58RoundTrip

/-!
# Addresses round-trip; what `decode_addr` accepts is almost always canonical

`decode_addr` reads back every address `encode_addr` writes, whatever the hash function
(`decodeAddr_encodeAddr`). The converse fails in one way only. `read_varint` returns the
number of bytes read when the input ends, as a success, so a payload made only of
continuation bytes decodes, to the value of those bytes and no data (`decodeAddr_continuationPayload`),
and the address of that tag and data is another one. Every other accepted address is the
encoding of what it decodes to (`encodeAddr_of_decodeAddr`): a varint that ends inside the
payload is exactly the bytes `write_varint` writes for its value (`readVarintLoop_cases`), and
base 58 is canonical (`encode_of_decode`).
-/

set_option autoImplicit false

namespace Wazn

namespace Base58

open BinaryArchive Cryptonote

theorem length_checksum (hash : Hash) :
    (hash.toList.take addrChecksumSize).length = addrChecksumSize := by
  simp [addrChecksumSize]

/-- `decode_addr` succeeds exactly on the base-58 encodings of a payload and its checksum whose
payload starts with a varint the reader accepts; the data is what follows the bytes read. -/
theorem decodeAddr_eq_some (cnFastHash : List UInt8 → Hash) (addr : List UInt8) (tag : UInt64)
    (data : List UInt8) :
    decodeAddr cnFastHash addr = some (tag, data) ↔
      ∃ payload, decode addr =
          some (payload ++ (cnFastHash payload).toList.take addrChecksumSize) ∧
        0 < (readVarint 64 payload).1 ∧ tag = UInt64.ofNat (readVarint 64 payload).2.1 ∧
        data = payload.drop (readVarint 64 payload).1.toNat := by
  constructor
  · intro h
    unfold decodeAddr at h
    cases hdec : decode addr with
    | none => simp [hdec] at h
    | some addrData =>
      simp only [hdec, bind, Option.bind] at h
      split at h
      · cases h
      · rename_i hlong
        split at h
        · cases h
        · rename_i hsum
          split at h
          · cases h
          · rename_i hread
            simp only [Option.some.injEq, Prod.mk.injEq] at h
            obtain ⟨rfl, rfl⟩ := h
            refine ⟨addrData.take (addrData.length - addrChecksumSize), ?_, by omega, rfl, rfl⟩
            rw [not_not] at hsum
            rw [hsum, List.take_append_drop]
  · rintro ⟨payload, hdec, hread, rfl, rfl⟩
    have hne : payload ≠ [] := by
      rintro rfl
      simp [readVarint_nil] at hread
    have hpos : 0 < payload.length := List.length_pos_of_ne_nil hne
    have hcheck := length_checksum (cnFastHash payload)
    unfold decodeAddr
    simp only [hdec, bind, Option.bind, List.length_append, hcheck]
    rw [if_neg (by omega), Nat.add_sub_cancel, List.take_left' rfl, List.drop_left' rfl,
      if_neg (not_not.mpr rfl), if_neg (by omega)]

theorem decodeAddr_encodeAddr (cnFastHash : List UInt8 → Hash) (tag : UInt64)
    (data : List UInt8) :
    decodeAddr cnFastHash (encodeAddr cnFastHash tag data) = some (tag, data) := by
  have hread := readVarintLoop_writeVarint 64 data tag.toNat 0 0 0 (by simpa using tag.toNat_lt)
    (by simp)
  have hlen := List.length_pos_of_ne_nil (writeVarint_ne_nil tag.toNat)
  rw [decodeAddr_eq_some]
  refine ⟨writeVarint tag.toNat ++ data, decode_encode _, ?_, ?_, ?_⟩
  all_goals simp only [readVarint, hread]
  · omega
  · simp
  · simp

/-- What `decode_addr` accepts is an encoded address, unless the tag's varint runs into the end
of the payload: then the reader returns the bytes it read as a success, the data is empty, and
the payload is a run of continuation bytes. -/
theorem encodeAddr_of_decodeAddr (cnFastHash : List UInt8 → Hash) {addr : List UInt8}
    {tag : UInt64} {data : List UInt8} (h : decodeAddr cnFastHash addr = some (tag, data)) :
    encodeAddr cnFastHash tag data = addr ∨
      (data = [] ∧ ∃ payload, payload ≠ [] ∧ (∀ b ∈ payload, 0x80 ≤ b.toNat) ∧
        decode addr = some (payload ++ (cnFastHash payload).toList.take addrChecksumSize)) := by
  obtain ⟨payload, hdec, hread, rfl, rfl⟩ := (decodeAddr_eq_some cnFastHash addr tag data).mp h
  rcases hres : readVarint 64 payload with ⟨r, w, rest⟩
  simp only [hres] at hread ⊢
  rcases readVarintLoop_cases 64 payload 0 0 0 hres (by omega) with
    ⟨v, hpayload, -, hv, hw, hr⟩ | ⟨-, hall, hr⟩
  · -- the varint ends inside the payload: the address is the encoding of its payload
    left
    have hvalue : (UInt64.ofNat w).toNat = v := by
      rw [UInt64.toNat_ofNat', hw, Nat.zero_add, Nat.pow_zero, Nat.mul_one]
      exact Nat.mod_eq_of_lt (by simpa using hv)
    have hdrop : payload.drop r.toNat = rest := by
      rw [hr, hpayload]
      simp
    rw [encodeAddr, hvalue, hdrop, ← hpayload]
    exact encode_of_decode hdec
  · -- the payload ends inside the varint
    right
    refine ⟨?_, payload, ?_, hall, hdec⟩
    · rw [hr]
      simp
    · rintro rfl
      simp at hr
      omega

theorem encodeAddr_roundTrip (cnFastHash : List UInt8 → Hash) :
    (∀ tag data, decodeAddr cnFastHash (encodeAddr cnFastHash tag data) = some (tag, data)) ∧
    ∀ addr tag data, decodeAddr cnFastHash addr = some (tag, data) →
      encodeAddr cnFastHash tag data = addr ∨
        (data = [] ∧ ∃ payload, payload ≠ [] ∧ (∀ b ∈ payload, 0x80 ≤ b.toNat) ∧
          decode addr = some (payload ++ (cnFastHash payload).toList.take addrChecksumSize)) :=
  ⟨decodeAddr_encodeAddr cnFastHash, fun _ _ _ h => encodeAddr_of_decodeAddr cnFastHash h⟩

/-- A hash that is all zero bytes, for the examples. -/
def zeroHash (_ : List UInt8) : Hash := List.Vector.replicate 32 0

theorem encodeAddr_roundTrip_zeroHash :
    decodeAddr zeroHash (encodeAddr zeroHash 18 [1, 2, 3]) = some (18, [1, 2, 3]) ∧
    (encodeAddr zeroHash 18 [1, 2, 3] = encodeAddr zeroHash 18 [1, 2, 3] ∨
      ([1, 2, 3] = ([] : List UInt8) ∧
        ∃ payload, payload ≠ [] ∧ (∀ b ∈ payload, 0x80 ≤ b.toNat) ∧
        decode (encodeAddr zeroHash 18 [1, 2, 3]) =
          some (payload ++ (zeroHash payload).toList.take addrChecksumSize))) :=
  ⟨(encodeAddr_roundTrip zeroHash).1 18 [1, 2, 3],
    (encodeAddr_roundTrip zeroHash).2 _ 18 [1, 2, 3]
      ((encodeAddr_roundTrip zeroHash).1 18 [1, 2, 3])⟩

/-- An address whose payload is one continuation byte decodes, to the tag 0 and no data, but
the address of that tag and data is another one: for every hash function. -/
theorem decodeAddr_continuationPayload (cnFastHash : List UInt8 → Hash) :
    decodeAddr cnFastHash (encode ([0x80] ++ (cnFastHash [0x80]).toList.take addrChecksumSize)) =
        some (0, []) ∧
      encodeAddr cnFastHash 0 [] ≠
        encode ([0x80] ++ (cnFastHash [0x80]).toList.take addrChecksumSize) := by
  constructor
  · rw [decodeAddr_eq_some]
    exact ⟨[0x80], decode_encode _, by decide, rfl, rfl⟩
  · intro h
    have hdec := congrArg decode h
    rw [encodeAddr, decode_encode, decode_encode] at hdec
    rw [UInt64.toNat_zero, show writeVarint 0 = [0] from rfl] at hdec
    simp at hdec

/-- With the hash that is zero everywhere: the one-byte payload `0x80` decodes to the tag 0 and
no data, whose address is another one. -/
theorem decodeAddr_cutVarint :
    decodeAddr zeroHash (encode ([0x80] ++ (zeroHash [0x80]).toList.take addrChecksumSize)) =
        some (0, []) ∧
      encodeAddr zeroHash 0 [] ≠
        encode ([0x80] ++ (zeroHash [0x80]).toList.take addrChecksumSize) :=
  decodeAddr_continuationPayload zeroHash

end Base58

end Wazn