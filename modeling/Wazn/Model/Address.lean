import Wazn.Model.Base58
import Wazn.Model.CryptonoteBasic

/-!
# Addresses (`encode_addr`, `decode_addr` in `src/common/base58.cpp`)

An address is the base-58 encoding of a payload followed by a checksum: the payload is the
varint of the address tag followed by the data, and the checksum is the first
`addr_checksum_size` bytes of `cn_fast_hash` of the payload. Decoding checks the checksum and
reads the tag back with `tools::read_varint`; the data is what follows the bytes it read.

`cn_fast_hash` (Keccak) is a parameter: nothing here depends on which function it is.
-/

set_option autoImplicit false

namespace Wazn

namespace Base58

open BinaryArchive Cryptonote

/-- `addr_checksum_size`. -/
def addrChecksumSize : ℕ := 4

/-- `encode_addr`: the tag's varint and the data, then the checksum, in base 58. -/
def encodeAddr (cnFastHash : List UInt8 → Hash) (tag : UInt64) (data : List UInt8) :
    List UInt8 :=
  let buf := writeVarint tag.toNat ++ data
  let hash := cnFastHash buf
  encode (buf ++ hash.toList.take addrChecksumSize)

/-- `decode_addr`; `none` where the source returns `false`. -/
def decodeAddr (cnFastHash : List UInt8 → Hash) (addr : List UInt8) :
    Option (UInt64 × List UInt8) := do
  let addrData ← decode addr
  if addrData.length ≤ addrChecksumSize then none
  else
    let checksum := addrData.drop (addrData.length - addrChecksumSize)
    let addrData := addrData.take (addrData.length - addrChecksumSize)
    let hash := cnFastHash addrData
    let expectedChecksum := hash.toList.take addrChecksumSize
    if expectedChecksum ≠ checksum then none
    else
      let (read, tag, _) := readVarint 64 addrData
      if read ≤ 0 then none
      else some (UInt64.ofNat tag, addrData.drop read.toNat)

end Base58

end Wazn
