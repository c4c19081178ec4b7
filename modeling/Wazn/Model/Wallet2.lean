import Wazn.Library.AssocList

/-!
# The wallet's transfers (`wallet2.cpp`)

`wallet2` keeps the outputs it owns in the vector `m_transfers`, one `transfer_details` each,
in the order it found them, and two maps into it: `m_pub_keys` from an output's public key to
its position, and `m_key_images` from a known key image to its position. Scanning a confirmed
transaction at a height (`process_new_transaction`) pushes a transfer for each new output of
the wallet, or, for an output whose public key it already has, keeps the old transfer or
overwrites it with the new output when the new amount is larger; then it marks spent the
transfers whose key images the transaction's inputs carry. A reorganisation
(`detach_blockchain`) makes unspent what was spent from the detach height on and cuts
`m_transfers` at the first transfer received at or above that height.

What scanning finds in a transaction (the output's public key, key image and amount, from the
derivations in `tx_scan_info`) is given as `ScannedOutput`; the inputs are the `txin_to_key`
ones, with their key image and amount. The fields of `transfer_details` that no function here
reads are left out, and so are the payment, confirmed-transaction and block-hash containers that
`detach_blockchain` also crops.
-/

set_option autoImplicit false

namespace Wazn

namespace Tools

/-- The fields of `transfer_details` that scanning and `detach_blockchain` read or write.
`pubKey` is `get_public_key()`, the key of output `m_internal_output_index` of `m_tx`. -/
structure TransferDetails (π κ : Type) where
  blockHeight : ℕ
  pubKey : π
  spent : Bool
  frozen : Bool
  spentHeight : ℕ
  keyImage : κ
  amount : UInt64
  keyImageKnown : Bool
  keyImagePartial : Bool
  deriving DecidableEq, Repr

/-- An output of a transaction that scanning found to be the wallet's. -/
structure ScannedOutput (π κ : Type) where
  /-- `tx_scan_info[o].in_ephemeral.pub` -/
  pubKey : π
  /-- `tx_scan_info[o].ki` -/
  keyImage : κ
  /-- `tx_scan_info[o].amount` -/
  amount : UInt64
  /-- `tx.vout[o].amount`, zero for a RingCT output -/
  voutAmount : UInt64
  deriving DecidableEq, Repr

/-- The amount a transfer records for an output: the clear amount, or the decoded one of a
RingCT output. -/
def ScannedOutput.receivedAmount {π κ : Type} (o : ScannedOutput π κ) : UInt64 :=
  if o.voutAmount ≠ 0 then o.voutAmount else o.amount

/-- A `txin_to_key` input of a transaction. -/
structure KeyInput (κ : Type) where
  keyImage : κ
  amount : UInt64
  deriving DecidableEq, Repr

/-- The exceptions the functions below throw. -/
inductive WalletError (κ : Type)
  /-- "Unexpected transfer index from public key: got …, m_transfers.size() is …" -/
  | unexpectedTransferIndex (got size : ℕ)
  /-- `set_spent`: "Invalid index" -/
  | invalidIndex
  /-- "key image not found: index …, ki …, … key images known" -/
  | keyImageNotFound (index : ℕ) (ki : κ) (known : ℕ)
  /-- "public key not found" -/
  | publicKeyNotFound
  deriving DecidableEq, Repr

/-- The wallet's transfers, its two maps into them, and the flags that decide whether a key
image is known (`m_watch_only`, `m_multisig`). -/
structure Wallet2 (π κ : Type) where
  transfers : List (TransferDetails π κ)
  pubKeys : List (π × ℕ)
  keyImages : List (κ × ℕ)
  watchOnly : Bool
  multisig : Bool

namespace Wallet2

variable {π κ : Type} [DecidableEq π] [DecidableEq κ]

/-- The transfer `process_new_transaction` pushes for a new output: unspent and not frozen, with
a key image that is known unless the wallet is view-only or multisig, and partial in a multisig
wallet. -/
def newTransfer (height : ℕ) (w : Wallet2 π κ) (o : ScannedOutput π κ) : TransferDetails π κ :=
  ⟨height, o.pubKey, false, false, 0, o.keyImage, o.receivedAmount, !w.watchOnly && !w.multisig,
    w.multisig⟩

/-- The output loop of `process_new_transaction` for one output, in a confirmed transaction at
`height`. A new public key gets a new transfer, whose key image goes into `m_key_images` when it
is known. A known public key keeps its transfer when that is spent or at least as large;
otherwise the transfer is overwritten in place with the new output, its key image and its place
in `m_transfers` kept. -/
def processOutput (height : ℕ) (w : Wallet2 π κ) (o : ScannedOutput π κ) :
    Except (WalletError κ) (Wallet2 π κ) :=
  match w.pubKeys.lookup o.pubKey with
  | none =>
    let td := w.newTransfer height o
    .ok { w with
      transfers := w.transfers ++ [td]
      keyImages := if td.keyImageKnown then AssocList.insert td.keyImage w.transfers.length w.keyImages
        else w.keyImages
      pubKeys := AssocList.insert td.pubKey w.transfers.length w.pubKeys }
  | some i =>
    match w.transfers[i]? with
    | none => .error (.unexpectedTransferIndex i w.transfers.length)
    | some td =>
      if td.spent || o.amount ≤ td.amount then .ok w
      else
        let td := { td with blockHeight := height, pubKey := o.pubKey, amount := o.receivedAmount }
        .ok { w with transfers := w.transfers.set i td }

/-- `set_spent` of a transfer at `height`, after the amount of the input that spends it, when
the input gives one, has replaced a different recorded amount. -/
def spendTransfer (height : ℕ) (input : KeyInput κ) (td : TransferDetails π κ) :
    TransferDetails π κ :=
  let td := if 0 < input.amount ∧ input.amount ≠ td.amount then
    { td with amount := input.amount } else td
  { td with spent := true, spentHeight := height }

/-- The input loop of `process_new_transaction` for one `txin_to_key` input: the transfer whose
key image it carries is marked spent. -/
def spendInput (height : ℕ) (w : Wallet2 π κ) (input : KeyInput κ) :
    Except (WalletError κ) (Wallet2 π κ) :=
  match w.keyImages.lookup input.keyImage with
  | none => .ok w
  | some i =>
    match w.transfers[i]? with
    | none => .error .invalidIndex
    | some td => .ok { w with transfers := w.transfers.set i (spendTransfer height input td) }

/-- `process_new_transaction` for a transaction confirmed at `height`: its outputs found by
scanning, then its key inputs. -/
def processNewTransaction (height : ℕ) (outs : List (ScannedOutput π κ))
    (ins : List (KeyInput κ)) (w : Wallet2 π κ) : Except (WalletError κ) (Wallet2 π κ) := do
  let w ← outs.foldlM (processOutput height) w
  ins.foldlM (spendInput height) w

/-- `set_unspent` and `thaw` of a transfer spent at or above the detach height. -/
def resetSpent (height : ℕ) (td : TransferDetails π κ) : TransferDetails π κ :=
  if td.spent && height ≤ td.spentHeight then
    { td with spent := false, spentHeight := 0, frozen := false }
  else td

/-- The loop of `detach_blockchain` that erases the key images of the detached transfers whose
key image is known and not partial; `i` is the position of the first of them. -/
def eraseKeyImages : ℕ → List (TransferDetails π κ) → List (κ × ℕ) →
    Except (WalletError κ) (List (κ × ℕ))
  | _, [], keyImages => .ok keyImages
  | i, td :: tds, keyImages =>
    if !td.keyImageKnown || td.keyImagePartial then eraseKeyImages (i + 1) tds keyImages
    else
      match keyImages.lookup td.keyImage with
      | none => .error (.keyImageNotFound i td.keyImage keyImages.length)
      | some _ => eraseKeyImages (i + 1) tds (AssocList.erase td.keyImage keyImages)

/-- The loop of `detach_blockchain` that erases the public keys of the detached transfers. -/
def erasePubKeys : List (TransferDetails π κ) → List (π × ℕ) →
    Except (WalletError κ) (List (π × ℕ))
  | [], pubKeys => .ok pubKeys
  | td :: tds, pubKeys =>
    match pubKeys.lookup td.pubKey with
    | none => .error .publicKeyNotFound
    | some _ => erasePubKeys tds (AssocList.erase td.pubKey pubKeys)

/-- `detach_blockchain(height)`: the transfers spent at or above `height` become unspent, and
`m_transfers` is cut at the first transfer received at or above `height`, whose key images and
public keys leave the maps. -/
def detachBlockchain (height : ℕ) (w : Wallet2 π κ) : Except (WalletError κ) (Wallet2 π κ) := do
  let transfers := w.transfers.map (resetSpent height)
  let iStart := transfers.findIdx (height ≤ ·.blockHeight)
  let keyImages ← eraseKeyImages iStart (transfers.drop iStart) w.keyImages
  let pubKeys ← erasePubKeys (transfers.drop iStart) w.pubKeys
  pure { w with transfers := transfers.take iStart, keyImages := keyImages, pubKeys := pubKeys }

/-- The calls that change the transfers. -/
inductive Call (π κ : Type)
  | processNewTransaction (height : ℕ) (outs : List (ScannedOutput π κ)) (ins : List (KeyInput κ))
  | detachBlockchain (height : ℕ)

/-- The wallet after one call. -/
def next (w : Wallet2 π κ) : Call π κ → Except (WalletError κ) (Wallet2 π κ)
  | .processNewTransaction height outs ins => w.processNewTransaction height outs ins
  | .detachBlockchain height => w.detachBlockchain height

end Wallet2

end Tools

end Wazn
