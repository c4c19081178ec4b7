import Mathlib.Data.List.MinMax

/-!
# The peer lists (`net_peerlist.h`, `net_peerlist.cpp`)

`peerlist_manager` keeps a white list of peers it has connected to and a gray list of peers
it has heard of. Each list is a `multi_index_container`, unique by address and ordered by
`last_seen`; here it is the list of its entries in insertion order, with at most one entry
per address. The oldest entry, which the trimming functions erase, is the first entry with
the least `last_seen` (a `ordered_non_unique` index keeps equal keys in insertion order).

Addresses are of any type with decidable equality; what the lists ask of an address
(`is_same_host`, `is_loopback`, `is_local`) is `AddressOps`. `ipv4Ops` gives the functions of
`ipv4_network_address`. The anchor list is not modelled: none of the functions below reads
it.
-/

set_option autoImplicit false

namespace Wazn

namespace Nodetool

/-- `P2P_LOCAL_WHITE_PEERLIST_LIMIT`. -/
def p2pLocalWhitePeerlistLimit : ℕ := 1000

/-- `P2P_LOCAL_GRAY_PEERLIST_LIMIT`. -/
def p2pLocalGrayPeerlistLimit : ℕ := 5000

/-- What the peer lists ask of a network address. -/
structure AddressOps (α : Type) where
  isSameHost : α → α → Bool
  isLoopback : α → Bool
  isLocal : α → Bool

/-- `peerlist_entry`. -/
structure PeerlistEntry (α : Type) where
  adr : α
  id : UInt64
  lastSeen : ℤ
  pruningSeed : UInt32
  rpcPort : UInt16
  rpcCreditsPerHash : UInt32
  deriving DecidableEq, Repr

/-- `ipv4_network_address`: the IP in network byte order, read as a little-endian word. -/
structure Ipv4NetworkAddress where
  ip : UInt32
  port : UInt16
  deriving DecidableEq, Repr

/-- `is_ip_loopback`: `127.0.0.0/8`. -/
def isIpLoopback (ip : UInt32) : Bool :=
  (ip ||| 0xffffff00) == 0xffffff7f

/-- `is_ip_local`: `10.0.0.0/8`, `192.168.0.0/16` and `172.16.0.0/12`. -/
def isIpLocal (ip : UInt32) : Bool :=
  let secondNum := (ip >>> 8) &&& 0xff
  (ip ||| 0xffffff00) == 0xffffff0a || (ip ||| 0xffff0000) == 0xffffa8c0 ||
    ((ip ||| 0xffffff00) == 0xffffffac && 16 ≤ secondNum && secondNum ≤ 31)

/-- The address functions of `ipv4_network_address`. -/
def ipv4Ops : AddressOps Ipv4NetworkAddress where
  isSameHost a b := a.ip == b.ip
  isLoopback a := isIpLoopback a.ip
  isLocal a := isIpLocal a.ip

/-- The state of `peerlist_manager`: the white and gray lists and `m_allow_local_ip`. -/
structure PeerlistManager (α : Type) where
  peersWhite : List (PeerlistEntry α)
  peersGray : List (PeerlistEntry α)
  allowLocalIp : Bool

namespace PeerlistManager

variable {α : Type} [DecidableEq α] (net : AddressOps α)

/-- The oldest entry of a list erased: the first one with the least `last_seen`. The order of
`int64_t` is given by name: of the orders on `ℤ` instance search may find, some cannot be
computed. -/
def eraseOldest (l : List (PeerlistEntry α)) : List (PeerlistEntry α) :=
  match @List.argmin _ ℤ Int.instLinearOrder.toPartialOrder.toPreorder Int.decLt
      PeerlistEntry.lastSeen l with
  | none => l
  | some e => l.erase e

/-- The loops of `trim_white_peerlist` and `trim_gray_peerlist`: erase the oldest entry
while there are more than `limit`. Each turn erases one entry, so as many turns as entries
are enough. -/
def trimPeerlist (limit : ℕ) : ℕ → List (PeerlistEntry α) → List (PeerlistEntry α)
  | 0, l => l
  | fuel + 1, l => if limit < l.length then trimPeerlist limit fuel (eraseOldest l) else l

/-- `trim_white_peerlist`. -/
def trimWhitePeerlist (l : List (PeerlistEntry α)) : List (PeerlistEntry α) :=
  trimPeerlist p2pLocalWhitePeerlistLimit l.length l

/-- `trim_gray_peerlist`. -/
def trimGrayPeerlist (l : List (PeerlistEntry α)) : List (PeerlistEntry α) :=
  trimPeerlist p2pLocalGrayPeerlistLimit l.length l

/-- `evict_host_from_white_peerlist`: erase every white entry on the host of `pr`. -/
def evictHostFromWhitePeerlist (white : List (PeerlistEntry α)) (pr : PeerlistEntry α) :
    List (PeerlistEntry α) :=
  white.filter fun e => !net.isSameHost e.adr pr.adr

/-- The update of a known entry by `append_with_peer_white` and `append_with_peer_gray`: the
new record, with the stored pruning seed and RPC port when the new ones are zero, and the
stored `last_seen`. -/
def updatedEntry (old ple : PeerlistEntry α) : PeerlistEntry α :=
  { ple with
    pruningSeed := if old.pruningSeed ≠ 0 ∧ ple.pruningSeed = 0 then old.pruningSeed
      else ple.pruningSeed
    rpcPort := if old.rpcPort ≠ 0 ∧ ple.rpcPort = 0 then old.rpcPort else ple.rpcPort
    lastSeen := old.lastSeen }

/-- `multi_index_container::replace` of the entry with address `ple.adr`. -/
def replaceEntry (l : List (PeerlistEntry α)) (old ple : PeerlistEntry α) :
    List (PeerlistEntry α) :=
  l.map fun e => if e.adr = ple.adr then updatedEntry old ple else e

variable (pm : PeerlistManager α)

/-- `is_host_allowed`: never a loopback address, and a local one only when allowed. -/
def isHostAllowed (address : α) : Bool :=
  !net.isLoopback address && (pm.allowLocalIp || !net.isLocal address)

/-- `append_with_peer_white`: a new address goes into the white list after the entries on
its host are evicted, and the list is trimmed; a known one is updated in place. Either way
the address leaves the gray list. -/
def appendWithPeerWhite (ple : PeerlistEntry α) : PeerlistManager α :=
  if !pm.isHostAllowed net ple.adr then pm
  else
    let white := match pm.peersWhite.find? (·.adr = ple.adr) with
      | none => trimWhitePeerlist (evictHostFromWhitePeerlist net pm.peersWhite ple ++ [ple])
      | some old => replaceEntry pm.peersWhite old ple
    { pm with
      peersWhite := white
      peersGray := pm.peersGray.filter (·.adr ≠ ple.adr) }

/-- `append_with_peer_gray`: nothing for an address in the white list; otherwise a new
address goes into the gray list, which is trimmed, and a known one is updated in place. -/
def appendWithPeerGray (ple : PeerlistEntry α) : PeerlistManager α :=
  if !pm.isHostAllowed net ple.adr then pm
  else if pm.peersWhite.any (·.adr = ple.adr) then pm
  else
    match pm.peersGray.find? (·.adr = ple.adr) with
    | none => { pm with peersGray := trimGrayPeerlist (pm.peersGray ++ [ple]) }
    | some old => { pm with peersGray := replaceEntry pm.peersGray old ple }

/-- `merge_peerlist`: every entry that the filter `f` lets through (all of them when there
is none) is appended to the gray list, which is then trimmed. -/
def mergePeerlist (outerBs : List (PeerlistEntry α))
    (f : Option (PeerlistEntry α → Bool)) : PeerlistManager α :=
  let pm := outerBs.foldl (fun pm be =>
    if f.all (· be) then pm.appendWithPeerGray net be else pm) pm
  { pm with peersGray := trimGrayPeerlist pm.peersGray }

/-- `set_peer_just_seen` at local time `now`. -/
def setPeerJustSeen (peer : UInt64) (addr : α) (pruningSeed : UInt32) (rpcPort : UInt16)
    (rpcCreditsPerHash : UInt32) (now : ℤ) : PeerlistManager α :=
  pm.appendWithPeerWhite net ⟨addr, peer, now, pruningSeed, rpcPort, rpcCreditsPerHash⟩

/-- `remove_from_peer_white`. -/
def removeFromPeerWhite (pe : PeerlistEntry α) : PeerlistManager α :=
  { pm with peersWhite := pm.peersWhite.filter (·.adr ≠ pe.adr) }

/-- `remove_from_peer_gray`. -/
def removeFromPeerGray (pe : PeerlistEntry α) : PeerlistManager α :=
  { pm with peersGray := pm.peersGray.filter (·.adr ≠ pe.adr) }

/-- `get_random_gray_peer` for the random index `randomIndex`: the entry that many places
back from the newest; the lists do not change. -/
def getRandomGrayPeer (randomIndex : ℕ) : Option (PeerlistEntry α) :=
  if pm.peersGray.isEmpty then none
  else
    (pm.peersGray.mergeSort fun a b => a.lastSeen ≤ b.lastSeen).reverse[randomIndex]?

/-- `add_peers`: insertion into the address index, which keeps the first entry of each
address. -/
def addPeers (dest src : List (PeerlistEntry α)) : List (PeerlistEntry α) :=
  src.foldl (fun dest e => if dest.any (·.adr = e.adr) then dest else dest ++ [e]) dest

/-- `peerlist_manager::init`: only on empty lists, which then take the given peers as they
are. -/
def init (white gray : List (PeerlistEntry α)) (allowLocalIp : Bool) :
    Bool × PeerlistManager α :=
  if !pm.peersWhite.isEmpty || !pm.peersGray.isEmpty then (false, pm)
  else (true, ⟨addPeers pm.peersWhite white, addPeers pm.peersGray gray, allowLocalIp⟩)

end PeerlistManager

/-- The calls on a started peer list manager that change or read its lists. -/
inductive Call (α : Type)
  | appendWithPeerWhite (ple : PeerlistEntry α)
  | appendWithPeerGray (ple : PeerlistEntry α)
  | mergePeerlist (outerBs : List (PeerlistEntry α)) (f : Option (PeerlistEntry α → Bool))
  | setPeerJustSeen (peer : UInt64) (addr : α) (pruningSeed : UInt32) (rpcPort : UInt16)
      (rpcCreditsPerHash : UInt32) (now : ℤ)
  | removeFromPeerWhite (pe : PeerlistEntry α)
  | removeFromPeerGray (pe : PeerlistEntry α)
  | getRandomGrayPeer (randomIndex : ℕ)

namespace PeerlistManager

variable {α : Type} [DecidableEq α] (net : AddressOps α)

/-- The manager after one call. -/
def next (pm : PeerlistManager α) : Call α → PeerlistManager α
  | .appendWithPeerWhite ple => pm.appendWithPeerWhite net ple
  | .appendWithPeerGray ple => pm.appendWithPeerGray net ple
  | .mergePeerlist outerBs f => pm.mergePeerlist net outerBs f
  | .setPeerJustSeen peer addr pruningSeed rpcPort rpcCreditsPerHash now =>
    pm.setPeerJustSeen net peer addr pruningSeed rpcPort rpcCreditsPerHash now
  | .removeFromPeerWhite pe => pm.removeFromPeerWhite pe
  | .removeFromPeerGray pe => pm.removeFromPeerGray pe
  | .getRandomGrayPeer _ => pm

/-- One call. -/
def Step (pm pm' : PeerlistManager α) : Prop :=
  ∃ c, pm.next net c = pm'

end PeerlistManager

end Nodetool

end Wazn
