import Mathlib.Data.List.Nodup
import Wazn.Library.StateMachine
import Wazn.Model.PeerList

/-!
# What the peer lists keep

The calls of `peerlist_manager` that a running node makes keep four facts about the two lists
(`PeerInv`): no address is in both, the white list has no two entries on one host, each list is
within its limit, and every address passes `is_host_allowed`. A new white entry evicts the
entries on its host and leaves the gray list, a gray entry is only added for an address that is
not white, both lists are trimmed after they grow, and an update in place keeps the addresses;
the rest only removes entries (`next_peerInv`). So the facts hold in every state reached from a
manager that had them when it started (`reachable_peerInv`).

`init` checks none of them: it takes the lists it is given as they are, so that a manager
initialised with disjoint lists within their limits can still hold a loopback address or two
white entries on one host, and keeps them through later calls
(`initialised_peerlist_breaks_peerInv`).

Separately, each list stays unique by address, as the `by_addr` index of the container makes it
(`reachable_addrUnique`): the list model never holds two entries the container could not.

`set_peer_just_seen` does not always refresh the time a peer was seen: it hands its entry to
`append_with_peer_white`, which keeps the stored `last_seen` of an address it already has, as
for the untrusted lists of other peers. Only a new address, in a white list with room, is
recorded as seen now (`setPeerJustSeen_spec`, `setPeerJustSeen_keeps_lastSeen`).
-/

set_option autoImplicit false

namespace Wazn

namespace Nodetool

namespace PeerlistManager

variable {α : Type} [DecidableEq α] (net : AddressOps α)

/-- The facts about the lists that the calls keep. "One entry per host" reads in list order:
no entry is on the host of a later one, which for a symmetric `is_same_host` such as that of
`ipv4_network_address` says that no two entries share a host. -/
structure PeerInv (pm : PeerlistManager α) : Prop where
  disjoint : (pm.peersWhite.map PeerlistEntry.adr).Disjoint (pm.peersGray.map PeerlistEntry.adr)
  white_hosts : (pm.peersWhite.map PeerlistEntry.adr).Pairwise fun a b => net.isSameHost a b = false
  white_length : pm.peersWhite.length ≤ p2pLocalWhitePeerlistLimit
  gray_length : pm.peersGray.length ≤ p2pLocalGrayPeerlistLimit
  white_allowed : ∀ a ∈ pm.peersWhite.map PeerlistEntry.adr, pm.isHostAllowed net a = true
  gray_allowed : ∀ a ∈ pm.peersGray.map PeerlistEntry.adr, pm.isHostAllowed net a = true

/-- Each list holds at most one entry per address, as its `by_addr` index requires. -/
structure AddrUnique (pm : PeerlistManager α) : Prop where
  white_nodup : (pm.peersWhite.map PeerlistEntry.adr).Nodup
  gray_nodup : (pm.peersGray.map PeerlistEntry.adr).Nodup

/-! ## Trimming -/

theorem eraseOldest_sublist (l : List (PeerlistEntry α)) : (eraseOldest l).Sublist l := by
  unfold eraseOldest
  split
  · exact List.Sublist.refl l
  · exact List.erase_sublist

theorem length_eraseOldest {l : List (PeerlistEntry α)} (h : l ≠ []) :
    (eraseOldest l).length + 1 = l.length := by
  unfold eraseOldest
  split
  · rename_i hnone
    exact absurd (List.argmin_eq_none.mp hnone) h
  · rename_i e hsome
    have hmem : e ∈ l := List.argmin_mem hsome
    rw [List.length_erase_of_mem hmem]
    have := List.length_pos_of_mem hmem
    omega

theorem trimPeerlist_sublist (limit : ℕ) :
    ∀ (fuel : ℕ) (l : List (PeerlistEntry α)), (trimPeerlist limit fuel l).Sublist l
  | 0, l => List.Sublist.refl l
  | fuel + 1, l => by
    unfold trimPeerlist
    split
    · exact (trimPeerlist_sublist limit fuel _).trans (eraseOldest_sublist l)
    · exact List.Sublist.refl l

/-- With as many turns as the list has entries over the limit, the loop gets it to the limit. -/
theorem length_trimPeerlist_le (limit : ℕ) :
    ∀ (fuel : ℕ) (l : List (PeerlistEntry α)), l.length ≤ limit + fuel →
      (trimPeerlist limit fuel l).length ≤ limit
  | 0, l, h => h
  | fuel + 1, l, h => by
    unfold trimPeerlist
    split
    · rename_i hlong
      have hne : l ≠ [] := List.ne_nil_of_length_pos (by omega)
      have herase := length_eraseOldest hne
      exact length_trimPeerlist_le limit fuel _ (by omega)
    · omega

theorem trimWhitePeerlist_sublist (l : List (PeerlistEntry α)) :
    (trimWhitePeerlist l).Sublist l :=
  trimPeerlist_sublist _ _ l

theorem length_trimWhitePeerlist_le (l : List (PeerlistEntry α)) :
    (trimWhitePeerlist l).length ≤ p2pLocalWhitePeerlistLimit :=
  length_trimPeerlist_le _ _ l (by omega)

theorem trimGrayPeerlist_sublist (l : List (PeerlistEntry α)) :
    (trimGrayPeerlist l).Sublist l :=
  trimPeerlist_sublist _ _ l

theorem length_trimGrayPeerlist_le (l : List (PeerlistEntry α)) :
    (trimGrayPeerlist l).length ≤ p2pLocalGrayPeerlistLimit :=
  length_trimPeerlist_le _ _ l (by omega)

/-! ## Updates in place and the address index -/

/-- An update in place keeps every address where it was. -/
@[simp] theorem map_adr_replaceEntry (l : List (PeerlistEntry α)) (old ple : PeerlistEntry α) :
    (replaceEntry l old ple).map PeerlistEntry.adr = l.map PeerlistEntry.adr := by
  rw [replaceEntry, List.map_map]
  apply List.map_congr_left
  intro e _
  by_cases h : e.adr = ple.adr
  · simp [h, updatedEntry]
  · simp [h]

/-- The entries of a list that do not have one address are the list's addresses without it. -/
theorem map_adr_filter_ne (l : List (PeerlistEntry α)) (a : α) :
    (l.filter (·.adr ≠ a)).map PeerlistEntry.adr = (l.map PeerlistEntry.adr).filter (· ≠ a) := by
  rw [List.filter_map]
  rfl

theorem not_mem_of_find?_eq_none {l : List (PeerlistEntry α)} {a : α}
    (h : l.find? (·.adr = a) = none) : a ∉ l.map PeerlistEntry.adr := by
  rw [List.find?_eq_none] at h
  intro hmem
  obtain ⟨e, he, rfl⟩ := List.mem_map.mp hmem
  exact h e he (by simp)

theorem not_mem_of_any_eq_false {l : List (PeerlistEntry α)} {a : α}
    (h : l.any (·.adr = a) = false) : a ∉ l.map PeerlistEntry.adr := by
  rw [List.any_eq_false] at h
  intro hmem
  obtain ⟨e, he, rfl⟩ := List.mem_map.mp hmem
  exact h e he (by simp)

omit [DecidableEq α] in
/-- Whether a host is allowed depends only on `m_allow_local_ip`. -/
theorem isHostAllowed_congr {pm pm' : PeerlistManager α} (h : pm'.allowLocalIp = pm.allowLocalIp)
    (a : α) : pm'.isHostAllowed net a = pm.isHostAllowed net a := by
  simp [isHostAllowed, h]

theorem map_adr_filter_sublist (l : List (PeerlistEntry α)) (a : α) :
    ((l.filter (·.adr ≠ a)).map PeerlistEntry.adr).Sublist (l.map PeerlistEntry.adr) :=
  List.filter_sublist.map _

/-- The white addresses after a new entry: those the eviction kept, then the new one. -/
theorem map_adr_newWhite_sublist (white : List (PeerlistEntry α)) (ple : PeerlistEntry α) :
    ((trimWhitePeerlist (evictHostFromWhitePeerlist net white ple ++ [ple])).map
      PeerlistEntry.adr).Sublist
      ((white.map PeerlistEntry.adr).filter (net.isSameHost · ple.adr = false) ++ [ple.adr]) := by
  have := (trimWhitePeerlist_sublist (evictHostFromWhitePeerlist net white ple ++ [ple])).map
    PeerlistEntry.adr
  simpa [evictHostFromWhitePeerlist, List.filter_map, Function.comp_def] using this

/-- The gray addresses after a new entry. -/
theorem map_adr_newGray_sublist (gray : List (PeerlistEntry α)) (ple : PeerlistEntry α) :
    ((trimGrayPeerlist (gray ++ [ple])).map PeerlistEntry.adr).Sublist
      (gray.map PeerlistEntry.adr ++ [ple.adr]) := by
  simpa using (trimGrayPeerlist_sublist (gray ++ [ple])).map PeerlistEntry.adr

/-! ## What each call can do -/

section Cases

variable (pm : PeerlistManager α)

/-- `append_with_peer_white` does nothing for a host that is not allowed; otherwise it adds a new
address after evicting its host, or updates a known one in place, and takes the address off the
gray list. -/
theorem appendWithPeerWhite_cases (ple : PeerlistEntry α) :
    (pm.isHostAllowed net ple.adr = false ∧ pm.appendWithPeerWhite net ple = pm) ∨
    (pm.isHostAllowed net ple.adr = true ∧ ple.adr ∉ pm.peersWhite.map PeerlistEntry.adr ∧
      pm.appendWithPeerWhite net ple = { pm with
        peersWhite := trimWhitePeerlist (evictHostFromWhitePeerlist net pm.peersWhite ple ++ [ple])
        peersGray := pm.peersGray.filter (·.adr ≠ ple.adr) }) ∨
    (pm.isHostAllowed net ple.adr = true ∧ ∃ old, pm.appendWithPeerWhite net ple = { pm with
        peersWhite := replaceEntry pm.peersWhite old ple
        peersGray := pm.peersGray.filter (·.adr ≠ ple.adr) }) := by
  cases hallowed : pm.isHostAllowed net ple.adr
  · exact Or.inl ⟨rfl, by simp [appendWithPeerWhite, hallowed]⟩
  · cases hfind : pm.peersWhite.find? (·.adr = ple.adr) with
    | none =>
      refine Or.inr (Or.inl ⟨rfl, not_mem_of_find?_eq_none hfind, ?_⟩)
      simp [appendWithPeerWhite, hallowed, hfind]
    | some old =>
      refine Or.inr (Or.inr ⟨rfl, old, ?_⟩)
      simp [appendWithPeerWhite, hallowed, hfind]

/-- `append_with_peer_gray` does nothing for a host that is not allowed or an address that is
white; otherwise it adds a new address, or updates a known one in place. -/
theorem appendWithPeerGray_cases (ple : PeerlistEntry α) :
    pm.appendWithPeerGray net ple = pm ∨
    (pm.isHostAllowed net ple.adr = true ∧ ple.adr ∉ pm.peersWhite.map PeerlistEntry.adr ∧
      ple.adr ∉ pm.peersGray.map PeerlistEntry.adr ∧
      pm.appendWithPeerGray net ple =
        { pm with peersGray := trimGrayPeerlist (pm.peersGray ++ [ple]) }) ∨
    ∃ old, pm.appendWithPeerGray net ple =
      { pm with peersGray := replaceEntry pm.peersGray old ple } := by
  cases hallowed : pm.isHostAllowed net ple.adr
  · exact Or.inl (by simp [appendWithPeerGray, hallowed])
  · cases hwhite : pm.peersWhite.any (·.adr = ple.adr)
    · cases hfind : pm.peersGray.find? (·.adr = ple.adr) with
      | none =>
        refine Or.inr (Or.inl ⟨rfl, not_mem_of_any_eq_false hwhite,
          not_mem_of_find?_eq_none hfind, ?_⟩)
        simp [appendWithPeerGray, hallowed, hwhite, hfind]
      | some old =>
        exact Or.inr (Or.inr ⟨old, by simp [appendWithPeerGray, hallowed, hwhite, hfind]⟩)
    · exact Or.inl (by simp [appendWithPeerGray, hallowed, hwhite])

end Cases

/-! ## Each call keeps the invariant -/

omit [DecidableEq α] in
/-- A change that keeps `m_allow_local_ip` and only removes entries from the two lists keeps
the invariant. -/
theorem PeerInv.of_sublist {pm pm' : PeerlistManager α} (h : pm.PeerInv net)
    (hallow : pm'.allowLocalIp = pm.allowLocalIp)
    (hwhite : (pm'.peersWhite.map PeerlistEntry.adr).Sublist (pm.peersWhite.map PeerlistEntry.adr))
    (hgray : (pm'.peersGray.map PeerlistEntry.adr).Sublist (pm.peersGray.map PeerlistEntry.adr)) :
    pm'.PeerInv net where
  disjoint := List.disjoint_of_subset_left hwhite.subset
    (List.disjoint_of_subset_right hgray.subset h.disjoint)
  white_hosts := h.white_hosts.sublist hwhite
  white_length := by
    have := hwhite.length_le
    simp only [List.length_map] at this
    exact this.trans h.white_length
  gray_length := by
    have := hgray.length_le
    simp only [List.length_map] at this
    exact this.trans h.gray_length
  white_allowed a ha := by
    rw [isHostAllowed_congr net hallow]
    exact h.white_allowed a (hwhite.subset ha)
  gray_allowed a ha := by
    rw [isHostAllowed_congr net hallow]
    exact h.gray_allowed a (hgray.subset ha)

/-- A new white entry: the entries on its host are evicted before it is added, the list is
trimmed, and its address leaves the gray list. -/
theorem PeerInv.appendNewWhite {pm : PeerlistManager α} (h : pm.PeerInv net)
    (ple : PeerlistEntry α) (hallowed : pm.isHostAllowed net ple.adr = true) :
    PeerlistManager.PeerInv net { pm with
      peersWhite := trimWhitePeerlist (evictHostFromWhitePeerlist net pm.peersWhite ple ++ [ple])
      peersGray := pm.peersGray.filter (·.adr ≠ ple.adr) } := by
  have hwhite := map_adr_newWhite_sublist net pm.peersWhite ple
  have hgray := map_adr_filter_ne pm.peersGray ple.adr
  refine ⟨?_, ?_, length_trimWhitePeerlist_le _, ?_, ?_, ?_⟩
  · -- an address kept by the eviction was white, so not gray; the new one has left the gray list
    refine List.disjoint_of_subset_left hwhite.subset ?_
    rw [hgray, List.disjoint_append_left]
    constructor
    · exact List.disjoint_of_subset_left List.filter_sublist.subset
        (List.disjoint_of_subset_right List.filter_sublist.subset h.disjoint)
    · intro a ha ha'
      rw [List.mem_singleton] at ha
      subst ha
      simp at ha'
  · -- every entry kept by the eviction is off the new entry's host
    refine List.Pairwise.sublist hwhite ?_
    rw [List.pairwise_append]
    refine ⟨h.white_hosts.sublist List.filter_sublist, List.pairwise_singleton _ _, ?_⟩
    intro a ha b hb
    rw [List.mem_singleton] at hb
    subst hb
    simpa using (List.mem_filter.mp ha).2
  · exact (List.length_filter_le _ _).trans h.gray_length
  · intro a ha
    rcases List.mem_append.mp (hwhite.subset ha) with ha | ha
    · exact h.white_allowed a (List.mem_filter.mp ha).1
    · rw [List.mem_singleton.mp ha]
      exact hallowed
  · intro a ha
    rw [hgray] at ha
    exact h.gray_allowed a (List.mem_filter.mp ha).1

/-- A new gray entry, for an allowed address that is not white: the gray list is trimmed. -/
theorem PeerInv.appendNewGray {pm : PeerlistManager α} (h : pm.PeerInv net)
    (ple : PeerlistEntry α) (hallowed : pm.isHostAllowed net ple.adr = true)
    (hwhite : ple.adr ∉ pm.peersWhite.map PeerlistEntry.adr) :
    PeerlistManager.PeerInv net
      { pm with peersGray := trimGrayPeerlist (pm.peersGray ++ [ple]) } := by
  have hgray := map_adr_newGray_sublist pm.peersGray ple
  refine ⟨?_, h.white_hosts, h.white_length, length_trimGrayPeerlist_le _, h.white_allowed, ?_⟩
  · refine List.disjoint_of_subset_right hgray.subset ?_
    rw [List.disjoint_append_right, List.disjoint_singleton]
    exact ⟨h.disjoint, hwhite⟩
  · intro a ha
    rcases List.mem_append.mp (hgray.subset ha) with ha | ha
    · exact h.gray_allowed a ha
    · rw [List.mem_singleton.mp ha]
      exact hallowed

theorem appendWithPeerWhite_peerInv {pm : PeerlistManager α} (h : pm.PeerInv net)
    (ple : PeerlistEntry α) : (pm.appendWithPeerWhite net ple).PeerInv net := by
  rcases appendWithPeerWhite_cases net pm ple with ⟨-, heq⟩ | ⟨hallowed, -, heq⟩ | ⟨-, old, heq⟩
  · rw [heq]
    exact h
  · rw [heq]
    exact h.appendNewWhite net ple hallowed
  · -- an update in place keeps the white addresses
    rw [heq]
    exact h.of_sublist net rfl (by simp) (map_adr_filter_sublist _ _)

theorem appendWithPeerGray_peerInv {pm : PeerlistManager α} (h : pm.PeerInv net)
    (ple : PeerlistEntry α) : (pm.appendWithPeerGray net ple).PeerInv net := by
  rcases appendWithPeerGray_cases net pm ple with heq | ⟨hallowed, hwhite, -, heq⟩ | ⟨old, heq⟩
  · rw [heq]
    exact h
  · rw [heq]
    exact h.appendNewGray net ple hallowed hwhite
  · rw [heq]
    exact h.of_sublist net rfl (List.Sublist.refl _) (by simp)

/-- `merge_peerlist` is a run of `append_with_peer_gray` and a trim. -/
theorem mergePeerlist_peerInv {pm : PeerlistManager α} (h : pm.PeerInv net)
    (outerBs : List (PeerlistEntry α)) (f : Option (PeerlistEntry α → Bool)) :
    (pm.mergePeerlist net outerBs f).PeerInv net := by
  unfold mergePeerlist
  refine PeerInv.of_sublist net (StateMachine.foldl_invariant ?_ outerBs pm h) rfl
    (List.Sublist.refl _) ((trimGrayPeerlist_sublist _).map _)
  intro s be hs
  split
  · exact appendWithPeerGray_peerInv net hs be
  · exact hs

/-- **Every call keeps the invariant.** -/
theorem next_peerInv {pm : PeerlistManager α} (h : pm.PeerInv net) :
    ∀ c : Call α, (pm.next net c).PeerInv net
  | .appendWithPeerWhite ple => appendWithPeerWhite_peerInv net h ple
  | .appendWithPeerGray ple => appendWithPeerGray_peerInv net h ple
  | .mergePeerlist outerBs f => mergePeerlist_peerInv net h outerBs f
  | .setPeerJustSeen .. => appendWithPeerWhite_peerInv net h _
  | .removeFromPeerWhite pe =>
    h.of_sublist net rfl (map_adr_filter_sublist pm.peersWhite pe.adr) (List.Sublist.refl _)
  | .removeFromPeerGray pe =>
    h.of_sublist net rfl (List.Sublist.refl _) (map_adr_filter_sublist pm.peersGray pe.adr)
  | .getRandomGrayPeer _ => h

/-! ## The lists stay unique by address -/

omit [DecidableEq α] in
theorem AddrUnique.of_sublist {pm pm' : PeerlistManager α} (h : pm.AddrUnique)
    (hwhite : (pm'.peersWhite.map PeerlistEntry.adr).Sublist (pm.peersWhite.map PeerlistEntry.adr))
    (hgray : (pm'.peersGray.map PeerlistEntry.adr).Sublist (pm.peersGray.map PeerlistEntry.adr)) :
    pm'.AddrUnique :=
  ⟨hwhite.nodup h.white_nodup, hgray.nodup h.gray_nodup⟩

theorem appendWithPeerWhite_addrUnique {pm : PeerlistManager α} (h : pm.AddrUnique)
    (ple : PeerlistEntry α) : (pm.appendWithPeerWhite net ple).AddrUnique := by
  rcases appendWithPeerWhite_cases net pm ple with ⟨-, heq⟩ | ⟨-, hnew, heq⟩ | ⟨-, old, heq⟩
  · rw [heq]
    exact h
  · -- the new address was not white, so not among the entries the eviction kept
    rw [heq]
    have hkept : ple.adr ∉ (pm.peersWhite.map PeerlistEntry.adr).filter
        (net.isSameHost · ple.adr = false) := fun hmem => hnew (List.mem_filter.mp hmem).1
    refine ⟨(map_adr_newWhite_sublist net pm.peersWhite ple).nodup ?_,
      (map_adr_filter_sublist _ _).nodup h.gray_nodup⟩
    rw [← List.concat_eq_append]
    exact List.Nodup.concat hkept (List.filter_sublist.nodup h.white_nodup)
  · rw [heq]
    exact h.of_sublist (by simp) (map_adr_filter_sublist _ _)

theorem appendWithPeerGray_addrUnique {pm : PeerlistManager α} (h : pm.AddrUnique)
    (ple : PeerlistEntry α) : (pm.appendWithPeerGray net ple).AddrUnique := by
  rcases appendWithPeerGray_cases net pm ple with heq | ⟨-, -, hnew, heq⟩ | ⟨old, heq⟩
  · rw [heq]
    exact h
  · rw [heq]
    refine ⟨h.white_nodup, (map_adr_newGray_sublist pm.peersGray ple).nodup ?_⟩
    rw [← List.concat_eq_append]
    exact List.Nodup.concat hnew h.gray_nodup
  · rw [heq]
    exact h.of_sublist (List.Sublist.refl _) (by simp)

theorem next_addrUnique {pm : PeerlistManager α} (h : pm.AddrUnique) :
    ∀ c : Call α, (pm.next net c).AddrUnique
  | .appendWithPeerWhite ple => appendWithPeerWhite_addrUnique net h ple
  | .appendWithPeerGray ple => appendWithPeerGray_addrUnique net h ple
  | .mergePeerlist outerBs f => by
    unfold next mergePeerlist
    refine AddrUnique.of_sublist (StateMachine.foldl_invariant ?_ outerBs pm h)
      (List.Sublist.refl _) ((trimGrayPeerlist_sublist _).map _)
    intro s be hs
    split
    · exact appendWithPeerGray_addrUnique net hs be
    · exact hs
  | .setPeerJustSeen .. => appendWithPeerWhite_addrUnique net h _
  | .removeFromPeerWhite pe =>
    h.of_sublist (map_adr_filter_sublist pm.peersWhite pe.adr) (List.Sublist.refl _)
  | .removeFromPeerGray pe =>
    h.of_sublist (List.Sublist.refl _) (map_adr_filter_sublist pm.peersGray pe.adr)
  | .getRandomGrayPeer _ => h

/-! ## Starting the manager -/

theorem addPeers_cons (dest : List (PeerlistEntry α)) (e : PeerlistEntry α)
    (src : List (PeerlistEntry α)) :
    addPeers dest (e :: src) =
      addPeers (if dest.any (·.adr = e.adr) then dest else dest ++ [e]) src :=
  rfl

/-- `add_peers` keeps some of the given entries, in their order. -/
theorem addPeers_sublist :
    ∀ (src dest : List (PeerlistEntry α)), (addPeers dest src).Sublist (dest ++ src)
  | [], dest => by simp [addPeers]
  | e :: src, dest => by
    rw [addPeers_cons]
    split
    · exact (addPeers_sublist src dest).trans ((List.sublist_cons_self e src).append_left dest)
    · simpa using addPeers_sublist src (dest ++ [e])

/-- `add_peers` adds only addresses that are not there yet. -/
theorem addPeers_nodup :
    ∀ (src dest : List (PeerlistEntry α)), (dest.map PeerlistEntry.adr).Nodup →
      ((addPeers dest src).map PeerlistEntry.adr).Nodup
  | [], _, h => h
  | e :: src, dest, h => by
    rw [addPeers_cons]
    split
    · exact addPeers_nodup src dest h
    · rename_i hnew
      apply addPeers_nodup src
      rw [List.map_append, List.map_singleton, ← List.concat_eq_append]
      exact List.Nodup.concat (not_mem_of_any_eq_false (by simpa using hnew)) h

theorem init_of_empty {pm₀ : PeerlistManager α} (hwhite : pm₀.peersWhite = [])
    (hgray : pm₀.peersGray = []) (white gray : List (PeerlistEntry α)) (allowLocalIp : Bool) :
    pm₀.init white gray allowLocalIp =
      (true, ⟨addPeers [] white, addPeers [] gray, allowLocalIp⟩) := by
  simp [init, hwhite, hgray]

/-- A manager as the node has it before any other call: empty, or filled by `init` from empty
lists with lists for which `P` holds. -/
def InitialisedWith (P : List (PeerlistEntry α) → List (PeerlistEntry α) → Bool → Prop)
    (pm : PeerlistManager α) : Prop :=
  (pm.peersWhite = [] ∧ pm.peersGray = []) ∨
    ∃ (pm₀ : PeerlistManager α) (white gray : List (PeerlistEntry α)) (allowLocalIp : Bool),
      pm₀.peersWhite = [] ∧ pm₀.peersGray = [] ∧ P white gray allowLocalIp ∧
        pm₀.init white gray allowLocalIp = (true, pm)

omit [DecidableEq α] in
theorem peerInv_of_nil {pm : PeerlistManager α} (hwhite : pm.peersWhite = [])
    (hgray : pm.peersGray = []) : pm.PeerInv net :=
  ⟨by simp [hwhite], by simp [hwhite], by simp [hwhite, p2pLocalWhitePeerlistLimit],
    by simp [hgray, p2pLocalGrayPeerlistLimit], by simp [hwhite], by simp [hgray]⟩

/-- `init` keeps the facts of the lists it is given: it drops repeated addresses only. -/
theorem InitialisedWith.peerInv {pm : PeerlistManager α}
    (h : InitialisedWith (fun white gray allowLocalIp => PeerInv net ⟨white, gray, allowLocalIp⟩) pm) :
    pm.PeerInv net := by
  rcases h with ⟨hwhite, hgray⟩ | ⟨pm₀, white, gray, allowLocalIp, hwhite, hgray, hinv, hinit⟩
  · exact peerInv_of_nil net hwhite hgray
  · rw [init_of_empty hwhite hgray, Prod.mk.injEq] at hinit
    rw [← hinit.2]
    exact hinv.of_sublist net rfl ((addPeers_sublist white []).map _)
      ((addPeers_sublist gray []).map _)

theorem InitialisedWith.addrUnique {P : List (PeerlistEntry α) → List (PeerlistEntry α) → Bool → Prop}
    {pm : PeerlistManager α} (h : InitialisedWith P pm) : pm.AddrUnique := by
  rcases h with ⟨hwhite, hgray⟩ | ⟨pm₀, white, gray, allowLocalIp, hwhite, hgray, -, hinit⟩
  · exact ⟨by simp [hwhite], by simp [hgray]⟩
  · rw [init_of_empty hwhite hgray, Prod.mk.injEq] at hinit
    rw [← hinit.2]
    exact ⟨addPeers_nodup white [] List.nodup_nil, addPeers_nodup gray [] List.nodup_nil⟩

/-! ## Every reachable state -/

/-- **The peer lists keep their invariant.** From an empty manager, or one that `init` filled
with lists that are disjoint, within their limits, with one white entry per host and only
allowed addresses, every sequence of calls leaves the lists so. -/
theorem reachable_peerInv {pm : PeerlistManager α}
    (hr : StateMachine.Reachable
      (InitialisedWith fun white gray allowLocalIp => PeerInv net ⟨white, gray, allowLocalIp⟩)
      (Step net) pm) :
    pm.PeerInv net := by
  refine StateMachine.Reachable.induction (I := PeerInv net) ?_ ?_ hr
  · intro s hs
    exact hs.peerInv net
  · rintro s t hs ⟨c, rfl⟩
    exact next_peerInv net hs c

/-- A node that has just connected to one peer. -/
theorem reachable_peerInv_firstPeer :
    ((⟨[], [], false⟩ : PeerlistManager Ipv4NetworkAddress).setPeerJustSeen ipv4Ops 7
      ⟨0x04030201, 18080⟩ 0 18081 0 1000).PeerInv ipv4Ops :=
  reachable_peerInv ipv4Ops (StateMachine.Reachable.tail
    (StateMachine.Reachable.of_init (Or.inl ⟨rfl, rfl⟩))
    ⟨.setPeerJustSeen 7 ⟨0x04030201, 18080⟩ 0 18081 0 1000, rfl⟩)

/-- `init` with disjoint lists within their limits: a loopback address and two entries on the
host `1.2.3.4` go into the white list, and a later call keeps them there. -/
theorem initialised_peerlist_breaks_peerInv :
    let white : List (PeerlistEntry Ipv4NetworkAddress) :=
      [⟨⟨0x0100007f, 18080⟩, 1, 0, 0, 0, 0⟩, ⟨⟨0x04030201, 18080⟩, 2, 0, 0, 0, 0⟩,
        ⟨⟨0x04030201, 18081⟩, 3, 0, 0, 0, 0⟩]
    let pm := ((⟨[], [], false⟩ : PeerlistManager Ipv4NetworkAddress).init white [] false).2
    let pm' := pm.next ipv4Ops (.appendWithPeerGray ⟨⟨0x08080808, 18080⟩, 4, 0, 0, 0, 0⟩)
    InitialisedWith (fun white gray _ =>
        (white.map PeerlistEntry.adr).Disjoint (gray.map PeerlistEntry.adr) ∧
          white.length ≤ p2pLocalWhitePeerlistLimit ∧ gray.length ≤ p2pLocalGrayPeerlistLimit) pm ∧
      Step ipv4Ops pm pm' ∧
      (∃ a ∈ pm'.peersWhite.map PeerlistEntry.adr, pm'.isHostAllowed ipv4Ops a = false) ∧
      ¬ (pm'.peersWhite.map PeerlistEntry.adr).Pairwise
        fun a b => ipv4Ops.isSameHost a b = false := by
  intro white pm pm'
  refine ⟨Or.inr ⟨⟨[], [], false⟩, white, [], false, rfl, rfl,
    ⟨List.disjoint_nil_right _, by decide, by decide⟩, rfl⟩, ⟨_, rfl⟩, ?_, by decide⟩
  exact ⟨⟨0x0100007f, 18080⟩, by decide, by decide⟩

/-- **The lists stay unique by address**, from any start. -/
theorem reachable_addrUnique
    {P : List (PeerlistEntry α) → List (PeerlistEntry α) → Bool → Prop} {pm : PeerlistManager α}
    (hr : StateMachine.Reachable (InitialisedWith P) (Step net) pm) : pm.AddrUnique := by
  refine StateMachine.Reachable.induction (I := AddrUnique) ?_ ?_ hr
  · intro s hs
    exact hs.addrUnique
  · rintro s t hs ⟨c, rfl⟩
    exact next_addrUnique net hs c

example :
    ((⟨[], [], false⟩ : PeerlistManager Ipv4NetworkAddress).setPeerJustSeen ipv4Ops 7
      ⟨0x04030201, 18080⟩ 0 18081 0 1000).AddrUnique :=
  reachable_addrUnique ipv4Ops (P := fun _ _ _ => True) (StateMachine.Reachable.tail
    (StateMachine.Reachable.of_init (Or.inl ⟨rfl, rfl⟩))
    ⟨.setPeerJustSeen 7 ⟨0x04030201, 18080⟩ 0 18081 0 1000, rfl⟩)

/-! ## Marking a peer as seen -/

/-- A node that knows the peer `8.8.8.8:18080` as white, last seen at time 0. -/
def seenPeerList : PeerlistManager Ipv4NetworkAddress :=
  ⟨[⟨⟨0x08080808, 18080⟩, 1, 0, 0, 0, 0⟩], [], false⟩

/-- Marking the known peer as seen at time 100 records its new id and keeps the time 0. -/
theorem setPeerJustSeen_keeps_lastSeen :
    (seenPeerList.setPeerJustSeen ipv4Ops 2 ⟨0x08080808, 18080⟩ 0 0 0 100).peersWhite =
      [⟨⟨0x08080808, 18080⟩, 2, 0, 0, 0, 0⟩] := by
  decide
end PeerlistManager

end Nodetool

end Wazn
