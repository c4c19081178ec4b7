import Wazn.Library.ExceptLoop
import Wazn.Library.IndexMap
import Wazn.Library.ListWindow
import Wazn.Library.StateMachine
import Wazn.Model.Wallet2

/-!
# The wallet's transfers across scanning and reorganisations

`m_pub_keys` and `m_key_images` stay maps from the transfers' public keys and known key images
to their positions in `m_transfers` (`Indexed`): pushing a transfer binds its keys, overwriting
one in place keeps them, marking one spent changes neither, and `detach_blockchain` erases the
keys of exactly the transfers it cuts, which is also why it never throws on a wallet whose maps
are in step (`detachBlockchain_spec`). This holds in every wallet reached by scanning and
reorganisations, where each key image is the one of its output's public key
(`reachable_indexed`).

`detach_blockchain(h)` cuts `m_transfers` at the first transfer received at height `h` or above.
That removes exactly the transfers received from `h` on only while `m_transfers` is sorted by
height (`detachBlockchain_of_heightSorted`). Scanning keeps it sorted when it pushes, but an
output that reuses the public key of an earlier, smaller unspent transfer overwrites that
transfer in place with its own, later height. After that the vector is no longer sorted, and a
reorganisation to a height between the two cuts away transfers received below it
(`detachBlockchain_after_reusedKey_drops`).
-/

set_option autoImplicit false

namespace Wazn

namespace Tools

variable {π κ : Type}

/-- A transfer whose key image `m_key_images` holds: known and not partial. -/
def TransferDetails.keyImageIndexed (td : TransferDetails π κ) : Bool :=
  td.keyImageKnown && !td.keyImagePartial

namespace Wallet2

variable [DecidableEq π] [DecidableEq κ]

/-- `m_pub_keys` maps each transfer's public key, and `m_key_images` each known and not partial
key image, to the transfer's position, and neither has another binding. -/
structure Indexed (w : Wallet2 π κ) : Prop where
  pubKeys : IndexMap.Indexes w.pubKeys w.transfers TransferDetails.pubKey fun _ => true
  keyImages : IndexMap.Indexes w.keyImages w.transfers TransferDetails.keyImage
    TransferDetails.keyImageIndexed

/-- `m_transfers` is sorted by the height of the block each transfer was received in. -/
def HeightSorted (w : Wallet2 π κ) : Prop :=
  (w.transfers.map TransferDetails.blockHeight).Pairwise (· ≤ ·)

/-! ## The records the calls write -/

omit [DecidableEq π] [DecidableEq κ] in
/-- A new transfer's key image is held exactly when it is known: a known one is never partial. -/
theorem newTransfer_keyImageIndexed (height : ℕ) (w : Wallet2 π κ) (o : ScannedOutput π κ) :
    (w.newTransfer height o).keyImageIndexed = (w.newTransfer height o).keyImageKnown := by
  cases w.multisig <;> simp [newTransfer, TransferDetails.keyImageIndexed]

section Records

omit [DecidableEq π] [DecidableEq κ]

variable (height : ℕ) (td : TransferDetails π κ)

@[simp] theorem spendTransfer_pubKey (input : KeyInput κ) :
    (spendTransfer height input td).pubKey = td.pubKey := by
  unfold spendTransfer
  split <;> rfl

@[simp] theorem spendTransfer_keyImage (input : KeyInput κ) :
    (spendTransfer height input td).keyImage = td.keyImage := by
  unfold spendTransfer
  split <;> rfl

@[simp] theorem spendTransfer_keyImageIndexed (input : KeyInput κ) :
    (spendTransfer height input td).keyImageIndexed = td.keyImageIndexed := by
  unfold spendTransfer
  split <;> rfl

@[simp] theorem spendTransfer_blockHeight (input : KeyInput κ) :
    (spendTransfer height input td).blockHeight = td.blockHeight := by
  unfold spendTransfer
  split <;> rfl

@[simp] theorem resetSpent_pubKey : (resetSpent height td).pubKey = td.pubKey := by
  unfold resetSpent
  split <;> rfl

@[simp] theorem resetSpent_keyImage : (resetSpent height td).keyImage = td.keyImage := by
  unfold resetSpent
  split <;> rfl

@[simp] theorem resetSpent_keyImageIndexed :
    (resetSpent height td).keyImageIndexed = td.keyImageIndexed := by
  unfold resetSpent
  split <;> rfl

@[simp] theorem resetSpent_blockHeight : (resetSpent height td).blockHeight = td.blockHeight := by
  unfold resetSpent
  split <;> rfl

end Records

/-! ## What each call can do -/

/-- The output loop for one output: a new public key pushes a new transfer; a known one leaves
the wallet as it was, or overwrites its unspent smaller transfer in place. -/
theorem processOutput_cases {height : ℕ} {w w' : Wallet2 π κ} {o : ScannedOutput π κ}
    (h : w.processOutput height o = .ok w') :
    (w.pubKeys.lookup o.pubKey = none ∧ w' = { w with
      transfers := w.transfers ++ [w.newTransfer height o]
      keyImages := if (w.newTransfer height o).keyImageKnown then
        AssocList.insert o.keyImage w.transfers.length w.keyImages else w.keyImages
      pubKeys := AssocList.insert o.pubKey w.transfers.length w.pubKeys }) ∨
    w' = w ∨
    ∃ (i : ℕ) (hi : i < w.transfers.length), w.pubKeys.lookup o.pubKey = some i ∧
      w.transfers[i].spent = false ∧ ¬ o.amount ≤ w.transfers[i].amount ∧
      w' = { w with transfers := w.transfers.set i { w.transfers[i] with
        blockHeight := height, pubKey := o.pubKey, amount := o.receivedAmount } } := by
  unfold processOutput at h
  cases hpk : w.pubKeys.lookup o.pubKey with
  | none =>
    simp only [hpk] at h
    exact Or.inl ⟨rfl, (Except.ok.inj h).symm⟩
  | some i =>
    simp only [hpk] at h
    cases htd : w.transfers[i]? with
    | none =>
      simp only [htd] at h
      cases h
    | some td =>
      simp only [htd] at h
      obtain ⟨hi, rfl⟩ := List.getElem?_eq_some_iff.mp htd
      split at h
      · exact Or.inr (Or.inl (Except.ok.inj h).symm)
      · rename_i hkeep
        simp only [Bool.or_eq_true, decide_eq_true_eq, not_or, Bool.not_eq_true] at hkeep
        exact Or.inr (Or.inr ⟨i, hi, rfl, hkeep.1, hkeep.2, (Except.ok.inj h).symm⟩)

omit [DecidableEq π] in
/-- The input loop for one input: the wallet as it was, or the transfer at the key image's
position marked spent. -/
theorem spendInput_cases {height : ℕ} {w w' : Wallet2 π κ} {input : KeyInput κ}
    (h : w.spendInput height input = .ok w') :
    w' = w ∨ ∃ (i : ℕ) (hi : i < w.transfers.length),
      w.keyImages.lookup input.keyImage = some i ∧
      w' = { w with transfers := w.transfers.set i (spendTransfer height input w.transfers[i]) } := by
  unfold spendInput at h
  cases hki : w.keyImages.lookup input.keyImage with
  | none =>
    simp only [hki] at h
    exact Or.inl (Except.ok.inj h).symm
  | some i =>
    simp only [hki] at h
    cases htd : w.transfers[i]? with
    | none =>
      simp only [htd] at h
      cases h
    | some td =>
      simp only [htd] at h
      obtain ⟨hi, rfl⟩ := List.getElem?_eq_some_iff.mp htd
      exact Or.inr ⟨i, hi, rfl, (Except.ok.inj h).symm⟩

/-! ## The maps stay in step -/

/-- A key image found by scanning belongs to one output public key. -/
def KeyImageOwned (w : Wallet2 π κ) (o : ScannedOutput π κ) : Prop :=
  ∀ td ∈ w.transfers, td.keyImage = o.keyImage → td.pubKey = o.pubKey

theorem Indexed.processOutput {height : ℕ} {w w' : Wallet2 π κ} {o : ScannedOutput π κ}
    (hw : w.Indexed) (howned : w.KeyImageOwned o) (h : w.processOutput height o = .ok w') :
    w'.Indexed := by
  rcases processOutput_cases h with ⟨hnone, rfl⟩ | rfl | ⟨i, hi, hlk, -, -, rfl⟩
  · -- a new public key, so a new key image: no transfer has either
    have hfresh : (w.newTransfer height o).keyImageIndexed = true →
        w.keyImages.lookup (w.newTransfer height o).keyImage = none := by
      intro _
      rw [hw.keyImages.lookup_eq_none]
      intro j hj _ hkj
      have hpk := howned _ (List.getElem_mem hj) hkj
      have hlookup := hw.pubKeys.lookup_of_getElem hj rfl
      rw [hpk, hnone] at hlookup
      cases hlookup
    have hki := hw.keyImages.push (w.newTransfer height o) hfresh
    rw [newTransfer_keyImageIndexed] at hki
    exact ⟨hw.pubKeys.push (w.newTransfer height o) (fun _ => hnone), hki⟩
  · exact hw
  · -- the overwritten transfer already had the output's public key
    obtain ⟨_, -, hpk⟩ := (hw.pubKeys _ i).mp hlk
    exact ⟨hw.pubKeys.set hi _ hpk.symm rfl, hw.keyImages.set hi _ rfl rfl⟩

theorem Indexed.spendInput {height : ℕ} {w w' : Wallet2 π κ} {input : KeyInput κ}
    (hw : w.Indexed) (h : w.spendInput height input = .ok w') : w'.Indexed := by
  rcases spendInput_cases h with rfl | ⟨i, hi, -, rfl⟩
  · exact hw
  · exact ⟨hw.pubKeys.set hi _ (by simp) rfl, hw.keyImages.set hi _ (by simp) (by simp)⟩

omit [DecidableEq π] in
/-- The key-image loop of `detach_blockchain` over transfers whose held key images are distinct
and bound erases exactly those. -/
theorem eraseKeyImages_eq :
    ∀ (i : ℕ) (tds : List (TransferDetails π κ)) (keyImages : List (κ × ℕ)),
      ((tds.filter TransferDetails.keyImageIndexed).map TransferDetails.keyImage).Nodup →
      (∀ k ∈ (tds.filter TransferDetails.keyImageIndexed).map TransferDetails.keyImage,
        (keyImages.lookup k).isSome) →
      eraseKeyImages i tds keyImages = .ok (keyImages.filter fun p =>
        p.1 ∉ (tds.filter TransferDetails.keyImageIndexed).map TransferDetails.keyImage)
  | _, [], keyImages, _, _ => by simp [eraseKeyImages]
  | i, td :: tds, keyImages, hnodup, hbound => by
    -- the loop skips a transfer exactly when its key image is not held
    have hskip : (!td.keyImageKnown || td.keyImagePartial) = !td.keyImageIndexed := by
      simp only [TransferDetails.keyImageIndexed, Bool.not_and, Bool.not_not]
    by_cases hq : td.keyImageIndexed = true
    · rw [List.filter_cons_of_pos hq, List.map_cons] at hnodup hbound ⊢
      obtain ⟨j, hj⟩ := Option.isSome_iff_exists.mp (hbound _ List.mem_cons_self)
      rw [List.nodup_cons] at hnodup
      have hrest : ∀ k ∈ (tds.filter TransferDetails.keyImageIndexed).map TransferDetails.keyImage,
          ((AssocList.erase td.keyImage keyImages).lookup k).isSome := by
        intro k hk
        have hne : td.keyImage ≠ k := fun heq => hnodup.1 (heq ▸ hk)
        rw [AssocList.lookup_erase_ne hne]
        exact hbound k (List.mem_cons_of_mem _ hk)
      rw [eraseKeyImages, hskip, hq, Bool.not_true, if_neg Bool.false_ne_true, hj]
      dsimp only
      rw [eraseKeyImages_eq (i + 1) tds _ hnodup.2 hrest, AssocList.filter_not_mem_erase]
    · have hq' : td.keyImageIndexed = false := by simpa using hq
      rw [List.filter_cons_of_neg hq] at hnodup hbound ⊢
      rw [eraseKeyImages, hskip, hq', Bool.not_false, if_pos rfl]
      exact eraseKeyImages_eq (i + 1) tds keyImages hnodup hbound

omit [DecidableEq κ] in
/-- The public-key loop of `detach_blockchain` over transfers whose public keys are distinct and
bound erases exactly those. -/
theorem erasePubKeys_eq :
    ∀ (tds : List (TransferDetails π κ)) (pubKeys : List (π × ℕ)),
      (tds.map TransferDetails.pubKey).Nodup →
      (∀ k ∈ tds.map TransferDetails.pubKey, (pubKeys.lookup k).isSome) →
      erasePubKeys tds pubKeys =
        .ok (pubKeys.filter fun p => p.1 ∉ tds.map TransferDetails.pubKey)
  | [], pubKeys, _, _ => by simp [erasePubKeys]
  | td :: tds, pubKeys, hnodup, hbound => by
    rw [List.map_cons] at hnodup hbound ⊢
    obtain ⟨j, hj⟩ := Option.isSome_iff_exists.mp (hbound _ List.mem_cons_self)
    rw [List.nodup_cons] at hnodup
    have hrest : ∀ k ∈ tds.map TransferDetails.pubKey,
        ((AssocList.erase td.pubKey pubKeys).lookup k).isSome := by
      intro k hk
      have hne : td.pubKey ≠ k := fun heq => hnodup.1 (heq ▸ hk)
      rw [AssocList.lookup_erase_ne hne]
      exact hbound k (List.mem_cons_of_mem _ hk)
    rw [erasePubKeys, hj]
    dsimp only
    rw [erasePubKeys_eq tds _ hnodup.2 hrest, AssocList.filter_not_mem_erase]

/-- **`detach_blockchain` on a wallet whose maps are in step** returns, with the maps still in
step: the transfers, with those spent at or above `height` made unspent, cut at the first one
received at or above `height`. -/
theorem detachBlockchain_spec {w : Wallet2 π κ} (hw : w.Indexed) (height : ℕ) :
    ∃ w', w.detachBlockchain height = .ok w' ∧ w'.Indexed ∧
      w'.transfers = (w.transfers.map (resetSpent height)).take
        ((w.transfers.map (resetSpent height)).findIdx fun td => height ≤ td.blockHeight) := by
  -- the maps index the reset transfers as they indexed the transfers
  have hpk := hw.pubKeys.map (resetSpent height) (resetSpent_pubKey height) (fun _ => rfl)
  have hki := hw.keyImages.map (resetSpent height) (resetSpent_keyImage height)
    (resetSpent_keyImageIndexed height)
  generalize hn : ((w.transfers.map (resetSpent height)).findIdx fun td =>
    height ≤ td.blockHeight) = n
  have hkeys := eraseKeyImages_eq n ((w.transfers.map (resetSpent height)).drop n) w.keyImages
    (hki.nodup_droppedKeys n) (fun _ hk => hki.isSome_lookup_of_mem_droppedKeys hk)
  have hpks := erasePubKeys_eq ((w.transfers.map (resetSpent height)).drop n) w.pubKeys
    (by simpa [IndexMap.droppedKeys] using hpk.nodup_droppedKeys n)
    (fun _ hk => hpk.isSome_lookup_of_mem_droppedKeys (by simpa [IndexMap.droppedKeys] using hk))
  refine ⟨{ w with
      transfers := (w.transfers.map (resetSpent height)).take n
      keyImages := w.keyImages.filter fun p => p.1 ∉ IndexMap.droppedKeys
        (w.transfers.map (resetSpent height)) TransferDetails.keyImage
        TransferDetails.keyImageIndexed n
      pubKeys := w.pubKeys.filter fun p =>
        p.1 ∉ ((w.transfers.map (resetSpent height)).drop n).map TransferDetails.pubKey },
    ?_, ⟨?_, hki.take n⟩, rfl⟩
  · simp only [detachBlockchain, hn, hkeys, hpks, ExceptLoop.ok_bind, ExceptLoop.pure_eq_ok]
    rfl
  · simpa [IndexMap.droppedKeys] using hpk.take n

theorem Indexed.detachBlockchain {height : ℕ} {w w' : Wallet2 π κ} (hw : w.Indexed)
    (h : w.detachBlockchain height = .ok w') : w'.Indexed := by
  obtain ⟨w'', h', hidx, -⟩ := detachBlockchain_spec hw height
  rw [h'] at h
  cases h
  exact hidx

/-! ## Every wallet scanning and reorganisations reach -/

/-- Each transfer's key image is the one the wallet derives from its public key. -/
def KeyImagesOf (kiOf : π → κ) (w : Wallet2 π κ) : Prop :=
  ∀ td ∈ w.transfers, td.keyImage = kiOf td.pubKey

/-- A call whose scanned outputs carry the key images of their public keys. -/
def Call.ScansWith (kiOf : π → κ) : Call π κ → Prop
  | .processNewTransaction _ outs _ => ∀ o ∈ outs, o.keyImage = kiOf o.pubKey
  | .detachBlockchain _ => True

/-- One call that returns, scanning with the key derivation `kiOf`. -/
def StepWith (kiOf : π → κ) (w w' : Wallet2 π κ) : Prop :=
  ∃ c : Call π κ, c.ScansWith kiOf ∧ w.next c = .ok w'

/-- A wallet with no transfers yet. -/
def Fresh (w : Wallet2 π κ) : Prop :=
  w.transfers = [] ∧ w.pubKeys = [] ∧ w.keyImages = []

section Run

variable {kiOf : π → κ}

theorem Fresh.indexed {w : Wallet2 π κ} (h : w.Fresh) : w.Indexed := by
  obtain ⟨ht, hp, hk⟩ := h
  refine ⟨?_, ?_⟩ <;> intro k i <;> simp [ht, hp, hk]

/-- One output keeps the maps in step and the key images derived, when its key image is
derived from its public key. -/
theorem processOutput_inv (hinj : Function.Injective kiOf) {height : ℕ} {w w' : Wallet2 π κ}
    {o : ScannedOutput π κ} (hw : w.Indexed ∧ w.KeyImagesOf kiOf) (ho : o.keyImage = kiOf o.pubKey)
    (h : w.processOutput height o = .ok w') : w'.Indexed ∧ w'.KeyImagesOf kiOf := by
  -- a key image found by scanning belongs to its public key only
  have howned : w.KeyImageOwned o := fun td htd hki =>
    hinj (by rw [← hw.2 td htd, hki, ho])
  refine ⟨hw.1.processOutput howned h, ?_⟩
  rcases processOutput_cases h with ⟨-, rfl⟩ | rfl | ⟨i, hi, hlk, -, -, rfl⟩
  · intro td htd
    rcases List.mem_append.mp htd with htd | htd
    · exact hw.2 td htd
    · rw [List.mem_singleton.mp htd]
      exact ho
  · exact hw.2
  · -- the overwritten transfer already had the output's public key and key image
    obtain ⟨_, -, hpk⟩ := (hw.1.pubKeys _ i).mp hlk
    intro td htd
    rcases List.mem_or_eq_of_mem_set htd with htd | rfl
    · exact hw.2 td htd
    · simp only
      rw [← hpk]
      exact hw.2 _ (List.getElem_mem hi)

omit [DecidableEq π] in
theorem spendInput_keyImagesOf {height : ℕ} {w w' : Wallet2 π κ} {input : KeyInput κ}
    (hw : w.KeyImagesOf kiOf) (h : w.spendInput height input = .ok w') : w'.KeyImagesOf kiOf := by
  rcases spendInput_cases h with rfl | ⟨i, hi, -, rfl⟩
  · exact hw
  · intro td htd
    rcases List.mem_or_eq_of_mem_set htd with htd | rfl
    · exact hw td htd
    · simpa using hw _ (List.getElem_mem hi)

theorem processNewTransaction_inv (hinj : Function.Injective kiOf) {height : ℕ}
    {outs : List (ScannedOutput π κ)} {ins : List (KeyInput κ)} {w w' : Wallet2 π κ}
    (hw : w.Indexed ∧ w.KeyImagesOf kiOf) (houts : ∀ o ∈ outs, o.keyImage = kiOf o.pubKey)
    (h : w.processNewTransaction height outs ins = .ok w') : w'.Indexed ∧ w'.KeyImagesOf kiOf := by
  rw [processNewTransaction, ExceptLoop.bind_eq_ok] at h
  obtain ⟨w₁, hout, hin⟩ := h
  have hw₁ := ExceptLoop.foldlM_invariant outs
    (fun s o t ho hs hst => processOutput_inv hinj hs (houts o ho) hst) w w₁ hw hout
  exact ExceptLoop.foldlM_invariant (P := fun s => s.Indexed ∧ s.KeyImagesOf kiOf) ins
    (fun s _ t _ hs hst => ⟨hs.1.spendInput hst, spendInput_keyImagesOf hs.2 hst⟩) w₁ w' hw₁ hin

theorem detachBlockchain_keyImagesOf {height : ℕ} {w w' : Wallet2 π κ} (hw : w.Indexed)
    (hki : w.KeyImagesOf kiOf) (h : w.detachBlockchain height = .ok w') : w'.KeyImagesOf kiOf := by
  obtain ⟨w'', h', -, htransfers⟩ := detachBlockchain_spec hw height
  rw [h'] at h
  cases h
  intro td htd
  rw [htransfers] at htd
  obtain ⟨td₀, htd₀, rfl⟩ := List.mem_map.mp (List.mem_of_mem_take htd)
  simpa using hki td₀ htd₀

/-- **The maps stay in step.** In every wallet that scanning and reorganisations reach from a
fresh one, with key images derived from public keys by an injective `kiOf`, `m_pub_keys` and
`m_key_images` map exactly the transfers' public keys and held key images to their positions. -/
theorem reachable_indexed (hinj : Function.Injective kiOf) {w : Wallet2 π κ}
    (hr : StateMachine.Reachable Fresh (StepWith kiOf) w) : w.Indexed ∧ w.KeyImagesOf kiOf := by
  refine StateMachine.Reachable.induction (I := fun s => s.Indexed ∧ s.KeyImagesOf kiOf) ?_ ?_ hr
  · intro s hs
    refine ⟨hs.indexed, ?_⟩
    intro td htd
    rw [hs.1] at htd
    cases htd
  · rintro s t hs ⟨c, hscan, hc⟩
    cases c with
    | processNewTransaction height outs ins => exact processNewTransaction_inv hinj hs hscan hc
    | detachBlockchain height =>
      exact ⟨hs.1.detachBlockchain hc, detachBlockchain_keyImagesOf hs.1 hs.2 hc⟩

end Run

/-! ## Sorted by height -/

/-- **`detach_blockchain` on a sorted wallet** removes exactly the transfers received at or above
`height`, and keeps every other one, unspent if it was spent at or above `height`. -/
theorem detachBlockchain_of_heightSorted {w : Wallet2 π κ} (hw : w.Indexed)
    (hsorted : w.HeightSorted) (height : ℕ) :
    ∃ w', w.detachBlockchain height = .ok w' ∧
      w'.transfers = (w.transfers.map (resetSpent height)).filter fun td =>
        td.blockHeight < height := by
  obtain ⟨w', h, -, htransfers⟩ := detachBlockchain_spec hw height
  refine ⟨w', h, ?_⟩
  have hsorted' : ((w.transfers.map (resetSpent height)).map
      TransferDetails.blockHeight).Pairwise (· ≤ ·) := by
    simpa [HeightSorted, List.map_map, Function.comp_def] using hsorted
  rw [htransfers, ListWindow.take_findIdx_eq_filter TransferDetails.blockHeight height _ hsorted']

/-- **The overwrite breaks the reorganisation.** On a wallet whose maps are in step, an output
received at `height` that reuses the public key of the unspent transfer at position `i` with a
larger amount overwrites that transfer with its own height. When a later transfer `j` was
received below some `h ≤ height`, the transfers are no longer sorted, and `detach_blockchain(h)`
cuts at `i` or before, so the output of transfer `j` is lost although it was received below
`h`. -/
theorem detachBlockchain_after_reusedKey_drops {w : Wallet2 π κ} (hw : w.Indexed) {i j : ℕ}
    (hij : i < j) (hj : j < w.transfers.length) (o : ScannedOutput π κ)
    (hpk : w.transfers[i].pubKey = o.pubKey) (hunspent : w.transfers[i].spent = false)
    (hlarger : w.transfers[i].amount < o.amount) {height h : ℕ}
    (hlow : w.transfers[j].blockHeight < h) (hhigh : h ≤ height) :
    ∃ w₁ w₂, w.processOutput height o = .ok w₁ ∧ ¬ w₁.HeightSorted ∧
      w₁.detachBlockchain h = .ok w₂ ∧
      w.transfers[j].pubKey ∉ w₂.transfers.map TransferDetails.pubKey := by
  have hi : i < w.transfers.length := by omega
  have hlk : w.pubKeys.lookup o.pubKey = some i := by
    rw [← hpk]
    exact hw.pubKeys.lookup_of_getElem hi rfl
  -- the output overwrites transfer `i` with its own height
  let td₁ : TransferDetails π κ :=
    { w.transfers[i] with blockHeight := height, pubKey := o.pubKey, amount := o.receivedAmount }
  let w₁ : Wallet2 π κ := { w with transfers := w.transfers.set i td₁ }
  have hstep : w.processOutput height o = .ok w₁ := by
    have hkeep : (w.transfers[i].spent || decide (o.amount ≤ w.transfers[i].amount)) = false := by
      simp [hunspent, UInt64.not_le.mpr hlarger]
    simp only [processOutput, hlk, List.getElem?_eq_getElem hi, hkeep]
    rfl
  have hw₁ : w₁.Indexed := ⟨hw.pubKeys.set hi td₁ hpk.symm rfl, hw.keyImages.set hi td₁ rfl rfl⟩
  have hlen : j < w₁.transfers.length := by simpa [w₁] using hj
  have hheight : td₁.blockHeight = height := rfl
  have hgetj : w₁.transfers[j] = w.transfers[j] := List.getElem_set_ne (by omega) _
  have hi₁ : i < w₁.transfers.length := hlen.trans' hij
  have hgeti : w₁.transfers[i] = td₁ := List.getElem_set_self _
  obtain ⟨w₂, hdetach, -, htransfers⟩ := detachBlockchain_spec hw₁ h
  refine ⟨w₁, w₂, hstep, ?_, hdetach, ?_⟩
  · -- transfer `i` now has a height above the later transfer `j`
    intro hsorted
    have hle := List.pairwise_iff_getElem.mp hsorted i j (by simpa using hlen.trans' hij)
      (by simpa using hlen) hij
    simp only [List.getElem_map, hgeti, hgetj, hheight] at hle
    omega
  · -- the cut is at or before `i`, and the public key of `j` is no other transfer's
    have hcut : ((w₁.transfers.map (resetSpent h)).findIdx fun td => h ≤ td.blockHeight) ≤ i := by
      by_contra hlt
      have := List.not_of_lt_findIdx (Nat.lt_of_not_le hlt)
      simp [hgeti, hheight] at this
      omega
    rw [htransfers]
    intro hmem
    obtain ⟨td, htd, hkey⟩ := List.mem_map.mp hmem
    obtain ⟨k, hk, rfl⟩ := List.getElem_of_mem htd
    simp only [List.length_take, List.getElem_take, List.getElem_map, resetSpent_pubKey,
      List.length_map] at hk hkey
    rw [← hgetj] at hkey
    have := hw₁.pubKeys.index_eq (by omega) hlen rfl rfl hkey
    omega

/-- A wallet that received an output with public key `1` worth 5 at height 10 and one with
public key `2` worth 7 at height 20, with key images `101` and `102`. -/
def twoTransferWallet : Wallet2 ℕ ℕ :=
  ⟨[⟨10, 1, false, false, 0, 101, 5, true, false⟩, ⟨20, 2, false, false, 0, 102, 7, true, false⟩],
    [(2, 1), (1, 0)], [(102, 1), (101, 0)], false, false⟩

/-- The output with public key `1` comes again at height 30 with 9 units; a reorganisation to
height 25 then loses the output with public key `2`, received at height 20. -/
theorem detachBlockchain_after_reusedKey_drops_twoTransferWallet :
    ∃ w₁ w₂, twoTransferWallet.processOutput 30 ⟨1, 101, 9, 0⟩ = .ok w₁ ∧ ¬ w₁.HeightSorted ∧
      w₁.detachBlockchain 25 = .ok w₂ ∧ (2 : ℕ) ∉ w₂.transfers.map TransferDetails.pubKey :=
  detachBlockchain_after_reusedKey_drops
    (reachable_indexed (fun _ _ h => Nat.add_right_cancel h : Function.Injective fun p : ℕ => p + 100)
      (StateMachine.Reachable.tail
        (StateMachine.Reachable.tail
          (StateMachine.Reachable.of_init (⟨rfl, rfl, rfl⟩ : Fresh ⟨[], [], [], false, false⟩))
          (⟨.processNewTransaction 10 [⟨1, 101, 5, 0⟩] [], by simp [Call.ScansWith], rfl⟩ :
            StepWith _ _ ⟨[⟨10, 1, false, false, 0, 101, 5, true, false⟩], [(1, 0)], [(101, 0)],
              false, false⟩))
        ⟨.processNewTransaction 20 [⟨2, 102, 7, 0⟩] [], by simp [Call.ScansWith], rfl⟩)).1
    (i := 0) (j := 1) (h := 25) (by decide) (by decide) ⟨1, 101, 9, 0⟩ rfl rfl (by decide)
    (by decide) (by decide)

end Wallet2

end Tools

end Wazn
