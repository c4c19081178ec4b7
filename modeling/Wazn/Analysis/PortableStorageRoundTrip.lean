import Wazn.Analysis.PortableStorageReader

/-!
# `load_from_binary` reads back what `store_to_binary` writes

A root section that `store_to_binary` writes is read back by `load_from_binary` as it was, when
it is one the reader can take:

* its names are in the order of the map with no name twice (`std::map` keeps them so);
* its strings are shorter than `MAX_STRING_LEN_POSSIBLE`;
* each array of strings has at least as many bytes in its strings as strings: `read_ae` checks
  that what is left holds two bytes a string, and an empty string is written in one;
* its arrays of arrays are empty: `read(array_entry&)` throws on any element;
* its sections are nested at most seventeen deep: every reader counts against the recursion limit
  of 100, a section inside an entry takes three more and one in an array five;
* its counts of objects, fields and strings are within the limits given.

The proof is one mutual induction over sections, their pairs, entries and arrays
(`reads_readSection` and the four beside it): each writer's bytes are read by its reader, one
field after another through `Reads.bind`. The pairs of a section are read into the map in the
order they were written, each after the ones before it, so every insertion goes at the end.
-/

set_option autoImplicit false

namespace Wazn

namespace Serialization

open BinaryArchive Counters

/-! ## What the reader can take -/

mutual

/-- How deep sections nest under an entry. -/
def StorageEntry.depth : StorageEntry → ℕ
  | .pod _ _ => 0
  | .string _ => 0
  | .section s => s.depth + 1
  | .array a => a.depth

def ArrayEntry.depth : ArrayEntry → ℕ
  | .pods _ _ => 0
  | .strings _ => 0
  | .sections ss => sectionsDepth ss
  | .arrays _ => 0

def Section.depth : Section → ℕ
  | .mk entries => entriesDepth entries

def entriesDepth : List (List UInt8 × StorageEntry) → ℕ
  | [] => 0
  | (_, e) :: rest => max e.depth (entriesDepth rest)

def sectionsDepth : List Section → ℕ
  | [] => 0
  | s :: ss => max (s.depth + 1) (sectionsDepth ss)

end

mutual

/-- The objects, fields and strings the reader counts for an entry. -/
def StorageEntry.counts : StorageEntry → Counters
  | .pod _ _ => 0
  | .string _ => single .strings 1
  | .section s => single .objects 1 + s.counts
  | .array a => a.counts

def ArrayEntry.counts : ArrayEntry → Counters
  | .pods _ _ => 0
  | .strings ss => single .strings ss.length
  | .sections ss => single .objects ss.length + sectionsCounts ss
  | .arrays _ => 0

def Section.counts : Section → Counters
  | .mk entries => single .fields entries.length + entriesCounts entries

def entriesCounts : List (List UInt8 × StorageEntry) → Counters
  | [] => 0
  | (_, e) :: rest => e.counts + entriesCounts rest

def sectionsCounts : List Section → Counters
  | [] => 0
  | s :: ss => s.counts + sectionsCounts ss

end

mutual

/-- The entries the reader takes back: strings below `MAX_STRING_LEN_POSSIBLE`, arrays of
strings with as many bytes as strings, no array in an array, and sections whose names are in
the map's order. -/
def StorageEntry.wellFormed : StorageEntry → Bool
  | .pod _ _ => true
  | .string s => decide (s.length < maxStringLenPossible)
  | .section s => s.wellFormed
  | .array a => a.wellFormed

def ArrayEntry.wellFormed : ArrayEntry → Bool
  | .pods _ _ => true
  | .strings ss =>
    ss.all (fun s => decide (s.length < maxStringLenPossible)) &&
      decide (ss.length ≤ (ss.map List.length).sum)
  | .sections ss => sectionsWellFormed ss
  | .arrays as => as.isEmpty

def Section.wellFormed : Section → Bool
  | .mk entries => decide (OrderedSet.Sorted nameKey entries) && entriesWellFormed entries

def entriesWellFormed : List (List UInt8 × StorageEntry) → Bool
  | [] => true
  | (_, e) :: rest => e.wellFormed && entriesWellFormed rest

def sectionsWellFormed : List Section → Bool
  | [] => true
  | s :: ss => s.wellFormed && sectionsWellFormed ss

end

/-! ## The writer's bytes -/

theorem length_packVarint_pos {v : ℕ} {vb : List UInt8} (h : packVarint v = .ok vb) :
    0 < vb.length := by
  unfold packVarint at h
  split_ifs at h <;> cases h <;> simp [packVarintT, writeUint_length]

theorem length_packSection_pos {s : Section} {bs : List UInt8} (h : packSection s = .ok bs) :
    0 < bs.length := by
  cases s with
  | mk entries =>
  rw [packSection] at h
  obtain ⟨vb, hvb, h⟩ := ExceptLoop.bind_eq_ok.1 h
  obtain ⟨body, -, h⟩ := ExceptLoop.bind_eq_ok.1 h
  obtain rfl := (Except.ok.inj h).symm
  have := length_packVarint_pos hvb
  simp only [List.length_append]
  omega

/-- Each section of an array takes a byte at least, which `read_ae<section>` checks. -/
theorem length_packSections {body : List UInt8} :
    ∀ {ss : List Section}, packSections ss = .ok body → ss.length ≤ body.length
  | [], _ => by simp
  | s :: ss, h => by
    obtain ⟨hb, hhb, h⟩ := ExceptLoop.bind_eq_ok.1 h
    obtain ⟨tb, htb, h⟩ := ExceptLoop.bind_eq_ok.1 h
    obtain rfl := (Except.ok.inj h).symm
    have := length_packSection_pos hhb
    have := length_packSections htb
    simp only [List.length_cons, List.length_append]
    omega

/-- Each string of an array takes its length and a byte at least. -/
theorem length_packStrings {body : List UInt8} :
    ∀ {ss : List (List UInt8)}, packStrings ss = .ok body →
      ss.length + (ss.map List.length).sum ≤ body.length
  | [], _ => by simp
  | s :: ss, h => by
    obtain ⟨hb, hhb, h⟩ := ExceptLoop.bind_eq_ok.1 h
    obtain ⟨tb, htb, h⟩ := ExceptLoop.bind_eq_ok.1 h
    obtain rfl := (Except.ok.inj h).symm
    obtain ⟨vb, hvb, rfl⟩ := putString_eq_ok hhb
    have := length_packVarint_pos hvb
    have := length_packStrings htb
    simp only [List.length_cons, List.map_cons, List.sum_cons, List.length_append]
    omega

/-! ## Type codes -/

theorem PodType.code_and_flag (t : PodType) : t.code &&& serializeFlagArray = 0 := by
  cases t <;> decide

theorem podTypeOfCode_code (t : PodType) : podTypeOfCode t.code = some t := by
  cases t <;> rfl

theorem PodType.code_or_flag_and_not (t : PodType) :
    (t.code ||| serializeFlagArray) &&& ~~~serializeFlagArray = t.code := by
  cases t <;> decide

/-- The first byte `pack_entry_to_buff` writes of an array carries the array flag. -/
theorem packArray_eq_ok {a : ArrayEntry} {bs : List UInt8} (h : packArray a = .ok bs) :
    ∃ b tl, bs = b :: tl ∧ b &&& serializeFlagArray ≠ 0 := by
  cases a with
  | pods t vs =>
    obtain ⟨n, -, h⟩ := ExceptLoop.bind_eq_ok.1 h
    obtain rfl := (Except.ok.inj h).symm
    exact ⟨_, _, rfl, by cases t <;> decide⟩
  | strings ss =>
    obtain ⟨n, -, h⟩ := ExceptLoop.bind_eq_ok.1 h
    obtain ⟨body, -, h⟩ := ExceptLoop.bind_eq_ok.1 h
    obtain rfl := (Except.ok.inj h).symm
    exact ⟨_, _, rfl, by decide⟩
  | sections ss =>
    obtain ⟨n, -, h⟩ := ExceptLoop.bind_eq_ok.1 h
    obtain ⟨body, -, h⟩ := ExceptLoop.bind_eq_ok.1 h
    obtain rfl := (Except.ok.inj h).symm
    exact ⟨_, _, rfl, by decide⟩
  | arrays as =>
    obtain ⟨n, -, h⟩ := ExceptLoop.bind_eq_ok.1 h
    obtain ⟨body, -, h⟩ := ExceptLoop.bind_eq_ok.1 h
    obtain rfl := (Except.ok.inj h).symm
    exact ⟨_, _, rfl, by decide⟩

/-- The type code read as a byte. -/
theorem head_singleton (b : UInt8) :
    List.Vector.head (⟨[b], rfl⟩ : List.Vector UInt8 PodType.uint8.size) = b :=
  rfl

/-- A name whose key is above those of the names read before it is not among them. -/
theorem any_name_eq_false {acc : List (List UInt8 × StorageEntry)} {name : List UInt8}
    (h : ∀ y ∈ acc, nameKey y < name.map UInt8.toNat) : (acc.any fun y => y.1 == name) = false := by
  rw [List.any_eq_false]
  intro y hy heq
  have hlt := h y hy
  rw [beq_iff_eq] at heq
  rw [nameKey, heq] at hlt
  exact lt_irrefl _ hlt

/-! ## Reading back -/

section RoundTrip

variable {lim : Counters}

/-- The strings of an array, each read by `read<std::string>()`. -/
theorem reads_readStrings {rc : ℕ} (h : rc + 6 < epeePortableStorageRecursionLimitInternal) :
    ∀ {ss : List (List UInt8)} {body : List UInt8}, packStrings ss = .ok body →
      (∀ s ∈ ss, s.length < maxStringLenPossible) →
      Reads lim (readN (readTString rc) ss.length) body ss 0
  | [], _, hpack, _ => by
    cases hpack
    exact Reads.pure' []
  | s :: ss, _, hpack, hlen => by
    obtain ⟨hb, hhb, h'⟩ := ExceptLoop.bind_eq_ok.1 hpack
    obtain ⟨tb, htb, h'⟩ := ExceptLoop.bind_eq_ok.1 h'
    obtain rfl := (Except.ok.inj h').symm
    have hs := @reads_readTString lim rc h s hb hhb (hlen s List.mem_cons_self)
    have hss := reads_readStrings h htb fun x hx => hlen x (List.mem_cons_of_mem s hx)
    rw [List.length_cons, readN]
    exact Reads.bind_eq hs (Reads.bind_eq hss (Reads.pure' _) (List.append_nil _) (add_zero 0))
      rfl (add_zero 0)

mutual

/-- `read(section&)` reads back a section `pack_entry_to_buff` wrote. -/
theorem reads_readSection :
    ∀ (s : Section) (rc : ℕ) {bs : List UInt8}, packSection s = .ok bs → s.wellFormed = true →
      rc + 5 * s.depth + 11 ≤ epeePortableStorageRecursionLimitInternal →
      Reads lim (readSection lim rc) bs s s.counts
  | .mk entries, rc, bs, hpack, hwf, hrc => by
    rw [packSection] at hpack
    obtain ⟨vb, hvb, h⟩ := ExceptLoop.bind_eq_ok.1 hpack
    obtain ⟨body, hbody, h⟩ := ExceptLoop.bind_eq_ok.1 h
    obtain rfl := (Except.ok.inj h).symm
    rw [Section.wellFormed, Bool.and_eq_true, decide_eq_true_eq] at hwf
    rw [Section.depth] at hrc
    have hfields := reads_readFields entries [] (rc + 1) hbody hwf.2 hwf.1 (by omega)
    rw [readSection, dif_pos (by omega), Section.counts]
    refine Reads.bind_eq (reads_readVarint (by omega) hvb) ?_ rfl (zero_add _)
    exact Reads.bind_eq (reads_countFields _)
      (Reads.bind_eq hfields (Reads.pure' _) (List.append_nil _) (add_zero _)) rfl rfl

/-- The loop of `read(section&)` reads back the pairs, each into the map after those before it. -/
theorem reads_readFields :
    ∀ (entries acc : List (List UInt8 × StorageEntry)) (rc : ℕ) {bs : List UInt8},
      packEntries entries = .ok bs → entriesWellFormed entries = true →
      OrderedSet.Sorted nameKey (acc ++ entries) →
      rc + 5 * entriesDepth entries + 10 ≤ epeePortableStorageRecursionLimitInternal →
      Reads lim (readFields lim rc entries.length acc) bs (acc ++ entries) (entriesCounts entries)
  | [], acc, rc, bs, hpack, _, _, _ => by
    rw [packEntries] at hpack
    cases hpack
    rw [List.length_nil, readFields, List.append_nil, entriesCounts]
    exact Reads.pure' acc
  | (name, e) :: rest, acc, rc, bs, hpack, hwf, hsorted, hrc => by
    rw [packEntries] at hpack
    obtain ⟨nb, hnb, h⟩ := ExceptLoop.bind_eq_ok.1 hpack
    obtain ⟨eb, heb, h⟩ := ExceptLoop.bind_eq_ok.1 h
    obtain ⟨tb, htb, h⟩ := ExceptLoop.bind_eq_ok.1 h
    obtain rfl := (Except.ok.inj h).symm
    rw [entriesWellFormed, Bool.and_eq_true] at hwf
    rw [entriesDepth] at hrc
    -- the names read before this one have smaller keys: it is new, and goes in at the end
    have hlt : ∀ y ∈ acc, nameKey y < nameKey (name, e) :=
      fun y hy => (List.pairwise_append.1 hsorted).2.2 y hy (name, e) List.mem_cons_self
    have hsorted' : OrderedSet.Sorted nameKey ((acc ++ [(name, e)]) ++ rest) := by
      rwa [List.append_assoc, List.singleton_append]
    have he := reads_loadStorageEntry e rc heb hwf.1 (by omega)
    have hrest := reads_readFields rest (acc ++ [(name, e)]) rc htb hwf.2 hsorted' (by omega)
    rw [List.length_cons, readFields, entriesCounts]
    refine Reads.bind_eq (reads_readSecName (by omega) hnb) ?_ (List.append_assoc _ _ _).symm
      (zero_add _)
    simp only [any_name_eq_false hlt, Bool.false_eq_true, if_false]
    refine Reads.bind_eq he ?_ rfl rfl
    rw [OrderedSet.insert_of_forall_lt hlt]
    exact Reads.congr hrest rfl (by simp) rfl

/-- `load_storage_entry` reads back an entry `pack_entry_to_buff` wrote. -/
theorem reads_loadStorageEntry :
    ∀ (e : StorageEntry) (rc : ℕ) {bs : List UInt8}, packEntry e = .ok bs →
      e.wellFormed = true → rc + 5 * e.depth + 10 ≤ epeePortableStorageRecursionLimitInternal →
      Reads lim (loadStorageEntry lim rc) bs e e.counts
  | .pod t v, rc, bs, hpack, _, hrc => by
    rw [packEntry] at hpack
    cases hpack
    rw [loadStorageEntry, dif_pos (by omega), StorageEntry.counts]
    refine Reads.bind_eq (reads_readPod (by omega) ⟨[t.code], rfl⟩) ?_ rfl (zero_add _)
    simp only [head_singleton, PodType.code_and_flag, ne_eq, not_true_eq_false, if_false,
      podTypeOfCode_code]
    exact reads_readSePod (by omega) v
  | .string str, rc, bs, hpack, hwf, hrc => by
    rw [packEntry] at hpack
    obtain ⟨body, hbody, h⟩ := ExceptLoop.bind_eq_ok.1 hpack
    obtain rfl := (Except.ok.inj h).symm
    rw [StorageEntry.wellFormed, decide_eq_true_eq] at hwf
    rw [loadStorageEntry, dif_pos (by omega), StorageEntry.counts]
    refine Reads.bind_eq (reads_readPod (by omega) ⟨[serializeTypeString], rfl⟩) ?_ rfl (zero_add _)
    simp only [head_singleton]
    exact reads_readSeString (by omega) hbody hwf
  | .section s, rc, bs, hpack, hwf, hrc => by
    rw [packEntry] at hpack
    obtain ⟨body, hbody, h⟩ := ExceptLoop.bind_eq_ok.1 hpack
    obtain rfl := (Except.ok.inj h).symm
    rw [StorageEntry.wellFormed] at hwf
    rw [StorageEntry.depth] at hrc
    have hs := reads_readSection s (rc + 1 + 1) hbody hwf (by omega)
    rw [loadStorageEntry, dif_pos (by omega), StorageEntry.counts]
    refine Reads.bind_eq (reads_readPod (by omega) ⟨[serializeTypeObject], rfl⟩) ?_ rfl (zero_add _)
    simp only [head_singleton]
    rw [readSeSection, dif_pos (by omega), countSeSection_eq]
    exact Reads.bind_eq (reads_countObjects 1)
      (Reads.bind_eq hs (Reads.pure' _) (List.append_nil _) (add_zero _)) rfl rfl
  | .array a, rc, bs, hpack, hwf, hrc => by
    rw [packEntry] at hpack
    obtain ⟨b, tl, rfl, hflag⟩ := packArray_eq_ok hpack
    rw [StorageEntry.wellFormed] at hwf
    rw [StorageEntry.depth] at hrc
    have ha := reads_loadStorageArrayEntry a (rc + 1) hpack hwf (by omega)
    rw [loadStorageEntry, dif_pos (by omega), StorageEntry.counts]
    refine Reads.bind_eq (reads_readPod (by omega) ⟨[b], rfl⟩) ?_ rfl (zero_add _)
    simp only [head_singleton, ne_eq, hflag, not_false_eq_true, if_true]
    exact Reads.bind_eq ha (Reads.pure' _) (List.append_nil _) (add_zero _)

/-- `load_storage_array_entry` reads back, after its type code, an array `pack_entry_to_buff`
wrote. -/
theorem reads_loadStorageArrayEntry :
    ∀ (a : ArrayEntry) (rc : ℕ) {b : UInt8} {bs : List UInt8}, packArray a = .ok (b :: bs) →
      a.wellFormed = true → rc + 5 * a.depth + 9 ≤ epeePortableStorageRecursionLimitInternal →
      Reads lim (loadStorageArrayEntry lim rc b) bs a a.counts
  | .pods t vs, rc, b, bs, hpack, _, hrc => by
    rw [packArray, packPodArrayType] at hpack
    obtain ⟨vb, hvb, h⟩ := ExceptLoop.bind_eq_ok.1 hpack
    obtain ⟨rfl, rfl⟩ := List.cons_eq_cons.1 (Except.ok.inj h).symm
    have helems : Reads lim (readN (readTPod (rc + 2) t) vs.length) (vs.flatMap List.Vector.toList)
        vs 0 :=
      Reads.congr (Reads.readN vs fun v _ => reads_readTPod (by omega) v) rfl (List.map_id' vs)
        (by simp)
    have hae : Reads lim (readAe (rc + 1) t.size (fun _ => pure ()) (readTPod (rc + 2) t))
        (vb ++ vs.flatMap List.Vector.toList) vs (0 + 0) :=
      reads_readAe (by omega) hvb t.size_pos (by simp [List.length_flatMap]) (Reads.pure' ()) helems
    rw [loadStorageArrayEntry, dif_pos (by omega)]
    simp only [PodType.code_or_flag_and_not, podTypeOfCode_code, ArrayEntry.counts]
    exact Reads.congr (Reads.map (ArrayEntry.pods t) hae) rfl (by simp) (by simp)
  | .strings ss, rc, b, bs, hpack, hwf, hrc => by
    rw [packArray] at hpack
    obtain ⟨vb, hvb, h⟩ := ExceptLoop.bind_eq_ok.1 hpack
    obtain ⟨body, hbody, h⟩ := ExceptLoop.bind_eq_ok.1 h
    obtain ⟨rfl, rfl⟩ := List.cons_eq_cons.1 (Except.ok.inj h).symm
    rw [ArrayEntry.wellFormed, Bool.and_eq_true, List.all_eq_true, decide_eq_true_eq] at hwf
    -- `read_ae` asks for two bytes a string: the length's byte and one of the strings' bytes
    have hlen := length_packStrings hbody
    have hstrs : Reads lim (readN (readTString (rc + 2)) ss.length) body ss 0 :=
      reads_readStrings (by omega) hbody fun s hs => by simpa using hwf.1 s hs
    have hae : Reads lim (readAe (rc + 1) 2 (countStrings lim) (readTString (rc + 2))) (vb ++ body) ss
        (single .strings ss.length + 0) :=
      reads_readAe (by omega) hvb (by norm_num) (by omega) (reads_countStrings _) hstrs
    rw [loadStorageArrayEntry, dif_pos (by omega)]
    simp only [ArrayEntry.counts]
    exact Reads.congr (Reads.map ArrayEntry.strings hae) rfl rfl (add_zero _)
  | .sections ss, rc, b, bs, hpack, hwf, hrc => by
    rw [packArray] at hpack
    obtain ⟨vb, hvb, h⟩ := ExceptLoop.bind_eq_ok.1 hpack
    obtain ⟨body, hbody, h⟩ := ExceptLoop.bind_eq_ok.1 h
    obtain ⟨rfl, rfl⟩ := List.cons_eq_cons.1 (Except.ok.inj h).symm
    rw [ArrayEntry.wellFormed] at hwf
    rw [ArrayEntry.depth] at hrc
    have hlen := length_packSections hbody
    have hsecs := reads_readSections ss (rc + 2) hbody hwf (by omega)
    have hae : Reads lim (readAe (rc + 1) 1 (countObjects lim) (readTSection lim (rc + 2)))
        (vb ++ body) ss (single .objects ss.length + sectionsCounts ss) :=
      reads_readAe (by omega) hvb (by norm_num) (by omega) (reads_countObjects _) hsecs
    rw [loadStorageArrayEntry, dif_pos (by omega)]
    simp only [ArrayEntry.counts]
    exact Reads.map ArrayEntry.sections hae
  | .arrays as, rc, b, bs, hpack, hwf, hrc => by
    rw [ArrayEntry.wellFormed, List.isEmpty_iff] at hwf
    subst hwf
    rw [packArray] at hpack
    obtain ⟨vb, hvb, h⟩ := ExceptLoop.bind_eq_ok.1 hpack
    obtain ⟨body, hbody, h⟩ := ExceptLoop.bind_eq_ok.1 h
    rw [packArrays] at hbody
    cases hbody
    obtain ⟨rfl, rfl⟩ := List.cons_eq_cons.1 (Except.ok.inj h).symm
    have hae : Reads lim (readAe (rc + 1) 1 (fun _ => pure ()) (readTArray (rc + 2))) (vb ++ [])
        ([] : List ArrayEntry) (0 + 0) :=
      reads_readAe (by omega) hvb (by norm_num) (by simp) (Reads.pure' ()) (Reads.pure' [])
    rw [loadStorageArrayEntry, dif_pos (by omega)]
    simp only [ArrayEntry.counts]
    exact Reads.congr (Reads.map ArrayEntry.arrays hae) rfl rfl (add_zero _)

/-- `read_ae<section>`'s loop reads back the sections of an array. -/
theorem reads_readSections :
    ∀ (ss : List Section) (rc : ℕ) {bs : List UInt8}, packSections ss = .ok bs →
      sectionsWellFormed ss = true →
      rc + 5 * sectionsDepth ss + 7 ≤ epeePortableStorageRecursionLimitInternal →
      Reads lim (readN (readTSection lim rc) ss.length) bs ss (sectionsCounts ss)
  | [], rc, bs, hpack, _, _ => by
    rw [packSections] at hpack
    cases hpack
    exact Reads.pure' []
  | s :: ss, rc, bs, hpack, hwf, hrc => by
    rw [packSections] at hpack
    obtain ⟨hb, hhb, h⟩ := ExceptLoop.bind_eq_ok.1 hpack
    obtain ⟨tb, htb, h⟩ := ExceptLoop.bind_eq_ok.1 h
    obtain rfl := (Except.ok.inj h).symm
    rw [sectionsWellFormed, Bool.and_eq_true] at hwf
    rw [sectionsDepth] at hrc
    have hs : Reads lim (readTSection lim rc) hb s s.counts := by
      rw [readTSection, dif_pos (by omega)]
      exact reads_readSection s (rc + 1) hhb hwf.1 (by omega)
    have hss := reads_readSections ss rc htb hwf.2 (by omega)
    rw [List.length_cons, readN, sectionsCounts]
    exact Reads.bind_eq hs (Reads.bind_eq hss (Reads.pure' _) (List.append_nil _) (add_zero _))
      rfl rfl

end

end RoundTrip

/-! ## The header and the root -/

/-- What `store_to_binary` writes: the header, then the root section. -/
theorem storeToBinary_eq_some {root : Section} {bytes : List UInt8}
    (h : storeToBinary root = some bytes) :
    ∃ body, packSection root = .ok body ∧ bytes = storageBlockHeader ++ body := by
  unfold storeToBinary at h
  cases hp : packSection root with
  | error e => simp [hp, Except.toOption] at h
  | ok body =>
    simp only [hp, Except.toOption, Option.map_some, Option.some.injEq] at h
    exact ⟨body, rfl, h.symm⟩

theorem length_storageBlockHeader : storageBlockHeader.length = 9 := rfl

/-- `load_from_binary` reads back the root section `store_to_binary` wrote, when its strings,
arrays, nesting and counts are ones the reader takes. -/
theorem loadFromBinary_storeToBinary {root : Section} {bytes : List UInt8}
    {limits : Option Counters} (hstore : storeToBinary root = some bytes)
    (hwf : root.wellFormed = true)
    (hdepth : 5 * root.depth + 11 ≤ epeePortableStorageRecursionLimitInternal)
    (hlim : root.counts.Within (limits.getD sizeMaxLimits)) :
    loadFromBinary bytes limits = some root := by
  obtain ⟨body, hbody, rfl⟩ := storeToBinary_eq_some hstore
  have hpos := length_packSection_pos hbody
  -- the reader starts with no counts
  have hrun := @reads_readSection (limits.getD sizeMaxLimits) root 0 _ hbody hwf (by omega)
    ⟨0, 0, 0⟩ [] (by simpa [Counters.Within] using hlim)
  rw [List.append_nil] at hrun
  -- the header's checks pass, and the reader starts on the root's bytes
  have hlen : ¬ (storageBlockHeader ++ body).length < 9 := by
    rw [List.length_append, length_storageBlockHeader]
    omega
  have htake : (storageBlockHeader ++ body).take 8 = storageBlockHeader.take 8 :=
    List.take_append_of_le_length (by decide)
  have hver : (storageBlockHeader ++ body)[8]? = some portableStorageFormatVer := by
    rw [List.getElem?_append_left (by decide)]
    rfl
  have hleft : (storageBlockHeader ++ body).length - 9 ≠ 0 := by
    rw [List.length_append, length_storageBlockHeader]
    omega
  have hdrop : (storageBlockHeader ++ body).drop 9 = body := List.drop_left' length_storageBlockHeader
  simp only [loadFromBinary, hlen, htake, hver, hleft, hdrop, if_false, ne_eq, not_true_eq_false]
  rw [hrun]

theorem loadFromBinary_storeToBinary_nested :
    storeToBinary (.mk [([97], .pod .uint8 ⟨[5], rfl⟩),
        ([98], .section (.mk [([99], .string [104, 105]), ([100], .array (.strings [[1], [2, 3]]))]))]) =
      some [1, 17, 1, 1, 1, 1, 2, 1, 1, 8, 1, 97, 8, 5, 1, 98, 12, 8, 1, 99, 10, 8, 104, 105, 1, 100,
        138, 8, 4, 1, 8, 2, 3] ∧
    loadFromBinary [1, 17, 1, 1, 1, 1, 2, 1, 1, 8, 1, 97, 8, 5, 1, 98, 12, 8, 1, 99, 10, 8, 104, 105,
        1, 100, 138, 8, 4, 1, 8, 2, 3] none =
      some (.mk [([97], .pod .uint8 ⟨[5], rfl⟩),
        ([98], .section (.mk [([99], .string [104, 105]), ([100], .array (.strings [[1], [2, 3]]))]))]) :=
  ⟨rfl, loadFromBinary_storeToBinary rfl (by decide) (by decide)
    (by unfold Counters.Within; decide)⟩

end Serialization

end Wazn
