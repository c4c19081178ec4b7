import Wazn.Model.PortableStorage
import Wazn.Analysis.BinaryArchiveCodec
import Wazn.Library.ExceptLoop

/-!
# What each reader of `portable_storage_from_bin.h` reads

`Reads lim r ts a k` says that the reader `r` reads exactly the bytes `ts`, whatever follows them,
returns `a`, and raises the reader's counts by `k`, from any counts that stay within the limits
`lim` once raised. The readers throw on their own checks, so a lemma here says which checks the
bytes a writer emits get past:

* the recursion guard, as a bound on the count each reader is called at;
* the bytes left, which the bytes read and whatever follows them always cover;
* the limits on the counts, which `Reads` asks of the counts it ends at.

`Reads` composes along `bind` with the bytes concatenated and the counts added, so that the round
trip of a section is proved one field at a time. Here are the readers below a section: bytes,
scalars, names, `pack_varint`'s counts and lengths, strings, and `read_ae` over any element.
-/

set_option autoImplicit false

namespace Wazn

namespace Serialization

open BinaryArchive

/-! ## The counts as a monoid -/

attribute [ext] Counters

namespace Counters

instance : Add Counters :=
  ⟨fun a b => ⟨a.objects + b.objects, a.fields + b.fields, a.strings + b.strings⟩⟩

instance : Zero Counters := ⟨⟨0, 0, 0⟩⟩

@[simp] theorem add_objects (a b : Counters) : (a + b).objects = a.objects + b.objects := rfl
@[simp] theorem add_fields (a b : Counters) : (a + b).fields = a.fields + b.fields := rfl
@[simp] theorem add_strings (a b : Counters) : (a + b).strings = a.strings + b.strings := rfl
@[simp] theorem zero_objects : (0 : Counters).objects = 0 := rfl
@[simp] theorem zero_fields : (0 : Counters).fields = 0 := rfl
@[simp] theorem zero_strings : (0 : Counters).strings = 0 := rfl

instance : AddCommMonoid Counters where
  add_assoc a b c := by ext <;> simp [Nat.add_assoc]
  zero_add a := by ext <;> simp
  add_zero a := by ext <;> simp
  add_comm a b := by ext <;> simp [Nat.add_comm]
  nsmul := nsmulRec

/-- The counts `c` are within the limits `lim`. -/
def Within (c lim : Counters) : Prop :=
  c.objects ≤ lim.objects ∧ c.fields ≤ lim.fields ∧ c.strings ≤ lim.strings

/-- Counts within the limits were within them before they were raised. -/
theorem Within.of_add {c k lim : Counters} (h : (c + k).Within lim) : c.Within lim := by
  obtain ⟨ho, hf, hs⟩ := h
  simp only [add_objects, add_fields, add_strings] at ho hf hs
  exact ⟨by omega, by omega, by omega⟩

/-- One count of `n` and the others none. -/
def single (which : Counted) (n : ℕ) : Counters := (0 : Counters).bump which n

theorem bump_eq_add (c : Counters) (which : Counted) (n : ℕ) :
    c.bump which n = c + single which n := by
  cases which <;> ext <;> simp [bump, single]

@[simp] theorem get_add (a b : Counters) (which : Counted) :
    (a + b).get which = a.get which + b.get which := by
  cases which <;> rfl

@[simp] theorem get_single_self (which : Counted) (n : ℕ) : (single which n).get which = n := by
  cases which <;> simp [single, bump, get]

theorem Within.get_le {c lim : Counters} (h : c.Within lim) (which : Counted) :
    c.get which ≤ lim.get which := by
  obtain ⟨ho, hf, hs⟩ := h
  cases which
  · exact ho
  · exact hf
  · exact hs

end Counters

open Counters

/-! ## Reads -/

/-- `r` reads exactly `ts`, whatever follows them, returns `a` and raises the counts by `k`, from
any counts that stay within `lim` once raised. -/
def Reads {α : Type} (lim : Counters) (r : ReadM α) (ts : List UInt8) (a : α) (k : Counters) :
    Prop :=
  ∀ c rest, (c + k).Within lim → r.run ⟨ts ++ rest, c⟩ = .ok (a, ⟨rest, c + k⟩)

namespace Reads

variable {lim : Counters} {α β : Type}

theorem pure' (a : α) : Reads lim (pure a) [] a 0 := by
  intro c rest _
  rw [add_zero]
  rfl

theorem bind {r : ReadM α} {f : α → ReadM β} {ts us : List UInt8} {a : α} {b : β}
    {k k' : Counters} (hr : Reads lim r ts a k) (hf : Reads lim (f a) us b k') :
    Reads lim (r >>= f) (ts ++ us) b (k + k') := by
  intro c rest hw
  rw [← add_assoc] at hw ⊢
  rw [List.append_assoc, StateT.run_bind, hr c (us ++ rest) hw.of_add]
  exact hf (c + k) rest hw

/-- `bind` with the bytes and the counts of the whole given as they are to be compared. -/
theorem bind_eq {r : ReadM α} {f : α → ReadM β} {ts us vs : List UInt8} {a : α} {b : β}
    {k k' K : Counters} (hr : Reads lim r ts a k) (hf : Reads lim (f a) us b k')
    (hts : ts ++ us = vs) (hk : k + k' = K) : Reads lim (r >>= f) vs b K :=
  hts ▸ hk ▸ bind hr hf

/-- A step that reads nothing and counts nothing, such as a check that passes. -/
theorem andThen {r : ReadM Unit} {f : Unit → ReadM β} {ts : List UInt8} {b : β} {k : Counters}
    (hr : Reads lim r [] () 0) (hf : Reads lim (f ()) ts b k) : Reads lim (r >>= f) ts b k := by
  have h := bind hr hf
  rwa [List.nil_append, zero_add] at h

theorem map {r : ReadM α} {ts : List UInt8} {a : α} {k : Counters} (f : α → β)
    (hr : Reads lim r ts a k) : Reads lim (f <$> r) ts (f a) k := by
  intro c rest hw
  rw [StateT.run_map, hr c rest hw]
  rfl

theorem congr {r : ReadM α} {ts us : List UInt8} {a b : α} {k k' : Counters}
    (hr : Reads lim r ts a k) (hts : ts = us) (hab : a = b) (hk : k = k') : Reads lim r us b k' :=
  hts ▸ hab ▸ hk ▸ hr

/-- A reader run once for each item of a list reads the items' bytes in turn. -/
theorem readN {r : ReadM β} {w : α → List UInt8} {g : α → β} {k : α → Counters} :
    ∀ xs : List α, (∀ x ∈ xs, Reads lim r (w x) (g x) (k x)) →
      Reads lim (Serialization.readN r xs.length) (xs.flatMap w) (xs.map g) (xs.map k).sum
  | [], _ => pure' []
  | x :: xs, h => by
    have hx := h x List.mem_cons_self
    have hxs := readN xs fun y hy => h y (List.mem_cons_of_mem x hy)
    rw [List.length_cons, Serialization.readN]
    refine congr (bind hx (bind hxs (pure' _))) ?_ rfl ?_
    · simp
    · simp

end Reads

/-! ## Bytes and scalars -/

section Leaves

variable {lim : Counters}

theorem PodType.size_pos (t : PodType) : 0 < t.size := by
  cases t <;> decide

theorem reads_recursionLimitation {rc : ℕ} (h : rc + 1 < epeePortableStorageRecursionLimitInternal) :
    Reads lim (recursionLimitation rc) [] () 0 := by
  rw [recursionLimitation, if_pos h]
  exact Reads.pure' ()

theorem reads_readBytes {rc n : ℕ} (h : rc + 1 < epeePortableStorageRecursionLimitInternal)
    (v : List.Vector UInt8 n) : Reads lim (readBytes rc n) v.toList v 0 := by
  intro c rest _
  have hn : n ≤ (v.toList ++ rest).length := by simp
  simp only [readBytes, recursionLimitation, if_pos h, StateT.run_bind, StateT.run_get, pure_bind,
    dif_pos hn, StateT.run_set, add_zero, List.drop_left' v.toList_length]
  exact congrArg (fun w => Except.ok (w, _)) (List.Vector.eq _ _ (List.take_left' v.toList_length))

theorem reads_readPod {rc : ℕ} (h : rc + 2 < epeePortableStorageRecursionLimitInternal)
    {t : PodType} (v : List.Vector UInt8 t.size) : Reads lim (readPod rc t) v.toList v 0 := by
  rw [readPod]
  exact Reads.andThen (reads_recursionLimitation (by omega)) (reads_readBytes (by omega) v)

theorem reads_readTPod {rc : ℕ} (h : rc + 3 < epeePortableStorageRecursionLimitInternal)
    {t : PodType} (v : List.Vector UInt8 t.size) : Reads lim (readTPod rc t) v.toList v 0 := by
  rw [readTPod]
  exact Reads.andThen (reads_recursionLimitation (by omega)) (reads_readPod (by omega) v)

/-- The value of a scalar written little-endian in its own width. -/
theorem podValue_writeUint {t : PodType} {x : ℕ} (hx : x < 256 ^ t.size) :
    podValue (⟨writeUint t.size x, writeUint_length _ _⟩ : List.Vector UInt8 t.size) = x := by
  unfold podValue
  rw [List.Vector.toList_mk, ofDigits_writeUint, Nat.mod_eq_of_lt hx]

/-! ## Names -/

/-- What `pack_entry_to_buff` writes of a name it accepts. -/
theorem packName_eq_ok {name bs : List UInt8} (h : packName name = .ok bs) :
    0 < name.length ∧ name.length < 255 ∧ bs = name.length.toUInt8 :: name := by
  unfold packName at h
  split_ifs at h with hlong hempty
  cases h
  refine ⟨?_, by omega, rfl⟩
  cases name with
  | nil => exact absurd rfl hempty
  | cons _ _ => simp

theorem reads_readSecName {rc : ℕ} (h : rc + 3 < epeePortableStorageRecursionLimitInternal)
    {name bs : List UInt8} (hpack : packName name = .ok bs) : Reads lim (readSecName rc) bs name 0 := by
  obtain ⟨hpos, hlt, rfl⟩ := packName_eq_ok hpack
  let len : List.Vector UInt8 PodType.uint8.size := ⟨[name.length.toUInt8], rfl⟩
  have hlen : podValue len = name.length := by
    simp [len, podValue, Nat.mod_eq_of_lt (show name.length < 256 by omega)]
  rw [readSecName]
  refine Reads.andThen (reads_recursionLimitation (by omega))
    (Reads.congr (Reads.bind (reads_readPod (by omega) len) ?_) rfl rfl (zero_add 0))
  simp only [hlen, gt_iff_lt, hpos, not_true_eq_false, if_false]
  -- the count read is the name's length, so the vector read has the length of the count
  let v : List.Vector UInt8 (podValue len) := ⟨name, hlen.symm⟩
  exact Reads.congr (Reads.bind (a := v) (reads_readBytes (show rc + 1 + 1 < epeePortableStorageRecursionLimitInternal by omega) v) (Reads.pure' name))
    (List.append_nil _) rfl (add_zero 0)

/-! ## Counts and lengths -/

/-- The scalar type `read_varint` reads at each size mark. -/
def markType : ℕ → PodType
  | 0 => .uint8
  | 1 => .uint16
  | 2 => .uint32
  | _ => .uint64

/-- `read_varint` reads the scalar its first byte's size mark names. -/
theorem run_readVarint {rc m : ℕ} (h : rc + 1 < epeePortableStorageRecursionLimitInternal)
    {s : BufferReader} {b : UInt8} {tl : List UInt8} (hs : s.bytes = b :: tl)
    (hb : (b &&& 0x03).toNat = m) (hm : m < 4) :
    (readVarint rc).run s =
      ((fun v => podValue v >>> 2) <$> readTPod (rc + 1) (markType m)).run s := by
  have hb' : b.toNat &&& 3 = m := by rw [← hb, UInt8.toNat_and]; rfl
  obtain rfl | rfl | rfl | rfl : m = 0 ∨ m = 1 ∨ m = 2 ∨ m = 3 := by omega
  all_goals simp [readVarint, recursionLimitation, h, hs, hb']; rfl

/-- The size mark of a first byte is the low two bits of what it was cut from. -/
theorem toNat_ofNat_and_three (x : ℕ) : (UInt8.ofNat x &&& 0x03).toNat = x % 4 := by
  rw [UInt8.toNat_and, UInt8.toNat_ofNat']
  have h := Nat.and_two_pow_sub_one_eq_mod (x % 256) 2
  rw [show (0x03 : UInt8).toNat = 2 ^ 2 - 1 from rfl, h]
  omega

theorem reads_readVarint_mark {rc m v : ℕ} (h : rc + 4 < epeePortableStorageRecursionLimitInternal)
    (hm : m < 4) (hv : 4 * v + m < 256 ^ (markType m).size) :
    Reads lim (readVarint rc) (packVarintT (markType m).size m v) v 0 := by
  intro c rest hw
  have hor : v <<< 2 ||| m = 4 * v + m := by
    rw [← Nat.shiftLeft_add_eq_or_of_lt (by omega : m < 2 ^ 2), Nat.shiftLeft_eq]
    ring
  obtain ⟨n, hn⟩ := Nat.exists_eq_succ_of_ne_zero (markType m).size_pos.ne'
  have hbytes : (⟨writeUint (markType m).size (4 * v + m) ++ rest, c⟩ : BufferReader).bytes =
      UInt8.ofNat (4 * v + m) :: (writeUint n ((4 * v + m) / 256) ++ rest) := by
    rw [hn]
    rfl
  have hmask : (UInt8.ofNat (4 * v + m) &&& 0x03).toNat = m := by
    rw [toNat_ofNat_and_three]
    omega
  have hread := (@reads_readTPod lim (rc + 1) (by omega) (markType m)
    ⟨writeUint (markType m).size (4 * v + m), writeUint_length _ _⟩).map (fun v => podValue v >>> 2)
  have hval : podValue (⟨writeUint (markType m).size (4 * v + m), writeUint_length _ _⟩ :
      List.Vector UInt8 (markType m).size) >>> 2 = v := by
    rw [podValue_writeUint hv, Nat.shiftRight_eq_div_pow]
    omega
  rw [hval] at hread
  rw [packVarintT, hor, run_readVarint (by omega) hbytes hmask hm]
  exact hread c rest hw

/-- `read_varint` reads back what `pack_varint` writes. -/
theorem reads_readVarint {rc v : ℕ} (h : rc + 4 < epeePortableStorageRecursionLimitInternal)
    {bs : List UInt8} (hpack : packVarint v = .ok bs) : Reads lim (readVarint rc) bs v 0 := by
  unfold packVarint at hpack
  split_ifs at hpack with h1 h2 h3 h4 <;> cases hpack
  · exact reads_readVarint_mark (m := 0) h (by omega) (by simp [markType, PodType.size]; omega)
  · exact reads_readVarint_mark (m := 1) h (by omega) (by simp [markType, PodType.size]; omega)
  · exact reads_readVarint_mark (m := 2) h (by omega) (by simp [markType, PodType.size]; omega)
  · exact reads_readVarint_mark (m := 3) h (by omega) (by simp [markType, PodType.size]; omega)

/-- What `put_string` writes: the length as `pack_varint` writes it, and the bytes. -/
theorem putString_eq_ok {str bs : List UInt8} (h : putString str = .ok bs) :
    ∃ vb, packVarint str.length = .ok vb ∧ bs = vb ++ str := by
  obtain ⟨vb, hvb, h⟩ := ExceptLoop.bind_eq_ok.1 h
  exact ⟨vb, hvb, (Except.ok.inj h).symm⟩

theorem reads_readString {rc : ℕ} (h : rc + 5 < epeePortableStorageRecursionLimitInternal)
    {str bs : List UInt8} (hpack : putString str = .ok bs) (hlen : str.length < maxStringLenPossible) :
    Reads lim (readString rc) bs str 0 := by
  obtain ⟨vb, hvb, rfl⟩ := putString_eq_ok hpack
  rw [readString]
  refine Reads.andThen (reads_recursionLimitation (by omega))
    (Reads.congr (Reads.bind (reads_readVarint (by omega) hvb) ?_) rfl rfl (add_zero 0))
  -- the length is below `MAX_STRING_LEN_POSSIBLE` and the bytes left cover it
  intro c rest _
  have hcover : (str ++ rest).length ≥ str.length := by simp
  simp only [hlen, not_true_eq_false, if_false, StateT.run_bind, StateT.run_get, pure_bind, hcover,
    StateT.run_set, add_zero, List.drop_left, List.take_left]
  rfl

theorem reads_readTString {rc : ℕ} (h : rc + 6 < epeePortableStorageRecursionLimitInternal)
    {str bs : List UInt8} (hpack : putString str = .ok bs) (hlen : str.length < maxStringLenPossible) :
    Reads lim (readTString rc) bs str 0 := by
  rw [readTString]
  exact Reads.andThen (reads_recursionLimitation (by omega)) (reads_readString (by omega) hpack hlen)

end Leaves

/-! ## Counts -/

section Counts

variable {lim : Counters}

/-- A count that stays within its limit is added. -/
theorem reads_countUp (which : Counted) (message : String) (n : ℕ) :
    Reads lim (countUp lim which message n) [] () (single which n) := by
  intro c rest hw
  have hle := hw.get_le which
  rw [get_add, get_single_self] at hle
  have hn : n ≤ lim.get which - c.get which := by omega
  simp only [countUp, StateT.run_bind, StateT.run_get, pure_bind, hn, not_true_eq_false, if_false,
    StateT.run_set, bump_eq_add, List.nil_append]
  rfl

theorem reads_countObjects (n : ℕ) : Reads lim (countObjects lim n) [] () (single .objects n) :=
  reads_countUp _ _ n

theorem reads_countStrings (n : ℕ) : Reads lim (countStrings lim n) [] () (single .strings n) :=
  reads_countUp _ _ n

theorem reads_countFields (n : ℕ) : Reads lim (countFields lim n) [] () (single .fields n) :=
  reads_countUp _ _ n

/-- `read_se<std::string>` checks its one string as `read_ae` checks a count of one. -/
theorem countSeString_eq : countSeString lim = countStrings lim 1 := by
  simp only [countSeString, countStrings, countUp, Counters.get, Counters.bump]
  congr
  funext s
  congr 1
  simp only [eq_iff_iff, not_iff_not]
  omega

/-- `read_se<section>` checks its one section as `read_ae` checks a count of one. -/
theorem countSeSection_eq : countSeSection lim = countObjects lim 1 := by
  simp only [countSeSection, countObjects, countUp, Counters.get, Counters.bump]
  congr
  funext s
  congr 1
  simp only [eq_iff_iff, not_iff_not]
  omega

end Counts

/-! ## Arrays and the entries below sections -/

section Entries

variable {lim : Counters}

/-- `read_ae` reads back a count `pack_varint` wrote, when the elements take at least `minBytes`
bytes each, and then the elements. -/
theorem reads_readAe {α : Type} {rc minBytes : ℕ} {count : ℕ → ReadM Unit} {elem : ReadM α}
    {vb ebs : List UInt8} {as : List α} {kc ke : Counters}
    (h : rc + 5 < epeePortableStorageRecursionLimitInternal) (hv : packVarint as.length = .ok vb)
    (hmin : 0 < minBytes) (hbytes : as.length * minBytes ≤ ebs.length)
    (hc : Reads lim (count as.length) [] () kc) (he : Reads lim (readN elem as.length) ebs as ke) :
    Reads lim (readAe rc minBytes count elem) (vb ++ ebs) as (kc + ke) := by
  rw [readAe]
  refine Reads.andThen (reads_recursionLimitation (by omega))
    (Reads.congr (Reads.bind (reads_readVarint (by omega) hv) ?_) rfl rfl (zero_add _))
  -- the sanity check: the bytes left hold `minBytes` bytes for each element
  intro c rest hw
  have hsane : as.length ≤ (ebs ++ rest).length / minBytes := by
    rw [Nat.le_div_iff_mul_le hmin, List.length_append]
    omega
  simp only [StateT.run_bind, StateT.run_get, pure_bind, hsane, not_true_eq_false, if_false]
  exact Reads.bind (f := fun _ => readN elem as.length) hc he c rest hw

theorem reads_readSePod {rc : ℕ} (h : rc + 3 < epeePortableStorageRecursionLimitInternal)
    {t : PodType} (v : List.Vector UInt8 t.size) :
    Reads lim (readSePod rc t) v.toList (.pod t v) 0 := by
  rw [readSePod]
  exact Reads.andThen (reads_recursionLimitation (by omega))
    (Reads.congr (Reads.bind (reads_readPod (by omega) v) (Reads.pure' _)) (List.append_nil _) rfl
      (add_zero 0))

theorem reads_readSeString {rc : ℕ} (h : rc + 7 < epeePortableStorageRecursionLimitInternal)
    {str bs : List UInt8} (hpack : putString str = .ok bs) (hlen : str.length < maxStringLenPossible) :
    Reads lim (readSeString lim rc) bs (.string str) (single .strings 1) := by
  rw [readSeString, countSeString_eq]
  refine Reads.andThen (reads_recursionLimitation (by omega))
    (Reads.congr (Reads.bind (reads_countStrings 1) ?_) (List.nil_append _) rfl (add_zero _))
  exact Reads.congr (Reads.bind (reads_readTString (by omega) hpack hlen) (Reads.pure' _))
    (List.append_nil _) rfl (add_zero 0)

end Entries

end Serialization

end Wazn
