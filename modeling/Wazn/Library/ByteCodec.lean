import Mathlib.Data.Vector.Basic

/-!
# Readers, writers, and their round trips

A binary format is given by a reader and a writer written side by side. The reader
consumes a prefix of its input and returns a value, or fails: `Reader σ α`, a state
monad over the remaining input in `Option`. The writer appends tokens to an output and
may stop early; what it leaves is an `Output σ`, the tokens written and whether it ran to
the end, so that a caller that ignores the failure still sees the partial output.

`Reads r ts a` says that `r` reads exactly the tokens `ts`, whatever follows them, and
returns `a`. It composes along `bind` (`Reads.bind`) and along loops over a list
(`Reads.mapM`, `Reads.replicate`), so that the round trip of a format is proved one field
at a time: each field's writer emits tokens that its reader reads back, and the reads of
consecutive fields concatenate.
-/

set_option autoImplicit false

namespace ByteCodec

variable {σ α β : Type}

/-! ## Readers -/

/-- A reader over a stream of tokens. -/
abbrev Reader (σ α : Type) := StateT (List σ) Option α

/-- The reader that fails. -/
def Reader.fail : Reader σ α := fun _ => none

/-- Read `n` tokens, failing on a shorter input. -/
def Reader.take (n : ℕ) : Reader σ (List σ) := fun s =>
  if n ≤ s.length then some (s.take n, s.drop n) else none

/-- Read `n` tokens as a vector of `n`. -/
def Reader.takeVector (n : ℕ) : Reader σ (List.Vector σ n) := fun s =>
  if h : n ≤ s.length then some (⟨s.take n, by simp [h]⟩, s.drop n) else none

/-- The number of tokens left. -/
def Reader.remaining : Reader σ ℕ := fun s => some (s.length, s)

/-- Run a reader `n` times. -/
def Reader.replicate (r : Reader σ α) : ℕ → Reader σ (List α)
  | 0 => pure []
  | n + 1 => do
    let a ← r
    let as ← Reader.replicate r n
    pure (a :: as)

/-- `r` reads exactly the tokens `ts`, whatever follows them, and returns `a`. -/
def Reads (r : Reader σ α) (ts : List σ) (a : α) : Prop :=
  ∀ rest, r.run (ts ++ rest) = some (a, rest)

namespace Reads

theorem pure' (a : α) : Reads (pure a : Reader σ α) [] a := fun _ => rfl

theorem bind {r : Reader σ α} {f : α → Reader σ β} {ts us : List σ} {a : α} {b : β}
    (hr : Reads r ts a) (hf : Reads (f a) us b) : Reads (r >>= f) (ts ++ us) b := by
  intro rest
  rw [List.append_assoc, StateT.run_bind, hr (us ++ rest)]
  exact hf rest

/-- After a reader that reads `ts`, its continuation runs on what follows. -/
theorem run_bind {r : Reader σ α} {ts : List σ} {a : α} (hr : Reads r ts a) (f : α → Reader σ β)
    (rest : List σ) : (r >>= f).run (ts ++ rest) = (f a).run rest := by
  rw [StateT.run_bind, hr rest]
  rfl

theorem map {r : Reader σ α} {ts : List σ} {a : α} (f : α → β) (hr : Reads r ts a) :
    Reads (f <$> r) ts (f a) := by
  intro rest
  rw [StateT.run_map, hr rest]
  rfl

theorem congr {r : Reader σ α} {ts us : List σ} {a b : α} (hr : Reads r ts a) (hts : ts = us)
    (hab : a = b) : Reads r us b := hts ▸ hab ▸ hr

theorem take (ts : List σ) : Reads (Reader.take ts.length) ts ts := by
  intro rest
  simp [Reader.take, StateT.run]

theorem takeVector {n : ℕ} (v : List.Vector σ n) : Reads (Reader.takeVector n) v.toList v := by
  intro rest
  have hn : n ≤ (v.toList ++ rest).length := by simp
  simp only [StateT.run, Reader.takeVector, dif_pos hn, v.toList_length, List.drop_left']
  exact congrArg (fun w => some (w, rest)) (List.Vector.eq _ _ (List.take_left' v.toList_length))

/-- A reader guarded by a check that at least `n` tokens remain reads what it reads
unguarded, when that is at least `n` tokens. -/
theorem guard_remaining {r : Reader σ α} {ts : List σ} {a : α} {n : ℕ} (hn : n ≤ ts.length)
    (hr : Reads r ts a) :
    Reads (do let rem ← Reader.remaining; if rem < n then Reader.fail else r) ts a := by
  intro rest
  have hle : ¬ (ts ++ rest).length < n := by
    rw [List.length_append]
    omega
  rw [StateT.run_bind]
  show (if (ts ++ rest).length < n then Reader.fail else r).run (ts ++ rest) = _
  rw [if_neg hle]
  exact hr rest

/-- A reader that reads each item of a list in turn. -/
theorem mapM {f : α → Reader σ β} {w : α → List σ} {g : α → β} :
    ∀ xs : List α, (∀ x ∈ xs, Reads (f x) (w x) (g x)) → Reads (xs.mapM f) (xs.flatMap w) (xs.map g)
  | [], _ => pure' []
  | x :: xs, h => by
    have hx := h x List.mem_cons_self
    have hxs := mapM xs fun y hy => h y (List.mem_cons_of_mem x hy)
    rw [List.mapM_cons, List.flatMap_cons, List.map_cons, ← List.append_nil (List.flatMap w xs)]
    exact bind hx (bind hxs (pure' _))

/-- A reader run once for each item of a list reads the items' tokens in turn. -/
theorem replicate {r : Reader σ β} {w : α → List σ} {g : α → β} :
    ∀ xs : List α, (∀ x ∈ xs, Reads r (w x) (g x)) →
      Reads (Reader.replicate r xs.length) (xs.flatMap w) (xs.map g)
  | [], _ => pure' []
  | x :: xs, h => by
    have hx := h x List.mem_cons_self
    have hxs := replicate xs fun y hy => h y (List.mem_cons_of_mem x hy)
    rw [List.length_cons, Reader.replicate, List.flatMap_cons, List.map_cons,
      ← List.append_nil (List.flatMap w xs)]
    exact bind hx (bind hxs (pure' _))

end Reads

/-! ## What a run that returns did -/

namespace Reader

theorem run_bind_eq_some {r : Reader σ α} {f : α → Reader σ β} {ts rest : List σ} {b : β} :
    (r >>= f).run ts = some (b, rest) ↔
      ∃ a mid, r.run ts = some (a, mid) ∧ (f a).run mid = some (b, rest) := by
  rw [StateT.run_bind]
  simp only [Option.bind_eq_bind, Option.bind_eq_some_iff, Prod.exists]

theorem run_map_eq_some {r : Reader σ α} {f : α → β} {ts rest : List σ} {b : β} :
    (f <$> r).run ts = some (b, rest) ↔ ∃ a, r.run ts = some (a, rest) ∧ f a = b := by
  rw [StateT.run_map]
  simp

theorem run_pure_eq_some {a b : α} {ts rest : List σ} :
    (pure a : Reader σ α).run ts = some (b, rest) ↔ a = b ∧ ts = rest := by
  simp [StateT.run_pure]

theorem run_remaining_bind {f : ℕ → Reader σ α} {ts : List σ} :
    (Reader.remaining >>= f).run ts = (f ts.length).run ts := rfl

theorem run_take_eq_some {n : ℕ} {ts xs rest : List σ} :
    (Reader.take n).run ts = some (xs, rest) ↔
      n ≤ ts.length ∧ ts.take n = xs ∧ ts.drop n = rest := by
  simp only [StateT.run, Reader.take]
  split <;> simp_all

/-- A reader run `n` times returns `n` items. -/
theorem length_of_run_replicate {r : Reader σ α} :
    ∀ {n : ℕ} {ts rest : List σ} {as : List α},
      (Reader.replicate r n).run ts = some (as, rest) → as.length = n
  | 0, ts, rest, as, h => by
    rw [Reader.replicate, run_pure_eq_some] at h
    rw [← h.1]
    rfl
  | n + 1, ts, rest, as, h => by
    rw [Reader.replicate, run_bind_eq_some] at h
    obtain ⟨a, mid, -, h⟩ := h
    rw [run_bind_eq_some] at h
    obtain ⟨as', mid', has', h⟩ := h
    rw [run_pure_eq_some] at h
    rw [← h.1, List.length_cons, length_of_run_replicate has']

end Reader

/-! ## Writers -/

/-- What a writer leaves: the tokens it wrote, and whether it ran to the end. -/
structure Output (σ : Type) where
  tokens : List σ
  ok : Bool
  deriving DecidableEq, Repr

namespace Output

/-- Write `ts`. -/
def emit (ts : List σ) : Output σ := ⟨ts, true⟩

/-- Stop without writing. -/
def fail : Output σ := ⟨[], false⟩

/-- Run `o`, then `p` if `o` ran to the end. -/
def andThen (o p : Output σ) : Output σ :=
  if o.ok then ⟨o.tokens ++ p.tokens, p.ok⟩ else o

instance : Append (Output σ) := ⟨andThen⟩

/-- Run the writers of a list in turn. -/
def concat (os : List (Output σ)) : Output σ := os.foldr andThen (emit [])

@[simp] theorem emit_tokens (ts : List σ) : (emit ts).tokens = ts := rfl

@[simp] theorem emit_ok (ts : List σ) : (emit ts).ok = true := rfl

@[simp] theorem fail_ok : (fail : Output σ).ok = false := rfl

theorem append_def (o p : Output σ) : o ++ p = andThen o p := rfl

@[simp] theorem append_ok (o p : Output σ) : (o ++ p).ok = (o.ok && p.ok) := by
  rw [append_def, andThen]
  split <;> simp_all

/-- Two writers that run to the end write one after the other. -/
theorem append_tokens {o p : Output σ} (ho : o.ok = true) : (o ++ p).tokens = o.tokens ++ p.tokens := by
  rw [append_def, andThen, if_pos ho]

/-- A writer that ran to the end ran each of its two parts to the end. -/
theorem ok_left {o p : Output σ} (h : (o ++ p).ok = true) : o.ok = true := by
  rw [append_ok, Bool.and_eq_true] at h
  exact h.1

theorem ok_right {o p : Output σ} (h : (o ++ p).ok = true) : p.ok = true := by
  rw [append_ok, Bool.and_eq_true] at h
  exact h.2

/-- What a writer wrote stays at the front of what follows it. -/
theorem tokens_prefix_append (o p : Output σ) : o.tokens <+: (o ++ p).tokens := by
  rw [append_def, andThen]
  split
  · exact List.prefix_append _ _
  · exact List.prefix_refl _

theorem length_tokens_le_append_left (o p : Output σ) :
    o.tokens.length ≤ (o ++ p).tokens.length :=
  (tokens_prefix_append o p).length_le

theorem length_tokens_le_append_right {o p : Output σ} (h : (o ++ p).ok = true) :
    p.tokens.length ≤ (o ++ p).tokens.length := by
  rw [append_tokens (ok_left h), List.length_append]
  omega

theorem append_tokens_ne_nil {o : Output σ} (ho : o.tokens ≠ []) (p : Output σ) :
    (o ++ p).tokens ≠ [] := fun h => ho (List.eq_nil_of_prefix_nil (h ▸ tokens_prefix_append o p))

@[simp] theorem append_emit_nil (o : Output σ) : o ++ emit [] = o := by
  rw [append_def, andThen]
  split
  · next ho => rw [emit_tokens, List.append_nil, emit_ok, ← ho]
  · rfl

@[simp] theorem emit_nil_append (o : Output σ) : emit [] ++ o = o := rfl

theorem append_assoc (o p q : Output σ) : o ++ p ++ q = o ++ (p ++ q) := by
  simp only [append_def, andThen]
  cases ho : o.ok <;> cases hp : p.ok <;> simp [ho, hp]

@[simp] theorem concat_nil : concat ([] : List (Output σ)) = emit [] := rfl

theorem concat_cons (o : Output σ) (os : List (Output σ)) : concat (o :: os) = o ++ concat os := rfl

theorem concat_ok : ∀ os : List (Output σ), (concat os).ok = os.all Output.ok
  | [] => rfl
  | o :: os => by rw [concat_cons, append_ok, concat_ok os, List.all_cons]

/-- A writer that ran to the end passed each check that would have stopped it. -/
theorem not_of_ite_fail {c : Prop} [Decidable c] {o : Output σ}
    (h : (if c then fail else o).ok = true) : ¬ c := by
  intro hc
  rw [if_pos hc, fail_ok] at h
  exact Bool.false_ne_true h

/-- The writers of a list that all run to the end write their tokens in turn. -/
theorem concat_tokens : ∀ os : List (Output σ), (∀ o ∈ os, o.ok = true) →
    (concat os).tokens = os.flatMap Output.tokens
  | [], _ => rfl
  | o :: os, h => by
    rw [concat_cons, append_tokens (h o List.mem_cons_self),
      concat_tokens os fun p hp => h p (List.mem_cons_of_mem o hp), List.flatMap_cons]

/-- The length of what two writers wrote: the second writes only if the first ran to the
end. -/
theorem length_tokens_append (o p : Output σ) :
    (o ++ p).tokens.length = if o.ok then o.tokens.length + p.tokens.length else o.tokens.length := by
  rw [append_def, andThen]
  split <;> simp

/-- Writers that run to the end and write `k` tokens each write `k` tokens a writer. -/
theorem length_concat {os : List (Output σ)} {k : ℕ} (hok : ∀ o ∈ os, o.ok = true)
    (hlen : ∀ o ∈ os, o.tokens.length = k) : (concat os).tokens.length = os.length * k := by
  induction os with
  | nil => simp
  | cons o os ih =>
    rw [concat_cons, append_tokens (hok o List.mem_cons_self), List.length_append,
      hlen o List.mem_cons_self, ih (fun p hp => hok p (List.mem_cons_of_mem o hp))
        (fun p hp => hlen p (List.mem_cons_of_mem o hp)), List.length_cons, Nat.succ_mul,
      Nat.add_comm]

/-- What a writer that ran to the end wrote, part by part. -/
theorem length_tokens_append_of_ok {o p : Output σ} (h : (o ++ p).ok = true) :
    (o ++ p).tokens.length = o.tokens.length + p.tokens.length := by
  rw [append_tokens (ok_left h), List.length_append]

/-- `length_concat` for the writer of each item of a list, when the whole ran to the end. -/
theorem length_concat_map {α : Type} {w : α → Output σ} {xs : List α} {k : ℕ}
    (hok : (concat (xs.map w)).ok = true)
    (hlen : ∀ x ∈ xs, (w x).ok = true → (w x).tokens.length = k) :
    (concat (xs.map w)).tokens.length = xs.length * k := by
  have hall : ∀ o ∈ xs.map w, o.ok = true := by
    rw [concat_ok, List.all_eq_true] at hok
    exact hok
  have hitems : ∀ x ∈ xs, (w x).ok = true := fun x hx => hall (w x) (List.mem_map_of_mem hx)
  rw [length_concat hall (k := k), List.length_map]
  simp only [List.mem_map, forall_exists_index, and_imp, forall_apply_eq_imp_iff₂]
  exact fun x hx => hlen x hx (hitems x hx)

/-- The tokens of writers that run to the end are at least as many as the writers when
each writes a token. -/
theorem length_le_length_concat {ws : List (Output σ)} (hok : ∀ o ∈ ws, o.ok = true)
    (hne : ∀ o ∈ ws, o.tokens ≠ []) : ws.length ≤ (concat ws).tokens.length := by
  induction ws with
  | nil => simp
  | cons o ws ih =>
    have ho := hok o List.mem_cons_self
    have hlen : 0 < o.tokens.length := List.length_pos_iff.2 (hne o List.mem_cons_self)
    have hws := ih (fun p hp => hok p (List.mem_cons_of_mem o hp))
      (fun p hp => hne p (List.mem_cons_of_mem o hp))
    rw [concat_cons, append_tokens ho, List.length_append, List.length_cons]
    omega

end Output

/-! ## Reading back what a writer wrote -/

/-- `r` reads back what the writer left in `o`, as `a`: when `o` ran to the end and wrote
fewer than `N` tokens, `r` reads exactly those and returns `a`. The bound serves formats
whose counts have a fixed width; for the others it is never used. -/
def ReadsBack (N : ℕ) (r : Reader σ α) (o : Output σ) (a : α) : Prop :=
  o.ok = true → o.tokens.length < N → Reads r o.tokens a

namespace ReadsBack

variable {N : ℕ}

theorem of_reads {r : Reader σ α} {ts : List σ} {a : α} (h : Reads r ts a) :
    ReadsBack N r (Output.emit ts) a := fun _ _ => h

theorem pure' (a : α) : ReadsBack N (pure a : Reader σ α) (Output.emit []) a :=
  of_reads (Reads.pure' a)

/-- Nothing is to be read back from a writer that fails. -/
theorem fail (r : Reader σ α) (a : α) : ReadsBack N r Output.fail a := by
  intro h
  simp at h

theorem bind {r : Reader σ α} {f : α → Reader σ β} {o p : Output σ} {a : α} {b : β}
    (hr : ReadsBack N r o a) (hf : ReadsBack N (f a) p b) : ReadsBack N (r >>= f) (o ++ p) b := by
  intro hok hlen
  have ho : o.ok = true := by simp_all
  have hp : p.ok = true := by simp_all
  rw [Output.append_tokens ho, List.length_append] at hlen
  rw [Output.append_tokens ho]
  exact Reads.bind (hr ho (by omega)) (hf hp (by omega))

theorem map {r : Reader σ α} {o : Output σ} {a : α} (f : α → β) (hr : ReadsBack N r o a) :
    ReadsBack N (f <$> r) o (f a) := fun hok hlen => Reads.map f (hr hok hlen)

/-- A reader that ends by returning a function of its last read. -/
theorem bind_pure {r : Reader σ α} {o : Output σ} {a : α} (g : α → β) (hr : ReadsBack N r o a) :
    ReadsBack N (r >>= fun x => pure (g x)) o (g a) := by
  rw [← Output.append_emit_nil o]
  exact bind hr (pure' (g a))

theorem congr {r : Reader σ α} {o o' : Output σ} {a b : α} (hr : ReadsBack N r o a) (ho : o = o')
    (hab : a = b) : ReadsBack N r o' b := ho ▸ hab ▸ hr

/-- A reader and a writer that make the same test read back each branch's output. -/
theorem ite {c : Prop} [Decidable c] {r₁ r₂ : Reader σ α} {o₁ o₂ : Output σ} {a₁ a₂ : α}
    (h₁ : c → ReadsBack N r₁ o₁ a₁) (h₂ : ¬ c → ReadsBack N r₂ o₂ a₂) :
    ReadsBack N (if c then r₁ else r₂) (if c then o₁ else o₂) (if c then a₁ else a₂) := by
  by_cases hc : c
  · rw [if_pos hc, if_pos hc, if_pos hc]
    exact h₁ hc
  · rw [if_neg hc, if_neg hc, if_neg hc]
    exact h₂ hc

/-- A check that fails both the reader and the writer. -/
theorem guard {c : Prop} [Decidable c] {r : Reader σ α} {o : Output σ} {a : α}
    (h : ¬ c → ReadsBack N r o a) :
    ReadsBack N (if c then Reader.fail else r) (if c then Output.fail else o) a := by
  by_cases hc : c
  · rw [if_pos hc, if_pos hc]
    exact fail _ _
  · rw [if_neg hc, if_neg hc]
    exact h hc

/-- A reader guarded by a check that at least `n` tokens remain reads back a writer that
writes at least `n` tokens. -/
theorem guard_remaining {r : Reader σ α} {o : Output σ} {a : α} {n : ℕ}
    (hn : o.ok = true → n ≤ o.tokens.length) (hr : ReadsBack N r o a) :
    ReadsBack N (do let rem ← Reader.remaining; if rem < n then Reader.fail else r) o a :=
  fun hok hlen => Reads.guard_remaining (hn hok) (hr hok hlen)

/-- A reader run once for each item that a list of writers wrote. -/
theorem replicate {r : Reader σ β} {w : α → Output σ} {g : α → β} :
    ∀ xs : List α, (∀ x ∈ xs, ReadsBack N r (w x) (g x)) →
      ReadsBack N (Reader.replicate r xs.length) (Output.concat (xs.map w)) (xs.map g)
  | [], _ => pure' []
  | x :: xs, h => by
    have hx := h x List.mem_cons_self
    have hxs := replicate xs fun y hy => h y (List.mem_cons_of_mem x hy)
    rw [List.length_cons, Reader.replicate, List.map_cons, Output.concat_cons, List.map_cons,
      ← Output.append_emit_nil (Output.concat (xs.map w))]
    exact bind hx (bind hxs (pure' _))

/-- A reader run `n` times reads back a writer that checks that its list has `n` items. -/
theorem replicate_guard {r : Reader σ β} {w : α → Output σ} {g : α → β} {n : ℕ} (xs : List α)
    (h : ∀ x ∈ xs, ReadsBack N r (w x) (g x)) :
    ReadsBack N (Reader.replicate r n)
      (if xs.length ≠ n then Output.fail else Output.concat (xs.map w)) (xs.map g) := by
  by_cases hn : xs.length ≠ n
  · rw [if_pos hn]
    exact fail _ _
  · rw [if_neg hn, ← not_not.1 hn]
    exact replicate xs h

/-- A reader that reads an item for each item of a list, back from a writer for each. -/
theorem mapM {f : α → Reader σ β} {w : α → Output σ} {g : α → β} :
    ∀ xs : List α, (∀ x ∈ xs, ReadsBack N (f x) (w x) (g x)) →
      ReadsBack N (xs.mapM f) (Output.concat (xs.map w)) (xs.map g)
  | [], _ => pure' []
  | x :: xs, h => by
    have hx := h x List.mem_cons_self
    have hxs := mapM xs fun y hy => h y (List.mem_cons_of_mem x hy)
    rw [List.mapM_cons, List.map_cons, Output.concat_cons, List.map_cons,
      ← Output.append_emit_nil (Output.concat (xs.map w))]
    exact bind hx (bind hxs (pure' _))

/-- A reader that reads an item for each item of a list, back from a writer for each item
and the item of a second list of the same length: the reader returns the second list. -/
theorem mapM_zipWith {f : α → Reader σ β} {w : α → β → Output σ} :
    ∀ (xs : List α) (ys : List β), xs.length = ys.length →
      (∀ x y, (x, y) ∈ xs.zip ys → ReadsBack N (f x) (w x y) y) →
      ReadsBack N (xs.mapM f) (Output.concat (List.zipWith w xs ys)) ys
  | [], [], _, _ => pure' []
  | x :: xs, y :: ys, hlen, h => by
    have hx := h x y List.mem_cons_self
    have hxs := mapM_zipWith xs ys (by simpa using hlen)
      fun x' y' hxy => h x' y' (List.mem_cons_of_mem (x, y) hxy)
    rw [List.mapM_cons, List.zipWith_cons_cons, Output.concat_cons,
      ← Output.append_emit_nil (Output.concat (List.zipWith w xs ys))]
    exact bind hx (bind hxs (pure' _))
  | [], _ :: _, hlen, _ => by simp at hlen
  | _ :: _, [], hlen, _ => by simp at hlen

end ReadsBack

end ByteCodec
