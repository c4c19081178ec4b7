import Mathlib.Data.List.Basic

/-!
# Loops that may throw

Imperative code whose loop bodies may throw becomes a `List.foldlM` or a `List.mapM` in
`Except ε`. This file gives the rules for reasoning about such loops: the inversion of
`bind` (`bind_eq_ok`), the invariant rule for a loop over a list (`foldlM_invariant`) and for a
`for (i = a; i < a + n; ++i)` loop whose invariant may mention the next index
(`foldlM_range'_invariant`), that a loop which
returns went through each prefix of its range (`foldlM_append_eq_ok`), and that a `mapM`
whose every call succeeds returns the mapped list (`mapM_eq_ok`). A `mapM` in `Option`
returns when every call does (`mapM_eq_some_of_forall`), and its result keeps what each
call keeps of its item (`map_of_mapM_eq_some`).
-/

set_option autoImplicit false

namespace ExceptLoop

variable {ε α β σ : Type}

@[simp] theorem ok_bind (a : α) (f : α → Except ε β) : (Except.ok a >>= f) = f a := rfl

@[simp] theorem pure_eq_ok (a : α) : (pure a : Except ε α) = .ok a := rfl

/-- A computation followed by a continuation succeeds exactly when both do. -/
theorem bind_eq_ok {x : Except ε α} {f : α → Except ε β} {b : β} :
    x >>= f = .ok b ↔ ∃ a, x = .ok a ∧ f a = .ok b := by
  cases x with
  | error e => simp [bind, Except.bind]
  | ok a => simp [bind, Except.bind]

/-- **For-loop rule.** An invariant that holds before index `a` and that each iteration
of the loop carries from index `k` to `k + 1` holds after the last index of a loop that
returns. -/
theorem foldlM_range'_invariant {f : σ → ℕ → Except ε σ} {P : ℕ → σ → Prop} :
    ∀ (n a : ℕ), (∀ k s t, a ≤ k → k < a + n → P k s → f s k = .ok t → P (k + 1) t) →
      ∀ (s t : σ), P a s → (List.range' a n).foldlM f s = .ok t → P (a + n) t
  | 0, a, _, s, t, hs, h => by
    simp only [List.range'_zero, List.foldlM_nil] at h
    cases h
    exact hs
  | n + 1, a, hf, s, t, hs, h => by
    rw [List.range'_succ, List.foldlM_cons, bind_eq_ok] at h
    obtain ⟨u, hu, hrest⟩ := h
    have hu' : P (a + 1) u := hf a s u (Nat.le_refl a) (by omega) hs hu
    have hend := foldlM_range'_invariant n (a + 1)
      (fun k s t hk hkn => hf k s t (by omega) (by omega)) u t hu' hrest
    rwa [Nat.add_right_comm, Nat.add_assoc] at hend

/-- **Loop rule.** A property of the state that each call on an item of the list keeps holds
after a `foldlM` over the list that returns. -/
theorem foldlM_invariant {f : σ → α → Except ε σ} {P : σ → Prop} :
    ∀ (l : List α), (∀ s a t, a ∈ l → P s → f s a = .ok t → P t) →
      ∀ (s t : σ), P s → l.foldlM f s = .ok t → P t
  | [], _, s, t, hs, h => by
    simp only [List.foldlM_nil] at h
    cases h
    exact hs
  | a :: l, hf, s, t, hs, h => by
    rw [List.foldlM_cons, bind_eq_ok] at h
    obtain ⟨u, hu, hrest⟩ := h
    exact foldlM_invariant l (fun s b t hb => hf s b t (List.mem_cons_of_mem a hb)) u t
      (hf s a u List.mem_cons_self hs hu) hrest

/-- A loop that returns went through each of its prefixes. -/
theorem foldlM_append_eq_ok {f : σ → α → Except ε σ} {s t : σ} {l₁ l₂ : List α}
    (h : (l₁ ++ l₂).foldlM f s = .ok t) : ∃ u, l₁.foldlM f s = .ok u ∧ l₂.foldlM f u = .ok t := by
  rw [List.foldlM_append, bind_eq_ok] at h
  exact h

/-- A `mapM` whose every call succeeds returns the list of the results. -/
theorem mapM_eq_ok {f : α → Except ε β} {g : α → β} :
    ∀ l : List α, (∀ a ∈ l, f a = .ok (g a)) → l.mapM f = .ok (l.map g)
  | [], _ => rfl
  | a :: l, h => by
    have ha : f a = .ok (g a) := h a List.mem_cons_self
    have hl := mapM_eq_ok l fun b hb => h b (List.mem_cons_of_mem a hb)
    rw [List.mapM_cons, ha, hl]
    rfl

/-! ## `mapM` in `Option` -/

section OptionMapM

variable {γ : Type}

/-- A `mapM` in `Option` whose every call returns returns. -/
theorem mapM_eq_some_of_forall {f : α → Option β} :
    ∀ l : List α, (∀ a ∈ l, ∃ b, f a = some b) → ∃ bs, l.mapM f = some bs
  | [], _ => ⟨[], rfl⟩
  | a :: l, h => by
    obtain ⟨b, hb⟩ := h a List.mem_cons_self
    obtain ⟨bs, hbs⟩ := mapM_eq_some_of_forall l fun c hc => h c (List.mem_cons_of_mem a hc)
    refine ⟨b :: bs, ?_⟩
    rw [List.mapM_cons, hb, hbs]
    rfl

/-- What a `mapM` in `Option` returns, seen through `g`, is each item seen through `h`,
when each call's result is so. -/
theorem map_of_mapM_eq_some {f : α → Option β} {g : β → γ} {h : α → γ}
    (hfg : ∀ a b, f a = some b → g b = h a) :
    ∀ {l : List α} {bs : List β}, l.mapM f = some bs → bs.map g = l.map h
  | [], bs, hbs => by
    cases hbs
    rfl
  | a :: l, bs, hbs => by
    rw [List.mapM_cons] at hbs
    cases ha : f a with
    | none =>
      rw [ha] at hbs
      cases hbs
    | some b =>
      cases hl : l.mapM f with
      | none =>
        rw [ha, hl] at hbs
        cases hbs
      | some bs' =>
        rw [ha, hl] at hbs
        cases hbs
        rw [List.map_cons, List.map_cons, hfg a b ha, map_of_mapM_eq_some hfg hl]

end OptionMapM

end ExceptLoop
