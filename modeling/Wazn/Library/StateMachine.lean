import Mathlib.Logic.Relation

/-!
# Reachable states of a step relation

A system is given by the states it may start in and a step relation. A state is
reachable when a start state leads to it by finitely many steps. A property holds
in every reachable state as soon as it holds in the start states and every step
keeps it; `Reachable.induction` is that rule, and the invariants of this development
are all proved through it.
-/

set_option autoImplicit false

namespace StateMachine

variable {σ : Type}

/-- `s` is reachable: some start state leads to it by zero or more steps. -/
def Reachable (init : σ → Prop) (step : σ → σ → Prop) (s : σ) : Prop :=
  ∃ s₀, init s₀ ∧ Relation.ReflTransGen step s₀ s

variable {init : σ → Prop} {step : σ → σ → Prop}

theorem Reachable.of_init {s : σ} (hs : init s) : Reachable init step s :=
  ⟨s, hs, Relation.ReflTransGen.refl⟩

theorem Reachable.tail {s t : σ} (hs : Reachable init step s) (hst : step s t) :
    Reachable init step t := by
  obtain ⟨s₀, h₀, hrun⟩ := hs
  exact ⟨s₀, h₀, hrun.tail hst⟩

/-- **Invariance rule**: a property of the start states that every step keeps holds in
every reachable state. -/
theorem Reachable.induction {I : σ → Prop} (hinit : ∀ s, init s → I s)
    (hstep : ∀ s t, I s → step s t → I t) {s : σ} (hs : Reachable init step s) : I s := by
  obtain ⟨s₀, h₀, hrun⟩ := hs
  induction hrun with
  | refl => exact hinit s₀ h₀
  | tail _ hst ih => exact hstep _ _ ih hst

/-- A property kept by every step of a left fold holds at its end. -/
theorem foldl_invariant {α : Type} {P : σ → Prop} {f : σ → α → σ}
    (hf : ∀ s a, P s → P (f s a)) : ∀ (l : List α) (s : σ), P s → P (l.foldl f s)
  | [], _, hs => hs
  | a :: l, s, hs => foldl_invariant hf l (f s a) (hf s a hs)

/-- A property kept by every step of a fold that may stop holds at its end, when it
ends. -/
theorem foldlM_invariant {α : Type} {P : σ → Prop} {f : σ → α → Option σ}
    (hf : ∀ s a t, P s → f s a = some t → P t) :
    ∀ (l : List α) (s t : σ), P s → l.foldlM f s = some t → P t
  | [], s, t, hs, h => by
    simp only [List.foldlM_nil, Option.pure_def, Option.some.injEq] at h
    exact h ▸ hs
  | a :: l, s, t, hs, h => by
    simp only [List.foldlM_cons, Option.bind_eq_bind, Option.bind_eq_some_iff] at h
    obtain ⟨u, hu, hrest⟩ := h
    exact foldlM_invariant hf l u t (hf s a u hs hu) hrest

end StateMachine
