import Mathlib.Init
set_option autoImplicit false

/-! Labelled transition systems: reachable states, invariants, runs under a condition on steps. -/

namespace Blkcp.Lib

structure System (σ ℓ : Type) where
  init : σ → Prop
  step : σ → ℓ → σ → Prop

namespace System

variable {σ ℓ : Type}

inductive Reachable (S : System σ ℓ) : σ → Prop where
  | init {s : σ} : S.init s → Reachable S s
  | step {s t : σ} {a : ℓ} : Reachable S s → S.step s a t → Reachable S t

/-- What holds at the start and is kept by every step holds in every reachable state. -/
theorem Reachable.invariant {S : System σ ℓ} {I : σ → Prop} (hinit : ∀ s, S.init s → I s)
    (hstep : ∀ s a t, I s → S.step s a t → I t) {s : σ} (h : Reachable S s) : I s := by
  induction h with
  | init hs => exact hinit _ hs
  | step _ hs ih => exact hstep _ _ _ ih hs

/-- The states that come after a state, and the state itself. -/
inductive Leads (S : System σ ℓ) : σ → σ → Prop where
  | refl (s : σ) : Leads S s s
  | step {s t u : σ} {a : ℓ} : Leads S s t → S.step t a u → Leads S s u

theorem Leads.trans {S : System σ ℓ} {s t u : σ} (hst : S.Leads s t) (htu : S.Leads t u) :
    S.Leads s u := by
  induction htu with
  | refl => exact hst
  | step _ hs ih => exact ih.step hs

/-- Nothing comes after a state without steps. -/
theorem Leads.eq_of_stuck {S : System σ ℓ} {s t : σ} (h : S.Leads s t)
    (hstuck : ∀ a u, ¬S.step s a u) : t = s := by
  induction h with
  | refl => rfl
  | step _ hs ih =>
    subst ih
    exact absurd hs (hstuck _ _)

/-- The runs in which every step meets a condition on the state before it. -/
def restrict (S : System σ ℓ) (good : σ → ℓ → Prop) : System σ ℓ where
  init := S.init
  step s a t := S.step s a t ∧ good s a

theorem Reachable.of_restrict {S : System σ ℓ} {good : σ → ℓ → Prop} {s : σ}
    (h : Reachable (S.restrict good) s) : Reachable S s := by
  induction h with
  | init hs => exact .init hs
  | step _ hs ih => exact .step ih hs.1

/-- A condition may be relaxed. -/
theorem Reachable.restrict_imp {S : System σ ℓ} {good good' : σ → ℓ → Prop} {s : σ}
    (h : Reachable (S.restrict good) s) (himp : ∀ s a, good s a → good' s a) :
    Reachable (S.restrict good') s := by
  induction h with
  | init hs => exact .init hs
  | step _ hs ih => exact ih.step ⟨hs.1, himp _ _ hs.2⟩

/-- The runs in which every state meets a condition. -/
def within (S : System σ ℓ) (good : σ → Prop) : System σ ℓ where
  init s := S.init s ∧ good s
  step s a t := S.step s a t ∧ good t

theorem Reachable.good_of_within {S : System σ ℓ} {good : σ → Prop} {s : σ}
    (h : Reachable (S.within good) s) : good s := by
  cases h with
  | init hs => exact hs.2
  | step _ hs => exact hs.2

/-- Each step is one of the other system, or none, as long as the states have a property that no step
brings back. -/
theorem Reachable.map {σ' ℓ' : Type} {S : System σ ℓ} {S' : System σ' ℓ'} (f : σ → σ')
    (P : σ → Prop) (hinit : ∀ s, S.init s → S'.init (f s))
    (hstep : ∀ s a t, P t → S.step s a t → P s ∧ (f t = f s ∨ ∃ a', S'.step (f s) a' (f t)))
    {s : σ} (h : Reachable S s) (hs : P s) : Reachable S' (f s) := by
  induction h with
  | init h => exact .init (hinit _ h)
  | step _ hst ih =>
    obtain ⟨hbefore, hsame | ⟨a', hst'⟩⟩ := hstep _ _ _ hs hst
    · rw [hsame]
      exact ih hbefore
    · exact (ih hbefore).step hst'

/-- The system with a value that follows the steps and does not influence them. -/
def traced {γ : Type} (S : System σ ℓ) (start : γ) (next : γ → σ → ℓ → γ) : System (σ × γ) ℓ where
  init x := S.init x.1 ∧ x.2 = start
  step x a y := S.step x.1 a y.1 ∧ y.2 = next x.2 x.1 a

theorem Reachable.traced {γ : Type} {S : System σ ℓ} {s : σ} (start : γ) (next : γ → σ → ℓ → γ)
    (h : Reachable S s) : ∃ g, Reachable (S.traced start next) (s, g) := by
  induction h with
  | init hs => exact ⟨start, .init ⟨hs, rfl⟩⟩
  | step _ hs ih =>
    obtain ⟨g, hg⟩ := ih
    exact ⟨_, hg.step ⟨hs, rfl⟩⟩

theorem Reachable.step_traced {γ : Type} {S : System σ ℓ} {start : γ} {next : γ → σ → ℓ → γ}
    {s t : σ} {g : γ} {a : ℓ} (h : Reachable (S.traced start next) (s, g)) (hs : S.step s a t) :
    Reachable (S.traced start next) (t, next g s a) := h.step ⟨hs, rfl⟩

theorem Reachable.of_traced {γ : Type} {S : System σ ℓ} {start : γ} {next : γ → σ → ℓ → γ}
    {x : σ × γ} (h : Reachable (S.traced start next) x) : Reachable S x.1 := by
  induction h with
  | init hs => exact .init hs.1
  | step _ hs ih => exact ih.step hs.1

end System

end Blkcp.Lib
