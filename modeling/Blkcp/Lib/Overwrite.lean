import Mathlib.Data.List.Basic
set_option autoImplicit false

/-! A fold over commands of which some work on one part of the state only and the others neither
read nor write it: the two kinds can be run apart. -/

namespace Blkcp.Lib

variable {σ π ι ε : Type*} {step : σ → ι → Except ε σ} {put : π → σ → σ}
  {own : ι → Option (π → Except ε π)}

theorem bind_eq_ok_iff {α β : Type _} {x : Except ε α} {f : α → Except ε β} {b : β} :
    x >>= f = .ok b ↔ ∃ a, x = .ok a ∧ f a = .ok b := by
  cases x with
  | error e =>
    constructor
    · intro h
      cases h
    · rintro ⟨_, h, _⟩
      cases h
  | ok a =>
    constructor
    · intro h
      exact ⟨a, rfl, h⟩
    · rintro ⟨_, h, hf⟩
      cases h
      exact hf

/-- What every command keeps, a run of them keeps. -/
theorem foldlM_invariant {P : σ → Prop} (hstep : ∀ {s c t}, P s → step s c = .ok t → P t)
    {cs : List ι} {s t : σ} (hs : P s) (h : cs.foldlM step s = .ok t) : P t := by
  induction cs generalizing s with
  | nil =>
    cases h
    exact hs
  | cons c cs ih =>
    rw [List.foldlM_cons, bind_eq_ok_iff] at h
    obtain ⟨u, hu, hrest⟩ := h
    exact ih (hstep hs hu) hrest

/-- `put` overwrites the part; `own` tells the commands that work on it, and how. -/
structure Overwrites (step : σ → ι → Except ε σ) (put : π → σ → σ)
    (own : ι → Option (π → Except ε π)) : Prop where
  others : ∀ {c}, own c = none → ∀ p s, step (put p s) c = (step s c).map (put p)
  owned : ∀ {c f}, own c = some f → ∀ p s, step (put p s) c = (f p).map (put · s)

/-- The commands that work on the part, one after the other. -/
def runOwned (own : ι → Option (π → Except ε π)) (cs : List ι) (p : π) : Except ε π :=
  (cs.filterMap own).foldlM (fun p f => f p) p

/-- The others. -/
def runOthers (step : σ → ι → Except ε σ) (own : ι → Option (π → Except ε π)) (cs : List ι)
    (s : σ) : Except ε σ :=
  (cs.filter fun c => (own c).isNone).foldlM step s

theorem Overwrites.foldlM_eq_ok_iff (h : Overwrites step put own) (cs : List ι) (p : π) (s t : σ) :
    cs.foldlM step (put p s) = .ok t ↔
      ∃ q u, runOwned own cs p = .ok q ∧ runOthers step own cs s = .ok u ∧ t = put q u := by
  unfold runOwned runOthers
  induction cs generalizing p s with
  | nil =>
    constructor
    · intro ht
      cases ht
      exact ⟨p, s, rfl, rfl, rfl⟩
    · rintro ⟨_, _, hq, hu, rfl⟩
      cases hq
      cases hu
      rfl
  | cons c cs ih =>
    rw [List.foldlM_cons]
    cases hown : own c with
    | none =>
      rw [h.others hown, List.filterMap_cons_none hown,
        List.filter_cons_of_pos (by rw [hown]; rfl), List.foldlM_cons]
      cases hstep : step s c with
      | error e =>
        constructor
        · intro ht
          cases ht
        · rintro ⟨_, _, _, hu, _⟩
          cases hu
      | ok s' => exact ih p s'
    | some f =>
      rw [h.owned hown, List.filterMap_cons_some hown, List.foldlM_cons,
        List.filter_cons_of_neg (by rw [hown]; exact Bool.noConfusion)]
      cases hf : f p with
      | error e =>
        constructor
        · intro ht
          cases ht
        · rintro ⟨_, _, hq, _⟩
          cases hq
      | ok p' => exact ih p' s

end Blkcp.Lib
