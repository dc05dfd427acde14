import Mathlib.Data.Nat.Basic
set_option autoImplicit false

/-! A loop given by its body: an iteration either continues with a new state or leaves with a
result. -/

namespace Blkcp.Lib

variable {σ ρ : Type}

def runLoop (body : σ → σ ⊕ ρ) : Nat → σ → Option ρ
  | 0, _ => none
  | fuel + 1, s =>
    match body s with
    | .inl s' => runLoop body fuel s'
    | .inr r => some r

/-- `t` is reached from `s` by iterations that continue. -/
inductive Iterates (body : σ → σ ⊕ ρ) : σ → σ → Prop where
  | refl (s : σ) : Iterates body s s
  | tail {s t u : σ} : Iterates body s t → body t = .inl u → Iterates body s u

namespace Iterates

variable {body : σ → σ ⊕ ρ}

theorem head {s t u : σ} (h : body s = .inl t) (htu : Iterates body t u) : Iterates body s u := by
  induction htu with
  | refl => exact .tail (.refl s) h
  | tail _ hb ih => exact .tail ih hb

theorem trans {s t u : σ} (hst : Iterates body s t) (htu : Iterates body t u) :
    Iterates body s u := by
  induction htu with
  | refl => exact hst
  | tail _ hb ih => exact .tail ih hb

theorem invariant {I : σ → Prop} (step : ∀ s t, I s → body s = .inl t → I t) {s t : σ}
    (h : Iterates body s t) (hs : I s) : I t := by
  induction h with
  | refl => exact hs
  | tail _ hb ih => exact step _ _ ih hb

theorem cases_head {s u : σ} (h : Iterates body s u) :
    s = u ∨ ∃ t, body s = .inl t ∧ Iterates body t u := by
  induction h with
  | refl => exact .inl rfl
  | tail _ hb ih =>
    rcases ih with rfl | ⟨t, ht, htu⟩
    · exact .inr ⟨_, hb, .refl _⟩
    · exact .inr ⟨t, ht, htu.tail hb⟩

/-- All that is reached lies on the way to where the loop is left. -/
theorem of_leaves {s t u : σ} {r : ρ} (hst : Iterates body s t) (hsu : Iterates body s u)
    (hr : body u = .inr r) : Iterates body t u := by
  induction hst with
  | refl => exact hsu
  | tail _ hb ih =>
    rcases ih.cases_head with rfl | ⟨v, hv, hvu⟩
    · rw [hb] at hr
      cases hr
    · rw [hb] at hv
      obtain rfl := Sum.inl.inj hv
      exact hvu

end Iterates

theorem runLoop_of_iterates {body : σ → σ ⊕ ρ} {s t : σ} {r : ρ} (h : Iterates body s t)
    (ht : ∃ fuel, runLoop body fuel t = some r) : ∃ fuel, runLoop body fuel s = some r := by
  induction h with
  | refl => exact ht
  | tail _ hb ih =>
    obtain ⟨fuel, hfuel⟩ := ht
    exact ih ⟨fuel + 1, by simp only [runLoop, hb, hfuel]⟩

/-- Leaving after some iterations is a run with enough fuel. -/
theorem runLoop_of_leaves {body : σ → σ ⊕ ρ} {s t : σ} {r : ρ} (h : Iterates body s t)
    (hr : body t = .inr r) : ∃ fuel, runLoop body fuel s = some r :=
  runLoop_of_iterates h ⟨1, by simp only [runLoop, hr]⟩

theorem iterates_of_runLoop {body : σ → σ ⊕ ρ} {fuel : Nat} {s : σ} {r : ρ}
    (h : runLoop body fuel s = some r) : ∃ t, Iterates body s t ∧ body t = .inr r := by
  induction fuel generalizing s with
  | zero => simp [runLoop] at h
  | succ fuel ih =>
    simp only [runLoop] at h
    split at h
    · rename_i s' hb
      obtain ⟨t, ht, hr⟩ := ih h
      exact ⟨t, .head hb ht, hr⟩
    · rename_i r' hb
      obtain rfl := Option.some.inj h
      exact ⟨s, .refl s, hb⟩

/-- More fuel does not change the result. -/
theorem runLoop_unique {body : σ → σ ⊕ ρ} {fuel fuel' : Nat} {s : σ} {r r' : ρ}
    (h : runLoop body fuel s = some r) (h' : runLoop body fuel' s = some r') : r = r' := by
  induction fuel generalizing fuel' s with
  | zero => simp [runLoop] at h
  | succ fuel ih =>
    cases fuel' with
    | zero => simp [runLoop] at h'
    | succ fuel' =>
      simp only [runLoop] at h h'
      cases hb : body s with
      | inr x =>
        rw [hb] at h h'
        exact Option.some.inj (h.symm.trans h')
      | inl t =>
        rw [hb] at h h'
        exact ih h h'

/-- A loop that makes something smaller with every iteration is left. -/
theorem runLoop_of_measure {body : σ → σ ⊕ ρ} {I : σ → Prop} (m : σ → Nat)
    (step : ∀ s t, I s → body s = .inl t → I t ∧ m t < m s) {s : σ} (hs : I s) :
    ∃ fuel r, runLoop body fuel s = some r := by
  generalize hn : m s = n
  induction n using Nat.strong_induction_on generalizing s with
  | _ n ih =>
    cases hb : body s with
    | inr r => exact ⟨1, r, by simp only [runLoop, hb]⟩
    | inl t =>
      obtain ⟨ht, hlt⟩ := step s t hs hb
      obtain ⟨fuel, r, hr⟩ := ih (m t) (by omega) ht rfl
      exact ⟨fuel + 1, r, by simp only [runLoop, hb, hr]⟩

/-- A loop that goes round for ever from some states, and elsewhere makes something smaller, is left
exactly if it comes to none of these. -/
theorem runLoop_leaves_iff_trap {body : σ → σ ⊕ ρ} {trap : σ → Prop} (m : σ → Nat)
    (falls : ∀ s, trap s → ∃ t, body s = .inl t ∧ trap t)
    (step : ∀ s t, ¬trap s → body s = .inl t → m t < m s) (s : σ) :
    (∃ fuel r, runLoop body fuel s = some r) ↔ ∀ t, Iterates body s t → ¬trap t := by
  constructor
  · rintro ⟨fuel, r, hrun⟩ t ht htrap
    obtain ⟨u, hu, hleave⟩ := iterates_of_runLoop hrun
    have hend : trap u := (ht.of_leaves hu hleave).invariant (fun a b ha hb => by
      obtain ⟨c, hc, htrap⟩ := falls a ha
      rwa [Sum.inl.inj (hb.symm.trans hc)]) htrap
    obtain ⟨c, hc, -⟩ := falls u hend
    rw [hc] at hleave
    cases hleave
  · intro hfree
    exact runLoop_of_measure (I := Iterates body s) m
      (fun a b ha hb => ⟨ha.tail hb, step a b (hfree a ha) hb⟩) (.refl s)

/-- What every iteration preserves holds where the loop is left. -/
theorem runLoop_invariant {body : σ → σ ⊕ ρ} {I : σ → Prop}
    (step : ∀ s t, I s → body s = .inl t → I t) {fuel : Nat} {s : σ} {r : ρ}
    (h : runLoop body fuel s = some r) (hs : I s) : ∃ t, I t ∧ body t = .inr r := by
  obtain ⟨t, ht, hr⟩ := iterates_of_runLoop h
  exact ⟨t, ht.invariant step hs, hr⟩

/-- A loop that follows another one is left after as many iterations. -/
theorem runLoop_simulates {σ' ρ' : Type} {body : σ → σ ⊕ ρ} {body' : σ' → σ' ⊕ ρ'}
    {R : σ → σ' → Prop} {Q : ρ → ρ' → Prop}
    (step : ∀ s s' t, R s s' → body s = .inl t → ∃ t', body' s' = .inl t' ∧ R t t')
    {fuel : Nat} {r : ρ}
    (leave : ∀ s s', R s s' → body s = .inr r → ∃ r', body' s' = .inr r' ∧ Q r r')
    {s : σ} {s' : σ'} (h : runLoop body fuel s = some r) (hs : R s s') :
    ∃ r', runLoop body' fuel s' = some r' ∧ Q r r' := by
  induction fuel generalizing s s' with
  | zero => cases h
  | succ fuel ih =>
    rw [runLoop] at h
    split at h
    · rename_i t hb
      obtain ⟨t', hb', ht⟩ := step s s' t hs hb
      obtain ⟨r', hr', hq⟩ := ih h ht
      exact ⟨r', by rw [runLoop, hb']; exact hr', hq⟩
    · rename_i r₁ hb
      obtain rfl := Option.some.inj h
      obtain ⟨r', hb', hq⟩ := leave s s' hs hb
      exact ⟨r', by rw [runLoop, hb'], hq⟩

end Blkcp.Lib
