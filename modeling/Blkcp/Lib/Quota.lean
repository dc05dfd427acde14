import Mathlib.Algebra.BigOperators.Group.Finset.Basic
import Blkcp.Lib.Loop
set_option autoImplicit false

/-! Loops that make one call after another until an amount is done or a call fails: when they are
left. -/

namespace Blkcp.Lib

variable {σ ρ : Type}

/-- The body of an inner loop: it is also left where `p` first holds. -/
def upTo (p : σ → Bool) (body : σ → σ ⊕ ρ) (s : σ) : σ ⊕ (σ ⊕ ρ) :=
  match body s with
  | .inl t => if p t then .inr (.inl t) else .inl t
  | .inr r => .inr (.inr r)

/-- A loop that goes on over the calls that are not settled, and is left only for one that is. -/
theorem runLoop_leaves_iff {body : σ → σ ⊕ ρ} {I : Nat → σ → Prop} {Q : ρ → Prop}
    {settled : Nat → Prop}
    (step : ∀ k s t, I k s → body s = .inl t →
      ∃ j, k < j ∧ I j t ∧ ∀ i, k ≤ i → i < j → ¬settled i)
    (leave : ∀ k s r, I k s → body s = .inr r → (∃ i, settled i) ∧ Q r) {s : σ} (hs : I 0 s) :
    (∃ fuel r, runLoop body fuel s = some r ∧ Q r) ↔ ∃ k, settled k := by
  constructor
  · rintro ⟨fuel, r, hrun, -⟩
    obtain ⟨t, ⟨k, ht⟩, hr⟩ := runLoop_invariant (I := fun a => ∃ k, I k a)
      (fun a b ⟨k, ha⟩ hb => (step k a b ha hb).imp fun _ hj => hj.2.1) hrun ⟨0, hs⟩
    exact (leave k t r ht hr).1
  · rintro ⟨n, hn⟩
    -- the calls made stay below the settled one, so there are ever fewer before it
    suffices key : ∀ m k a, n - k = m → I k a → (∀ i, i < k → ¬settled i) →
        ∃ fuel r, runLoop body fuel a = some r ∧ Q r from
      key n 0 s rfl hs fun i hi => absurd hi (Nat.not_lt_zero i)
    intro m
    induction m using Nat.strong_induction_on with
    | _ m ih =>
      intro k a hm ha hbefore
      cases hb : body a with
      | inr r => exact ⟨1, r, by simp only [runLoop, hb], (leave k a r ha hb).2⟩
      | inl t =>
        obtain ⟨j, hkj, ht, hbetween⟩ := step k a t ha hb
        have hnext : ∀ i, i < j → ¬settled i := by
          intro i hi
          rcases Nat.lt_or_ge i k with h | h
          · exact hbefore i h
          · exact hbetween i h hi
        have hle : j ≤ n := by
          by_contra hgt
          exact hnext n (by omega) hn
        obtain ⟨fuel, r, hrun, hr⟩ := ih (n - j) (by omega) j t rfl ht hnext
        exact ⟨fuel + 1, r, by simp only [runLoop, hb, hrun], hr⟩

/-- What a round that is the `k`-th call comes to. -/
def Round (I : Nat → σ → Prop) (Q : ρ → Prop) (settled : Nat → Prop) (k : Nat) : σ ⊕ ρ → Prop
  | .inl t => I (k + 1) t ∧ ¬settled k
  | .inr r => settled k ∧ Q r

theorem runLoop_leaves_iff_round {body : σ → σ ⊕ ρ} {I : Nat → σ → Prop} {Q : ρ → Prop}
    {settled : Nat → Prop} (round : ∀ k s, I k s → Round I Q settled k (body s)) {s : σ}
    (hs : I 0 s) :
    (∃ fuel r, runLoop body fuel s = some r ∧ Q r) ↔ ∃ k, settled k := by
  refine runLoop_leaves_iff (fun k a b ha hb => ?_) (fun k a r ha hb => ?_) hs
  · have h := round k a ha
    rw [hb] at h
    refine ⟨k + 1, k.lt_succ_self, h.1, fun i hki hi => ?_⟩
    rw [show i = k by omega]
    exact h.2
  · have h := round k a ha
    rw [hb] at h
    exact ⟨⟨k, h.1⟩, h.2⟩

section Settled

variable {counts : Nat → Nat} {fails : Nat → Prop} {len k : Nat}

/-- What the first `k` calls give together. -/
def given (counts : Nat → Nat) (k : Nat) : Nat := (Finset.range k).sum counts

@[simp] theorem given_zero : given counts 0 = 0 := rfl

theorem given_succ (k : Nat) : given counts (k + 1) = given counts k + counts k :=
  Finset.sum_range_succ counts k

theorem given_mono {j : Nat} (h : k ≤ j) : given counts k ≤ given counts j := by
  induction h with
  | refl => exact Nat.le_refl _
  | step _ ih => exact ih.trans (by rw [given_succ]; exact Nat.le_add_right _ _)

/-- Before the `k`-th call an amount is done, or the call fails. -/
def Settled (counts : Nat → Nat) (fails : Nat → Prop) (len k : Nat) : Prop :=
  len ≤ given counts k ∨ fails k

theorem Settled.of_done (h : len ≤ min len (given counts k)) : Settled counts fails len k :=
  .inl (h.trans (Nat.min_le_right _ _))

theorem not_settled (hlt : min len (given counts k) < len) (hok : ¬fails k) :
    ¬Settled counts fails len k := by
  rintro (h | h)
  · omega
  · exact hok h

/-- A call that gives what it can of what is left. -/
theorem min_given_succ : min len (given counts (k + 1)) =
    min len (given counts k) + min (counts k) (len - min len (given counts k)) := by
  rw [given_succ]
  omega

theorem min_given_succ_of_zero (h : counts k = 0) :
    min len (given counts (k + 1)) = min len (given counts k) := by
  rw [given_succ, h, Nat.add_zero]

end Settled

end Blkcp.Lib
