import Mathlib.Data.List.Basic
set_option autoImplicit false

/-! A position that moves on over places that are marked or passed by, where what is marked is not
settled at once but in batches: a batch is as long as the places marked since the last one, and ends
at the position. -/

namespace Blkcp.Lib

inductive Advance where
  | mark (n : Nat)
  | pass (n : Nat)
  deriving DecidableEq, Repr

/-- `settled` holds the batches so far, each with its offset and length. -/
structure Batch where
  pos : Nat
  pending : Nat := 0
  settled : List (Nat × Nat) := []
  deriving DecidableEq, Repr

namespace Batch

def settle (b : Batch) : Batch where
  pos := b.pos
  settled := b.settled ++ [(b.pos - b.pending, b.pending)]

/-- A batch is settled when `T` places are marked. -/
def step (T : Nat) (b : Batch) : Advance → Batch
  | .mark n =>
    let b : Batch := { b with pos := b.pos + n, pending := b.pending + n }
    if T ≤ b.pending then b.settle else b
  | .pass n => { b with pos := b.pos + n }

def finish (b : Batch) : Batch := if 0 < b.pending then b.settle else b

def run (T : Nat) (b : Batch) (advances : List Advance) : Batch := advances.foldl (step T) b

/-- A place lies in a batch that is settled. -/
def Settled (b : Batch) (x : Nat) : Prop := ∃ r ∈ b.settled, r.1 ≤ x ∧ x < r.1 + r.2

/-- A place is marked on the way from a position on. -/
def Marked : Nat → List Advance → Nat → Prop
  | _, [], _ => False
  | pos, .mark n :: rest, x => (pos ≤ x ∧ x < pos + n) ∨ Marked (pos + n) rest x
  | pos, .pass n :: rest, x => Marked (pos + n) rest x

/-- No place is passed by while some are marked and not settled. -/
def Tight (T : Nat) : Batch → List Advance → Prop
  | _, [] => True
  | b, .mark n :: rest => Tight T (b.step T (.mark n)) rest
  | b, .pass n :: rest => (n = 0 ∨ b.pending = 0) ∧ Tight T (b.step T (.pass n)) rest

/-- The places that the next batch would settle. -/
def Window (b : Batch) (x : Nat) : Prop := b.pos - b.pending ≤ x ∧ x < b.pos

/-- What is marked lies behind the start, and each batch before those that come after it. -/
structure Ordered (b : Batch) : Prop where
  pending_le : b.pending ≤ b.pos
  settled_le : ∀ r ∈ b.settled, r.1 + r.2 ≤ b.pos - b.pending
  apart : b.settled.Pairwise fun r r' => r.1 + r.2 ≤ r'.1

theorem ordered_fresh (start : Nat) : Ordered ⟨start, 0, []⟩ :=
  ⟨Nat.zero_le _, by simp, .nil⟩

variable {T x : Nat} {b : Batch} {advances : List Advance}

@[simp] theorem settled_settle (h : b.pending ≤ b.pos) :
    b.settle.Settled x ↔ b.Settled x ∨ b.Window x := by
  unfold Settled Window settle
  simp only [List.mem_append, List.mem_singleton, or_and_right, exists_or, exists_eq_left]
  rw [Nat.sub_add_cancel h]

theorem Ordered.settle (h : b.Ordered) : b.settle.Ordered where
  pending_le := Nat.zero_le _
  settled_le r hr := by
    rcases List.mem_append.mp hr with hr | hr
    · exact Nat.le_trans (h.settled_le r hr) (Nat.sub_le _ _)
    · rw [List.mem_singleton.mp hr]
      exact Nat.le_of_eq (Nat.sub_add_cancel h.pending_le)
  apart := by
    refine List.pairwise_append.mpr ⟨h.apart, List.pairwise_singleton _ _, ?_⟩
    intro r hr r' hr'
    rw [List.mem_singleton.mp hr']
    exact h.settled_le r hr

theorem Ordered.mark (h : b.Ordered) (n : Nat) :
    Ordered { b with pos := b.pos + n, pending := b.pending + n } where
  pending_le := Nat.add_le_add_right h.pending_le n
  settled_le r hr := by
    have hle := h.settled_le r hr
    dsimp only
    omega
  apart := h.apart

theorem Ordered.step (h : b.Ordered) (a : Advance) : (b.step T a).Ordered := by
  cases a with
  | mark n =>
    dsimp only [Batch.step]
    split
    · exact (h.mark n).settle
    · exact h.mark n
  | pass n =>
    refine ⟨Nat.le_trans h.pending_le (Nat.le_add_right _ n), ?_, h.apart⟩
    intro r hr
    have hle := h.settled_le r hr
    dsimp only [Batch.step]
    omega

theorem Ordered.finish (h : b.Ordered) : b.finish.Ordered := by
  unfold Batch.finish
  split
  · exact h.settle
  · exact h

/-- A step settles at most the window. -/
theorem settled_step (h : b.Ordered) (n : Nat) :
    (b.step T (.mark n)).Settled x ∨ (b.step T (.mark n)).Window x ↔
      b.Settled x ∨ b.Window x ∨ b.pos ≤ x ∧ x < b.pos + n := by
  have hle := h.pending_le
  have hwindow : Window { b with pos := b.pos + n, pending := b.pending + n } x ↔
      b.Window x ∨ b.pos ≤ x ∧ x < b.pos + n := by
    simp only [Window]
    omega
  dsimp only [step]
  split
  · have hempty : ¬ (settle { b with pos := b.pos + n, pending := b.pending + n }).Window x := by
      simp only [Window, settle]
      omega
    rw [settled_settle (h.mark n).pending_le, or_iff_left hempty, hwindow]
    exact Iff.rfl
  · rw [hwindow]
    exact Iff.rfl

theorem settled_finish (h : b.Ordered) : b.finish.Settled x ↔ b.Settled x ∨ b.Window x := by
  unfold finish
  split
  · exact settled_settle h.pending_le
  · rename_i hzero
    have hempty : ¬ b.Window x := by
      simp only [Window]
      omega
    rw [or_iff_left hempty]

/-- As long as nothing is passed by, the places marked are settled or in the window. -/
theorem settled_of_tight (h : b.Ordered) (htight : Tight T b advances) :
    (b.run T advances).finish.Settled x ↔
      b.Settled x ∨ b.Window x ∨ Marked b.pos advances x := by
  induction advances generalizing b with
  | nil => simp [run, Marked, settled_finish h]
  | cons a rest ih =>
    cases a with
    | mark n =>
      have hpos : (b.step T (.mark n)).pos = b.pos + n := by
        dsimp only [step]
        split <;> rfl
      rw [run, List.foldl_cons, ← run, ih (h.step _) htight, ← or_assoc, settled_step h, hpos,
        Marked]
      tauto
    | pass n =>
      obtain ⟨hgap, htight⟩ := htight
      have hle := h.pending_le
      have hwindow : (b.step T (.pass n)).Window x ↔ b.Window x := by
        simp only [Window, step]
        omega
      rw [run, List.foldl_cons, ← run, ih (h.step _) htight, hwindow, Marked]
      exact Iff.rfl

theorem Settled.step (h : b.Settled x) (a : Advance) : (b.step T a).Settled x := by
  obtain ⟨r, hr, hx⟩ := h
  cases a with
  | mark n =>
    dsimp only [Batch.step]
    split
    · exact ⟨r, List.mem_append_left _ hr, hx⟩
    · exact ⟨r, hr, hx⟩
  | pass n => exact ⟨r, hr, hx⟩

/-- What the window has left behind is not settled later. -/
theorem lost_of_behind (h : b.Ordered) (hx : x < b.pos - b.pending) (hlost : ¬ b.Settled x) :
    ¬ (b.run T advances).finish.Settled x := by
  induction advances generalizing b with
  | nil =>
    rw [run, List.foldl_nil, settled_finish h]
    rintro (hset | hwindow)
    · exact hlost hset
    · exact absurd hwindow.1 (Nat.not_le.mpr hx)
  | cons a rest ih =>
    rw [run, List.foldl_cons, ← run]
    have hle := h.pending_le
    cases a with
    | mark n =>
      have hstay : ¬ ((b.step T (.mark n)).Settled x ∨ (b.step T (.mark n)).Window x) := by
        rw [settled_step h]
        rintro (hset | hwindow | hmark)
        · exact hlost hset
        · exact absurd hwindow.1 (Nat.not_le.mpr hx)
        · omega
      refine ih (h.step _) ?_ fun hset => hstay (.inl hset)
      dsimp only [step]
      split
      · simp only [settle]
        omega
      · dsimp only
        omega
    | pass n =>
      refine ih (h.step _) ?_ hlost
      dsimp only [step]
      omega

/-- Where a place is passed by too early, the first place of the window is lost. -/
theorem lost_of_not_tight (h : b.Ordered) (htight : ¬ Tight T b advances) :
    ∃ x, (b.Window x ∨ Marked b.pos advances x) ∧ ¬ b.Settled x ∧
      ¬ (b.run T advances).finish.Settled x := by
  induction advances generalizing b with
  | nil => exact absurd trivial htight
  | cons a rest ih =>
    have hle := h.pending_le
    cases a with
    | mark n =>
      have hpos : (b.step T (.mark n)).pos = b.pos + n := by
        dsimp only [step]
        split <;> rfl
      obtain ⟨x, hx, hunset, hlost⟩ := ih (h.step _) htight
      have hunset : ¬ b.Settled x := fun hset => hunset (hset.step _)
      refine ⟨x, ?_, hunset, hlost⟩
      rw [hpos] at hx
      rcases hx with hwindow | hmarked
      · rcases (settled_step h n).mp (.inr hwindow) with hset | hwindow | hmark
        · exact absurd hset hunset
        · exact .inl hwindow
        · exact .inr (.inl hmark)
      · exact .inr (.inr hmarked)
    | pass n =>
      by_cases hgap : n = 0 ∨ b.pending = 0
      · have hrest : ¬ Tight T (b.step T (.pass n)) rest := fun hrest => htight ⟨hgap, hrest⟩
        obtain ⟨x, hx, hunset, hlost⟩ := ih (h.step _) hrest
        refine ⟨x, ?_, hunset, hlost⟩
        rcases hx with hwindow | hmarked
        · refine .inl ?_
          simp only [Window, step] at hwindow ⊢
          omega
        · exact .inr hmarked
      · -- the window moves on, and its first place stays behind
        have hbehind : b.pos - b.pending < (b.step T (.pass n)).pos - b.pending := by
          dsimp only [step]
          omega
        have hunset : ¬ b.Settled (b.pos - b.pending) := by
          rintro ⟨r, hr, -, hlt⟩
          exact absurd hlt (Nat.not_lt.mpr (h.settled_le r hr))
        refine ⟨b.pos - b.pending, .inl ⟨Nat.le_refl _, by omega⟩, hunset, ?_⟩
        exact lost_of_behind (b := b.step T (.pass n)) (h.step _) hbehind hunset

theorem Ordered.run (T : Nat) (advances : List Advance) (h : b.Ordered) :
    (b.run T advances).Ordered := by
  induction advances generalizing b with
  | nil => exact h
  | cons a rest ih => exact ih (h.step a)

/-- Fewer than `T` places wait. -/
theorem pending_lt (advances : List Advance) (h : b.pending < T) :
    (b.run T advances).pending < T := by
  induction advances generalizing b with
  | nil => exact h
  | cons a rest ih =>
    refine ih ?_
    cases a with
    | mark n =>
      dsimp only [step]
      split
      · exact Nat.zero_lt_of_lt h
      · rename_i hfew
        exact Nat.not_le.mp hfew
    | pass n => exact h

/-- From a fresh start all that is marked is settled in the end exactly if nothing is passed by while
places wait for their batch; then nothing else is. -/
theorem settles_iff (T start : Nat) (advances : List Advance) :
    (∀ x, Marked start advances x → (run T ⟨start, 0, []⟩ advances).finish.Settled x) ↔
      Tight T ⟨start, 0, []⟩ advances := by
  have hfresh := ordered_fresh start
  have hempty {x : Nat} : ¬ Window ⟨start, 0, []⟩ x := by
    simp only [Window]
    omega
  constructor
  · intro hall
    by_contra htight
    obtain ⟨x, hwindow | hmarked, -, hlost⟩ := lost_of_not_tight hfresh htight
    · exact hempty hwindow
    · exact hlost (hall x hmarked)
  · intro htight x hmarked
    exact (settled_of_tight hfresh htight).mpr (.inr (.inr hmarked))

end Batch

end Blkcp.Lib
