import Blkcp.Lib.Overwrite
set_option autoImplicit false

/-! Machines that go over a text item by item, put out tokens on the way and at the end, and may
stop with an error. -/

namespace Blkcp.Lib

/-- What is said of the items of a text is decided along the text, whatever else the type offers. -/
instance (priority := high) decidableForallMem {α : Type*} (p : α → Prop) [DecidablePred p]
    (as : List α) : Decidable (∀ a ∈ as, p a) :=
  List.decidableBAll p as

/-- `close` is what happens at the end of the text. -/
structure Scanner (σ α β ε : Type) where
  step : σ → α → Except ε (List β × σ)
  close : σ → Except ε (List β)

namespace Scanner

variable {σ α β ε : Type} (M : Scanner σ α β ε)

/-- What is put out over a text, and the state behind it. -/
def run : σ → List α → Except ε (List β × σ)
  | s, [] => .ok ([], s)
  | s, a :: as => do
    let (out, t) ← M.step s a
    let (more, u) ← run t as
    .ok (out ++ more, u)

/-- The tokens of a text that is gone through to its end. -/
def read (s : σ) (as : List α) : Except ε (List β) := do
  let (out, t) ← M.run s as
  let last ← M.close t
  .ok (out ++ last)

variable {s t : σ} {a : α} {out : List β}

theorem run_append (s : σ) (as bs : List α) :
    M.run s (as ++ bs) = (do
      let (out, t) ← M.run s as
      let (more, u) ← M.run t bs
      .ok (out ++ more, u)) := by
  induction as generalizing s with
  | nil =>
    rw [List.nil_append]
    change M.run s bs = (M.run s bs >>= fun p => .ok ([] ++ p.1, p.2))
    cases M.run s bs <;> rfl
  | cons c as ih =>
    simp only [List.cons_append, run, bind_assoc]
    cases M.step s c with
    | error e => rfl
    | ok p =>
      simp only [bind, Except.bind, ih]
      cases M.run p.2 as with
      | error e => rfl
      | ok q =>
        simp only
        cases M.run q.2 bs with
        | error e => rfl
        | ok r => simp only [List.append_assoc]

theorem run_of_run {as : List α} (h : M.run s as = .ok (out, t)) (bs : List α) :
    M.run s (as ++ bs) = (M.run t bs).map fun p => (out ++ p.1, p.2) := by
  rw [run_append, h]
  simp only [bind, Except.bind]
  cases M.run t bs <;> rfl

theorem run_trans {as bs : List α} {more : List β} {u : σ} (h : M.run s as = .ok (out, t))
    (h' : M.run t bs = .ok (more, u)) : M.run s (as ++ bs) = .ok (out ++ more, u) := by
  rw [M.run_of_run h, h']
  rfl

theorem run_of_quiet_step (h : M.step s a = .ok ([], t)) (as : List α) :
    M.run s (a :: as) = M.run t as := by
  rw [run, h]
  simp only [bind, Except.bind, List.nil_append]
  cases M.run t as <;> rfl

theorem run_congr (h : M.step s a = M.step t a) (as : List α) :
    M.run s (a :: as) = M.run t (a :: as) := by
  rw [run, run, h]

theorem read_nil (s : σ) : M.read s [] = M.close s := by
  unfold read run
  simp only [bind, Except.bind, List.nil_append]
  cases M.close s <;> rfl

theorem read_of_run {as : List α} (h : M.run s as = .ok (out, t)) (bs : List α) :
    M.read s (as ++ bs) = (M.read t bs).map (out ++ ·) := by
  unfold read
  rw [run_append, h]
  simp only [bind, Except.bind]
  cases M.run t bs with
  | error e => rfl
  | ok p =>
    simp only
    cases M.close p.2 with
    | error e => rfl
    | ok last => simp only [Except.map, List.append_assoc]

theorem read_append_eq_ok_iff {as : List α} (h : M.run s as = .ok (out, t)) {bs : List α}
    {ts : List β} :
    M.read s (as ++ bs) = .ok ts ↔ ∃ more, M.read t bs = .ok more ∧ ts = out ++ more := by
  rw [M.read_of_run h]
  cases M.read t bs with
  | error e => exact ⟨nofun, nofun⟩
  | ok more => simp [Except.map, eq_comm]

theorem read_of_step (h : M.step s a = .ok (out, t)) (as : List α) :
    M.read s (a :: as) = (M.read t as).map (out ++ ·) := by
  have hr : M.run s [a] = .ok (out, t) := by
    simp only [run, h, bind, Except.bind, List.append_nil]
  exact M.read_of_run hr as

theorem read_of_quiet_step (h : M.step s a = .ok ([], t)) (as : List α) :
    M.read s (a :: as) = M.read t as := by
  rw [M.read_of_step h]
  cases M.read t as <;> rfl

theorem read_of_error {e : ε} (h : M.step s a = .error e) (as : List α) :
    M.read s (a :: as) = .error e := by
  unfold read run
  rw [h]
  rfl

theorem read_congr (h : M.step s a = M.step t a) (as : List α) :
    M.read s (a :: as) = M.read t (a :: as) := by
  unfold read
  rw [M.run_congr h]

end Scanner

end Blkcp.Lib
