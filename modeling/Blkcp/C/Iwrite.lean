import Blkcp.Lib.Quota
import Blkcp.C.SyncEffect
set_option autoImplicit false

/-! `dd_iwrite` over any sequence of results of its writes. -/

namespace Blkcp.C
open Blkcp.Lib

/-- An output whose writes give one result after another; a count is at most what was asked for. -/
def tapeOutput (seeks : Bool) (results : Nat → Except Errno Nat) : Output Nat where
  write i _ bytes := (results i |>.map (min · bytes.length), i + 1)
  read i _ := (.ok [], i)
  lseek i _ := (seeks, i)
  isRegular _ := false
  position _ := 0
  ftruncate i _ := (true, i)
  lseekBack i := (seeks, i)
  write_le := by
    intro i direct bytes n j h
    cases hres : results i with
    | error e => simp [hres, Except.map] at h
    | ok m =>
      simp only [hres, Except.map, Prod.mk.injEq, Except.ok.injEq] at h
      rw [← h.1]
      exact Nat.min_le_right _ _

def iwriteCounts (results : Nat → Except Errno Nat) (i : Nat) : Nat :=
  match results i with
  | .ok n => n
  | .error _ => 0

/-- The call ends the loop: an error, but for one that is tried again with success without
`O_DIRECT`. -/
def IwriteFails (direct : Bool) (results : Nat → Except Errno Nat) (i : Nat) : Prop :=
  ∃ e, results i = .error e ∧ e ≠ .eintr ∧
    (e = .einval ∧ direct = true → ¬∃ n, results (i + 1) = .ok n ∧ 0 < n)

/-- The loop is left with the buffer written or after an error. -/
def IwriteDone (results : Nat → Except Errno Nat) (buf : List Byte) :
    Run (Nat × Nat) → Prop
  | .ok (_, total) => total = buf.length ∨ ∃ i e, results i = .error e ∧ e ≠ .eintr
  | .error _ => False

def IwriteEnds (direct : Bool) (results : Nat → Except Errno Nat) (buf : List Byte) : Prop :=
  ∃ fuel r, runLoop (ddIwriteBody (tapeOutput true results) direct buf) fuel (0, 0) = some r ∧
    IwriteDone results buf r

variable {seeks : Bool} {results : Nat → Except Errno Nat} {direct : Bool} {buf : List Byte}

/-- The write at the `k`-th call, of what is left. -/
theorem tapeOutput_write (k w : Nat) : (tapeOutput seeks results).write k direct (buf.drop w) =
    (results k |>.map (min · (buf.length - w)), k + 1) := by
  simp only [tapeOutput, List.length_drop]

/-- What a round comes to before the `k`-th write, with `w` bytes written. -/
inductive IwriteRound (direct : Bool) (results : Nat → Except Errno Nat) (buf : List Byte)
    (k w : Nat) : (Nat × Nat) ⊕ Run (Nat × Nat) → Prop where
  | done : buf.length ≤ w → IwriteRound direct results buf k w (.inr (.ok (k, w)))
  | goes : w < buf.length → ¬IwriteFails direct results k →
      IwriteRound direct results buf k w
        (.inl (k + 1, w + min (iwriteCounts results k) (buf.length - w)))
  | retried : w < buf.length → ¬IwriteFails direct results k → iwriteCounts results k = 0 →
      ¬IwriteFails direct results (k + 1) → IwriteRound direct results buf k w
        (.inl (k + 1 + 1, w + min (iwriteCounts results (k + 1)) (buf.length - w)))
  | stops {j : Nat} : w < buf.length → IwriteFails direct results k → k < j →
      IwriteRound direct results buf k w (.inr (.ok (j, w)))

theorem iwrite_round (seeks : Bool) (results : Nat → Except Errno Nat) (direct : Bool)
    (buf : List Byte) (k w : Nat) :
    IwriteRound direct results buf k w (ddIwriteBody (tapeOutput seeks results) direct buf (k, w)) := by
  rw [ddIwriteBody]
  dsimp only
  split
  · rename_i hdone
    exact .done hdone
  rename_i hleft
  have hlt : w < buf.length := by omega
  rw [tapeOutput_write]
  cases hres : results k with
  | ok n =>
    have hcount : iwriteCounts results k = n := by simp [iwriteCounts, hres]
    rw [← hcount]
    exact .goes hlt fun ⟨e, he, _⟩ => by simp [hres] at he
  | error e =>
    have hcount : iwriteCounts results k = 0 := by simp [iwriteCounts, hres]
    have hfails : ∀ e', results k = .error e' → e' = e := fun e' he' =>
      (Except.error.inj (hres.symm.trans he')).symm
    simp only [Except.map]
    split
    · rename_i he
      have hgoes : IwriteRound direct results buf k w
          (.inl (k + 1, w + min 0 (buf.length - w))) := by
        rw [← hcount]
        exact .goes hlt fun ⟨e', he', hne, _⟩ => hne ((hfails e' he').trans he)
      rwa [Nat.zero_min, Nat.add_zero] at hgoes
    rename_i hne
    split
    · rename_i hretry
      rw [tapeOutput_write]
      cases hnext : results (k + 1) with
      | error e' =>
        refine .stops hlt ⟨e, hres, hne, fun _ ⟨n, hn, _⟩ => ?_⟩ (by omega)
        simp [hnext] at hn
      | ok n =>
        have hcount' : iwriteCounts results (k + 1) = n := by simp [iwriteCounts, hnext]
        simp only [Except.map]
        split
        · rename_i hpos
          rw [← hcount']
          refine .retried hlt (fun ⟨e', he', _, hno⟩ => ?_) hcount
            fun ⟨e', he', _⟩ => by simp [hnext] at he'
          obtain rfl := hfails e' he'
          exact hno hretry ⟨n, hnext, by omega⟩
        · refine .stops hlt ⟨e, hres, hne, fun _ ⟨m, hm, hpos⟩ => ?_⟩ (by omega)
          rw [hnext] at hm
          obtain rfl := Except.ok.inj hm
          omega
    · rename_i hno
      exact .stops hlt ⟨e, hres, hne, fun h => absurd h hno⟩ (by omega)

theorem iwrite_ends_iff : IwriteEnds direct results buf ↔
    ∃ k, Settled (iwriteCounts results) (IwriteFails direct results) buf.length k := by
  refine runLoop_leaves_iff (I := fun k s =>
    s = (k, min buf.length (given (iwriteCounts results) k))) ?_ ?_ (by simp)
  · rintro k _ t rfl hb
    have hround := iwrite_round true results direct buf k
      (min buf.length (given (iwriteCounts results) k))
    rw [hb] at hround
    cases hround with
    | goes hlt hok =>
      refine ⟨k + 1, k.lt_succ_self, by rw [min_given_succ], fun i hki hi => ?_⟩
      obtain rfl : i = k := by omega
      exact not_settled hlt hok
    | retried hlt hok hzero hok' =>
      refine ⟨k + 1 + 1, by omega, ?_, fun i hki hi => ?_⟩
      · rw [min_given_succ, min_given_succ_of_zero hzero]
      · rcases (by omega : i = k ∨ i = k + 1) with rfl | rfl
        · exact not_settled hlt hok
        · exact not_settled (by rwa [min_given_succ_of_zero hzero]) hok'
  · rintro k _ r rfl hb
    have hround := iwrite_round true results direct buf k
      (min buf.length (given (iwriteCounts results) k))
    rw [hb] at hround
    cases hround with
    | done hdone => exact ⟨⟨k, .of_done hdone⟩, .inl (by omega)⟩
    | stops hlt hfails =>
      refine ⟨⟨k, .inr hfails⟩, ?_⟩
      obtain ⟨e, he, hne, -⟩ := hfails
      exact .inr ⟨k, e, he, hne⟩

/-- A call on a buffer writes all of it exactly if none of its writes fails. -/
theorem ddIwriteAll_tape {env : Env} {out out' : OutState Nat} {n : Nat}
    (h : ddIwriteAll (tapeOutput seeks results) env direct buf out = .ok (n, out')) :
    out.file ≤ out'.file ∧ out'.calls = out.calls ++ [⟨buf, n⟩] ∧ n ≤ buf.length ∧
      (n = buf.length ↔ ∀ i, out.file ≤ i → i < out'.file → ¬IwriteFails direct results i) := by
  obtain ⟨⟨file, total⟩, hrun, hrecord⟩ := bind_ok.mp h
  obtain ⟨rfl, rfl⟩ := Prod.mk.inj (pure_ok.mp hrecord)
  have hstep : ∀ s t : Nat × Nat,
      (out.file ≤ s.1 ∧ s.2 ≤ buf.length ∧
        ∀ i, out.file ≤ i → i < s.1 → ¬IwriteFails direct results i) →
      ddIwriteBody (tapeOutput seeks results) direct buf s = .inl t →
      out.file ≤ t.1 ∧ t.2 ≤ buf.length ∧
        ∀ i, out.file ≤ i → i < t.1 → ¬IwriteFails direct results i := by
    rintro ⟨k, w⟩ t ⟨hk, hw, hok⟩ hb
    have hround := iwrite_round seeks results direct buf k w
    rw [hb] at hround
    cases hround with
    | goes hlt hgood =>
      refine ⟨by dsimp only at hk ⊢; omega, by dsimp only; omega, fun i hi hik => ?_⟩
      rcases Nat.lt_succ_iff_lt_or_eq.mp hik with hlt | rfl
      · exact hok i hi hlt
      · exact hgood
    | retried hlt hgood hzero hgood' =>
      refine ⟨by dsimp only at hk ⊢; omega, by dsimp only; omega, fun i hi hik => ?_⟩
      rcases (by dsimp only at hik; omega : i < k ∨ i = k ∨ i = k + 1) with hlt | rfl | rfl
      · exact hok i hi hlt
      · exact hgood
      · exact hgood'
  obtain ⟨⟨k, w⟩, ⟨hk, hw, hok⟩, hleave⟩ := loop_ok hstep hrun
    ⟨Nat.le_refl _, Nat.zero_le _, fun i hi hlt => absurd hi (by dsimp only at hlt; omega)⟩
  have hround := iwrite_round seeks results direct buf k w
  rw [hleave] at hround
  dsimp only at hk hw hok
  cases hround with
  | done hdone => exact ⟨hk, rfl, hw, fun _ => hok, fun _ => Nat.le_antisymm hw hdone⟩
  | stops hlt hfails hkj =>
    refine ⟨by dsimp only [OutState.record]; omega, rfl, hw, fun heq => ?_, fun hnone => ?_⟩
    · omega
    · exact absurd hfails (hnone k hk hkj)

/-- A call that gives nothing is asked for again, and again. -/
theorem iwrite_zero_endless : ¬IwriteEnds false (fun _ => .ok 0) [7] := by
  rw [iwrite_ends_iff]
  rintro ⟨k, hdone | ⟨e, he, -⟩⟩
  · have hzero : given (iwriteCounts fun _ => .ok 0) k = 0 := Finset.sum_eq_zero fun _ _ => rfl
    rw [hzero] at hdone
    exact absurd hdone (by decide)
  · cases he

end Blkcp.C
