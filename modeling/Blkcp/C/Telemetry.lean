import Blkcp.C.ShardsCopy
set_option autoImplicit false

/-! The counters that the step function of the sharded driver leaves when it reports the end. -/

namespace Blkcp.C
open Blkcp.Lib

variable {n : Nat} {α : Type}
variable {cfg : Config} {inStartPos outStartPos totalBytes : Nat} {input : List α}
variable {s t : ShardState n α} {a : ShardAct n}

/-- Which counters a worker has added to since the step function loaded them. -/
structure Late where
  bytes : Bool
  full : Bool
  part : Bool
  deriving DecidableEq

def Late.none : Late := ⟨false, false, false⟩

variable (cfg) in
/-- How the steps go on to make the loaded counters late. -/
def trackLate (late : Late) (s : ShardState n α) : ShardAct n → Late
  | .loadsBytes => { late with bytes := false }
  | .loadsFull => { late with full := false }
  | .loadsPartial => { late with part := false }
  | .addsBytes _ => { late with bytes := true }
  | .addsRecord w =>
    match s.phase w with
    | .countingRecord _ _ _ _ res =>
      if res = shardBlockSize cfg then { late with full := true } else { late with part := true }
    | _ => late
  | _ => late

/-- A counter and what was loaded of it. -/
def Loaded (loaded counter : Nat) (late : Bool) : Prop :=
  loaded ≤ counter ∧ (loaded = counter ↔ late = false)

theorem Loaded.now (counter : Nat) : Loaded counter counter false :=
  ⟨Nat.le_refl _, fun _ => rfl, fun _ => rfl⟩

theorem Loaded.add {loaded counter m : Nat} {late : Bool} (h : Loaded loaded counter late)
    (hm : 0 < m) : Loaded loaded (counter + m) true := by
  have hle := h.1
  exact ⟨by omega, fun heq => by omega, nofun⟩

/-- The counters of a state and what the step function has loaded of them. -/
structure Counters (s : ShardState n α) (late : Late) : Prop where
  active : s.activeWorkers = ∑ w, (s.phase w).running
  ended : s.step = .returned .success true → ∀ w, s.phase w = .done
  positive : ∀ w offset done bytes written res,
    s.phase w = .countingBytes offset done bytes written res → 0 < res
  bytes : Loaded s.stats.wBytes s.bytesWritten late.bytes
  full : Loaded s.stats.rFull s.recordsFull late.full
  part : Loaded s.stats.rPartial s.recordsPartial late.part
  full_eq : s.stats.wFull = s.stats.rFull
  part_eq : s.stats.wPartial = s.stats.rPartial

/-- The counters as the step function left them are those of all later states. -/
def CountsComplete (S : System (ShardState n α) (ShardAct n)) (s : ShardState n α) : Prop :=
  ∀ t, S.Leads s t → s.stats.wBytes = t.bytesWritten ∧
    s.stats.rFull = t.recordsFull ∧ s.stats.wFull = t.recordsFull ∧
    s.stats.rPartial = t.recordsPartial ∧ s.stats.wPartial = t.recordsPartial

section Steps

theorem counters_start : Counters (ShardState.start n : ShardState n α) .none where
  active := by
    show n = ∑ _ : Fin n, 1
    rw [Finset.sum_const, Finset.card_univ, Fintype.card_fin]
    exact (Nat.mul_one n).symm
  ended h := by cases h
  positive _ _ _ _ _ _ h := by cases h
  bytes := .now 0
  full := .now 0
  part := .now 0
  full_eq := rfl
  part_eq := rfl

/-- The workers that run, through a step. -/
theorem running_step {late : Late} (h : Counters s late)
    (hst : ShardStep cfg inStartPos outStartPos totalBytes input s a t) :
    t.activeWorkers = ∑ w, (t.phase w).running ∧
      (t.step = .returned .success true → ∀ w, t.phase w = .done) := by
  rcases step_kind hst with ⟨w, p, hphase, hstep, hrun, hcount⟩ | ⟨hphase, hcount, -, -, hret⟩
  · refine ⟨?_, fun ht => ?_⟩
    · have hsum := s.sum_running_goto w p
      have hactive := h.active
      rw [hrun] at hsum
      rw [hphase]
      omega
    · rw [hstep] at ht
      rw [h.ended ht w] at hrun
      cases hrun
  · refine ⟨by rw [hphase, hcount, h.active], fun ht w => ?_⟩
    have hsum := h.active
    rw [(hret ht).2] at hsum
    rw [hphase]
    exact WorkerPhase.running_eq_zero (Finset.sum_eq_zero_iff.mp hsum.symm w (Finset.mem_univ w))

/-- A worker about to count bytes has written some. -/
def CountsSome (p : WorkerPhase α) : Prop :=
  ∀ offset done bytes written res, p = .countingBytes offset done bytes written res → 0 < res

theorem positive_goto {late : Late} (h : Counters s late) {w : Fin n} {p : WorkerPhase α}
    (hp : CountsSome p) (v : Fin n) : CountsSome ((s.goto w p).phase v) := by
  by_cases hv : v = w
  · rw [hv, ShardState.phase_goto_self]
    exact hp
  · rw [ShardState.phase_goto_of_ne _ _ hv]
    exact h.positive v

theorem counters_step {late : Late} (h : Counters s late)
    (hst : ShardStep cfg inStartPos outStartPos totalBytes input s a t) :
    Counters t (trackLate cfg late s a) := by
  obtain ⟨hactive, hended⟩ := running_step h hst
  cases hst
  case addsBytes w offset done bytes written res hp =>
    exact ⟨hactive, hended, positive_goto h nofun,
      h.bytes.add (h.positive w _ _ _ _ _ hp), h.full, h.part, h.full_eq, h.part_eq⟩
  case addsRecord w offset done bytes written res hp =>
    have hfull := h.full
    have hpart := h.part
    refine ⟨hactive, hended, positive_goto h nofun, ?_, ?_, ?_, h.full_eq, h.part_eq⟩
    all_goals simp only [trackLate, hp]
    · split <;> exact h.bytes
    · split
      · exact h.full.add Nat.one_pos
      · exact h.full
    · split
      · exact h.part
      · exact h.part.add Nat.one_pos
  case writes w m offset done bytes written hp hlt hm hle =>
    refine ⟨hactive, hended, positive_goto h ?_, h.bytes, h.full, h.part, h.full_eq, h.part_eq⟩
    intro _ _ _ _ _ heq
    cases heq
    exact hm
  case loadsBytes hp =>
    exact ⟨hactive, hended, h.positive, .now _, h.full, h.part, h.full_eq, h.part_eq⟩
  case loadsFull hp =>
    exact ⟨hactive, hended, h.positive, h.bytes, .now _, h.part, rfl, h.part_eq⟩
  case loadsPartial hp =>
    exact ⟨hactive, hended, h.positive, h.bytes, h.full, .now _, h.full_eq, rfl⟩
  case begins | loadsAbort | loadsError | loadsActive =>
    exact ⟨hactive, hended, h.positive, h.bytes, h.full, h.part, h.full_eq, h.part_eq⟩
  all_goals
    exact ⟨hactive, hended, positive_goto h nofun, h.bytes, h.full, h.part, h.full_eq, h.part_eq⟩

/-- After the end nobody takes a step. -/
theorem stuck_of_ended {late : Late} (h : Counters s late)
    (hend : s.step = .returned .success true) :
    ¬ShardStep cfg inStartPos outStartPos totalBytes input s a t := by
  intro hst
  have hdone := h.ended hend
  cases hst <;> simp_all [WorkerPhase.inChunk]

end Steps

/-- The end is reported with complete counters if and only if no worker has added to a counter
between its load and that of `active_workers`. -/
theorem telemetry_complete_iff {late : Late}
    (h : ((shardedSystem cfg inStartPos outStartPos totalBytes input n).traced .none
      (trackLate cfg)).Reachable (s, late)) (hend : s.step = .returned .success true) :
    CountsComplete (shardedSystem cfg inStartPos outStartPos totalBytes input n) s ↔
      late = .none := by
  have hs : Counters s late := by
    refine h.invariant (I := fun x => Counters x.1 x.2) ?_ ?_
    · rintro ⟨s, late⟩ ⟨rfl, rfl⟩
      exact counters_start
    · rintro ⟨s, late⟩ a ⟨t, late'⟩ hs ⟨hst, rfl⟩
      exact counters_step hs hst
  constructor
  · intro hcomplete
    obtain ⟨hbytes, hfull, -, hpart, -⟩ := hcomplete s (.refl s)
    have hb := hs.bytes.2.mp hbytes
    have hf := hs.full.2.mp hfull
    have hp := hs.part.2.mp hpart
    cases late
    simp only at hb hf hp
    rw [hb, hf, hp]
    rfl
  · rintro rfl t ht
    obtain rfl := ht.eq_of_stuck fun a u => stuck_of_ended hs hend
    have hfull := hs.full.2.mpr rfl
    have hpart := hs.part.2.mpr rfl
    exact ⟨hs.bytes.2.mpr rfl, hfull, hs.full_eq.trans hfull, hpart, hs.part_eq.trans hpart⟩

section Example

def oneShard : Config := { engine := .uring, threads := 1, blocksize := 2 }

/-- The step function loads its counters before the worker has written, and the number of workers
after it has ended. -/
theorem oneShard_early : ∃ x : ShardState 1 Nat × Late,
    ((shardedSystem oneShard 0 0 2 [7, 8] 1).traced .none (trackLate oneShard)).Reachable x ∧
      x.1.step = .returned .success true ∧ x.1.stats.wBytes = 0 ∧ x.1.bytesWritten = 2 := by
  have start : ((shardedSystem oneShard 0 0 2 [7, 8] 1).traced .none
      (trackLate oneShard)).Reachable (ShardState.start 1, .none) := .init ⟨rfl, rfl⟩
  have h1 := start.step_traced (.loadsBytes _ rfl)
  have h2 := h1.step_traced (.loadsFull _ rfl)
  have h3 := h2.step_traced (.loadsPartial _ rfl)
  have h4 := h3.step_traced (.loadsAbort _ rfl)
  have h5 := h4.step_traced (.passes _ 0 rfl)
  have h6 := h5.step_traced (.claims _ 0 rfl (by decide))
  have h7 := h6.step_traced (.submits _ 0 _ _ rfl (by decide))
  have h8 := h7.step_traced
    (.reads _ 0 2 0 0 [7, 8] rfl (by decide) (by decide) (by decide) rfl)
  have h9 := h8.step_traced (.writes _ 0 2 _ _ _ _ rfl (by decide) (by decide) (by decide))
  have h10 := h9.step_traced (.addsBytes _ 0 _ _ _ _ _ rfl)
  have h11 := h10.step_traced (.addsRecord _ 0 _ _ _ _ _ rfl)
  have h12 := h11.step_traced (.delivers _ 0 _ _ _ _ rfl (by decide) (by decide))
  have h13 := h12.step_traced (.finishes _ 0 _ _ rfl (by decide))
  have h14 := h13.step_traced (.passes _ 0 rfl)
  have h15 := h14.step_traced (.exhausts _ 0 rfl (by decide))
  have h16 := h15.step_traced (.ends _ 0 rfl)
  have h17 := h16.step_traced (.loadsActive _ rfl)
  exact ⟨_, h17, rfl, rfl, rfl⟩

/-- Of two bytes written none is reported. -/
theorem telemetry_early : ∃ s : ShardState 1 Nat,
    (shardedSystem oneShard 0 0 2 [7, 8] 1).Reachable s ∧ s.step = .returned .success true ∧
      ¬CountsComplete (shardedSystem oneShard 0 0 2 [7, 8] 1) s := by
  obtain ⟨x, hx, hend, hloaded, hwritten⟩ := oneShard_early
  refine ⟨x.1, hx.of_traced, hend, fun hcomplete => ?_⟩
  have hbytes := (hcomplete x.1 (.refl _)).1
  rw [hloaded, hwritten] at hbytes
  cases hbytes

theorem telemetry_complete_iff_early : ∃ x : ShardState 1 Nat × Late,
    x.1.step = .returned .success true ∧
      (CountsComplete (shardedSystem oneShard 0 0 2 [7, 8] 1) x.1 ↔ x.2 = .none) := by
  obtain ⟨x, hx, hend, -⟩ := oneShard_early
  exact ⟨x, hend, telemetry_complete_iff hx hend⟩

end Example

end Blkcp.C
