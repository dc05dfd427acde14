import Blkcp.Rust.Sharded
set_option autoImplicit false

/-! A sharded copy that succeeds is exact: the stripes are filled from the input, whatever the order
of the workers' steps. -/

namespace Blkcp.Rust
open Blkcp.Lib Blkcp.Blks

variable {n : Nat}

/-- How many bytes there are to copy: the total, or what the input has if that is less. -/
def copyLength (cfg : Config) (metaLen : Option Nat) (input : List Byte) : Nat :=
  match totalBytesToCopy cfg metaLen with
  | some total => min total (input.length - cfg.skipBytes)
  | none => input.length - cfg.skipBytes

def copyRange (cfg : Config) (metaLen : Option Nat) (input : List Byte) : List Byte :=
  (input.drop cfg.skipBytes).take (copyLength cfg metaLen input)

namespace ShardState

@[simp] theorem phase_goto_self (s : ShardState n) (w : Fin n) (p : ShardPhase) :
    (s.goto w p).phase w = p := by
  simp [phase, goto]

@[simp] theorem phase_goto_of_ne (s : ShardState n) {w v : Fin n} (p : ShardPhase) (h : v ≠ w) :
    (s.goto w p).phase v = s.phase v := by
  simp [phase, goto, h]

theorem phase_update_self (s : ShardState n) (w : Fin n) (x : ShardWorker) :
    phase { s with workers := Function.update s.workers w x } w = x.phase := by
  simp [phase]

theorem phase_update_of_ne (s : ShardState n) {w v : Fin n} (x : ShardWorker) (h : v ≠ w) :
    phase { s with workers := Function.update s.workers w x } v = s.phase v := by
  simp [phase, h]

/-- Some worker has ended with an error. -/
def Failed (s : ShardState n) : Prop := ∃ w e, s.phase w = .done (.error e)

/-- Why a worker may end without an error. -/
def Enough (C N : Nat) (s : ShardState n) (T : Stripes (Fin n)) : Prop :=
  s.cancelled = true ∨ s.Failed ∨ N ≤ C * T.claimed

end ShardState

/-- How the stripes follow the steps of the workers. -/
def trackStripes (T : Stripes (Fin n)) (_ : ShardState n) : ShardAct n → Stripes (Fin n)
  | .exhausts w => (T.claim w).close w
  | .claims w => T.claim w
  | .finishes w | .readsEof w => T.close w
  | .writes w m => T.fill w m
  | _ => T

section Invariant

variable (cfg : Config) (metaLen : Option Nat) (input : List Byte)

/-- What a worker knows of the stripe it holds open. -/
def PhaseOk (T : Stripes (Fin n)) (w : Fin n) : ShardPhase → Prop
  | .starting | .check | .claiming | .done (.ok _) => T.opened w = none
  | .stripe base done _ =>
    ∃ j, T.opened w = some j ∧ base = shardChunkSize cfg * j ∧ T.filled j = done
  | .reading base done _ =>
    ∃ j, T.opened w = some j ∧ base = shardChunkSize cfg * j ∧ T.filled j = done ∧
      done < thisChunkLen cfg metaLen base
  | .writing base done _ bytes written =>
    ∃ j, T.opened w = some j ∧ base = shardChunkSize cfg * j ∧ T.filled j = done + written ∧
      written ≤ bytes.length ∧
      bytes = ((copyRange cfg metaLen input).drop (base + done)).take bytes.length ∧
      done + bytes.length ≤ stripeLen (shardChunkSize cfg) (copyLength cfg metaLen input) j
  | .done (.error _) => True

structure Sharded (s : ShardState n) (T : Stripes (Fin n)) : Prop where
  striped : Striped (shardChunkSize cfg) cfg.seekBytes (copyRange cfg metaLen input) T s.log
  next : s.nextOffset = shardChunkSize cfg * T.claimed
  phases : ∀ w, PhaseOk cfg metaLen input T w (s.phase w)
  aborted : s.abortFlag = true →
    s.Enough (shardChunkSize cfg) (copyLength cfg metaLen input) T
  ended : ∀ w ws, s.phase w = .done (.ok ws) →
    s.Enough (shardChunkSize cfg) (copyLength cfg metaLen input) T

/-- An end of file is reported at the end of the input only. -/
def EofHonest (s : ShardState n) : ShardAct n → Prop
  | .readsEof w => ∀ base done leaves, s.phase w = .reading base done leaves →
      input.length ≤ cfg.skipBytes + base + done
  | _ => True

end Invariant

variable {cfg : Config} {metaLen : Option Nat} {input : List Byte}

theorem shardChunkSize_pos : 0 < shardChunkSize cfg := by
  simp only [shardChunkSize]
  omega

theorem copyLength_le (cfg : Config) (metaLen : Option Nat) (input : List Byte) :
    copyLength cfg metaLen input ≤ input.length - cfg.skipBytes := by
  simp only [copyLength]
  split
  · exact Nat.min_le_right _ _
  · exact Nat.le_refl _

theorem copyLength_of_some {total : Nat} (h : totalBytesToCopy cfg metaLen = some total) :
    copyLength cfg metaLen input = min total (input.length - cfg.skipBytes) := by
  simp only [copyLength, h]

@[simp] theorem length_copyRange :
    (copyRange cfg metaLen input).length = copyLength cfg metaLen input := by
  rw [copyRange, List.length_take, List.length_drop, Nat.min_eq_left (copyLength_le _ _ _)]

/-- The stripe ends at the end of the input or where the worker stops. -/
theorem stripeLen_eq (j : Nat) :
    stripeLen (shardChunkSize cfg) (copyLength cfg metaLen input) j =
      min (thisChunkLen cfg metaLen (shardChunkSize cfg * j))
        (input.length - (cfg.skipBytes + shardChunkSize cfg * j)) := by
  rw [stripeLen, copyLength, thisChunkLen]
  cases totalBytesToCopy cfg metaLen with
  | some total =>
    simp only
    omega
  | none =>
    simp only
    omega

/-- What a read gives is what the copy is about there. -/
theorem read_copyRange (metaLen : Option Nat) {i m : Nat} {bytes : List Byte} (hpos : 0 < m)
    (hb : bytes = (input.drop (cfg.skipBytes + i)).take m) (hm : bytes.length = m)
    (hi : ∀ total, totalBytesToCopy cfg metaLen = some total → i + m ≤ total) :
    bytes = ((copyRange cfg metaLen input).drop i).take m ∧
      i + m ≤ copyLength cfg metaLen input := by
  have hlen : cfg.skipBytes + i + m ≤ input.length := by
    rw [hb, List.length_take, List.length_drop] at hm
    omega
  have hle : i + m ≤ copyLength cfg metaLen input := by
    rw [copyLength]
    cases ht : totalBytesToCopy cfg metaLen with
    | some total =>
      have := hi total ht
      simp only
      omega
    | none =>
      simp only
      omega
  refine ⟨?_, hle⟩
  rw [hb, copyRange, List.drop_take, List.take_take, List.drop_drop, Nat.min_eq_left (by omega)]

theorem PhaseOk.mono {T T' : Stripes (Fin n)} {w : Fin n} {p : ShardPhase}
    (h : PhaseOk cfg metaLen input T w p) (ho : T'.opened w = T.opened w)
    (hf : ∀ j, T.opened w = some j → T'.filled j = T.filled j) :
    PhaseOk cfg metaLen input T' w p := by
  cases p with
  | done result => cases result <;> simp_all [PhaseOk]
  | starting | check | claiming => simp_all [PhaseOk]
  | stripe base done leaves =>
    obtain ⟨j, hj, h⟩ := h
    exact ⟨j, ho.trans hj, by rwa [hf j hj]⟩
  | reading base done leaves =>
    obtain ⟨j, hj, h⟩ := h
    exact ⟨j, ho.trans hj, by rwa [hf j hj]⟩
  | writing base done leaves bytes written =>
    obtain ⟨j, hj, h⟩ := h
    exact ⟨j, ho.trans hj, by rwa [hf j hj]⟩

section Steps

variable {s t : ShardState n} {T T' : Stripes (Fin n)} {a : ShardAct n}

/-- The workers not named in a step stay as they are. -/
def Others (s t : ShardState n) (w : Fin n) : Prop := ∀ v, v ≠ w → t.phase v = s.phase v

/-- A step is one of a worker that has not ended, or it changes no worker. -/
theorem step_others (h : ShardStep cfg metaLen input s a t) :
    (∀ v, t.phase v = s.phase v) ∨
      ∃ w, Others s t w ∧ (∀ r, s.phase w ≠ .done r) := by
  cases h
  case setCancel => exact .inl fun _ => rfl
  case writeInterrupted => exact .inl fun _ => rfl
  case breaks w e hr =>
    refine .inr ⟨w, fun v hv => s.phase_goto_of_ne _ hv, fun r hd => ?_⟩
    rw [hd] at hr
    cases hr
  case finishes w base done leaves hp hl =>
    exact .inr ⟨w, fun v hv => s.phase_update_of_ne _ hv, fun r hd => by simp [hd] at hp⟩
  case readsEof w base done leaves hp hl =>
    exact .inr ⟨w, fun v hv => s.phase_update_of_ne _ hv, fun r hd => by simp [hd] at hp⟩
  all_goals
    refine .inr ⟨_, fun v hv => s.phase_goto_of_ne _ hv, fun r hd => ?_⟩
    simp_all

theorem failed_of_step (h : ShardStep cfg metaLen input s a t) (hf : s.Failed) : t.Failed := by
  obtain ⟨v, e, hv⟩ := hf
  refine ⟨v, e, ?_⟩
  rcases step_others h with hsame | ⟨w, hothers, hrun⟩
  · rw [hsame, hv]
  · rw [hothers v, hv]
    rintro rfl
    exact hrun _ hv

theorem cancelled_of_step (h : ShardStep cfg metaLen input s a t) (hc : s.cancelled = true) :
    t.cancelled = true := by
  cases h <;> first | rfl | exact hc

theorem enough_of_step (h : ShardStep cfg metaLen input s a t) {C N : Nat}
    (hT : T.claimed ≤ T'.claimed) (he : s.Enough C N T) : t.Enough C N T' := by
  rcases he with hc | hf | hN
  · exact .inl (cancelled_of_step h hc)
  · exact .inr (.inl (failed_of_step h hf))
  · exact .inr (.inr (Nat.le_trans hN (Nat.mul_le_mul_left C hT)))

/-- A step of worker `w` keeps the invariant if it does so for what `w` sees. -/
theorem Sharded.step_of (h : Sharded cfg metaLen input s T)
    (hst : ShardStep cfg metaLen input s a t) {w : Fin n} {p : ShardPhase}
    (hothers : Others s t w) (hp : t.phase w = p)
    (hstriped : Striped (shardChunkSize cfg) cfg.seekBytes (copyRange cfg metaLen input) T' t.log)
    (hnext : t.nextOffset = shardChunkSize cfg * T'.claimed) (hclaimed : T.claimed ≤ T'.claimed)
    (hopened : ∀ v, v ≠ w → T'.opened v = T.opened v ∧
      ∀ j, T.opened v = some j → T'.filled j = T.filled j)
    (hw : PhaseOk cfg metaLen input T' w p)
    (habort : t.abortFlag = true → s.abortFlag = true ∨
      t.Enough (shardChunkSize cfg) (copyLength cfg metaLen input) T')
    (hend : ∀ ws, p = .done (.ok ws) →
      t.Enough (shardChunkSize cfg) (copyLength cfg metaLen input) T') :
    Sharded cfg metaLen input t T' where
  striped := hstriped
  next := hnext
  phases v := by
    by_cases hv : v = w
    · rw [hv, hp]
      exact hw
    · rw [hothers v hv]
      exact (h.phases v).mono (hopened v hv).1 (hopened v hv).2
  aborted ha := by
    rcases habort ha with ha | he
    · exact enough_of_step hst hclaimed (h.aborted ha)
    · exact he
  ended v ws hv := by
    by_cases hvw : v = w
    · rw [hvw, hp] at hv
      exact hend ws hv
    · rw [hothers v hvw] at hv
      exact enough_of_step hst hclaimed (h.ended v ws hv)

/-- A step that leaves the stripes and the output alone. -/
theorem Sharded.move (h : Sharded cfg metaLen input s T)
    (hst : ShardStep cfg metaLen input s a t) {w : Fin n} {p : ShardPhase}
    (hothers : Others s t w) (hp : t.phase w = p) (hlog : t.log = s.log)
    (hnext : t.nextOffset = s.nextOffset) (hw : PhaseOk cfg metaLen input T w p)
    (habort : t.abortFlag = true → s.abortFlag = true ∨ t.Failed)
    (hend : ∀ ws, p = .done (.ok ws) →
      t.Enough (shardChunkSize cfg) (copyLength cfg metaLen input) T) :
    Sharded cfg metaLen input t T := by
  refine h.step_of hst hothers hp ?_ ?_ (Nat.le_refl _) (fun v _ => ⟨rfl, fun _ _ => rfl⟩) hw
    (fun ha => ?_) hend
  · rw [hlog]
    exact h.striped
  · rw [hnext, h.next]
  · rcases habort ha with ha | hf
    · exact .inl ha
    · exact .inr (.inr (.inl hf))

/-- The stripe a worker holds open, seen from its phase. -/
theorem Sharded.phase (h : Sharded cfg metaLen input s T) {w : Fin n} {p : ShardPhase}
    (hp : s.phase w = p) : PhaseOk cfg metaLen input T w p := by
  rw [← hp]
  exact h.phases w

theorem Sharded.close (h : Sharded cfg metaLen input s T) (hst : ShardStep cfg metaLen input s a t)
    {w : Fin n} {p : ShardPhase} (hothers : Others s t w) (hp : t.phase w = p)
    (hlog : t.log = s.log) (hnext : t.nextOffset = s.nextOffset) {j : Nat}
    (hj : T.opened w = some j)
    (hfull : T.filled j = stripeLen (shardChunkSize cfg) (copyLength cfg metaLen input) j)
    (hw : PhaseOk cfg metaLen input (T.close w) w p)
    (habort : t.abortFlag = true → s.abortFlag = true ∨
      copyLength cfg metaLen input ≤ shardChunkSize cfg * T.claimed)
    (hend : ∀ ws, p = .done (.ok ws) →
      copyLength cfg metaLen input ≤ shardChunkSize cfg * T.claimed) :
    Sharded cfg metaLen input t (T.close w) := by
  refine h.step_of hst hothers hp ?_ ?_ (Nat.le_refl _) (fun v hv => ?_) hw (fun ha => ?_)
    (fun ws hws => .inr (.inr (hend ws hws)))
  · rw [hlog]
    refine h.striped.close (fun k hk => ?_)
    obtain rfl := Option.some.inj (hj.symm.trans hk)
    rw [length_copyRange]
    exact hfull
  · rw [hnext, h.next]
    rfl
  · exact ⟨Function.update_of_ne hv _ _, fun _ _ => rfl⟩
  · rcases habort ha with ha | hN
    · exact .inl ha
    · exact .inr (.inr (.inr hN))

theorem close_opened (T : Stripes (Fin n)) (w : Fin n) : (T.close w).opened w = none := by
  simp [Stripes.close]

/-- Where a stripe ends, as the worker that holds it sees it. -/
theorem Sharded.filled_le (h : Sharded cfg metaLen input s T) (j : Nat) :
    T.filled j ≤ min (thisChunkLen cfg metaLen (shardChunkSize cfg * j))
      (input.length - (cfg.skipBytes + shardChunkSize cfg * j)) := by
  rw [← stripeLen_eq, ← length_copyRange]
  exact h.striped.bound j

theorem thisChunkLen_le (cfg : Config) (metaLen : Option Nat) (base : Nat) :
    thisChunkLen cfg metaLen base ≤ shardChunkSize cfg := by
  simp only [thisChunkLen]
  split <;> omega

theorem thisChunkLen_le_total {total : Nat} (h : totalBytesToCopy cfg metaLen = some total)
    (base : Nat) : thisChunkLen cfg metaLen base ≤ total - base := by
  simp only [thisChunkLen, h]
  exact Nat.min_le_left _ _

theorem readRequest_le (cfg : Config) (metaLen : Option Nat) (base done : Nat) :
    readRequest cfg metaLen base done ≤ thisChunkLen cfg metaLen base - done :=
  Nat.le_trans (Nat.mod_le _ _) (Nat.min_le_left _ _)

/-- A read stays within what the copy is about. -/
theorem Sharded.read (h : Sharded cfg metaLen input s T) {w : Fin n} {m base done : Nat}
    {leaves : List Digest} {bytes : List Byte} (hp : s.phase w = .reading base done leaves)
    (hpos : 0 < m) (hm : m ≤ readRequest cfg metaLen base done)
    (hb : bytes = (input.drop (cfg.skipBytes + base + done)).take m) (hlen : bytes.length = m) :
    bytes = ((copyRange cfg metaLen input).drop (base + done)).take m ∧
      base + done + m ≤ copyLength cfg metaLen input := by
  obtain ⟨-, -, -, -, hdone⟩ := h.phase hp
  have hreq := readRequest_le cfg metaLen base done
  rw [Nat.add_assoc] at hb
  refine read_copyRange metaLen hpos hb hlen (fun total ht => ?_)
  have := thisChunkLen_le_total ht base
  omega

theorem sharded_step (h : Sharded cfg metaLen input s T) (heof : EofHonest cfg input s a)
    (hst : ShardStep cfg metaLen input s a t) :
    Sharded cfg metaLen input t (trackStripes T s a) := by
  have hst' := hst
  cases hst
  case setCancel =>
    exact ⟨h.striped, h.next, h.phases, fun ha => enough_of_step hst' (Nat.le_refl _) (h.aborted ha),
      fun w ws hw => enough_of_step hst' (Nat.le_refl _) (h.ended w ws hw)⟩
  case writeInterrupted => exact h
  case starts w hp =>
    exact h.move hst' (fun v hv => s.phase_goto_of_ne _ hv) (s.phase_goto_self w _) rfl rfl
      (show T.opened w = none from h.phase hp) .inl (by simp)
  case startFails w e hp =>
    exact h.move hst' (fun v hv => s.phase_goto_of_ne _ hv) (s.phase_goto_self w _) rfl rfl
      trivial .inl (by simp)
  case stops w hp hflag =>
    refine h.move hst' (fun v hv => s.phase_goto_of_ne _ hv) (s.phase_goto_self w _) rfl rfl
      (show T.opened w = none from h.phase hp) .inl (fun ws _ => ?_)
    rcases hflag with ha | hc
    · exact enough_of_step hst' (Nat.le_refl _) (h.aborted ha)
    · exact .inl hc
  case passes w hp =>
    exact h.move hst' (fun v hv => s.phase_goto_of_ne _ hv) (s.phase_goto_self w _) rfl rfl
      (show T.opened w = none from h.phase hp) .inl (by simp)
  case exhausts w total hp ht hle =>
    have hopen : T.opened w = none := h.phase hp
    have hN : copyLength cfg metaLen input ≤ shardChunkSize cfg * (T.claimed + 1) := by
      rw [copyLength_of_some ht, Nat.mul_succ, ← h.next]
      omega
    refine h.step_of hst' (fun v hv => s.phase_goto_of_ne _ hv) (s.phase_goto_self w _) ?_ ?_
      (Nat.le_succ _) (fun v hv => ?_) (close_opened _ w) .inl (fun _ _ => .inr (.inr hN))
    · refine (h.striped.claim hopen).close (fun j hj => ?_)
      have hj' : j = T.claimed := by simpa [Stripes.claim, eq_comm] using hj
      have hbeyond : copyLength cfg metaLen input ≤ shardChunkSize cfg * j := by
        rw [copyLength_of_some ht, hj', ← h.next]
        omega
      rw [stripeLen, length_copyRange, show (T.claim w).filled j = T.filled j from rfl,
        h.striped.unclaimed j (by omega)]
      omega
    · rw [h.next]
      rfl
    · simp [trackStripes, Stripes.claim, Stripes.close, hv]
  case claims w hp ht =>
    have hopen : T.opened w = none := h.phase hp
    refine h.step_of hst' (fun v hv => s.phase_goto_of_ne _ hv) (s.phase_goto_self w _)
      (h.striped.claim hopen) ?_ (Nat.le_succ _) (fun v hv => ?_) ⟨T.claimed, ?_, h.next, ?_⟩ .inl
      (by simp)
    · rw [h.next]
      rfl
    · simp [trackStripes, Stripes.claim, hv]
    · simp [trackStripes, Stripes.claim]
    · exact h.striped.unclaimed _ (Nat.le_refl _)
  case finishes w base done leaves hp hlen =>
    obtain ⟨j, hj, rfl, hfilled⟩ := h.phase hp
    have hle := h.filled_le j
    refine h.close hst' (fun v hv => s.phase_update_of_ne _ hv) (s.phase_update_self w _) rfl rfl hj
      ?_ (close_opened _ w) .inl (by simp)
    rw [stripeLen_eq]
    omega
  case cancels w base done leaves hp hlen hc =>
    exact h.move hst' (fun v hv => s.phase_goto_of_ne _ hv) (s.phase_goto_self w _) rfl rfl
      trivial .inl (by simp)
  case submits w base done leaves hp hlen =>
    obtain ⟨j, hj, hbase, hfilled⟩ := h.phase hp
    exact h.move hst' (fun v hv => s.phase_goto_of_ne _ hv) (s.phase_goto_self w _) rfl rfl
      ⟨j, hj, hbase, hfilled, hlen⟩ .inl (by simp)
  case reads w m base done leaves bytes hp hpos hm hb hlen =>
    obtain ⟨hcopy, hle⟩ := h.read hp hpos hm hb hlen
    obtain ⟨j, hj, rfl, hfilled, hdone⟩ := h.phase hp
    refine h.move hst' (fun v hv => s.phase_goto_of_ne _ hv) (s.phase_goto_self w _) rfl rfl
      ⟨j, hj, rfl, hfilled, Nat.zero_le _, by rw [hlen]; exact hcopy, ?_⟩ .inl (by simp)
    have := thisChunkLen_le cfg metaLen (shardChunkSize cfg * j)
    have := readRequest_le cfg metaLen (shardChunkSize cfg * j) done
    rw [stripeLen, hlen]
    omega
  case readsEof w base done leaves hp hzero =>
    have hend := heof base done leaves hp
    obtain ⟨j, hj, rfl, hfilled, hdone⟩ := h.phase hp
    have hlt := (h.striped.opened_lt w j hj).1
    have hmul := Nat.mul_le_mul_left (shardChunkSize cfg) (Nat.succ_le_of_lt hlt)
    rw [Nat.mul_succ] at hmul
    have hle := h.filled_le j
    have hchunk := thisChunkLen_le cfg metaLen (shardChunkSize cfg * j)
    have hN : copyLength cfg metaLen input ≤ shardChunkSize cfg * T.claimed := by
      have := copyLength_le cfg metaLen input
      omega
    refine h.close hst' (fun v hv => s.phase_update_of_ne _ hv) (s.phase_update_self w _) rfl rfl hj
      ?_ (close_opened _ w) (fun _ => .inr hN) (fun _ _ => hN)
    rw [stripeLen_eq]
    omega
  case readInterrupted w base done leaves hp =>
    obtain ⟨j, hj, hbase, hfilled, -⟩ := h.phase hp
    exact h.move hst' (fun v hv => s.phase_goto_of_ne _ hv) (s.phase_goto_self w _) rfl rfl
      ⟨j, hj, hbase, hfilled⟩ .inl (by simp)
  case readFails w base done leaves err hp =>
    exact h.move hst' (fun v hv => s.phase_goto_of_ne _ hv) (s.phase_goto_self w _) rfl rfl
      trivial (fun _ => .inr ⟨w, _, s.phase_goto_self w _⟩) (by simp)
  case writes w m base done leaves bytes written hp hlt hm =>
    obtain ⟨j, hj, rfl, hfilled, hle, hcopy, hroom⟩ := h.phase hp
    have hmod := Nat.mod_le (bytes.length - written) (2 ^ 32)
    have hpiece : (bytes.drop written).take m =
        ((copyRange cfg metaLen input).drop (shardChunkSize cfg * j + T.filled j)).take m := by
      rw [hcopy, List.drop_take, List.take_take, List.drop_drop, hfilled,
        Nat.min_eq_left (by omega), Nat.add_assoc]
    have hother : ∀ v, v ≠ w → ∀ k, T.opened v = some k → k ≠ j := by
      rintro v hv k hk rfl
      have h1 := (h.striped.opened_lt v k hk).2
      rw [(h.striped.opened_lt w k hj).2] at h1
      exact hv (Option.some.inj h1).symm
    refine h.step_of hst' (fun v hv => s.phase_goto_of_ne _ hv) (s.phase_goto_self w _) ?_ ?_ ?_
      (fun v hv => ?_) ⟨j, ?_, rfl, ?_, by omega, hcopy, hroom⟩ .inl (by simp)
    · have := h.striped.fill hj (m := m) (by rw [length_copyRange]; omega)
      rw [← hpiece, hfilled, ← Nat.add_assoc, ← Nat.add_assoc] at this
      exact this
    · exact h.next.trans (by rw [trackStripes, Stripes.fill_claimed])
    · rw [trackStripes, Stripes.fill_claimed]
    · rw [trackStripes, Stripes.fill_eq hj]
      refine ⟨rfl, fun k hk => ?_⟩
      exact Function.update_of_ne (hother v hv k hk) _ _
    · rw [trackStripes, Stripes.fill_opened, hj]
    · rw [trackStripes, Stripes.fill_eq hj]
      simp only [Function.update_self]
      omega
  case writeFails w base done leaves bytes written err hp hlt =>
    exact h.move hst' (fun v hv => s.phase_goto_of_ne _ hv) (s.phase_goto_self w _) rfl rfl
      trivial (fun _ => .inr ⟨w, _, s.phase_goto_self w _⟩) (by simp)
  case counts w base done leaves bytes written hp hle =>
    obtain ⟨j, hj, hbase, hfilled, hle', -, -⟩ := h.phase hp
    exact h.move hst' (fun v hv => s.phase_goto_of_ne _ hv) (s.phase_goto_self w _) rfl rfl
      ⟨j, hj, hbase, by omega⟩ .inl (by simp)
  case breaks w e hring =>
    exact h.move hst' (fun v hv => s.phase_goto_of_ne _ hv) (s.phase_goto_self w _) rfl rfl
      trivial .inl (by simp)

/-- With a block size that fits the submission entry a request is never empty. -/
theorem eofHonest_of_lt (hbs : effectiveBlockSize cfg < 2 ^ 32) (h : Sharded cfg metaLen input s T)
    (hst : ShardStep cfg metaLen input s a t) : EofHonest cfg input s a := by
  cases hst
  case readsEof w base done leaves hp hzero =>
    intro base' done' leaves' hp'
    rw [hp] at hp'
    cases hp'
    obtain ⟨-, -, -, -, hdone⟩ := h.phase hp
    rcases hzero with hzero | hend
    · simp only [readRequest, effectiveBlockSize] at hzero hbs
      rw [Nat.mod_eq_of_lt (by omega)] at hzero
      omega
    · exact hend
  all_goals trivial

/-- The bytes a worker has written and not yet counted. -/
def ShardPhase.uncounted : ShardPhase → Nat
  | .writing _ _ _ _ written => written
  | _ => 0

/-- Unless a worker has failed, what is counted and what is not yet is what is filled. -/
def Counted (stats : Stats) (s : ShardState n) (T : Stripes (Fin n)) : Prop :=
  ¬ s.Failed → s.stats.bytesCopied + ∑ w, (s.phase w).uncounted = stats.bytesCopied + T.total

theorem sum_uncounted {w : Fin n} {p p' : ShardPhase} {k k' : Nat} (hothers : Others s t w)
    (hp : t.phase w = p) (hs : s.phase w = p') (hk : p.uncounted = k) (hk' : p'.uncounted = k') :
    ∑ v, (t.phase v).uncounted + k' = ∑ v, (s.phase v).uncounted + k := by
  have ht : (fun v => (t.phase v).uncounted) =
      Function.update (fun v => (s.phase v).uncounted) w k := by
    funext v
    by_cases hv : v = w
    · rw [hv, hp, Function.update_self, hk]
    · rw [hothers v hv, Function.update_of_ne hv]
  have hsum := sum_update Finset.univ (fun v => (s.phase v).uncounted) (Finset.mem_univ w) k
  rw [hs, hk'] at hsum
  rw [ht]
  exact hsum

theorem countShardBlock_bytesCopied (cfg : Config) (stats : Stats) (nread : Nat) :
    (countShardBlock cfg stats nread).bytesCopied = stats.bytesCopied + nread := by
  simp only [countShardBlock]
  split <;> rfl

theorem Counted.step_of {stats : Stats} (hc : Counted stats s T)
    (hst : ShardStep cfg metaLen input s a t) {w : Fin n} {p p' : ShardPhase} {k k' : Nat}
    (hothers : Others s t w) (hp : t.phase w = p) (hs : s.phase w = p') (hk : p.uncounted = k)
    (hk' : p'.uncounted = k')
    (hbalance : t.stats.bytesCopied + k + T.total = s.stats.bytesCopied + k' + T'.total) :
    Counted stats t T' := by
  intro hf
  have hsum := sum_uncounted hothers hp hs hk hk'
  have := hc (fun hfs => hf (failed_of_step hst hfs))
  omega

/-- A step that neither writes nor counts. -/
theorem Counted.move {stats : Stats} (hc : Counted stats s T)
    (hst : ShardStep cfg metaLen input s a t) {w : Fin n} {p p' : ShardPhase}
    (hothers : Others s t w) (hp : t.phase w = p) (hs : s.phase w = p') (hz : p.uncounted = 0)
    (hz' : p'.uncounted = 0) (hstats : t.stats = s.stats) (htotal : T'.total = T.total) :
    Counted stats t T' :=
  hc.step_of hst hothers hp hs hz hz' (by rw [hstats, htotal])

theorem Counted.failed {stats : Stats} (hf : t.Failed) : Counted stats t T := fun h => absurd hf h

theorem counted_step {stats : Stats} (h : Sharded cfg metaLen input s T) (hc : Counted stats s T)
    (hst : ShardStep cfg metaLen input s a t) : Counted stats t (trackStripes T s a) := by
  have hst' := hst
  cases hst
  case setCancel => exact hc
  case writeInterrupted => exact hc
  case startFails w e hp => exact .failed ⟨w, _, s.phase_goto_self w _⟩
  case cancels w base done leaves hp hlen hcancel => exact .failed ⟨w, _, s.phase_goto_self w _⟩
  case readFails w base done leaves err hp => exact .failed ⟨w, _, s.phase_goto_self w _⟩
  case writeFails w base done leaves bytes written err hp hlt =>
    exact .failed ⟨w, _, s.phase_goto_self w _⟩
  case breaks w e hring => exact .failed ⟨w, _, s.phase_goto_self w _⟩
  case finishes w base done leaves hp hlen =>
    exact hc.move hst' (fun v hv => s.phase_update_of_ne _ hv) (s.phase_update_self w _) hp rfl rfl
      rfl rfl
  case readsEof w base done leaves hp hzero =>
    exact hc.move hst' (fun v hv => s.phase_update_of_ne _ hv) (s.phase_update_self w _) hp rfl rfl
      rfl rfl
  case exhausts w total hp ht hle =>
    exact hc.move hst' (fun v hv => s.phase_goto_of_ne _ hv) (s.phase_goto_self w _) hp rfl rfl rfl
      (h.striped.total_claim (w := w))
  case claims w hp ht =>
    exact hc.move hst' (fun v hv => s.phase_goto_of_ne _ hv) (s.phase_goto_self w _) hp rfl rfl rfl
      (h.striped.total_claim (w := w))
  case writes w m base done leaves bytes written hp hlt hm =>
    obtain ⟨j, hj, -⟩ := h.phase hp
    refine hc.step_of hst' (fun v hv => s.phase_goto_of_ne _ hv) (s.phase_goto_self w _) hp rfl rfl ?_
    rw [trackStripes, h.striped.total_fill hj]
    change s.stats.bytesCopied + (written + m) + T.total =
      s.stats.bytesCopied + written + (T.total + m)
    omega
  case counts w base done leaves bytes written hp hle =>
    obtain ⟨-, -, -, -, hle', -, -⟩ := h.phase hp
    refine hc.step_of hst' (fun v hv => s.phase_goto_of_ne _ hv) (s.phase_goto_self w _) hp rfl rfl ?_
    change (countShardBlock cfg s.stats bytes.length).bytesCopied + 0 + T.total =
      s.stats.bytesCopied + written + T.total
    rw [countShardBlock_bytesCopied]
    omega
  all_goals
    exact hc.move hst' (fun v hv => s.phase_goto_of_ne _ hv) (s.phase_goto_self _ _)
      (by assumption) rfl rfl rfl rfl

end Steps

section Joined

variable {s : ShardState n}

/-- The stripes a worker has ended with. -/
def ShardState.result (s : ShardState n) (w : Fin n) : List StripeLeaves :=
  match s.phase w with
  | .done (.ok own) => own
  | _ => []

/-- Joining the workers one after the other, given what joining one does. -/
theorem foldlM_join {join : Except String (List StripeLeaves) → Fin n →
      Option (Except String (List StripeLeaves))} {ws : List StripeLeaves}
    (hok : ∀ acc w own, s.phase w = .done (.ok own) → join acc w = some (acc.map (· ++ own)))
    (herror : ∀ acc w e, s.phase w = .done (.error e) →
      join acc w = some (acc.bind fun _ => .error e))
    (hrunning : ∀ acc w, (∀ r, s.phase w ≠ .done r) → join acc w = none) (l : List (Fin n)) :
    ∀ acc, l.foldlM join acc = some (.ok ws) →
      ∃ ws₀, acc = .ok ws₀ ∧ (∀ w ∈ l, ∃ own, s.phase w = .done (.ok own)) ∧
        ws = ws₀ ++ l.flatMap s.result := by
  induction l with
  | nil =>
    intro acc hl
    exact ⟨ws, Option.some.inj hl, by simp, by simp⟩
  | cons w l ih =>
    intro acc hl
    rw [List.foldlM_cons] at hl
    cases hp : s.phase w with
    | done r =>
      cases r with
      | ok own =>
        rw [hok acc w own hp, Option.bind_eq_bind, Option.bind_some] at hl
        obtain ⟨ws₁, hacc, hall, hws⟩ := ih _ hl
        cases acc with
        | error e => cases hacc
        | ok ws₀ =>
          obtain rfl := Except.ok.inj hacc
          refine ⟨ws₀, rfl, List.forall_mem_cons.mpr ⟨⟨own, hp⟩, hall⟩, ?_⟩
          rw [hws, List.flatMap_cons, ShardState.result, hp, List.append_assoc]
      | error e =>
        rw [herror acc w e hp, Option.bind_eq_bind, Option.bind_some] at hl
        obtain ⟨ws₁, hacc, -⟩ := ih _ hl
        cases acc <;> cases hacc
    | _ =>
      rw [hrunning acc w (by simp [hp])] at hl
      cases hl

/-- Joining gives the workers' stripes when all have ended without an error. -/
theorem joinWorkers_ok {ws : List StripeLeaves} (h : joinWorkers s = some (.ok ws)) :
    (∀ w, ∃ own, s.phase w = .done (.ok own)) ∧ ws = (List.finRange n).flatMap s.result := by
  have hall := foldlM_join (s := s) (fun acc w own hp => by simp only [hp])
    (fun acc w e hp => by simp only [hp]) (fun acc w hp => ?_) _ _ h
  · obtain ⟨ws₀, hacc, hall, hws⟩ := hall
    obtain rfl := Except.ok.inj hacc
    exact ⟨fun w => hall w (List.mem_finRange w), hws⟩
  · cases hw : s.phase w <;> simp_all

end Joined

section Runs

variable {s : ShardState n} {T : Stripes (Fin n)} {stats : Stats}

theorem sharded_start : Sharded cfg metaLen input (ShardState.start n stats) .start where
  striped := .start _ _ _
  next := rfl
  phases _ := rfl
  aborted h := by cases h
  ended w ws h := by cases h

theorem counted_start : Counted stats (ShardState.start n stats) .start := by
  intro _
  simp [ShardState.start, ShardState.phase, ShardPhase.uncounted, Stripes.start, Stripes.total]

theorem sharded_of_reachable (hbs : effectiveBlockSize cfg < 2 ^ 32)
    (h : ((shardedSystem cfg metaLen input n stats).traced .start trackStripes).Reachable (s, T)) :
    Sharded cfg metaLen input s T ∧ Counted stats s T := by
  refine h.invariant (I := fun x => Sharded cfg metaLen input x.1 x.2 ∧ Counted stats x.1 x.2) ?_ ?_
  · rintro ⟨s, T⟩ ⟨rfl, rfl⟩
    exact ⟨sharded_start, counted_start⟩
  · rintro ⟨s, T⟩ a ⟨t, T'⟩ ⟨hs, hcount⟩ ⟨hst, rfl⟩
    exact ⟨sharded_step hs (eofHonest_of_lt hbs hs hst) hst, counted_step hs hcount hst⟩

/-- Runs that are not told of an end before the end, for any block size. -/
theorem sharded_of_honest
    (h : (((shardedSystem cfg metaLen input n stats).restrict (EofHonest cfg input)).traced .start
      trackStripes).Reachable (s, T)) : Sharded cfg metaLen input s T ∧ Counted stats s T := by
  refine h.invariant (I := fun x => Sharded cfg metaLen input x.1 x.2 ∧ Counted stats x.1 x.2) ?_ ?_
  · rintro ⟨s, T⟩ ⟨rfl, rfl⟩
    exact ⟨sharded_start, counted_start⟩
  · rintro ⟨s, T⟩ a ⟨t, T'⟩ ⟨hs, hcount⟩ ⟨⟨hst, heof⟩, rfl⟩
    exact ⟨sharded_step hs heof hst, counted_step hs hcount hst⟩

/-- When all workers have ended well, all is claimed and no stripe is open. -/
theorem Sharded.finished (h : Sharded cfg metaLen input s T) (hn : 0 < n)
    (hc : s.cancelled = false) (hall : ∀ w, ∃ own, s.phase w = .done (.ok own)) :
    ¬ s.Failed ∧ (∀ w, T.opened w = none) ∧
      (copyRange cfg metaLen input).length ≤ shardChunkSize cfg * T.claimed := by
  have hfail : ¬ s.Failed := by
    rintro ⟨w, e, hw⟩
    obtain ⟨own, hown⟩ := hall w
    rw [hown] at hw
    cases hw
  refine ⟨hfail, fun w => ?_, ?_⟩
  · obtain ⟨own, hown⟩ := hall w
    exact h.phase hown
  · rw [length_copyRange]
    obtain ⟨own, hown⟩ := hall ⟨0, hn⟩
    rcases h.ended _ own hown with hcancel | hf | hN
    · rw [hc] at hcancel
      cases hcancel
    · exact absurd hf hfail
    · exact hN

/-- All that is copied is then counted. -/
theorem Sharded.counts (h : Sharded cfg metaLen input s T) (hcount : Counted stats s T) (hn : 0 < n)
    (hc : s.cancelled = false) (hall : ∀ w, ∃ own, s.phase w = .done (.ok own)) :
    s.stats.bytesCopied = stats.bytesCopied + copyLength cfg metaLen input := by
  obtain ⟨hfail, hopen, hN⟩ := h.finished hn hc hall
  have hzero : ∑ w, (s.phase w).uncounted = 0 := by
    refine Finset.sum_eq_zero (fun w _ => ?_)
    obtain ⟨own, hown⟩ := hall w
    rw [hown]
    rfl
  have hsum := hcount hfail
  rw [hzero, h.striped.total_eq hopen hN, length_copyRange] at hsum
  exact hsum

theorem numWorkers_pos (cfg : Config) : 0 < numWorkers cfg := by
  simp only [numWorkers]
  omega

end Runs

section Example

def twoWorkers : Config := { output := some "out", engine := .uring, threads := 2, blockSize := 1 }

end Example

end Blkcp.Rust
