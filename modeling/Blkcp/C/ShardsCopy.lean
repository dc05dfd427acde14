import Blkcp.C.Shards
set_option autoImplicit false

/-! What the sharded driver has copied when its step function reports the end: all of it, when every
read gives what it was meant to give or ends at the end of the input. -/

namespace Blkcp.C
open Blkcp.Lib

variable {n : Nat} {α : Type}

/-- How many bytes there are to copy: the total, or what the input has if that is less. -/
def shardLength (inStartPos totalBytes : Nat) (input : List α) : Nat :=
  min totalBytes (input.length - inStartPos)

def shardRange (inStartPos totalBytes : Nat) (input : List α) : List α :=
  (input.drop inStartPos).take (shardLength inStartPos totalBytes input)

namespace WorkerPhase

/-- One for a worker that has not ended. -/
def running : WorkerPhase α → Nat
  | .done => 0
  | _ => 1

theorem running_eq_zero {p : WorkerPhase α} (h : p.running = 0) : p = .done := by
  cases p <;> first | rfl | cases h

end WorkerPhase

namespace ShardState

@[simp] theorem phase_goto_self (s : ShardState n α) (w : Fin n) (p : WorkerPhase α) :
    (s.goto w p).phase w = p := by
  simp [goto]

theorem phase_goto_of_ne (s : ShardState n α) {w v : Fin n} (p : WorkerPhase α) (h : v ≠ w) :
    (s.goto w p).phase v = s.phase v := by
  simp [goto, h]

theorem sum_running_goto (s : ShardState n α) (w : Fin n) (p : WorkerPhase α) :
    ∑ v, ((s.goto w p).phase v).running + (s.phase w).running =
      ∑ v, (s.phase v).running + p.running := by
  have h := sum_update Finset.univ (fun v => (s.phase v).running) (Finset.mem_univ w) p.running
  have heq : (fun v => ((s.goto w p).phase v).running) =
      Function.update (fun v => (s.phase v).running) w p.running := by
    funext v
    by_cases hv : v = w
    · rw [hv, phase_goto_self, Function.update_self]
    · rw [phase_goto_of_ne _ _ hv, Function.update_of_ne hv]
  rw [heq]
  exact h

end ShardState

section Invariant

variable (cfg : Config) (inStartPos outStartPos totalBytes : Nat) (input : List α)

/-- How the stripes follow the steps of the workers. -/
def trackShards (T : Stripes (Fin n)) (s : ShardState n α) : ShardAct n → Stripes (Fin n)
  | .exhausts w => (T.claim w).close w
  | .claims w => T.claim w
  | .finishes w | .readsEof w => T.close w
  | .writes w m => T.fill w m
  | .delivers w =>
    match s.phase w with
    | .writing offset done bytes _ =>
      if bytes.length < curLen cfg totalBytes offset done then T.close w else T
    | _ => T
  | _ => T

/-- A read gives its whole length or ends at the end of the input, a write writes something, and no
worker fails between the step function's loads of `abort_requested` and `active_workers`. -/
def WholeRead (s : ShardState n α) : ShardAct n → Prop
  | .reads w m => ∀ offset done, s.phase w = .reading offset done →
      m = curLen cfg totalBytes offset done ∨ input.length ≤ inStartPos + (offset + done) + m
  | .readsEof w => ∀ offset done, s.phase w = .reading offset done →
      input.length ≤ inStartPos + (offset + done)
  | .writesNothing _ => False
  | .fails _ => s.step ≠ .loadActive
  | _ => True

/-- What a worker that is writing knows of its chunk. -/
structure Writing (T : Stripes (Fin n)) (w : Fin n) (offset done : Nat) (bytes : List α)
    (written : Nat) : Prop where
  stripe : ∃ j, T.opened w = some j ∧ offset = shardChunkSize cfg totalBytes * j ∧
    T.filled j = done + written ∧
    done + bytes.length ≤
      stripeLen (shardChunkSize cfg totalBytes) (shardLength inStartPos totalBytes input) j
  copied : bytes =
    ((shardRange inStartPos totalBytes input).drop (offset + done)).take bytes.length
  whole : bytes.length = curLen cfg totalBytes offset done ∨
    input.length ≤ inStartPos + (offset + done) + bytes.length
  bound : written ≤ bytes.length

/-- What a worker knows of the stripe it holds open. -/
def PhaseOk (T : Stripes (Fin n)) (w : Fin n) : WorkerPhase α → Prop
  | .check | .claiming => T.opened w = none
  | .stopping | .done => T.opened w = none ∧
      shardLength inStartPos totalBytes input ≤ shardChunkSize cfg totalBytes * T.claimed
  | .chunk offset done =>
    ∃ j, T.opened w = some j ∧ offset = shardChunkSize cfg totalBytes * j ∧ T.filled j = done
  | .reading offset done =>
    ∃ j, T.opened w = some j ∧ offset = shardChunkSize cfg totalBytes * j ∧ T.filled j = done ∧
      done < chunkLen cfg totalBytes offset
  | .writing offset done bytes written =>
    Writing cfg inStartPos totalBytes input T w offset done bytes written
  | .countingBytes offset done bytes written res =>
    Writing cfg inStartPos totalBytes input T w offset done bytes (written + res)
  | .countingRecord offset done bytes written res =>
    Writing cfg inStartPos totalBytes input T w offset done bytes (written + res)
  | .storingError _ => False

/-- The invariant while nobody has asked to abort. -/
structure Shards (s : ShardState n α) (T : Stripes (Fin n)) : Prop where
  striped : Striped (shardChunkSize cfg totalBytes) outStartPos
    (shardRange inStartPos totalBytes input) T s.log
  next : s.nextChunkOffset = shardChunkSize cfg totalBytes * T.claimed
  phases : ∀ w, PhaseOk cfg inStartPos totalBytes input T w (s.phase w)

/-- Nothing gets lost without an abort; the step function reports the end only after it has seen
that nobody asked for one. -/
structure ShardInv (s : ShardState n α) (T : Stripes (Fin n)) : Prop where
  shards : s.abortRequested = false →
    Shards cfg inStartPos outStartPos totalBytes input s T
  active : s.activeWorkers = ∑ w, (s.phase w).running
  unaborted : s.step = .loadActive → s.abortRequested = false
  ended : s.step = .returned .success true →
    s.abortRequested = false ∧ ∀ w, s.phase w = .done

end Invariant

variable {cfg : Config} {inStartPos outStartPos totalBytes : Nat} {input : List α}

theorem shardBlockSize_pos (cfg : Config) : 0 < shardBlockSize cfg := by
  simp only [shardBlockSize]
  split
  · assumption
  · decide

theorem shardChunkSize_pos (cfg : Config) (totalBytes : Nat) :
    0 < shardChunkSize cfg totalBytes := by
  have hbs := shardBlockSize_pos cfg
  simp only [shardChunkSize]
  split_ifs with hlt hzero hzero
  · exact hbs
  · exact Nat.pos_of_ne_zero hzero
  · exact hbs
  · exact Nat.pos_of_ne_zero hzero

@[simp] theorem length_shardRange :
    (shardRange inStartPos totalBytes input).length =
      shardLength inStartPos totalBytes input := by
  rw [shardRange, List.length_take, List.length_drop]
  exact Nat.min_eq_left (Nat.min_le_right _ _)

/-- The stripe ends at the end of the input or where the worker stops. -/
theorem stripeLen_eq (j : Nat) :
    stripeLen (shardChunkSize cfg totalBytes) (shardLength inStartPos totalBytes input) j =
      min (chunkLen cfg totalBytes (shardChunkSize cfg totalBytes * j))
        (input.length - (inStartPos + shardChunkSize cfg totalBytes * j)) := by
  rw [stripeLen, shardLength, chunkLen]
  omega

theorem curLen_le (cfg : Config) (totalBytes offset done : Nat) :
    curLen cfg totalBytes offset done ≤ chunkLen cfg totalBytes offset - done :=
  Nat.min_le_right _ _

/-- What a read gives is what the copy is about there. -/
theorem read_shardRange {i m : Nat} {bytes : List α} (hpos : 0 < m)
    (hb : bytes = (input.drop (inStartPos + i)).take m) (hm : bytes.length = m)
    (hi : i + m ≤ totalBytes) :
    bytes = ((shardRange inStartPos totalBytes input).drop i).take m ∧
      i + m ≤ shardLength inStartPos totalBytes input := by
  have hlen : inStartPos + i + m ≤ input.length := by
    rw [hb, List.length_take, List.length_drop] at hm
    omega
  have hle : i + m ≤ shardLength inStartPos totalBytes input := by
    rw [shardLength]
    omega
  refine ⟨?_, hle⟩
  rw [hb, shardRange, List.drop_take, List.take_take, List.drop_drop, Nat.min_eq_left (by omega)]

theorem Writing.mono {T T' : Stripes (Fin n)} {w : Fin n} {offset done written : Nat}
    {bytes : List α} (h : Writing cfg inStartPos totalBytes input T w offset done bytes written)
    (ho : T'.opened w = T.opened w) (hf : ∀ j, T.opened w = some j → T'.filled j = T.filled j) :
    Writing cfg inStartPos totalBytes input T' w offset done bytes written := by
  refine ⟨?_, h.copied, h.whole, h.bound⟩
  obtain ⟨j, hj, hstripe⟩ := h.stripe
  exact ⟨j, ho.trans hj, by rwa [hf j hj]⟩

theorem PhaseOk.mono {T T' : Stripes (Fin n)} {w : Fin n} {p : WorkerPhase α}
    (h : PhaseOk cfg inStartPos totalBytes input T w p) (ho : T'.opened w = T.opened w)
    (hc : T.claimed ≤ T'.claimed) (hf : ∀ j, T.opened w = some j → T'.filled j = T.filled j) :
    PhaseOk cfg inStartPos totalBytes input T' w p := by
  cases p with
  | check => exact ho.trans h
  | claiming => exact ho.trans h
  | stopping =>
    exact ⟨ho.trans h.1, Nat.le_trans h.2 (Nat.mul_le_mul_left _ hc)⟩
  | done => exact ⟨ho.trans h.1, Nat.le_trans h.2 (Nat.mul_le_mul_left _ hc)⟩
  | chunk offset done =>
    obtain ⟨j, hj, hstripe⟩ := h
    exact ⟨j, ho.trans hj, by rwa [hf j hj]⟩
  | reading offset done =>
    obtain ⟨j, hj, hstripe⟩ := h
    exact ⟨j, ho.trans hj, by rwa [hf j hj]⟩
  | writing offset done bytes written => exact Writing.mono h ho hf
  | countingBytes offset done bytes written res => exact Writing.mono h ho hf
  | countingRecord offset done bytes written res => exact Writing.mono h ho hf
  | storingError code => exact h

section Steps

variable {s t : ShardState n α} {T T' : Stripes (Fin n)} {a : ShardAct n}

/-- A step of worker `w` keeps the invariant if it does so for what `w` sees. -/
theorem Shards.step_of (h : Shards cfg inStartPos outStartPos totalBytes input s T) {w : Fin n}
    {p : WorkerPhase α} (hothers : ∀ v, v ≠ w → t.phase v = s.phase v) (hp : t.phase w = p)
    (hstriped : Striped (shardChunkSize cfg totalBytes) outStartPos
      (shardRange inStartPos totalBytes input) T' t.log)
    (hnext : t.nextChunkOffset = shardChunkSize cfg totalBytes * T'.claimed)
    (hclaimed : T.claimed ≤ T'.claimed)
    (hopened : ∀ v, v ≠ w → T'.opened v = T.opened v ∧
      ∀ j, T.opened v = some j → T'.filled j = T.filled j)
    (hw : PhaseOk cfg inStartPos totalBytes input T' w p) :
    Shards cfg inStartPos outStartPos totalBytes input t T' where
  striped := hstriped
  next := hnext
  phases v := by
    by_cases hv : v = w
    · rw [hv, hp]
      exact hw
    · rw [hothers v hv]
      exact (h.phases v).mono (hopened v hv).1 hclaimed (hopened v hv).2

/-- A step that leaves the stripes and the output alone. -/
theorem Shards.move (h : Shards cfg inStartPos outStartPos totalBytes input s T) {w : Fin n}
    {p : WorkerPhase α} (hothers : ∀ v, v ≠ w → t.phase v = s.phase v) (hp : t.phase w = p)
    (hlog : t.log = s.log) (hnext : t.nextChunkOffset = s.nextChunkOffset)
    (hw : PhaseOk cfg inStartPos totalBytes input T w p) :
    Shards cfg inStartPos outStartPos totalBytes input t T := by
  refine h.step_of hothers hp ?_ ?_ (Nat.le_refl _) (fun v _ => ⟨rfl, fun _ _ => rfl⟩) hw
  · rw [hlog]
    exact h.striped
  · rw [hnext, h.next]

/-- The stripe a worker holds open, seen from its phase. -/
theorem Shards.phase (h : Shards cfg inStartPos outStartPos totalBytes input s T) {w : Fin n}
    {p : WorkerPhase α} (hp : s.phase w = p) :
    PhaseOk cfg inStartPos totalBytes input T w p := by
  rw [← hp]
  exact h.phases w

theorem close_opened (T : Stripes (Fin n)) (w : Fin n) : (T.close w).opened w = none := by
  simp [Stripes.close]

/-- A worker may go on to the next chunk when its stripe is full. -/
theorem Shards.close (h : Shards cfg inStartPos outStartPos totalBytes input s T) {w : Fin n}
    (hothers : ∀ v, v ≠ w → t.phase v = s.phase v) (hp : t.phase w = .check)
    (hlog : t.log = s.log) (hnext : t.nextChunkOffset = s.nextChunkOffset) {j : Nat}
    (hj : T.opened w = some j)
    (hfull : T.filled j =
      stripeLen (shardChunkSize cfg totalBytes) (shardLength inStartPos totalBytes input) j) :
    Shards cfg inStartPos outStartPos totalBytes input t (T.close w) := by
  refine h.step_of hothers hp ?_ ?_ (Nat.le_refl _) (fun v hv => ?_) (close_opened T w)
  · rw [hlog]
    refine h.striped.close (fun k hk => ?_)
    obtain rfl := Option.some.inj (hj.symm.trans hk)
    rw [length_shardRange]
    exact hfull
  · rw [hnext, h.next]
    rfl
  · exact ⟨Function.update_of_ne hv _ _, fun _ _ => rfl⟩

/-- Where a stripe ends, as the worker that holds it sees it. -/
theorem Shards.filled_le (h : Shards cfg inStartPos outStartPos totalBytes input s T) (j : Nat) :
    T.filled j ≤ min (chunkLen cfg totalBytes (shardChunkSize cfg totalBytes * j))
      (input.length - (inStartPos + shardChunkSize cfg totalBytes * j)) := by
  rw [← stripeLen_eq, ← length_shardRange]
  exact h.striped.bound j

theorem chunkLen_le (cfg : Config) (totalBytes offset : Nat) :
    chunkLen cfg totalBytes offset ≤ totalBytes - offset :=
  Nat.min_le_right _ _

/-- A write puts the next bytes of the stripe to their place. -/
theorem Shards.write (h : Shards cfg inStartPos outStartPos totalBytes input s T) {w : Fin n}
    {m offset done written : Nat} {bytes : List α}
    (hp : s.phase w = .writing offset done bytes written) (hm : written + m ≤ bytes.length)
    (hothers : ∀ v, v ≠ w → t.phase v = s.phase v)
    (hpt : t.phase w = .countingBytes offset done bytes written m)
    (hlog : t.log = s.log ++
      [⟨w, outStartPos + (offset + done) + written, (bytes.drop written).take m⟩])
    (hnext : t.nextChunkOffset = s.nextChunkOffset) :
    Shards cfg inStartPos outStartPos totalBytes input t (T.fill w m) := by
  have hwr : Writing cfg inStartPos totalBytes input T w offset done bytes written := h.phase hp
  obtain ⟨⟨j, hj, rfl, hfilled, hroom⟩, hcopy, hwhole, hle⟩ := hwr
  have hpiece : (bytes.drop written).take m =
      ((shardRange inStartPos totalBytes input).drop
        (shardChunkSize cfg totalBytes * j + T.filled j)).take m := by
    rw [hcopy, List.drop_take, List.take_take, List.drop_drop, hfilled,
      Nat.min_eq_left (by omega), Nat.add_assoc]
  have hother : ∀ v, v ≠ w → ∀ k, T.opened v = some k → k ≠ j := by
    rintro v hv k hk rfl
    have h1 := (h.striped.opened_lt v k hk).2
    rw [(h.striped.opened_lt w k hj).2] at h1
    exact hv (Option.some.inj h1).symm
  refine h.step_of hothers hpt ?_ ?_ ?_ (fun v hv => ?_) ⟨⟨j, ?_, rfl, ?_, hroom⟩, hcopy, hwhole, hm⟩
  · have := h.striped.fill hj (m := m) (by rw [length_shardRange]; omega)
    rw [← hpiece, hfilled, ← Nat.add_assoc, ← Nat.add_assoc] at this
    rw [hlog, ← Nat.add_assoc]
    exact this
  · rw [hnext, h.next, Stripes.fill_claimed]
  · rw [Stripes.fill_claimed]
  · rw [Stripes.fill_eq hj]
    exact ⟨rfl, fun k hk => Function.update_of_ne (hother v hv k hk) _ _⟩
  · rw [Stripes.fill_opened, hj]
  · rw [Stripes.fill_eq hj]
    simp only [Function.update_self]
    omega

/-- A claim that finds nothing left. -/
theorem Shards.exhaust (h : Shards cfg inStartPos outStartPos totalBytes input s T) {w : Fin n}
    (hp : s.phase w = .claiming) (hle : totalBytes ≤ s.nextChunkOffset)
    (hothers : ∀ v, v ≠ w → t.phase v = s.phase v) (hpt : t.phase w = .stopping)
    (hlog : t.log = s.log)
    (hnext : t.nextChunkOffset = s.nextChunkOffset + shardChunkSize cfg totalBytes) :
    Shards cfg inStartPos outStartPos totalBytes input t ((T.claim w).close w) := by
  have hopen : T.opened w = none := h.phase hp
  have hshort : shardLength inStartPos totalBytes input ≤ totalBytes := Nat.min_le_left _ _
  have hN : shardLength inStartPos totalBytes input ≤ shardChunkSize cfg totalBytes * T.claimed := by
    rw [← h.next]
    omega
  refine h.step_of hothers hpt ?_ ?_ (Nat.le_succ _) (fun v hv => ?_) ⟨close_opened _ w, ?_⟩
  · rw [hlog]
    refine (h.striped.claim hopen).close (fun j hj => ?_)
    have hj' : j = T.claimed := by simpa [Stripes.claim, eq_comm] using hj
    rw [stripeLen, length_shardRange, show (T.claim w).filled j = T.filled j from rfl,
      h.striped.unclaimed j (by omega), hj']
    omega
  · rw [hnext, h.next]
    rfl
  · simp [Stripes.claim, Stripes.close, hv]
  · exact Nat.le_trans hN (Nat.mul_le_mul_left _ (Nat.le_succ _))

/-- Without an abort a step keeps the stripes in order. -/
theorem shards_step (h : Shards cfg inStartPos outStartPos totalBytes input s T)
    (hwhole : WholeRead cfg inStartPos totalBytes input s a)
    (hst : ShardStep cfg inStartPos outStartPos totalBytes input s a t)
    (hs : s.abortRequested = false) (ht : t.abortRequested = false) :
    Shards cfg inStartPos outStartPos totalBytes input t (trackShards cfg totalBytes T s a) := by
  cases hst
  case stops w hp habort => simp [hs] at habort
  case abandons w hp habort => simp [hs] at habort
  case fails w code hp => cases ht
  case storesError w code hp => exact absurd (h.phase hp) id
  case passes w hp =>
    exact h.move (fun v hv => s.phase_goto_of_ne _ hv) (s.phase_goto_self w _) rfl rfl
      (show T.opened w = none from h.phase hp)
  case exhausts w hp hle =>
    exact h.exhaust hp hle (fun v hv => s.phase_goto_of_ne _ hv) (s.phase_goto_self w _) rfl rfl
  case claims w hp hlt =>
    have hopen : T.opened w = none := h.phase hp
    refine h.step_of (fun v hv => s.phase_goto_of_ne _ hv) (s.phase_goto_self w _)
      (h.striped.claim hopen) ?_ (Nat.le_succ _) (fun v hv => ?_) ⟨T.claimed, ?_, h.next, ?_⟩
    · rw [h.next]
      rfl
    · simp [trackShards, Stripes.claim, hv]
    · simp [trackShards, Stripes.claim]
    · exact h.striped.unclaimed _ (Nat.le_refl _)
  case finishes w offset done hp hlen =>
    obtain ⟨j, hj, rfl, hfilled⟩ := h.phase hp
    have hle := h.filled_le j
    refine h.close (fun v hv => s.phase_goto_of_ne _ hv) (s.phase_goto_self w _) rfl rfl hj ?_
    rw [stripeLen_eq]
    omega
  case submits w offset done hp hlen =>
    obtain ⟨j, hj, hbase, hfilled⟩ := h.phase hp
    exact h.move (fun v hv => s.phase_goto_of_ne _ hv) (s.phase_goto_self w _) rfl rfl
      ⟨j, hj, hbase, hfilled, hlen⟩
  case reads w m offset done bytes hp hpos hm hb hlen =>
    have hfull := hwhole offset done hp
    obtain ⟨j, hj, rfl, hfilled, hdone⟩ := h.phase hp
    have hreq := Nat.le_trans hm (Nat.mod_le _ _)
    have hcur := curLen_le cfg totalBytes (shardChunkSize cfg totalBytes * j) done
    have hchunk := chunkLen_le cfg totalBytes (shardChunkSize cfg totalBytes * j)
    have hin : shardChunkSize cfg totalBytes * j + done + m ≤ totalBytes := by omega
    obtain ⟨hcopy, hle⟩ := read_shardRange hpos hb hlen hin
    refine h.move (fun v hv => s.phase_goto_of_ne _ hv) (s.phase_goto_self w _) rfl rfl
      ⟨⟨j, hj, rfl, hfilled, ?_⟩, by rw [hlen]; exact hcopy, by rw [hlen]; exact hfull,
        Nat.zero_le _⟩
    rw [stripeLen_eq, hlen]
    rw [shardLength] at hle
    omega
  case readsEof w offset done hp hzero =>
    have hend := hwhole offset done hp
    obtain ⟨j, hj, rfl, hfilled, hdone⟩ := h.phase hp
    have hle := h.filled_le j
    refine h.close (fun v hv => s.phase_goto_of_ne _ hv) (s.phase_goto_self w _) rfl rfl hj ?_
    rw [stripeLen_eq]
    omega
  case writes w m offset done bytes written hp hlt hpos hm =>
    have hmod := Nat.le_trans hm (Nat.mod_le _ _)
    exact h.write hp (by omega) (fun v hv => s.phase_goto_of_ne _ hv) (s.phase_goto_self w _) rfl rfl
  case writesNothing => exact absurd hwhole id
  case addsBytes w offset done bytes written res hp =>
    exact h.move (fun v hv => s.phase_goto_of_ne _ hv) (s.phase_goto_self w _) rfl rfl
      (show Writing _ _ _ _ _ _ _ _ _ _ from h.phase hp)
  case addsRecord w offset done bytes written res hp =>
    exact h.move (fun v hv => s.phase_goto_of_ne _ hv) (s.phase_goto_self w _) rfl rfl
      (show Writing _ _ _ _ _ _ _ _ _ _ from h.phase hp)
  case delivers w offset done bytes written hp hle hcur =>
    have hwr : Writing cfg inStartPos totalBytes input T w offset done bytes written := h.phase hp
    obtain ⟨⟨j, hj, hbase, hfilled, -⟩, -, -, hbound⟩ := hwr
    rw [trackShards, hp]
    simp only
    rw [if_neg (Nat.not_lt.mpr hcur)]
    exact h.move (fun v hv => s.phase_goto_of_ne _ hv) (s.phase_goto_self w _) rfl rfl
      ⟨j, hj, hbase, by omega⟩
  case deliversShort w offset done bytes written hp hle hshort =>
    -- a short read has ended at the end of the input, so the stripe is full
    have hwr : Writing cfg inStartPos totalBytes input T w offset done bytes written := h.phase hp
    obtain ⟨⟨j, hj, rfl, hfilled, -⟩, -, hfull, hbound⟩ := hwr
    have hend := hfull.resolve_left (by omega)
    have hlim := h.filled_le j
    rw [trackShards, hp]
    simp only
    rw [if_pos hshort]
    refine h.close (fun v hv => s.phase_goto_of_ne _ hv) (s.phase_goto_self w _) rfl rfl hj ?_
    rw [stripeLen_eq]
    omega
  case ends w hp =>
    exact h.move (fun v hv => s.phase_goto_of_ne _ hv) (s.phase_goto_self w _) rfl rfl
      (show _ ∧ _ from h.phase hp)
  all_goals exact ⟨h.striped, h.next, h.phases⟩

/-- A step is one of a worker that has not ended, or of the step function. -/
theorem step_kind (hst : ShardStep cfg inStartPos outStartPos totalBytes input s a t) :
    (∃ w p, t.phase = (s.goto w p).phase ∧ t.step = s.step ∧ (s.phase w).running = 1 ∧
      (t.activeWorkers = s.activeWorkers ∧ p.running = 1 ∨
        t.activeWorkers = s.activeWorkers - 1 ∧ p.running = 0)) ∨
    (t.phase = s.phase ∧ t.activeWorkers = s.activeWorkers ∧
      t.abortRequested = s.abortRequested ∧
      (t.step = .loadActive → s.abortRequested = false) ∧
      (t.step = .returned .success true → s.step = .loadActive ∧ s.activeWorkers = 0)) := by
  cases hst
  case ends w hp => exact .inl ⟨w, _, rfl, rfl, by rw [hp]; rfl, .inr ⟨rfl, rfl⟩⟩
  case abandons w hp habort =>
    refine .inl ⟨w, _, rfl, rfl, ?_, .inl ⟨rfl, rfl⟩⟩
    cases hw : s.phase w <;> simp_all [WorkerPhase.inChunk, WorkerPhase.running]
  case fails w code hp =>
    refine .inl ⟨w, _, rfl, rfl, ?_, .inl ⟨rfl, rfl⟩⟩
    cases hw : s.phase w <;> simp_all [WorkerPhase.inChunk, WorkerPhase.running]
  case begins | loadsBytes | loadsFull | loadsPartial | loadsError =>
    exact .inr ⟨rfl, rfl, rfl, nofun, nofun⟩
  case loadsAbort hp =>
    refine .inr ⟨rfl, rfl, rfl, fun hload => ?_, fun hret => ?_⟩
    · cases habort : s.abortRequested with
      | false => rfl
      | true => simp [habort] at hload
    · cases habort : s.abortRequested <;> simp [habort] at hret
  case loadsActive hp => exact .inr ⟨rfl, rfl, rfl, nofun, fun hret => ⟨hp, by simpa using hret⟩⟩
  all_goals
    refine .inl ⟨_, _, rfl, rfl, ?_, .inl ⟨rfl, rfl⟩⟩
    simp_all [WorkerPhase.running]

/-- Only a failure asks to abort, and nobody takes it back. -/
theorem abort_step (hst : ShardStep cfg inStartPos outStartPos totalBytes input s a t) :
    t.abortRequested = s.abortRequested ∨ ∃ w, a = .fails w := by
  cases hst
  case fails w code hp => exact .inr ⟨w, rfl⟩
  all_goals exact .inl rfl

/-- When no worker is left running, all have ended. -/
theorem ShardInv.all_done (h : ShardInv cfg inStartPos outStartPos totalBytes input s T)
    (hzero : s.activeWorkers = 0) (w : Fin n) : s.phase w = .done := by
  have hsum := h.active
  rw [hzero] at hsum
  have hall := Finset.sum_eq_zero_iff.mp hsum.symm w (Finset.mem_univ w)
  exact WorkerPhase.running_eq_zero hall

theorem shardInv_step (h : ShardInv cfg inStartPos outStartPos totalBytes input s T)
    (hwhole : WholeRead cfg inStartPos totalBytes input s a)
    (hst : ShardStep cfg inStartPos outStartPos totalBytes input s a t) :
    ShardInv cfg inStartPos outStartPos totalBytes input t (trackShards cfg totalBytes T s a) := by
  have hquiet : s.step = .loadActive → t.abortRequested = false := by
    intro hload
    rcases abort_step hst with habort | ⟨w, rfl⟩
    · rw [habort, h.unaborted hload]
    · exact absurd hload hwhole
  refine ⟨fun ht => ?_, ?_, fun ht => ?_, fun ht => ?_⟩
  · rcases abort_step hst with habort | ⟨w, rfl⟩
    · have hs : s.abortRequested = false := by rw [← habort, ht]
      exact shards_step (h.shards hs) hwhole hst hs ht
    · cases hst
      cases ht
  · rcases step_kind hst with ⟨w, p, hphase, -, hrun, hcount⟩ | ⟨hphase, hcount, -, -, -⟩
    · have hsum := s.sum_running_goto w p
      have hactive := h.active
      rw [hrun] at hsum
      rw [hphase]
      omega
    · rw [hphase, hcount, h.active]
  · rcases step_kind hst with ⟨w, p, -, hstep, -⟩ | ⟨-, -, habort, hload, -⟩
    · exact hquiet (by rw [← hstep, ht])
    · rw [habort, hload ht]
  · rcases step_kind hst with ⟨w, p, -, hstep, hrun, -⟩ | ⟨hphase, -, habort, -, hret⟩
    · -- after the end nobody is left to take a step
      rw [hstep] at ht
      rw [(h.ended ht).2 w] at hrun
      cases hrun
    · obtain ⟨hload, hzero⟩ := hret ht
      rw [habort, hphase]
      exact ⟨h.unaborted hload, h.all_done hzero⟩

theorem shardInv_start :
    ShardInv cfg inStartPos outStartPos totalBytes input (ShardState.start n) .start where
  shards _ := ⟨.start _ _ _, rfl, fun _ => rfl⟩
  active := by
    show n = ∑ _ : Fin n, 1
    rw [Finset.sum_const, Finset.card_univ, Fintype.card_fin]
    exact (Nat.mul_one n).symm
  unaborted h := by cases h
  ended h := by cases h

end Steps

theorem shardInv_of_reachable {s : ShardState n α}
    (h : ((shardedSystem cfg inStartPos outStartPos totalBytes input n).restrict
      (WholeRead cfg inStartPos totalBytes input)).Reachable s) :
    ∃ T, ShardInv cfg inStartPos outStartPos totalBytes input s T := by
  obtain ⟨T, hT⟩ := h.traced .start (trackShards cfg totalBytes)
  refine ⟨T, hT.invariant
    (I := fun x => ShardInv cfg inStartPos outStartPos totalBytes input x.1 x.2) ?_ ?_⟩
  · rintro ⟨s, T⟩ ⟨rfl, rfl⟩
    exact shardInv_start
  · rintro ⟨s, T⟩ a ⟨t, T'⟩ hs ⟨⟨hst, hwhole⟩, rfl⟩
    exact shardInv_step hs hwhole hst

theorem numWorkers_pos (cfg : Config) : 0 < numWorkers cfg := by
  simp only [numWorkers]
  omega

/-- When every read gives its whole length or ends at the end of the input, the end is reported
with success only after each byte has been written to its place, once, and nothing else. -/
theorem sharded_copies (cfg : Config) (inStartPos outStartPos totalBytes : Nat) (input : List α)
    {s : ShardState (numWorkers cfg) α}
    (h : ((shardedSystem cfg inStartPos outStartPos totalBytes input (numWorkers cfg)).restrict
      (WholeRead cfg inStartPos totalBytes input)).Reachable s)
    (hend : s.step = .returned .success true) :
    (∀ i, i < min totalBytes (input.length - inStartPos) →
      ∃ w b, input[inStartPos + i]? = some b ∧ cellsAt s.log (outStartPos + i) = [(w, b)]) ∧
    ∀ p, p < outStartPos ∨ outStartPos + min totalBytes (input.length - inStartPos) ≤ p →
      cellsAt s.log p = [] := by
  obtain ⟨T, hinv⟩ := shardInv_of_reachable h
  obtain ⟨habort, hdone⟩ := hinv.ended hend
  have hs := hinv.shards habort
  have hopen : ∀ w, T.opened w = none := fun w => (hs.phase (hdone w)).1
  have hall : (shardRange inStartPos totalBytes input).length ≤
      shardChunkSize cfg totalBytes * T.claimed := by
    rw [length_shardRange]
    exact (hs.phase (hdone ⟨0, numWorkers_pos cfg⟩)).2
  refine ⟨fun i hi => ?_, fun p hp => ?_⟩
  · obtain ⟨w, b, -, hb, hcell⟩ := hs.striped.complete hopen hall (by rwa [length_shardRange])
    rw [shardRange, shardLength, List.getElem?_take_of_lt hi, List.getElem?_drop] at hb
    exact ⟨w, b, hb, hcell⟩
  · exact hs.striped.nothing_else hopen hall (by rwa [length_shardRange])

section Example

def twoShards : Config := { engine := .uring, threads := 2, blocksize := 2 }

/-- One worker copies the only chunk, the other finds nothing to claim. -/
theorem sharded_copies_twoBytes : ∃ s : ShardState 2 Nat,
    ((shardedSystem twoShards 0 0 2 [7, 8] 2).restrict
      (WholeRead twoShards 0 2 [7, 8])).Reachable s ∧
      (∃ w, cellsAt s.log 0 = [(w, 7)]) ∧ ∃ w, cellsAt s.log 1 = [(w, 8)] := by
  have start : ((shardedSystem twoShards 0 0 2 [7, 8] 2).restrict
      (WholeRead twoShards 0 2 [7, 8])).Reachable (ShardState.start 2) := .init rfl
  have h1 := start.step ⟨.passes _ 0 rfl, trivial⟩
  have h2 := h1.step ⟨.claims _ 0 rfl (by decide), trivial⟩
  have h3 := h2.step ⟨.submits _ 0 _ _ rfl (by decide), trivial⟩
  have h4 := h3.step
    ⟨.reads _ 0 2 0 0 [7, 8] rfl (by decide) (by decide) (by decide) rfl, by
      intro offset done hp
      cases hp
      exact .inl (by decide)⟩
  have h5 := h4.step ⟨.writes _ 0 2 _ _ _ _ rfl (by decide) (by decide) (by decide), trivial⟩
  have h6 := h5.step ⟨.addsBytes _ 0 _ _ _ _ _ rfl, trivial⟩
  have h7 := h6.step ⟨.addsRecord _ 0 _ _ _ _ _ rfl, trivial⟩
  have h8 := h7.step ⟨.delivers _ 0 _ _ _ _ rfl (by decide) (by decide), trivial⟩
  have h9 := h8.step ⟨.finishes _ 0 _ _ rfl (by decide), trivial⟩
  have h10 := h9.step ⟨.passes _ 0 rfl, trivial⟩
  have h11 := h10.step ⟨.exhausts _ 0 rfl (by decide), trivial⟩
  have h12 := h11.step ⟨.ends _ 0 rfl, trivial⟩
  have h13 := h12.step ⟨.passes _ 1 rfl, trivial⟩
  have h14 := h13.step ⟨.exhausts _ 1 rfl (by decide), trivial⟩
  have h15 := h14.step ⟨.ends _ 1 rfl, trivial⟩
  have h16 := h15.step ⟨.loadsBytes _ rfl, trivial⟩
  have h17 := h16.step ⟨.loadsFull _ rfl, trivial⟩
  have h18 := h17.step ⟨.loadsPartial _ rfl, trivial⟩
  have h19 := h18.step ⟨.loadsAbort _ rfl, trivial⟩
  have h20 := h19.step ⟨.loadsActive _ rfl, trivial⟩
  obtain ⟨hcells, -⟩ := sharded_copies twoShards 0 0 2 [7, 8] h20 rfl
  obtain ⟨w, b, hb, hcell⟩ := hcells 0 (by decide)
  obtain ⟨w', b', hb', hcell'⟩ := hcells 1 (by decide)
  obtain rfl : 7 = b := Option.some.inj hb
  obtain rfl : 8 = b' := Option.some.inj hb'
  exact ⟨_, h20, ⟨w, hcell⟩, ⟨w', hcell'⟩⟩

/-- Reads and writes of positive lengths, and an end of file at the end of the input only. -/
def PositiveCompletion (inStartPos : Nat) (input : List Nat) (s : ShardState n Nat) :
    ShardAct n → Prop
  | .readsEof w => ∀ offset done, s.phase w = .reading offset done →
      input.length ≤ inStartPos + (offset + done)
  | .writesNothing _ | .fails _ => False
  | _ => True

/-- A read of one of the two bytes asked for: the worker leaves the chunk, the second byte is not
copied, and the end is reported with success. -/
theorem shortRead_loses : ∃ s : ShardState 2 Nat,
    ((shardedSystem twoShards 0 0 2 [7, 8] 2).restrict
      (PositiveCompletion 0 [7, 8])).Reachable s ∧
      s.step = .returned .success true ∧ cellsAt s.log 1 = [] := by
  have start : ((shardedSystem twoShards 0 0 2 [7, 8] 2).restrict
      (PositiveCompletion 0 [7, 8])).Reachable (ShardState.start 2) := .init rfl
  have h1 := start.step ⟨.passes _ 0 rfl, trivial⟩
  have h2 := h1.step ⟨.claims _ 0 rfl (by decide), trivial⟩
  have h3 := h2.step ⟨.submits _ 0 _ _ rfl (by decide), trivial⟩
  have h4 := h3.step
    ⟨.reads _ 0 1 0 0 [7] rfl (by decide) (by decide) (by decide) rfl, trivial⟩
  have h5 := h4.step ⟨.writes _ 0 1 _ _ _ _ rfl (by decide) (by decide) (by decide), trivial⟩
  have h6 := h5.step ⟨.addsBytes _ 0 _ _ _ _ _ rfl, trivial⟩
  have h7 := h6.step ⟨.addsRecord _ 0 _ _ _ _ _ rfl, trivial⟩
  have h8 := h7.step ⟨.deliversShort _ 0 _ _ _ _ rfl (by decide) (by decide), trivial⟩
  have h9 := h8.step ⟨.passes _ 0 rfl, trivial⟩
  have h10 := h9.step ⟨.exhausts _ 0 rfl (by decide), trivial⟩
  have h11 := h10.step ⟨.ends _ 0 rfl, trivial⟩
  have h12 := h11.step ⟨.passes _ 1 rfl, trivial⟩
  have h13 := h12.step ⟨.exhausts _ 1 rfl (by decide), trivial⟩
  have h14 := h13.step ⟨.ends _ 1 rfl, trivial⟩
  have h15 := h14.step ⟨.loadsBytes _ rfl, trivial⟩
  have h16 := h15.step ⟨.loadsFull _ rfl, trivial⟩
  have h17 := h16.step ⟨.loadsPartial _ rfl, trivial⟩
  have h18 := h17.step ⟨.loadsAbort _ rfl, trivial⟩
  have h19 := h18.step ⟨.loadsActive _ rfl, trivial⟩
  exact ⟨_, h19, rfl, by decide⟩

end Example

end Blkcp.C
