import Blkcp.C.Ring
set_option autoImplicit false

/-! What the single ring has written: the input in order, as long as no completion is short and
none of a slot with old content is retried. -/

namespace Blkcp.C
open Blkcp.Lib

variable {α : Type}

section Defs

variable (cfg : Config) (fds : Descriptors) (input : List α)

def inStart : Nat := if fds.inSeekable then fds.curIn else 0

def outStart : Nat := if fds.outSeekable then fds.curOut else 0

/-- The input from where the copy begins. -/
def source : List α := input.drop (inStart fds)

/-- How many bytes the copy is to have. -/
def copyLength : Nat :=
  match cfg.bytesToCopy with
  | some limit => min limit (source fds input).length
  | none => (source fds input).length

namespace RingState

/-- The bytes of the write in flight. -/
def pending (s : RingState α) : Nat := s.writeInFlight.getD 0

end RingState

/-- Where the reading is, behind what is written and in flight. -/
inductive Reading (d : List α) (s : RingState α) : Prop where
  | unprimed : s.phase = .loop → s.pipelinePrimed = false → s.streamIn = 0 →
      s.stats.wBytes = 0 → s.writeInFlight = none → s.readEof = false → Reading d s
  | inFlight (len : Nat) : s.pipelinePrimed = true → s.readInFlight = some len →
      s.readEof = false → len < 2 ^ 32 → s.streamIn = s.stats.wBytes + s.pending →
      (∀ limit, cfg.bytesToCopy = some limit → s.streamIn + len ≤ limit) →
      (s.writeInFlight.isSome → s.readSlot ≠ s.writeSlot) → Reading d s
  | fresh : s.pipelinePrimed = true → s.readInFlight = none → s.current.length < 2 ^ 32 →
      s.current = (d.drop (s.stats.wBytes + s.pending)).take s.current.length →
      s.streamIn = s.stats.wBytes + s.pending + s.current.length →
      (∀ limit, cfg.bytesToCopy = some limit → s.streamIn ≤ limit) →
      (s.writeInFlight.isSome → s.readSlot ≠ s.writeSlot) →
      (s.readEof = true → s.current = [] ∧ d.length ≤ s.streamIn) → Reading d s
  | planned : s.pipelinePrimed = true → s.readInFlight = none → s.readEof = true →
      s.current ≠ [] → s.streamIn = s.stats.wBytes + s.pending →
      cfg.bytesToCopy = some (s.stats.wBytes + s.pending) → Reading d s

structure Copying (s : RingState α) : Prop where
  log : Consecutive (outStart fds) s.log ((source fds input).take s.stats.wBytes)
  outPos : s.outPos fds = outStart fds + s.stats.wBytes
  inPos : s.inPos fds = inStart fds + s.streamIn
  slot : (s.slots s.writeSlot).take s.pending =
    ((source fds input).drop s.stats.wBytes).take s.pending
  pending_le : s.stats.wBytes + s.pending ≤ (source fds input).length
  within : ∀ limit, cfg.bytesToCopy = some limit → s.stats.wBytes + s.pending ≤ limit
  streamIn_le : s.streamIn ≤ (source fds input).length
  records : s.stats.rPartial + s.stats.rFull ≤ s.streamIn
  reading : Reading cfg (source fds input) s

structure Complete (s : RingState α) : Prop where
  log : Consecutive (outStart fds) s.log ((source fds input).take (copyLength cfg fds input))
  wBytes : s.stats.wBytes = copyLength cfg fds input
  pending : s.pending = 0

/-- What holds between the steps of a copy without an error. -/
def RingInv (s : RingState α) : Prop :=
  match s.phase with
  | .loop | .harvest => Copying cfg fds input s
  | .flush .success | .done .success => Complete cfg fds input s
  | _ => True

/-- A write completes in full, a read of `0` bytes is at the end of the input, and only a slot
without old content is retried. -/
def FullCompletion (s : RingState α) : RingAct → Prop
  | .writes res => s.writeInFlight = some res
  | .writeRetries => s.pending = 0
  | .readsEof => input.length ≤ s.inPos fds
  | .readRetries => s.current = []
  | _ => True

end Defs

variable {cfg : Config} {fds : Descriptors} {input : List α} {s t : RingState α} {a : RingAct}

section Steps

theorem wBytes_le (h : Copying cfg fds input s) : s.stats.wBytes ≤ (source fds input).length :=
  Nat.le_trans (Nat.le_add_right _ _) h.pending_le

/-- Stopping where nothing is left to write. -/
theorem complete_of_eq (h : Copying cfg fds input s)
    (hlen : s.stats.wBytes = copyLength cfg fds input) : Complete cfg fds input s where
  log := by rw [← hlen]; exact h.log
  wBytes := hlen
  pending := by
    have hpend := h.pending_le
    rw [copyLength] at hlen
    cases hlim : cfg.bytesToCopy with
    | none =>
      simp only [hlim] at hlen
      omega
    | some limit =>
      have := h.within limit hlim
      simp only [hlim] at hlen
      omega

theorem complete_of_limit (h : Copying cfg fds input s) {limit : Nat}
    (hlim : cfg.bytesToCopy = some limit) (hle : limit ≤ s.stats.wBytes) :
    Complete cfg fds input s := by
  have hwithin := h.within limit hlim
  have hle' := wBytes_le h
  refine complete_of_eq h ?_
  simp only [copyLength, hlim]
  omega

theorem complete_of_eof (h : Copying cfg fds input s)
    (hle : (source fds input).length ≤ s.stats.wBytes) : Complete cfg fds input s := by
  have hle' := wBytes_le h
  refine complete_of_eq h ?_
  cases hlim : cfg.bytesToCopy with
  | none =>
    simp only [copyLength, hlim]
    omega
  | some limit =>
    have hwithin := h.within limit hlim
    simp only [copyLength, hlim]
    omega

theorem complete_of_limitReached (h : Copying cfg fds input s)
    (hrec : cfg.bytesToCopy = none → cfg.maxRecords = intmaxMax)
    (hlen : input.length < intmaxMax) (hreached : limitReached cfg s.stats = true) :
    Complete cfg fds input s := by
  cases hlim : cfg.bytesToCopy with
  | some limit =>
    refine complete_of_limit h hlim ?_
    simpa [limitReached, hlim] using hreached
  | none =>
    have hrecords := h.records
    have hstream := h.streamIn_le
    have hsource : (source fds input).length ≤ input.length := by
      rw [source, List.length_drop]
      omega
    simp only [limitReached, hlim, hrec hlim, decide_eq_true_eq] at hreached
    omega

theorem getNextReadSize_le {limit n : Nat} (hlim : cfg.bytesToCopy = some limit) :
    getNextReadSize cfg cfg.blocksize n ≤ limit - n := by
  simp only [getNextReadSize, hlim]
  omega

theorem getNextReadSize_zero {n : Nat} (hbs : 0 < cfg.blocksize)
    (h : getNextReadSize cfg cfg.blocksize n = 0) :
    ∃ limit, cfg.bytesToCopy = some limit ∧ limit ≤ n := by
  simp only [getNextReadSize] at h
  cases hlim : cfg.bytesToCopy with
  | none =>
    simp only [hlim] at h
    omega
  | some limit =>
    simp only [hlim] at h
    exact ⟨limit, rfl, by omega⟩

theorem requestLen_le (n : Nat) : requestLen n ≤ n := Nat.mod_le _ _

theorem requestLen_lt (n : Nat) : requestLen n < 2 ^ 32 := Nat.mod_lt _ (by decide)

theorem requestLen_eq {n : Nat} (h : n < 2 ^ 32) : requestLen n = n := Nat.mod_eq_of_lt h

/-- Going on with the same slots, requests and counters. -/
theorem Copying.goto (h : Copying cfg fds input s) (hprimed : s.pipelinePrimed = true)
    (phase : RingPhase) : Copying cfg fds input { s with phase := phase } where
  log := h.log
  outPos := h.outPos
  inPos := h.inPos
  slot := h.slot
  pending_le := h.pending_le
  within := h.within
  streamIn_le := h.streamIn_le
  records := h.records
  reading := by
    cases h.reading with
    | unprimed _ hnot => simp [hprimed] at hnot
    | inFlight len h1 h2 h3 h4 h5 h6 h7 => exact .inFlight len h1 h2 h3 h4 h5 h6 h7
    | fresh h1 h2 h3 h4 h5 h6 h7 h8 => exact .fresh h1 h2 h3 h4 h5 h6 h7 h8
    | planned h1 h2 h3 h4 h5 h6 => exact .planned h1 h2 h3 h4 h5 h6

theorem Complete.stop (h : Complete cfg fds input s) :
    RingInv cfg fds input { s with phase := .flush .success } :=
  show Complete cfg fds input _ from ⟨h.log, h.wBytes, h.pending⟩

/-- The central loop stops, or a step is entered. -/
theorem top_inv (hbs : 0 < cfg.blocksize)
    (hrec : cfg.bytesToCopy = none → cfg.maxRecords = intmaxMax)
    (hlen : input.length < intmaxMax) (h : Copying cfg fds input s) :
    RingInv cfg fds input (s.top cfg) := by
  rw [RingState.top]
  by_cases hreached : limitReached cfg s.stats = true
  · rw [if_pos hreached]
    exact (complete_of_limitReached h hrec hlen hreached).stop
  rw [if_neg hreached, RingState.begin]
  by_cases hprimed : s.pipelinePrimed = true
  · rw [if_pos hprimed]
    exact h.goto hprimed .harvest
  rw [if_neg hprimed]
  cases h.reading with
  | inFlight _ hprimed' => exact absurd hprimed' hprimed
  | fresh hprimed' => exact absurd hprimed' hprimed
  | planned hprimed' => exact absurd hprimed' hprimed
  | unprimed _ _ hstream hw hwrite heof =>
    by_cases hzero : getNextReadSize cfg cfg.blocksize 0 = 0
    · obtain ⟨limit, hlim, hle⟩ := getNextReadSize_zero hbs hzero
      simp only [hzero, if_true]
      exact (complete_of_limit h hlim (by omega)).stop
    · simp only [hzero, if_false]
      have hpend : s.pending = 0 := by rw [RingState.pending, hwrite]; rfl
      refine ⟨h.log, h.outPos, h.inPos, h.slot, h.pending_le, h.within, h.streamIn_le,
        h.records, .inFlight _ rfl rfl heof (requestLen_lt _) ?_ (fun limit hlim => ?_) ?_⟩
      · show s.streamIn = s.stats.wBytes + s.pending
        omega
      · show s.streamIn + _ ≤ limit
        have hle := getNextReadSize_le (n := 0) hlim
        have hreq := requestLen_le (getNextReadSize cfg cfg.blocksize 0)
        omega
      · show s.writeInFlight.isSome → _
        rw [hwrite]
        nofun

theorem succ_ne (i : SlotId) : i + 1 ≠ i := by
  revert i
  decide

/-- The next write is all of the slot just read. -/
theorem bytesToWrite_eq (hin : s.streamIn = s.stats.wBytes + s.current.length)
    (hlim : ∀ limit, cfg.bytesToCopy = some limit → s.streamIn ≤ limit) :
    s.bytesToWrite cfg = s.current.length := by
  rw [RingState.bytesToWrite]
  cases hcopy : cfg.bytesToCopy with
  | none => rfl
  | some limit =>
    have := hlim limit hcopy
    show min (limit - s.stats.wBytes) s.current.length = _
    omega

/-- A step that waits for nothing: the copy stops, or the slot just read is written. -/
theorem settle_inv (hbs : 0 < cfg.blocksize) (h : Copying cfg fds input s)
    (hphase : s.phase = .harvest) (hread : s.readInFlight = none)
    (hwrite : s.writeInFlight = none) : RingInv cfg fds input (s.settle cfg) := by
  have hpend : s.pending = 0 := by rw [RingState.pending, hwrite]; rfl
  cases h.reading with
  | unprimed hloop => rw [hphase] at hloop; cases hloop
  | inFlight len _ hsome => rw [hread] at hsome; cases hsome
  | planned _ _ heof hne hin hlim =>
    rw [RingState.settle, if_neg (fun hcon => hne hcon.2), if_pos (by simp [hlim, hpend])]
    exact (complete_of_limit h hlim (by omega)).stop
  | fresh hprimed _ hlt hslot hin hlim hsep heof =>
    rw [hpend, Nat.add_zero] at hslot hin
    by_cases hend : s.readEof = true ∧ s.current = []
    · rw [RingState.settle, if_pos hend]
      have hle := (heof hend.1).2
      rw [hin, hend.2] at hle
      exact (complete_of_eof h hle).stop
    have heof' : s.readEof = false := by
      by_contra hcon
      have htrue : s.readEof = true := by simpa using hcon
      exact hend ⟨htrue, (heof htrue).1⟩
    rw [RingState.settle, if_neg hend]
    cases hlimit : cfg.bytesToCopy.any fun limit => limit ≤ s.stats.wBytes with
    | true =>
      obtain ⟨limit, hcopy, hle⟩ := (Option.any_eq_true _ _).mp hlimit
      exact (complete_of_limit h hcopy (by simpa using hle)).stop
    | false =>
      rw [if_neg (by simp)]
      simp only [heof', bytesToWrite_eq hin hlim, requestLen_eq hlt, Bool.false_eq_true, if_false]
      have hslot' : (s.slots s.readSlot).take s.current.length =
          ((source fds input).drop s.stats.wBytes).take s.current.length := by
        rw [← hslot]
        exact List.take_length
      have hle : s.stats.wBytes + s.current.length ≤ (source fds input).length := by
        rw [← hin]
        exact h.streamIn_le
      have hwithin : ∀ limit, cfg.bytesToCopy = some limit →
          s.stats.wBytes + s.current.length ≤ limit := fun limit hcopy => by
        rw [← hin]
        exact hlim limit hcopy
      by_cases hzero : getNextReadSize cfg cfg.blocksize (s.stats.wBytes + s.current.length) = 0
      · rw [if_pos hzero]
        obtain ⟨limit, hcopy, hle'⟩ := getNextReadSize_zero hbs hzero
        have heq : limit = s.stats.wBytes + s.current.length :=
          Nat.le_antisymm hle' (hwithin limit hcopy)
        have hne : s.current ≠ [] := by
          intro hnil
          rw [hcopy, Option.any_some, decide_eq_false_iff_not] at hlimit
          rw [heq, hnil] at hlimit
          exact hlimit (Nat.le_refl _)
        exact ⟨h.log, h.outPos, h.inPos, hslot', hle, hwithin, h.streamIn_le, h.records,
          .planned hprimed hread rfl hne hin (by rw [hcopy, heq]; rfl)⟩
      · rw [if_neg hzero]
        refine ⟨h.log, h.outPos, h.inPos, hslot', hle, hwithin, h.streamIn_le, h.records,
          .inFlight _ hprimed rfl rfl (requestLen_lt _) hin (fun limit hcopy => ?_) (fun _ => ?_)⟩
        · show s.streamIn + _ ≤ limit
          have hreq := requestLen_le
            (getNextReadSize cfg cfg.blocksize (s.stats.wBytes + s.current.length))
          have hnext := getNextReadSize_le (n := s.stats.wBytes + s.current.length) hcopy
          have := hwithin limit hcopy
          omega
        · exact succ_ne s.readSlot

/-- A write that completes in full. -/
theorem wrote_inv (h : Copying cfg fds input s) (hphase : s.phase = .harvest) {len : Nat}
    (hwrite : s.writeInFlight = some len) : Copying cfg fds input (s.wrote cfg fds len) := by
  have hpend : s.pending = len := by rw [RingState.pending, hwrite]; rfl
  have hle := h.pending_le
  have hslot := h.slot
  rw [hpend] at hle hslot
  rw [RingState.wrote, if_neg (fun hcon => hcon.1 hphase)]
  refine ⟨?_, ?_, h.inPos, rfl, hle, fun limit hcopy => ?_, h.streamIn_le, h.records, ?_⟩
  · show Consecutive _ (s.log ++ [⟨(), s.outPos fds, (s.slots s.writeSlot).take len⟩])
      ((source fds input).take (s.stats.wBytes + len))
    have hlen : ((source fds input).take s.stats.wBytes).length = s.stats.wBytes :=
      List.length_take_of_le (wBytes_le h)
    have hlog := @Consecutive.snoc _ _ _ _ _ (((source fds input).drop s.stats.wBytes).take len) () h.log
    rw [hlen] at hlog
    rw [List.take_add, hslot, h.outPos]
    exact hlog
  · show (if fds.outSeekable then (if fds.outSeekable then s.outFilePos + len else s.outFilePos)
      else s.streamOut + len) = outStart fds + (s.stats.wBytes + len)
    have hpos := h.outPos
    rw [RingState.outPos] at hpos
    split at hpos
    · rename_i hseek
      rw [if_pos hseek, if_pos hseek]
      omega
    · rename_i hseek
      rw [if_neg hseek]
      omega
  · show s.stats.wBytes + len ≤ limit
    have := h.within limit hcopy
    omega
  · have hw : s.stats.wBytes + len = s.stats.wBytes + s.pending := by rw [hpend]
    cases h.reading with
    | unprimed hloop => rw [hphase] at hloop; cases hloop
    | inFlight n h1 h2 h3 h4 h5 h6 h7 =>
      exact .inFlight n h1 h2 h3 h4 (h5.trans hw.symm) h6 nofun
    | fresh h1 h2 h3 h4 h5 h6 h7 h8 =>
      refine .fresh h1 h2 h3 ?_ ?_ h6 nofun h8
      · show s.current = ((source fds input).drop (s.stats.wBytes + len)).take s.current.length
        rw [hw]
        exact h4
      · show s.streamIn = s.stats.wBytes + len + s.current.length
        rw [hw]
        exact h5
    | planned h1 h2 h3 h4 h5 h6 =>
      refine .planned h1 h2 h3 h4 (h5.trans hw.symm) ?_
      show cfg.bytesToCopy = some (s.stats.wBytes + len)
      rw [hw]
      exact h6

/-- The slot being read may change while another one is written. -/
theorem update_slot {bytes : List α} (hsep : s.writeInFlight.isSome → s.readSlot ≠ s.writeSlot) :
    (Function.update s.slots s.readSlot bytes s.writeSlot).take s.pending =
      (s.slots s.writeSlot).take s.pending := by
  cases hwrite : s.writeInFlight with
  | none => rw [RingState.pending, hwrite, Option.getD_none, List.take_zero, List.take_zero]
  | some len =>
    rw [Function.update_of_ne]
    exact (hsep (by rw [hwrite]; rfl)).symm

theorem didRead_inv (h : Copying cfg fds input s) (hphase : s.phase = .harvest) {len res : Nat}
    (hread : s.readInFlight = some len) (hpos : 0 < res) (hres : res ≤ len) {bytes : List α}
    (hbytes : bytes = (input.drop (s.inPos fds)).take res) (hlen : bytes.length = res) :
    Copying cfg fds input (s.didRead cfg fds bytes) := by
  have hne : bytes ≠ [] := List.ne_nil_of_length_pos (by omega)
  cases h.reading with
  | unprimed hloop => rw [hphase] at hloop; cases hloop
  | fresh _ hnone => rw [hread] at hnone; cases hnone
  | planned _ hnone => rw [hread] at hnone; cases hnone
  | inFlight n hprimed hsome heof hlt hin hlim hsep =>
    obtain rfl : len = n := Option.some.inj (hread.symm.trans hsome)
    have hsource : bytes = ((source fds input).drop s.streamIn).take res := by
      rw [hbytes, h.inPos, source, List.drop_drop]
    have hle : s.streamIn + bytes.length ≤ (source fds input).length := by
      have := congrArg List.length hsource
      rw [hlen, List.length_take, List.length_drop] at this
      omega
    have hcur : Function.update s.slots s.readSlot bytes s.readSlot = bytes :=
      Function.update_self ..
    rw [RingState.didRead]
    simp only [if_neg hne]
    refine ⟨h.log, h.outPos, ?_, (update_slot hsep).trans h.slot, h.pending_le, h.within, hle, ?_,
      .fresh hprimed rfl ?_ ?_ ?_ (fun limit hcopy => ?_) hsep (fun htrue => ?_)⟩
    · show (if fds.inSeekable then (if fds.inSeekable then s.inFilePos + bytes.length
        else s.inFilePos) else s.streamIn + bytes.length) = _
      have hin := h.inPos
      rw [RingState.inPos] at hin
      show _ = inStart fds + (s.streamIn + bytes.length)
      split at hin
      · rename_i hseek
        rw [if_pos hseek, if_pos hseek]
        omega
      · rename_i hseek
        rw [if_neg hseek]
        omega
    · show (countRead cfg s.stats bytes.length).rPartial +
        (countRead cfg s.stats bytes.length).rFull ≤ s.streamIn + bytes.length
      have := h.records
      simp only [countRead]
      split <;> omega
    · show (Function.update s.slots s.readSlot bytes s.readSlot).length < 2 ^ 32
      rw [hcur]
      omega
    · show Function.update s.slots s.readSlot bytes s.readSlot =
        ((source fds input).drop (s.stats.wBytes + s.pending)).take
          (Function.update s.slots s.readSlot bytes s.readSlot).length
      rw [hcur, ← hin, hlen]
      exact hsource
    · show s.streamIn + bytes.length =
        s.stats.wBytes + s.pending + (Function.update s.slots s.readSlot bytes s.readSlot).length
      rw [hcur, hin]
    · show s.streamIn + bytes.length ≤ limit
      have := hlim limit hcopy
      omega
    · rw [heof] at htrue
      cases htrue

theorem didReadEof_inv (h : Copying cfg fds input s) (hphase : s.phase = .harvest) {len : Nat}
    (hread : s.readInFlight = some len) (hend : input.length ≤ s.inPos fds) :
    Copying cfg fds input (s.didRead cfg fds []) := by
  cases h.reading with
  | unprimed hloop => rw [hphase] at hloop; cases hloop
  | fresh _ hnone => rw [hread] at hnone; cases hnone
  | planned _ hnone => rw [hread] at hnone; cases hnone
  | inFlight n hprimed hsome heof hlt hin hlim hsep =>
    have hcur : Function.update s.slots s.readSlot [] s.readSlot = [] := Function.update_self ..
    have hlen : (source fds input).length ≤ s.streamIn := by
      rw [h.inPos] at hend
      rw [source, List.length_drop]
      omega
    refine ⟨h.log, h.outPos, h.inPos, (update_slot hsep).trans h.slot, h.pending_le, h.within,
      h.streamIn_le, h.records, .fresh hprimed rfl ?_ ?_ ?_ (fun limit hcopy => ?_) hsep
      (fun _ => ⟨hcur, hlen⟩)⟩
    · show (Function.update s.slots s.readSlot [] s.readSlot).length < 2 ^ 32
      rw [hcur, List.length_nil]
      decide
    · show Function.update s.slots s.readSlot [] s.readSlot = List.take
        (Function.update s.slots s.readSlot [] s.readSlot).length _
      rw [hcur]
      rfl
    · show s.streamIn = s.stats.wBytes + s.pending +
        (Function.update s.slots s.readSlot [] s.readSlot).length
      rw [hcur]
      exact hin
    · show s.streamIn ≤ limit
      have := hlim limit hcopy
      omega

/-- A retried read leaves its slot empty. -/
theorem readRetries_inv (h : Copying cfg fds input s) (hphase : s.phase = .harvest) {len : Nat}
    (hread : s.readInFlight = some len) (hcur : s.current = []) :
    Copying cfg fds input { s with readInFlight := none } := by
  cases h.reading with
  | unprimed hloop => rw [hphase] at hloop; cases hloop
  | fresh _ hnone => rw [hread] at hnone; cases hnone
  | planned _ hnone => rw [hread] at hnone; cases hnone
  | inFlight n hprimed hsome heof hlt hin hlim hsep =>
    refine ⟨h.log, h.outPos, h.inPos, h.slot, h.pending_le, h.within, h.streamIn_le, h.records,
      .fresh hprimed rfl ?_ ?_ ?_ (fun limit hcopy => ?_) hsep (fun htrue => ?_)⟩
    · show s.current.length < 2 ^ 32
      rw [hcur, List.length_nil]
      decide
    · show s.current = List.take s.current.length _
      rw [hcur]
      rfl
    · show s.streamIn = s.stats.wBytes + s.pending + s.current.length
      rw [hcur]
      exact hin
    · show s.streamIn ≤ limit
      have := hlim limit hcopy
      omega
    · rw [show s.readEof = true from htrue] at heof
      cases heof

/-- A write of nothing may be dropped. -/
theorem writeRetries_inv (h : Copying cfg fds input s) (hphase : s.phase = .harvest)
    (hpend : s.pending = 0) : Copying cfg fds input { s with writeInFlight := none } := by
  have hle : s.stats.wBytes + 0 ≤ (source fds input).length := wBytes_le h
  refine ⟨h.log, h.outPos, h.inPos, rfl, hle, fun limit hcopy => ?_, h.streamIn_le, h.records, ?_⟩
  · show s.stats.wBytes ≤ limit
    have := h.within limit hcopy
    omega
  · cases h.reading with
    | unprimed hloop => rw [hphase] at hloop; cases hloop
    | inFlight n h1 h2 h3 h4 h5 h6 h7 =>
      rw [hpend] at h5
      exact .inFlight n h1 h2 h3 h4 h5 h6 nofun
    | fresh h1 h2 h3 h4 h5 h6 h7 h8 =>
      rw [hpend] at h4 h5
      exact .fresh h1 h2 h3 h4 h5 h6 nofun h8
    | planned h1 h2 h3 h4 h5 h6 =>
      rw [hpend] at h5 h6
      exact .planned h1 h2 h3 h4 h5 h6

end Steps

section Runs

theorem copying_of_harvest (h : RingInv cfg fds input s) (hphase : s.phase = .harvest) :
    Copying cfg fds input s := by
  rwa [RingInv, hphase] at h

theorem copying_of_loop (h : RingInv cfg fds input s) (hphase : s.phase = .loop) :
    Copying cfg fds input s := by
  rwa [RingInv, hphase] at h

theorem complete_of_done (h : RingInv cfg fds input s) (hphase : s.phase = .done .success) :
    Complete cfg fds input s := by
  rwa [RingInv, hphase] at h

theorem primed_of_harvest (h : Copying cfg fds input s) (hphase : s.phase = .harvest) :
    s.pipelinePrimed = true := by
  cases h.reading with
  | unprimed hloop => rw [hphase] at hloop; cases hloop
  | inFlight _ hprimed => exact hprimed
  | fresh hprimed => exact hprimed
  | planned hprimed => exact hprimed

theorem Copying.inv (h : Copying cfg fds input s) (hphase : s.phase = .harvest) :
    RingInv cfg fds input s := by
  rwa [RingInv, hphase]

/-- While it is flushed, a copy that has ended drops what is in flight. -/
theorem flush_inv (h : RingInv cfg fds input s) {status : ExitStatus}
    (hphase : s.phase = .flush status) :
    RingInv cfg fds input { s with writeInFlight := none } := by
  rw [RingInv, hphase] at h
  show RingInv cfg fds input { s with writeInFlight := none }
  rw [RingInv]
  simp only [hphase]
  cases status with
  | success => exact ⟨h.log, h.wBytes, rfl⟩
  | failure => trivial

theorem ends_inv (h : RingInv cfg fds input s) {status : ExitStatus}
    (hphase : s.phase = .flush status) :
    RingInv cfg fds input { s with phase := .done status } := by
  rw [RingInv, hphase] at h
  cases status with
  | success => exact show Complete cfg fds input _ from ⟨h.log, h.wBytes, h.pending⟩
  | failure => trivial

theorem waits_cases {phase : RingPhase} (h : phase.waits = true) :
    phase = .harvest ∨ ∃ status, phase = .flush status := by
  cases phase with
  | harvest => exact .inl rfl
  | flush status => exact .inr ⟨status, rfl⟩
  | loop => cases h
  | done status => cases h

theorem ring_step (hbs : 0 < cfg.blocksize)
    (hrec : cfg.bytesToCopy = none → cfg.maxRecords = intmaxMax)
    (hlen : input.length < intmaxMax) (h : RingInv cfg fds input s)
    (hfull : FullCompletion fds input s a) (hst : RingStep cfg fds input s a t) :
    RingInv cfg fds input t := by
  cases hst
  case enters hphase => exact top_inv hbs hrec hlen (copying_of_loop h hphase)
  case settles hphase hread hwrite =>
    exact settle_inv hbs (copying_of_harvest h hphase) hphase hread hwrite
  case writes res len hwaits hwrite hle =>
    have hres : s.writeInFlight = some res := hfull
    rcases waits_cases hwaits with hphase | ⟨status, hphase⟩
    · refine (wrote_inv (copying_of_harvest h hphase) hphase hres).inv ?_
      rw [RingState.wrote, if_neg (fun hcon => hcon.1 hphase)]
      exact hphase
    · cases status with
      | failure =>
        have hkept : (s.wrote cfg fds res).phase = .flush .failure := by
          rw [RingState.wrote]
          split <;> exact hphase
        rw [RingInv, hkept]
        trivial
      | success =>
        have hcomplete : Complete cfg fds input s := by rwa [RingInv, hphase] at h
        have hzero := hcomplete.pending
        rw [RingState.pending, hres, Option.getD_some] at hzero
        rw [RingState.wrote, if_pos ⟨by simp [hphase], hzero⟩]
        exact flush_inv h hphase
  case writeRetries len hwaits hwrite =>
    rcases waits_cases hwaits with hphase | ⟨status, hphase⟩
    · exact (writeRetries_inv (copying_of_harvest h hphase) hphase hfull).inv hphase
    · exact flush_inv h hphase
  case flushFails status len hphase hwrite => exact flush_inv h hphase
  case reads res len bytes hphase hread hpos hres hb hbl =>
    have hne : bytes ≠ [] := List.ne_nil_of_length_pos (by omega)
    refine (didRead_inv (copying_of_harvest h hphase) hphase hread hpos hres hb hbl).inv ?_
    simp only [RingState.didRead, if_neg hne]
    exact hphase
  case readsEof len hphase hread hend =>
    exact (didReadEof_inv (copying_of_harvest h hphase) hphase hread hfull).inv hphase
  case readRetries len hphase hread =>
    exact (readRetries_inv (copying_of_harvest h hphase) hphase hread hfull).inv hphase
  case interrupted hphase hany =>
    have hcopy := copying_of_harvest h hphase
    exact hcopy.goto (primed_of_harvest hcopy hphase) .loop
  case ends status hphase hwrite => exact ends_inv h hphase
  case givesUp status hphase hwrite => exact ends_inv h hphase
  all_goals exact trivial

theorem ringInv_start : RingInv cfg fds input (.start fds) := by
  have hin : (RingState.start (α := α) fds).inPos fds = inStart fds := by
    simp only [RingState.inPos, RingState.start, inStart]
    split <;> rfl
  have hout : (RingState.start (α := α) fds).outPos fds = outStart fds := by
    simp only [RingState.outPos, RingState.start, outStart]
    split <;> rfl
  have hlog : Consecutive (outStart fds) ([] : List (Placed Unit α)) ((source fds input).take 0) := by
    rw [List.take_zero]
    exact .nil
  exact show Copying cfg fds input _ from
    ⟨hlog, hout, hin, rfl, Nat.zero_le _, fun _ _ => Nat.zero_le _, Nat.zero_le _, Nat.le_refl _,
      .unprimed rfl rfl rfl rfl rfl rfl⟩

theorem ringInv_of_reachable (hbs : 0 < cfg.blocksize)
    (hrec : cfg.bytesToCopy = none → cfg.maxRecords = intmaxMax)
    (hlen : input.length < intmaxMax)
    (h : ((ringSystem cfg fds input).restrict fun s a => FullCompletion fds input s a).Reachable s) :
    RingInv cfg fds input s := by
  refine h.invariant ?_ ?_
  · rintro s rfl
    exact ringInv_start
  · rintro s a t hi ⟨hst, hfull⟩
    exact ring_step hbs hrec hlen hi hfull hst

/-- A copy that ends with success, and in which no write was short and no read of a slot with old
content was retried, has written the input in order. -/
theorem ring_copies (hbs : 0 < cfg.blocksize)
    (hrec : cfg.bytesToCopy = none → cfg.maxRecords = intmaxMax)
    (hlen : input.length < intmaxMax)
    (h : ((ringSystem cfg fds input).restrict fun s a => FullCompletion fds input s a).Reachable s)
    (hdone : s.phase = .done .success) :
    Consecutive (outStart fds) s.log ((source fds input).take (copyLength cfg fds input)) ∧
      s.stats.wBytes = copyLength cfg fds input := by
  have hcomplete := complete_of_done (ringInv_of_reachable hbs hrec hlen h) hdone
  exact ⟨hcomplete.log, hcomplete.wBytes⟩

end Runs

section Example

def oneBlock : Config := { blocksize := 2, engine := .uring }

def files : Descriptors := ⟨true, true, 0, 0⟩

/-- Two bytes: a read, then their write beside a read at the end. -/
theorem ring_copies_twoBytes : ∃ s : RingState Nat, (ringSystem oneBlock files [7, 8]).Reachable s ∧
    Consecutive 0 s.log [7, 8] ∧ s.stats.wBytes = 2 := by
  have start : ((ringSystem oneBlock files [7, 8]).restrict fun s a =>
      FullCompletion files [7, 8] s a).Reachable (.start files) := .init rfl
  have h1 := start.step ⟨.enters _ rfl, trivial⟩
  have h2 := h1.step ⟨.reads _ 2 2 [7, 8] rfl rfl (by decide) (by decide) rfl rfl, trivial⟩
  have h3 := h2.step ⟨.settles _ rfl rfl rfl, trivial⟩
  have h4 := h3.step ⟨.enters _ rfl, trivial⟩
  have h5 := h4.step ⟨.writes _ 2 2 rfl rfl (by decide), rfl⟩
  have h6 := h5.step ⟨.readsEof _ 2 rfl rfl (.inr (by decide)), Nat.le_refl 2⟩
  have h7 := h6.step ⟨.settles _ rfl rfl rfl, trivial⟩
  have h8 := h7.step ⟨.ends _ .success rfl rfl, trivial⟩
  obtain ⟨hlog, hbytes⟩ := ring_copies (by decide) (fun _ => rfl) (by decide) h8 rfl
  exact ⟨_, h8.of_restrict, hlog, hbytes⟩

/-- A write of one of two bytes is not taken up again. -/
theorem shortWrite_loses : ∃ s : RingState Nat, (ringSystem oneBlock files [7, 8]).Reachable s ∧
    s.phase = .done .success ∧ s.log.flatMap (·.bytes) = [7] ∧
    ¬ Consecutive (outStart files) s.log
      ((source files [7, 8]).take (copyLength oneBlock files [7, 8])) := by
  have start : (ringSystem oneBlock files [7, 8]).Reachable (.start files) := .init rfl
  have h1 := start.step (.enters _ rfl)
  have h2 := h1.step (.reads _ 2 2 [7, 8] rfl rfl (by decide) (by decide) rfl rfl)
  have h3 := h2.step (.settles _ rfl rfl rfl)
  have h4 := h3.step (.enters _ rfl)
  have h5 := h4.step (.writes _ 1 2 rfl rfl (by decide))
  have h6 := h5.step (.readsEof _ 2 rfl rfl (.inr (by decide)))
  have h7 := h6.step (.settles _ rfl rfl rfl)
  have h8 := h7.step (.ends _ .success rfl rfl)
  refine ⟨_, h8, rfl, rfl, fun hlog => ?_⟩
  have hbytes := hlog.flatMap_bytes
  cases hbytes

end Example

end Blkcp.C
