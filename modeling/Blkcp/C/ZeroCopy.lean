import Blkcp.C.SyncFlow
set_option autoImplicit false

/-! The drivers whose bytes do not pass through user space (`io_reflink.c`, `io_splice.c`), under the
central loop of `dd_copy`. -/

namespace Blkcp.C
open Blkcp.Lib

inductive FileKind where
  | regular | fifo | block | other
  deriving DecidableEq

/-- What `fstat` says of the standard input and output, where it can be called. -/
structure Streams where
  input : Option FileKind
  output : Option FileKind

/-- The tests that the two `init` functions share. `iread_fnc` is never set. -/
def zeroCopyVeto (cfg : Config) : Bool :=
  cfg.conversions.swab || cfg.conversions.sync || cfg.conversions.sha256 ||
    cfg.conversions.sparse || cfg.iNocache || cfg.oNocache ||
    cfg.inputFlags.direct || cfg.inputFlags.nocache ||
    cfg.outputFlags.direct || cfg.outputFlags.nocache

/-- What may be moved in all. -/
def totalByteLimit (cfg : Config) : Option Nat :=
  match cfg.bytesToCopy with
  | some limit => some limit
  | none =>
    if cfg.maxRecords ≠ intmaxMax ∨ cfg.maxBytes ≠ 0 then
      if cfg.maxRecords * cfg.blocksize ≤ intmaxMax ∧
          cfg.maxRecords * cfg.blocksize + cfg.maxBytes ≤ intmaxMax then
        some (cfg.maxRecords * cfg.blocksize + cfg.maxBytes)
      else some intmaxMax
    else none

/-- `moved` is what has reached the output, where it goes on behind what was moved before. -/
structure MoveState where
  unread : List Byte
  moved : List Byte
  stats : Stats
  calls : Nat

/-- How a step of one of these drivers ends. -/
inductive MoveEnd where
  | again | eof | failure | fallback
  deriving DecidableEq

/-- Whether this driver can run. -/
def reflinkDriverInit (cfg : Config) (streams : Streams) : Bool :=
  !zeroCopyVeto cfg && streams.input == some .regular && streams.output == some .regular &&
    !(!cfg.conversions.reflink && cfg.conversions.autotune)

def reflinkChunkSize (cfg : Config) : Nat := min (max cfg.blocksize (16 * mib)) (64 * mib)

/-- Whether the bytes go through a pipe of the driver, made by `pipe2` where no side is one. -/
def spliceDriverInit (cfg : Config) (streams : Streams) (pipeOk : Bool) : Option Bool :=
  if zeroCopyVeto cfg then none
  else
    match streams.input, streams.output with
    | some input, some output =>
      if input ≠ .fifo ∧ output ≠ .fifo then (if pipeOk then some true else none) else some false
    | _, _ => none

def spliceChunkSize (cfg : Config) : Nat :=
  min (max (if cfg.blocksize > 0 then cfg.blocksize else mib) 65536) 16777216

/-- What the next call asks for, unless the limit is reached. -/
def moveRequest (cfg : Config) (chunk : Nat) (stats : Stats) : Option Nat :=
  match totalByteLimit cfg with
  | some limit =>
    if limit ≤ stats.wBytes then none else some (min (limit - stats.wBytes) chunk)
  | none => some chunk

section Steps

variable (cfg : Config)

/-- The counters of `reflink_driver_step`: whole blocks, and one more for a rest. -/
def countMoved (stats : Stats) (n : Nat) : Stats where
  rFull := stats.rFull + n / cfg.blocksize
  rPartial := stats.rPartial + if n % cfg.blocksize ≠ 0 then 1 else 0
  wFull := stats.wFull + n / cfg.blocksize
  wPartial := stats.wPartial + if n % cfg.blocksize ≠ 0 then 1 else 0
  wBytes := stats.wBytes + n

/-- The counters of a single `splice`: one read, and one write that is full or partial. -/
def countSpliced (stats : Stats) (n : Nat) : Stats where
  rFull := stats.rFull + 1
  rPartial := stats.rPartial
  wFull := stats.wFull + if cfg.blocksize > 0 ∧ n = cfg.blocksize then 1 else 0
  wPartial := stats.wPartial + if cfg.blocksize > 0 ∧ n = cfg.blocksize then 0 else 1
  wBytes := stats.wBytes + n

/-- The counters of a `splice` in and out of the pipe. -/
def countPiped (stats : Stats) (n : Nat) : Stats :=
  { stats with rFull := stats.rFull + 1, wFull := stats.wFull + 1, wBytes := stats.wBytes + n }

/-- The bytes of a call that moves some: at least one before the end of the input. -/
def moveBytes (unread : List Byte) (request n : Nat) : List Byte :=
  unread.take (min request (max n 1))

/-- What the `i`-th call gives is `results i`: how much it would move, or why it fails. -/
def reflinkDriverStep (results : Nat → Except Errno Nat) (s : MoveState) : MoveEnd × MoveState :=
  match moveRequest cfg (reflinkChunkSize cfg) s.stats with
  | none => (.eof, s)
  | some request =>
    match results s.calls with
    | .error e =>
      let s := { s with calls := s.calls + 1 }
      if e = .eintr then (.again, s)
      else if s.stats.wBytes = 0 ∧ (e = .exdev ∨ e = .enosys ∨ e = .eopnotsupp ∨ e = .einval) then
        if cfg.conversions.reflink then (.failure, s) else (.fallback, s)
      else (.failure, s)
    | .ok n =>
      let bytes := moveBytes s.unread request n
      let s := { s with calls := s.calls + 1 }
      if bytes = [] then (.eof, s)
      else
        (.again, { s with
          unread := s.unread.drop bytes.length
          moved := s.moved ++ bytes
          stats := countMoved cfg s.stats bytes.length })

/-- One round of the loop that empties the pipe; `false` when it fails. -/
def spliceDrainBody (results : Nat → Except Errno Nat) (s : MoveState × List Byte) :
    (MoveState × List Byte) ⊕ Run (Bool × MoveState) :=
  let (s, pipe) := s
  if pipe = [] then .inr (.ok (true, s))
  else
    match results s.calls with
    | .error e =>
      let s := { s with calls := s.calls + 1 }
      if e = .eintr then .inl (s, pipe) else .inr (.ok (false, s))
    | .ok n =>
      let bytes := pipe.take n
      let s := { s with calls := s.calls + 1, moved := s.moved ++ bytes }
      if bytes = [] then .inr (.ok (false, s)) else .inl (s, pipe.drop bytes.length)

/-- Codes that mean that the kernel cannot splice these files. -/
def spliceUnsupported (e : Errno) : Bool := e = .einval ∨ e = .enosys ∨ e = .espipe

/-- `piped` is whether the bytes go through a pipe of the driver. -/
def spliceDriverStep (env : Env) (piped : Bool) (results : Nat → Except Errno Nat)
    (s : MoveState) : Run (MoveEnd × MoveState) :=
  match moveRequest cfg (spliceChunkSize cfg) s.stats with
  | none => .ok (.eof, s)
  | some request =>
    match results s.calls with
    | .error e =>
      let s := { s with calls := s.calls + 1 }
      if e = .eintr then .ok (.again, s)
      else if s.stats.wBytes = 0 ∧ spliceUnsupported e then .ok (.fallback, s)
      else .ok (.failure, s)
    | .ok n =>
      let bytes := moveBytes s.unread request n
      let s := { s with calls := s.calls + 1 }
      if bytes = [] then .ok (.eof, s)
      else
        let s := { s with unread := s.unread.drop bytes.length }
        if piped then do
          let (drained, s) ← loop env (spliceDrainBody results) (s, bytes)
          return if drained then
            (.again, { s with stats := countPiped s.stats bytes.length })
          else (.failure, s)
        else
          .ok (.again, { s with
            moved := s.moved ++ bytes
            stats := countSpliced cfg s.stats bytes.length })

/-- The central loop of `dd_copy` with such a driver; on `fallback` the synchronous one takes over. -/
def moveLoopBody (step : MoveState → Run (MoveEnd × MoveState)) (s : MoveState) :
    MoveState ⊕ Run (MoveEnd × MoveState) :=
  if limitReached cfg s.stats then .inr (.ok (.eof, s))
  else
    match step s with
    | .ok (.again, s) => .inl s
    | r => .inr r

end Steps

def MoveState.start (input : List Byte) : MoveState := ⟨input, [], {}, 0⟩

/-- A transfer with `eof` is one with success. -/
def reflinkTransfer (env : Env) (cfg : Config) (results : Nat → Except Errno Nat)
    (input : List Byte) : Run (MoveEnd × MoveState) :=
  loop env (moveLoopBody cfg fun s => .ok (reflinkDriverStep cfg results s)) (.start input)

def spliceTransfer (env : Env) (cfg : Config) (piped : Bool) (results : Nat → Except Errno Nat)
    (input : List Byte) : Run (MoveEnd × MoveState) :=
  loop env (moveLoopBody cfg (spliceDriverStep cfg env piped results)) (.start input)

section Moved

variable {cfg : Config} {env : Env} {results : Nat → Except Errno Nat} {s t : MoveState}
  {e : MoveEnd} {input : List Byte} {limit : Nat}

/-- All that a step does. -/
inductive MoveStepped (cfg : Config) (s : MoveState) : MoveEnd → MoveState → Prop where
  | full {limit : Nat} : totalByteLimit cfg = some limit → limit ≤ s.stats.wBytes →
      MoveStepped cfg s .eof s
  | atEnd : s.unread = [] → MoveStepped cfg s .eof { s with calls := s.calls + 1 }
  | moves {t : MoveState} {bytes : List Byte} : bytes ≠ [] → s.unread = bytes ++ t.unread →
      t.moved = s.moved ++ bytes → t.stats.wBytes = s.stats.wBytes + bytes.length →
      (∀ limit, totalByteLimit cfg = some limit → t.stats.wBytes ≤ limit) →
      MoveStepped cfg s .again t
  | retries : MoveStepped cfg s .again { s with calls := s.calls + 1 }
  | fails {t : MoveState} : MoveStepped cfg s .failure t
  | declines : s.stats.wBytes = 0 → MoveStepped cfg s .fallback { s with calls := s.calls + 1 }

theorem moveRequest_none {chunk : Nat} (h : moveRequest cfg chunk s.stats = none) :
    MoveStepped cfg s .eof s := by
  simp only [moveRequest] at h
  split at h
  · rename_i limit hlimit
    split at h
    · exact .full hlimit ‹_›
    · cases h
  · cases h

theorem moveRequest_some {chunk request : Nat} (hchunk : 0 < chunk)
    (h : moveRequest cfg chunk s.stats = some request) :
    0 < request ∧ ∀ limit, totalByteLimit cfg = some limit → s.stats.wBytes + request ≤ limit := by
  simp only [moveRequest] at h
  split at h
  · rename_i limit hlimit
    split at h
    · cases h
    · obtain rfl := Option.some.inj h
      refine ⟨by omega, fun limit' hlimit' => ?_⟩
      obtain rfl := Option.some.inj (hlimit.symm.trans hlimit')
      omega
  · rename_i hlimit
    obtain rfl := Option.some.inj h
    refine ⟨hchunk, fun limit hlimit' => ?_⟩
    cases hlimit.symm.trans hlimit'

/-- A call moves the first of the unread bytes; none only at their end. -/
theorem moveBytes_spec (unread : List Byte) {request : Nat} (h : 0 < request) (n : Nat) :
    unread = moveBytes unread request n ++ unread.drop (moveBytes unread request n).length ∧
      (moveBytes unread request n).length ≤ request ∧
      (moveBytes unread request n = [] → unread = []) := by
  rw [moveBytes]
  refine ⟨?_, ?_, fun hnil => ?_⟩
  · conv_lhs => rw [← List.take_append_drop (min request (max n 1)) unread]
    rw [List.append_right_inj, List.length_take]
    rcases Nat.le_total (min request (max n 1)) unread.length with hle | hle
    · rw [Nat.min_eq_left hle]
    · rw [Nat.min_eq_right hle, List.drop_length, List.drop_of_length_le hle]
  · rw [List.length_take]
    omega
  · rcases List.take_eq_nil_iff.mp hnil with hzero | hend
    · omega
    · exact hend

theorem reflinkChunkSize_pos (cfg : Config) : 0 < reflinkChunkSize cfg := by
  rw [reflinkChunkSize, mib]
  omega

theorem spliceChunkSize_pos (cfg : Config) : 0 < spliceChunkSize cfg := by
  rw [spliceChunkSize]
  omega

theorem reflinkDriverStep_stepped (h : reflinkDriverStep cfg results s = (e, t)) :
    MoveStepped cfg s e t := by
  simp only [reflinkDriverStep] at h
  split at h
  · rename_i hnone
    obtain ⟨rfl, rfl⟩ := Prod.mk.inj h
    exact moveRequest_none hnone
  rename_i request hrequest
  obtain ⟨hpos, hroom⟩ := moveRequest_some (reflinkChunkSize_pos cfg) hrequest
  split at h
  · split at h
    · obtain ⟨rfl, rfl⟩ := Prod.mk.inj h
      exact .retries
    split at h
    · rename_i hfirst
      split at h
      · obtain ⟨rfl, rfl⟩ := Prod.mk.inj h
        exact .fails
      · obtain ⟨rfl, rfl⟩ := Prod.mk.inj h
        exact .declines hfirst.1
    · obtain ⟨rfl, rfl⟩ := Prod.mk.inj h
      exact .fails
  · rename_i n _
    obtain ⟨hsplit, hle, hend⟩ := moveBytes_spec s.unread hpos n
    split at h
    · rename_i hnil
      obtain ⟨rfl, rfl⟩ := Prod.mk.inj h
      exact .atEnd (hend hnil)
    · rename_i hne
      obtain ⟨rfl, rfl⟩ := Prod.mk.inj h
      exact .moves hne hsplit rfl rfl fun limit hlimit =>
        Nat.le_trans (Nat.add_le_add_left hle _) (hroom limit hlimit)

/-- What is drained of the pipe has reached the output. -/
theorem spliceDrain_moved {pipe : List Byte}
    (h : loop env (spliceDrainBody results) (s, pipe) = .ok (true, t)) :
    t.moved = s.moved ++ pipe ∧ t.unread = s.unread ∧ t.stats = s.stats := by
  obtain ⟨⟨u, left⟩, ⟨hmoved, hunread, hstats⟩, hleave⟩ := loop_ok
    (P := fun u : MoveState × List Byte =>
      u.1.moved ++ u.2 = s.moved ++ pipe ∧ u.1.unread = s.unread ∧ u.1.stats = s.stats)
    (fun u v hu hst => by
      obtain ⟨u, left⟩ := u
      simp only [spliceDrainBody] at hst
      split at hst
      · cases hst
      split at hst
      · split at hst
        · obtain rfl := Sum.inl.inj hst
          exact hu
        · cases hst
      · rename_i n _
        split at hst
        · cases hst
        · obtain rfl := Sum.inl.inj hst
          refine ⟨?_, hu.2⟩
          rw [← hu.1]
          simp only [List.append_assoc, List.append_right_inj, List.length_take]
          rcases Nat.le_total n left.length with hle | hle
          · rw [Nat.min_eq_left hle, List.take_append_drop]
          · rw [Nat.min_eq_right hle, List.drop_length, List.take_of_length_le hle,
              List.append_nil])
    h ⟨rfl, rfl, rfl⟩
  simp only [spliceDrainBody] at hleave
  split at hleave
  · rename_i hnil
    obtain ⟨-, rfl⟩ := Prod.mk.inj (Except.ok.inj (Sum.inr.inj hleave))
    rw [hnil, List.append_nil] at hmoved
    exact ⟨hmoved, hunread, hstats⟩
  split at hleave
  · split at hleave
    · cases hleave
    · simp at hleave
  · split at hleave
    · simp at hleave
    · cases hleave

theorem spliceDriverStep_stepped {piped : Bool}
    (h : spliceDriverStep cfg env piped results s = .ok (e, t)) : MoveStepped cfg s e t := by
  simp only [spliceDriverStep] at h
  split at h
  · rename_i hnone
    obtain ⟨rfl, rfl⟩ := Prod.mk.inj (Except.ok.inj h)
    exact moveRequest_none hnone
  rename_i request hrequest
  obtain ⟨hpos, hroom⟩ := moveRequest_some (spliceChunkSize_pos cfg) hrequest
  split at h
  · split at h
    · obtain ⟨rfl, rfl⟩ := Prod.mk.inj (Except.ok.inj h)
      exact .retries
    split at h
    · rename_i hfirst
      obtain ⟨rfl, rfl⟩ := Prod.mk.inj (Except.ok.inj h)
      exact .declines hfirst.1
    · obtain ⟨rfl, rfl⟩ := Prod.mk.inj (Except.ok.inj h)
      exact .fails
  · rename_i n _
    obtain ⟨hsplit, hle, hend⟩ := moveBytes_spec s.unread hpos n
    have hlimit : ∀ limit, totalByteLimit cfg = some limit →
        s.stats.wBytes + (moveBytes s.unread request n).length ≤ limit := fun limit hlimit =>
      Nat.le_trans (Nat.add_le_add_left hle _) (hroom limit hlimit)
    split at h
    · rename_i hnil
      obtain ⟨rfl, rfl⟩ := Prod.mk.inj (Except.ok.inj h)
      exact .atEnd (hend hnil)
    rename_i hne
    split at h
    · simp only [bind_ok, pure_ok] at h
      obtain ⟨⟨drained, u⟩, hdrain, h⟩ := h
      cases drained with
      | false =>
        obtain ⟨rfl, rfl⟩ := Prod.mk.inj h
        exact .fails
      | true =>
        obtain ⟨hmoved, hunread, hstats⟩ := spliceDrain_moved hdrain
        obtain ⟨rfl, rfl⟩ := Prod.mk.inj h
        simp only at hmoved hunread hstats
        refine .moves hne ?_ hmoved ?_ ?_
        · rw [hunread]
          exact hsplit
        · simp only [countPiped, hstats]
        · simpa only [countPiped, hstats] using hlimit
    · obtain ⟨rfl, rfl⟩ := Prod.mk.inj (Except.ok.inj h)
      exact .moves hne hsplit rfl rfl hlimit

/-- The output has the first bytes of the input, within the limit. -/
structure MovedOf (cfg : Config) (input : List Byte) (s : MoveState) : Prop where
  input_eq : input = s.moved ++ s.unread
  wBytes_eq : s.stats.wBytes = s.moved.length
  wBytes_le : ∀ limit, totalByteLimit cfg = some limit → s.stats.wBytes ≤ limit
  stats_of_nil : s.moved = [] → s.stats = {}

theorem MovedOf.start (cfg : Config) (input : List Byte) : MovedOf cfg input (.start input) :=
  ⟨rfl, rfl, fun _ _ => Nat.zero_le _, fun _ => rfl⟩

theorem MovedOf.step (h : MovedOf cfg input s) (hs : MoveStepped cfg s .again t) :
    MovedOf cfg input t := by
  cases hs with
  | retries => exact ⟨h.input_eq, h.wBytes_eq, h.wBytes_le, h.stats_of_nil⟩
  | moves hne hunread hmoved hbytes hle =>
    refine ⟨?_, ?_, hle, fun hnil => ?_⟩
    · rw [h.input_eq, hunread, hmoved, List.append_assoc]
    · rw [hbytes, hmoved, h.wBytes_eq, List.length_append]
    · rw [hmoved] at hnil
      exact absurd (List.append_eq_nil_iff.mp hnil).2 hne

/-- With a byte limit that is reached, or nothing left to read, the first bytes up to the limit have
been moved. -/
theorem MovedOf.all (h : MovedOf cfg input s) (hlimit : cfg.bytesToCopy = some limit)
    (hdone : limit ≤ s.stats.wBytes ∨ s.unread = []) : s.moved = input.take limit := by
  have htotal : totalByteLimit cfg = some limit := by rw [totalByteLimit, hlimit]
  have hle := h.wBytes_le limit htotal
  rw [h.wBytes_eq] at hle hdone
  rcases hdone with hfull | hend
  · rw [h.input_eq, List.take_append_of_le_length hfull, List.take_of_length_le hle]
  · rw [h.input_eq, hend, List.append_nil, List.take_of_length_le hle]

/-- Where the loop stops with success: at a limit or at the end of the input. -/
structure MoveStops (cfg : Config) (input : List Byte) (s : MoveState) : Prop where
  moved : MovedOf cfg input s
  why : limitReached cfg s.stats = true ∨
    (∃ limit, totalByteLimit cfg = some limit ∧ limit ≤ s.stats.wBytes) ∨ s.unread = []

/-- A transfer of either driver that ends with success. -/
theorem moveLoop_stops {step : MoveState → Run (MoveEnd × MoveState)}
    (hstep : ∀ s e t, step s = .ok (e, t) → MoveStepped cfg s e t)
    (h : loop env (moveLoopBody cfg step) (.start input) = .ok (.eof, t)) :
    MoveStops cfg input t := by
  obtain ⟨u, hu, hleave⟩ := loop_ok (P := MovedOf cfg input)
    (fun u v hu hst => by
      simp only [moveLoopBody] at hst
      split at hst
      · cases hst
      split at hst
      · rename_i hagain
        obtain rfl := Sum.inl.inj hst
        exact hu.step (hstep _ _ _ hagain)
      · cases hst) h (.start cfg input)
  simp only [moveLoopBody] at hleave
  split at hleave
  · rename_i hreached
    obtain ⟨-, rfl⟩ := Prod.mk.inj (Except.ok.inj (Sum.inr.inj hleave))
    exact ⟨hu, .inl hreached⟩
  split at hleave
  · cases hleave
  · have hend := hstep _ _ _ (Sum.inr.inj hleave)
    cases hend with
    | full htotal hfull => exact ⟨hu, .inr (.inl ⟨_, htotal, hfull⟩)⟩
    | atEnd hnil =>
      exact ⟨⟨hu.input_eq, hu.wBytes_eq, hu.wBytes_le, hu.stats_of_nil⟩, .inr (.inr hnil)⟩

theorem reflinkTransfer_stops (h : reflinkTransfer env cfg results input = .ok (.eof, t)) :
    MoveStops cfg input t :=
  moveLoop_stops (fun _ _ _ h => reflinkDriverStep_stepped (Except.ok.inj h)) h

theorem spliceTransfer_stops {piped : Bool}
    (h : spliceTransfer env cfg piped results input = .ok (.eof, t)) : MoveStops cfg input t :=
  moveLoop_stops (fun _ _ _ h => spliceDriverStep_stepped h) h

/-- Under a byte limit the first bytes up to it are moved. -/
theorem MoveStops.moved_eq (h : MoveStops cfg input s) (hlimit : cfg.bytesToCopy = some limit) :
    s.moved = input.take limit := by
  refine h.moved.all hlimit ?_
  rcases h.why with hreached | ⟨limit', htotal, hfull⟩ | hend
  · rw [limitReached, hlimit] at hreached
    exact .inl (of_decide_eq_true hreached)
  · rw [totalByteLimit, hlimit] at htotal
    obtain rfl := Option.some.inj htotal
    exact .inl hfull
  · exact .inr hend

/-- Nothing is moved only where there is nothing to move. -/
theorem MoveStops.moved_nil_iff (h : MoveStops cfg input s) (hpos : 0 < cfg.blocksize)
    (hgo : ¬(cfg.maxRecords = 0 ∧ cfg.maxBytes = 0)) :
    s.moved = [] ↔ input = [] ∨ cfg.bytesToCopy = some 0 := by
  constructor
  · intro hnil
    have hstats := h.moved.stats_of_nil hnil
    rcases h.why with hreached | ⟨limit, htotal, hfull⟩ | hend
    · rw [limitReached, hstats] at hreached
      cases hlimit : cfg.bytesToCopy with
      | some limit =>
        rw [hlimit] at hreached
        exact .inr (by rw [Nat.le_zero.mp (of_decide_eq_true hreached)])
      | none =>
        rw [hlimit] at hreached
        have hzero : cfg.maxRecords + (if cfg.maxBytes ≠ 0 then 1 else 0) ≤ 0 :=
          of_decide_eq_true hreached
        split at hzero <;> omega
    · rw [hstats] at hfull
      obtain rfl := Nat.le_zero.mp hfull
      rw [totalByteLimit] at htotal
      split at htotal
      · rename_i limit hlimit
        exact .inr (hlimit.trans htotal)
      · split at htotal
        · split at htotal
          · have hsum := Option.some.inj htotal
            have hmul : cfg.maxRecords = 0 ∨ cfg.blocksize = 0 :=
              Nat.mul_eq_zero.mp (by omega)
            omega
          · cases htotal
        · cases htotal
    · have hinput := h.moved.input_eq
      rw [hnil, hend, List.append_nil] at hinput
      exact .inl hinput
  · rintro (rfl | hzero)
    · exact (List.append_eq_nil_iff.mp h.moved.input_eq.symm).1
    · rw [h.moved_eq hzero, List.take_zero]

end Moved

end Blkcp.C
