import Blkcp.Lib.Place
import Blkcp.Lib.Transition
import Blkcp.C.Config
set_option autoImplicit false

/-! The single-ring driver of `io_uring.c` under the central loop of `dd_copy`: one read ahead of
one write, over four buffer slots. -/

namespace Blkcp.C
open Blkcp.Lib

variable {α : Type}

abbrev uringNumBuffers : Nat := 4

abbrev SlotId := Fin uringNumBuffers

/-- What the driver found out about its two descriptors: the positions are those of `lseek`. -/
structure Descriptors where
  inSeekable : Bool
  outSeekable : Bool
  curIn : Nat
  curOut : Nat

inductive RingPhase where
  | loop
  | harvest
  | flush (status : ExitStatus)
  | done (status : ExitStatus)
  deriving DecidableEq

/-- Completions are taken in these phases. -/
def RingPhase.waits : RingPhase → Bool
  | .harvest | .flush _ => true
  | _ => false

/-- The length of a request, as the `unsigned` of the submission entry. -/
def requestLen (n : Nat) : Nat := n % 2 ^ 32

/-- `slots` holds of each buffer the `length` bytes that count. `streamIn` and `streamOut` are how
far the kernel has got in descriptors without a position; `hashed` is what the checksum was updated
with. -/
structure RingState (α : Type) where
  slots : SlotId → List α
  inFilePos : Nat
  outFilePos : Nat
  streamIn : Nat
  streamOut : Nat
  readSlot : SlotId
  writeSlot : SlotId
  readInFlight : Option Nat
  writeInFlight : Option Nat
  readEof : Bool
  pipelinePrimed : Bool
  stats : Stats
  log : List (Placed Unit α)
  hashed : List α
  phase : RingPhase

variable (cfg : Config) (fds : Descriptors) (input : List α)

/-- The state `uring_driver_init` leaves. -/
def RingState.start : RingState α where
  slots _ := []
  inFilePos := if fds.inSeekable then fds.curIn else 0
  outFilePos := if fds.outSeekable then fds.curOut else 0
  streamIn := 0
  streamOut := 0
  readSlot := 0
  writeSlot := 0
  readInFlight := none
  writeInFlight := none
  readEof := false
  pipelinePrimed := false
  stats := {}
  log := []
  hashed := []
  phase := .loop

/-- Zero when nothing is left to plan. -/
def getNextReadSize (defaultBs totalPlannedBytes : Nat) : Nat :=
  match cfg.bytesToCopy with
  | some limit => min (limit - totalPlannedBytes) defaultBs
  | none => defaultBs

/-- A record of `n` bytes is full or partial. -/
def isFullRecord (n : Nat) : Bool := cfg.blocksize > 0 ∧ n = cfg.blocksize

def countRead (stats : Stats) (n : Nat) : Stats :=
  { stats with
    rFull := stats.rFull + if isFullRecord cfg n then 1 else 0
    rPartial := stats.rPartial + if isFullRecord cfg n then 0 else 1 }

def countWrite (stats : Stats) (n : Nat) : Stats :=
  { stats with
    wBytes := stats.wBytes + n
    wFull := stats.wFull + if isFullRecord cfg n then 1 else 0
    wPartial := stats.wPartial + if isFullRecord cfg n then 0 else 1 }

namespace RingState

def inPos (s : RingState α) : Nat := if fds.inSeekable then s.inFilePos else s.streamIn

def outPos (s : RingState α) : Nat := if fds.outSeekable then s.outFilePos else s.streamOut

/-- The bytes of the slot being read, or read last. -/
def current (s : RingState α) : List α := s.slots s.readSlot

/-- The first step submits a read before it waits. -/
def begin (s : RingState α) : RingState α :=
  if s.pipelinePrimed then { s with phase := .harvest }
  else
    let firstRead := getNextReadSize cfg cfg.blocksize 0
    if firstRead = 0 then { s with phase := .flush .success }
    else
      { s with
        readInFlight := some (requestLen firstRead)
        readSlot := 0
        pipelinePrimed := true
        phase := .harvest }

def top (s : RingState α) : RingState α :=
  if limitReached cfg s.stats then { s with phase := .flush .success } else s.begin cfg

/-- A write of `res` bytes has completed; the flush counts only what wrote something. -/
def wrote (s : RingState α) (res : Nat) : RingState α :=
  let s := { s with writeInFlight := none }
  if s.phase ≠ .harvest ∧ res = 0 then s
  else
    { s with
      log := s.log ++ [⟨(), s.outPos fds, (s.slots s.writeSlot).take res⟩]
      outFilePos := if fds.outSeekable then s.outFilePos + res else s.outFilePos
      streamOut := s.streamOut + res
      stats := countWrite cfg s.stats res }

/-- A read has completed with these bytes; none at the end of the input. -/
def didRead (s : RingState α) (bytes : List α) : RingState α :=
  let s := { s with
    readInFlight := none
    slots := Function.update s.slots s.readSlot bytes }
  if bytes = [] then { s with readEof := true }
  else
    { s with
      inFilePos := if fds.inSeekable then s.inFilePos + bytes.length else s.inFilePos
      streamIn := s.streamIn + bytes.length
      stats := countRead cfg s.stats bytes.length }

/-- The length of the write of the slot just read. -/
def bytesToWrite (s : RingState α) : Nat :=
  match cfg.bytesToCopy with
  | some limit => min (limit - s.stats.wBytes) s.current.length
  | none => s.current.length

/-- With nothing in flight: stop, or submit the write of the slot just read and a read ahead. -/
def settle (s : RingState α) : RingState α :=
  if s.readEof ∧ s.current = [] then { s with phase := .flush .success }
  else if cfg.bytesToCopy.any fun limit => limit ≤ s.stats.wBytes then
    { s with phase := .flush .success }
  else
    let bytesToWrite := s.bytesToWrite cfg
    let curWriteSlot := s.readSlot
    let s := { s with
      writeInFlight := some (requestLen bytesToWrite)
      writeSlot := curWriteSlot
      hashed := s.hashed ++ s.current.take bytesToWrite
      phase := .loop }
    if s.readEof then s
    else
      let nextReadSize := getNextReadSize cfg cfg.blocksize (s.stats.wBytes + bytesToWrite)
      if nextReadSize = 0 then { s with readEof := true }
      else
        { s with readInFlight := some (requestLen nextReadSize), readSlot := curWriteSlot + 1 }

end RingState

inductive RingAct where
  | enters | submitFails
  | writes (res : Nat) | writeRetries | writeFails
  | reads (res : Nat) | readsEof | readRetries | readFails
  | interrupted | waitFails
  | settles | settleFails
  | ends
  deriving DecidableEq

/-- One step: of the central loop, or the handling of one completion. `writeRetries` and
`readRetries` are completions with `EINTR` or `EAGAIN`. The flush waits for the write only. -/
inductive RingStep : RingState α → RingAct → RingState α → Prop where
  | enters (s : RingState α) : s.phase = .loop → RingStep s .enters (s.top cfg)
  | submitFails (s : RingState α) : s.phase = .loop → limitReached cfg s.stats = false →
      s.pipelinePrimed = false →
      RingStep s .submitFails { s.begin cfg with phase := .flush .failure }
  | writes (s : RingState α) (res len : Nat) : s.phase.waits = true →
      s.writeInFlight = some len → res ≤ len → RingStep s (.writes res) (s.wrote cfg fds res)
  | writeRetries (s : RingState α) (len : Nat) : s.phase.waits = true →
      s.writeInFlight = some len → RingStep s .writeRetries { s with writeInFlight := none }
  | writeFails (s : RingState α) (len : Nat) : s.phase = .harvest → s.writeInFlight = some len →
      RingStep s .writeFails { s with writeInFlight := none, phase := .flush .failure }
  | flushFails (s : RingState α) (status : ExitStatus) (len : Nat) : s.phase = .flush status →
      s.writeInFlight = some len → RingStep s .writeFails { s with writeInFlight := none }
  | reads (s : RingState α) (res len : Nat) (bytes : List α) : s.phase = .harvest →
      s.readInFlight = some len → 0 < res → res ≤ len →
      bytes = (input.drop (s.inPos fds)).take res → bytes.length = res →
      RingStep s (.reads res) (s.didRead cfg fds bytes)
  | readsEof (s : RingState α) (len : Nat) : s.phase = .harvest → s.readInFlight = some len →
      len = 0 ∨ input.length ≤ s.inPos fds → RingStep s .readsEof (s.didRead cfg fds [])
  | readRetries (s : RingState α) (len : Nat) : s.phase = .harvest →
      s.readInFlight = some len → RingStep s .readRetries { s with readInFlight := none }
  | readFails (s : RingState α) (len : Nat) : s.phase = .harvest → s.readInFlight = some len →
      RingStep s .readFails { s with readInFlight := none, phase := .flush .failure }
  | interrupted (s : RingState α) : s.phase = .harvest →
      s.readInFlight.isSome ∨ s.writeInFlight.isSome →
      RingStep s .interrupted { s with phase := .loop }
  | waitFails (s : RingState α) : s.phase = .harvest →
      s.readInFlight.isSome ∨ s.writeInFlight.isSome →
      RingStep s .waitFails { s with phase := .flush .failure }
  | settles (s : RingState α) : s.phase = .harvest → s.readInFlight = none →
      s.writeInFlight = none → RingStep s .settles (s.settle cfg)
  | settleFails (s : RingState α) : s.phase = .harvest → s.readInFlight = none →
      s.writeInFlight = none → RingStep s .settleFails { s.settle cfg with phase := .flush .failure }
  | ends (s : RingState α) (status : ExitStatus) : s.phase = .flush status →
      s.writeInFlight = none → RingStep s .ends { s with phase := .done status }
  | givesUp (s : RingState α) (status : ExitStatus) : s.phase = .flush status →
      s.writeInFlight.isSome → RingStep s .ends { s with phase := .done status }

/-- All sequences of completions. -/
def ringSystem : System (RingState α) RingAct where
  init s := s = .start fds
  step := RingStep cfg fds input

end Blkcp.C
