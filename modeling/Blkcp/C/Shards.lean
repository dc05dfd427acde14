import Blkcp.Lib.Stripes
import Blkcp.Lib.Transition
import Blkcp.C.Ring
set_option autoImplicit false

/-! The sharded driver of `io_uring.c`: worker threads that claim chunks, and the step function that
watches their counters. -/

namespace Blkcp.C
open Blkcp.Lib

variable {n : Nat} {α : Type}

def numWorkers (cfg : Config) : Nat := max 1 (min cfg.threads 256)

def shardBlockSize (cfg : Config) : Nat := if cfg.blocksize > 0 then cfg.blocksize else 1048576

def uringDefaultChunkSize : Nat := 64 * 1024 * 1024

/-- Smaller chunks for smaller inputs, in whole blocks. -/
def shardChunkSize (cfg : Config) (totalBytes : Nat) : Nat :=
  let bs := shardBlockSize cfg
  let chunkSize := uringDefaultChunkSize
  let chunkSize :=
    if totalBytes < chunkSize * numWorkers cfg * 2 then
      max (totalBytes / (numWorkers cfg * 2)) bs
    else chunkSize
  let chunkSize := chunkSize / bs * bs
  if chunkSize = 0 then bs else chunkSize

inductive WorkerPhase (α : Type) where
  | check
  | claiming
  | chunk (offset done : Nat)
  | reading (offset done : Nat)
  | writing (offset done : Nat) (bytes : List α) (written : Nat)
  | countingBytes (offset done : Nat) (bytes : List α) (written res : Nat)
  | countingRecord (offset done : Nat) (bytes : List α) (written res : Nat)
  | storingError (code : Nat)
  | stopping
  | done

/-- The error paths that a worker can take from here. -/
def WorkerPhase.inChunk : WorkerPhase α → Bool
  | .chunk _ _ | .reading _ _ | .writing _ _ _ _ => true
  | _ => false

/-- Where `uring_sharded_step` is: before which of its loads, or what it has returned. -/
inductive StepPhase where
  | loadBytes
  | loadFull
  | loadPartial
  | loadAbort
  | loadError
  | loadActive
  | returned (status : ExitStatus) (eof : Bool)
  deriving DecidableEq

structure ShardState (n : Nat) (α : Type) where
  phase : Fin n → WorkerPhase α
  nextChunkOffset : Nat
  bytesWritten : Nat
  recordsFull : Nat
  recordsPartial : Nat
  activeWorkers : Nat
  abortRequested : Bool
  errorCode : Nat
  log : List (Placed (Fin n) α)
  step : StepPhase
  stats : Stats

inductive ShardAct (n : Nat) where
  | stops (w : Fin n) | passes (w : Fin n)
  | exhausts (w : Fin n) | claims (w : Fin n)
  | finishes (w : Fin n) | submits (w : Fin n) | abandons (w : Fin n) | fails (w : Fin n)
  | storesError (w : Fin n)
  | reads (w : Fin n) (m : Nat) | readsEof (w : Fin n)
  | writes (w : Fin n) (m : Nat) | writesNothing (w : Fin n)
  | addsBytes (w : Fin n) | addsRecord (w : Fin n) | delivers (w : Fin n)
  | ends (w : Fin n)
  | begins | loadsBytes | loadsFull | loadsPartial | loadsAbort | loadsError | loadsActive
  deriving DecidableEq

/-- Whose step it is, if a worker's. -/
def ShardAct.worker : ShardAct n → Option (Fin n)
  | .stops w | .passes w | .exhausts w | .claims w | .finishes w | .submits w | .abandons w
  | .fails w | .storesError w | .reads w _ | .readsEof w | .writes w _ | .writesNothing w
  | .addsBytes w | .addsRecord w | .delivers w | .ends w => some w
  | _ => none

variable (cfg : Config) (inStartPos outStartPos totalBytes : Nat) (input : List α)

def chunkLen (offset : Nat) : Nat := min (shardChunkSize cfg totalBytes) (totalBytes - offset)

/-- The length a read is meant to have. -/
def curLen (offset done : Nat) : Nat :=
  min (shardBlockSize cfg) (chunkLen cfg totalBytes offset - done)

/-- What `init_sharded_uring` sets up, with the workers before their first step. -/
def ShardState.start (n : Nat) : ShardState n α where
  phase _ := .check
  nextChunkOffset := 0
  bytesWritten := 0
  recordsFull := 0
  recordsPartial := 0
  activeWorkers := n
  abortRequested := false
  errorCode := 0
  log := []
  step := .loadBytes
  stats := {}

namespace ShardState

def goto (s : ShardState n α) (w : Fin n) (phase : WorkerPhase α) : ShardState n α :=
  { s with phase := Function.update s.phase w phase }

end ShardState

/-- One atomic step of a worker or of the step function. A worker's load of `abort_requested` may
give an old `false`. Leaving a chunk early, a worker goes on to the next one. -/
inductive ShardStep : ShardState n α → ShardAct n → ShardState n α → Prop where
  | stops (s : ShardState n α) (w : Fin n) : s.phase w = .check → s.abortRequested = true →
      ShardStep s (.stops w) (s.goto w .stopping)
  | passes (s : ShardState n α) (w : Fin n) : s.phase w = .check →
      ShardStep s (.passes w) (s.goto w .claiming)
  | exhausts (s : ShardState n α) (w : Fin n) : s.phase w = .claiming →
      totalBytes ≤ s.nextChunkOffset →
      ShardStep s (.exhausts w)
        { s.goto w .stopping with
          nextChunkOffset := s.nextChunkOffset + shardChunkSize cfg totalBytes }
  | claims (s : ShardState n α) (w : Fin n) : s.phase w = .claiming →
      s.nextChunkOffset < totalBytes →
      ShardStep s (.claims w)
        { s.goto w (.chunk s.nextChunkOffset 0) with
          nextChunkOffset := s.nextChunkOffset + shardChunkSize cfg totalBytes }
  | finishes (s : ShardState n α) (w : Fin n) (offset done : Nat) :
      s.phase w = .chunk offset done → chunkLen cfg totalBytes offset ≤ done →
      ShardStep s (.finishes w) (s.goto w .check)
  | submits (s : ShardState n α) (w : Fin n) (offset done : Nat) :
      s.phase w = .chunk offset done → done < chunkLen cfg totalBytes offset →
      ShardStep s (.submits w) (s.goto w (.reading offset done))
  | abandons (s : ShardState n α) (w : Fin n) : (s.phase w).inChunk = true →
      s.abortRequested = true → ShardStep s (.abandons w) (s.goto w .check)
  | fails (s : ShardState n α) (w : Fin n) (code : Nat) : (s.phase w).inChunk = true →
      ShardStep s (.fails w) { s.goto w (.storingError code) with abortRequested := true }
  | storesError (s : ShardState n α) (w : Fin n) (code : Nat) : s.phase w = .storingError code →
      ShardStep s (.storesError w) { s.goto w .check with errorCode := code }
  | reads (s : ShardState n α) (w : Fin n) (m offset done : Nat) (bytes : List α) :
      s.phase w = .reading offset done → 0 < m →
      m ≤ requestLen (curLen cfg totalBytes offset done) →
      bytes = (input.drop (inStartPos + (offset + done))).take m → bytes.length = m →
      ShardStep s (.reads w m) (s.goto w (.writing offset done bytes 0))
  | readsEof (s : ShardState n α) (w : Fin n) (offset done : Nat) :
      s.phase w = .reading offset done →
      requestLen (curLen cfg totalBytes offset done) = 0 ∨
        input.length ≤ inStartPos + (offset + done) →
      ShardStep s (.readsEof w) (s.goto w .check)
  | writes (s : ShardState n α) (w : Fin n) (m offset done : Nat) (bytes : List α)
      (written : Nat) : s.phase w = .writing offset done bytes written →
      written < bytes.length → 0 < m → m ≤ requestLen (bytes.length - written) →
      ShardStep s (.writes w m)
        { s.goto w (.countingBytes offset done bytes written m) with
          log := s.log ++
            [⟨w, outStartPos + (offset + done) + written, (bytes.drop written).take m⟩] }
  | writesNothing (s : ShardState n α) (w : Fin n) (offset done : Nat) (bytes : List α)
      (written : Nat) : s.phase w = .writing offset done bytes written →
      written < bytes.length → ShardStep s (.writesNothing w) (s.goto w .check)
  | addsBytes (s : ShardState n α) (w : Fin n) (offset done : Nat) (bytes : List α)
      (written res : Nat) : s.phase w = .countingBytes offset done bytes written res →
      ShardStep s (.addsBytes w)
        { s.goto w (.countingRecord offset done bytes written res) with
          bytesWritten := s.bytesWritten + res }
  | addsRecord (s : ShardState n α) (w : Fin n) (offset done : Nat) (bytes : List α)
      (written res : Nat) : s.phase w = .countingRecord offset done bytes written res →
      ShardStep s (.addsRecord w)
        { s.goto w (.writing offset done bytes (written + res)) with
          recordsFull := s.recordsFull + if res = shardBlockSize cfg then 1 else 0
          recordsPartial := s.recordsPartial + if res = shardBlockSize cfg then 0 else 1 }
  | delivers (s : ShardState n α) (w : Fin n) (offset done : Nat) (bytes : List α)
      (written : Nat) : s.phase w = .writing offset done bytes written →
      bytes.length ≤ written → curLen cfg totalBytes offset done ≤ bytes.length →
      ShardStep s (.delivers w) (s.goto w (.chunk offset (done + bytes.length)))
  | deliversShort (s : ShardState n α) (w : Fin n) (offset done : Nat) (bytes : List α)
      (written : Nat) : s.phase w = .writing offset done bytes written →
      bytes.length ≤ written → bytes.length < curLen cfg totalBytes offset done →
      ShardStep s (.delivers w) (s.goto w .check)
  | ends (s : ShardState n α) (w : Fin n) : s.phase w = .stopping →
      ShardStep s (.ends w) { s.goto w .done with activeWorkers := s.activeWorkers - 1 }
  | begins (s : ShardState n α) : s.step = .returned .success false →
      ShardStep s .begins { s with step := .loadBytes }
  | loadsBytes (s : ShardState n α) : s.step = .loadBytes →
      ShardStep s .loadsBytes
        { s with step := .loadFull, stats := { s.stats with wBytes := s.bytesWritten } }
  | loadsFull (s : ShardState n α) : s.step = .loadFull →
      ShardStep s .loadsFull
        { s with
          step := .loadPartial
          stats := { s.stats with rFull := s.recordsFull, wFull := s.recordsFull } }
  | loadsPartial (s : ShardState n α) : s.step = .loadPartial →
      ShardStep s .loadsPartial
        { s with
          step := .loadAbort
          stats := { s.stats with rPartial := s.recordsPartial, wPartial := s.recordsPartial } }
  | loadsAbort (s : ShardState n α) : s.step = .loadAbort →
      ShardStep s .loadsAbort
        { s with step := if s.abortRequested then .loadError else .loadActive }
  | loadsError (s : ShardState n α) : s.step = .loadError →
      ShardStep s .loadsError { s with step := .returned .failure false }
  | loadsActive (s : ShardState n α) : s.step = .loadActive →
      ShardStep s .loadsActive
        { s with step := .returned .success (s.activeWorkers == 0) }

/-- All interleavings of the workers and of one step of the driver after the other. -/
def shardedSystem (n : Nat) : System (ShardState n α) (ShardAct n) where
  init s := s = .start n
  step := ShardStep cfg inStartPos outStartPos totalBytes input

end Blkcp.C
