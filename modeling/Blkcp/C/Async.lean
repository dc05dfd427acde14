import Blkcp.Lib.RingBuffer
import Blkcp.Lib.Transition
import Blkcp.C.Copy
set_option autoImplicit false

/-! The asynchronous driver (`io_async.c`): a reader thread fills the slots of a ring that the
central loop of `dd_copy` drains. -/

namespace Blkcp.C
open Blkcp.Lib

structure AsyncSlot where
  buf : List Byte
  nread : Nat
  isEof : Bool
  err : Option Errno

/-- How many slots the driver asks for. -/
def asyncCapacity (cfg : Config) : Nat :=
  if cfg.asyncQueueDepth = 0 then
    min (max (if 0 < cfg.blocksize then 32 * mib / cfg.blocksize else 8) 4) 128
  else min (max cfg.asyncQueueDepth 2) 1024

/-- How many it gets when the memory for all of them fails to be there a number of times; with two
slots it gives up. -/
def asyncAllocated (capacity : Nat) : Nat → Option Nat
  | 0 => some capacity
  | failures + 1 =>
    if 2 < capacity then asyncAllocated (max (capacity / 2) 2) failures else none

/-- Where the reader thread is. A read that is longer than its slot has no defined end. -/
inductive ReaderAt where
  | waiting
  | filling (slot : Nat)
  | publishing (slot : Nat)
  | finishing
  | ended
  | overrun
  deriving DecidableEq

/-- Where the thread of `dd_copy` is. -/
inductive WriterAt where
  | looping
  | draining (slot : Nat)
  | releasing
  | flushing (status : ExitStatus)
  | stopping (status : ExitStatus)
  | joining (status : ExitStatus)
  | ended (status : ExitStatus)
  deriving DecidableEq

/-- The pipeline and its threads; `blocksRead` records what the reads gave. -/
structure AsyncState (ρ ω : Type) where
  ctx : Ctx ρ ω
  ring : RingBuffer AsyncSlot
  stopRequested : Bool
  readerDone : Bool
  recordsDone : Nat
  totalBytesRead : Nat
  reader : ReaderAt
  writer : WriterAt
  blocksRead : List (List Byte)

def recordLimit (cfg : Config) : Nat := cfg.maxRecords + if cfg.maxBytes ≠ 0 then 1 else 0

/-- How much the reader asks for, if a limit does not keep it from reading. -/
def asyncToRead (cfg : Config) (recordsDone totalBytesRead : Nat) : Option Nat :=
  if recordLimit cfg ≤ recordsDone then none
  else
    let toRead := if cfg.maxRecords ≤ recordsDone then cfg.maxBytes else cfg.blocksize
    match cfg.bytesToCopy with
    | some limit =>
      if limit ≤ totalBytesRead then none else some (min (limit - totalBytesRead) toRead)
    | none => some toRead

/-- The slot that ends the stream. -/
def AsyncSlot.close (slot : AsyncSlot) (err : Option Errno) : AsyncSlot :=
  { slot with nread := 0, isEof := true, err := err }

def AsyncSlot.fill (slot : AsyncSlot) (bytes : List Byte) : AsyncSlot where
  buf := readInto slot.buf bytes
  nread := bytes.length
  isEof := false
  err := none

variable {ρ ω : Type}

namespace AsyncState

/-- The reader ends the stream in its slot. -/
def closeSlot (s : AsyncState ρ ω) (i : Nat) (err : Option Errno) : AsyncState ρ ω :=
  { s with ring := s.ring.store i ((s.ring.slots i).close err), reader := .publishing i }

def readOn (s : AsyncState ρ ω) (input : ρ) : AsyncState ρ ω :=
  { s with ctx := { s.ctx with input := input } }

/-- The reader puts the result of a read in its slot. -/
def fillSlot (s : AsyncState ρ ω) (i : Nat) (r : Except Errno (List Byte)) (input : ρ) :
    AsyncState ρ ω :=
  match r with
  | .ok [] => (s.readOn input).closeSlot i none
  | .error e => (s.readOn input).closeSlot i (some e)
  | .ok bytes =>
    if s.ctx.cfg.blocksize < bytes.length then { s with reader := .overrun }
    else
      { s.readOn input with
        ring := s.ring.store i ((s.ring.slots i).fill bytes)
        recordsDone := s.recordsDone + 1
        totalBytesRead := s.totalBytesRead + bytes.length
        reader := .publishing i
        blocksRead := s.blocksRead ++ [bytes] }

end AsyncState

section Driver

variable (I : Input ρ) (O : Output ω) (env : Env)

/-- What the loop does with the slot it took: the context, and where it goes on. -/
def asyncDrain (ctx : Ctx ρ ω) (slot : AsyncSlot) : Run (WriterAt × Ctx ρ ω) :=
  if slot.isEof then
    match slot.err with
    | some _ => .ok (.flushing .failure, ctx)
    | none => .ok (.flushing .success, ctx)
  else do
    let stats :=
      if slot.nread = ctx.cfg.blocksize then { ctx.stats with rFull := ctx.stats.rFull + 1 }
      else { ctx.stats with rPartial := ctx.stats.rPartial + 1 }
    let (nwritten, out) ← ddIwrite O env ctx.cfg (slot.buf.take slot.nread) ctx.out
    let stats := { stats with wBytes := stats.wBytes + nwritten }
    if nwritten ≠ slot.nread then
      let stats := if nwritten ≠ 0 then { stats with wPartial := stats.wPartial + 1 } else stats
      return (.flushing .failure, { ctx with out := out, stats := stats })
    else
      return (.releasing, { ctx with
        out := out, stats := { stats with wFull := stats.wFull + 1 } })

/-- The driver with a ring of empty slots, before its reader has done anything. -/
def asyncDriverInit (ctx : Ctx ρ ω) (capacity : Nat) : AsyncState ρ ω where
  ctx := ddAllocObuf env ctx
  ring := {
    capacity := capacity
    slots := fun _ => ⟨(List.range ctx.cfg.blocksize).map env.uninit, 0, false, none⟩
    head := 0
    tail := 0
    count := 0 }
  stopRequested := false
  readerDone := false
  recordsDone := 0
  totalBytesRead := 0
  reader := .waiting
  writer := .looping
  blocksRead := []

inductive AsyncAct where
  | acquires | stopsEarly | meetsLimit | reads | publishes | finishes
  | leaves | takes | findsDone | drains | releases | flushes | stops | joins
  deriving DecidableEq

/-- One step of a thread: a section under the lock, or what is done between two of them. -/
inductive AsyncStep : AsyncState ρ ω → AsyncAct → AsyncState ρ ω → Prop where
  | acquires (s : AsyncState ρ ω) : s.reader = .waiting → s.stopRequested = false →
      s.ring.count ≠ s.ring.capacity →
      AsyncStep s .acquires { s with reader := .filling s.ring.tail }
  | stopsEarly (s : AsyncState ρ ω) : s.reader = .waiting → s.stopRequested = true →
      AsyncStep s .stopsEarly { s with reader := .finishing }
  | meetsLimit (s : AsyncState ρ ω) (i : Nat) : s.reader = .filling i →
      asyncToRead s.ctx.cfg s.recordsDone s.totalBytesRead = none →
      AsyncStep s .meetsLimit (s.closeSlot i none)
  | reads (s : AsyncState ρ ω) (i n : Nat) (r : Except Errno (List Byte)) (input : ρ) :
      s.reader = .filling i →
      asyncToRead s.ctx.cfg s.recordsDone s.totalBytesRead = some n →
      ddIread I env s.ctx.cfg.inputFlags.direct s.ctx.input n = .ok (r, input) →
      AsyncStep s .reads (s.fillSlot i r input)
  | publishes (s : AsyncState ρ ω) (i : Nat) : s.reader = .publishing i →
      AsyncStep s .publishes
        { s with
          ring := s.ring.advanceTail
          reader := if (s.ring.slots i).isEof ∨ s.stopRequested then .finishing else .waiting }
  | finishes (s : AsyncState ρ ω) : s.reader = .finishing →
      AsyncStep s .finishes { s with reader := .ended, readerDone := true }
  | leaves (s : AsyncState ρ ω) : s.writer = .looping →
      limitReached s.ctx.cfg s.ctx.stats = true →
      AsyncStep s .leaves { s with writer := .flushing .success }
  | takes (s : AsyncState ρ ω) : s.writer = .looping →
      limitReached s.ctx.cfg s.ctx.stats = false → 0 < s.ring.count →
      AsyncStep s .takes { s with writer := .draining s.ring.head }
  | findsDone (s : AsyncState ρ ω) : s.writer = .looping →
      limitReached s.ctx.cfg s.ctx.stats = false → s.ring.count = 0 → s.readerDone = true →
      AsyncStep s .findsDone { s with writer := .flushing .success }
  | drains (s : AsyncState ρ ω) (i : Nat) (writer : WriterAt) (ctx : Ctx ρ ω) :
      s.writer = .draining i → asyncDrain O env s.ctx (s.ring.slots i) = .ok (writer, ctx) →
      AsyncStep s .drains { s with ctx := ctx, writer := writer }
  | releases (s : AsyncState ρ ω) : s.writer = .releasing →
      AsyncStep s .releases { s with ring := s.ring.advanceHead, writer := .looping }
  | flushes (s : AsyncState ρ ω) (status : ExitStatus) (ctx : Ctx ρ ω) :
      s.writer = .flushing status → flushPending O env s.ctx = .ok ctx →
      AsyncStep s .flushes { s with ctx := ctx, writer := .stopping status }
  | stops (s : AsyncState ρ ω) (status : ExitStatus) : s.writer = .stopping status →
      AsyncStep s .stops { s with stopRequested := true, writer := .joining status }
  | joins (s : AsyncState ρ ω) (status : ExitStatus) : s.writer = .joining status →
      s.reader = .ended →
      AsyncStep s .joins { s with ctx := finalizeSparse O s.ctx, writer := .ended status }

/-- All interleavings of the two threads. -/
def asyncSystem (ctx : Ctx ρ ω) (capacity : Nat) : System (AsyncState ρ ω) AsyncAct where
  init s := s = asyncDriverInit env ctx capacity
  step := AsyncStep I O env

end Driver

end Blkcp.C
