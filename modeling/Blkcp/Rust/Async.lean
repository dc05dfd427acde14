import Blkcp.Lib.Transition
import Blkcp.Rust.Transfer
set_option autoImplicit false

/-! `execute_async_transfer`: the reader, writer and hasher threads over three bounded channels. -/

namespace Blkcp.Rust
open Blkcp.Lib

variable {α ρ ω η₂ η₃ : Type}

/-- A buffer with the number of bytes that count in it. -/
structure Message (α : Type) where
  buf : List α
  n : Nat
  n_le : n ≤ buf.length

namespace Message

def bytes (m : Message α) : List α := m.buf.take m.n

theorem length_bytes (m : Message α) : m.bytes.length = m.n := by
  rw [bytes, List.length_take, Nat.min_eq_left m.n_le]

def ofRead (buf bytes : List α) : Message α where
  buf := readInto buf bytes
  n := bytes.length
  n_le := by simp [readInto]

@[simp] theorem bytes_ofRead (buf bytes : List α) : (ofRead buf bytes).bytes = bytes := by
  simp [Message.bytes, ofRead, readInto]

end Message

inductive ReaderPhase (α : Type) where
  | check
  | waitBuf (toRead : Nat)
  | reading (buf : List α) (toRead : Nat)
  | recycling (buf : List α)
  | sending (m : Message α)
  | done (result : Except String Nat)

/-- The writer is the calling thread. -/
inductive MainPhase (α : Type) where
  | recv
  | got (m : Message α)
  | handing (m : Message α)
  | joinHasher
  | joinReader
  | returned (result : Except String Unit)

inductive HasherPhase (α : Type) where
  | recv
  | got (m : Message α)
  | recycling (buf : List α)
  | done

structure AsyncState (α ρ ω η₂ η₃ : Type) where
  reader : ReaderPhase α
  input : ρ
  totalRead : Nat
  remBytes : Option Nat
  remBlocks : Option Nat
  main : MainPhase α
  out : OutState α ω
  stats : Stats
  hashing : HasherPhase α
  hasher : InFlightHasher η₂ η₃
  dataQ : List (Message α)
  recycleQ : List (List α)
  hashQ : List (Message α)
  cancelled : Bool

def queueDepth (cfg : Config) : Nat :=
  match cfg.queueDepth with
  | some depth => depth
  | none => max 16 (min (512 * 1024 / effectiveBlockSize cfg) 128)

inductive AsyncAct where
  | setCancel
  | readerSeesCancel | readerStops | readerPasses | readerTakes | readerReads | readerRecycles
  | readerSends
  | mainReceives | mainDisconnects | mainCancels | mainDelivers | mainHands | mainJoinsHasher
  | mainJoinsReader
  | hasherReceives | hasherEnds | hasherUpdates | hasherRecycles
  deriving DecidableEq

namespace AsyncState

def readerDone (s : AsyncState α ρ ω η₂ η₃) : Bool :=
  match s.reader with
  | .done _ => true
  | _ => false

/-- The writer has left its loop; `hash_tx` is dropped. -/
def mainLeft (s : AsyncState α ρ ω η₂ η₃) : Bool :=
  match s.main with
  | .joinHasher | .joinReader | .returned _ => true
  | _ => false

def mainReturned (s : AsyncState α ρ ω η₂ η₃) : Bool :=
  match s.main with
  | .returned _ => true
  | _ => false

/-- A send to the recycle channel: dropped when the receiver is, refused while there is no room. -/
def recycle (cfg : Config) (s : AsyncState α ρ ω η₂ η₃) (buf : List α) :
    Option (AsyncState α ρ ω η₂ η₃) :=
  if s.readerDone then some s
  else if s.recycleQ.length < queueDepth cfg then some { s with recycleQ := s.recycleQ ++ [buf] }
  else none

end AsyncState

variable [Octet α] (I : Input α ρ) (O : Output α ω) (env : HashEnv η₂ η₃) (cfg : Config)

def AsyncState.start (input : ρ) (file : ω) (stats : Stats) : AsyncState α ρ ω η₂ η₃ where
  reader := .check
  input := input
  totalRead := 0
  remBytes := cfg.limitBytes
  remBlocks := cfg.count
  main := .recv
  out := ⟨file, [], false⟩
  stats := { stats with asyncCapacity := queueDepth cfg }
  hashing := .recv
  hasher := InFlightHasher.new env cfg.hashAlgo
  dataQ := []
  recycleQ := List.replicate (queueDepth cfg)
    (List.replicate (effectiveBlockSize cfg) Octet.zero)
  hashQ := []
  cancelled := false

/-- What the reader does with the result of one `read`. -/
def afterRead (s : AsyncState α ρ ω η₂ η₃) (buf : List α) (r : ReadResult α × ρ) :
    AsyncState α ρ ω η₂ η₃ :=
  match r with
  | (.data [], input) => { s with input := input, reader := .done (.ok s.totalRead) }
  | (.data bytes, input) =>
    { s with
      input := input
      totalRead := s.totalRead + bytes.length
      remBytes := s.remBytes.map (· - bytes.length)
      remBlocks := s.remBlocks.map (· - 1)
      reader := .sending (.ofRead buf bytes) }
  | (.interrupted, input) => { s with input := input, reader := .recycling buf }
  | (.failed e, input) =>
    if cfg.noerror then { s with input := input, reader := .recycling buf }
    else { s with input := input, reader := .done (.error ("Read error in async pipeline: " ++ e)) }

def asyncContext : String := "Write error in async pipeline: "

/-- One step of one thread. A load of the cancel flag may give an old `false`. The reader keeps a
sender of its own recycle channel, so its `recv` never fails. -/
inductive AsyncStep : AsyncState α ρ ω η₂ η₃ → AsyncAct → AsyncState α ρ ω η₂ η₃ → Prop where
  | setCancel (s : AsyncState α ρ ω η₂ η₃) : AsyncStep s .setCancel { s with cancelled := true }
  | readerSeesCancel (s : AsyncState α ρ ω η₂ η₃) : s.reader = .check → s.cancelled = true →
      AsyncStep s .readerSeesCancel { s with reader := .done (.ok s.totalRead) }
  | readerStops (s : AsyncState α ρ ω η₂ η₃) : s.reader = .check →
      s.remBytes = some 0 ∨ s.remBlocks = some 0 →
      AsyncStep s .readerStops { s with reader := .done (.ok s.totalRead) }
  | readerPasses (s : AsyncState α ρ ω η₂ η₃) : s.reader = .check →
      s.remBytes ≠ some 0 → s.remBlocks ≠ some 0 →
      AsyncStep s .readerPasses { s with reader := .waitBuf (toRead cfg s.remBytes) }
  | readerTakes (s : AsyncState α ρ ω η₂ η₃) (k : Nat) (buf : List α) (q : List (List α)) :
      s.reader = .waitBuf k → s.recycleQ = buf :: q →
      AsyncStep s .readerTakes { s with reader := .reading buf k, recycleQ := q }
  | readerReads (s : AsyncState α ρ ω η₂ η₃) (k : Nat) (buf : List α) :
      s.reader = .reading buf k →
      AsyncStep s .readerReads (afterRead cfg s buf (I.read s.input k))
  | readerRecycles (s : AsyncState α ρ ω η₂ η₃) (buf : List α) : s.reader = .recycling buf →
      s.recycleQ.length < queueDepth cfg →
      AsyncStep s .readerRecycles
        { s with recycleQ := s.recycleQ ++ [buf], reader := .check }
  | readerSends (s : AsyncState α ρ ω η₂ η₃) (m : Message α) : s.reader = .sending m →
      s.mainReturned = false → s.dataQ.length < queueDepth cfg →
      AsyncStep s .readerSends { s with dataQ := s.dataQ ++ [m], reader := .check }
  | readerSendFails (s : AsyncState α ρ ω η₂ η₃) (m : Message α) : s.reader = .sending m →
      s.mainReturned = true →
      AsyncStep s .readerSends { s with reader := .done (.ok s.totalRead) }
  | mainReceives (s : AsyncState α ρ ω η₂ η₃) (m : Message α) (q : List (Message α)) :
      s.main = .recv → s.dataQ = m :: q →
      AsyncStep s .mainReceives { s with main := .got m, dataQ := q }
  | mainDisconnects (s : AsyncState α ρ ω η₂ η₃) : s.main = .recv → s.dataQ = [] →
      s.readerDone = true →
      AsyncStep s .mainDisconnects { s with main := .joinHasher, out := finishOut O cfg s.out }
  | mainCancels (s : AsyncState α ρ ω η₂ η₃) (m : Message α) : s.main = .got m →
      s.cancelled = true →
      AsyncStep s .mainCancels { s with main := .joinHasher, out := finishOut O cfg s.out }
  | mainDelivers (s : AsyncState α ρ ω η₂ η₃) (m m' : Message α) (out : OutState α ω)
      (stats : Stats) : s.main = .got m →
      deliverBlock O cfg asyncContext m.buf m.n s.out s.stats = (.ok (), out, stats, m'.buf) →
      m'.n = m.n →
      AsyncStep s .mainDelivers { s with main := .handing m', out := out, stats := stats }
  | mainFails (s : AsyncState α ρ ω η₂ η₃) (m : Message α) (e : String) (out : OutState α ω)
      (stats : Stats) (buf : List α) : s.main = .got m →
      deliverBlock O cfg asyncContext m.buf m.n s.out s.stats = (.error e, out, stats, buf) →
      AsyncStep s .mainDelivers
        { s with main := .returned (.error e), out := out, stats := stats }
  | mainHashes (s : AsyncState α ρ ω η₂ η₃) (m : Message α) : s.main = .handing m →
      cfg.hashAlgo ≠ .none → s.hashQ.length < queueDepth cfg →
      AsyncStep s .mainHands { s with main := .recv, hashQ := s.hashQ ++ [m] }
  | mainRecycles (s t : AsyncState α ρ ω η₂ η₃) (m : Message α) : s.main = .handing m →
      cfg.hashAlgo = .none → s.recycle cfg m.buf = some t →
      AsyncStep s .mainHands { t with main := .recv }
  | mainJoinsHasher (s : AsyncState α ρ ω η₂ η₃) : s.main = .joinHasher → s.hashing = .done →
      AsyncStep s .mainJoinsHasher { s with main := .joinReader }
  | mainJoinsReader (s : AsyncState α ρ ω η₂ η₃) (r : Except String Nat) : s.main = .joinReader →
      s.reader = .done r →
      AsyncStep s .mainJoinsReader { s with main := .returned (r.map fun _ => ()) }
  | hasherReceives (s : AsyncState α ρ ω η₂ η₃) (m : Message α) (q : List (Message α)) :
      s.hashing = .recv → s.hashQ = m :: q →
      AsyncStep s .hasherReceives { s with hashing := .got m, hashQ := q }
  | hasherEnds (s : AsyncState α ρ ω η₂ η₃) : s.hashing = .recv → s.hashQ = [] →
      s.mainLeft = true →
      AsyncStep s .hasherEnds { s with hashing := .done }
  | hasherUpdates (s : AsyncState α ρ ω η₂ η₃) (m : Message α) : s.hashing = .got m →
      AsyncStep s .hasherUpdates
        { s with hashing := .recycling m.buf, hasher := s.hasher.update env m.bytes }
  | hasherRecycles (s t : AsyncState α ρ ω η₂ η₃) (buf : List α) : s.hashing = .recycling buf →
      s.recycle cfg buf = some t →
      AsyncStep s .hasherRecycles { t with hashing := .recv }

/-- All interleavings, from the state before the threads are spawned. -/
def asyncSystem (input : ρ) (file : ω) (stats : Stats) :
    System (AsyncState α ρ ω η₂ η₃) AsyncAct where
  init s := s = AsyncState.start env cfg input file stats
  step := AsyncStep I O env cfg

end Blkcp.Rust
