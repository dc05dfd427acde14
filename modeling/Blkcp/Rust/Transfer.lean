import Blkcp.Lib.Loop
import Blkcp.Rust.Config
set_option autoImplicit false

/-! The synchronous transfer loop of `execute_transfer_with_control`, over any input and output. -/

namespace Blkcp.Rust
open Blkcp.Blks Blkcp.Lib

/-- What one `read` returns; `data []` is end of file. -/
inductive ReadResult (α : Type) where
  | data (bytes : List α)
  | interrupted
  | failed (error : String)

structure Input (α ρ : Type) where
  read : ρ → Nat → ReadResult α × ρ
  read_le : ∀ {s n bytes t}, read s n = (.data bytes, t) → bytes.length ≤ n

/-- The calls made on the output file, and on stdout when there is none. -/
structure Output (α ω : Type) where
  writeAll : ω → List α → Except String Unit × ω
  seekCurrent : ω → Nat → Except String Unit × ω
  streamPosition : ω → Except String Nat
  setLen : ω → Nat → ω
  reopen : ω → Except String Unit × ω
  seekStart : ω → Nat → Except String Unit × ω

inductive Op (α : Type) where
  | writeAll (bytes : List α)
  | seekCurrent (n : Nat)
  | setLen (n : Nat)
  | reopen
  | seekStart (pos : Nat)
  deriving DecidableEq

/-- The output with the record of all calls made on it. -/
structure OutState (α ω : Type) where
  file : ω
  ops : List (Op α)
  lastWasSparseHole : Bool

variable {α ρ ω η₂ η₃ : Type}

namespace OutState

variable (O : Output α ω)

def call (s : OutState α ω) (op : Op α) (r : Except String Unit × ω) :
    Except String Unit × OutState α ω :=
  (r.1, { s with file := r.2, ops := s.ops ++ [op] })

def writeAll (s : OutState α ω) (bytes : List α) : Except String Unit × OutState α ω :=
  s.call (.writeAll bytes) (O.writeAll s.file bytes)

def seekCurrent (s : OutState α ω) (n : Nat) : Except String Unit × OutState α ω :=
  s.call (.seekCurrent n) (O.seekCurrent s.file n)

def reopen (s : OutState α ω) : Except String Unit × OutState α ω :=
  s.call .reopen (O.reopen s.file)

def seekStart (s : OutState α ω) (pos : Nat) : Except String Unit × OutState α ω :=
  s.call (.seekStart pos) (O.seekStart s.file pos)

def setLen (s : OutState α ω) (n : Nat) : OutState α ω :=
  { s with file := O.setLen s.file n, ops := s.ops ++ [.setLen n] }

def sparseHole (s : OutState α ω) (hole : Bool) : OutState α ω :=
  { s with lastWasSparseHole := hole }

end OutState

/-- The `O_DIRECT` fallback: reopen the file at the current position and write the block there. -/
def reopenAndWrite (O : Output α ω) (block : List α) (s : OutState α ω) :
    Except String Unit × OutState α ω :=
  let curPos := match O.streamPosition s.file with
    | .ok pos => pos
    | .error _ => 0
  match s.reopen O with
  | (.error e, s) => (.error e, s)
  | (.ok _, s) =>
    match s.seekStart O curPos with
    | (.error e, s) => (.error e, s)
    | (.ok _, s) =>
      match s.writeAll O block with
      | (.error e, s) => (.error e, s)
      | (.ok _, s) => (.ok (), s.sparseHole false)

/-- Writing one block. `context` is the text put before a write error. -/
def writeBlock [Octet α] (O : Output α ω) (cfg : Config) (context : String) (block : List α)
    (s : OutState α ω) : Except String Unit × OutState α ω :=
  if cfg.output.isSome then
    if cfg.sparse && block.all fun b => Octet.toByte b == 0 then
      match s.seekCurrent O block.length with
      | (.ok _, s) => (.ok (), s.sparseHole true)
      | (.error _, s) =>
        match s.writeAll O block with
        | (.error e, s) => (.error (context ++ e), s)
        | (.ok _, s) => (.ok (), s.sparseHole false)
    else
      match s.writeAll O block with
      | (.error e, s) =>
        if cfg.direct then reopenAndWrite O block s else (.error (context ++ e), s)
      | (.ok _, s) => (.ok (), s.sparseHole false)
  else
    match s.writeAll O block with
    | (.error e, s) => (.error (context ++ e), s)
    | (.ok _, s) => (.ok (), s)

/-- The end of a copy: a file that ends in a hole gets its length. -/
def finishOut (O : Output α ω) (cfg : Config) (s : OutState α ω) : OutState α ω :=
  if cfg.output.isSome && s.lastWasSparseHole then
    match O.streamPosition s.file with
    | .ok pos => s.setLen O pos
    | .error _ => s
  else s

def effectiveBlockSize (cfg : Config) : Nat := max cfg.blockSize 1

theorem effectiveBlockSize_pos (cfg : Config) : 0 < effectiveBlockSize cfg := by
  rw [effectiveBlockSize]
  omega

/-- `read(&mut buffer[..])`: the bytes read stand before what the buffer held there. -/
def readInto (buffer bytes : List α) : List α := bytes ++ buffer.drop bytes.length

def swabPrefix (cfg : Config) (buffer : List α) (n : Nat) : List α :=
  if cfg.swab then swabBuffer (buffer.take n) ++ buffer.drop n else buffer

/-- The buffer and the length to write of it: with `sync` a short block is zero-filled. -/
def padBlock [Octet α] (cfg : Config) (buffer : List α) (n : Nat) : List α × Nat :=
  let blockSize := effectiveBlockSize cfg
  if cfg.sync && n < blockSize then
    (buffer.take n ++ List.replicate (blockSize - n) Octet.zero, blockSize)
  else (buffer, n)

/-- Between reading a block and going on: count it, swab it, pad it, write it, count it again. The
last component is the buffer afterwards. -/
def deliverBlock [Octet α] (O : Output α ω) (cfg : Config) (context : String) (buffer : List α)
    (n : Nat) (out : OutState α ω) (stats : Stats) :
    Except String Unit × OutState α ω × Stats × List α :=
  let blockSize := effectiveBlockSize cfg
  let stats := if n = blockSize then stats.incInFull else stats.incInPart
  let buffer := swabPrefix cfg buffer n
  let (buffer, writeLen) := padBlock cfg buffer n
  match writeBlock O cfg context (buffer.take writeLen) out with
  | (.error e, out) => (.error e, out, stats, buffer)
  | (.ok _, out) =>
    let stats := if writeLen = blockSize then stats.incOutFull else stats.incOutPart
    (.ok (), out, stats.addBytes n, buffer)

def toRead (cfg : Config) (remainingBytes : Option Nat) : Nat :=
  match remainingBytes with
  | some rem => min rem (effectiveBlockSize cfg)
  | none => effectiveBlockSize cfg

structure LoopState (α ρ ω η₂ η₃ : Type) where
  input : ρ
  buffer : List α
  remainingBytes : Option Nat
  remainingBlocks : Option Nat
  hasher : InFlightHasher η₂ η₃
  out : OutState α ω
  stats : Stats
  polls : Nat

variable [Octet α] (I : Input α ρ) (O : Output α ω) (env : HashEnv η₂ η₃) (cfg : Config)

def LoopState.start (input : ρ) (file : ω) (stats : Stats) : LoopState α ρ ω η₂ η₃ where
  input := input
  buffer := List.replicate (effectiveBlockSize cfg) Octet.zero
  remainingBytes := cfg.limitBytes
  remainingBlocks := cfg.count
  hasher := InFlightHasher.new env cfg.hashAlgo
  out := ⟨file, [], false⟩
  stats := stats
  polls := 0

/-- One iteration of the loop. `cancel i` is what the `i`-th load of the cancel flag gives. -/
def transferBody (cancel : Nat → Bool) (s : LoopState α ρ ω η₂ η₃) :
    LoopState α ρ ω η₂ η₃ ⊕ (Except String Unit × LoopState α ρ ω η₂ η₃) :=
  if cancel s.polls then .inr (.error "Transfer cancelled by user", s)
  else
    let s := { s with polls := s.polls + 1 }
    if s.remainingBytes = some 0 then .inr (.ok (), s)
    else if s.remainingBlocks = some 0 then .inr (.ok (), s)
    else
      match I.read s.input (toRead cfg s.remainingBytes) with
      | (.data [], input) => .inr (.ok (), { s with input := input })
      | (.interrupted, input) => .inl { s with input := input }
      | (.failed e, input) =>
        if cfg.noerror then .inl { s with input := input }
        else .inr (.error ("Read error: " ++ e), { s with input := input })
      | (.data bytes, input) =>
        let n := bytes.length
        -- hashing comes before the write; the bytes hashed are not touched by it
        match deliverBlock O cfg "Write error: " (readInto s.buffer bytes) n s.out s.stats with
        | (.error e, out, stats, buffer) =>
          .inr (.error e, { s with
            input := input, buffer := buffer, out := out, stats := stats
            hasher := s.hasher.update env (buffer.take n) })
        | (.ok _, out, stats, buffer) =>
          .inl { s with
            input := input, buffer := buffer, out := out, stats := stats
            hasher := s.hasher.update env (buffer.take n)
            remainingBytes := s.remainingBytes.map (· - n)
            remainingBlocks := s.remainingBlocks.map (· - 1) }

/-- The loop and what follows it; `none` when it does not end within the fuel. -/
def transferLoop (cancel : Nat → Bool) (fuel : Nat) (s : LoopState α ρ ω η₂ η₃) :
    Option (Except String Unit × LoopState α ρ ω η₂ η₃) :=
  (runLoop (transferBody I O env cfg cancel) fuel s).map fun
    | (.ok _, s) => (.ok (), { s with out := finishOut O cfg s.out })
    | (.error e, s) => (.error e, s)

end Blkcp.Rust
