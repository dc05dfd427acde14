import Blkcp.Lib.Budget
import Blkcp.Rust.Splice
set_option autoImplicit false

/-! `try_reflink_copy`: the loop of `copy_file_range`. -/

namespace Blkcp.Rust
open Blkcp.Lib

namespace Errno

def exdev : Errno := ⟨18, "EXDEV: Cross-device link"⟩
def eopnotsupp : Errno := ⟨95, "EOPNOTSUPP: Operation not supported on transport endpoint"⟩

end Errno

variable {α : Type}

structure ReflinkState (α : Type) where
  input : List α
  output : List α
  pos : Nat
  remaining : Option Nat
  stats : Stats
  calls : Nat
  polls : Nat

def reflinkChunkSize (cfg : Config) : Nat := max (64 * 1024 * 1024) (effectiveBlockSize cfg)

def reflinkRequest (cfg : Config) (remaining : Option Nat) : Nat :=
  match remaining with
  | some rem => min rem (reflinkChunkSize cfg)
  | none => reflinkChunkSize cfg

/-- Error codes that mean the kernel cannot do it for these files. -/
def reflinkUnsupported (e : Errno) : Bool :=
  e.code = Errno.exdev.code || e.code = Errno.einval.code || e.code = Errno.enosys.code ||
    e.code = Errno.eopnotsupp.code

/-- One iteration. The `i`-th call of `copy_file_range` gives `results i`: at least one byte before
the end of the input, at most what was asked for. -/
def reflinkBody [Octet α] (cfg : Config) (cancel : Nat → Bool) (results : Nat → SpliceResult)
    (s : ReflinkState α) : ReflinkState α ⊕ (Except String Bool × ReflinkState α) :=
  if cancel s.polls then .inr (.error "Transfer cancelled by user", s)
  else if s.remaining = some 0 then .inr (.ok true, s)
  else
    let toCopy := reflinkRequest cfg s.remaining
    let s := { s with polls := s.polls + 1, calls := s.calls + 1 }
    match results (s.calls - 1) with
    | .moved n =>
      let bytes := s.input.take (min toCopy (max n 1))
      if bytes = [] then .inr (.ok true, s)
      else .inl { s with
        input := s.input.drop bytes.length
        output := placeAt Octet.zero s.output s.pos bytes
        pos := s.pos + bytes.length
        stats := (s.stats.addBytes bytes.length).addRecords bytes.length (effectiveBlockSize cfg)
        remaining := s.remaining.map (· - bytes.length) }
    | .failed e =>
      if e.code = Errno.eintr.code then .inl s
      else if s.stats.bytesCopied = 0 ∧ reflinkUnsupported e then
        if cfg.engine = .reflink then
          .inr (.error ("copy_file_range not supported for these files: " ++ e.text), s)
        else .inr (.ok false, s)
      else .inr (.error ("copy_file_range error: " ++ e.text), s)

def ReflinkState.start (cfg : Config) (input output : List α) (pos : Nat) (stats : Stats) :
    ReflinkState α where
  input := input
  output := output
  pos := pos
  remaining := remainingTotal cfg
  stats := stats
  calls := 0
  polls := 0

/-- `kinds` is what `fstat` gives of the two files. -/
def reflinkRun [Octet α] (kinds : Option (FileKind × FileKind)) (cancel : Nat → Bool)
    (results : Nat → SpliceResult) (fuel : Nat) (cfg : Config) (input output : List α) (pos : Nat)
    (stats : Stats) : Option (Except String Bool × ReflinkState α) :=
  let s := ReflinkState.start cfg input output pos stats
  match kinds with
  | none => some (.ok false, s)
  | some (kIn, kOut) =>
    if kIn ≠ .regular ∨ kOut ≠ .regular then
      if cfg.engine = .reflink then
        some (.error "copy_file_range requires regular files for input and output", s)
      else some (.ok false, s)
    else runLoop (reflinkBody cfg cancel results) fuel s

def tryReflinkCopy [Octet α] (kinds : Option (FileKind × FileKind)) (cancel : Nat → Bool)
    (results : Nat → SpliceResult) (fuel : Nat) (cfg : Config) :
    CopyPath α (Except String Bool) :=
  fun input output pos stats =>
    (reflinkRun kinds cancel results fuel cfg input output pos stats).map fun r =>
      ⟨r.1, r.2.input, r.2.output, r.2.stats⟩

end Blkcp.Rust
