import Blkcp.Lib.Place
import Blkcp.Lib.Budget
import Blkcp.Rust.Splice
set_option autoImplicit false

/-! `execute_uring_single`: one ring that reads and writes a block at a time. -/

namespace Blkcp.Rust
open Blkcp.Lib

variable {α η₂ η₃ : Type}

/-- An input that requests with an offset are made to. A stream has no offsets. -/
structure RingInput (α : Type) where
  content : List α
  stream : Bool

/-- What one operation of the ring gives: a completion, with a length or an error number, or the
ring itself fails. -/
inductive RingResult where
  | done (n : Nat)
  | failed (errno : Nat)
  | broken (error : String)

inductive UringPhase (α : Type) where
  | top
  | writing (bytes : List α) (written : Nat)

/-- `taken` is how much was read of a stream. -/
structure UringState (α η₂ η₃ : Type) where
  inOffset : Nat
  taken : Nat
  outOffset : Nat
  remaining : Option Nat
  hasher : InFlightHasher η₂ η₃
  stats : Stats
  log : List (Placed Unit α)
  phase : UringPhase α
  calls : Nat
  polls : Nat

namespace UringState

/-- The bytes from where the next request reads. -/
def ahead (input : RingInput α) (s : UringState α η₂ η₃) : List α :=
  input.content.drop (if input.stream then s.taken else s.inOffset)

end UringState

/-- A length in the `u32` of a submission entry. -/
def ringLength (n : Nat) : Nat := n % 2 ^ 32

/-- One iteration of the outer loop up to the inner one, or of the inner loop. The `i`-th operation
gives `results i`; a read gives at least one byte before the end of the input. -/
def uringBody [Octet α] (env : HashEnv η₂ η₃) (cfg : Config) (cancel : Nat → Bool)
    (results : Nat → RingResult) (input : RingInput α) (s : UringState α η₂ η₃) :
    UringState α η₂ η₃ ⊕ (Except String Unit × UringState α η₂ η₃) :=
  match s.phase with
  | .top =>
    if cancel s.polls then .inr (.error "Transfer cancelled by user", s)
    else if s.remaining = some 0 then .inr (.ok (), s)
    else
      let request := ringLength (toRead cfg s.remaining)
      let s := { s with polls := s.polls + 1, calls := s.calls + 1 }
      match results (s.calls - 1) with
      | .broken e => .inr (.error e, s)
      | .failed errno =>
        if errno = Errno.eintr.code then .inl s
        else .inr (.error ("io_uring read error: errno " ++ toString errno), s)
      | .done n =>
        let bytes := (s.ahead input).take (min request (max n 1))
        if bytes = [] then .inr (.ok (), s)
        else
          let stats :=
            if bytes.length = effectiveBlockSize cfg then s.stats.incInFull else s.stats.incInPart
          .inl { s with
            inOffset := s.inOffset + bytes.length
            taken := s.taken + bytes.length
            hasher := s.hasher.update env bytes
            stats := stats
            phase := .writing bytes 0 }
  | .writing bytes written =>
    if bytes.length ≤ written then
      let stats :=
        if bytes.length = effectiveBlockSize cfg then s.stats.incOutFull else s.stats.incOutPart
      .inl { s with
        outOffset := s.outOffset + bytes.length
        stats := stats.addBytes bytes.length
        remaining := s.remaining.map (· - bytes.length)
        phase := .top }
    else
      let s := { s with calls := s.calls + 1 }
      match results (s.calls - 1) with
      | .broken e => .inr (.error e, s)
      | .failed errno =>
        if errno = Errno.eintr.code then .inl s
        else .inr (.error ("io_uring write error: errno " ++ toString errno), s)
      | .done n =>
        let m := min n (ringLength (bytes.length - written))
        .inl { s with
          log := s.log ++ [⟨(), s.outOffset + written, (bytes.drop written).take m⟩]
          phase := .writing bytes (written + m) }

def UringState.start (env : HashEnv η₂ η₃) (cfg : Config) (stats : Stats) :
    UringState α η₂ η₃ where
  inOffset := cfg.skipBytes
  taken := 0
  outOffset := cfg.seekBytes
  remaining := remainingTotal cfg
  hasher := InFlightHasher.new env cfg.hashAlgo
  stats := stats
  log := []
  phase := .top
  calls := 0
  polls := 0

/-- `ring` is the error that setting up the ring ends with, if it does. -/
def executeUringSingle [Octet α] (env : HashEnv η₂ η₃) (ring : Option String)
    (cancel : Nat → Bool) (results : Nat → RingResult) (fuel : Nat) (cfg : Config)
    (input : RingInput α) (stats : Stats) :
    Option (Except String Unit × UringState α η₂ η₃) :=
  let s := UringState.start env cfg stats
  match ring with
  | some e => some (.error ("Failed to initialize io_uring: " ++ e), s)
  | none => runLoop (uringBody env cfg cancel results input) fuel s

end Blkcp.Rust
