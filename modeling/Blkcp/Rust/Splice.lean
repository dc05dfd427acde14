import Blkcp.Lib.Place
import Blkcp.Rust.Transfer
import Blkcp.Rust.Execute
set_option autoImplicit false

/-! `try_splice_copy`, and the synchronous loop over the content of a file or stream. -/

namespace Blkcp.Rust
open Blkcp.Lib

variable {α : Type}

/-- What one call of `splice` gives. -/
inductive SpliceResult where
  | moved (n : Nat)
  | failed (e : Errno)

inductive SplicePhase where
  | top
  | draining (nIn inPipe : Nat)
  deriving DecidableEq

structure SpliceState (α : Type) where
  input : List α
  pipe : List α
  output : List α
  pos : Nat
  remaining : Option Nat
  stats : Stats
  phase : SplicePhase
  calls : Nat
  polls : Nat

def spliceChunkSize (cfg : Config) : Nat := max 4096 (min (effectiveBlockSize cfg) (1024 * 1024))

/-- The smaller of the byte limit and `count` blocks. -/
def remainingTotal (cfg : Config) : Option Nat :=
  match cfg.count with
  | some cnt =>
    let total := saturatingMul cnt (effectiveBlockSize cfg)
    some (match cfg.limitBytes with
      | some r => min r total
      | none => total)
  | none => cfg.limitBytes

def spliceRequest (cfg : Config) (remaining : Option Nat) : Nat :=
  match remaining with
  | some rem => min rem (spliceChunkSize cfg)
  | none => spliceChunkSize cfg

/-- One iteration of the outer loop up to the inner one, or of the inner loop. The `i`-th call of
`splice` gives `results i`: at least one byte of a non-empty input, at most what was asked for. -/
def spliceBody [Octet α] (cfg : Config) (cancel : Nat → Bool) (results : Nat → SpliceResult)
    (s : SpliceState α) : SpliceState α ⊕ (Except String Bool × SpliceState α) :=
  match s.phase with
  | .top =>
    if cancel s.polls then .inr (.error "Transfer cancelled by user", s)
    else if s.remaining = some 0 then .inr (.ok true, s)
    else
      let toSplice := spliceRequest cfg s.remaining
      let s := { s with polls := s.polls + 1, calls := s.calls + 1 }
      match results (s.calls - 1) with
      | .failed e =>
        if e.code = Errno.eintr.code then .inl s
        else if s.stats.bytesCopied = 0 ∧ (e.code = Errno.einval.code ∨
            e.code = Errno.enosys.code ∨ e.code = Errno.ebadf.code) then .inr (.ok false, s)
        else .inr (.error ("splice input error: " ++ e.text), s)
      | .moved n =>
        let bytes := s.input.take (min toSplice (max n 1))
        if bytes = [] then .inr (.ok true, s)
        else .inl { s with
          input := s.input.drop bytes.length
          pipe := s.pipe ++ bytes
          phase := .draining bytes.length bytes.length }
  | .draining nIn inPipe =>
    if inPipe = 0 then
      .inl { s with
        stats := (s.stats.addBytes nIn).addRecords nIn (effectiveBlockSize cfg)
        remaining := s.remaining.map (· - nIn)
        phase := .top }
    else
      let s := { s with calls := s.calls + 1 }
      match results (s.calls - 1) with
      | .failed e =>
        if e.code = Errno.eintr.code then .inl s
        else .inr (.error ("splice output error: " ++ e.text), s)
      | .moved n =>
        let bytes := s.pipe.take (min n inPipe)
        .inl { s with
          pipe := s.pipe.drop bytes.length
          output := placeAt Octet.zero s.output s.pos bytes
          pos := s.pos + bytes.length
          phase := .draining nIn (inPipe - bytes.length) }

def SpliceState.start (cfg : Config) (input output : List α) (pos : Nat) (stats : Stats) :
    SpliceState α where
  input := input
  pipe := []
  output := output
  pos := pos
  remaining := remainingTotal cfg
  stats := stats
  phase := .top
  calls := 0
  polls := 0

/-- `pipeOk` is whether `pipe` succeeds. -/
def spliceRun [Octet α] (pipeOk : Bool) (cancel : Nat → Bool) (results : Nat → SpliceResult)
    (fuel : Nat) (cfg : Config) (input output : List α) (pos : Nat) (stats : Stats) :
    Option (Except String Bool × SpliceState α) :=
  let s := SpliceState.start cfg input output pos stats
  if pipeOk then runLoop (spliceBody cfg cancel results) fuel s else some (.ok false, s)

/-- What is still in the internal pipe when the function returns is lost with it. -/
def trySpliceCopy [Octet α] (pipeOk : Bool) (cancel : Nat → Bool) (results : Nat → SpliceResult)
    (fuel : Nat) (cfg : Config) : CopyPath α (Except String Bool) :=
  fun input output pos stats =>
    (spliceRun pipeOk cancel results fuel cfg input output pos stats).map fun r =>
      ⟨r.1, r.2.input, r.2.output, r.2.stats⟩

/-- A byte string being read, and how many reads were made. -/
structure Stream (α : Type) where
  rest : List α
  reads : Nat

/-- The `i`-th read returns up to `lens i` bytes, and at least one before the end; `none` is an
interrupted read. -/
def streamInput (lens : Nat → Option Nat) : Input α (Stream α) where
  read s n :=
    match lens s.reads with
    | none => (.interrupted, { s with reads := s.reads + 1 })
    | some k =>
      let bytes := s.rest.take (min n (max k 1))
      (.data bytes, ⟨s.rest.drop bytes.length, s.reads + 1⟩)
  read_le := by
    intro s n bytes t h
    split at h
    · simp at h
    · simp only [Prod.mk.injEq, ReadResult.data.injEq] at h
      rw [← h.1, List.length_take]
      omega

/-- The content of an output with the position in it, on which every call succeeds. -/
def contentOutput [Octet α] : Output α (List α × Nat) where
  writeAll f bytes := (.ok (), (placeAt Octet.zero f.1 f.2 bytes, f.2 + bytes.length))
  seekCurrent f n := (.ok (), (f.1, f.2 + n))
  streamPosition f := .ok f.2
  setLen f n := (f.1.take n ++ List.replicate (n - f.1.length) Octet.zero, f.2)
  reopen f := (.ok (), (f.1, 0))
  seekStart f pos := (.ok (), (f.1, pos))

def transferCopy [Octet α] {η₂ η₃ : Type} (env : HashEnv η₂ η₃) (lens : Nat → Option Nat)
    (cancel : Nat → Bool) (fuel : Nat) (cfg : Config) : CopyPath α (Except String HashInfo) :=
  fun input output pos stats =>
    (transferLoop (streamInput lens) contentOutput env cfg cancel fuel
      (.start env cfg ⟨input, 0⟩ (output, pos) stats)).map fun
      | (.ok _, s) =>
        ⟨.ok (s.hasher.finalizeString env), s.input.rest, s.out.file.1, s.stats⟩
      | (.error e, s) => ⟨.error e, s.input.rest, s.out.file.1, s.stats⟩

theorem take_append_drop_length (xs : List α) (k : Nat) :
    xs.take k ++ xs.drop (xs.take k).length = xs := by
  by_cases hk : k ≤ xs.length
  · rw [List.length_take, Nat.min_eq_left hk, List.take_append_drop]
  · rw [List.take_of_length_le (by omega), List.drop_length, List.append_nil]

theorem streamInput_data {lens : Nat → Option Nat} {s s' : Stream α} {n : Nat} {bytes : List α}
    (h : (streamInput lens).read s n = (.data bytes, s')) :
    bytes ++ s'.rest = s.rest ∧ (0 < n → bytes = [] → s.rest = []) := by
  simp only [streamInput] at h
  split at h
  · simp at h
  · rename_i k _
    obtain ⟨hb, rfl⟩ := Prod.mk.inj h
    obtain rfl := ReadResult.data.inj hb
    constructor
    · exact take_append_drop_length s.rest _
    · intro hn hnil
      rcases List.take_eq_nil_iff.mp hnil with hzero | hrest
      · omega
      · exact hrest

end Blkcp.Rust
