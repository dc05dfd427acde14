import Blkcp.Lib.Loop
import Blkcp.Lib.Sparse
import Blkcp.C.Config
set_option autoImplicit false

/-! Buffers, reads and writes of the C program (`io_engine.c`) over any input and output. -/

namespace Blkcp.C
open Blkcp.Lib

abbrev Byte := BitVec 8

inductive Errno where
  | eintr | eagain | einval | enosys | eopnotsupp | exdev | espipe | other (code : Nat)
  deriving DecidableEq

/-- Why a function does not return: a loop without an end, or memory that is not there. -/
inductive Halt where
  | endless
  | undefined
  deriving DecidableEq

abbrev Run (β : Type) := Except Halt β

/-- `read`, with and without `O_DIRECT`; no bytes are the end of the input. `lseek` is from the
current position. -/
structure Input (ρ : Type) where
  read : ρ → Bool → Nat → Except Errno (List Byte) × ρ
  lseek : ρ → Nat → Bool × ρ
  read_le : ∀ {s direct n bytes t}, read s direct n = (.ok bytes, t) → bytes.length ≤ n

/-- The calls made on the output. -/
structure Output (ω : Type) where
  write : ω → Bool → List Byte → Except Errno Nat × ω
  read : ω → Nat → Except Errno (List Byte) × ω
  lseek : ω → Nat → Bool × ω
  isRegular : ω → Bool
  position : ω → Nat
  ftruncate : ω → Nat → Bool × ω
  lseekBack : ω → Bool × ω
  write_le : ∀ {f direct bytes n g}, write f direct bytes = (.ok n, g) → n ≤ bytes.length

/-- A measured rate: bytes in a time. -/
abbrev Rate := Option (Nat × Nat)

/-- What a run depends on besides its files: memory as it is allocated, the clock, the comparison of
rates in floating point, what the hardware prefers, and the fuel of the loops. -/
structure Env where
  pageSize : Nat
  uninit : Nat → Byte
  clock : Nat → Nat
  faster : Rate → Rate → Bool
  optimalIn : Nat
  optimalOut : Nat
  avx2 : Bool
  fuel : Nat

/-- A call of `dd_iwrite`: the buffer, and how much of it was written or passed over. -/
structure Call where
  buf : List Byte
  count : Nat

/-- The output with the record of the calls made on it. -/
structure OutState (ω : Type) where
  file : ω
  finalOpWasSeek : Bool
  calls : List Call

/-- `pending` is `obuf` up to `oc`; with `unified` set `obuf` is `ibuf`. -/
structure Ctx (ρ ω : Type) where
  cfg : Config
  stats : Stats
  input : ρ
  out : OutState ω
  ibuf : List Byte
  unified : Bool
  obufSize : Nat
  pending : List Byte

variable {ρ ω : Type}

/-- What the checksum is updated with: every buffer given to `dd_iwrite`. -/
def OutState.hashed (out : OutState ω) : List Byte := out.calls.flatMap (·.buf)

/-- What was delivered to the output. -/
def OutState.delivered (out : OutState ω) : List Byte :=
  out.calls.flatMap fun c => c.buf.take c.count

def mib : Nat := 1024 * 1024

/-- Whole pages, as `alignalloc` is asked for. -/
def allocSize (env : Env) (size : Nat) : Nat :=
  if env.pageSize > 0 ∧ size % env.pageSize ≠ 0 then
    (size + env.pageSize - 1) / env.pageSize * env.pageSize
  else size

/-- A buffer must hold the largest autotune stage. -/
def bufferBlock (cfg : Config) : Nat :=
  if cfg.conversions.autotune then max cfg.blocksize (4 * mib) else cfg.blocksize

def ddAllocIbuf (env : Env) (ctx : Ctx ρ ω) : Ctx ρ ω :=
  if ctx.ibuf ≠ [] then ctx
  else { ctx with
    ibuf := (List.range (allocSize env (bufferBlock ctx.cfg + 2))).map env.uninit }

def ddAllocObuf (env : Env) (ctx : Ctx ρ ω) : Ctx ρ ω :=
  if ctx.unified ∨ ctx.obufSize ≠ 0 then ctx
  else if ctx.cfg.conversions.swab then
    { ctx with obufSize := allocSize env (bufferBlock ctx.cfg + 2) }
  else if ctx.ibuf ≠ [] then { ctx with unified := true }
  else { ctx with obufSize := allocSize env (bufferBlock ctx.cfg) }

section Loops

variable {β σ : Type}

/-- A loop of the program; without an end it does not return. -/
def loop (env : Env) (body : σ → σ ⊕ Run β) (s : σ) : Run β :=
  match runLoop body env.fuel s with
  | some r => r
  | none => .error .endless

end Loops

section Calls

variable (I : Input ρ) (O : Output ω) (env : Env)

def ddIreadBody (direct : Bool) (size : Nat) (input : ρ) :
    ρ ⊕ Run (Except Errno (List Byte) × ρ) :=
  match I.read input direct size with
  | (.ok bytes, input) => .inr (.ok (.ok bytes, input))
  | (.error e, input) =>
    if e = .eintr then .inl input
    -- the tail of a direct read is read once without `O_DIRECT`, whatever that gives
    else if e = .einval ∧ direct then .inr (.ok (I.read input false size))
    else .inr (.ok (.error e, input))

def ddIread (direct : Bool) (input : ρ) (size : Nat) : Run (Except Errno (List Byte) × ρ) :=
  loop env (ddIreadBody I direct size) input

/-- One round of the write loop: the file and how much of the buffer is written. -/
def ddIwriteBody (direct : Bool) (buf : List Byte) (s : ω × Nat) : (ω × Nat) ⊕ Run (ω × Nat) :=
  if buf.length ≤ s.2 then .inr (.ok s)
  else
    match O.write s.1 direct (buf.drop s.2) with
    | (.ok n, file) => .inl (file, s.2 + n)
    | (.error e, file) =>
      if e = .eintr then .inl (file, s.2)
      else if e = .einval ∧ direct then
        match O.write file false (buf.drop s.2) with
        | (.ok n, file) => if n > 0 then .inl (file, s.2 + n) else .inr (.ok (file, s.2))
        | (.error _, file) => .inr (.ok (file, s.2))
      else .inr (.ok (file, s.2))

def isNul (buf : List Byte) : Bool := buf.all (· == 0)

def OutState.record (out : OutState ω) (file : ω) (wasSeek : Bool) (call : Call) : OutState ω where
  file := file
  finalOpWasSeek := wasSeek
  calls := out.calls ++ [call]

def ddIwriteAll (direct : Bool) (buf : List Byte) (out : OutState ω) : Run (Nat × OutState ω) := do
  let (file, total) ← loop env (ddIwriteBody O direct buf) (out.file, 0)
  return (total, out.record file false ⟨buf, total⟩)

/-- How much of the buffer was written, or passed over. -/
def ddIwrite (cfg : Config) (buf : List Byte) (out : OutState ω) : Run (Nat × OutState ω) :=
  if cfg.conversions.sparse && isNul buf then
    match O.lseek out.file buf.length with
    | (true, file) => .ok (buf.length, out.record file true ⟨buf, buf.length⟩)
    | (false, file) => ddIwriteAll O env cfg.outputFlags.direct buf { out with file := file }
  else ddIwriteAll O env cfg.outputFlags.direct buf out

/-- Counting a write of a block; one that fails part way is not reported further. -/
def countBlock (stats : Stats) (nwritten size : Nat) : Stats :=
  let stats := { stats with wBytes := stats.wBytes + nwritten }
  if nwritten = size then { stats with wFull := stats.wFull + 1 }
  else if nwritten ≠ 0 then { stats with wPartial := stats.wPartial + 1 }
  else stats

def ddWriteOutput (ctx : Ctx ρ ω) : Run (Ctx ρ ω) := do
  let (nwritten, out) ← ddIwrite O env ctx.cfg (ctx.pending.take ctx.cfg.blocksize) ctx.out
  return { ctx with
    out := out
    stats := countBlock ctx.stats nwritten ctx.cfg.blocksize
    pending := [] }

/-- One round of the copy into `obuf`, which must have room for it. -/
def ddCopySimpleBody (s : Ctx ρ ω × List Byte) : (Ctx ρ ω × List Byte) ⊕ Run (Ctx ρ ω) :=
  let (ctx, buf) := s
  if buf = [] then .inr (.ok ctx)
  -- a negative length is a huge one to `memcpy`
  else if ctx.cfg.blocksize < ctx.pending.length then .inr (.error .undefined)
  else
    let copyNow := min (ctx.cfg.blocksize - ctx.pending.length) buf.length
    if ctx.obufSize < ctx.pending.length + copyNow then .inr (.error .undefined)
    else
      let ctx := { ctx with pending := ctx.pending ++ buf.take copyNow }
      let buf := buf.drop copyNow
      if ctx.cfg.blocksize ≤ ctx.pending.length then
        match ddWriteOutput O env ctx with
        | .ok ctx => .inl (ctx, buf)
        | .error h => .inr (.error h)
      else .inl (ctx, buf)

def ddCopySimple (ctx : Ctx ρ ω) (buf : List Byte) : Run (Ctx ρ ω) :=
  if ctx.pending = [] ∧ buf.length = ctx.cfg.blocksize then do
    let (nwritten, out) ← ddIwrite O env ctx.cfg buf ctx.out
    return { ctx with out := out, stats := countBlock ctx.stats nwritten buf.length }
  else loop env (ddCopySimpleBody O env) (ctx, buf)

/-- A file that ends in a hole gets its length, or a last byte if it cannot be set. -/
def finalizeSparse (ctx : Ctx ρ ω) : Ctx ρ ω :=
  if ctx.out.finalOpWasSeek then
    let file := ctx.out.file
    let file :=
      if O.isRegular file ∧ 0 < O.position file then
        match O.ftruncate file (O.position file) with
        | (true, file) => file
        | (false, file) =>
          match O.lseekBack file with
          | (true, file) => (O.write file ctx.cfg.outputFlags.direct [0]).2
          | (false, file) => file
      else file
    { ctx with out := { ctx.out with file := file, finalOpWasSeek := false } }
  else ctx

end Calls

end Blkcp.C
