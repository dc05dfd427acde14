import Blkcp.C.Sync
set_option autoImplicit false

/-! What `dd_copy` does before its driver runs: limits from the command line, the open of the
output, skip and seek. -/

namespace Blkcp.C
open Blkcp.Lib

/-- `-c` (`dd_scanargs`): the records to copy, and the bytes they are if no limit was given. -/
def applyCount (cfg : Config) (count : Option Nat) : Config :=
  match count with
  | none => cfg
  | some count =>
    let cfg := { cfg with maxRecords := count }
    match cfg.bytesToCopy with
    | some _ => cfg
    | none =>
      if count * cfg.blocksize ≤ intmaxMax then
        { cfg with
          bytesToCopy := some (count * cfg.blocksize)
          inputFlags := { cfg.inputFlags with countBytes := true } }
      else cfg

/-- The content of an existing regular output once it is open. -/
def setupOutputStream (cfg : Config) (old : List Byte) : List Byte :=
  if cfg.seekRecords ≠ 0 ∨ cfg.seekBytes ≠ 0 ∨ cfg.conversions.notrunc then old else []

variable {ρ ω : Type}

section Skip

variable {δ : Type} (lseek : δ → Nat → Bool × δ)
  (iread : δ → Nat → Run (Except Errno (List Byte) × δ))

/-- Reading records until there are none left to pass over, or none to read. -/
def skipRecords (blocksize : Nat) : Nat → δ → Run (Nat × δ)
  | 0, d => .ok (0, d)
  | records + 1, d =>
    match iread d blocksize with
    | .error h => .error h
    | .ok (.ok (_ :: _), d) => skipRecords blocksize records d
    | .ok (_, d) => .ok (records + 1, d)

/-- The records and bytes not passed over. The buffer of the reads has one block. -/
def skip (records blocksize bytes : Nat) (d : δ) : Run (Nat × Nat × δ) :=
  match lseek d (records * blocksize + bytes) with
  | (true, d) => .ok (0, 0, d)
  | (false, d) =>
    match skipRecords iread blocksize records d with
    | .error h => .error h
    | .ok (0, d) =>
      if bytes > 0 then
        match iread d bytes with
        | .error h => .error h
        | .ok (.ok data, d) =>
          if blocksize < data.length then .error .undefined else .ok (0, bytes - data.length, d)
        | .ok (.error _, d) => .ok (0, bytes, d)
      else .ok (0, 0, d)
    | .ok (left, d) => .ok (left, bytes, d)

end Skip

section Start

variable (I : Input ρ) (O : Output ω) (env : Env)

/-- `dd_iread` on the output, which is open for writing. -/
def ireadOutput (file : ω) (size : Nat) : Run (Except Errno (List Byte) × ω) :=
  .ok (O.read file size)

/-- Blocks of zeros up to where the output could not be moved to. -/
def fillSeek (cfg : Config) : Nat → OutState ω → Run (Bool × OutState ω)
  | 0, out => .ok (true, out)
  | records + 1, out =>
    let size := if records = 0 ∧ cfg.seekBytes ≠ 0 then cfg.seekBytes else cfg.blocksize
    if cfg.blocksize < size then .error .undefined
    else
      match ddIwrite O env cfg (List.replicate size 0) out with
      | .error h => .error h
      | .ok (nwritten, out) =>
        if nwritten ≠ size then .ok (false, out) else fillSeek cfg records out

def skipInput (ctx : Ctx ρ ω) : Run (Ctx ρ ω) :=
  if ctx.cfg.skipRecords ≠ 0 ∨ ctx.cfg.skipBytes ≠ 0 then do
    let (_, bytes, input) ← skip I.lseek (ddIread I env ctx.cfg.inputFlags.direct)
      ctx.cfg.skipRecords ctx.cfg.blocksize ctx.cfg.skipBytes ctx.input
    return { ctx with input := input, cfg := { ctx.cfg with skipBytes := bytes } }
  else .ok ctx

/-- Whether the output is where it should be. -/
def seekOutput (ctx : Ctx ρ ω) : Run (Bool × Ctx ρ ω) :=
  if ctx.cfg.seekRecords ≠ 0 ∨ ctx.cfg.seekBytes ≠ 0 then do
    let (left, bytes, file) ← skip O.lseek (ireadOutput O)
      ctx.cfg.seekRecords ctx.cfg.blocksize ctx.cfg.seekBytes ctx.out.file
    let ctx := { ctx with
      out := { ctx.out with file := file }, cfg := { ctx.cfg with seekBytes := bytes } }
    if left ≠ 0 then do
      let ctx := ddAllocObuf env ctx
      let (ok, out) ← fillSeek O env ctx.cfg left ctx.out
      return (ok, { ctx with out := out })
    else return (true, ctx)
  else .ok (true, ctx)

/-- Skip and seek; a status is one that `dd_copy` returns with. The checksum begins behind them. -/
def ddCopyStart (ctx : Ctx ρ ω) : Run (Option ExitStatus × Ctx ρ ω) := do
  let ctx ← skipInput I env ctx
  let (ok, ctx) ← seekOutput O env ctx
  if !ok then return (some .failure, ctx)
  else if ctx.cfg.maxRecords = 0 ∧ ctx.cfg.maxBytes = 0 then return (some .success, ctx)
  else return (none, { ctx with out := { ctx.out with calls := [] } })

def Ctx.start (cfg : Config) (input : ρ) (file : ω) : Ctx ρ ω where
  cfg := cfg
  stats := {}
  input := input
  out := ⟨file, false, []⟩
  ibuf := []
  unified := false
  obufSize := 0
  pending := []

/-- `dd_copy` with the synchronous driver. -/
def ddCopySync (ctx : Ctx ρ ω) : Run (ExitStatus × Ctx ρ ω) := do
  let (early, ctx) ← ddCopyStart I O env ctx
  match early with
  | some status => return (status, ctx)
  | none => syncTransfer I O env ctx

end Start

end Blkcp.C
