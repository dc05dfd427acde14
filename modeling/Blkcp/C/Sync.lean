import Blkcp.C.Engine
import Blkcp.C.Swab
set_option autoImplicit false

/-! The synchronous driver (`io_sync.c`) under the central loop of `dd_copy`. -/

namespace Blkcp.C
open Blkcp.Lib

/-- The block sizes that autotuning tries. -/
def autotuneStages : List Nat := [64 * 1024, 256 * 1024, mib, 4 * mib]

def numAutotuneStages : Nat := 4

def autotuneStage (i : Nat) : Nat := autotuneStages.getD i 0

def xtimePrecision : Nat := 1000000000

structure Autotune where
  active : Bool
  currentStage : Nat
  stageBlocksDone : Nat
  stageStartTime : Nat
  stageBytesStart : Nat
  stageRates : List Rate
  totalByteLimit : Option Nat
  deriving DecidableEq

/-- `ticks` is how often the clock was read. -/
structure SyncState where
  autotune : Autotune
  partread : Nat
  savedByte : Option Byte
  ticks : Nat
  deriving DecidableEq

variable {ρ ω : Type}

section Tuning

variable (env : Env)

/-- The record and byte limits for what is left of the byte limit. -/
def Autotune.relimit (tuning : Autotune) (ctx : Ctx ρ ω) : Ctx ρ ω :=
  match tuning.totalByteLimit with
  | some limit =>
    if ctx.stats.wBytes < limit then
      { ctx with cfg := { ctx.cfg with
          maxRecords := ctx.stats.rFull + ctx.stats.rPartial +
            (limit - ctx.stats.wBytes) / ctx.cfg.blocksize
          maxBytes := (limit - ctx.stats.wBytes) % ctx.cfg.blocksize } }
    else ctx
  | none => ctx

/-- Too little is left for the stage. -/
def Autotune.aborts (tuning : Autotune) (stats : Stats) (stage : Nat) : Bool :=
  match tuning.totalByteLimit with
  | some limit => limit ≤ stats.wBytes ∨
      stage < numAutotuneStages ∧ limit - stats.wBytes < autotuneStage stage
  | none => false

/-- The first of the fastest stages. -/
def bestStage (rates : List Rate) (evaluated : Nat) : Nat :=
  (List.range evaluated).foldl
    (fun best s => if env.faster (rates.getD s none) (rates.getD best none) then s else best) 0

def autotuneSampleTick (ctx : Ctx ρ ω) (st : SyncState) : Ctx ρ ω × SyncState :=
  if !st.autotune.active then (ctx, st)
  else
    let blocksDone := st.autotune.stageBlocksDone + 1
    let elapsed := env.clock st.ticks - st.autotune.stageStartTime
    let st := { st with
      autotune := { st.autotune with stageBlocksDone := blocksDone }
      ticks := st.ticks + 1 }
    if blocksDone < 4 ∧ (elapsed < xtimePrecision / 50 ∨ blocksDone < 2) then (ctx, st)
    else
      let transferred := ctx.stats.wBytes - st.autotune.stageBytesStart
      let rates :=
        if elapsed > 0 then
          st.autotune.stageRates.set st.autotune.currentStage (some (transferred, elapsed))
        else st.autotune.stageRates
      let stage := st.autotune.currentStage + 1
      let tuning := { st.autotune with stageRates := rates, currentStage := stage }
      if stage < numAutotuneStages ∧ !tuning.aborts ctx.stats stage then
        let ctx := { ctx with cfg := { ctx.cfg with blocksize := autotuneStage stage } }
        (tuning.relimit ctx,
          { st with
            autotune := { tuning with
              stageBlocksDone := 0
              stageStartTime := env.clock st.ticks
              stageBytesStart := ctx.stats.wBytes }
            ticks := st.ticks + 1 })
      else
        let best := bestStage env rates (min stage numAutotuneStages)
        let ctx := { ctx with cfg := { ctx.cfg with blocksize := autotuneStage best } }
        (tuning.relimit ctx, { st with autotune := { tuning with active := false } })

/-- The first stage that is no smaller than what the hardware prefers. -/
def firstStage (hwMin : Nat) : Nat → Nat
  | 0 => 0
  | n + 1 =>
    let stage := firstStage hwMin n
    if stage = n ∧ autotuneStage n < hwMin ∧ n + 1 < numAutotuneStages then n + 1 else stage

def syncDriverInit (ctx : Ctx ρ ω) : Ctx ρ ω × SyncState :=
  let ctx := ddAllocObuf env (ddAllocIbuf env ctx)
  let totalByteLimit :=
    match ctx.cfg.bytesToCopy with
    | some limit => some limit
    | none =>
      if ctx.cfg.inputFlags.countBytes ∧ ctx.cfg.maxRecords ≠ intmaxMax then
        some (ctx.cfg.maxRecords * ctx.cfg.blocksize + ctx.cfg.maxBytes)
      else none
  let tuning : Autotune := {
    active := ctx.cfg.conversions.autotune
    currentStage := 0
    stageBlocksDone := 0
    stageStartTime := 0
    stageBytesStart := 0
    stageRates := [none, none, none, none]
    totalByteLimit := totalByteLimit }
  if tuning.active then
    let stage := firstStage (max env.optimalIn env.optimalOut) numAutotuneStages
    let cfg := { ctx.cfg with blocksize := autotuneStage stage }
    let cfg :=
      match totalByteLimit with
      | some limit =>
        { cfg with maxRecords := limit / cfg.blocksize, maxBytes := limit % cfg.blocksize }
      | none => cfg
    ({ ctx with cfg := cfg },
      ⟨{ tuning with
        currentStage := stage
        stageStartTime := env.clock 0
        stageBytesStart := ctx.stats.wBytes }, 0, none, 1⟩)
  else (ctx, ⟨tuning, 0, none, 0⟩)

end Tuning

/-- How a step of a driver ends. -/
inductive StepEnd where
  | again | eof | failure
  deriving DecidableEq

section Driver

variable (I : Input ρ) (O : Output ω) (env : Env)

/-- How much the next read asks for. -/
def syncToRead (ctx : Ctx ρ ω) (st : SyncState) : Nat :=
  let toRead :=
    if ctx.cfg.maxRecords ≤ ctx.stats.rPartial + ctx.stats.rFull then ctx.cfg.maxBytes
    else ctx.cfg.blocksize
  match st.autotune.totalByteLimit with
  | some limit => min (limit - ctx.stats.wBytes) toRead
  | none => toRead

/-- The bytes of a read stand before what the buffer held. -/
def readInto (ibuf bytes : List Byte) : List Byte := bytes ++ ibuf.drop bytes.length

/-- The block in `ibuf` and its length: a short read is counted, and padded with `sync`; after read
errors are passed over the buffer is not cleared. -/
def padBlock (ctx : Ctx ρ ω) (st : SyncState) (n : Nat) : Ctx ρ ω × SyncState × Nat :=
  let bs := ctx.cfg.blocksize
  if n < bs then
    let ctx := { ctx with stats := { ctx.stats with rPartial := ctx.stats.rPartial + 1 } }
    let st := { st with partread := n }
    if ctx.cfg.conversions.sync then
      let ibuf :=
        if ctx.cfg.conversions.noerror then ctx.ibuf
        else ctx.ibuf.take n ++ List.replicate (bs - n) 0 ++ ctx.ibuf.drop bs
      ({ ctx with ibuf := ibuf }, st, bs)
    else (ctx, st, n)
  else
    ({ ctx with stats := { ctx.stats with rFull := ctx.stats.rFull + 1 } },
      { st with partread := 0 }, n)

/-- Writing the `n` bytes of `ibuf`: at once, or swapped and copied together to blocks. -/
def emitBlock (ctx : Ctx ρ ω) (st : SyncState) (n : Nat) :
    Run (StepEnd × Ctx ρ ω × SyncState) :=
  if ctx.unified then do
    let (nwritten, out) ← ddIwrite O env ctx.cfg (ctx.ibuf.take n) ctx.out
    let ctx := { ctx with
      out := out, stats := { ctx.stats with wBytes := ctx.stats.wBytes + nwritten } }
    if nwritten ≠ n then return (.failure, ctx, st)
    else
      let stats :=
        if n = ctx.cfg.blocksize then { ctx.stats with wFull := ctx.stats.wFull + 1 }
        else { ctx.stats with wPartial := ctx.stats.wPartial + 1 }
      let (ctx, st) := autotuneSampleTick env { ctx with stats := stats } st
      return (.again, ctx, st)
  else
    let (ibuf, n, saved) :=
      if ctx.cfg.conversions.swab then ddSwabBuffer env.avx2 ctx.ibuf n st.savedByte
      else (ctx.ibuf, n, st.savedByte)
    let st := { st with savedByte := saved }
    do
      let ctx ← ddCopySimple O env { ctx with ibuf := ibuf } (ibuf.take n)
      let (ctx, st) := autotuneSampleTick env ctx st
      return (.again, ctx, st)

def syncDriverStep (ctx : Ctx ρ ω) (st : SyncState) : Run (StepEnd × Ctx ρ ω × SyncState) :=
  if st.autotune.totalByteLimit.any fun limit => limit ≤ ctx.stats.wBytes then .ok (.eof, ctx, st)
  else do
    let (r, input) ← ddIread I env ctx.cfg.inputFlags.direct ctx.input (syncToRead ctx st)
    let ctx := { ctx with input := input }
    match r with
    | .ok [] => return (.eof, ctx, st)
    | .ok bytes =>
      -- a read beyond the buffer
      if ctx.ibuf.length < bytes.length then .error .undefined
      else
        let (ctx, st, n) :=
          padBlock { ctx with ibuf := readInto ctx.ibuf bytes } st bytes.length
        emitBlock O env ctx st n
    | .error _ =>
      if ctx.cfg.conversions.noerror then
        if ctx.cfg.conversions.sync ∧ st.partread = 0 then
          let (ctx, st, n) := padBlock ctx st 0
          emitBlock O env ctx st n
        else return (.again, ctx, st)
      else return (.failure, ctx, st)

/-- The odd byte at the end of a swapped stream. -/
def flushSaved (ctx : Ctx ρ ω) (st : SyncState) : Run (Ctx ρ ω) :=
  match st.savedByte with
  | some b => ddCopySimple O env ctx [b]
  | none => .ok ctx

def flushPending (ctx : Ctx ρ ω) : Run (Ctx ρ ω) :=
  if ctx.pending = [] then .ok ctx
  else do
    let (nwritten, out) ← ddIwrite O env ctx.cfg ctx.pending ctx.out
    let stats := { ctx.stats with wBytes := ctx.stats.wBytes + nwritten }
    if nwritten ≠ ctx.pending.length then return { ctx with out := out, stats := stats }
    else
      let stats := if nwritten ≠ 0 then { stats with wPartial := stats.wPartial + 1 } else stats
      return { ctx with out := out, stats := stats, pending := [] }

/-- What is pending goes out; its result is not looked at by `dd_copy`. -/
def syncDriverFlush (ctx : Ctx ρ ω) (st : SyncState) : Run (Ctx ρ ω) :=
  flushSaved O env ctx st >>= flushPending O env

/-- The central loop with this driver: the exit status and the state before the flush. -/
def syncLoopBody (s : Ctx ρ ω × SyncState) :
    (Ctx ρ ω × SyncState) ⊕ Run (ExitStatus × Ctx ρ ω × SyncState) :=
  if limitReached s.1.cfg s.1.stats then .inr (.ok (.success, s))
  else
    match syncDriverStep I O env s.1 s.2 with
    | .ok (.again, ctx, st) => .inl (ctx, st)
    | .ok (.eof, ctx, st) => .inr (.ok (.success, ctx, st))
    | .ok (.failure, ctx, st) => .inr (.ok (.failure, ctx, st))
    | .error h => .inr (.error h)

def syncLoop (s : Ctx ρ ω × SyncState) : Run (ExitStatus × Ctx ρ ω × SyncState) :=
  loop env (syncLoopBody I O env) s

/-- `dd_copy` from the initialisation of this driver on. -/
def syncTransfer (ctx : Ctx ρ ω) : Run (ExitStatus × Ctx ρ ω) := do
  let (status, ctx, st) ← syncLoop I O env (syncDriverInit env ctx)
  let ctx ← syncDriverFlush O env ctx st
  return (status, finalizeSparse O ctx)

end Driver

end Blkcp.C
