import Blkcp.C.Source
import Blkcp.C.Reblock
set_option autoImplicit false

/-! How much a tuned copy writes under a byte limit. -/

namespace Blkcp.C
open Blkcp.Lib

variable {ρ ω : Type} {I : Input ρ} {O : Output ω} {env : Env} {cfg : Config}
variable {start ctx ctx' : Ctx ρ ω} {st st' : SyncState} {e : StepEnd} {limit n : Nat}

/-- A copy with tuning, and without a swap and padding, under a byte limit. -/
structure TuneLimited (cfg : Config) (limit : Nat) : Prop where
  block_pos : 0 < cfg.blocksize
  limit_eq : cfg.bytesToCopy = some limit
  seekRecords_eq : cfg.seekRecords = 0
  autotune : cfg.conversions.autotune = true
  swab : cfg.conversions.swab = false
  sync : cfg.conversions.sync = false

/-- The records of the stage are used up, and it has no odd bytes: the next read asks for
nothing. -/
def Spent (ctx : Ctx ρ ω) : Prop :=
  ctx.cfg.maxRecords ≤ ctx.stats.rPartial + ctx.stats.rFull ∧ ctx.cfg.maxBytes = 0

section Start

/-- Without records to seek the output buffer is not allocated before the driver starts. -/
theorem ddCopyStart_obuf {input : ρ} {file : ω} (hseek : cfg.seekRecords = 0)
    (h : ddCopyStart I O env (.start cfg input file) = .ok (none, start)) :
    start.obufSize = 0 := by
  simp only [ddCopyStart, bind_ok] at h
  obtain ⟨ctx₁, hskip, ⟨ok, ctx₂⟩, hout, h⟩ := h
  obtain ⟨input₁, skipBytes, rfl⟩ := skipInput_ctx hskip
  have hobuf : ctx₂.obufSize = 0 := by
    simp only [seekOutput, Ctx.start, hseek] at hout
    split at hout
    · simp only [bind_ok] at hout
      obtain ⟨⟨left, bytes, out⟩, hleft, hout⟩ := hout
      obtain rfl : left = 0 := by
        simp only [skip, skipRecords] at hleft
        repeat' split at hleft
        all_goals simp_all
      simp only [ne_eq, not_true_eq_false, if_false, pure_ok] at hout
      rw [← (Prod.mk.inj hout).2]
    · rw [← (Prod.mk.inj (Except.ok.inj hout)).2]
  simp only at h
  split at h
  · simp [pure_ok] at h
  split at h
  · simp [pure_ok] at h
  obtain ⟨-, rfl⟩ := Prod.mk.inj (pure_ok.mp h)
  exact hobuf

end Start

section Run

variable {rest : ρ → List Byte}

/-- The driver of such a copy: what was taken of the input is delivered. -/
structure TuneAt (cfg : Config) (limit : Nat) (rest : ρ → List Byte) (avail : Nat) (ctx : Ctx ρ ω)
    (st : SyncState) : Prop where
  roomy : Roomy (bufferBlock cfg) ctx st
  cfg_eq : ctx.cfg.conversions = cfg.conversions ∧ ctx.cfg.bytesToCopy = cfg.bytesToCopy
  limit_eq : st.autotune.totalByteLimit = some limit
  unified_eq : ctx.unified = true
  unsaved : st.savedByte = none
  delivered_length : ctx.out.delivered.length = ctx.stats.wBytes
  within : ctx.stats.wBytes ≤ limit
  taken : ctx.stats.wBytes + (rest ctx.input).length = avail

theorem TuneLimited.tuneAt (h : TuneLimited start.cfg limit) (hfresh : Fresh start)
    (hobuf : start.obufSize = 0) (rest : ρ → List Byte) :
    TuneAt start.cfg limit rest (rest start.input).length (syncDriverInit env start).1
      (syncDriverInit env start).2 := by
  have hready := syncDriverInit_ready env hfresh
  have hunified := hready.unified_eq h.swab hobuf
  refine ⟨hready.roomy, ?_, hready.limit_eq _ h.limit_eq, hunified, hready.savedByte_eq, ?_, ?_, ?_⟩
  all_goals obtain ⟨bs, records, bytes, ibuf, unified, obufSize, hctx⟩ := hready.ctx_eq
  all_goals rw [hctx]
  · exact ⟨rfl, rfl⟩
  · simp only [hfresh.stats_eq, OutState.delivered, hfresh.calls_eq]
    rfl
  · simp only [hfresh.stats_eq]
    exact Nat.zero_le _
  · simp only [hfresh.stats_eq]
    exact Nat.zero_add _

/-- A block that is written at once. -/
theorem Handed.delivered (h : Handed O env ctx st n .again ctx' st') (hunified : ctx.unified = true)
    (hn : n ≤ ctx.ibuf.length) :
    ctx'.out.delivered.length = ctx.out.delivered.length + n ∧
      ctx'.stats.wBytes = ctx.stats.wBytes + n ∧ st'.savedByte = st.savedByte ∧
      ctx'.input = ctx.input ∧ ctx'.cfg.bytesToCopy = ctx.cfg.bytesToCopy ∧
      ctx'.cfg.conversions = ctx.cfg.conversions := by
  cases h with
  | @direct out stats _ _ _ hw hbytes hfull hpartial ht =>
    have hkeeps := ht.keeps
    obtain ⟨bs, records, bytes, rfl⟩ := hkeeps.ctx_eq
    refine ⟨?_, hbytes, hkeeps.savedByte_eq, rfl, rfl, rfl⟩
    simp only [hw.delivered_eq, List.length_append, List.length_take]
    omega
  | copied hsplit => simp [hunified] at hsplit

theorem TuneAt.request {avail : Nat} (h : TuneAt cfg limit rest avail ctx st) :
    syncToRead ctx st = min (limit - ctx.stats.wBytes)
      (if ctx.cfg.maxRecords ≤ ctx.stats.rPartial + ctx.stats.rFull then ctx.cfg.maxBytes
        else ctx.cfg.blocksize) := by
  simp only [syncToRead, h.limit_eq]

/-- A step that goes on delivers what it reads. -/
theorem TuneAt.step {avail : Nat} (h : TuneAt cfg limit rest avail ctx st)
    (law : ReadsFrom I rest) (hsync : cfg.conversions.sync = false)
    (hst : Stepped I O env ctx st .again ctx' st') :
    TuneAt cfg limit rest avail ctx' st' := by
  have hroomy := h.roomy.step hst
  have hsync' : ctx.cfg.conversions.sync = false := by rw [h.cfg_eq.1]; exact hsync
  cases hst with
  | @block bytes input _ _ _ hfull hread hne hroom hblock =>
    have htook : Takes rest ctx.input (syncToRead ctx st) bytes input := law.ddIread hread
    have hlimit := hblock.keeps.limit_eq
    have hunified := hblock.keeps.unified_eq
    obtain ⟨stats, partread, hbytes, hrecords, hh⟩ := Blocked.unpadded hblock hsync'
    have hlen : bytes.length ≤ (readInto ctx.ibuf bytes).length := by
      rw [length_readInto hroom]
      exact hroom
    have hd := Handed.delivered hh h.unified_eq hlen
    simp only at hbytes hd
    obtain ⟨hdelivered, hwritten, hsaved, hinput, hto, hconv⟩ := hd
    have hle := htook.length_le
    rw [h.request] at hle
    have hwithin := h.within
    have htaken := h.taken
    rw [htook.rest_eq, List.length_append] at htaken
    refine ⟨hroomy, ⟨hconv.trans h.cfg_eq.1, hto.trans h.cfg_eq.2⟩, hlimit.trans h.limit_eq,
      hunified.trans h.unified_eq, hsaved.trans h.unsaved, ?_, ?_, ?_⟩
    · rw [hdelivered, h.delivered_length, hwritten, hbytes]
    · omega
    · rw [hinput]
      omega
  | badBlock hfull hread hnoerror hs => simp [hsync'] at hs
  | @passedOver err input hfull hread hnoerror =>
    have htook : rest input = rest ctx.input := law.ddIread hread
    exact ⟨hroomy, h.cfg_eq, h.limit_eq, h.unified_eq, h.unsaved, h.delivered_length, h.within,
      by rw [htook]; exact h.taken⟩

theorem TuneAt.of_reaches (hl : TuneLimited start.cfg limit) (hfresh : Fresh start)
    (hobuf : start.obufSize = 0) (law : ReadsFrom I rest) {s : Ctx ρ ω × SyncState}
    (h : SyncReaches I O env start s) :
    TuneAt start.cfg limit rest (rest start.input).length s.1 s.2 :=
  h.invariant (I := fun s => TuneAt start.cfg limit rest (rest start.input).length s.1 s.2)
    (fun _ _ hs hst => hs.step law hl.sync (syncLoopBody_continues hst).2)
    (hl.tuneAt hfresh hobuf rest)

/-- Below the limit with its records spent the driver gets nothing more. -/
theorem TuneAt.stuck {avail : Nat} (h : TuneAt cfg limit rest avail ctx st)
    (hsync : cfg.conversions.sync = false) (hspent : Spent ctx)
    (hst : Stepped I O env ctx st .again ctx' st') :
    Spent ctx' ∧ ctx'.stats.wBytes = ctx.stats.wBytes := by
  cases hst with
  | block hfull hread hne =>
    have hle := ddIread_length hread
    rw [h.request, if_pos hspent.1, hspent.2, Nat.min_zero] at hle
    exact absurd (List.eq_nil_of_length_eq_zero (Nat.le_zero.mp hle)) hne
  | badBlock hfull hread hnoerror hs =>
    rw [h.cfg_eq.1, hsync] at hs
    cases hs
  | passedOver => exact ⟨hspent, rfl⟩

/-- Where the driver stops with success: at the limit, or with its records spent. -/
theorem TuneAt.stopped {avail : Nat} {u t : Ctx ρ ω × SyncState}
    (h : TuneAt cfg limit rest avail u.1 u.2) (hlimit : cfg.bytesToCopy = some limit)
    (hsync : cfg.conversions.sync = false) (law : ReadsFrom I rest) (havail : limit ≤ avail)
    (hleft : Left I O env u .success t) :
    (u.1.stats.wBytes = limit ∨ Spent u.1) ∧ t.1.stats = u.1.stats ∧ t.1.out = u.1.out ∧
      t.1.pending = u.1.pending ∧ t.2.savedByte = u.2.savedByte := by
  have hwithin := h.within
  cases hleft with
  | limit hstop =>
    refine ⟨.inl ?_, rfl, rfl, rfl, rfl⟩
    have hreached : limit ≤ u.1.stats.wBytes := by
      simpa [limitReached, h.cfg_eq.2, hlimit] using hstop
    omega
  | eof hgo hstep =>
    obtain ⟨t, st⟩ := t
    simp only at hstep
    cases hstep with
    | full hfull =>
      obtain ⟨limit', hlimit', hle⟩ := hfull
      obtain rfl := Option.some.inj (h.limit_eq.symm.trans hlimit')
      exact ⟨.inl (by omega), rfl, rfl, rfl, rfl⟩
    | atEnd hfull hread =>
      refine ⟨?_, rfl, rfl, rfl, rfl⟩
      have htook : Takes rest _ _ [] _ := law.ddIread hread
      rcases htook.at_end rfl with hzero | hend
      · rw [h.request] at hzero
        have hpos := h.roomy.block_pos
        split at hzero
        · rename_i hrecords
          by_cases hw : u.1.stats.wBytes = limit
          · exact .inl hw
          · exact .inr ⟨hrecords, by omega⟩
        · exact .inl (by omega)
      · have htaken := h.taken
        rw [hend, List.length_nil] at htaken
        exact .inl (by omega)
    | block hfull hread hne hroom hblock =>
      obtain ⟨stats, partread, -, -, hh⟩ := Blocked.unpadded hblock (by
        simp only [h.cfg_eq.1]
        exact hsync)
      cases hh
    | badBlock hfull hread hnoerror hs =>
      rw [h.cfg_eq.1, hsync] at hs
      cases hs

end Run

section Example

/-- Every read gives one byte, as long as there is one. -/
def byteInput : Input (List Byte) where
  read s _ n := (.ok (s.take (min n 1)), s.drop (min n 1))
  lseek s n := (true, s.drop n)
  read_le h := by
    obtain ⟨h, -⟩ := Prod.mk.inj h
    rw [← Except.ok.inj h]
    exact (List.length_take_le _ _).trans (Nat.min_le_left _ _)

def tuneConfig : Config :=
  { bytesToCopy := some (128 * 1024), conversions := { autotune := true } }

def tuneStart : Ctx (List Byte) (List Byte × Nat) :=
  .start tuneConfig (List.replicate (128 * 1024) 0) ([], 0)

theorem ddIwrite_byte {cfg : Config} (hsparse : cfg.conversions.sparse = false) (b : Byte)
    (out : OutState (List Byte × Nat)) : ∃ file,
    ddIwrite contentOutput (plainEnv 3) cfg [b] out = .ok (1, out.record file false ⟨[b], 1⟩) := by
  simp only [ddIwrite, hsparse, Bool.false_and, Bool.false_eq_true, if_false]
  exact ⟨_, rfl⟩

/-- A block that comes too early to be measured is counted. -/
theorem autotuneSampleTick_counts (env : Env) (ctx : Ctx ρ ω) (st : SyncState)
    (hon : st.autotune.active = true) (hfew : st.autotune.stageBlocksDone + 1 < 4)
    (hearly : env.clock st.ticks - st.autotune.stageStartTime < xtimePrecision / 50) :
    autotuneSampleTick env ctx st = (ctx, { st with
      autotune := { st.autotune with stageBlocksDone := st.autotune.stageBlocksDone + 1 }
      ticks := st.ticks + 1 }) := by
  simp only [autotuneSampleTick, hon, Bool.not_true, Bool.false_eq_true, if_false]
  rw [if_pos ⟨hfew, .inl hearly⟩]

/-- The driver after `k` reads of one byte. -/
structure OneByte (ctx : Ctx (List Byte) (List Byte × Nat)) (k : Nat) : Prop where
  cfg_eq : ctx.cfg = { tuneConfig with blocksize := 64 * 1024, maxRecords := 2, maxBytes := 0 }
  records_eq : ctx.stats.rPartial + ctx.stats.rFull = k
  wBytes_eq : ctx.stats.wBytes = k
  input_eq : ctx.input = List.replicate (128 * 1024 - k) 0
  ibuf_pos : 0 < ctx.ibuf.length
  unified_eq : ctx.unified = true
  pending_eq : ctx.pending = []
  delivered_length : ctx.out.delivered.length = k

def byteTuning (blocksDone : Nat) : Autotune where
  active := true
  currentStage := 0
  stageBlocksDone := blocksDone
  stageStartTime := 0
  stageBytesStart := 0
  stageRates := [none, none, none, none]
  totalByteLimit := some (128 * 1024)

variable {ctx : Ctx (List Byte) (List Byte × Nat)} {k : Nat}

theorem OneByte.goes (h : OneByte ctx k) (hk : k < 128 * 1024) :
    limitReached ctx.cfg ctx.stats = false := by
  rw [h.cfg_eq]
  simp only [limitReached, tuneConfig, h.wBytes_eq]
  exact decide_eq_false (by omega)

theorem OneByte.step (h : OneByte ctx k) (blocksDone partread ticks : Nat) (hk : k < 2)
    (hdone : blocksDone + 1 < 4) :
    ∃ ctx₁, OneByte ctx₁ (k + 1) ∧ syncDriverStep byteInput contentOutput (plainEnv 3) ctx
      ⟨byteTuning blocksDone, partread, none, ticks⟩ =
        .ok (.again, ctx₁, ⟨byteTuning (blocksDone + 1), 1, none, ticks + 1⟩) := by
  have hread : ddIread byteInput (plainEnv 3) ctx.cfg.inputFlags.direct ctx.input
      (syncToRead ctx ⟨byteTuning blocksDone, partread, none, ticks⟩) =
        .ok (.ok [0], List.replicate (128 * 1024 - (k + 1)) (0 : Byte)) := by
    have hrequest : min (syncToRead ctx ⟨byteTuning blocksDone, partread, none, ticks⟩) 1 = 1 := by
      simp only [syncToRead, byteTuning, h.cfg_eq, h.records_eq, h.wBytes_eq,
        if_neg (Nat.not_le.mpr hk)]
      omega
    have hinput : ctx.input = 0 :: List.replicate (128 * 1024 - (k + 1)) (0 : Byte) := by
      rw [h.input_eq, ← List.replicate_succ]
      congr 1
      omega
    simp only [ddIread, loop, plainEnv, runLoop, ddIreadBody, byteInput, hrequest, hinput,
      List.take_succ_cons, List.take_zero, List.drop_succ_cons, List.drop_zero]
  have hpad : padBlock { ctx with
        input := List.replicate (128 * 1024 - (k + 1)) (0 : Byte), ibuf := readInto ctx.ibuf [0] }
      ⟨byteTuning blocksDone, partread, none, ticks⟩ ([0] : List Byte).length =
      ({ ctx with
        input := List.replicate (128 * 1024 - (k + 1)) (0 : Byte), ibuf := readInto ctx.ibuf [0]
        stats := { ctx.stats with rPartial := ctx.stats.rPartial + 1 } },
        ⟨byteTuning blocksDone, 1, none, ticks⟩, 1) := by
    simp only [padBlock, h.cfg_eq, tuneConfig]
    rfl
  have hsparse : ctx.cfg.conversions.sparse = false := by
    rw [h.cfg_eq]
    rfl
  obtain ⟨file, hwrite⟩ := ddIwrite_byte hsparse 0 ctx.out
  have hroom : ¬ctx.ibuf.length < [(0 : Byte)].length := Nat.not_lt.mpr h.ibuf_pos
  have hfull : ¬((128 * 1024 : Nat) ≤ ctx.stats.wBytes) := by
    rw [h.wBytes_eq]
    omega
  have hblock : ¬1 = ctx.cfg.blocksize := by
    rw [h.cfg_eq]
    decide
  refine ⟨{ ctx with
    input := List.replicate (128 * 1024 - (k + 1)) (0 : Byte), ibuf := readInto ctx.ibuf [0]
    out := ctx.out.record file false ⟨[0], 1⟩
    stats := { ctx.stats with
      rPartial := ctx.stats.rPartial + 1, wBytes := ctx.stats.wBytes + 1
      wPartial := ctx.stats.wPartial + 1 } },
    ⟨h.cfg_eq, ?_, ?_, rfl, ?_, h.unified_eq, h.pending_eq, ?_⟩, ?_⟩
  · have hrecords := h.records_eq
    simp only
    omega
  · simp only [h.wBytes_eq]
  · simp [readInto]
  · rw [delivered_record, List.length_append, h.delivered_length]
    rfl
  · have hcounts := autotuneSampleTick_counts (plainEnv 3) { ctx with
      input := List.replicate (128 * 1024 - (k + 1)) (0 : Byte), ibuf := readInto ctx.ibuf [0]
      out := ctx.out.record file false ⟨[0], 1⟩
      stats := { ctx.stats with
        rPartial := ctx.stats.rPartial + 1, wBytes := ctx.stats.wBytes + 1
        wPartial := ctx.stats.wPartial + 1 } } ⟨byteTuning blocksDone, 1, none, ticks⟩ rfl hdone
      (show 0 - 0 < 20000000 by decide)
    rw [syncDriverStep]
    simp only [byteTuning, Option.any_some, decide_eq_true_eq, if_neg hfull]
    simp only [byteTuning] at hread hpad hcounts
    simp only [hread, bind, Except.bind]
    rw [if_neg hroom, hpad, emitBlock, if_pos h.unified_eq]
    have htake : (readInto ctx.ibuf [0]).take 1 = [0] := rfl
    simp only [htake, hwrite, bind, Except.bind, ne_eq, not_true_eq_false, if_false, if_neg hblock]
    rw [hcounts]
    rfl

/-- Then it asks for nothing and ends. -/
theorem OneByte.ends (h : OneByte ctx 2) (blocksDone partread ticks : Nat) : ∃ input,
    syncDriverStep byteInput contentOutput (plainEnv 3) ctx
      ⟨byteTuning blocksDone, partread, none, ticks⟩ =
      .ok (.eof, { ctx with input := input }, ⟨byteTuning blocksDone, partread, none, ticks⟩) := by
  have hrequest : syncToRead ctx ⟨byteTuning blocksDone, partread, none, ticks⟩ = 0 := by
    simp only [syncToRead, byteTuning, h.cfg_eq, h.records_eq, h.wBytes_eq]
    decide
  have hread : ddIread byteInput (plainEnv 3) ctx.cfg.inputFlags.direct ctx.input 0 =
      .ok (.ok [], ctx.input) := rfl
  have hfull : ¬((128 * 1024 : Nat) ≤ ctx.stats.wBytes) := by
    rw [h.wBytes_eq]
    omega
  rw [syncDriverStep, hrequest, hread]
  simp only [byteTuning, Option.any_some, decide_eq_true_eq, if_neg hfull]
  exact ⟨_, rfl⟩

/-- Tuning starts with the records and bytes that the limit is in the first stage. -/
theorem syncDriverInit_tune (env : Env) {ctx ctx₁ : Ctx ρ ω}
    (halloc : ddAllocObuf env (ddAllocIbuf env ctx) = ctx₁)
    (htune : ctx₁.cfg.conversions.autotune = true) (hlimit : ctx₁.cfg.bytesToCopy = some limit)
    {stage : Nat}
    (hstage : firstStage (max env.optimalIn env.optimalOut) numAutotuneStages = stage) :
    syncDriverInit env ctx = ({ ctx₁ with cfg := { ctx₁.cfg with
        blocksize := autotuneStage stage
        maxRecords := limit / autotuneStage stage, maxBytes := limit % autotuneStage stage } },
      { autotune := {
          active := true, currentStage := stage, stageBlocksDone := 0
          stageStartTime := env.clock 0, stageBytesStart := ctx₁.stats.wBytes
          stageRates := [none, none, none, none], totalByteLimit := some limit }
        partread := 0, savedByte := none, ticks := 1 }) := by
  simp only [syncDriverInit, halloc, hstage, htune, hlimit, if_true]

theorem syncTransfer_eq {ctx ctx₁ ctx₂ : Ctx ρ ω} {st : SyncState} {status : ExitStatus}
    (hloop : syncLoop I O env (syncDriverInit env ctx) = .ok (status, ctx₁, st))
    (hflush : syncDriverFlush O env ctx₁ st = .ok ctx₂) :
    syncTransfer I O env ctx = .ok (status, finalizeSparse O ctx₂) := by
  simp only [syncTransfer, bind, Except.bind, hloop, hflush, pure, Except.pure]

theorem ddCopySync_eq {ctx ctx₁ : Ctx ρ ω} (hbegin : ddCopyStart I O env ctx = .ok (none, ctx₁)) :
    ddCopySync I O env ctx = syncTransfer I O env ctx₁ := by
  simp only [ddCopySync, hbegin, bind, Except.bind]

theorem tuneStart_init : ∃ ctx : Ctx (List Byte) (List Byte × Nat), OneByte ctx 0 ∧
    syncDriverInit (plainEnv 3) tuneStart = (ctx, ⟨byteTuning 0, 0, none, 1⟩) := by
  have hfresh : Fresh tuneStart := .start (by decide)
  obtain ⟨unified, obufSize, halloc, -, -, hunified⟩ := alloc_ready (plainEnv 3) hfresh
  have hibuf := length_freshIbuf (plainEnv 3) tuneStart.cfg
  have hpos : 0 < (freshIbuf (plainEnv 3) tuneStart.cfg).length := by omega
  have hstage : firstStage (max (plainEnv 3).optimalIn (plainEnv 3).optimalOut)
      numAutotuneStages = 0 := by decide
  rw [syncDriverInit_tune (plainEnv 3) halloc rfl rfl hstage]
  refine ⟨_, ⟨rfl, rfl, rfl, ?_, ?_, hunified rfl rfl, rfl, rfl⟩, rfl⟩
  · simp only [tuneStart, Ctx.start, Nat.sub_zero]
  · simp only
    exact hpos

/-- Two reads of one byte use up the two records of 64 KiB. -/
theorem tuneStart_run : ∃ ctx, syncTransfer byteInput contentOutput (plainEnv 3) tuneStart =
    .ok (.success, ctx) ∧ ctx.out.delivered.length = 2 := by
  obtain ⟨ctx₀, h₀, hinit⟩ := tuneStart_init
  obtain ⟨ctx₁, h₁, hstep₁⟩ := h₀.step 0 0 1 (by decide) (by decide)
  obtain ⟨ctx₂, h₂, hstep₂⟩ := h₁.step 1 1 2 (by decide) (by decide)
  obtain ⟨input, hends⟩ := h₂.ends 2 1 3
  have hloop : syncLoop byteInput contentOutput (plainEnv 3) (ctx₀, ⟨byteTuning 0, 0, none, 1⟩) =
      .ok (.success, { ctx₂ with input := input }, ⟨byteTuning 2, 1, none, 3⟩) := by
    have hfirst : syncLoopBody byteInput contentOutput (plainEnv 3)
        (ctx₀, ⟨byteTuning 0, 0, none, 1⟩) = .inl (ctx₁, ⟨byteTuning 1, 1, none, 2⟩) :=
      syncLoopBody_again (h₀.goes (by decide)) hstep₁
    have hsecond : syncLoopBody byteInput contentOutput (plainEnv 3)
        (ctx₁, ⟨byteTuning 1, 1, none, 2⟩) = .inl (ctx₂, ⟨byteTuning 2, 1, none, 3⟩) :=
      syncLoopBody_again (h₁.goes (by decide)) hstep₂
    have hlast : syncLoopBody byteInput contentOutput (plainEnv 3)
        (ctx₂, ⟨byteTuning 2, 1, none, 3⟩) =
          .inr (.ok (.success, { ctx₂ with input := input }, ⟨byteTuning 2, 1, none, 3⟩)) := by
      rw [syncLoopBody, if_neg (by rw [h₂.goes (by decide)]; exact Bool.false_ne_true), hends]
    simp only [syncLoop, loop, show (plainEnv 3).fuel = 3 from rfl, runLoop, hfirst, hsecond, hlast]
  have hflush : syncDriverFlush contentOutput (plainEnv 3) { ctx₂ with input := input }
      ⟨byteTuning 2, 1, none, 3⟩ = .ok { ctx₂ with input := input } :=
    syncDriverFlush_nothing rfl h₂.pending_eq
  rw [← hinit] at hloop
  refine ⟨_, syncTransfer_eq hloop hflush, ?_⟩
  rw [finalizeSparse]
  split <;> exact h₂.delivered_length

theorem tuneStart_begin : ddCopyStart byteInput contentOutput (plainEnv 3) tuneStart =
    .ok (none, tuneStart) := rfl

theorem byteInput_readsFrom : ReadsFrom byteInput id where
  data h := by
    obtain ⟨hr, rfl⟩ := Prod.mk.inj h
    obtain rfl := Except.ok.inj hr
    refine ⟨(List.take_append_drop _ _).symm, fun hnil => ?_⟩
    rcases List.take_eq_nil_iff.mp hnil with hzero | hend
    · exact .inl (by omega)
    · exact .inr hend
  error h := nomatch (Prod.mk.inj h).1

end Example

end Blkcp.C
