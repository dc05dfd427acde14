import Blkcp.C.FileEffect
import Blkcp.C.SyncFlow
set_option autoImplicit false

/-! All that a step of the synchronous driver can do, and the room in its buffers. -/

namespace Blkcp.C
open Blkcp.Lib

variable {ρ ω : Type} {I : Input ρ} {O : Output ω} {env : Env}
variable {ctx ctx' : Ctx ρ ω} {st st' : SyncState} {e : StepEnd}

section Tuning

/-- What a call of the tuning does: nothing, or counting; or it goes on to the next stage, or ends
with the stage it found to be the fastest. -/
inductive Ticked (env : Env) (ctx : Ctx ρ ω) (st : SyncState) : Ctx ρ ω → SyncState → Prop where
  | off : st.autotune.active = false → Ticked env ctx st ctx st
  | counts {done : Nat} : st.autotune.active = true → Ticked env ctx st ctx { st with
      autotune := { st.autotune with stageBlocksDone := done }, ticks := st.ticks + 1 }
  | next {tuning : Autotune} {ticks : Nat} : st.autotune.active = true →
      st.autotune.currentStage + 1 < numAutotuneStages → tuning.active = true →
      tuning.currentStage = st.autotune.currentStage + 1 →
      tuning.totalByteLimit = st.autotune.totalByteLimit →
      Ticked env ctx st
        (st.autotune.relimit { ctx with cfg := { ctx.cfg with
          blocksize := autotuneStage (st.autotune.currentStage + 1) } })
        { st with autotune := tuning, ticks := ticks }
  | ends {tuning : Autotune} {ticks : Nat} : st.autotune.active = true → tuning.active = false →
      tuning.currentStage = st.autotune.currentStage + 1 →
      tuning.totalByteLimit = st.autotune.totalByteLimit →
      Ticked env ctx st
        (st.autotune.relimit { ctx with cfg := { ctx.cfg with
          blocksize := autotuneStage (bestStage env tuning.stageRates
            (min tuning.currentStage numAutotuneStages)) } })
        { st with autotune := tuning, ticks := ticks }

theorem autotuneSampleTick_ticked (env : Env) (ctx : Ctx ρ ω) (st : SyncState) :
    Ticked env ctx st (autotuneSampleTick env ctx st).1 (autotuneSampleTick env ctx st).2 := by
  simp only [autotuneSampleTick]
  split
  · rename_i hoff
    exact .off (by simpa using hoff)
  rename_i hon
  have hactive : st.autotune.active = true := by simpa using hon
  split
  · exact .counts hactive
  generalize hrates : (if env.clock st.ticks - st.autotune.stageStartTime > 0 then _ else _) = rates
  split
  · rename_i hnext
    exact .next hactive hnext.1 hactive rfl rfl
  · exact @Ticked.ends _ _ env ctx st { st.autotune with
      stageBlocksDone := st.autotune.stageBlocksDone + 1
      stageRates := rates
      currentStage := st.autotune.currentStage + 1
      active := false } _ hactive rfl rfl rfl

/-- What tuning leaves as it is. -/
structure TuneKeeps (ctx : Ctx ρ ω) (st : SyncState) (ctx' : Ctx ρ ω) (st' : SyncState) : Prop where
  ctx_eq : ∃ bs records bytes, ctx' = { ctx with cfg := { ctx.cfg with
    blocksize := bs, maxRecords := records, maxBytes := bytes } }
  savedByte_eq : st'.savedByte = st.savedByte
  partread_eq : st'.partread = st.partread
  limit_eq : st'.autotune.totalByteLimit = st.autotune.totalByteLimit
  active_of : st'.autotune.active = true → st.autotune.active = true
  off : st.autotune.active = false → ctx'.cfg = ctx.cfg ∧ st' = st

theorem relimit_eq (tuning : Autotune) (ctx : Ctx ρ ω) : ∃ records bytes,
    tuning.relimit ctx =
      { ctx with cfg := { ctx.cfg with maxRecords := records, maxBytes := bytes } } := by
  simp only [Autotune.relimit]
  split
  · split <;> exact ⟨_, _, rfl⟩
  · exact ⟨_, _, rfl⟩

theorem Ticked.keeps (h : Ticked env ctx st ctx' st') : TuneKeeps ctx st ctx' st' := by
  cases h with
  | off hoff => exact ⟨⟨_, _, _, rfl⟩, rfl, rfl, rfl, id, fun _ => ⟨rfl, rfl⟩⟩
  | counts hon => exact ⟨⟨_, _, _, rfl⟩, rfl, rfl, rfl, id, fun hoff => by simp [hon] at hoff⟩
  | @next tuning ticks hon hlt hactive hstage hlimit =>
    refine ⟨?_, rfl, rfl, hlimit, fun _ => hon, fun hoff => by simp [hon] at hoff⟩
    obtain ⟨records, bytes, heq⟩ := relimit_eq st.autotune { ctx with cfg := { ctx.cfg with
      blocksize := autotuneStage (st.autotune.currentStage + 1) } }
    exact ⟨_, records, bytes, heq⟩
  | @ends tuning ticks hon hactive hstage hlimit =>
    refine ⟨?_, rfl, rfl, hlimit, fun _ => hon, fun hoff => by simp [hon] at hoff⟩
    obtain ⟨records, bytes, heq⟩ := relimit_eq st.autotune { ctx with cfg := { ctx.cfg with
      blocksize := autotuneStage (bestStage env tuning.stageRates
        (min tuning.currentStage numAutotuneStages)) } }
    exact ⟨_, records, bytes, heq⟩

theorem autotuneStage_le {i : Nat} (h : i < numAutotuneStages) : autotuneStage i ≤ 4 * mib := by
  match i, h with
  | 0, _ => decide
  | 1, _ => decide
  | 2, _ => decide
  | 3, _ => decide

theorem lastStage_lt (env : Env) (rates : List Rate) {stage : Nat} (h : 0 < stage) :
    bestStage env rates (min stage numAutotuneStages) < numAutotuneStages := by
  have hpos : 0 < min stage numAutotuneStages := Nat.lt_min.mpr ⟨h, by decide⟩
  exact Nat.lt_of_lt_of_le (bestStage_lt rates hpos) (Nat.min_le_right _ _)

/-- The block sizes that tuning chooses. -/
theorem Ticked.blocksize (h : Ticked env ctx st ctx' st') :
    ctx'.cfg.blocksize = ctx.cfg.blocksize ∨ st.autotune.active = true ∧
      0 < ctx'.cfg.blocksize ∧ ctx'.cfg.blocksize ≤ 4 * mib := by
  cases h with
  | off => exact .inl rfl
  | counts => exact .inl rfl
  | @next tuning ticks hon hlt =>
    obtain ⟨records, bytes, heq⟩ := relimit_eq st.autotune { ctx with cfg := { ctx.cfg with
      blocksize := autotuneStage (st.autotune.currentStage + 1) } }
    rw [heq]
    exact .inr ⟨hon, autotuneStage_pos hlt, autotuneStage_le hlt⟩
  | @ends tuning ticks hon hactive hstage =>
    obtain ⟨records, bytes, heq⟩ := relimit_eq st.autotune { ctx with cfg := { ctx.cfg with
      blocksize := autotuneStage (bestStage env tuning.stageRates
        (min tuning.currentStage numAutotuneStages)) } }
    have hlt := lastStage_lt env tuning.stageRates (show 0 < tuning.currentStage by omega)
    rw [heq]
    exact .inr ⟨hon, autotuneStage_pos hlt, autotuneStage_le hlt⟩

end Tuning

section Steps

/-- A block of `n` bytes is handed on: written at once, or swapped and copied to `obuf`. -/
inductive Handed (O : Output ω) (env : Env) (ctx : Ctx ρ ω) (st : SyncState) (n : Nat) :
    StepEnd → Ctx ρ ω → SyncState → Prop where
  | short {nwritten : Nat} {out : OutState ω} : ctx.unified = true →
      Written O (ctx.ibuf.take n) nwritten ctx.out out → nwritten ≠ n →
      Handed O env ctx st n .failure { ctx with
        out := out, stats := { ctx.stats with wBytes := ctx.stats.wBytes + nwritten } } st
  | direct {out : OutState ω} {stats : Stats} {ctx' : Ctx ρ ω} {st' : SyncState} :
      ctx.unified = true → Written O (ctx.ibuf.take n) n ctx.out out →
      stats.wBytes = ctx.stats.wBytes + n → stats.rFull = ctx.stats.rFull →
      stats.rPartial = ctx.stats.rPartial →
      Ticked env { ctx with out := out, stats := stats } st ctx' st' →
      Handed O env ctx st n .again ctx' st'
  | copied {ibuf : List Byte} {n' : Nat} {saved : Option Byte} {ctx₁ ctx' : Ctx ρ ω}
      {st' : SyncState} : ctx.unified = false →
      (if ctx.cfg.conversions.swab then ddSwabBuffer env.avx2 ctx.ibuf n st.savedByte
        else (ctx.ibuf, n, st.savedByte)) = (ibuf, n', saved) →
      Reblocked O { ctx with ibuf := ibuf } ctx₁ (ibuf.take n') →
      Ticked env ctx₁ { st with savedByte := saved } ctx' st' →
      Handed O env ctx st n .again ctx' st'

theorem emitBlock_handed {n : Nat} (h : emitBlock O env ctx st n = .ok (e, ctx', st')) :
    Handed O env ctx st n e ctx' st' := by
  rw [emitBlock] at h
  split at h
  · rename_i hunified
    simp only [bind_ok] at h
    obtain ⟨⟨nwritten, out⟩, hcall, h⟩ := h
    have hw := ddIwrite_written hcall
    simp only at h
    split at h
    · rename_i hne
      obtain ⟨rfl, rfl, rfl⟩ : .failure = e ∧ _ = ctx' ∧ st = st' := by simpa [pure_ok] using h
      exact .short hunified hw hne
    · rename_i heq
      obtain rfl := not_not.mp heq
      simp only [pure_ok, Prod.mk.injEq] at h
      obtain ⟨rfl, rfl, rfl⟩ := h
      refine .direct hunified hw ?_ ?_ ?_ (autotuneSampleTick_ticked env _ st)
      all_goals split <;> rfl
  · rename_i hunified
    simp only [bind_ok, pure_ok, Prod.mk.injEq] at h
    obtain ⟨ctx₁, hcopy, rfl, rfl, rfl⟩ := h
    exact .copied (Bool.not_eq_true _ ▸ hunified) rfl (ddCopySimple_reblocked hcopy)
      (autotuneSampleTick_ticked env _ _)

/-- The limit of the driver is reached. -/
def SyncState.full (st : SyncState) (stats : Stats) : Prop :=
  ∃ limit, st.autotune.totalByteLimit = some limit ∧ limit ≤ stats.wBytes

/-- The next read of the driver. -/
def SyncReads (I : Input ρ) (env : Env) (ctx : Ctx ρ ω) (st : SyncState)
    (r : Except Errno (List Byte)) (input : ρ) : Prop :=
  ddIread I env ctx.cfg.inputFlags.direct ctx.input (syncToRead ctx st) = .ok (r, input)

/-- A block of `n` bytes stands in `ibuf`, is padded and handed on. -/
def Blocked (O : Output ω) (env : Env) (ctx : Ctx ρ ω) (st : SyncState) (n : Nat) (e : StepEnd)
    (ctx' : Ctx ρ ω) (st' : SyncState) : Prop :=
  Handed O env (padBlock ctx st n).1 (padBlock ctx st n).2.1 (padBlock ctx st n).2.2 e ctx' st'

/-- All that a step does. -/
inductive Stepped (I : Input ρ) (O : Output ω) (env : Env) (ctx : Ctx ρ ω) (st : SyncState) :
    StepEnd → Ctx ρ ω → SyncState → Prop where
  | full : st.full ctx.stats → Stepped I O env ctx st .eof ctx st
  | atEnd {input : ρ} : ¬st.full ctx.stats → SyncReads I env ctx st (.ok []) input →
      Stepped I O env ctx st .eof { ctx with input := input } st
  | block {bytes : List Byte} {input : ρ} {e : StepEnd} {ctx' : Ctx ρ ω} {st' : SyncState} :
      ¬st.full ctx.stats → SyncReads I env ctx st (.ok bytes) input → bytes ≠ [] →
      bytes.length ≤ ctx.ibuf.length →
      Blocked O env { ctx with input := input, ibuf := readInto ctx.ibuf bytes } st bytes.length
        e ctx' st' →
      Stepped I O env ctx st e ctx' st'
  | badBlock {err : Errno} {input : ρ} {e : StepEnd} {ctx' : Ctx ρ ω} {st' : SyncState} :
      ¬st.full ctx.stats → SyncReads I env ctx st (.error err) input →
      ctx.cfg.conversions.noerror = true → ctx.cfg.conversions.sync = true → st.partread = 0 →
      Blocked O env { ctx with input := input } st 0 e ctx' st' →
      Stepped I O env ctx st e ctx' st'
  | passedOver {err : Errno} {input : ρ} : ¬st.full ctx.stats →
      SyncReads I env ctx st (.error err) input → ctx.cfg.conversions.noerror = true →
      ¬(ctx.cfg.conversions.sync = true ∧ st.partread = 0) →
      Stepped I O env ctx st .again { ctx with input := input } st
  | failed {err : Errno} {input : ρ} : ¬st.full ctx.stats →
      SyncReads I env ctx st (.error err) input → ctx.cfg.conversions.noerror = false →
      Stepped I O env ctx st .failure { ctx with input := input } st

theorem full_iff (st : SyncState) (stats : Stats) :
    (st.autotune.totalByteLimit.any fun limit => limit ≤ stats.wBytes) = true ↔ st.full stats := by
  simp [SyncState.full, Option.any_eq_true]

theorem syncDriverStep_stepped (h : syncDriverStep I O env ctx st = .ok (e, ctx', st')) :
    Stepped I O env ctx st e ctx' st' := by
  rw [syncDriverStep] at h
  split at h
  · rename_i hfull
    obtain ⟨rfl, rfl, rfl⟩ : .eof = e ∧ ctx = ctx' ∧ st = st' := by simpa using h
    exact .full ((full_iff st ctx.stats).mp hfull)
  rename_i hfull
  rw [full_iff] at hfull
  simp only [bind_ok] at h
  obtain ⟨⟨r, input⟩, hread, h⟩ := h
  simp only at h
  split at h
  · obtain ⟨rfl, rfl, rfl⟩ : .eof = e ∧ _ = ctx' ∧ st = st' := by simpa [pure_ok] using h
    exact .atEnd hfull hread
  · rename_i bytes hne
    split at h
    · cases h
    · rename_i hroom
      exact .block hfull hread (fun hnil => hne hnil) (Nat.le_of_not_lt hroom) (emitBlock_handed h)
  · rename_i err
    split at h
    · rename_i hnoerror
      split at h
      · rename_i hsync
        exact .badBlock hfull hread hnoerror hsync.1 hsync.2 (emitBlock_handed h)
      · rename_i hsync
        obtain ⟨rfl, rfl, rfl⟩ : .again = e ∧ _ = ctx' ∧ st = st' := by simpa [pure_ok] using h
        exact .passedOver hfull hread hnoerror hsync
    · rename_i hnoerror
      obtain ⟨rfl, rfl, rfl⟩ : .failure = e ∧ _ = ctx' ∧ st = st' := by simpa [pure_ok] using h
      exact .failed hfull hread (by simpa using hnoerror)

/-- Counting a block, and padding it. -/
structure PadKeeps (ctx : Ctx ρ ω) (st : SyncState) (ctx' : Ctx ρ ω) (st' : SyncState) : Prop where
  ctx_eq : ∃ ibuf stats, ctx' = { ctx with ibuf := ibuf, stats := stats }
  st_eq : ∃ partread, st' = { st with partread := partread }
  ibuf_length : ctx.cfg.blocksize ≤ ctx.ibuf.length → ctx'.ibuf.length = ctx.ibuf.length
  wBytes_eq : ctx'.stats.wBytes = ctx.stats.wBytes
  records_eq : ctx'.stats.rFull + ctx'.stats.rPartial = ctx.stats.rFull + ctx.stats.rPartial + 1

theorem padBlock_keeps (ctx : Ctx ρ ω) (st : SyncState) (n : Nat) :
    PadKeeps ctx st (padBlock ctx st n).1 (padBlock ctx st n).2.1 := by
  simp only [padBlock]
  split
  · split
    · refine ⟨⟨_, _, rfl⟩, ⟨_, rfl⟩, fun hle => ?_, rfl, (Nat.add_assoc _ _ _).symm⟩
      simp only
      split
      · rfl
      · simp only [List.length_append, List.length_take, List.length_replicate, List.length_drop]
        omega
    · exact ⟨⟨_, _, rfl⟩, ⟨_, rfl⟩, fun _ => rfl, rfl, (Nat.add_assoc _ _ _).symm⟩
  · exact ⟨⟨_, _, rfl⟩, ⟨_, rfl⟩, fun _ => rfl, rfl, Nat.add_right_comm _ _ _⟩

theorem padBlock_of_not_sync (hsync : ctx.cfg.conversions.sync = false) (n : Nat) :
    (padBlock ctx st n).1.ibuf = ctx.ibuf ∧ (padBlock ctx st n).2.2 = n := by
  simp only [padBlock, hsync]
  split
  · exact ⟨rfl, rfl⟩
  · exact ⟨rfl, rfl⟩

theorem length_readInto {ibuf bytes : List Byte} (h : bytes.length ≤ ibuf.length) :
    (readInto ibuf bytes).length = ibuf.length := by
  rw [readInto, List.length_append, List.length_drop]
  omega

/-- The room in the buffers: for blocks up to `cap` bytes, which tuning never exceeds. -/
structure Roomy (cap : Nat) (ctx : Ctx ρ ω) (st : SyncState) : Prop where
  block_pos : 0 < ctx.cfg.blocksize
  block_le : ctx.cfg.blocksize ≤ cap
  stages_le : st.autotune.active = true → 4 * mib ≤ cap
  ibuf_length : cap + 2 ≤ ctx.ibuf.length
  obuf_room : ctx.unified = false → cap ≤ ctx.obufSize
  unified_empty : ctx.unified = true → ctx.pending = []
  unified_plain : ctx.unified = true → ctx.cfg.conversions.swab = false

variable {cap : Nat}

theorem Roomy.block_le_ibuf (h : Roomy cap ctx st) : ctx.cfg.blocksize ≤ ctx.ibuf.length := by
  have hcap := h.ibuf_length
  have hle := h.block_le
  omega

theorem Roomy.of_ibuf (h : Roomy cap ctx st) {input : ρ} {ibuf : List Byte} {stats : Stats}
    {partread : Nat} (hlen : ibuf.length = ctx.ibuf.length) :
    Roomy cap { ctx with input := input, ibuf := ibuf, stats := stats }
      { st with partread := partread } :=
  ⟨h.block_pos, h.block_le, h.stages_le, hlen ▸ h.ibuf_length, h.obuf_room, h.unified_empty,
    h.unified_plain⟩

theorem Roomy.pad (h : Roomy cap ctx st) (n : Nat) :
    Roomy cap (padBlock ctx st n).1 (padBlock ctx st n).2.1 := by
  have hpad := padBlock_keeps ctx st n
  have hlen := hpad.ibuf_length h.block_le_ibuf
  obtain ⟨ibuf, stats, hctx⟩ := hpad.ctx_eq
  obtain ⟨partread, hst⟩ := hpad.st_eq
  rw [hctx] at hlen ⊢
  rw [hst]
  exact h.of_ibuf hlen

theorem Roomy.tick (h : Roomy cap ctx st) (ht : Ticked env ctx st ctx' st') :
    Roomy cap ctx' st' := by
  have hkeeps := ht.keeps
  have hblock := ht.blocksize
  obtain ⟨bs, records, bytes, rfl⟩ := hkeeps.ctx_eq
  refine ⟨?_, ?_, fun hon => h.stages_le (hkeeps.active_of hon), h.ibuf_length, h.obuf_room,
    h.unified_empty, h.unified_plain⟩
  · rcases hblock with heq | ⟨-, hpos, -⟩
    · rw [heq]
      exact h.block_pos
    · exact hpos
  · rcases hblock with heq | ⟨hon, -, hle⟩
    · rw [heq]
      exact h.block_le
    · exact Nat.le_trans hle (h.stages_le hon)

/-- A copy to `obuf` keeps the room. -/
theorem Roomy.copied (h : Roomy cap ctx st) (hsplit : ctx.unified = false) {bytes : List Byte}
    (hr : Reblocked O ctx ctx' bytes) : Roomy cap ctx' st := by
  obtain ⟨hcfg, -, hibuf, hunified, hobuf, -, -⟩ := hr.kept
  have hno : ctx'.unified ≠ true := by simp [hunified, hsplit]
  refine ⟨?_, ?_, h.stages_le, ?_, ?_, fun hu => absurd hu hno, fun hu => absurd hu hno⟩
  · rw [hcfg]
    exact h.block_pos
  · rw [hcfg]
    exact h.block_le
  · rw [hibuf]
    exact h.ibuf_length
  · rw [hunified, hobuf]
    exact h.obuf_room

theorem length_swabbed {ibuf : List Byte} {n n' : Nat} {swab : Bool} {saved saved' : Option Byte}
    {ibuf' : List Byte}
    (h : (if swab then ddSwabBuffer env.avx2 ibuf n saved else (ibuf, n, saved)) =
      (ibuf', n', saved')) : ibuf'.length = ibuf.length := by
  split at h
  · have hlen := length_ddSwabBuffer env.avx2 ibuf n saved
    rwa [h] at hlen
  · rw [(Prod.mk.inj h).1]

theorem Roomy.handed (h : Roomy cap ctx st) {n : Nat} (hh : Handed O env ctx st n e ctx' st') :
    Roomy cap ctx' st' := by
  cases hh with
  | short hunified hw hne =>
    exact ⟨h.block_pos, h.block_le, h.stages_le, h.ibuf_length, h.obuf_room, h.unified_empty,
      h.unified_plain⟩
  | @direct out stats _ _ hunified hw hbytes hfull hpartial ht =>
    have h₁ : Roomy cap { ctx with out := out, stats := stats } st :=
      ⟨h.block_pos, h.block_le, h.stages_le, h.ibuf_length, h.obuf_room, h.unified_empty,
        h.unified_plain⟩
    exact h₁.tick ht
  | @copied ibuf n' saved ctx₁ _ _ hunified hswab hr ht =>
    have hlen := length_swabbed hswab
    have h₁ : Roomy cap { ctx with ibuf := ibuf } { st with savedByte := saved } :=
      ⟨h.block_pos, h.block_le, h.stages_le, hlen ▸ h.ibuf_length, h.obuf_room, h.unified_empty,
        h.unified_plain⟩
    exact (h₁.copied hunified hr).tick ht

theorem Roomy.step (h : Roomy cap ctx st) (hs : Stepped I O env ctx st e ctx' st') :
    Roomy cap ctx' st' := by
  cases hs with
  | full => exact h
  | atEnd hfull hread => exact h.of_ibuf rfl
  | @block bytes input _ _ _ hfull hread hne hroom hblock =>
    have h₁ : Roomy cap { ctx with input := input, ibuf := readInto ctx.ibuf bytes } st :=
      h.of_ibuf (length_readInto hroom)
    exact (h₁.pad bytes.length).handed hblock
  | @badBlock err input _ _ _ hfull hread hnoerror hsync hpart hblock =>
    have h₁ : Roomy cap { ctx with input := input } st := h.of_ibuf rfl
    exact (h₁.pad 0).handed hblock
  | passedOver hfull hread hnoerror => exact h.of_ibuf rfl
  | failed hfull hread hnoerror => exact h.of_ibuf rfl

/-- What handing on a block leaves as it is. -/
structure HandKeeps (O : Output ω) (ctx : Ctx ρ ω) (st : SyncState) (ctx' : Ctx ρ ω)
    (st' : SyncState) : Prop where
  cfg_eq : ∃ bs records bytes, ctx'.cfg =
    { ctx.cfg with blocksize := bs, maxRecords := records, maxBytes := bytes }
  input_eq : ctx'.input = ctx.input
  unified_eq : ctx'.unified = ctx.unified
  records_eq : ctx'.stats.rFull + ctx'.stats.rPartial = ctx.stats.rFull + ctx.stats.rPartial
  counted : Counted O ctx ctx'
  limit_eq : st'.autotune.totalByteLimit = st.autotune.totalByteLimit
  plain : st.autotune.active = false → ctx'.cfg = ctx.cfg ∧ st'.autotune.active = false

theorem Written.counted {n : Nat} {out : OutState ω} {buf : List Byte}
    (hw : Written O buf n ctx.out out) (hout : ctx'.out = out)
    (hbytes : ctx'.stats.wBytes = ctx.stats.wBytes + n) : Counted O ctx ctx' where
  wBytes_eq hacc := by
    rw [hbytes, hout, hw.hashed_eq, List.length_append, hw.whole hacc]
    omega
  delivered_eq hacc heq := by
    rw [hout, hw.delivered_eq, hw.hashed_eq, heq, hw.whole hacc, List.take_length]

theorem Handed.keeps {n : Nat} (h : Handed O env ctx st n e ctx' st') :
    HandKeeps O ctx st ctx' st' := by
  cases h with
  | short hunified hw hne =>
    exact ⟨⟨_, _, _, rfl⟩, rfl, rfl, rfl, hw.counted rfl rfl, rfl, fun hoff => ⟨rfl, hoff⟩⟩
  | @direct out stats _ _ hunified hw hbytes hfull hpartial ht =>
    have hk := ht.keeps
    have hoff := hk.off
    obtain ⟨bs, records, bytes, rfl⟩ := hk.ctx_eq
    refine ⟨⟨bs, records, bytes, rfl⟩, rfl, rfl, ?_, hw.counted rfl hbytes, hk.limit_eq,
      fun h => ?_⟩
    · simp only [hfull, hpartial]
    · obtain ⟨hctx, rfl⟩ := hoff h
      exact ⟨hctx, h⟩
  | @copied ibuf n' saved ctx₁ _ _ hunified hswab hr ht =>
    have hk := ht.keeps
    have hoff := hk.off
    obtain ⟨bs, records, bytes, rfl⟩ := hk.ctx_eq
    have hkept := hr.kept
    refine ⟨⟨bs, records, bytes, ?_⟩, hkept.input_eq, hkept.unified_eq, ?_, ?_, hk.limit_eq,
      fun h => ?_⟩
    · simp only [hkept.cfg_eq]
    · simp only [hkept.rFull_eq, hkept.rPartial_eq]
    · exact ⟨hr.counted.wBytes_eq, hr.counted.delivered_eq⟩
    · obtain ⟨hctx, rfl⟩ := hoff h
      exact ⟨hctx.trans hkept.cfg_eq, h⟩

/-- Without a swap the block is issued as it stands in the buffer. -/
theorem Handed.issued_plain {n : Nat} (h : Handed O env ctx st n e ctx' st')
    (hswab : ctx.cfg.conversions.swab = false) (hempty : ctx.unified = true → ctx.pending = []) :
    ctx'.issued = ctx.issued ++ ctx.ibuf.take n ∧ ctx'.ibuf = ctx.ibuf ∧
      st'.savedByte = st.savedByte ∧ st'.partread = st.partread := by
  have hdirect : ∀ {out : OutState ω} {nwritten : Nat}, ctx.unified = true →
      Written O (ctx.ibuf.take n) nwritten ctx.out out →
      out.hashed ++ ctx.pending = ctx.issued ++ ctx.ibuf.take n := by
    intro out nwritten hunified hw
    rw [Ctx.issued, hw.hashed_eq, hempty hunified, List.append_nil, List.append_nil]
  cases h with
  | short hunified hw hne => exact ⟨hdirect hunified hw, rfl, rfl, rfl⟩
  | @direct out stats _ _ hunified hw hbytes hfull hpartial ht =>
    have hk := ht.keeps
    obtain ⟨bs, records, bytes, rfl⟩ := hk.ctx_eq
    exact ⟨hdirect hunified hw, rfl, hk.savedByte_eq, hk.partread_eq⟩
  | @copied ibuf n' saved ctx₁ _ _ hunified heq hr ht =>
    have hk := ht.keeps
    obtain ⟨bs, records, bytes, rfl⟩ := hk.ctx_eq
    rw [hswab] at heq
    obtain ⟨rfl, hrest⟩ := Prod.mk.inj heq
    obtain ⟨rfl, rfl⟩ := Prod.mk.inj hrest
    exact ⟨hr.issued_eq, hr.kept.ibuf_eq, hk.savedByte_eq, hk.partread_eq⟩

/-- With a swap all complete pairs are issued. -/
theorem Handed.issued_swab {n : Nat} (h : Handed O env ctx st n e ctx' st')
    (hswab : ctx.cfg.conversions.swab = true) (hsplit : ctx.unified = false)
    (hn : n < ctx.ibuf.length) : ∃ even, even.length % 2 = 0 ∧
      st.savedByte.toList ++ ctx.ibuf.take n = even ++ st'.savedByte.toList ∧
      ctx'.issued = ctx.issued ++ swapPairs even := by
  cases h with
  | short hunified => simp [hsplit] at hunified
  | direct hunified => simp [hsplit] at hunified
  | @copied ibuf n' saved ctx₁ _ _ hunified heq hr ht =>
    have hk := ht.keeps
    obtain ⟨bs, records, bytes, rfl⟩ := hk.ctx_eq
    rw [if_pos hswab] at heq
    obtain ⟨even, heven, hsplit, htake, -⟩ := ddSwabBuffer_spec env.avx2 hn heq
    refine ⟨even, heven, ?_, ?_⟩
    · rw [hk.savedByte_eq]
      exact hsplit
    · rw [← swabScalar_eq, ← htake]
      exact hr.issued_eq

/-- With a buffer of its own and no tuning the output is reblocked. -/
theorem Handed.reblocked {n : Nat} (h : Handed O env ctx st n e ctx' st')
    (hsplit : ctx.unified = false) (hoff : st.autotune.active = false) :
    e = .again ∧ ∃ ibuf bytes, Reblocked O { ctx with ibuf := ibuf } ctx' bytes := by
  cases h with
  | short hunified => simp [hsplit] at hunified
  | direct hunified => simp [hsplit] at hunified
  | @copied ibuf n' saved ctx₁ _ _ hunified heq hr ht =>
    cases ht with
    | off => exact ⟨rfl, _, _, hr⟩
    | counts hon => simp [hoff] at hon
    | next hon => simp [hoff] at hon
    | ends hon => simp [hoff] at hon

/-- Without padding a block is counted and handed on. -/
theorem Blocked.unpadded {n : Nat} (h : Blocked O env ctx st n e ctx' st')
    (hsync : ctx.cfg.conversions.sync = false) : ∃ stats partread,
      stats.wBytes = ctx.stats.wBytes ∧
      stats.rFull + stats.rPartial = ctx.stats.rFull + ctx.stats.rPartial + 1 ∧
      Handed O env { ctx with stats := stats } { st with partread := partread } n e ctx' st' := by
  have hpad := padBlock_keeps ctx st n
  obtain ⟨hibuf, hn⟩ := @padBlock_of_not_sync _ _ ctx st hsync n
  have hbytes := hpad.wBytes_eq
  have hrecords := hpad.records_eq
  obtain ⟨ibuf, stats, hctx⟩ := hpad.ctx_eq
  obtain ⟨partread, hst⟩ := hpad.st_eq
  rw [Blocked, hn] at h
  rw [hctx] at h hibuf hbytes hrecords
  rw [hst] at h
  simp only at hibuf
  subst hibuf
  exact ⟨stats, partread, hbytes, hrecords, h⟩

/-- What a step leaves as it is. -/
structure StepKeeps (ctx : Ctx ρ ω) (st : SyncState) (ctx' : Ctx ρ ω) (st' : SyncState) :
    Prop where
  cfg_eq : ∃ bs records bytes, ctx'.cfg =
    { ctx.cfg with blocksize := bs, maxRecords := records, maxBytes := bytes }
  unified_eq : ctx'.unified = ctx.unified
  limit_eq : st'.autotune.totalByteLimit = st.autotune.totalByteLimit
  plain : st.autotune.active = false → ctx'.cfg = ctx.cfg ∧ st'.autotune.active = false

theorem Blocked.keeps {n : Nat} (h : Blocked O env ctx st n e ctx' st') :
    StepKeeps ctx st ctx' st' := by
  have hpad := padBlock_keeps ctx st n
  have hk := Handed.keeps h
  obtain ⟨ibuf, stats, hctx⟩ := hpad.ctx_eq
  obtain ⟨partread, hst⟩ := hpad.st_eq
  rw [hctx, hst] at hk
  exact ⟨hk.cfg_eq, hk.unified_eq, hk.limit_eq, hk.plain⟩

theorem Stepped.keeps (h : Stepped I O env ctx st e ctx' st') : StepKeeps ctx st ctx' st' := by
  have hsame : ∀ input : ρ, StepKeeps ctx st { ctx with input := input } st := fun input =>
    ⟨⟨_, _, _, rfl⟩, rfl, rfl, fun hoff => ⟨rfl, hoff⟩⟩
  cases h with
  | full => exact ⟨⟨_, _, _, rfl⟩, rfl, rfl, fun hoff => ⟨rfl, hoff⟩⟩
  | atEnd => exact hsame _
  | block hfull hread hne hroom hblock =>
    have hk := Blocked.keeps hblock
    exact ⟨hk.cfg_eq, hk.unified_eq, hk.limit_eq, hk.plain⟩
  | badBlock hfull hread hnoerror hsync hpart hblock =>
    have hk := Blocked.keeps hblock
    exact ⟨hk.cfg_eq, hk.unified_eq, hk.limit_eq, hk.plain⟩
  | passedOver => exact hsame _
  | failed => exact hsame _

end Steps

end Blkcp.C
