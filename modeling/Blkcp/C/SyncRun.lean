import Blkcp.C.SyncSteps
set_option autoImplicit false

/-! Runs of the synchronous driver under the central loop: how they begin, go on and end. -/

namespace Blkcp.C
open Blkcp.Lib

variable {ρ ω : Type} {I : Input ρ} {O : Output ω} {env : Env} {cfg : Config}
variable {ctx ctx' : Ctx ρ ω} {st st' : SyncState}

section Start

/-- What `dd_copy` hands to its driver. -/
structure Fresh (ctx : Ctx ρ ω) : Prop where
  block_pos : 0 < ctx.cfg.blocksize
  stats_eq : ctx.stats = {}
  calls_eq : ctx.out.calls = []
  ibuf_eq : ctx.ibuf = []
  pending_eq : ctx.pending = []
  unified_eq : ctx.unified = false
  obuf_room : ctx.obufSize = 0 ∨ bufferBlock ctx.cfg ≤ ctx.obufSize

theorem blocksize_le_bufferBlock (cfg : Config) : cfg.blocksize ≤ bufferBlock cfg := by
  rw [bufferBlock]
  split
  · exact Nat.le_max_left _ _
  · exact Nat.le_refl _

/-- An output buffer of its own has room for a block. -/
theorem ddAllocObuf_room (env : Env) (ctx : Ctx ρ ω)
    (h : ctx.obufSize = 0 ∨ bufferBlock ctx.cfg ≤ ctx.obufSize) :
    (ddAllocObuf env ctx).unified = true ∨
      bufferBlock ctx.cfg ≤ (ddAllocObuf env ctx).obufSize := by
  rw [ddAllocObuf]
  split
  · rename_i hhas
    rcases hhas with hu | hs
    · exact .inl hu
    · exact .inr (h.resolve_left hs)
  split
  · have hle := le_allocSize env (bufferBlock ctx.cfg + 2)
    exact .inr (by simp only; omega)
  split
  · exact .inl rfl
  · exact .inr (le_allocSize env (bufferBlock ctx.cfg))

theorem ddAllocObuf_split (env : Env) (hunified : ctx.unified = false) (hibuf : ctx.ibuf = []) :
    (ddAllocObuf env ctx).unified = false := by
  rw [ddAllocObuf]
  split
  · exact hunified
  split
  · exact hunified
  split
  · rename_i hne
    exact absurd hibuf hne
  · exact hunified

/-- The seek may move the output or fill it, and allocate the buffer for that. -/
theorem seekOutput_ctx {ok : Bool} (h : seekOutput O env ctx = .ok (ok, ctx')) :
    ∃ out seekBytes, ctx' = { ctx with
      out := out, cfg := { ctx.cfg with seekBytes := seekBytes } } ∨
    ctx' = { ddAllocObuf env { ctx with cfg := { ctx.cfg with seekBytes := seekBytes } } with
      out := out } := by
  rw [seekOutput] at h
  split at h
  · simp only [bind_ok] at h
    obtain ⟨⟨left, bytes, file⟩, -, h⟩ := h
    simp only at h
    split at h
    · simp only [bind_ok, pure_ok] at h
      obtain ⟨⟨ok', out⟩, -, h⟩ := h
      obtain ⟨-, rfl⟩ := Prod.mk.inj h
      refine ⟨out, bytes, .inr ?_⟩
      simp only [ddAllocObuf]
      split
      · rfl
      split
      · rfl
      split <;> rfl
    · obtain ⟨-, rfl⟩ := Prod.mk.inj (pure_ok.mp h)
      exact ⟨_, _, .inl rfl⟩
  · obtain ⟨-, rfl⟩ := Prod.mk.inj (Except.ok.inj h)
    exact ⟨_, _, .inl rfl⟩

theorem Fresh.start {input : ρ} {file : ω} (hpos : 0 < cfg.blocksize) :
    Fresh (Ctx.start cfg input file) := ⟨hpos, rfl, rfl, rfl, rfl, rfl, .inl rfl⟩

theorem Fresh.alloc (h : Fresh ctx) : Fresh (ddAllocObuf env ctx) := by
  have hsplit := ddAllocObuf_split env h.unified_eq h.ibuf_eq
  have hroom := ddAllocObuf_room env ctx h.obuf_room
  obtain ⟨unified, obufSize, halloc⟩ := ddAllocObuf_ctx env ctx
  rw [halloc] at hsplit hroom ⊢
  have hle := hroom.resolve_left fun hu => Bool.false_ne_true (hsplit.symm.trans hu)
  exact ⟨h.block_pos, h.stats_eq, h.calls_eq, h.ibuf_eq, h.pending_eq, hsplit, .inr hle⟩

theorem Fresh.out (h : Fresh ctx) {out : OutState ω} (hcalls : out.calls = []) :
    Fresh { ctx with out := out } :=
  ⟨h.block_pos, h.stats_eq, hcalls, h.ibuf_eq, h.pending_eq, h.unified_eq, h.obuf_room⟩

theorem ddCopyStart_fresh {input : ρ} {file : ω} (hpos : 0 < cfg.blocksize)
    (h : ddCopyStart I O env (Ctx.start cfg input file) = .ok (none, ctx)) :
    Fresh ctx ∧ Sought cfg ctx.cfg := by
  simp only [ddCopyStart, bind_ok] at h
  obtain ⟨ctx₁, hskip, ⟨ok, ctx₂⟩, hseek, h⟩ := h
  obtain ⟨input₁, skipBytes, rfl⟩ := skipInput_ctx hskip
  simp only at h
  split at h
  · simp [pure_ok] at h
  split at h
  · simp [pure_ok] at h
  obtain ⟨-, rfl⟩ := Prod.mk.inj (pure_ok.mp h)
  obtain ⟨out, seekBytes, rfl | rfl⟩ := seekOutput_ctx hseek
  · exact ⟨⟨hpos, rfl, rfl, rfl, rfl, rfl, .inl rfl⟩, _, _, rfl⟩
  · have hcfg : (ddAllocObuf env (Ctx.start { cfg with
        skipBytes := skipBytes, seekBytes := seekBytes } input₁ file)).cfg =
          { cfg with skipBytes := skipBytes, seekBytes := seekBytes } := by
      obtain ⟨unified, obufSize, halloc⟩ := ddAllocObuf_ctx env (Ctx.start { cfg with
        skipBytes := skipBytes, seekBytes := seekBytes } input₁ file)
      rw [halloc]
      rfl
    have hfresh : Fresh (Ctx.start { cfg with
        skipBytes := skipBytes, seekBytes := seekBytes } input₁ file) := .start hpos
    exact ⟨hfresh.alloc.out rfl, _, _, hcfg⟩

/-- The driver as it starts. -/
structure Ready (env : Env) (start : Ctx ρ ω) (ctx : Ctx ρ ω) (st : SyncState) : Prop where
  roomy : Roomy (bufferBlock start.cfg) ctx st
  ctx_eq : ∃ bs records bytes ibuf unified obufSize, ctx = { start with
    ibuf := ibuf, unified := unified, obufSize := obufSize
    cfg := { start.cfg with blocksize := bs, maxRecords := records, maxBytes := bytes } }
  ibuf_eq : ctx.ibuf = (List.range (allocSize env (bufferBlock start.cfg + 2))).map env.uninit
  savedByte_eq : st.savedByte = none
  partread_eq : st.partread = 0
  active_eq : st.autotune.active = start.cfg.conversions.autotune
  limit_eq : ∀ limit, start.cfg.bytesToCopy = some limit → st.autotune.totalByteLimit = some limit
  plain : start.cfg.conversions.autotune = false → ctx.cfg = start.cfg
  unified_eq : start.cfg.conversions.swab = false → start.obufSize = 0 → ctx.unified = true

/-- The input buffer as it is allocated. -/
def freshIbuf (env : Env) (cfg : Config) : List Byte :=
  (List.range (allocSize env (bufferBlock cfg + 2))).map env.uninit

theorem length_freshIbuf (env : Env) (cfg : Config) :
    bufferBlock cfg + 2 ≤ (freshIbuf env cfg).length := by
  rw [freshIbuf, List.length_map, List.length_range]
  exact le_allocSize env _

/-- Both buffers are allocated; without a swap they are one, unless there is an output buffer
already. -/
theorem alloc_ready (env : Env) (h : Fresh ctx) : ∃ unified obufSize,
    ddAllocObuf env (ddAllocIbuf env ctx) =
      { ctx with ibuf := freshIbuf env ctx.cfg, unified := unified, obufSize := obufSize } ∧
    (unified = false → bufferBlock ctx.cfg ≤ obufSize) ∧
    (unified = true → ctx.cfg.conversions.swab = false) ∧
    (ctx.cfg.conversions.swab = false → ctx.obufSize = 0 → unified = true) := by
  have hibuf : ddAllocIbuf env ctx = { ctx with ibuf := freshIbuf env ctx.cfg } := by
    rw [ddAllocIbuf, if_neg (not_not.mpr h.ibuf_eq)]
    rfl
  have hne : freshIbuf env ctx.cfg ≠ [] := by
    refine List.ne_nil_of_length_pos ?_
    have hlen := length_freshIbuf env ctx.cfg
    omega
  rw [hibuf]
  simp only [ddAllocObuf, h.unified_eq]
  split
  · rename_i hhas
    have hsize : ctx.obufSize ≠ 0 := hhas.resolve_left Bool.false_ne_true
    exact ⟨false, _, rfl, fun _ => h.obuf_room.resolve_left hsize, (by simp),
      fun _ hzero => absurd hzero hsize⟩
  split
  · rename_i hswab
    have hle := le_allocSize env (bufferBlock ctx.cfg + 2)
    exact ⟨false, _, rfl, fun _ => by omega, (by simp), fun hno => by simp [hswab] at hno⟩
  · rename_i hplain
    exact ⟨true, _, rfl, (by simp), fun _ => by simpa using hplain, fun _ _ => rfl⟩

theorem syncDriverInit_ready (env : Env) (h : Fresh ctx) :
    Ready env ctx (syncDriverInit env ctx).1 (syncDriverInit env ctx).2 := by
  obtain ⟨unified, obufSize, halloc, hroom, hsplit, hunified⟩ := alloc_ready env h
  have hibuf := length_freshIbuf env ctx.cfg
  have hstage : firstStage (max env.optimalIn env.optimalOut) numAutotuneStages <
      numAutotuneStages := firstStage_lt _ _
  have hroomy : ∀ cfg' : Config, 0 < cfg'.blocksize → cfg'.blocksize ≤ bufferBlock ctx.cfg →
      cfg'.conversions.swab = ctx.cfg.conversions.swab → ∀ st : SyncState,
      (st.autotune.active = true → 4 * mib ≤ bufferBlock ctx.cfg) →
      Roomy (bufferBlock ctx.cfg) { ctx with
        cfg := cfg', ibuf := freshIbuf env ctx.cfg, unified := unified, obufSize := obufSize } st := by
    intro cfg' hpos hle hswab st hst
    exact ⟨hpos, hle, hst, hibuf, hroom, fun _ => h.pending_eq, fun hu => by rw [hswab, hsplit hu]⟩
  have hbig : ctx.cfg.conversions.autotune = true → 4 * mib ≤ bufferBlock ctx.cfg := by
    intro htune
    rw [bufferBlock, if_pos htune]
    exact Nat.le_max_right _ _
  simp only [syncDriverInit, halloc]
  split
  · rename_i htune
    have hle := Nat.le_trans (autotuneStage_le hstage) (hbig htune)
    have hpos := autotuneStage_pos hstage
    refine ⟨?_, ?_, rfl, rfl, rfl, rfl, ?_, ?_, hunified⟩
    · simp only
      split
      all_goals
        refine hroomy _ ?_ ?_ ?_ _ fun _ => hbig htune
        · exact hpos
        · exact hle
        · rfl
    · simp only
      split
      · exact ⟨_, _, _, _, _, _, rfl⟩
      · exact ⟨_, _, _, _, _, _, rfl⟩
    · intro limit hlimit
      simp only [hlimit]
    · intro hoff
      simp [htune] at hoff
  · rename_i htune
    refine ⟨?_, ⟨_, _, _, _, _, _, rfl⟩, rfl, rfl, rfl, rfl, ?_, fun _ => rfl, hunified⟩
    · exact hroomy _ h.block_pos (blocksize_le_bufferBlock _) rfl _ fun hon => absurd hon htune
    · intro limit hlimit
      simp only [hlimit]

end Start

section Loop

variable {s t : Ctx ρ ω × SyncState} {status : ExitStatus}

theorem syncLoopBody_continues (h : syncLoopBody I O env s = .inl t) :
    limitReached s.1.cfg s.1.stats = false ∧ Stepped I O env s.1 s.2 .again t.1 t.2 := by
  simp only [syncLoopBody] at h
  split at h
  · cases h
  rename_i hlimit
  split at h
  · rename_i hstep
    obtain rfl := Sum.inl.inj h
    exact ⟨by simpa using hlimit, syncDriverStep_stepped hstep⟩
  all_goals cases h

/-- How the loop is left with a result. -/
inductive Left (I : Input ρ) (O : Output ω) (env : Env) (s : Ctx ρ ω × SyncState) :
    ExitStatus → Ctx ρ ω × SyncState → Prop where
  | limit : limitReached s.1.cfg s.1.stats = true → Left I O env s .success s
  | eof {t : Ctx ρ ω × SyncState} : limitReached s.1.cfg s.1.stats = false →
      Stepped I O env s.1 s.2 .eof t.1 t.2 → Left I O env s .success t
  | failure {t : Ctx ρ ω × SyncState} : limitReached s.1.cfg s.1.stats = false →
      Stepped I O env s.1 s.2 .failure t.1 t.2 → Left I O env s .failure t

theorem syncLoopBody_left (h : syncLoopBody I O env s = .inr (.ok (status, t))) :
    Left I O env s status t := by
  simp only [syncLoopBody] at h
  split at h
  · rename_i hlimit
    obtain ⟨rfl, rfl⟩ := Prod.mk.inj (Except.ok.inj (Sum.inr.inj h))
    exact .limit hlimit
  rename_i hlimit
  split at h
  · cases h
  · rename_i hstep
    obtain ⟨rfl, rfl⟩ := Prod.mk.inj (Except.ok.inj (Sum.inr.inj h))
    exact .eof (by simpa using hlimit) (syncDriverStep_stepped hstep)
  · rename_i hstep
    obtain ⟨rfl, rfl⟩ := Prod.mk.inj (Except.ok.inj (Sum.inr.inj h))
    exact .failure (by simpa using hlimit) (syncDriverStep_stepped hstep)
  · cases Sum.inr.inj h

theorem syncLoop_leaves (h : syncLoop I O env s = .ok (status, t)) :
    ∃ u, Iterates (syncLoopBody I O env) s u ∧ syncLoopBody I O env u = .inr (.ok (status, t)) := by
  simp only [syncLoop, loop] at h
  split at h
  · rename_i hrun
    subst h
    exact iterates_of_runLoop hrun
  · cases h

/-- The states that the driver reaches after its initialisation. -/
def SyncReaches (I : Input ρ) (O : Output ω) (env : Env) (start : Ctx ρ ω)
    (s : Ctx ρ ω × SyncState) : Prop :=
  Iterates (syncLoopBody I O env) (syncDriverInit env start) s

theorem roomy_of_reaches {start : Ctx ρ ω} (hfresh : Fresh start)
    (h : SyncReaches I O env start s) : Roomy (bufferBlock start.cfg) s.1 s.2 :=
  h.invariant (I := fun s => Roomy (bufferBlock start.cfg) s.1 s.2)
    (fun _ _ hs hst => hs.step (syncLoopBody_continues hst).2) (syncDriverInit_ready env hfresh).roomy

/-- The flush gives all that waits to `dd_iwrite`, the odd byte of a swap last. -/
structure Flushed (O : Output ω) (ctx : Ctx ρ ω) (st : SyncState) (ctx' : Ctx ρ ω) : Prop where
  counted : Counted O ctx ctx'
  hashed_eq : ctx'.out.hashed = ctx.issued ++ st.savedByte.toList

theorem flushPending_flushed (h : flushPending O env ctx = .ok ctx') :
    Counted O ctx ctx' ∧ ctx'.out.hashed = ctx.issued := by
  rw [flushPending] at h
  split at h
  · rename_i hnil
    obtain rfl := Except.ok.inj h
    exact ⟨.refl ctx, by rw [Ctx.issued, hnil, List.append_nil]⟩
  · simp only [bind_ok] at h
    obtain ⟨⟨nwritten, out⟩, hcall, h⟩ := h
    have hw := ddIwrite_written hcall
    simp only at h
    split at h
    · obtain rfl := pure_ok.mp h
      exact ⟨hw.counted rfl rfl, hw.hashed_eq⟩
    · obtain rfl := pure_ok.mp h
      refine ⟨hw.counted rfl ?_, hw.hashed_eq⟩
      simp only
      split <;> rfl

theorem syncDriverFlush_flushed (h : syncDriverFlush O env ctx st = .ok ctx') :
    Flushed O ctx st ctx' := by
  obtain ⟨ctx₁, hsaved, h⟩ := bind_ok.mp h
  obtain ⟨hcounted, hhashed⟩ := flushPending_flushed h
  rw [flushSaved] at hsaved
  split at hsaved
  · rename_i b hb
    have hr := ddCopySimple_reblocked hsaved
    exact ⟨hr.counted.trans hcounted, by rw [hhashed, hr.issued_eq, hb]; rfl⟩
  · rename_i hb
    obtain rfl := Except.ok.inj hsaved
    exact ⟨hcounted, by rw [hhashed, hb, Option.toList_none, List.append_nil]⟩

theorem syncDriverFlush_nothing (hsaved : st.savedByte = none) (hpending : ctx.pending = []) :
    syncDriverFlush O env ctx st = .ok ctx := by
  simp only [syncDriverFlush, flushSaved, hsaved, bind, Except.bind, flushPending, hpending,
    if_true]

/-- A transfer that returns has left the loop and made the flush. -/
theorem syncTransfer_left (h : syncTransfer I O env ctx = .ok (status, ctx')) :
    ∃ u t ctx₁, SyncReaches I O env ctx u ∧ syncLoopBody I O env u = .inr (.ok (status, t)) ∧
      syncDriverFlush O env t.1 t.2 = .ok ctx₁ ∧ ctx'.out.calls = ctx₁.out.calls ∧
      ctx'.stats = ctx₁.stats := by
  simp only [syncTransfer, bind_ok] at h
  obtain ⟨⟨status₁, ctx₁, st⟩, hloop, ctx₂, hflush, h⟩ := h
  obtain ⟨rfl, rfl⟩ := Prod.mk.inj (pure_ok.mp h)
  obtain ⟨u, hu, hleave⟩ := syncLoop_leaves hloop
  refine ⟨u, (ctx₁, st), ctx₂, hu, hleave, hflush, ?_⟩
  rw [finalizeSparse]
  split <;> exact ⟨rfl, rfl⟩

/-- A transfer that returns: the loop, the flush, and the end of the file. -/
theorem syncTransfer_flushed (h : syncTransfer I O env ctx = .ok (status, ctx')) :
    ∃ u t ctx₁, SyncReaches I O env ctx u ∧ Left I O env u status t ∧
      Flushed O t.1 t.2 ctx₁ ∧ ctx'.out.calls = ctx₁.out.calls ∧ ctx'.stats = ctx₁.stats := by
  obtain ⟨u, t, ctx₁, hu, hleave, hflush, hcalls, hstats⟩ := syncTransfer_left h
  exact ⟨u, t, ctx₁, hu, syncLoopBody_left hleave, syncDriverFlush_flushed hflush, hcalls, hstats⟩

end Loop

end Blkcp.C
