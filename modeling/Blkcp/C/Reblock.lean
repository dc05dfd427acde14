import Blkcp.C.SyncPad
set_option autoImplicit false

/-! What waits in the output buffer of the synchronous driver while tuning changes the block
size. -/

namespace Blkcp.C
open Blkcp.Lib

variable {ρ ω : Type} {I : Input ρ} {O : Output ω} {env : Env}
variable {start ctx ctx' : Ctx ρ ω} {st st' : SyncState} {e : StepEnd} {cap n : Nat}

section Block

/-- The length of a block of which `n` bytes were read. -/
def blockLength (cfg : Config) (n : Nat) : Nat :=
  if cfg.conversions.sync = true ∧ n < cfg.blocksize then cfg.blocksize else n

/-- How much of a block goes to `obuf`: with a swap the complete pairs. -/
def handsOn (cfg : Config) (saved : Option Byte) (n : Nat) : Nat :=
  if cfg.conversions.swab then
    saved.toList.length + n - (saved.toList.length + n) % 2
  else n

/-- The block size of the stage that was measured to be the fastest. -/
def settledBlock (env : Env) (tuning : Autotune) : Nat :=
  autotuneStage (bestStage env tuning.stageRates (min tuning.currentStage numAutotuneStages))

/-- A block of `n` bytes does not end the tuning, or ends it with a block size above what will
wait. -/
def Fits (env : Env) (ctx : Ctx ρ ω) (st : SyncState) (n : Nat) (st' : SyncState) : Prop :=
  ctx.unified = true ∨ st.autotune.active = false ∨ st'.autotune.active = true ∨
    (ctx.pending.length + handsOn ctx.cfg st.savedByte n) % ctx.cfg.blocksize <
      settledBlock env st'.autotune

/-- A step of the driver, given what it reads, fits in this sense. -/
def Settles (I : Input ρ) (env : Env) (s t : Ctx ρ ω × SyncState) : Prop :=
  Fits env s.1 s.2 (blockLength s.1.cfg (readOf I env s).flatten.length) t.2

end Block

section Buffers

/-- What holds of the driver whether or not it stays within its buffer. -/
structure Tuned (cap : Nat) (ctx : Ctx ρ ω) (st : SyncState) : Prop where
  roomy : Roomy cap ctx st
  maxBytes_le : ctx.cfg.maxBytes ≤ cap
  stage : st.autotune.active = true → st.autotune.currentStage < numAutotuneStages ∧
    ctx.cfg.blocksize = autotuneStage st.autotune.currentStage
  unsaved : ctx.unified = true → st.savedByte = none

theorem relimit_maxBytes (tuning : Autotune) (ctx : Ctx ρ ω) (hpos : 0 < ctx.cfg.blocksize) :
    (tuning.relimit ctx).cfg.maxBytes = ctx.cfg.maxBytes ∨
      (tuning.relimit ctx).cfg.maxBytes < ctx.cfg.blocksize := by
  simp only [Autotune.relimit]
  split
  · split
    · exact .inr (Nat.mod_lt _ hpos)
    · exact .inl rfl
  · exact .inl rfl

theorem relimit_blocksize (tuning : Autotune) (ctx : Ctx ρ ω) :
    (tuning.relimit ctx).cfg.blocksize = ctx.cfg.blocksize ∧
      (tuning.relimit ctx).pending = ctx.pending := by
  obtain ⟨records, bytes, heq⟩ := relimit_eq tuning ctx
  rw [heq]
  exact ⟨rfl, rfl⟩

theorem Ticked.maxBytes_le (h : Ticked env ctx st ctx' st') (hle : ctx.cfg.maxBytes ≤ cap)
    (hblock : ctx'.cfg.blocksize ≤ cap) (hpos : 0 < ctx'.cfg.blocksize) :
    ctx'.cfg.maxBytes ≤ cap := by
  have hrelimit : ∀ ctx₁ : Ctx ρ ω, ctx₁.cfg.maxBytes = ctx.cfg.maxBytes →
      (st.autotune.relimit ctx₁).cfg.blocksize ≤ cap →
      0 < (st.autotune.relimit ctx₁).cfg.blocksize →
      (st.autotune.relimit ctx₁).cfg.maxBytes ≤ cap := by
    intro ctx₁ hsame hblock hpos
    rw [(relimit_blocksize _ _).1] at hblock hpos
    rcases relimit_maxBytes st.autotune ctx₁ hpos with heq | hlt
    · rw [heq, hsame]
      exact hle
    · omega
  cases h with
  | off => exact hle
  | counts => exact hle
  | next => exact hrelimit _ rfl hblock hpos
  | ends => exact hrelimit _ rfl hblock hpos

theorem Tuned.tick (h : Tuned cap ctx st) (ht : Ticked env ctx st ctx' st') :
    Tuned cap ctx' st' := by
  have hroomy := h.roomy.tick ht
  have hkeeps := ht.keeps
  refine ⟨hroomy, ht.maxBytes_le h.maxBytes_le hroomy.block_le hroomy.block_pos, fun hon => ?_,
    fun hu => ?_⟩
  rotate_left
  · obtain ⟨_, _, _, rfl⟩ := hkeeps.ctx_eq
    rw [hkeeps.savedByte_eq]
    exact h.unsaved hu
  cases ht with
  | off hoff => exact h.stage hon
  | counts hactive => exact h.stage hon
  | next hactive hlt htuning hstage =>
    simp only [(relimit_blocksize _ _).1, hstage]
    exact ⟨hlt, trivial⟩
  | ends hactive hoff => exact absurd (hoff.symm.trans hon) Bool.false_ne_true

/-- The stages grow. -/
theorem autotuneStage_lt {i : Nat} (h : i + 1 < numAutotuneStages) :
    autotuneStage i < autotuneStage (i + 1) := by
  match i, h with
  | 0, _ => decide
  | 1, _ => decide
  | 2, _ => decide

/-- What waits goes below the block size, unless tuning ends with a smaller one. -/
theorem Ticked.pending_lt_iff (h : Ticked env ctx st ctx' st') (ht : Tuned cap ctx st)
    (hlt : ctx.pending.length < ctx.cfg.blocksize) :
    ctx'.pending.length < ctx'.cfg.blocksize ↔ st.autotune.active = false ∨
      st'.autotune.active = true ∨ ctx.pending.length < settledBlock env st'.autotune := by
  cases h with
  | off hoff => exact ⟨fun _ => .inl hoff, fun _ => hlt⟩
  | counts hon => exact ⟨fun _ => .inr (.inl hon), fun _ => hlt⟩
  | next hon hnext hactive =>
    refine ⟨fun _ => .inr (.inl hactive), fun _ => ?_⟩
    rw [(relimit_blocksize _ _).1, (relimit_blocksize _ _).2]
    have hstage := (ht.stage hon).2
    have hgrow := autotuneStage_lt hnext
    simp only
    omega
  | ends hon hoff =>
    rw [(relimit_blocksize _ _).1, (relimit_blocksize _ _).2]
    simp only [hon, hoff, settledBlock, Bool.true_eq_false, Bool.false_eq_true, false_or]

/-- What waits after a copy to `obuf`. -/
theorem Reblocked.pending_eq {bytes : List Byte} (h : Reblocked O ctx ctx' bytes)
    (hlt : ctx.pending.length < ctx.cfg.blocksize) :
    ctx'.pending.length = (ctx.pending.length + bytes.length) % ctx.cfg.blocksize := by
  obtain ⟨k, hk⟩ := h.blocks
  have hissued := congrArg List.length h.issued_eq
  simp only [Ctx.issued, List.length_append, hk] at hissued
  have hsum : ctx.pending.length + bytes.length =
      ctx'.pending.length + ctx.cfg.blocksize * k := by
    rw [Nat.mul_comm]
    omega
  rw [hsum, Nat.add_mul_mod_self_left, Nat.mod_eq_of_lt (h.pending_lt hlt)]

theorem length_handsOn {ibuf : List Byte} {n' : Nat} {saved : Option Byte}
    (hn : n < ctx.ibuf.length)
    (h : (if ctx.cfg.conversions.swab then ddSwabBuffer env.avx2 ctx.ibuf n st.savedByte
      else (ctx.ibuf, n, st.savedByte)) = (ibuf, n', saved)) :
    (ibuf.take n').length = handsOn ctx.cfg st.savedByte n := by
  rw [handsOn]
  split at h
  · rename_i hswab
    obtain ⟨even, heven, hcarry, htake, -⟩ := ddSwabBuffer_spec env.avx2 hn h
    have hlength := congrArg List.length hcarry
    simp only [List.length_append, List.length_take] at hlength
    have hsaved : saved.toList.length ≤ 1 := by cases saved <;> simp
    rw [if_pos hswab, htake, swabScalar_eq, length_swapPairs]
    omega
  · rename_i hplain
    obtain ⟨rfl, hrest⟩ := Prod.mk.inj h
    obtain ⟨rfl, -⟩ := Prod.mk.inj hrest
    rw [if_neg hplain, List.length_take]
    omega

theorem Tuned.of_ibuf (h : Tuned cap ctx st) {input : ρ} {ibuf : List Byte} {stats : Stats}
    {partread : Nat} (hlen : ibuf.length = ctx.ibuf.length) :
    Tuned cap { ctx with input := input, ibuf := ibuf, stats := stats }
      { st with partread := partread } :=
  ⟨h.roomy.of_ibuf hlen, h.maxBytes_le, h.stage, h.unsaved⟩

/-- A block handed on leaves less than a block waiting exactly where it fits. -/
theorem Handed.pending_lt_iff (h : Handed O env ctx st n e ctx' st') (ht : Tuned cap ctx st)
    (hlt : ctx.pending.length < ctx.cfg.blocksize) (hn : n < ctx.ibuf.length) :
    Tuned cap ctx' st' ∧
      (ctx'.pending.length < ctx'.cfg.blocksize ↔ Fits env ctx st n st') := by
  cases h with
  | short hunified hw hne =>
    have hroomy := ht.roomy.handed (@Handed.short _ _ O env ctx st n _ _ hunified hw hne)
    exact ⟨⟨hroomy, ht.maxBytes_le, ht.stage, ht.unsaved⟩, fun _ => .inl hunified, fun _ => hlt⟩
  | @direct out stats _ _ hunified hw hbytes hfull hpartial htick =>
    have ht₁ : Tuned cap { ctx with out := out, stats := stats } st :=
      ⟨⟨ht.roomy.block_pos, ht.roomy.block_le, ht.roomy.stages_le, ht.roomy.ibuf_length,
        ht.roomy.obuf_room, ht.roomy.unified_empty, ht.roomy.unified_plain⟩,
        ht.maxBytes_le, ht.stage, ht.unsaved⟩
    have ht' := ht₁.tick htick
    refine ⟨ht', fun _ => .inl hunified, fun _ => ?_⟩
    obtain ⟨bs, records, bytes, rfl⟩ := htick.keeps.ctx_eq
    rw [ht'.roomy.unified_empty hunified]
    exact ht'.roomy.block_pos
  | @copied ibuf n' saved ctx₁ _ _ hunified hswab hr htick =>
    have hlen := length_swabbed hswab
    have hsame : Tuned cap { ctx with ibuf := ibuf } { st with savedByte := saved } :=
      ⟨⟨ht.roomy.block_pos, ht.roomy.block_le, ht.roomy.stages_le, hlen ▸ ht.roomy.ibuf_length,
        ht.roomy.obuf_room, ht.roomy.unified_empty, ht.roomy.unified_plain⟩,
        ht.maxBytes_le, ht.stage, fun hu => by simp [hunified] at hu⟩
    have hcfg : ctx₁.cfg = ctx.cfg := hr.kept.cfg_eq
    have ht₁ : Tuned cap ctx₁ { st with savedByte := saved } :=
      ⟨hsame.roomy.copied hunified hr, hcfg ▸ ht.maxBytes_le, hcfg ▸ ht.stage, fun hu => by
        simp [hr.kept.unified_eq, hunified] at hu⟩
    have hpending := hr.pending_eq hlt
    rw [length_handsOn hn hswab] at hpending
    have hlt₁ : ctx₁.pending.length < ctx₁.cfg.blocksize := by
      rw [hcfg]
      exact hr.pending_lt hlt
    refine ⟨ht₁.tick htick, ?_⟩
    rw [htick.pending_lt_iff ht₁ hlt₁, hpending, Fits]
    simp only [hunified, Bool.false_eq_true, false_or]

/-- The length of a block is below what the buffer holds. -/
theorem blockLength_lt (h : Roomy cap ctx st) (hn : n ≤ cap) :
    blockLength ctx.cfg n < ctx.ibuf.length := by
  have hcap := h.ibuf_length
  have hle := h.block_le
  rw [blockLength]
  split <;> omega

theorem padBlock_length (ctx : Ctx ρ ω) (st : SyncState) (n : Nat) :
    (padBlock ctx st n).2.2 = blockLength ctx.cfg n := by
  simp only [padBlock]
  split
  · rename_i hlt
    split
    · rename_i hsync
      exact (if_pos ⟨hsync, hlt⟩).symm
    · rename_i hsync
      exact (if_neg fun h => hsync h.1).symm
  · rename_i hge
    exact (if_neg fun h => hge h.2).symm

theorem Blocked.pending_lt_iff (h : Blocked O env ctx st n e ctx' st') (ht : Tuned cap ctx st)
    (hlt : ctx.pending.length < ctx.cfg.blocksize) (hn : n ≤ cap) :
    Tuned cap ctx' st' ∧ (ctx'.pending.length < ctx'.cfg.blocksize ↔
      Fits env ctx st (blockLength ctx.cfg n) st') := by
  have hpad := padBlock_keeps ctx st n
  have hlen := hpad.ibuf_length ht.roomy.block_le_ibuf
  have hlength := blockLength_lt ht.roomy hn
  obtain ⟨ibuf, stats, hctx⟩ := hpad.ctx_eq
  obtain ⟨partread, hst⟩ := hpad.st_eq
  rw [Blocked, padBlock_length, hctx, hst] at h
  rw [hctx] at hlen
  have ht₁ : Tuned cap { ctx with ibuf := ibuf, stats := stats } { st with partread := partread } :=
    ht.of_ibuf hlen
  have hn₁ : blockLength ctx.cfg n < ibuf.length := hlen ▸ hlength
  have hh := Handed.pending_lt_iff h ht₁ hlt hn₁
  exact hh

end Buffers

section Reads

variable {direct : Bool} {s t : ρ}

theorem ddIread_length {bytes : List Byte}
    (h : ddIread I env direct s n = .ok (.ok bytes, t)) : bytes.length ≤ n := by
  obtain ⟨u, -, hleave⟩ := loop_ok (P := fun _ => True) (fun _ _ _ _ => trivial) h trivial
  simp only [ddIreadBody] at hleave
  split at hleave
  · rename_i hread
    obtain ⟨hr, -⟩ := Prod.mk.inj (Except.ok.inj (Sum.inr.inj hleave))
    obtain rfl := Except.ok.inj hr
    exact I.read_le hread
  · split at hleave
    · cases hleave
    split at hleave
    · exact I.read_le (Except.ok.inj (Sum.inr.inj hleave))
    · cases (Prod.mk.inj (Except.ok.inj (Sum.inr.inj hleave))).1

theorem ddIread_error {h' : Halt} (h : ddIread I env direct s n = .error h') : h' = .endless := by
  rcases loop_error (P := fun _ => True) (fun _ _ _ _ => trivial) h trivial with he | ⟨u, -, hu⟩
  · exact he
  · simp only [ddIreadBody] at hu
    repeat' split at hu
    all_goals cases hu

theorem syncToRead_le (h : Tuned cap ctx st) : syncToRead ctx st ≤ cap := by
  have hbytes := h.maxBytes_le
  have hblock := h.roomy.block_le
  simp only [syncToRead]
  repeat' split
  all_goals omega

theorem readOf_length {bytes : List Byte} {input : ρ}
    (h : SyncReads I env ctx st (.ok bytes) input) :
    (readOf I env (ctx, st)).flatten.length = bytes.length := by
  rw [readOf_ok h, List.flatten_singleton]

theorem readOf_length_error {err : Errno} {input : ρ}
    (h : SyncReads I env ctx st (.error err) input) :
    (readOf I env (ctx, st)).flatten.length = 0 := by
  rw [readOf_error h]
  rfl

end Reads

section Steps

/-- A step leaves less than a block waiting exactly where it settles. -/
theorem Stepped.pending_lt_iff (h : Stepped I O env ctx st e ctx' st') (ht : Tuned cap ctx st)
    (hlt : ctx.pending.length < ctx.cfg.blocksize) :
    Tuned cap ctx' st' ∧
      (ctx'.pending.length < ctx'.cfg.blocksize ↔ Settles I env (ctx, st) (ctx', st')) := by
  have hidle : ∀ input : ρ, Tuned cap { ctx with input := input } st ∧
      (ctx.pending.length < ctx.cfg.blocksize ↔
        Settles I env (ctx, st) ({ ctx with input := input }, st)) := by
    refine fun input => ⟨ht.of_ibuf rfl, fun _ => ?_, fun _ => hlt⟩
    rw [Settles, Fits]
    cases st.autotune.active with
    | false => exact .inr (.inl rfl)
    | true => exact .inr (.inr (.inl rfl))
  cases h with
  | full hfull => exact ⟨ht, (hidle ctx.input).2⟩
  | @atEnd input => exact hidle input
  | @block bytes input _ _ _ hfull hread hne hroom hblock =>
    have ht₁ : Tuned cap { ctx with input := input, ibuf := readInto ctx.ibuf bytes } st :=
      ht.of_ibuf (length_readInto hroom)
    have hle : bytes.length ≤ cap := (ddIread_length hread).trans (syncToRead_le ht)
    have hb := Blocked.pending_lt_iff hblock ht₁ hlt hle
    rw [Settles, readOf_length hread]
    exact hb
  | @badBlock err input _ _ _ hfull hread hnoerror hsync hpart hblock =>
    have ht₁ : Tuned cap { ctx with input := input } st := ht.of_ibuf rfl
    have hb := Blocked.pending_lt_iff hblock ht₁ hlt (Nat.zero_le cap)
    rw [Settles, readOf_length_error hread]
    exact hb
  | @passedOver err input => exact hidle input
  | @failed err input => exact hidle input

theorem emitBlock_defined {h' : Halt} (ht : Tuned cap ctx st)
    (hlt : ctx.pending.length < ctx.cfg.blocksize)
    (h : emitBlock O env ctx st n = .error h') : h' = .endless := by
  rw [emitBlock] at h
  split at h
  · rcases bind_error.mp h with hcall | ⟨r, -, h⟩
    · exact ddIwrite_error hcall
    · simp only at h
      split at h <;> cases h
  · rename_i hunified
    have hroom := ht.roomy.obuf_room (by simpa using hunified)
    rcases bind_error.mp h with hcopy | ⟨r, -, hp⟩
    · refine ddCopySimple_defined ?_ ?_ hcopy
      · exact hlt
      · exact ht.roomy.block_le.trans hroom
    · exact absurd hp pure_ne_error

/-- A step from where less than a block waits copies within the output buffer. -/
theorem syncDriverStep_defined (ht : Tuned cap ctx st)
    (hlt : ctx.pending.length < ctx.cfg.blocksize) :
    syncDriverStep I O env ctx st ≠ .error .undefined := by
  intro h
  have hblock : ∀ (input : ρ) (ibuf : List Byte) (m : Nat), ibuf.length = ctx.ibuf.length →
      emitBlock O env (padBlock { ctx with input := input, ibuf := ibuf } st m).1
        (padBlock { ctx with input := input, ibuf := ibuf } st m).2.1
        (padBlock { ctx with input := input, ibuf := ibuf } st m).2.2 ≠ .error .undefined := by
    intro input ibuf m hlen h
    have ht₁ : Tuned cap { ctx with input := input, ibuf := ibuf } st := ht.of_ibuf hlen
    have hpad := padBlock_keeps { ctx with input := input, ibuf := ibuf } st m
    have hlen₁ := hpad.ibuf_length ht₁.roomy.block_le_ibuf
    obtain ⟨ibuf', stats, hctx⟩ := hpad.ctx_eq
    obtain ⟨partread, hst⟩ := hpad.st_eq
    rw [hctx] at hlen₁
    rw [hctx, hst] at h
    have ht₂ : Tuned cap { ctx with input := input, ibuf := ibuf', stats := stats }
        { st with partread := partread } := ht₁.of_ibuf hlen₁
    cases emitBlock_defined ht₂ hlt h
  rw [syncDriverStep] at h
  split at h
  · cases h
  rcases bind_error.mp h with hread | ⟨⟨r, input⟩, hread, h⟩
  · cases ddIread_error hread
  simp only at h
  split at h
  · cases h
  · rename_i bytes hne
    have hle : bytes.length ≤ ctx.ibuf.length := by
      have hcap := ht.roomy.ibuf_length
      have hlen := (ddIread_length hread).trans (syncToRead_le ht)
      omega
    rw [if_neg (Nat.not_lt.mpr hle)] at h
    exact hblock input _ _ (length_readInto hle) h
  · split at h
    · split at h
      · exact hblock input _ _ rfl h
      · cases h
    · cases h

/-- So does the flush. -/
theorem syncDriverFlush_defined (ht : Tuned cap ctx st)
    (hlt : ctx.pending.length < ctx.cfg.blocksize) :
    syncDriverFlush O env ctx st ≠ .error .undefined := by
  intro h
  rcases bind_error.mp h with hsaved | ⟨ctx₁, -, hpending⟩
  · rw [flushSaved] at hsaved
    split at hsaved
    · rename_i b hb
      have hsplit : ctx.unified = false := by
        cases hu : ctx.unified with
        | false => rfl
        | true => rw [ht.unsaved hu] at hb; cases hb
      have hroom := ht.roomy.obuf_room hsplit
      cases ddCopySimple_defined hlt (ht.roomy.block_le.trans hroom) hsaved
    · cases hsaved
  · rw [flushPending] at hpending
    split at hpending
    · cases hpending
    · rcases bind_error.mp hpending with hcall | ⟨r, -, hr⟩
      · cases ddIwrite_error hcall
      · simp only at hr
        split at hr <;> cases hr

end Steps

section Runs

theorem syncDriverInit_tuned (env : Env) (h : Fresh ctx) (hmax : ctx.cfg.maxBytes = 0) :
    Tuned (bufferBlock ctx.cfg) (syncDriverInit env ctx).1 (syncDriverInit env ctx).2 := by
  have hready := syncDriverInit_ready env h
  have hstage := firstStage_lt (max env.optimalIn env.optimalOut) numAutotuneStages
  obtain ⟨unified, obufSize, halloc, -⟩ := alloc_ready env h
  refine ⟨hready.roomy, ?_, ?_, fun _ => hready.savedByte_eq⟩
  · simp only [syncDriverInit, halloc]
    split
    · rename_i htune
      have hle := autotuneStage_le hstage
      have hbig : 4 * mib ≤ bufferBlock ctx.cfg := by
        rw [bufferBlock, if_pos htune]
        exact Nat.le_max_right _ _
      simp only
      split
      · exact ((Nat.mod_lt _ (autotuneStage_pos hstage)).le.trans hle).trans hbig
      · simp only [hmax, Nat.zero_le]
    · simp only [hmax, Nat.zero_le]
  · simp only [syncDriverInit, halloc]
    split
    · refine fun _ => ⟨hstage, ?_⟩
      simp only
      split <;> rfl
    · rename_i htune
      exact fun hon => absurd hon htune

/-- A step that the central loop lets the driver take. -/
structure Taken (I : Input ρ) (O : Output ω) (env : Env) (start : Ctx ρ ω)
    (s : Ctx ρ ω × SyncState) (e : StepEnd) (t : Ctx ρ ω × SyncState) : Prop where
  reached : SyncReaches I O env start s
  goes : limitReached s.1.cfg s.1.stats = false
  step : syncDriverStep I O env s.1 s.2 = .ok (e, t)

/-- Where the driver is after its initialisation or a step. -/
def Visited (I : Input ρ) (O : Output ω) (env : Env) (start : Ctx ρ ω)
    (t : Ctx ρ ω × SyncState) : Prop :=
  SyncReaches I O env start t ∨ ∃ s e, Taken I O env start s e t

/-- Less than a block waits in `obuf`, and neither a step nor the flush copies to it with a negative
length or beyond its end. -/
structure WithinBuffer (I : Input ρ) (O : Output ω) (env : Env) (s : Ctx ρ ω × SyncState) :
    Prop where
  pending_lt : s.1.pending.length < s.1.cfg.blocksize
  step : syncDriverStep I O env s.1 s.2 ≠ .error .undefined
  flush : syncDriverFlush O env s.1 s.2 ≠ .error .undefined

theorem Tuned.withinBuffer {s : Ctx ρ ω × SyncState} (h : Tuned cap s.1 s.2)
    (hlt : s.1.pending.length < s.1.cfg.blocksize) : WithinBuffer I O env s :=
  ⟨hlt, syncDriverStep_defined h hlt, syncDriverFlush_defined h hlt⟩

theorem syncLoopBody_step {s t : Ctx ρ ω × SyncState} (h : syncLoopBody I O env s = .inl t) :
    limitReached s.1.cfg s.1.stats = false ∧ syncDriverStep I O env s.1 s.2 = .ok (.again, t) := by
  simp only [syncLoopBody] at h
  split at h
  · cases h
  rename_i hlimit
  split at h
  · rename_i hstep
    obtain rfl := Sum.inl.inj h
    exact ⟨by simpa using hlimit, hstep⟩
  all_goals cases h

theorem syncLoopBody_again {s t : Ctx ρ ω × SyncState}
    (hgo : limitReached s.1.cfg s.1.stats = false)
    (hstep : syncDriverStep I O env s.1 s.2 = .ok (.again, t)) :
    syncLoopBody I O env s = .inl t := by
  rw [syncLoopBody, if_neg (by rw [hgo]; exact Bool.false_ne_true), hstep]

theorem tuned_of_reaches (hfresh : Fresh start) (hmax : start.cfg.maxBytes = 0)
    (hfit : ∀ s e t, Taken I O env start s e t → Tuned (bufferBlock start.cfg) s.1 s.2 →
      s.1.pending.length < s.1.cfg.blocksize → t.1.pending.length < t.1.cfg.blocksize)
    {s : Ctx ρ ω × SyncState} (h : SyncReaches I O env start s) :
    Tuned (bufferBlock start.cfg) s.1 s.2 ∧ s.1.pending.length < s.1.cfg.blocksize := by
  have hinit : (syncDriverInit env start).1.pending = [] := by
    obtain ⟨bs, records, bytes, ibuf, unified, obufSize, hctx⟩ :=
      (syncDriverInit_ready env hfresh).ctx_eq
    rw [hctx]
    exact hfresh.pending_eq
  refine (h.invariant (I := fun s => SyncReaches I O env start s ∧
    Tuned (bufferBlock start.cfg) s.1 s.2 ∧ s.1.pending.length < s.1.cfg.blocksize) ?_
    ⟨.refl _, syncDriverInit_tuned env hfresh hmax, ?_⟩).2
  · rintro s t ⟨hs, ht, hlt⟩ hst
    obtain ⟨hgo, hstep⟩ := syncLoopBody_step hst
    exact ⟨hs.tail hst, ((syncDriverStep_stepped hstep).pending_lt_iff ht hlt).1,
      hfit s .again t ⟨hs, hgo, hstep⟩ ht hlt⟩
  · rw [hinit]
    exact (syncDriverInit_tuned env hfresh hmax).roomy.block_pos

/-- In a run of the driver the output stays within its buffer if and only if no step ends the tuning
with a block size that is not above what waits after it. -/
theorem reblocking_iff {cfg : Config} {input : ρ} {file : ω} (hpos : 0 < cfg.blocksize)
    (hmax : cfg.maxBytes = 0)
    (hbegin : ddCopyStart I O env (.start cfg input file) = .ok (none, start)) :
    (∀ s, Visited I O env start s → WithinBuffer I O env s) ↔
      ∀ s e t, Taken I O env start s e t → Settles I env s t := by
  obtain ⟨hfresh, hsought⟩ := ddCopyStart_fresh hpos hbegin
  have hmax' : start.cfg.maxBytes = 0 := by
    obtain ⟨_, _, hcfg⟩ := hsought
    rw [hcfg]
    exact hmax
  constructor
  · intro hwithin s e t hst
    have hs := hwithin s (.inl hst.reached)
    have ht := hwithin t (.inr ⟨s, e, hst⟩)
    have htuned := (tuned_of_reaches hfresh hmax'
      (fun s e t hst _ _ => (hwithin t (.inr ⟨s, e, hst⟩)).pending_lt) hst.reached).1
    exact ((syncDriverStep_stepped hst.step).pending_lt_iff htuned hs.pending_lt).2.mp
      ht.pending_lt
  · intro hsettles
    have hreach : ∀ s, SyncReaches I O env start s →
        Tuned (bufferBlock start.cfg) s.1 s.2 ∧ s.1.pending.length < s.1.cfg.blocksize :=
      fun _ => tuned_of_reaches hfresh hmax' fun s e t hst htuned hlt =>
        ((syncDriverStep_stepped hst.step).pending_lt_iff htuned hlt).2.mpr (hsettles s e t hst)
    rintro t (hs | ⟨s, e, hst⟩)
    · obtain ⟨htuned, hlt⟩ := hreach t hs
      exact htuned.withinBuffer hlt
    · obtain ⟨htuned, hlt⟩ := hreach s hst.reached
      obtain ⟨htuned', hiff⟩ := (syncDriverStep_stepped hst.step).pending_lt_iff htuned hlt
      exact htuned'.withinBuffer (hiff.mpr (hsettles s e t hst))

end Runs

section Example

/-- A block that is measured in the last stage ends the tuning. -/
theorem autotuneSampleTick_last (env : Env) (ctx : Ctx ρ ω) (st : SyncState)
    (hon : st.autotune.active = true)
    (hdone : ¬(st.autotune.stageBlocksDone + 1 < 4 ∧
      (env.clock st.ticks - st.autotune.stageStartTime < xtimePrecision / 50 ∨
        st.autotune.stageBlocksDone + 1 < 2)))
    (hlast : numAutotuneStages ≤ st.autotune.currentStage + 1) :
    ∃ rates, (autotuneSampleTick env ctx st).1 = st.autotune.relimit { ctx with
      cfg := { ctx.cfg with blocksize := autotuneStage (bestStage env rates
        (min (st.autotune.currentStage + 1) numAutotuneStages)) } } := by
  simp only [autotuneSampleTick, hon, Bool.not_true, Bool.false_eq_true, if_false, if_neg hdone]
  rw [if_neg fun h => absurd h.1 (Nat.not_lt.mpr hlast)]
  exact ⟨_, rfl⟩

/-- Time passes, and no stage is found to be faster than the first. -/
def settleEnv : Env :=
  { plainEnv 3 with clock := fun n => n * xtimePrecision, optimalIn := 4 * mib }

/-- Every read gives 40 KiB. -/
def shortReads : Input Unit where
  read _ _ n := (.ok (List.replicate (min n (40 * 1024)) 0), ())
  lseek _ _ := (false, ())
  read_le h := by
    obtain ⟨h, -⟩ := Prod.mk.inj h
    rw [← Except.ok.inj h, List.length_replicate]
    exact Nat.min_le_left _ _

def settleConfig : Config := { conversions := { swab := true, autotune := true } }

def settleStart : Ctx Unit (List Byte × Nat) := .start settleConfig () ([], 0)

variable {ctx : Ctx Unit (List Byte × Nat)}

theorem ddCopySimple_waits {buf : List Byte} (hne : buf ≠ [])
    (hlt : ctx.pending.length + buf.length < ctx.cfg.blocksize)
    (hroom : ctx.cfg.blocksize ≤ ctx.obufSize) :
    ddCopySimple contentOutput settleEnv ctx buf =
      .ok { ctx with pending := ctx.pending ++ buf } := by
  have hmin : min (ctx.cfg.blocksize - ctx.pending.length) buf.length = buf.length := by omega
  have hbody : ddCopySimpleBody contentOutput settleEnv (ctx, buf) =
      .inl ({ ctx with pending := ctx.pending ++ buf }, []) := by
    simp only [ddCopySimpleBody, if_neg hne]
    rw [if_neg (by omega), hmin, if_neg (by omega), List.take_length, List.drop_length,
      if_neg (by rw [List.length_append]; omega)]
  rw [ddCopySimple, if_neg (by omega), loop]
  simp only [settleEnv, plainEnv, runLoop] at hbody ⊢
  rw [hbody]
  simp only [ddCopySimpleBody, if_true]

/-- Where the driver stands after `k` short reads, before the tuning counts the last. -/
structure Waiting (ctx : Ctx Unit (List Byte × Nat)) (k : Nat) : Prop where
  cfg_eq : ctx.cfg = { settleConfig with blocksize := 4 * mib }
  records_eq : ctx.stats.rPartial + ctx.stats.rFull = k
  pending_length : ctx.pending.length = k * (40 * 1024)
  ibuf_length : 4 * mib + 2 ≤ ctx.ibuf.length
  unified_eq : ctx.unified = false
  obuf_room : 4 * mib ≤ ctx.obufSize

theorem Waiting.step {k : Nat} (h : Waiting ctx k) (tuning : Autotune) (partread ticks : Nat)
    (hk : k < 100) (hlimit : tuning.totalByteLimit = none) :
    ∃ ctx₁ : Ctx Unit (List Byte × Nat), Waiting ctx₁ (k + 1) ∧
      syncDriverStep shortReads contentOutput settleEnv ctx ⟨tuning, partread, none, ticks⟩ =
        .ok (.again, autotuneSampleTick settleEnv ctx₁ ⟨tuning, 40 * 1024, none, ticks⟩) := by
  have hmib : mib = 1024 * 1024 := rfl
  have hibuf := h.ibuf_length
  generalize hbytes : List.replicate (40 * 1024) (0 : Byte) = bytes
  have hlen : bytes.length = 40 * 1024 := by rw [← hbytes, List.length_replicate]
  have hread : ddIread shortReads settleEnv ctx.cfg.inputFlags.direct ctx.input
      (syncToRead ctx ⟨tuning, partread, none, ticks⟩) = .ok (.ok bytes, ()) := by
    have hmax : ¬intmaxMax ≤ ctx.stats.rPartial + ctx.stats.rFull := by
      rw [h.records_eq, intmaxMax]
      omega
    have hrequest : syncToRead ctx ⟨tuning, partread, none, ticks⟩ = 4 * mib := by
      simp only [syncToRead, hlimit, h.cfg_eq, settleConfig, if_neg hmax]
    rw [hrequest, ← hbytes]
    rfl
  obtain ⟨ibuf, n', saved, hswab⟩ : ∃ ibuf n' saved, ddSwabBuffer settleEnv.avx2
      (readInto ctx.ibuf bytes) (40 * 1024) none = (ibuf, n', saved) := ⟨_, _, _, rfl⟩
  have hroom : (readInto ctx.ibuf bytes).length = ctx.ibuf.length :=
    length_readInto (by omega)
  obtain ⟨even, heven, hcarry, htake, -⟩ := ddSwabBuffer_spec _ (by omega) hswab
  rw [Option.toList_none, List.nil_append] at hcarry
  have hcarried := congrArg List.length hcarry
  have hsaved : saved.toList.length ≤ 1 := by cases saved <;> simp
  rw [List.length_append, List.length_take, hroom] at hcarried
  have hout : (ibuf.take n').length = 40 * 1024 := by
    rw [htake, swabScalar_eq, length_swapPairs]
    omega
  obtain rfl : saved = none := by
    cases saved with
    | none => rfl
    | some b =>
      simp only [Option.toList_some, List.length_singleton] at hcarried
      omega
  have hcopy := @ddCopySimple_waits { ctx with
      input := (), ibuf := ibuf
      stats := { ctx.stats with rPartial := ctx.stats.rPartial + 1 } } (ibuf.take n')
    (List.ne_nil_of_length_pos (by omega))
    (by simp only [h.pending_length, h.cfg_eq, hout]; omega)
    (by simp only [h.cfg_eq]; exact h.obuf_room)
  refine ⟨{ ctx with
    input := (), ibuf := ibuf, pending := ctx.pending ++ ibuf.take n'
    stats := { ctx.stats with rPartial := ctx.stats.rPartial + 1 } },
    ⟨h.cfg_eq, ?_, ?_, ?_, h.unified_eq, h.obuf_room⟩, ?_⟩
  · have hrecords := h.records_eq
    simp only
    omega
  · rw [List.length_append, h.pending_length, hout]
    omega
  · have hsame := length_ddSwabBuffer settleEnv.avx2 (readInto ctx.ibuf bytes) (40 * 1024) none
    rw [hswab] at hsame
    simp only at hsame ⊢
    omega
  · have hpad : padBlock { ctx with input := (), ibuf := readInto ctx.ibuf bytes }
        ⟨tuning, partread, none, ticks⟩ bytes.length =
        ({ ctx with
          input := (), ibuf := readInto ctx.ibuf bytes
          stats := { ctx.stats with rPartial := ctx.stats.rPartial + 1 } },
          ⟨tuning, 40 * 1024, none, ticks⟩, 40 * 1024) := by
      simp only [padBlock, h.cfg_eq, hlen, settleConfig]
      rw [if_pos (by omega)]
      rfl
    cases bytes with
    | nil => cases hlen
    | cons b bs =>
      rw [syncDriverStep]
      simp only [hlimit, Option.any_none, Bool.false_eq_true, if_false, hread, bind, Except.bind]
      rw [if_neg (by omega), hpad, emitBlock,
        if_neg (by rw [h.unified_eq]; exact Bool.false_ne_true)]
      have hconv : ctx.cfg.conversions.swab = true := by rw [h.cfg_eq]; rfl
      simp only [hconv, if_true, hswab, bind, Except.bind, hcopy]
      rfl

def settleTuning (blocksDone : Nat) : Autotune where
  active := true
  currentStage := 3
  stageBlocksDone := blocksDone
  stageStartTime := 0
  stageBytesStart := 0
  stageRates := [none, none, none, none]
  totalByteLimit := none

theorem settleTuning_counts (ctx : Ctx Unit (List Byte × Nat)) (partread : Nat) :
    autotuneSampleTick settleEnv ctx ⟨settleTuning 0, partread, none, 1⟩ =
      (ctx, ⟨settleTuning 1, partread, none, 2⟩) := by
  simp [autotuneSampleTick, settleTuning, settleEnv, plainEnv, xtimePrecision]

theorem settleTuning_ends (ctx : Ctx Unit (List Byte × Nat)) (partread : Nat) :
    (autotuneSampleTick settleEnv ctx ⟨settleTuning 1, partread, none, 2⟩).1 =
      { ctx with cfg := { ctx.cfg with blocksize := 64 * 1024 } } := by
  obtain ⟨rates, hends⟩ := autotuneSampleTick_last settleEnv ctx
    ⟨settleTuning 1, partread, none, 2⟩ rfl
    (by simp only [settleEnv, xtimePrecision, settleTuning]; omega) (Nat.le_refl 4)
  rw [hends]
  rfl

/-- After two short reads the tuning settles on 64 KiB while 80 KiB wait. -/
theorem reblocking_overrun : ∃ s t : Ctx Unit (List Byte × Nat) × SyncState,
    Taken shortReads contentOutput settleEnv settleStart s .again t ∧
      ¬t.1.pending.length < t.1.cfg.blocksize := by
  have hready := syncDriverInit_ready settleEnv
    (.start (by decide) : Fresh settleStart)
  have hinit : Waiting (syncDriverInit settleEnv settleStart).1 0 :=
    ⟨rfl, rfl, rfl, hready.roomy.ibuf_length, rfl, hready.roomy.obuf_room rfl⟩
  obtain ⟨ctx₁, h₁, hstep₁⟩ := hinit.step (settleTuning 0) 0 1 (by decide) rfl
  obtain ⟨ctx₂, h₂, hstep₂⟩ := h₁.step (settleTuning 1) (40 * 1024) 2 (by decide) rfl
  rw [settleTuning_counts] at hstep₁
  have hgo : ∀ {k : Nat} {ctx : Ctx Unit (List Byte × Nat)}, Waiting ctx k → k < 100 →
      limitReached ctx.cfg ctx.stats = false := by
    intro k ctx h hk
    rw [h.cfg_eq]
    simp only [limitReached, settleConfig, h.records_eq, intmaxMax]
    exact decide_eq_false (by omega)
  have hfirst : syncLoopBody shortReads contentOutput settleEnv
      (syncDriverInit settleEnv settleStart) =
        .inl (ctx₁, ⟨settleTuning 1, 40 * 1024, none, 2⟩) :=
    syncLoopBody_again (hgo hinit (by decide)) hstep₁
  refine ⟨_, _, ⟨.tail (.refl _) hfirst, hgo h₁ (by decide), hstep₂⟩, ?_⟩
  rw [settleTuning_ends]
  simp only [h₂.pending_length]
  decide

theorem reblocking_iff_overrun : ∃ start : Ctx Unit (List Byte × Nat),
    (∀ s, Visited shortReads contentOutput settleEnv start s →
      WithinBuffer shortReads contentOutput settleEnv s) ↔
      ∀ s e t, Taken shortReads contentOutput settleEnv start s e t →
        Settles shortReads settleEnv s t := by
  obtain ⟨start, hbegin⟩ : ∃ start,
      ddCopyStart shortReads contentOutput settleEnv settleStart = .ok (none, start) := ⟨_, rfl⟩
  exact ⟨start, reblocking_iff (by decide) rfl hbegin⟩

end Example

end Blkcp.C
