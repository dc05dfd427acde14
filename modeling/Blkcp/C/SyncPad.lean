import Blkcp.C.SyncRun
set_option autoImplicit false

/-! What `--sync` pads a short block with. -/

namespace Blkcp.C
open Blkcp.Lib

variable {ρ ω : Type} {I : Input ρ} {O : Output ω} {env : Env}
variable {ctx ctx' : Ctx ρ ω} {st st' : SyncState} {e : StepEnd}

/-- The bytes that a step reads. -/
def readOf (I : Input ρ) (env : Env) (s : Ctx ρ ω × SyncState) : List (List Byte) :=
  match ddIread I env s.1.cfg.inputFlags.direct s.1.input (syncToRead s.1 s.2) with
  | .ok (.ok bytes, _) => [bytes]
  | _ => []

/-- A run of the driver, with what it has read so far. -/
inductive SyncHistory (I : Input ρ) (O : Output ω) (env : Env) (start : Ctx ρ ω) :
    List (List Byte) → Ctx ρ ω × SyncState → Prop where
  | start : SyncHistory I O env start [] (syncDriverInit env start)
  | step {reads : List (List Byte)} {s t : Ctx ρ ω × SyncState} :
      SyncHistory I O env start reads s → syncLoopBody I O env s = .inl t →
      SyncHistory I O env start (reads ++ readOf I env s) t

/-- What is left in the input buffer by some reads: each overwrites a first part of it. -/
def bufferAfter (env : Env) (cfg : Config) (reads : List (List Byte)) : List Byte :=
  reads.foldl readInto (freshIbuf env cfg)

/-- The next step gets less than a block: a short read, or an error that is passed over. -/
inductive ShortRead (I : Input ρ) (env : Env) (ctx : Ctx ρ ω) (st : SyncState) :
    List Byte → Prop where
  | read {bytes : List Byte} {input : ρ} : ¬st.full ctx.stats →
      SyncReads I env ctx st (.ok bytes) input → bytes ≠ [] →
      bytes.length < ctx.cfg.blocksize → ShortRead I env ctx st bytes
  | failed {err : Errno} {input : ρ} : ¬st.full ctx.stats →
      SyncReads I env ctx st (.error err) input → ctx.cfg.conversions.noerror = true →
      st.partread = 0 → ShortRead I env ctx st []

section Blocks

variable {start : Ctx ρ ω}

/-- The buffer behind a read, as far as the block goes. -/
def behind (buffer : List Byte) (n bs : Nat) : List Byte := (buffer.drop n).take (bs - n)

theorem length_behind {buffer : List Byte} {n bs : Nat} (h : bs ≤ buffer.length) :
    (behind buffer n bs).length = bs - n := by
  rw [behind, List.length_take, List.length_drop]
  omega

/-- A short block and what it is padded with. -/
theorem padBlock_short (st : SyncState) (hsync : ctx.cfg.conversions.sync = true) {n : Nat}
    (hn : n < ctx.cfg.blocksize) (hle : ctx.cfg.blocksize ≤ ctx.ibuf.length) :
    (padBlock ctx st n).2.2 = ctx.cfg.blocksize ∧
    (padBlock ctx st n).1.ibuf.take ctx.cfg.blocksize = ctx.ibuf.take n ++
      (if ctx.cfg.conversions.noerror then behind ctx.ibuf n ctx.cfg.blocksize
        else List.replicate (ctx.cfg.blocksize - n) 0) := by
  simp only [padBlock, if_pos hn, hsync, if_true]
  refine ⟨trivial, ?_⟩
  split
  · rw [behind, ← List.take_add]
    congr 1
    omega
  · have hlen : (ctx.ibuf.take n ++ List.replicate (ctx.cfg.blocksize - n) (0 : Byte)).length =
        ctx.cfg.blocksize := by
      rw [List.length_append, List.length_take, List.length_replicate]
      omega
    exact List.take_left' hlen

theorem take_readInto (ibuf bytes : List Byte) : (readInto ibuf bytes).take bytes.length = bytes :=
  List.take_left

/-- A block handed on for a short read: the bytes of the read, then zeros or what the buffer
holds. -/
theorem Blocked.padded {n : Nat} (h : Blocked O env ctx st n e ctx' st')
    (hsync : ctx.cfg.conversions.sync = true) (hswab : ctx.cfg.conversions.swab = false)
    (hroomy : Roomy (bufferBlock start.cfg) ctx st) (hn : n < ctx.cfg.blocksize) :
    ctx'.issued = ctx.issued ++ (ctx.ibuf.take n ++
      (if ctx.cfg.conversions.noerror then behind ctx.ibuf n ctx.cfg.blocksize
        else List.replicate (ctx.cfg.blocksize - n) 0)) := by
  obtain ⟨hlen, hblock⟩ := padBlock_short st hsync hn hroomy.block_le_ibuf
  obtain ⟨ibuf, stats, hctx⟩ := (padBlock_keeps ctx st n).ctx_eq
  rw [Blocked] at h
  rw [hlen] at h
  rw [hctx] at h hblock
  rw [(h.issued_plain hswab hroomy.unified_empty).1, hblock]
  rfl

theorem padBlock_noerror (st : SyncState) (hnoerror : ctx.cfg.conversions.noerror = true) (n : Nat) :
    (padBlock ctx st n).1.ibuf = ctx.ibuf := by
  simp only [padBlock, hnoerror, if_true]
  split
  · split <;> rfl
  · rfl

/-- Where errors are passed over nothing but reads goes into the input buffer. -/
theorem Blocked.ibuf_noerror {n : Nat} (h : Blocked O env ctx st n e ctx' st')
    (hnoerror : ctx.cfg.conversions.noerror = true) (hswab : ctx.cfg.conversions.swab = false)
    (hempty : ctx.unified = true → ctx.pending = []) : ctx'.ibuf = ctx.ibuf := by
  have hibuf := padBlock_noerror st hnoerror n
  obtain ⟨ibuf, stats, hctx⟩ := (padBlock_keeps ctx st n).ctx_eq
  rw [Blocked] at h
  rw [hctx] at h hibuf
  exact (h.issued_plain hswab hempty).2.1.trans hibuf

theorem Roomy.reading {cap : Nat} (h : Roomy cap ctx st) {input : ρ} {bytes : List Byte}
    (hroom : bytes.length ≤ ctx.ibuf.length) :
    Roomy cap { ctx with input := input, ibuf := readInto ctx.ibuf bytes } st :=
  h.of_ibuf (length_readInto hroom)

theorem readOf_ok {bytes : List Byte} {input : ρ} (h : SyncReads I env ctx st (.ok bytes) input) :
    readOf I env (ctx, st) = [bytes] := by
  rw [SyncReads] at h
  rw [readOf, h]

theorem readOf_error {err : Errno} {input : ρ} (h : SyncReads I env ctx st (.error err) input) :
    readOf I env (ctx, st) = [] := by
  rw [SyncReads] at h
  rw [readOf, h]

/-- A step that goes on changes the input buffer by its read alone. -/
theorem Stepped.ibuf_noerror {cap : Nat} (h : Stepped I O env ctx st .again ctx' st')
    (hroomy : Roomy cap ctx st) (hnoerror : ctx.cfg.conversions.noerror = true)
    (hswab : ctx.cfg.conversions.swab = false) :
    ctx'.ibuf = (readOf I env (ctx, st)).foldl readInto ctx.ibuf := by
  cases h with
  | block hfull hread hne hroom hblock =>
    rw [readOf_ok hread]
    exact Blocked.ibuf_noerror hblock hnoerror hswab hroomy.unified_empty
  | badBlock hfull hread herr hsync hpart hblock =>
    have hibuf := Blocked.ibuf_noerror hblock hnoerror hswab hroomy.unified_empty
    rw [readOf_error hread]
    exact hibuf
  | passedOver hfull hread herr =>
    rw [readOf_error hread]
    rfl

theorem SyncHistory.reaches {reads : List (List Byte)} {s : Ctx ρ ω × SyncState}
    (h : SyncHistory I O env start reads s) : SyncReaches I O env start s := by
  induction h with
  | start => exact .refl _
  | step _ hst ih => exact ih.tail hst

theorem conversions_of_reaches (hfresh : Fresh start) {s : Ctx ρ ω × SyncState}
    (h : SyncReaches I O env start s) : s.1.cfg.conversions = start.cfg.conversions := by
  refine h.invariant (I := fun s => s.1.cfg.conversions = start.cfg.conversions) ?_ ?_
  · intro s t hs hst
    obtain ⟨bs, records, bytes, hcfg⟩ := (syncLoopBody_continues hst).2.keeps.cfg_eq
    rw [hcfg]
    exact hs
  · obtain ⟨bs, records, bytes, ibuf, unified, obufSize, hctx⟩ :=
      (syncDriverInit_ready env hfresh).ctx_eq
    rw [hctx]

/-- The input buffer in a run that passes errors over. -/
theorem SyncHistory.ibuf_eq {reads : List (List Byte)} {s : Ctx ρ ω × SyncState}
    (h : SyncHistory I O env start reads s) (hfresh : Fresh start)
    (hnoerror : start.cfg.conversions.noerror = true)
    (hswab : start.cfg.conversions.swab = false) :
    s.1.ibuf = bufferAfter env start.cfg reads := by
  induction h with
  | start => exact (syncDriverInit_ready env hfresh).ibuf_eq
  | @step reads s t hs hst ih =>
    have hconv := conversions_of_reaches hfresh hs.reaches
    rw [(syncLoopBody_continues hst).2.ibuf_noerror (roomy_of_reaches hfresh hs.reaches)
      (by rw [hconv]; exact hnoerror) (by rw [hconv]; exact hswab), ih, bufferAfter, bufferAfter,
      List.foldl_append]

theorem SyncReads.unique {r r' : Except Errno (List Byte)} {input input' : ρ}
    (h : SyncReads I env ctx st r input) (h' : SyncReads I env ctx st r' input') :
    r = r' ∧ input = input' := Prod.mk.inj (Except.ok.inj (h.symm.trans h'))

theorem behind_readInto (ibuf bytes : List Byte) (bs : Nat) :
    behind (readInto ibuf bytes) bytes.length bs = behind ibuf bytes.length bs := by
  rw [behind, readInto, List.drop_left, behind]

/-- The step of a short read hands on a block. -/
theorem ShortRead.blocked {bytes : List Byte} (h : ShortRead I env ctx st bytes)
    (hsync : ctx.cfg.conversions.sync = true) (hpos : 0 < ctx.cfg.blocksize)
    (hst : Stepped I O env ctx st e ctx' st') : bytes.length < ctx.cfg.blocksize ∧
      bytes.length ≤ ctx.ibuf.length ∧ ∃ input, Blocked O env
        { ctx with input := input, ibuf := readInto ctx.ibuf bytes } st bytes.length e ctx' st' := by
  cases h with
  | @read _ input hfull hread hne hshort =>
    cases hst with
    | full hf => exact absurd hf hfull
    | atEnd _ hread' => exact absurd (Except.ok.inj (hread.unique hread').1) hne
    | block _ hread' _ hroom hblock =>
      obtain ⟨hr, rfl⟩ := hread.unique hread'
      obtain rfl := Except.ok.inj hr
      exact ⟨hshort, hroom, _, hblock⟩
    | badBlock _ hread' => cases (hread.unique hread').1
    | passedOver _ hread' => cases (hread.unique hread').1
    | failed _ hread' => cases (hread.unique hread').1
  | @failed err input hfull hread hnoerror hpart =>
    cases hst with
    | full hf => exact absurd hf hfull
    | atEnd _ hread' => cases (hread.unique hread').1
    | block _ hread' => cases (hread.unique hread').1
    | badBlock _ _ _ _ _ hblock => exact ⟨hpos, Nat.zero_le _, _, hblock⟩
    | passedOver _ _ _ hno => exact absurd ⟨hsync, hpart⟩ hno
    | failed _ _ hno =>
      rw [hnoerror] at hno
      cases hno

/-- The block that a short read makes. -/
theorem shortRead_issued {reads : List (List Byte)} {bytes : List Byte}
    (h : SyncHistory I O env start reads (ctx, st)) (hfresh : Fresh start)
    (hsync : start.cfg.conversions.sync = true) (hswab : start.cfg.conversions.swab = false)
    (hshort : ShortRead I env ctx st bytes)
    (hst : syncDriverStep I O env ctx st = .ok (e, ctx', st')) :
    ctx'.issued = ctx.issued ++ (bytes ++
      (if start.cfg.conversions.noerror then
        behind (bufferAfter env start.cfg reads) bytes.length ctx.cfg.blocksize
      else List.replicate (ctx.cfg.blocksize - bytes.length) 0)) := by
  have hroomy := roomy_of_reaches hfresh h.reaches
  have hconv : ctx.cfg.conversions = start.cfg.conversions := conversions_of_reaches hfresh h.reaches
  have hbuffer := h.ibuf_eq hfresh
  rw [← hconv] at hsync hswab hbuffer ⊢
  obtain ⟨hlt, hroom, input, hblock⟩ :=
    hshort.blocked hsync hroomy.block_pos (syncDriverStep_stepped hst)
  have hpadded := Blocked.padded hblock hsync hswab (hroomy.reading hroom) hlt
  simp only [take_readInto, behind_readInto] at hpadded
  rw [hpadded]
  by_cases hnoerror : ctx.cfg.conversions.noerror = true
  · rw [if_pos hnoerror, if_pos hnoerror, ← hbuffer hnoerror hswab]
    rfl
  · rw [if_neg hnoerror, if_neg hnoerror]
    rfl

/-- A short block is padded with zeros exactly where errors are not passed over, or the buffer
holds nothing but zeros behind the read. -/
theorem sync_padding_iff {reads : List (List Byte)} {bytes : List Byte}
    (h : SyncHistory I O env start reads (ctx, st)) (hfresh : Fresh start)
    (hsync : start.cfg.conversions.sync = true) (hswab : start.cfg.conversions.swab = false)
    (hshort : ShortRead I env ctx st bytes)
    (hst : syncDriverStep I O env ctx st = .ok (e, ctx', st')) :
    ∃ block, ctx'.issued = ctx.issued ++ block ∧ block.length = ctx.cfg.blocksize ∧
      (block = bytes ++ List.replicate (ctx.cfg.blocksize - bytes.length) 0 ↔
        start.cfg.conversions.noerror = false ∨
          ∀ b ∈ behind (bufferAfter env start.cfg reads) bytes.length ctx.cfg.blocksize, b = 0) := by
  have hroomy := roomy_of_reaches hfresh h.reaches
  have hconv : ctx.cfg.conversions = start.cfg.conversions := conversions_of_reaches hfresh h.reaches
  obtain ⟨hlt, -⟩ := hshort.blocked (by rw [hconv]; exact hsync) hroomy.block_pos
    (syncDriverStep_stepped hst)
  refine ⟨_, shortRead_issued h hfresh hsync hswab hshort hst, ?_, ?_⟩
  · rw [List.length_append]
    split
    · rename_i hnoerror
      have hle := hroomy.block_le_ibuf
      simp only at hle
      rw [h.ibuf_eq hfresh hnoerror hswab] at hle
      rw [length_behind hle]
      omega
    · rw [List.length_replicate]
      omega
  · rw [List.append_cancel_left_eq]
    by_cases hnoerror : start.cfg.conversions.noerror = true
    · have hle := hroomy.block_le_ibuf
      simp only at hle
      rw [h.ibuf_eq hfresh hnoerror hswab] at hle
      rw [if_pos hnoerror, List.eq_replicate_iff, length_behind hle]
      simp [hnoerror]
    · simp [hnoerror]

end Blocks

section Example

def padNoerror : Config :=
  { blocksize := 2, conversions := { sync := true, noerror := true } }

def padStart : Ctx (List Byte) (List Byte × Nat) := .start padNoerror [1, 2, 3] ([], 0)

/-- One block is read and written. -/
theorem padNoerror_history : ∃ s, SyncHistory contentInput contentOutput (plainEnv 3) padStart
    [[1, 2]] s ∧ ShortRead contentInput (plainEnv 3) s.1 s.2 [3] ∧ s.1.issued = [1, 2] ∧
    s.1.cfg.blocksize = 2 ∧ ∃ t,
      syncDriverStep contentInput contentOutput (plainEnv 3) s.1 s.2 = .ok (.again, t) ∧
      t.1.issued = [1, 2, 3, 2] := by
  have hstart : SyncHistory contentInput contentOutput (plainEnv 3) padStart [] _ := .start
  have hstep := hstart.step (t := _) rfl
  refine ⟨_, hstep, @ShortRead.read _ _ _ _ _ _ [3] [] ?_ rfl (by decide) (by decide), rfl, rfl, _,
    rfl, rfl⟩
  rintro ⟨limit, hlimit, -⟩
  cases hlimit

/-- The third byte of the input is padded with the second. -/
theorem sync_padding_stale : ∃ s t, SyncHistory contentInput contentOutput (plainEnv 3) padStart
    [[1, 2]] s ∧ ShortRead contentInput (plainEnv 3) s.1 s.2 [3] ∧
    syncDriverStep contentInput contentOutput (plainEnv 3) s.1 s.2 = .ok (.again, t) ∧
    ¬∃ block, t.1.issued = s.1.issued ++ block ∧ block = [3] ++ List.replicate (2 - 1) 0 := by
  obtain ⟨s, hs, hshort, hissued, -, t, ht, hissued'⟩ := padNoerror_history
  refine ⟨s, t, hs, hshort, ht, ?_⟩
  rintro ⟨block, hblock, rfl⟩
  rw [hissued, hissued'] at hblock
  exact absurd hblock (by decide)

theorem sync_padding_iff_stale : ∃ block : List Byte, block.length = 2 ∧
    (block = [3] ++ List.replicate (2 - 1) 0 ↔ padNoerror.conversions.noerror = false ∨
      ∀ b ∈ behind (bufferAfter (plainEnv 3) padNoerror [[1, 2]]) 1 2, b = 0) := by
  obtain ⟨s, hs, hshort, -, hbs, t, ht, -⟩ := padNoerror_history
  obtain ⟨block, -, hlen, hiff⟩ :=
    sync_padding_iff hs (.start (by decide)) rfl rfl hshort ht
  rw [hbs] at hlen hiff
  exact ⟨block, hlen, hiff⟩

end Example

end Blkcp.C
