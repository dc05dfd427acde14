import Blkcp.C.Reblock
import Blkcp.C.SwabLimit
import Blkcp.Seek
set_option autoImplicit false

/-! A whole copy with the synchronous driver: which bytes of the input are copied, what is made of
them, and where they stand in the output. -/

namespace Blkcp.C
open Blkcp.Lib

variable {ρ ω : Type} {I : Input ρ} {O : Output ω} {env : Env} {cfg : Config}
  {rest : ρ → List Byte} {ctx ctx' start : Ctx ρ ω} {st st' : SyncState} {e : StepEnd}

/-- What the copy makes of the bytes that it takes. -/
def converted (cfg : Config) (data : List Byte) : List Byte :=
  if cfg.conversions.swab then swapPairs data else data

/-- How much of the input is passed over. -/
def skipStart (cfg : Config) : Nat := cfg.skipRecords * cfg.blocksize + cfg.skipBytes

/-- An input that can be moved forward, over its end if need be. -/
def Seekable (I : Input ρ) (rest : ρ → List Byte) : Prop :=
  ∀ s n, ∃ t, I.lseek s n = (true, t) ∧ rest t = (rest s).drop n

section Converted

@[simp] theorem length_converted (cfg : Config) (data : List Byte) :
    (converted cfg data).length = data.length := by
  unfold converted
  split
  · exact length_swapPairs data
  · rfl

/-- An odd byte at the end stays what it is. -/
theorem converted_snoc {even : List Byte} (h : cfg.conversions.swab = true → even.length % 2 = 0)
    (saved : Option Byte) :
    converted cfg (even ++ saved.toList) = converted cfg even ++ saved.toList := by
  unfold converted
  split
  · rename_i hswab
    rw [swapPairs_append _ (h hswab)]
    cases saved <;> rfl
  · rfl

end Converted

section Steps

variable {cap n : Nat}

theorem Handed.maxBytes_le (h : Handed O env ctx st n e ctx' st') (hr : Roomy cap ctx' st')
    (hle : ctx.cfg.maxBytes ≤ cap) : ctx'.cfg.maxBytes ≤ cap := by
  cases h with
  | short => exact hle
  | direct _ _ _ _ _ htick => exact htick.maxBytes_le hle hr.block_le hr.block_pos
  | copied _ _ hcopy htick =>
    refine htick.maxBytes_le ?_ hr.block_le hr.block_pos
    rw [hcopy.kept.cfg_eq]
    exact hle

/-- This much of the input is taken. It is all issued, but for an odd byte of a swapped copy. -/
structure Carried (O : Output ω) (rest : ρ → List Byte) (start : Ctx ρ ω) (data : List Byte)
    (ctx : Ctx ρ ω) (st : SyncState) : Prop where
  roomy : Roomy (bufferBlock start.cfg) ctx st
  maxBytes_le : ctx.cfg.maxBytes ≤ bufferBlock start.cfg
  conversions_eq : ctx.cfg.conversions = start.cfg.conversions
  rest_eq : rest start.input = data ++ rest ctx.input
  records_le : ctx.stats.rFull + ctx.stats.rPartial ≤ data.length
  issued : ∃ even, data = even ++ st.savedByte.toList ∧
    (start.cfg.conversions.swab = true → even.length % 2 = 0) ∧
    ctx.issued = converted start.cfg even
  unswapped : start.cfg.conversions.swab = false → st.savedByte = none
  wBytes_eq : Accepts O → ctx.stats.wBytes = ctx.out.hashed.length
  delivered_eq : Accepts O → ctx.out.delivered = ctx.out.hashed

variable {data : List Byte}

theorem Carried.idle (h : Carried O rest start data ctx st) {input : ρ}
    (hinput : rest input = rest ctx.input) :
    Carried O rest start data { ctx with input := input } st :=
  { h with
    roomy := h.roomy.of_ibuf rfl
    rest_eq := by
      rw [h.rest_eq, hinput] }

/-- What is issued for a block that was read. -/
theorem Handed.issued_block (h : Handed O env ctx st n e ctx' st') (hr : Roomy cap ctx st)
    (hn : n < ctx.ibuf.length) (hsaved : ctx.cfg.conversions.swab = false → st.savedByte = none) :
    ∃ even, st.savedByte.toList ++ ctx.ibuf.take n = even ++ st'.savedByte.toList ∧
      (ctx.cfg.conversions.swab = true → even.length % 2 = 0) ∧
      ctx'.issued = ctx.issued ++ converted ctx.cfg even ∧
      (ctx.cfg.conversions.swab = false → st'.savedByte = none) := by
  cases hswab : ctx.cfg.conversions.swab with
  | false =>
    obtain ⟨hissued, -, hkept, -⟩ := h.issued_plain hswab hr.unified_empty
    refine ⟨ctx.ibuf.take n, ?_, by simp, ?_, fun _ => hkept.trans (hsaved hswab)⟩
    · rw [hkept, hsaved hswab]
      simp
    · rw [hissued, converted, if_neg (by simp [hswab])]
  | true =>
    have hsplit : ctx.unified = false := by
      cases hu : ctx.unified with
      | false => rfl
      | true => exact absurd (hr.unified_plain hu) (by simp [hswab])
    obtain ⟨even, heven, hcarry, hissued⟩ := h.issued_swab hswab hsplit hn
    refine ⟨even, hcarry, fun _ => heven, ?_, by simp⟩
    rw [hissued, converted, if_pos hswab]

/-- A block is read and handed on. -/
theorem Carried.block (h : Carried O rest start data ctx st)
    (hsync : start.cfg.conversions.sync = false) {bytes : List Byte} {input : ρ} {request : Nat}
    (hrequest : request ≤ bufferBlock start.cfg) (htook : Takes rest ctx.input request bytes input)
    (hne : bytes ≠ [])
    (hblock : Blocked O env { ctx with input := input, ibuf := readInto ctx.ibuf bytes } st
      bytes.length e ctx' st') :
    Carried O rest start (data ++ bytes) ctx' st' := by
  have hibuf := h.roomy.ibuf_length
  have hlength := htook.length_le
  have hroom : bytes.length ≤ ctx.ibuf.length := by omega
  have hroomy : Roomy (bufferBlock start.cfg)
      { ctx with input := input, ibuf := readInto ctx.ibuf bytes } st :=
    h.roomy.of_ibuf (length_readInto hroom)
  have hsync' : ctx.cfg.conversions.sync = false := by
    rw [h.conversions_eq]
    exact hsync
  obtain ⟨stats, partread, hbytes, hrecords, hh⟩ := Blocked.unpadded hblock hsync'
  have hlt : bytes.length < (readInto ctx.ibuf bytes).length := by
    rw [length_readInto hroom]
    omega
  have hroomy₁ : Roomy (bufferBlock start.cfg)
      { ctx with input := input, ibuf := readInto ctx.ibuf bytes, stats := stats }
      { st with partread := partread } := hroomy.of_ibuf rfl
  have hswab : ctx.cfg.conversions.swab = start.cfg.conversions.swab := by rw [h.conversions_eq]
  obtain ⟨even', hcarry, heven', hissued', hunswapped⟩ :=
    hh.issued_block hroomy₁ hlt fun hno => h.unswapped (hswab ▸ hno)
  have hkeeps := hh.keeps
  obtain ⟨bs, maxRecords, maxBytes, hcfg⟩ := hkeeps.cfg_eq
  have hroomy' := Roomy.handed hroomy₁ hh
  obtain ⟨even, hdata, heven, hissued⟩ := h.issued
  refine ⟨hroomy', hh.maxBytes_le hroomy' h.maxBytes_le, ?_, ?_, ?_, ⟨even ++ even', ?_, ?_, ?_⟩,
    ?_, ?_, ?_⟩
  · rw [hcfg]
    exact h.conversions_eq
  · rw [h.rest_eq, htook.rest_eq, hkeeps.input_eq, List.append_assoc]
  · have hone := List.length_pos_of_ne_nil hne
    have hcount := hkeeps.records_eq
    have hle := h.records_le
    rw [List.length_append]
    simp only at hcount hrecords
    omega
  · rw [hdata, List.append_assoc, List.append_assoc, ← hcarry]
    simp [readInto]
  · intro hyes
    rw [List.length_append]
    have h₁ := heven hyes
    have h₂ := heven' (hswab.trans hyes)
    omega
  · have hsame : converted ctx.cfg even' = converted start.cfg even' := by
      unfold converted
      rw [hswab]
    have hboth : converted start.cfg (even ++ even') =
        converted start.cfg even ++ converted start.cfg even' := by
      unfold converted
      split
      · rename_i hyes
        exact swapPairs_append _ (heven hyes)
      · rfl
    rw [hissued', hboth, ← hsame, ← hissued]
    rfl
  · intro hno
    exact hunswapped (hswab.trans hno)
  · intro hacc
    have hcounted := hkeeps.counted.wBytes_eq hacc
    have hbefore := h.wBytes_eq hacc
    simp only at hcounted hbytes
    omega
  · intro hacc
    exact hkeeps.counted.delivered_eq hacc (h.delivered_eq hacc)

theorem Carried.syncToRead_le (h : Carried O rest start data ctx st) :
    syncToRead ctx st ≤ bufferBlock start.cfg := by
  have hbytes := h.maxBytes_le
  have hblock := h.roomy.block_le
  simp only [syncToRead]
  repeat' split
  all_goals omega

theorem Carried.step (law : ReadsFrom I rest) (h : Carried O rest start data ctx st)
    (hsync : start.cfg.conversions.sync = false) (hst : Stepped I O env ctx st e ctx' st') :
    ∃ bytes, Carried O rest start (data ++ bytes) ctx' st' := by
  have hsync' : ctx.cfg.conversions.sync = false := by
    rw [h.conversions_eq]
    exact hsync
  have hnothing : ∃ bytes, Carried O rest start (data ++ bytes) ctx st :=
    ⟨[], (List.append_nil data).symm ▸ h⟩
  cases hst with
  | full => exact hnothing
  | @atEnd input _ hread =>
    have htook : Takes rest ctx.input _ [] input := law.ddIread hread
    exact ⟨[], (List.append_nil data).symm ▸ h.idle htook.rest_eq.symm⟩
  | @block bytes input _ _ _ _ hread hne _ hblock =>
    exact ⟨bytes, h.block hsync h.syncToRead_le (law.ddIread hread) hne hblock⟩
  | badBlock _ _ _ hpad => simp [hsync'] at hpad
  | @passedOver err input _ hread =>
    have htook : rest input = rest ctx.input := law.ddIread hread
    exact ⟨[], (List.append_nil data).symm ▸ h.idle htook⟩
  | @failed err input _ hread =>
    have htook : rest input = rest ctx.input := law.ddIread hread
    exact ⟨[], (List.append_nil data).symm ▸ h.idle htook⟩

end Steps

section Runs

variable {s : Ctx ρ ω × SyncState} {status : ExitStatus}

theorem Fresh.carried (hfresh : Fresh start) (hmax : start.cfg.maxBytes = 0) (env : Env)
    (rest : ρ → List Byte) :
    Carried O rest start [] (syncDriverInit env start).1 (syncDriverInit env start).2 := by
  have hready := syncDriverInit_ready env hfresh
  have htuned := syncDriverInit_tuned env hfresh hmax
  obtain ⟨bs, records, bytes, ibuf, unified, obufSize, hctx⟩ := hready.ctx_eq
  have hissued : (syncDriverInit env start).1.issued = [] := by
    simp [hctx, Ctx.issued, OutState.hashed, hfresh.calls_eq, hfresh.pending_eq]
  refine ⟨hready.roomy, htuned.maxBytes_le, ?_, ?_, ?_, ⟨[], ?_, fun _ => rfl, ?_⟩,
    fun _ => hready.savedByte_eq, fun _ => ?_, fun _ => ?_⟩
  · rw [hctx]
  · rw [hctx]
    rfl
  · simp [hctx, hfresh.stats_eq]
  · rw [hready.savedByte_eq]
    rfl
  · rw [hissued, converted]
    split <;> rfl
  · simp [hctx, hfresh.stats_eq, OutState.hashed, hfresh.calls_eq]
  · simp [hctx, OutState.hashed, OutState.delivered, hfresh.calls_eq]

theorem carried_of_reaches (law : ReadsFrom I rest) (hfresh : Fresh start)
    (hmax : start.cfg.maxBytes = 0) (hsync : start.cfg.conversions.sync = false)
    (h : SyncReaches I O env start s) : ∃ data, Carried O rest start data s.1 s.2 := by
  refine h.invariant (I := fun s => ∃ data, Carried O rest start data s.1 s.2) ?_
    ⟨[], hfresh.carried hmax env rest⟩
  rintro s t ⟨data, hdata⟩ hst
  obtain ⟨bytes, hnext⟩ := hdata.step law hsync (syncLoopBody_continues hst).2
  exact ⟨_, hnext⟩

/-- No limit is given. -/
structure Boundless (cfg : Config) : Prop where
  bytesToCopy : cfg.bytesToCopy = none
  maxRecords : cfg.maxRecords = intmaxMax
  maxBytes : cfg.maxBytes = 0

theorem Boundless.block (h : Boundless cfg) (bs : Nat) : Boundless { cfg with blocksize := bs } :=
  ⟨h.bytesToCopy, h.maxRecords, h.maxBytes⟩

/-- The driver without a limit. -/
def Unbound (s : Ctx ρ ω × SyncState) : Prop :=
  Boundless s.1.cfg ∧ s.2.autotune.totalByteLimit = none

theorem Ticked.unbound (h : Ticked env ctx st ctx' st') (hs : Unbound (ctx, st)) :
    Unbound (ctx', st') := by
  obtain ⟨hcfg, hnone⟩ := hs
  cases h with
  | off => exact ⟨hcfg, hnone⟩
  | counts => exact ⟨hcfg, hnone⟩
  | next _ _ _ _ hlimit =>
    rw [Autotune.relimit, show st.autotune.totalByteLimit = none from hnone]
    exact ⟨hcfg.block _, hlimit.trans hnone⟩
  | ends _ _ _ hlimit =>
    rw [Autotune.relimit, show st.autotune.totalByteLimit = none from hnone]
    exact ⟨hcfg.block _, hlimit.trans hnone⟩

theorem Handed.unbound {n : Nat} (h : Handed O env ctx st n e ctx' st') (hs : Unbound (ctx, st)) :
    Unbound (ctx', st') := by
  cases h with
  | short => exact hs
  | direct _ _ _ _ _ htick => exact htick.unbound hs
  | copied _ _ hcopy htick =>
    refine htick.unbound ⟨?_, hs.2⟩
    rw [hcopy.kept.cfg_eq]
    exact hs.1

theorem Blocked.unbound {n : Nat} (h : Blocked O env ctx st n e ctx' st')
    (hs : Unbound (ctx, st)) : Unbound (ctx', st') := by
  have hpad := padBlock_keeps ctx st n
  obtain ⟨ibuf, stats, hctx⟩ := hpad.ctx_eq
  obtain ⟨partread, hst⟩ := hpad.st_eq
  refine Handed.unbound h ?_
  rw [hctx, hst]
  exact hs

theorem Stepped.unbound (h : Stepped I O env ctx st e ctx' st') (hs : Unbound (ctx, st)) :
    Unbound (ctx', st') := by
  cases h with
  | full => exact hs
  | atEnd => exact hs
  | passedOver => exact hs
  | failed => exact hs
  | block _ _ _ _ hblock => exact hblock.unbound hs
  | badBlock _ _ _ _ _ hblock => exact hblock.unbound hs

theorem syncDriverInit_unbound (env : Env) (h : Boundless start.cfg) :
    Unbound (syncDriverInit env start) := by
  obtain ⟨unified, obufSize, hobuf⟩ := ddAllocObuf_ctx env (ddAllocIbuf env start)
  obtain ⟨ibuf, hibuf⟩ := ddAllocIbuf_ctx env start
  rw [hibuf] at hobuf
  have hnone : ¬(start.cfg.inputFlags.countBytes = true ∧ start.cfg.maxRecords ≠ intmaxMax) :=
    fun hcount => hcount.2 h.maxRecords
  simp only [syncDriverInit, hibuf, hobuf, h.bytesToCopy, if_neg hnone]
  split
  · exact ⟨⟨rfl, h.maxRecords, h.maxBytes⟩, rfl⟩
  · exact ⟨h, rfl⟩

theorem unbound_of_reaches (h : Boundless start.cfg) (hs : SyncReaches I O env start s) :
    Unbound s :=
  hs.invariant (fun _ _ ha hb => (syncLoopBody_continues hb).2.unbound ha)
    (syncDriverInit_unbound env h)

/-- A copy without a limit ends at the end of the input, or when no more records can be counted. -/
theorem Left.at_end {t : Ctx ρ ω × SyncState} (law : ReadsFrom I rest) (hbound : Unbound s)
    (hpos : 0 < s.1.cfg.blocksize) (h : Left I O env s .success t) :
    rest t.1.input = [] ∨ intmaxMax ≤ s.1.stats.rFull + s.1.stats.rPartial := by
  obtain ⟨⟨hbytes, hrecords, hmax⟩, hlimit⟩ := hbound
  have hreached : limitReached s.1.cfg s.1.stats = true ↔
      intmaxMax ≤ s.1.stats.rFull + s.1.stats.rPartial := by
    simp only [limitReached, hbytes, hrecords, hmax]
    simp [Nat.add_comm]
  cases h with
  | limit hlimit => exact .inr (hreached.mp hlimit)
  | eof hgoes hst =>
    obtain ⟨t, st'⟩ := t
    have hfew : ¬ intmaxMax ≤ s.1.stats.rPartial + s.1.stats.rFull := by
      rw [Nat.add_comm, ← hreached, hgoes]
      exact Bool.false_ne_true
    have hrequest : syncToRead s.1 s.2 = s.1.cfg.blocksize := by
      simp only [syncToRead, hlimit, hrecords, if_neg hfew]
    cases hst with
    | full hfull =>
      obtain ⟨limit, hsome, -⟩ := hfull
      rw [hlimit] at hsome
      cases hsome
    | @atEnd input _ hread =>
      have htook : Takes rest s.1.input _ [] input := law.ddIread hread
      have hend := (htook.at_end rfl).resolve_left (by omega)
      rw [htook.rest_eq] at hend
      exact .inl hend
    | block _ _ _ _ hblock => cases hblock
    | badBlock _ _ _ _ _ hblock => cases hblock

/-- What a transfer takes is a first part of the input, all of it if there is no limit. -/
theorem syncTransfer_carried (law : ReadsFrom I rest) (hfresh : Fresh start)
    (hmax : start.cfg.maxBytes = 0) (hsync : start.cfg.conversions.sync = false)
    (hacc : Accepts O) (h : syncTransfer I O env start = .ok (.success, ctx)) :
    ∃ data, data <+: rest start.input ∧ ctx.out.hashed = converted start.cfg data ∧
      ctx.out.delivered = ctx.out.hashed ∧ ctx.stats.wBytes = data.length ∧
      (Boundless start.cfg → (rest start.input).length < intmaxMax → data = rest start.input) := by
  obtain ⟨u, t, ctx₁, hu, hleft, hflush, hcalls, hstats⟩ := syncTransfer_flushed h
  obtain ⟨taken, htaken⟩ := carried_of_reaches law hfresh hmax hsync hu
  have hend : ∃ data, Carried O rest start data t.1 t.2 := by
    cases hleft with
    | limit => exact ⟨taken, htaken⟩
    | eof _ hst =>
      obtain ⟨bytes, hlast⟩ := htaken.step law hsync hst
      exact ⟨_, hlast⟩
  obtain ⟨data, hdata⟩ := hend
  obtain ⟨even, hsplit, heven, hissued⟩ := hdata.issued
  have hhashed : ctx.out.hashed = converted start.cfg data := by
    rw [OutState.hashed, hcalls, ← OutState.hashed, hflush.hashed_eq, hissued, hsplit,
      converted_snoc heven]
  have hsame : ctx₁.out.delivered = ctx₁.out.hashed :=
    hflush.counted.delivered_eq hacc (hdata.delivered_eq hacc)
  have hbytes := hflush.counted.wBytes_eq hacc
  have hbefore := hdata.wBytes_eq hacc
  have hlength : ctx₁.out.hashed.length = data.length := by
    rw [OutState.hashed, ← hcalls, ← OutState.hashed, hhashed, length_converted]
  refine ⟨data, ⟨rest t.1.input, hdata.rest_eq.symm⟩, hhashed, ?_, ?_, ?_⟩
  · rw [OutState.delivered, OutState.hashed, hcalls]
    exact hsame
  · rw [hstats]
    omega
  · intro hboundless hfinite
    have hunbound := unbound_of_reaches hboundless hu
    have hrest : rest t.1.input = [] := by
      refine (hleft.at_end law hunbound htaken.roomy.block_pos).resolve_right ?_
      have hrecords := htaken.records_le
      have hlen := congrArg List.length htaken.rest_eq
      rw [List.length_append] at hlen
      omega
    rw [hdata.rest_eq, hrest, List.append_nil]

end Runs

section Content

variable {calls : List Call} {out out' : OutState ω} {view : ω → List Byte × Nat}

theorem Issued.whole (hacc : Accepts O) (h : Issued O env cfg out out')
    (hout : ∀ c ∈ out.calls, c.count = c.buf.length) :
    ∀ c ∈ out'.calls, c.count = c.buf.length := by
  induction h with
  | refl => exact hout
  | call _ _ hcall ih =>
    rw [(ddIwrite_records hcall).1]
    intro c hc
    rcases List.mem_append.mp hc with hc | hc
    · exact ih c hc
    · rw [List.mem_singleton.mp hc]
      exact (ddIwrite_written hcall).whole hacc

theorem syncTransfer_whole (hacc : Accepts O) (hfresh : Fresh start) {status : ExitStatus}
    (h : syncTransfer I O env start = .ok (status, ctx)) :
    ∀ c ∈ ctx.out.calls, c.count = c.buf.length := by
  simp only [syncTransfer, bind_ok] at h
  obtain ⟨⟨status₁, ctx₁, st⟩, hloop, ctx₂, hflush, h⟩ := h
  obtain ⟨-, rfl⟩ := Prod.mk.inj (pure_ok.mp h)
  have hprogress := syncDriverFlush_progress
    (syncLoop_progress (syncDriverInit_progress hfresh.block_pos) hloop) hflush
  have hcalls : (finalizeSparse O ctx₂).out.calls = ctx₂.out.calls := by
    rw [finalizeSparse]
    split <;> rfl
  rw [hcalls]
  refine hprogress.issued.whole hacc ?_
  simp [hfresh.calls_eq]

/-- Seen on a file of zeros, the pieces are what was handed on. -/
theorem cells_of_whole (hsound : ∀ c ∈ calls, Sound cfg c)
    (hwhole : ∀ c ∈ calls, c.count = c.buf.length) :
    (allCells (callPieces cfg calls)).map (·.getD 0) = calls.flatMap (·.buf) := by
  induction calls with
  | nil => rfl
  | cons c cs ih =>
    have hcs := ih (fun d hd => hsound d (List.mem_cons_of_mem c hd))
      fun d hd => hwhole d (List.mem_cons_of_mem c hd)
    have hc : (callPiece cfg c).cells.map (·.getD 0) = c.buf := by
      unfold callPiece
      split
      · rename_i hhole
        have hnul : isNul c.buf = true := (Bool.and_eq_true_iff.mp hhole).2
        have hzeros : c.buf = List.replicate c.buf.length 0 :=
          List.eq_replicate_of_mem fun b hb => by simpa using List.all_eq_true.mp hnul b hb
        rw [Piece.cells, List.map_replicate]
        exact hzeros.symm
      · rw [hwhole c List.mem_cons_self, List.take_length, Piece.cells, List.map_map]
        exact List.map_id _
    rw [callPieces, List.map_cons, allCells, List.flatMap_cons, List.map_append, hc,
      List.flatMap_cons, ← hcs]
    rfl

/-- The bytes stand in the file from an offset on, where a zero may let through what was there
before. Nothing changes up to the offset; what lies behind is kept, or cut off. -/
structure Shown (old : List Byte) (offset : Nat) (made content : List Byte) : Prop where
  before : ∀ p < offset, content[p]? = some (old.getD p 0)
  at_offset : ∀ i b, made[i]? = some b → content[offset + i]? = some b ∨
    b = 0 ∧ content[offset + i]? = some (old.getD (offset + i) 0)
  behind : content.length = offset + made.length ∨
    ∀ p, offset + made.length ≤ p → content[p]? = old[p]?

theorem proper_callPieces (hsound : ∀ c ∈ calls, Sound cfg c)
    (hwhole : ∀ c ∈ calls, c.count = c.buf.length) : Proper (callPieces cfg calls) := by
  intro piece hpiece hempty
  obtain ⟨c, hc, rfl⟩ := List.mem_map.mp hpiece
  unfold callPiece at hempty
  split at hempty
  · cases hempty
  · rw [hwhole c hc, List.take_length] at hempty
    exact (hsound c hc).buf_ne_nil (Piece.data.inj hempty)

/-- What is left of the file when the pieces are laid down and it gets its length. -/
theorem sealed_shown (old : List Byte) (offset : Nat) (hne : calls ≠ [])
    (hsound : ∀ c ∈ calls, Sound cfg c) (hwhole : ∀ c ∈ calls, c.count = c.buf.length) :
    Shown old offset (calls.flatMap (·.buf)) (sealed 0 old offset (callPieces cfg calls)) := by
  have hproper := proper_callPieces hsound hwhole
  have hpieces : callPieces cfg calls ≠ [] := by
    unfold callPieces
    simpa using hne
  have hcells := cells_of_whole hsound hwhole
  have hlength : (allCells (callPieces cfg calls)).length = (calls.flatMap (·.buf)).length := by
    rw [← hcells, List.length_map]
  have hcover := le_length_sealed 0 old offset hproper hpieces
  have hget {p : Nat} (hp : p < offset + (allCells (callPieces cfg calls)).length) :
      (sealed 0 old offset (callPieces cfg calls))[p]? = some (if offset ≤ p then
        ((allCells (callPieces cfg calls))[p - offset]?.join).getD (old.getD p 0)
        else old.getD p 0) := by
    have hvalue := getD_sealed (0 : Byte) old (.inl hp)
    rw [List.getD_eq_getElem?_getD, List.getElem?_eq_getElem (by omega), Option.getD_some] at hvalue
    rw [List.getElem?_eq_getElem (by omega), hvalue]
  constructor
  · intro p hp
    rw [hget (by omega), if_neg (by omega)]
  · intro i b hb
    have hi : i < (allCells (callPieces cfg calls)).length := by
      rw [hlength]
      exact (List.getElem?_eq_some_iff.mp hb).1
    rw [← hcells, List.getElem?_map, List.getElem?_eq_getElem hi, Option.map_some,
      Option.some.injEq] at hb
    rw [hget (by omega), if_pos (by omega), Nat.add_sub_cancel_left, List.getElem?_eq_getElem hi]
    cases hcell : (allCells (callPieces cfg calls))[i] with
    | none =>
      rw [hcell] at hb
      exact .inr ⟨hb.symm, rfl⟩
    | some x =>
      rw [hcell] at hb
      exact .inl (congrArg some hb)
  · rw [← hlength]
    cases hgap : endsInGap (callPieces cfg calls) with
    | true => exact .inl (length_sealed_of_gap hgap)
    | false =>
      refine .inr fun p hp => ?_
      have hlen : (sealed 0 old offset (callPieces cfg calls)).length =
          max old.length (offset + (allCells (callPieces cfg calls)).length) :=
        length_sealed_of_data hproper hpieces hgap
      by_cases hold : p < old.length
      · exact ((frame_sealed_iff old offset (callPieces cfg calls)).mpr (.inl hgap)).2 p hold
          (.inr hp)
      · rw [List.getElem?_eq_none (by omega), List.getElem?_eq_none (by omega)]

/-- Without holes, or on a file that was empty, the data stand in the file as they are. -/
theorem sealed_eq_placeAt (old : List Byte) (offset : Nat) (hne : calls ≠ [])
    (hsound : ∀ c ∈ calls, Sound cfg c) (hwhole : ∀ c ∈ calls, c.count = c.buf.length)
    (hplain : cfg.conversions.sparse = false ∨ old = []) :
    sealed 0 old offset (callPieces cfg calls) = placeAt 0 old offset (calls.flatMap (·.buf)) := by
  rcases hplain with hdense | rfl
  · have hbufs : (calls.map fun c => c.buf.take c.count).flatten = calls.flatMap (·.buf) := by
      rw [← List.flatMap_def]
      refine List.flatMap_congr fun c hc => ?_
      rw [hwhole c hc, List.take_length]
    have hdata : calls.flatMap (·.buf) ≠ [] := by
      obtain ⟨c, cs, rfl⟩ := List.exists_cons_of_ne_nil hne
      intro hnil
      rw [List.flatMap_cons, List.append_eq_nil_iff] at hnil
      exact (hsound c List.mem_cons_self).buf_ne_nil hnil.1
    rw [callPieces_of_dense hdense, sealed_data old offset (hbufs ▸ hdata), hbufs]
  · have hpieces : callPieces cfg calls ≠ [] := by
      unfold callPieces
      simpa using hne
    rw [sealed_fresh offset (proper_callPieces hsound hwhole) hpieces, cells_of_whole hsound hwhole]
    simp [placeAt]

end Content

section Copy

variable {view : ω → List Byte × Nat} {input : ρ} {file : ω} {old : List Byte}

theorem ddCopyStart_input (hskip : Seekable I rest)
    {early : Option ExitStatus}
    (h : ddCopyStart I O env (Ctx.start cfg input file) = .ok (early, ctx)) :
    rest ctx.input = (rest input).drop (skipStart cfg) := by
  simp only [ddCopyStart, bind_ok] at h
  obtain ⟨ctx₁, hinput, ⟨ok, ctx₂⟩, hseek, h⟩ := h
  have hpassed : rest ctx₁.input = (rest input).drop (skipStart cfg) := by
    rw [skipInput] at hinput
    split at hinput
    · obtain ⟨⟨left, bytes, t⟩, hmoved, hinput⟩ := bind_ok.mp hinput
      obtain ⟨u, hlseek, hrest⟩ := hskip input (skipStart cfg)
      rw [skip, show (Ctx.start cfg input file).input = input from rfl,
        show (Ctx.start cfg input file).cfg.skipRecords * (Ctx.start cfg input file).cfg.blocksize +
          (Ctx.start cfg input file).cfg.skipBytes = skipStart cfg from rfl, hlseek] at hmoved
      obtain ⟨-, hmoved⟩ := Prod.mk.inj (Except.ok.inj hmoved)
      obtain ⟨-, rfl⟩ := Prod.mk.inj hmoved
      obtain rfl := pure_ok.mp hinput
      exact hrest
    · rename_i hnone
      obtain rfl := Except.ok.inj hinput
      obtain ⟨hrecords, hbytes⟩ : cfg.skipRecords = 0 ∧ cfg.skipBytes = 0 := by
        simpa [Ctx.start, not_or] using hnone
      rw [skipStart, hrecords, hbytes, Nat.zero_mul, Nat.add_zero, List.drop_zero]
      rfl
  have hsame : ctx₂.input = ctx₁.input := by
    obtain ⟨out, seekBytes, rfl | rfl⟩ := seekOutput_ctx hseek
    · rfl
    · obtain ⟨unified, obufSize, halloc⟩ := ddAllocObuf_ctx env
        { ctx₁ with cfg := { ctx₁.cfg with seekBytes := seekBytes } }
      rw [halloc]
  split at h
  · obtain ⟨-, rfl⟩ := Prod.mk.inj (pure_ok.mp h)
    rw [hsame, hpassed]
  split at h
  · obtain ⟨-, rfl⟩ := Prod.mk.inj (pure_ok.mp h)
    rw [hsame, hpassed]
  · obtain ⟨-, rfl⟩ := Prod.mk.inj (pure_ok.mp h)
    exact (congrArg rest hsame).trans hpassed

section Example

def skipOne : Config := { blocksize := 1, skipBytes := 1, seekBytes := 1 }

theorem contentInput_seekable : Seekable contentInput id := fun _ _ => ⟨_, rfl, rfl⟩

theorem skipOne_run : ∃ ctx, ddCopySync contentInput contentOutput (plainEnv 4)
    (Ctx.start skipOne [9, 7, 8] (setupOutputStream skipOne [1, 2, 3], 0)) = .ok (.success, ctx) ∧
      ctx.out.file.1 = [1, 7, 8] :=
  ⟨_, rfl, rfl⟩

end Example

end Copy

end Blkcp.C
