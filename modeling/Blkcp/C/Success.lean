import Blkcp.C.Iwrite
import Blkcp.C.SyncRun
set_option autoImplicit false

/-! Writes that fail under the synchronous driver: what a copy with `EXIT_SUCCESS` has delivered. -/

namespace Blkcp.C
open Blkcp.Lib

variable {ρ ω : Type} {I : Input ρ} {O : Output ω} {env : Env}
variable {ctx ctx' start : Ctx ρ ω} {st st' : SyncState} {e : StepEnd}

section Produced

/-- The bytes that come of the first `n` bytes of `ibuf`, swapped if they are to be. -/
def handedBytes (env : Env) (ctx : Ctx ρ ω) (st : SyncState) (n : Nat) : List Byte :=
  if ctx.cfg.conversions.swab then
    let (ibuf, n, _) := ddSwabBuffer env.avx2 ctx.ibuf n st.savedByte
    ibuf.take n
  else ctx.ibuf.take n

/-- The bytes of a block, padded if it is to be. -/
def blockBytes (env : Env) (ctx : Ctx ρ ω) (st : SyncState) (n : Nat) : List Byte :=
  let (ctx, st, n) := padBlock ctx st n
  handedBytes env ctx st n

/-- The bytes that the next step produces from what it reads. -/
def stepBytes (I : Input ρ) (env : Env) (ctx : Ctx ρ ω) (st : SyncState) : List Byte :=
  match ddIread I env ctx.cfg.inputFlags.direct ctx.input (syncToRead ctx st) with
  | .ok (.ok bytes, input) =>
    blockBytes env { ctx with input := input, ibuf := readInto ctx.ibuf bytes } st bytes.length
  | .ok (.error _, input) =>
    if ctx.cfg.conversions.sync ∧ st.partread = 0 then blockBytes env { ctx with input := input } st 0
    else []
  | .error _ => []

/-- The bytes produced on the way to a state. -/
inductive Produced (I : Input ρ) (O : Output ω) (env : Env) (start : Ctx ρ ω) :
    List Byte → Ctx ρ ω × SyncState → Prop where
  | start : Produced I O env start [] (syncDriverInit env start)
  | step {bytes : List Byte} {s t : Ctx ρ ω × SyncState} : Produced I O env start bytes s →
      syncLoopBody I O env s = .inl t →
      Produced I O env start (bytes ++ stepBytes I env s.1 s.2) t

theorem Produced.reaches {bytes : List Byte} {s : Ctx ρ ω × SyncState}
    (h : Produced I O env start bytes s) : SyncReaches I O env start s := by
  induction h with
  | start => exact .refl _
  | step _ hst ih => exact ih.tail hst

theorem produced_of_reaches {s : Ctx ρ ω × SyncState} (h : SyncReaches I O env start s) :
    ∃ bytes, Produced I O env start bytes s := by
  induction h with
  | refl => exact ⟨[], .start⟩
  | tail _ hst ih =>
    obtain ⟨bytes, hbytes⟩ := ih
    exact ⟨_, hbytes.step hst⟩

theorem Handed.issued {n cap : Nat} (h : Handed O env ctx st n e ctx' st') (hr : Roomy cap ctx st) :
    ctx'.issued = ctx.issued ++ handedBytes env ctx st n := by
  by_cases hswab : ctx.cfg.conversions.swab = true
  · rw [handedBytes, if_pos hswab]
    cases h with
    | short hunified => exact absurd ((hr.unified_plain hunified).symm.trans hswab) (by decide)
    | direct hunified => exact absurd ((hr.unified_plain hunified).symm.trans hswab) (by decide)
    | copied _ heq hcopy ht =>
      rw [if_pos hswab] at heq
      obtain ⟨bs, records, bytes, rfl⟩ := ht.keeps.ctx_eq
      rw [heq]
      exact hcopy.issued_eq
  · rw [handedBytes, if_neg hswab]
    exact (h.issued_plain (by simpa using hswab) hr.unified_empty).1

theorem Blocked.issued {n cap : Nat} (h : Blocked O env ctx st n e ctx' st')
    (hr : Roomy cap ctx st) : ctx'.issued = ctx.issued ++ blockBytes env ctx st n := by
  have hissued := Handed.issued h (hr.pad n)
  obtain ⟨ibuf, stats, hctx⟩ := (padBlock_keeps ctx st n).ctx_eq
  rw [hissued, blockBytes]
  have hsame : (padBlock ctx st n).1.issued = ctx.issued := by rw [hctx]; rfl
  rw [hsame]

theorem Stepped.issued {cap : Nat} (h : Stepped I O env ctx st .again ctx' st')
    (hr : Roomy cap ctx st) : ctx'.issued = ctx.issued ++ stepBytes I env ctx st := by
  cases h with
  | block _ hread _ hroom hblock =>
    have hread' := hread
    rw [SyncReads] at hread'
    rw [stepBytes, hread']
    exact hblock.issued (hr.of_ibuf (length_readInto hroom))
  | badBlock _ hread _ hsync hpart hblock =>
    have hread' := hread
    rw [SyncReads] at hread'
    rw [stepBytes, hread']
    dsimp only
    rw [if_pos ⟨hsync, hpart⟩]
    exact hblock.issued (hr.of_ibuf rfl)
  | passedOver _ hread _ hno =>
    rw [SyncReads] at hread
    rw [stepBytes, hread]
    dsimp only
    rw [if_neg hno, List.append_nil]
    rfl

/-- All that is produced is handed to `dd_iwrite`, or waits in `obuf`. -/
theorem Produced.issued_eq {bytes : List Byte} {s : Ctx ρ ω × SyncState}
    (h : Produced I O env start bytes s) (hfresh : Fresh start) : s.1.issued = bytes := by
  induction h with
  | start =>
    obtain ⟨bs, records, bytes, ibuf, unified, obufSize, hctx⟩ :=
      (syncDriverInit_ready env hfresh).ctx_eq
    simp [hctx, Ctx.issued, OutState.hashed, hfresh.calls_eq, hfresh.pending_eq]
  | @step bytes s t hs hst ih =>
    have hissued := (syncLoopBody_continues hst).2.issued (roomy_of_reaches hfresh hs.reaches)
    rw [hissued, ih]

end Produced

section Calls

variable {calls : List Call}

/-- What is delivered is all that was handed on exactly if no call came up short. -/
theorem delivered_eq_hashed_iff (hle : ∀ c ∈ calls, c.count ≤ c.buf.length) :
    (calls.flatMap fun c => c.buf.take c.count) = calls.flatMap (·.buf) ↔
      ∀ c ∈ calls, c.count = c.buf.length := by
  have hshort : ∀ cs : List Call, (∀ c ∈ cs, c.count ≤ c.buf.length) →
      (cs.flatMap fun c => c.buf.take c.count).length ≤ (cs.flatMap (·.buf)).length := by
    intro cs
    induction cs with
    | nil => exact fun _ => Nat.le_refl _
    | cons c cs ih =>
      intro h
      have htail := ih fun d hd => h d (List.mem_cons_of_mem _ hd)
      simp only [List.flatMap_cons, List.length_append, List.length_take]
      omega
  constructor
  · induction calls with
    | nil => simp
    | cons c cs ih =>
      intro heq d hd
      have hc := hle c List.mem_cons_self
      have hcs : ∀ d ∈ cs, d.count ≤ d.buf.length := fun d hd => hle d (List.mem_cons_of_mem _ hd)
      simp only [List.flatMap_cons] at heq
      have hlen := congrArg List.length heq
      have htail := hshort cs hcs
      simp only [List.length_append, List.length_take] at hlen
      have hcount : c.count = c.buf.length := by omega
      rcases List.mem_cons.mp hd with rfl | hd
      · exact hcount
      · rw [hcount, List.take_length, List.append_right_inj] at heq
        exact ih hcs heq d hd
  · intro h
    induction calls with
    | nil => rfl
    | cons c cs ih =>
      have hc := h c List.mem_cons_self
      rw [List.flatMap_cons, List.flatMap_cons, hc, List.take_length,
        ih (fun d hd => hle d (List.mem_cons_of_mem _ hd))
          fun d hd => h d (List.mem_cons_of_mem _ hd)]

variable {seeks : Bool} {results : Nat → Except Errno Nat} {cfg : Config}
  {out out' : OutState Nat} {first : Nat}

/-- No call came up short exactly if none of the writes made since the `first` one failed. -/
structure Told (cfg : Config) (results : Nat → Except Errno Nat) (first : Nat)
    (out : OutState Nat) : Prop where
  first_le : first ≤ out.file
  count_le : ∀ c ∈ out.calls, c.count ≤ c.buf.length
  whole_iff : (∀ c ∈ out.calls, c.count = c.buf.length) ↔
    ∀ i, first ≤ i → i < out.file → ¬IwriteFails cfg.outputFlags.direct results i

theorem Told.call {buf : List Byte} {n : Nat} (h : Told cfg results first out)
    (hsparse : cfg.conversions.sparse = false)
    (hw : ddIwrite (tapeOutput seeks results) env cfg buf out = .ok (n, out')) :
    Told cfg results first out' := by
  rw [ddIwrite, hsparse, Bool.false_and, if_neg Bool.false_ne_true] at hw
  obtain ⟨hfile, hcalls, hn, hwhole⟩ := ddIwriteAll_tape hw
  refine ⟨h.first_le.trans hfile, fun c hc => ?_, ?_⟩
  · rw [hcalls] at hc
    rcases List.mem_append.mp hc with hc | hc
    · exact h.count_le c hc
    · rw [List.mem_singleton.mp hc]
      exact hn
  · rw [hcalls, List.forall_mem_append, List.forall_mem_singleton, h.whole_iff, hwhole]
    constructor
    · rintro ⟨hbefore, hnow⟩ i hi hlt
      rcases Nat.lt_or_ge i out.file with hi' | hi'
      · exact hbefore i hi hi'
      · exact hnow i hi' hlt
    · exact fun hall => ⟨fun i hi hlt => hall i hi (hlt.trans_le hfile),
        fun i hi hlt => hall i (h.first_le.trans hi) hlt⟩

theorem Told.issued (h : Issued (tapeOutput seeks results) env cfg out out')
    (hsparse : cfg.conversions.sparse = false) (ht : Told cfg results first out) :
    Told cfg results first out' := by
  induction h with
  | refl => exact ht
  | call _ _ hw ih => exact ih.call hsparse hw

end Calls

section Direct

/-- With one buffer for input and output all that is handed on is delivered, as long as the loop goes
on. -/
structure Whole (ctx : Ctx ρ ω) (st : SyncState) : Prop where
  unified : ctx.unified = true
  unsaved : st.savedByte = none
  delivered_eq : ctx.out.delivered = ctx.out.hashed

theorem Handed.whole {n : Nat} (h : Handed O env ctx st n .again ctx' st') (hw : Whole ctx st) :
    Whole ctx' st' := by
  cases h with
  | @direct out stats _ _ hunified hwritten hbytes hfull hpartial ht =>
    have hk := ht.keeps
    have hsaved := hk.savedByte_eq
    obtain ⟨bs, records, bytes, rfl⟩ := hk.ctx_eq
    refine ⟨hw.unified, hsaved.trans hw.unsaved, ?_⟩
    simp only [hwritten.delivered_eq, hwritten.hashed_eq, hw.delivered_eq, List.take_take,
      Nat.min_self]
  | copied hsplit => exact absurd (hw.unified.symm.trans hsplit) (by decide)

theorem Blocked.whole {n : Nat} (h : Blocked O env ctx st n .again ctx' st') (hw : Whole ctx st) :
    Whole ctx' st' := by
  obtain ⟨ibuf, stats, hctx⟩ := (padBlock_keeps ctx st n).ctx_eq
  obtain ⟨partread, hst⟩ := (padBlock_keeps ctx st n).st_eq
  refine Handed.whole h ?_
  rw [hctx, hst]
  exact ⟨hw.unified, hw.unsaved, hw.delivered_eq⟩

theorem Stepped.whole (h : Stepped I O env ctx st .again ctx' st') (hw : Whole ctx st) :
    Whole ctx' st' := by
  cases h with
  | block _ _ _ _ hblock => exact hblock.whole ⟨hw.unified, hw.unsaved, hw.delivered_eq⟩
  | badBlock _ _ _ _ _ hblock => exact hblock.whole ⟨hw.unified, hw.unsaved, hw.delivered_eq⟩
  | passedOver => exact ⟨hw.unified, hw.unsaved, hw.delivered_eq⟩

theorem whole_of_reaches (hfresh : Fresh start) (hswab : start.cfg.conversions.swab = false)
    (hobuf : start.obufSize = 0) {s : Ctx ρ ω × SyncState} (h : SyncReaches I O env start s) :
    Whole s.1 s.2 := by
  have hready := syncDriverInit_ready env hfresh
  refine h.invariant (I := fun s => Whole s.1 s.2)
    (fun s t hs hb => (syncLoopBody_continues hb).2.whole hs)
    ⟨hready.unified_eq hswab hobuf, hready.savedByte_eq, ?_⟩
  obtain ⟨bs, records, bytes, ibuf, unified, obufSize, hctx⟩ := hready.ctx_eq
  simp [hctx, OutState.hashed, OutState.delivered, hfresh.calls_eq]

end Direct

/-- Nothing is left to do at the end of a file that was not passed over. -/
theorem finalizeSparse_tape {seeks : Bool} {results : Nat → Except Errno Nat} (ctx : Ctx ρ Nat) :
    (finalizeSparse (tapeOutput seeks results) ctx).out.calls = ctx.out.calls ∧
      (finalizeSparse (tapeOutput seeks results) ctx).out.file = ctx.out.file := by
  rw [finalizeSparse]
  split
  · exact ⟨rfl, by simp [tapeOutput]⟩
  · exact ⟨rfl, rfl⟩

/-- At the end of the input nothing is handed on. -/
theorem Stepped.eof_same (h : Stepped I O env ctx st .eof ctx' st') :
    ctx'.out = ctx.out ∧ ctx'.pending = ctx.pending ∧ st' = st := by
  cases h with
  | full => exact ⟨rfl, rfl, rfl⟩
  | atEnd => exact ⟨rfl, rfl, rfl⟩
  | block _ _ _ _ hblock => cases hblock
  | badBlock _ _ _ _ _ hblock => cases hblock

/-- A loop left with success ends in the state it was left from, but for the input. -/
theorem Left.success_same {s t : Ctx ρ ω × SyncState} (h : Left I O env s .success t) :
    t.1.out = s.1.out ∧ t.1.pending = s.1.pending ∧ t.2 = s.2 := by
  cases h with
  | limit => exact ⟨rfl, rfl, rfl⟩
  | eof _ hstep => exact hstep.eof_same

/-- A copy that returns success has delivered all that it produced exactly if none of its writes
failed; with one buffer for input and output it always has. -/
theorem success_delivers_iff {cfg : Config} {input : ρ} {seeks : Bool}
    {results : Nat → Except Errno Nat} {first : Nat} {start ctx' : Ctx ρ Nat}
    (hpos : 0 < cfg.blocksize) (hsparse : cfg.conversions.sparse = false)
    (hbegin : ddCopyStart I (tapeOutput seeks results) env (.start cfg input first) =
      .ok (none, start))
    (h : syncTransfer I (tapeOutput seeks results) env start = .ok (.success, ctx')) :
    ∃ bytes u, Produced I (tapeOutput seeks results) env start bytes u ∧
      (∃ t, syncLoopBody I (tapeOutput seeks results) env u = .inr (.ok (.success, t))) ∧
      (ctx'.out.delivered = bytes ++ u.2.savedByte.toList ↔
        ∀ i, start.out.file ≤ i → i < ctx'.out.file →
          ¬IwriteFails cfg.outputFlags.direct results i) ∧
      (cfg.conversions.swab = false → start.obufSize = 0 →
        ctx'.out.delivered = bytes ++ u.2.savedByte.toList) := by
  obtain ⟨hfresh, _, _, hsought⟩ := ddCopyStart_fresh hpos hbegin
  have hconv : start.cfg.conversions = cfg.conversions := by rw [hsought]
  have hflags : start.cfg.outputFlags = cfg.outputFlags := by rw [hsought]
  simp only [syncTransfer, bind_ok] at h
  obtain ⟨⟨status, ctx₁, st⟩, hloop, ctx₂, hflush, h⟩ := h
  obtain ⟨rfl, rfl⟩ := Prod.mk.inj (pure_ok.mp h)
  obtain ⟨hcalls, hfile⟩ : (finalizeSparse (tapeOutput seeks results) ctx₂).out.calls =
      ctx₂.out.calls ∧ (finalizeSparse (tapeOutput seeks results) ctx₂).out.file =
        ctx₂.out.file := finalizeSparse_tape ctx₂
  obtain ⟨u, hu, hleave⟩ := syncLoop_leaves hloop
  obtain ⟨hout, hpending, hst⟩ := (syncLoopBody_left hleave).success_same
  obtain ⟨bytes, hbytes⟩ := produced_of_reaches hu
  -- the calls are given all that was produced
  have hhashed : ctx₂.out.hashed = bytes ++ u.2.savedByte.toList := by
    rw [(syncDriverFlush_flushed hflush).hashed_eq, ← hbytes.issued_eq hfresh, Ctx.issued,
      Ctx.issued, hout, hpending, hst]
  have hprogress := syncDriverFlush_progress
    (syncLoop_progress (syncDriverInit_progress hfresh.block_pos) hloop) hflush
  have htold : Told start.cfg results start.out.file ctx₂.out := by
    refine .issued hprogress.issued (by rw [hconv, hsparse]) ⟨Nat.le_refl _, ?_, ?_⟩
    · simp [hfresh.calls_eq]
    · simp only [hfresh.calls_eq, List.not_mem_nil, false_implies, implies_true, true_iff]
      exact fun i hi hlt => absurd hi (by omega)
  refine ⟨bytes, u, hbytes, ⟨_, hleave⟩, ?_, fun hswab hobuf => ?_⟩
  · rw [OutState.delivered, hcalls, hfile, ← hhashed, ← hflags, ← htold.whole_iff]
    exact delivered_eq_hashed_iff htold.count_le
  · have hwhole := whole_of_reaches hfresh (by rw [hconv, hswab]) hobuf hu
    have hroomy := roomy_of_reaches hfresh hu
    have hnothing : syncDriverFlush (tapeOutput seeks results) env ctx₁ st = .ok ctx₁ := by
      refine syncDriverFlush_nothing ?_ ?_
      · rw [show st = u.2 from hst]
        exact hwhole.unsaved
      · exact hpending.trans (hroomy.unified_empty hwhole.unified)
    obtain rfl := Except.ok.inj (hnothing.symm.trans hflush)
    rw [OutState.delivered, hcalls, ← hhashed, show ctx₁.out = u.1.out from hout]
    exact hwhole.delivered_eq

section Example

def swabPair : Config := { blocksize := 2, conversions := { swab := true } }

/-- Two bytes are swapped and written where no write succeeds. -/
theorem success_undelivered : ∃ start ctx : Ctx (List Byte) Nat,
    ddCopyStart contentInput (tapeOutput true fun _ => .error (.other 28)) (plainEnv 3)
      (.start swabPair [1, 2] 0) = .ok (none, start) ∧
    syncTransfer contentInput (tapeOutput true fun _ => .error (.other 28)) (plainEnv 3) start =
      .ok (.success, ctx) ∧
    ∃ u, Produced contentInput (tapeOutput true fun _ => .error (.other 28)) (plainEnv 3) start
      [2, 1] u ∧
      (∃ t, syncLoopBody contentInput (tapeOutput true fun _ => .error (.other 28)) (plainEnv 3) u =
        .inr (.ok (.success, t))) ∧
      u.2.savedByte = none ∧ ctx.out.delivered = [] :=
  ⟨_, _, rfl, rfl, _, .step .start rfl, ⟨_, rfl⟩, rfl, rfl⟩

theorem success_delivers_iff_swab : ∃ start ctx : Ctx (List Byte) Nat,
    syncTransfer contentInput (tapeOutput true fun _ => .ok 1) (plainEnv 4) start =
      .ok (.success, ctx) ∧
    ∃ bytes u, Produced contentInput (tapeOutput true fun _ => .ok 1) (plainEnv 4) start bytes u ∧
      (ctx.out.delivered = bytes ++ u.2.savedByte.toList ↔
        ∀ i, start.out.file ≤ i → i < ctx.out.file → ¬IwriteFails false (fun _ => .ok 1) i) := by
  obtain ⟨start, ctx, hbegin, hrun⟩ : ∃ start ctx : Ctx (List Byte) Nat,
      ddCopyStart contentInput (tapeOutput true fun _ => .ok 1) (plainEnv 4)
        (.start swabPair [1, 2, 3] 0) = .ok (none, start) ∧
      syncTransfer contentInput (tapeOutput true fun _ => .ok 1) (plainEnv 4) start =
        .ok (.success, ctx) := ⟨_, _, rfl, rfl⟩
  obtain ⟨bytes, u, hbytes, -, hiff, -⟩ :=
    success_delivers_iff (by decide : 0 < swabPair.blocksize) rfl hbegin hrun
  exact ⟨start, ctx, hrun, bytes, u, hbytes, hiff⟩

end Example

end Blkcp.C
