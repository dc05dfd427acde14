import Blkcp.C.SyncRun
set_option autoImplicit false

/-! Read errors that are passed over (`noerror`): when the central loop with the synchronous driver
ends. -/

namespace Blkcp.C
open Blkcp.Lib

variable {ρ ω : Type} {I : Input ρ} {O : Output ω} {env : Env} {pos : ρ → Nat} {bad : Nat → Prop}
variable {ctx ctx' start : Ctx ρ ω} {st st' : SyncState} {e : StepEnd}

/-- A seekable input that reads from everywhere but some offsets: there each read fails, and does not
move. -/
structure Unreadable (I : Input ρ) (pos : ρ → Nat) (bad : Nat → Prop) : Prop where
  fails : ∀ s direct n, bad (pos s) → ∃ e t, I.read s direct n = (.error e, t) ∧ e ≠ .eintr ∧
    pos t = pos s
  reads : ∀ s direct n, ¬bad (pos s) → ∃ bytes t, I.read s direct n = (.ok bytes, t)

section Reads

variable {direct : Bool} {s t : ρ} {n : Nat} {r : Except Errno (List Byte)}

theorem Unreadable.ddIread_bad (law : Unreadable I pos bad) (hbad : bad (pos s))
    (h : ddIread I env direct s n = .ok (r, t)) : (∃ e, r = .error e) ∧ pos t = pos s := by
  have hstep : ∀ a b, pos a = pos s → ddIreadBody I direct n a = .inl b → pos b = pos s := by
    intro a b ha hb
    obtain ⟨e, c, hread, hne, -⟩ := law.fails a direct n (by rwa [ha])
    simp only [ddIreadBody, hread, if_neg hne] at hb
    split at hb <;> cases hb
  obtain ⟨a, ha, hleave⟩ := loop_ok hstep h rfl
  obtain ⟨e, b, hread, hne, hpos⟩ := law.fails a direct n (by rwa [ha])
  simp only [ddIreadBody, hread, if_neg hne] at hleave
  split at hleave
  · obtain ⟨e', c, hagain, -, hpos'⟩ := law.fails b false n (by rwa [hpos, ha])
    rw [hagain] at hleave
    obtain ⟨rfl, rfl⟩ := Prod.mk.inj (Except.ok.inj (Sum.inr.inj hleave))
    exact ⟨⟨e', rfl⟩, by rw [hpos', hpos, ha]⟩
  · obtain ⟨rfl, rfl⟩ := Prod.mk.inj (Except.ok.inj (Sum.inr.inj hleave))
    exact ⟨⟨e, rfl⟩, hpos.trans ha⟩

theorem Unreadable.ddIread_good (law : Unreadable I pos bad) (hgood : ¬bad (pos s))
    (h : ddIread I env direct s n = .ok (r, t)) : ∃ bytes, r = .ok bytes := by
  obtain ⟨bytes, u, hread⟩ := law.reads s direct n hgood
  have hbody : ddIreadBody I direct n s = .inr (.ok (.ok bytes, u)) := by
    simp only [ddIreadBody, hread]
  have hstep : ∀ a b, a = s → ddIreadBody I direct n a = .inl b → b = s := by
    rintro a b rfl hb
    rw [hbody] at hb
    cases hb
  obtain ⟨a, rfl, hleave⟩ := loop_ok hstep h rfl
  rw [hbody] at hleave
  exact ⟨bytes, (Prod.mk.inj (Except.ok.inj (Sum.inr.inj hleave))).1.symm⟩

end Reads

section Unlimited

/-- Errors are passed over, and no limit is set. -/
structure Unlimited (cfg : Config) : Prop where
  noerror : cfg.conversions.noerror = true
  bytes : cfg.bytesToCopy = none
  records : cfg.maxRecords = intmaxMax
  rest : cfg.maxBytes = 0

theorem Unlimited.block {cfg : Config} (h : Unlimited cfg) (bs : Nat) :
    Unlimited { cfg with blocksize := bs } := ⟨h.noerror, h.bytes, h.records, h.rest⟩

/-- The driver without a limit. -/
def Untimed (s : Ctx ρ ω × SyncState) : Prop :=
  Unlimited s.1.cfg ∧ s.2.autotune.totalByteLimit = none

theorem Ticked.untimed (h : Ticked env ctx st ctx' st') (hs : Untimed (ctx, st)) :
    Untimed (ctx', st') := by
  obtain ⟨hcfg, hnone⟩ := hs
  cases h with
  | off => exact ⟨hcfg, hnone⟩
  | counts => exact ⟨hcfg, hnone⟩
  | next _ _ _ _ hlimit =>
    rw [Autotune.relimit, show st.autotune.totalByteLimit = none from hnone]
    exact ⟨hcfg.block _, hlimit.trans hnone⟩
  | ends _ _ _ hlimit =>
    rw [Autotune.relimit, show st.autotune.totalByteLimit = none from hnone]
    exact ⟨hcfg.block _, hlimit.trans hnone⟩

theorem Handed.untimed {n : Nat} (h : Handed O env ctx st n e ctx' st') (hs : Untimed (ctx, st)) :
    Untimed (ctx', st') := by
  cases h with
  | short => exact hs
  | direct _ _ _ _ _ ht => exact ht.untimed hs
  | copied _ _ hr ht =>
    refine ht.untimed ⟨?_, hs.2⟩
    rw [hr.kept.cfg_eq]
    exact hs.1

theorem Blocked.untimed {n : Nat} (h : Blocked O env ctx st n e ctx' st')
    (hs : Untimed (ctx, st)) : Untimed (ctx', st') := by
  have hpad := padBlock_keeps ctx st n
  obtain ⟨ibuf, stats, hctx⟩ := hpad.ctx_eq
  obtain ⟨partread, hst⟩ := hpad.st_eq
  refine Handed.untimed h ?_
  rw [hctx, hst]
  exact hs

theorem Stepped.untimed (h : Stepped I O env ctx st e ctx' st') (hs : Untimed (ctx, st)) :
    Untimed (ctx', st') := by
  cases h with
  | full | atEnd | passedOver | failed => exact hs
  | block _ _ _ _ hblock => exact hblock.untimed hs
  | badBlock _ _ _ _ _ hblock => exact hblock.untimed hs

theorem Blocked.records {n : Nat} (h : Blocked O env ctx st n e ctx' st') :
    ctx'.stats.rFull + ctx'.stats.rPartial = ctx.stats.rFull + ctx.stats.rPartial + 1 :=
  (Handed.keeps h).records_eq.trans (padBlock_keeps ctx st n).records_eq

theorem syncDriverInit_untimed (env : Env) (h : Unlimited start.cfg) :
    Untimed (syncDriverInit env start) := by
  obtain ⟨unified, obufSize, hobuf⟩ := ddAllocObuf_ctx env (ddAllocIbuf env start)
  obtain ⟨ibuf, hibuf⟩ : ∃ ibuf, ddAllocIbuf env start = { start with ibuf := ibuf } := by
    rw [ddAllocIbuf]
    split <;> exact ⟨_, rfl⟩
  rw [hibuf] at hobuf
  have hnone : ¬(start.cfg.inputFlags.countBytes = true ∧ start.cfg.maxRecords ≠ intmaxMax) :=
    fun hcount => hcount.2 h.records
  simp only [syncDriverInit, hibuf, hobuf, h.bytes, if_neg hnone]
  split
  · exact ⟨⟨h.noerror, rfl, h.records, h.rest⟩, rfl⟩
  · exact ⟨h, rfl⟩

theorem untimed_of_reaches {s : Ctx ρ ω × SyncState} (h : Unlimited start.cfg)
    (hs : SyncReaches I O env start s) : Untimed s :=
  hs.invariant (fun _ _ ha hb => (syncLoopBody_continues hb).2.untimed ha)
    (syncDriverInit_untimed env h)

end Unlimited

section Stuck

/-- A read is next at an unreadable offset, and no block is written for it. -/
structure Stuck (pos : ρ → Nat) (bad : Nat → Prop) (s : Ctx ρ ω × SyncState) : Prop where
  goes : limitReached s.1.cfg s.1.stats = false
  offset : bad (pos s.1.input)
  unpadded : ¬(s.1.cfg.conversions.sync = true ∧ s.2.partread = 0)

/-- From there the step leads back to there. -/
theorem Stuck.step {s t : Ctx ρ ω × SyncState} (law : Unreadable I pos bad)
    (h : Stuck pos bad s) (hs : Untimed s) (hstep : Stepped I O env s.1 s.2 e t.1 t.2) :
    e = .again ∧ Stuck pos bad t := by
  have hfull : ¬s.2.full s.1.stats := by
    rintro ⟨limit, hlimit, -⟩
    rw [hs.2] at hlimit
    cases hlimit
  have hread : ∀ {r input}, SyncReads I env s.1 s.2 r input →
      (∃ e, r = .error e) ∧ pos input = pos s.1.input := fun hr => law.ddIread_bad h.offset hr
  obtain ⟨ctx, st⟩ := s
  obtain ⟨ctx', st'⟩ := t
  cases hstep with
  | full hfull' => exact absurd hfull' hfull
  | atEnd _ hr =>
    obtain ⟨⟨e, he⟩, -⟩ := hread hr
    cases he
  | block _ hr =>
    obtain ⟨⟨e, he⟩, -⟩ := hread hr
    cases he
  | badBlock _ _ _ hsync hpart => exact absurd ⟨hsync, hpart⟩ h.unpadded
  | passedOver _ hr =>
    refine ⟨rfl, h.goes, ?_, h.unpadded⟩
    rw [(hread hr).2]
    exact h.offset
  | failed _ _ hno => exact absurd (hs.1.noerror.symm.trans hno) (by decide)

/-- A step that goes on elsewhere counts a record. -/
theorem stepped_records {s t : Ctx ρ ω × SyncState} (law : Unreadable I pos bad)
    (hgoes : limitReached s.1.cfg s.1.stats = false) (hstuck : ¬Stuck pos bad s)
    (hstep : Stepped I O env s.1 s.2 .again t.1 t.2) :
    t.1.stats.rFull + t.1.stats.rPartial = s.1.stats.rFull + s.1.stats.rPartial + 1 := by
  obtain ⟨ctx, st⟩ := s
  obtain ⟨ctx', st'⟩ := t
  cases hstep with
  | block _ _ _ _ hblock => exact hblock.records
  | badBlock _ _ _ _ _ hblock => exact hblock.records
  | passedOver _ hr _ hunpadded =>
    by_cases hbad : bad (pos ctx.input)
    · exact absurd ⟨hgoes, hbad, hunpadded⟩ hstuck
    · obtain ⟨bytes, he⟩ := law.ddIread_good hbad hr
      cases he

/-- The first read can be one. -/
theorem Stuck.init (hfresh : Fresh start) (hcfg : Unlimited start.cfg)
    (hbad : bad (pos start.input)) (hsync : start.cfg.conversions.sync = false) :
    Stuck pos bad (syncDriverInit env start) := by
  have hlimits := (syncDriverInit_untimed env hcfg).1
  obtain ⟨bs, records, bytes, ibuf, unified, obufSize, hctx⟩ :=
    (syncDriverInit_ready env hfresh).ctx_eq
  have hstats : (syncDriverInit env start).1.stats = {} := by
    rw [hctx]
    exact hfresh.stats_eq
  refine ⟨?_, ?_, ?_⟩
  · rw [limitReached, hlimits.bytes, hlimits.records, hlimits.rest, hstats]
    decide
  · rw [hctx]
    exact hbad
  · rw [hctx]
    simp [hsync]

/-- The loop ends with a status. -/
def LoopEnds (I : Input ρ) (O : Output ω) (env : Env) (start : Ctx ρ ω) : Prop :=
  ∃ fuel status t, runLoop (syncLoopBody I O env) fuel (syncDriverInit env start) =
    some (.ok (status, t))

/-- A state that the loop comes to, with a step to take. -/
structure Stepping (I : Input ρ) (O : Output ω) (env : Env) (start : Ctx ρ ω)
    (s : Ctx ρ ω × SyncState) : Prop where
  reached : SyncReaches I O env start s
  goes : limitReached s.1.cfg s.1.stats = false

theorem returns_of_loopEnds (h : LoopEnds I O env start) {s : Ctx ρ ω × SyncState}
    (hs : Stepping I O env start s) : ∃ x, syncDriverStep I O env s.1 s.2 = .ok x := by
  obtain ⟨fuel, status, t, hrun⟩ := h
  obtain ⟨u, hu, hleave⟩ := iterates_of_runLoop hrun
  have hbody : syncLoopBody I O env s ≠ .inr (.error .endless) ∧
      syncLoopBody I O env s ≠ .inr (.error .undefined) := by
    rcases (hs.reached.of_leaves hu hleave).cases_head with rfl | ⟨v, hv, -⟩
    · rw [hleave]
      exact ⟨nofun, nofun⟩
    · rw [hv]
      exact ⟨nofun, nofun⟩
  cases hstep : syncDriverStep I O env s.1 s.2 with
  | ok x => exact ⟨x, rfl⟩
  | error e =>
    simp only [syncLoopBody, hs.goes, hstep, Bool.false_eq_true, if_false] at hbody
    cases e
    · exact absurd rfl hbody.1
    · exact absurd rfl hbody.2

theorem not_stuck_of_loopEnds (law : Unreadable I pos bad) (hcfg : Unlimited start.cfg)
    (h : LoopEnds I O env start) {s : Ctx ρ ω × SyncState} (hs : SyncReaches I O env start s) :
    ¬Stuck pos bad s := by
  intro hstuck
  obtain ⟨fuel, status, t, hrun⟩ := h
  obtain ⟨u, hu, hleave⟩ := iterates_of_runLoop hrun
  have hend : Untimed u ∧ Stuck pos bad u :=
    (hs.of_leaves hu hleave).invariant (I := fun a => Untimed a ∧ Stuck pos bad a)
      (fun a b ha hb => by
        have hstep := (syncLoopBody_continues hb).2
        exact ⟨hstep.untimed ha.1, (ha.2.step law ha.1 hstep).2⟩)
      ⟨untimed_of_reaches hcfg hs, hstuck⟩
  cases syncLoopBody_left hleave with
  | limit hlimit => exact absurd (hend.2.goes.symm.trans hlimit) (by decide)
  | eof _ hstep => cases (hend.2.step law hend.1 hstep).1
  | failure _ hstep => cases (hend.2.step law hend.1 hstep).1

end Stuck

section Example

/-- A file at a position, with offsets that cannot be read; other reads give a byte each. -/
def holedInput (content : List Byte) (bad : Nat → Bool) : Input Nat where
  read pos _ n :=
    if bad pos then (.error (.other 5), pos)
    else
      let bytes := ((content.drop pos).take n).take 1
      (.ok bytes, pos + bytes.length)
  lseek pos n := (true, pos + n)
  read_le := by
    intro pos direct n bytes t h
    split at h
    · cases h
    · rw [← Except.ok.inj (Prod.mk.inj h).1, List.length_take, List.length_take]
      omega

theorem holedInput_unreadable (content : List Byte) (bad : Nat → Bool) :
    Unreadable (holedInput content bad) id fun p => bad p = true where
  fails s _ _ h := ⟨.other 5, s, if_pos h, nofun, rfl⟩
  reads _ _ _ h := ⟨_, _, if_neg h⟩

def passOver : Config := { blocksize := 1, conversions := { noerror := true } }

end Example

end Blkcp.C
