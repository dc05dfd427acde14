import Blkcp.C.Source
import Blkcp.C.SyncRun
set_option autoImplicit false

/-! How much a swapped copy writes under a byte limit. -/

namespace Blkcp.C
open Blkcp.Lib

variable {ρ ω : Type} {I : Input ρ} {O : Output ω} {env : Env}

section Intake

/-- What was taken of the input, in how many records. -/
structure Intake (ρ : Type) where
  count : Nat
  records : Nat
  input : ρ

/-- What a swapped copy of blocks has written when it has read this much. -/
def swabWritten (bs count : Nat) : Nat := (count - count % 2) / bs * bs

/-- What it asks for next, under a byte limit and a record limit. -/
def swabRequest (limit bs maxRecords : Nat) (s : Intake ρ) : Nat :=
  min (limit - swabWritten bs s.count) (if maxRecords ≤ s.records then 0 else bs)

variable (I env)

/-- The first `n` reads of a swapped copy. -/
def swabIntake (direct : Bool) (limit bs maxRecords : Nat) (input : ρ) : Nat → Intake ρ
  | 0 => ⟨0, 0, input⟩
  | n + 1 =>
    let s := swabIntake direct limit bs maxRecords input n
    match ddIread I env direct s.input (swabRequest limit bs maxRecords s) with
    | .ok (.ok [], t) => { s with input := t }
    | .ok (.ok bytes, t) => ⟨s.count + bytes.length, s.records + 1, t⟩
    | .ok (.error _, t) => { s with input := t }
    | .error _ => s

variable {I env}
variable {rest : ρ → List Byte}

/-- One more read. -/
structure Next (rest : ρ → List Byte) (request : Nat) (s t : Intake ρ) : Prop where
  count_le : s.count ≤ t.count
  records_le : s.records ≤ t.records
  taken : t.count + (rest t.input).length = s.count + (rest s.input).length
  none : request = 0 → t.count = s.count

theorem swabIntake_next (law : ReadsFrom I rest) (env : Env) (direct : Bool)
    (limit bs maxRecords : Nat) (input : ρ) (n : Nat) :
    Next rest (swabRequest limit bs maxRecords
      (swabIntake I env direct limit bs maxRecords input n))
      (swabIntake I env direct limit bs maxRecords input n)
      (swabIntake I env direct limit bs maxRecords input (n + 1)) := by
  rw [swabIntake]
  generalize swabIntake I env direct limit bs maxRecords input n = s
  generalize swabRequest limit bs maxRecords s = request
  split
  · rename_i t hread
    have htook : Takes rest s.input request [] t := law.ddIread hread
    refine ⟨Nat.le_refl _, Nat.le_refl _, ?_, fun _ => rfl⟩
    simp only [htook.rest_eq, List.nil_append]
  · rename_i bytes t _ hread
    have htook : Takes rest s.input request bytes t := law.ddIread hread
    refine ⟨Nat.le_add_right _ _, Nat.le_succ _, ?_, fun hzero => ?_⟩
    · simp only [htook.rest_eq, List.length_append]
      omega
    · have hle := htook.length_le
      simp only
      omega
  · rename_i e t hread
    have htook : rest t = rest s.input := law.ddIread hread
    refine ⟨Nat.le_refl _, Nat.le_refl _, ?_, fun _ => rfl⟩
    simp only [htook]
  · exact ⟨Nat.le_refl _, Nat.le_refl _, rfl, fun _ => rfl⟩

/-- All reads together. -/
theorem swabIntake_mono (law : ReadsFrom I rest) (env : Env) (direct : Bool)
    (limit bs maxRecords : Nat) (input : ρ) {m n : Nat} (h : m ≤ n) :
    let s := swabIntake I env direct limit bs maxRecords input m
    let t := swabIntake I env direct limit bs maxRecords input n
    s.count ≤ t.count ∧ s.records ≤ t.records ∧
      t.count + (rest t.input).length = s.count + (rest s.input).length ∧
      (maxRecords ≤ s.records → t.count = s.count) := by
  induction n, h using Nat.le_induction with
  | base => exact ⟨Nat.le_refl _, Nat.le_refl _, rfl, fun _ => rfl⟩
  | succ n hle ih =>
    obtain ⟨hcount, hrecords, htaken, hnone⟩ := ih
    have hnext := swabIntake_next law env direct limit bs maxRecords input n
    refine ⟨hcount.trans hnext.count_le, hrecords.trans hnext.records_le,
      hnext.taken.trans htaken, fun hmax => (hnext.none ?_).trans (hnone hmax)⟩
    rw [swabRequest, if_pos (hmax.trans hrecords), Nat.min_zero]

end Intake

section Run

variable {start ctx ctx' : Ctx ρ ω} {st st' : SyncState} {s : Intake ρ} {limit : Nat} {e : StepEnd}

/-- A swapped copy without padding and tuning, under a byte limit. -/
structure SwabLimited (cfg : Config) (limit : Nat) : Prop where
  block_pos : 0 < cfg.blocksize
  limit_eq : cfg.bytesToCopy = some limit
  maxBytes_eq : cfg.maxBytes = 0
  swab : cfg.conversions.swab = true
  sync : cfg.conversions.sync = false
  autotune : cfg.conversions.autotune = false

theorem SwabLimited.sought {cfg cfg' : Config} (h : SwabLimited cfg limit) (hs : Sought cfg cfg') :
    SwabLimited cfg' limit := by
  obtain ⟨_, _, rfl⟩ := hs
  exact ⟨h.block_pos, h.limit_eq, h.maxBytes_eq, h.swab, h.sync, h.autotune⟩

/-- The driver when this much is read: the complete pairs are issued, in whole blocks but for the
rest. -/
structure SwabAt (start : Ctx ρ ω) (limit : Nat) (s : Intake ρ) (ctx : Ctx ρ ω)
    (st : SyncState) : Prop where
  roomy : Roomy (bufferBlock start.cfg) ctx st
  cfg_eq : ctx.cfg = start.cfg
  active_eq : st.autotune.active = false
  limit_eq : st.autotune.totalByteLimit = some limit
  split : ctx.unified = false
  input_eq : ctx.input = s.input
  records_eq : ctx.stats.rPartial + ctx.stats.rFull = s.records
  even : ctx.issued.length % 2 = 0
  count_eq : ctx.issued.length + st.savedByte.toList.length = s.count
  pending_lt : ctx.pending.length < start.cfg.blocksize
  blocks : ∃ k, ctx.out.hashed.length = k * start.cfg.blocksize
  wBytes_eq : ctx.stats.wBytes = ctx.out.hashed.length
  delivered_eq : ctx.out.delivered = ctx.out.hashed

theorem SwabAt.written (h : SwabAt start limit s ctx st) :
    ctx.stats.wBytes = swabWritten start.cfg.blocksize s.count := by
  obtain ⟨k, hk⟩ := h.blocks
  have hsaved : st.savedByte.toList.length ≤ 1 := by
    cases st.savedByte <;> simp
  have hcount := h.count_eq
  have heven := h.even
  have hpairs : s.count - s.count % 2 = ctx.issued.length := by omega
  have hissued : ctx.issued.length = ctx.pending.length + start.cfg.blocksize * k := by
    rw [Ctx.issued, List.length_append, hk, Nat.mul_comm]
    omega
  have hpos : 0 < start.cfg.blocksize := Nat.zero_lt_of_lt h.pending_lt
  rw [h.wBytes_eq, swabWritten, hpairs, hissued, Nat.add_mul_div_left _ _ hpos,
    Nat.div_eq_of_lt h.pending_lt, Nat.zero_add, hk]

theorem SwabAt.request (h : SwabAt start limit s ctx st) (hmax : start.cfg.maxBytes = 0) :
    syncToRead ctx st = swabRequest limit start.cfg.blocksize start.cfg.maxRecords s := by
  simp only [syncToRead, h.limit_eq, swabRequest, h.written, h.cfg_eq, h.records_eq, hmax]

theorem SwabLimited.swabAt (h : SwabLimited start.cfg limit) (hfresh : Fresh start) :
    SwabAt start limit ⟨0, 0, start.input⟩ (syncDriverInit env start).1
      (syncDriverInit env start).2 := by
  have hready := syncDriverInit_ready env hfresh
  have hcfg := hready.plain h.autotune
  have hroomy := hready.roomy
  have hsplit : (syncDriverInit env start).1.unified = false := by
    cases hu : (syncDriverInit env start).1.unified with
    | false => rfl
    | true =>
      have hplain := hroomy.unified_plain hu
      rw [hcfg, h.swab] at hplain
      cases hplain
  obtain ⟨bs, records, bytes, ibuf, unified, obufSize, hctx⟩ := hready.ctx_eq
  have hout : (syncDriverInit env start).1.out = start.out := by rw [hctx]
  have hpending : (syncDriverInit env start).1.pending = [] := by rw [hctx]; exact hfresh.pending_eq
  have hstats : (syncDriverInit env start).1.stats = {} := by rw [hctx]; exact hfresh.stats_eq
  have hhashed : start.out.hashed = [] := by rw [OutState.hashed, hfresh.calls_eq]; rfl
  have hissued : (syncDriverInit env start).1.issued = [] := by
    rw [Ctx.issued, hpending, hout, hhashed]
    rfl
  refine ⟨hroomy, hcfg, ?_, hready.limit_eq _ h.limit_eq, hsplit, ?_, ?_, ?_, ?_, ?_, ?_, ?_, ?_⟩
  · rw [hready.active_eq]
    exact h.autotune
  · rw [hctx]
  · rw [hstats]
    rfl
  · rw [hissued]
    rfl
  · rw [hissued, hready.savedByte_eq]
    rfl
  · rw [hpending]
    exact h.block_pos
  · exact ⟨0, by rw [hout, hhashed, Nat.zero_mul]; rfl⟩
  · rw [hstats, hout, hhashed]
    rfl
  · rw [hout, hhashed, OutState.delivered, hfresh.calls_eq]
    rfl

/-- A block of a swapped copy. -/
theorem SwabAt.block (h : SwabAt start limit s ctx st) (hl : SwabLimited start.cfg limit)
    (hacc : Accepts O) {bytes : List Byte} {input : ρ}
    (hle : bytes.length ≤ start.cfg.blocksize)
    (hb : Blocked O env { ctx with input := input, ibuf := readInto ctx.ibuf bytes } st bytes.length
      e ctx' st') :
    SwabAt start limit ⟨s.count + bytes.length, s.records + 1, input⟩ ctx' st' := by
  have hblock : start.cfg.blocksize ≤ bufferBlock start.cfg := blocksize_le_bufferBlock _
  have hibuf := h.roomy.ibuf_length
  have hroom : bytes.length ≤ ctx.ibuf.length := by omega
  have hroomy : Roomy (bufferBlock start.cfg)
      { ctx with input := input, ibuf := readInto ctx.ibuf bytes } st :=
    h.roomy.of_ibuf (length_readInto hroom)
  have hsync : ctx.cfg.conversions.sync = false := by rw [h.cfg_eq]; exact hl.sync
  have hswab : ctx.cfg.conversions.swab = true := by rw [h.cfg_eq]; exact hl.swab
  obtain ⟨stats, partread, hwBytes, hrecords, hh⟩ := Blocked.unpadded hb hsync
  have hlt : bytes.length < (readInto ctx.ibuf bytes).length := by
    rw [length_readInto hroom]
    omega
  have hroomy' : Roomy (bufferBlock start.cfg) ctx' st' :=
    Roomy.handed (hroomy.of_ibuf rfl) hh
  have hk := hh.keeps
  obtain ⟨-, ibuf, out, hr⟩ := hh.reblocked h.split h.active_eq
  obtain ⟨even, heven, hcarry, hissued⟩ := hh.issued_swab hswab h.split hlt
  simp only [readInto, List.take_left] at hcarry
  have hcarried := congrArg List.length hcarry
  rw [List.length_append, List.length_append] at hcarried
  have hlength : ctx'.issued.length = ctx.issued.length + even.length := by
    rw [hissued, List.length_append, length_swapPairs]
    rfl
  have hcount := h.count_eq
  have hpairs := h.even
  have hrec := hk.records_eq
  have hrec₀ := h.records_eq
  have hcounted := hk.counted.wBytes_eq hacc
  have hwritten := h.wBytes_eq
  have hlt' := hr.pending_lt
  obtain ⟨j, hj⟩ := h.blocks
  obtain ⟨k, hk'⟩ := hr.blocks
  simp only [h.cfg_eq] at hrec hcounted hlt' hk' hrecords hwBytes
  refine ⟨hroomy', (hk.plain h.active_eq).1.trans h.cfg_eq, (hk.plain h.active_eq).2,
    hk.limit_eq.trans h.limit_eq, hk.unified_eq.trans h.split, hk.input_eq, ?_, ?_, ?_,
    hlt' h.pending_lt, ⟨j + k, ?_⟩, ?_, hk.counted.delivered_eq hacc h.delivered_eq⟩
  · simp only
    omega
  · omega
  · simp only
    omega
  · rw [hk', hj, Nat.add_mul]
  · omega

/-- Reads that bring nothing. -/
theorem SwabAt.idle (h : SwabAt start limit s ctx st) (input : ρ) :
    SwabAt start limit { s with input := input } { ctx with input := input } st :=
  ⟨h.roomy.of_ibuf rfl, h.cfg_eq, h.active_eq, h.limit_eq, h.split, rfl, h.records_eq, h.even,
    h.count_eq, h.pending_lt, h.blocks, h.wBytes_eq, h.delivered_eq⟩

section Steps

variable {rest : ρ → List Byte} {n : Nat}

/-- The reads of a copy from this start. -/
def swabReads (I : Input ρ) (env : Env) (start : Ctx ρ ω) (limit n : Nat) : Intake ρ :=
  swabIntake I env start.cfg.inputFlags.direct limit start.cfg.blocksize start.cfg.maxRecords
    start.input n

theorem swabReads_mono (law : ReadsFrom I rest) (env : Env) (start : Ctx ρ ω) (limit : Nat)
    {m n : Nat} (h : m ≤ n) :
    let s := swabReads I env start limit m
    let t := swabReads I env start limit n
    s.count ≤ t.count ∧ s.records ≤ t.records ∧
      t.count + (rest t.input).length = s.count + (rest s.input).length ∧
      (start.cfg.maxRecords ≤ s.records → t.count = s.count) :=
  swabIntake_mono law env start.cfg.inputFlags.direct limit start.cfg.blocksize
    start.cfg.maxRecords start.input h

theorem SwabAt.reads (hl : SwabLimited start.cfg limit) (h : SwabAt start limit s ctx st)
    {r : Except Errno (List Byte)} {input : ρ} (hread : SyncReads I env ctx st r input) :
    ddIread I env start.cfg.inputFlags.direct s.input
      (swabRequest limit start.cfg.blocksize start.cfg.maxRecords s) = .ok (r, input) := by
  rw [SyncReads, h.request hl.maxBytes_eq, h.cfg_eq, h.input_eq] at hread
  exact hread

theorem SwabAt.step (hl : SwabLimited start.cfg limit) (law : ReadsFrom I rest) (hacc : Accepts O)
    (h : SwabAt start limit (swabReads I env start limit n) ctx st)
    (hst : Stepped I O env ctx st .again ctx' st') :
    SwabAt start limit (swabReads I env start limit (n + 1)) ctx' st' := by
  have hsync : ctx.cfg.conversions.sync = false := by rw [h.cfg_eq]; exact hl.sync
  cases hst with
  | @block bytes input _ _ _ hfull hread hne hroom hblock =>
    have hread' := h.reads hl hread
    have hle := Takes.length_le (law.ddIread hread')
    have hnext : swabReads I env start limit (n + 1) =
        ⟨(swabReads I env start limit n).count + bytes.length,
          (swabReads I env start limit n).records + 1, input⟩ := by
      simp only [swabReads, swabIntake] at hread' ⊢
      rw [hread']
      cases bytes with
      | nil => exact absurd rfl hne
      | cons b bs => rfl
    rw [hnext]
    refine h.block hl hacc ?_ hblock
    rw [swabRequest] at hle
    split at hle <;> omega
  | badBlock hfull hread hnoerror hs => simp [hsync] at hs
  | @passedOver err input hfull hread hnoerror =>
    have hread' := h.reads hl hread
    have hnext : swabReads I env start limit (n + 1) =
        { swabReads I env start limit n with input := input } := by
      simp only [swabReads, swabIntake] at hread' ⊢
      rw [hread']
    rw [hnext]
    exact h.idle input

/-- Where the copy stops. -/
def Stopped (rest : ρ → List Byte) (limit bs maxRecords : Nat) (s : Intake ρ) : Prop :=
  limit ≤ swabWritten bs s.count ∨ rest s.input = [] ∨ maxRecords ≤ s.records

theorem swabWritten_le (bs count : Nat) : swabWritten bs count ≤ count :=
  (Nat.div_mul_le_self _ _).trans (Nat.sub_le _ _)

/-- Whole pairs and whole blocks alone are written as soon as they are read. -/
theorem swabWritten_eq_self_iff {bs count : Nat} :
    swabWritten bs count = count ↔ 2 ∣ count ∧ bs ∣ count := by
  constructor
  · intro h
    have hle := Nat.div_mul_le_self (count - count % 2) bs
    rw [swabWritten] at h
    exact ⟨by omega, h ▸ Nat.dvd_mul_left _ _⟩
  · rintro ⟨htwo, hbs⟩
    rw [swabWritten, Nat.mod_eq_zero_of_dvd htwo, Nat.sub_zero, Nat.div_mul_cancel hbs]

/-- The reads of a copy that has come to this point: none before them reached the limit. -/
structure SwabReached (start : Ctx ρ ω) (I : Input ρ) (env : Env) (limit n : Nat) (ctx : Ctx ρ ω)
    (st : SyncState) : Prop where
  now : SwabAt start limit (swabReads I env start limit n) ctx st
  before : ∀ k < n, swabWritten start.cfg.blocksize (swabReads I env start limit k).count < limit

theorem swabReached_of_reaches (hl : SwabLimited start.cfg limit) (hfresh : Fresh start)
    (law : ReadsFrom I rest) (hacc : Accepts O) {u : Ctx ρ ω × SyncState}
    (h : SyncReaches I O env start u) :
    ∃ n, SwabReached start I env limit n u.1 u.2 := by
  have hinit : SwabReached start I env limit 0 (syncDriverInit env start).1
      (syncDriverInit env start).2 := ⟨hl.swabAt hfresh, fun k hk => absurd hk (Nat.not_lt_zero k)⟩
  refine h.invariant (I := fun s => ∃ n, SwabReached start I env limit n s.1 s.2) ?_ ⟨0, hinit⟩
  rintro s t ⟨n, hs, hbefore⟩ hst
  obtain ⟨hgo, hstep⟩ := syncLoopBody_continues hst
  refine ⟨n + 1, hs.step hl law hacc hstep, fun k hk => ?_⟩
  rcases Nat.lt_succ_iff_lt_or_eq.mp hk with hlt | rfl
  · exact hbefore k hlt
  · rw [← hs.written]
    simpa [limitReached, hs.cfg_eq, hl.limit_eq] using hgo

/-- A successful copy stops for one of three reasons. -/
theorem SwabReached.stopped (hl : SwabLimited start.cfg limit) (law : ReadsFrom I rest)
    {u t : Ctx ρ ω × SyncState} (h : SwabReached start I env limit n u.1 u.2)
    (hleft : Left I O env u .success t) :
    Stopped rest limit start.cfg.blocksize start.cfg.maxRecords (swabReads I env start limit n) ∧
      t.1.issued = u.1.issued ∧ t.1.stats = u.1.stats ∧ t.1.out = u.1.out ∧
      t.2.savedByte = u.2.savedByte := by
  have hnow := h.now
  cases hleft with
  | limit hlimit =>
    refine ⟨.inl ?_, rfl, rfl, rfl, rfl⟩
    rw [← hnow.written]
    simpa [limitReached, hnow.cfg_eq, hl.limit_eq] using hlimit
  | eof hgo hstep =>
    obtain ⟨t, st⟩ := t
    simp only at hstep
    cases hstep with
    | full hfull =>
      obtain ⟨limit', hlimit', hle⟩ := hfull
      obtain rfl := Option.some.inj (hnow.limit_eq.symm.trans hlimit')
      refine ⟨.inl ?_, rfl, rfl, rfl, rfl⟩
      rw [← hnow.written]
      exact hle
    | atEnd hfull hread =>
      refine ⟨?_, rfl, rfl, rfl, rfl⟩
      have htook : Takes rest _ _ [] _ := law.ddIread (hnow.reads hl hread)
      rcases htook.at_end rfl with hzero | hend
      · rw [swabRequest] at hzero
        have hpos := hl.block_pos
        split at hzero
        · rename_i hmax
          exact .inr (.inr hmax)
        · exact .inl (by omega)
      · exact .inr (.inl hend)
    | block hfull hread hne hroom hblock =>
      obtain ⟨stats, partread, -, -, hh⟩ := Blocked.unpadded hblock (by
        simp only [hnow.cfg_eq]
        exact hl.sync)
      obtain ⟨he, -⟩ := hh.reblocked hnow.split hnow.active_eq
      cases he
    | badBlock hfull hread hnoerror hs =>
      rw [hnow.cfg_eq, hl.sync] at hs
      cases hs

/-- A copy that stops has written just the limit if and only if its reads bring just the limit, and
then it stops. -/
theorem swabReads_stop (law : ReadsFrom I rest)
    (hbefore : ∀ k < n,
      swabWritten start.cfg.blocksize (swabReads I env start limit k).count < limit)
    (hstop : Stopped rest limit start.cfg.blocksize start.cfg.maxRecords
      (swabReads I env start limit n)) :
    (swabReads I env start limit n).count = limit ↔
      ∃ k, (swabReads I env start limit k).count = limit ∧
        (rest (swabReads I env start limit k).input = [] ∨
          2 ∣ limit ∧ start.cfg.blocksize ∣ limit ∨
          start.cfg.maxRecords ≤ (swabReads I env start limit k).records) := by
  constructor
  · intro heq
    refine ⟨n, heq, ?_⟩
    rcases hstop with hle | hend | hmax
    · rw [heq] at hle
      exact .inr (.inl (swabWritten_eq_self_iff.mp (Nat.le_antisymm (swabWritten_le _ _) hle)))
    · exact .inl hend
    · exact .inr (.inr hmax)
  · rintro ⟨k, heq, hwhy⟩
    rcases Nat.lt_or_ge n k with hlt | hge
    · obtain ⟨hcount, -, htaken, hnone⟩ := swabReads_mono law env start limit hlt.le
      rcases hstop with hle | hend | hmax
      · have hwritten := swabWritten_le start.cfg.blocksize (swabReads I env start limit n).count
        omega
      · rw [hend, List.length_nil] at htaken
        omega
      · have hsame := hnone hmax
        omega
    · obtain ⟨hcount, -, htaken, hnone⟩ := swabReads_mono law env start limit hge
      rcases hwhy with hend | hwhole | hmax
      · rw [hend, List.length_nil] at htaken
        omega
      · rcases Nat.lt_or_eq_of_le hge with hlt | rfl
        · have hsmall := hbefore k hlt
          rw [heq, swabWritten_eq_self_iff.mpr hwhole] at hsmall
          exact absurd hsmall (Nat.lt_irrefl _)
        · exact heq
      · exact (hnone hmax).trans heq

/-- A swapped copy under a limit writes just the limit exactly where some of its reads bring just
that, and the input ends there, or the limit is of whole pairs and whole blocks, or the records
are used up. -/
theorem swab_limit_iff {cfg : Config} {input : ρ} {file : ω} (hcfg : SwabLimited cfg limit)
    (law : ReadsFrom I rest) (hacc : Accepts O)
    (hbegin : ddCopyStart I O env (.start cfg input file) = .ok (none, start))
    (hrun : syncTransfer I O env start = .ok (.success, ctx')) :
    ctx'.out.delivered.length = limit ↔
      ∃ k, (swabReads I env start limit k).count = limit ∧
        (rest (swabReads I env start limit k).input = [] ∨
          2 ∣ limit ∧ start.cfg.blocksize ∣ limit ∨
          start.cfg.maxRecords ≤ (swabReads I env start limit k).records) := by
  obtain ⟨hfresh, hsought⟩ := ddCopyStart_fresh hcfg.block_pos hbegin
  have hl : SwabLimited start.cfg limit := hcfg.sought hsought
  obtain ⟨u, t, ctx₁, hu, hleft, hflushed, hcalls, -⟩ := syncTransfer_flushed hrun
  obtain ⟨n, hn⟩ := swabReached_of_reaches hl hfresh law hacc hu
  obtain ⟨hstop, hissued, -, hout, hsaved⟩ := hn.stopped hl law hleft
  have hdelivered : ctx₁.out.delivered = ctx₁.out.hashed :=
    hflushed.counted.delivered_eq hacc (by rw [hout]; exact hn.now.delivered_eq)
  have hlength : ctx'.out.delivered.length = (swabReads I env start limit n).count := by
    rw [OutState.delivered, hcalls, ← OutState.delivered, hdelivered, hflushed.hashed_eq, hissued,
      hsaved, List.length_append, hn.now.count_eq]
  rw [hlength]
  exact swabReads_stop law hn.before hstop

end Steps

end Run

section Example

def swabOdd : Config :=
  { blocksize := 2, bytesToCopy := some 3, conversions := { swab := true } }

def swabOddStart : Ctx (List Byte) (List Byte × Nat) := .start swabOdd [1, 2, 3, 4] ([], 0)

theorem contentInput_readsFrom : ReadsFrom contentInput id where
  data h := by
    obtain ⟨hr, rfl⟩ := Prod.mk.inj h
    obtain rfl := Except.ok.inj hr
    exact ⟨(List.take_append_drop _ _).symm, fun hnil => List.take_eq_nil_iff.mp hnil⟩
  error h := nomatch (Prod.mk.inj h).1

theorem contentOutput_accepts : Accepts contentOutput := fun _ _ bytes hne =>
  .inr ⟨bytes.length, List.length_pos_of_ne_nil hne, rfl⟩

theorem swabOdd_limited : SwabLimited swabOdd 3 := ⟨by decide, rfl, rfl, rfl, rfl, rfl⟩

/-- Under a limit of three bytes four are written. -/
theorem swab_limit_passed : ∃ ctx, ddCopySync contentInput contentOutput (plainEnv 4)
    swabOddStart = .ok (.success, ctx) ∧ swabOdd.bytesToCopy = some 3 ∧
    3 ≤ swabOddStart.input.length ∧ ctx.out.delivered = [2, 1, 4, 3] ∧
    ctx.out.delivered.length ≠ 3 := by
  refine ⟨_, rfl, rfl, by decide, rfl, ?_⟩
  simp only [OutState.delivered]
  decide

theorem swab_limit_iff_odd : ∃ start ctx : Ctx (List Byte) (List Byte × Nat),
    syncTransfer contentInput contentOutput (plainEnv 4) start = .ok (.success, ctx) ∧
      (ctx.out.delivered.length = 3 ↔ ∃ k,
        (swabReads contentInput (plainEnv 4) start 3 k).count = 3 ∧
          (id (swabReads contentInput (plainEnv 4) start 3 k).input = [] ∨
            2 ∣ 3 ∧ start.cfg.blocksize ∣ 3 ∨
            start.cfg.maxRecords ≤
              (swabReads contentInput (plainEnv 4) start 3 k).records)) := by
  obtain ⟨start, hbegin, ctx, hrun⟩ : ∃ start, ddCopyStart contentInput contentOutput (plainEnv 4)
      swabOddStart = .ok (none, start) ∧ ∃ ctx, syncTransfer contentInput contentOutput (plainEnv 4)
        start = .ok (.success, ctx) := ⟨_, rfl, _, rfl⟩
  exact ⟨start, ctx, hrun,
    swab_limit_iff swabOdd_limited contentInput_readsFrom contentOutput_accepts hbegin hrun⟩

end Example

end Blkcp.C
