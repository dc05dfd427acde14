import Blkcp.Lib.Ration
import Blkcp.C.AsyncRing
import Blkcp.C.RingCopy
import Blkcp.C.Success
import Blkcp.C.ZeroCopy
set_option autoImplicit false

/-! How much the drivers copy under a byte limit and a count of blocks. -/

namespace Blkcp.C
open Blkcp.Lib

variable {ρ ω : Type} {I : Input ρ} {O : Output ω} {env : Env} {rest : ρ → List Byte}

/-- Reads bring all that is asked for, up to the end of the input. -/
def FullReads (I : Input ρ) (rest : ρ → List Byte) : Prop :=
  ∀ {s direct n bytes t}, I.read s direct n = (.ok bytes, t) → bytes.length = min n (rest s).length

theorem FullReads.ddIread (hfull : FullReads I rest) (law : ReadsFrom I rest) {direct : Bool}
    {s t : ρ} {n : Nat} {bytes : List Byte}
    (h : ddIread I env direct s n = .ok (.ok bytes, t)) :
    bytes.length = min n (rest s).length := by
  obtain ⟨u, hu, hleave⟩ := loop_ok (P := fun u => rest u = rest s)
    (fun u v hu hst => by
      simp only [ddIreadBody] at hst
      split at hst
      · cases hst
      · rename_i hread
        split at hst
        · obtain rfl := Sum.inl.inj hst
          exact (law.error hread).trans hu
        split at hst <;> cases hst) h rfl
  simp only [ddIreadBody] at hleave
  split at hleave
  · rename_i hread
    obtain ⟨hbytes, -⟩ := Prod.mk.inj (Except.ok.inj (Sum.inr.inj hleave))
    obtain rfl := Except.ok.inj hbytes
    rw [hfull hread, hu]
  · rename_i input hread
    split at hleave
    · cases hleave
    split at hleave
    · rw [hfull (Except.ok.inj (Sum.inr.inj hleave)), law.error hread, hu]
    · cases (Prod.mk.inj (Except.ok.inj (Sum.inr.inj hleave))).1

/-- A copy under a byte limit and a count, without conversions and tuning. -/
structure LimitAndCount (cfg : Config) (limit count : Nat) : Prop where
  block_pos : 0 < cfg.blocksize
  limit_eq : cfg.bytesToCopy = some limit
  count_eq : cfg.maxRecords = count
  maxBytes_eq : cfg.maxBytes = 0
  swab : cfg.conversions.swab = false
  sync : cfg.conversions.sync = false
  noerror : cfg.conversions.noerror = false
  sparse : cfg.conversions.sparse = false
  autotune : cfg.conversions.autotune = false

variable {cfg : Config} {limit count : Nat}

theorem LimitAndCount.sought {cfg' : Config} (h : LimitAndCount cfg limit count)
    (hs : Sought cfg cfg') : LimitAndCount cfg' limit count := by
  obtain ⟨_, _, rfl⟩ := hs
  exact ⟨h.block_pos, h.limit_eq, h.count_eq, h.maxBytes_eq, h.swab, h.sync, h.noerror, h.sparse,
    h.autotune⟩

/-- `-c` beside `-l` leaves the limit alone. -/
theorem LimitAndCount.scanned {cfg : Config} {count₀ : Nat} (h : LimitAndCount cfg limit count₀)
    (count : Nat) : LimitAndCount (applyCount cfg (some count)) limit count := by
  have hscan : applyCount cfg (some count) = { cfg with maxRecords := count } := by
    simp only [applyCount, h.limit_eq]
  rw [hscan]
  exact ⟨h.block_pos, h.limit_eq, rfl, h.maxBytes_eq, h.swab, h.sync, h.noerror, h.sparse,
    h.autotune⟩

section Sync

variable {start ctx ctx' : Ctx ρ ω} {st st' : SyncState} {n total : Nat}

/-- The driver when `n` reads have brought `total` bytes; with a buffer of its own it writes whole
blocks. -/
structure SyncAt (rest : ρ → List Byte) (start : Ctx ρ ω) (limit count n total : Nat)
    (ctx : Ctx ρ ω) (st : SyncState) : Prop where
  roomy : Roomy (bufferBlock start.cfg) ctx st
  cfg_eq : ctx.cfg = start.cfg
  active_eq : st.autotune.active = false
  limit_eq : st.autotune.totalByteLimit = some limit
  savedByte_eq : st.savedByte = none
  records_eq : ctx.stats.rPartial + ctx.stats.rFull = n
  issued_length : ctx.issued.length = total
  rest_eq : (rest ctx.input).length + total = (rest start.input).length
  pending_lt : ctx.pending.length < start.cfg.blocksize
  blocks : ctx.unified = false → ∃ k, ctx.out.hashed.length = k * start.cfg.blocksize
  wBytes_eq : ctx.stats.wBytes = ctx.out.hashed.length
  delivered_eq : ctx.out.delivered = ctx.out.hashed
  rations : Rations (!ctx.unified) start.cfg.blocksize limit count (rest start.input).length n total

theorem SyncAt.written (h : SyncAt rest start limit count n total ctx st) :
    ctx.stats.wBytes = writtenOf (!ctx.unified) start.cfg.blocksize total := by
  have htotal := h.issued_length
  rw [Ctx.issued, List.length_append] at htotal
  rw [h.wBytes_eq, writtenOf]
  cases hu : ctx.unified with
  | true =>
    rw [h.roomy.unified_empty hu, List.length_nil, Nat.add_zero] at htotal
    exact htotal
  | false =>
    obtain ⟨k, hk⟩ := h.blocks hu
    have hpos : 0 < start.cfg.blocksize := Nat.zero_lt_of_lt h.pending_lt
    rw [hk] at htotal ⊢
    rw [← htotal, Nat.add_comm, Nat.mul_comm, Bool.not_false, if_pos rfl,
      Nat.add_mul_div_left _ _ hpos, Nat.div_eq_of_lt h.pending_lt, Nat.zero_add, Nat.mul_comm]

theorem SyncAt.request (h : SyncAt rest start limit count n total ctx st)
    (hl : LimitAndCount start.cfg limit count) :
    syncToRead ctx st = ration (!ctx.unified) start.cfg.blocksize limit count n total := by
  simp only [syncToRead, h.limit_eq, ration, h.written, h.cfg_eq, h.records_eq, hl.maxBytes_eq,
    hl.count_eq]

/-- What the next read brings. -/
theorem SyncAt.reads (h : SyncAt rest start limit count n total ctx st)
    (hl : LimitAndCount start.cfg limit count) (law : ReadsFrom I rest) (hfull : FullReads I rest)
    {bytes : List Byte} {input : ρ} (hread : SyncReads I env ctx st (.ok bytes) input) :
    bytes.length = rationed (!ctx.unified) start.cfg.blocksize limit count
      (rest start.input).length n total ∧
      (rest input).length + (total + bytes.length) = (rest start.input).length ∧
      bytes.length ≤ start.cfg.blocksize := by
  rw [SyncReads, h.request hl] at hread
  have hlen := hfull.ddIread law hread
  have htook : Takes rest ctx.input _ bytes input := law.ddIread hread
  have hrest := congrArg List.length htook.rest_eq
  rw [List.length_append] at hrest
  have htotal := h.rest_eq
  refine ⟨?_, by omega, ?_⟩
  · rw [hlen, rationed]
    congr 1
    omega
  · have hle := htook.length_le
    rw [ration] at hle
    split at hle <;> omega

theorem LimitAndCount.syncAt (hl : LimitAndCount start.cfg limit count) (hfresh : Fresh start) :
    SyncAt rest start limit count 0 0 (syncDriverInit env start).1 (syncDriverInit env start).2 := by
  have hready := syncDriverInit_ready env hfresh
  have hroomy := hready.roomy
  have hcfg := hready.plain hl.autotune
  obtain ⟨bs, records, bytes, ibuf, unified, obufSize, hctx⟩ := hready.ctx_eq
  have hout : (syncDriverInit env start).1.out = start.out := by rw [hctx]
  have hpending : (syncDriverInit env start).1.pending = [] := by rw [hctx]; exact hfresh.pending_eq
  have hstats : (syncDriverInit env start).1.stats = {} := by rw [hctx]; exact hfresh.stats_eq
  have hhashed : start.out.hashed = [] := by rw [OutState.hashed, hfresh.calls_eq]; rfl
  refine ⟨hroomy, hcfg, ?_, hready.limit_eq _ hl.limit_eq, hready.savedByte_eq, ?_, ?_, ?_, ?_,
    fun _ => ⟨0, ?_⟩, ?_, ?_, .start⟩
  · rw [hready.active_eq]
    exact hl.autotune
  · rw [hstats]
    rfl
  · rw [Ctx.issued, hpending, hout, hhashed]
    rfl
  · rw [hctx]
    rfl
  · rw [hpending]
    exact hl.block_pos
  · rw [hout, hhashed, Nat.zero_mul]
    rfl
  · rw [hstats, hout, hhashed]
    rfl
  · rw [hout, hhashed, OutState.delivered, hfresh.calls_eq]
    rfl

/-- A block that is handed on counts with what was delivered before it. -/
theorem Handed.paid {k : Nat} (h : Handed O env ctx st k .again ctx' st')
    (hacc : ctx.unified = false → Accepts O) (hk : k ≤ ctx.ibuf.length)
    (hbytes : ctx.stats.wBytes = ctx.out.hashed.length)
    (hdelivered : ctx.out.delivered = ctx.out.hashed) :
    ctx'.stats.wBytes = ctx'.out.hashed.length ∧ ctx'.out.delivered = ctx'.out.hashed := by
  cases h with
  | @direct out stats _ _ hunified hw hcount hfull hpartial ht =>
    obtain ⟨bs, records, bytes, rfl⟩ := ht.keeps.ctx_eq
    simp only [hcount, hw.hashed_eq, hw.delivered_eq, hbytes, hdelivered, List.length_append,
      List.length_take, Nat.min_eq_left hk, List.take_take, Nat.min_self, and_self]
  | copied hunified =>
    have hcounted := (Handed.copied hunified ‹_› ‹_› ‹_›).keeps.counted
    have hsum := hcounted.wBytes_eq (hacc hunified)
    exact ⟨by omega, hcounted.delivered_eq (hacc hunified) hdelivered⟩

/-- One more block, as it was read. -/
theorem SyncAt.block (h : SyncAt rest start limit count n total ctx st)
    (hl : LimitAndCount start.cfg limit count) (law : ReadsFrom I rest) (hfull : FullReads I rest)
    (hacc : ctx.unified = false → Accepts O) {bytes : List Byte} {input : ρ} (hne : bytes ≠ [])
    (hread : SyncReads I env ctx st (.ok bytes) input) (hroom : bytes.length ≤ ctx.ibuf.length)
    (hb : Blocked O env { ctx with input := input, ibuf := readInto ctx.ibuf bytes } st bytes.length
      .again ctx' st') :
    SyncAt rest start limit count (n + 1) (total + bytes.length) ctx' st' := by
  obtain ⟨hlen, hrest, -⟩ := h.reads hl law hfull hread
  have hrations := h.rations
  have hpos : 0 < bytes.length := List.length_pos_of_ne_nil hne
  have hnext := hrations.next (hlen ▸ hpos)
  rw [← hlen] at hnext
  have hroomy : Roomy (bufferBlock start.cfg)
      { ctx with input := input, ibuf := readInto ctx.ibuf bytes } st :=
    h.roomy.of_ibuf (length_readInto hroom)
  have hsync : ctx.cfg.conversions.sync = false := by rw [h.cfg_eq]; exact hl.sync
  have hswab : ctx.cfg.conversions.swab = false := by rw [h.cfg_eq]; exact hl.swab
  obtain ⟨stats, partread, hwBytes, hrecords, hh⟩ := Blocked.unpadded hb hsync
  have hroomy' : Roomy (bufferBlock start.cfg) ctx' st' := Roomy.handed (hroomy.of_ibuf rfl) hh
  have hk := hh.keeps
  obtain ⟨hissued, -, hsaved, -⟩ := hh.issued_plain hswab h.roomy.unified_empty
  simp only [readInto, List.take_left] at hissued
  have hunified : ctx'.unified = ctx.unified := hk.unified_eq
  have hrec := hk.records_eq
  have hrec₀ := h.records_eq
  have hlength : ctx'.issued.length = total + bytes.length := by
    rw [hissued, List.length_append]
    congr 1
    exact h.issued_length
  have hinput : ctx'.input = input := hk.input_eq
  simp only at hrec hwBytes hrecords
  have hpaid := hh.paid hacc (by rw [length_readInto hroom]; exact hroom)
    (hwBytes.trans h.wBytes_eq) h.delivered_eq
  refine ⟨hroomy', (hk.plain h.active_eq).1.trans h.cfg_eq, (hk.plain h.active_eq).2,
    hk.limit_eq.trans h.limit_eq, hsaved.trans h.savedByte_eq, by omega, hlength, ?_, ?_, ?_, ?_, ?_,
    ?_⟩
  · rw [hinput]
    exact hrest
  · cases hu : ctx.unified with
    | true =>
      rw [hroomy'.unified_empty (hunified.trans hu)]
      exact hl.block_pos
    | false =>
      obtain ⟨-, ibuf, out, hr⟩ := hh.reblocked hu h.active_eq
      have hlt := hr.pending_lt
      simp only [h.cfg_eq] at hlt
      exact hlt h.pending_lt
  · intro hu
    rw [hunified] at hu
    obtain ⟨j, hj⟩ := h.blocks hu
    obtain ⟨-, ibuf, out, hr⟩ := hh.reblocked hu h.active_eq
    obtain ⟨k, hk'⟩ := hr.blocks
    simp only [h.cfg_eq] at hk'
    exact ⟨j + k, by rw [hk', hj, Nat.add_mul]⟩
  · exact hpaid.1
  · exact hpaid.2
  · rw [hunified]
    exact hnext

theorem SyncAt.step (h : SyncAt rest start limit count n total ctx st)
    (hl : LimitAndCount start.cfg limit count) (law : ReadsFrom I rest) (hfull : FullReads I rest)
    (hacc : ctx.unified = false → Accepts O) (hst : Stepped I O env ctx st .again ctx' st') :
    ∃ k, SyncAt rest start limit count (n + 1) (total + k) ctx' st' := by
  have hnoerror : ctx.cfg.conversions.noerror = false := by rw [h.cfg_eq]; exact hl.noerror
  cases hst with
  | block _ hread hne hroom hblock => exact ⟨_, h.block hl law hfull hacc hne hread hroom hblock⟩
  | badBlock _ _ hskip => exact absurd (hnoerror.symm.trans hskip) (by decide)
  | passedOver _ _ hskip => exact absurd (hnoerror.symm.trans hskip) (by decide)

/-- The buffer that the seek has filled its blocks from stays a buffer of its own. -/
theorem syncDriverInit_unified (env : Env) (hfresh : Fresh start)
    (hswab : start.cfg.conversions.swab = false) :
    (syncDriverInit env start).1.unified = decide (start.obufSize = 0) := by
  by_cases hobuf : start.obufSize = 0
  · rw [(syncDriverInit_ready env hfresh).unified_eq hswab hobuf, decide_eq_true hobuf]
  · have halloc : (ddAllocObuf env (ddAllocIbuf env start)).unified = false := by
      have hsame : (ddAllocIbuf env start).obufSize = start.obufSize ∧
          (ddAllocIbuf env start).unified = start.unified := by
        rw [ddAllocIbuf]
        split <;> exact ⟨rfl, rfl⟩
      rw [ddAllocObuf, if_pos (.inr (by rw [hsame.1]; exact hobuf)), hsame.2, hfresh.unified_eq]
    rw [decide_eq_false hobuf, ← halloc, syncDriverInit]
    dsimp only
    split
    · split <;> rfl
    · rfl

theorem syncAt_of_reaches (hl : LimitAndCount start.cfg limit count) (hfresh : Fresh start)
    (law : ReadsFrom I rest) (hfull : FullReads I rest)
    (hacc : start.obufSize ≠ 0 → Accepts O) {u : Ctx ρ ω × SyncState}
    (h : SyncReaches I O env start u) :
    u.1.unified = decide (start.obufSize = 0) ∧
      ∃ n total, SyncAt rest start limit count n total u.1 u.2 := by
  refine h.invariant (I := fun s : Ctx ρ ω × SyncState =>
    s.1.unified = decide (start.obufSize = 0) ∧
      ∃ n total, SyncAt rest start limit count n total s.1 s.2) ?_
    ⟨syncDriverInit_unified env hfresh hl.swab, 0, 0, hl.syncAt hfresh⟩
  rintro s t ⟨hu, n, total, hs⟩ hst
  obtain ⟨-, hstep⟩ := syncLoopBody_continues hst
  have hsplit : s.1.unified = false → Accepts O := fun hno => hacc (by simpa [hu] using hno)
  obtain ⟨k, ht⟩ := hs.step hl law hfull hsplit hstep
  exact ⟨hstep.keeps.unified_eq.trans hu, _, _, ht⟩

/-- A copy ends well when the limit is written or a read brings nothing. -/
theorem SyncAt.satisfied (hl : LimitAndCount start.cfg limit count) (law : ReadsFrom I rest)
    (hfull : FullReads I rest) {u t : Ctx ρ ω × SyncState}
    (h : SyncAt rest start limit count n total u.1 u.2) (hleft : Left I O env u .success t) :
    Satisfied (!u.1.unified) start.cfg.blocksize limit count (rest start.input).length n total := by
  cases hleft with
  | limit hlimit =>
    rw [limitReached, h.cfg_eq, hl.limit_eq] at hlimit
    rw [Satisfied, ← h.written]
    exact .inl (of_decide_eq_true hlimit)
  | eof _ hstep =>
    obtain ⟨t, st⟩ := t
    simp only at hstep
    cases hstep with
    | full hfull' =>
      obtain ⟨limit', hlimit', hle⟩ := hfull'
      obtain rfl := Option.some.inj (h.limit_eq.symm.trans hlimit')
      rw [Satisfied, ← h.written]
      exact .inl hle
    | atEnd _ hread => exact .inr (h.reads hl law hfull hread).1.symm
    | block _ _ _ _ hblock => cases hblock
    | badBlock _ _ _ _ _ hblock => cases hblock

/-- What a copy that ends well has delivered. -/
theorem syncTransfer_rations (hl : LimitAndCount start.cfg limit count) (hfresh : Fresh start)
    (law : ReadsFrom I rest) (hfull : FullReads I rest) (hacc : start.obufSize ≠ 0 → Accepts O)
    (h : syncTransfer I O env start = .ok (.success, ctx')) : ∃ n,
      Rations (decide (start.obufSize ≠ 0)) start.cfg.blocksize limit count
        (rest start.input).length n ctx'.out.delivered.length ∧
      Satisfied (decide (start.obufSize ≠ 0)) start.cfg.blocksize limit count
        (rest start.input).length n ctx'.out.delivered.length := by
  obtain ⟨u, t, ctx₁, hu, hleave, hflush, hcalls, -⟩ := syncTransfer_left h
  have hleft := syncLoopBody_left hleave
  obtain ⟨hunified, n, total, hat⟩ := syncAt_of_reaches hl hfresh law hfull hacc hu
  obtain ⟨hout, hpending, hst⟩ := hleft.success_same
  have happart : (!u.1.unified) = decide (start.obufSize ≠ 0) := by rw [hunified]; simp
  have hflushed := syncDriverFlush_flushed hflush
  have hhashed : ctx₁.out.hashed = u.1.issued := by
    rw [hflushed.hashed_eq, hst, hat.savedByte_eq, Ctx.issued, Ctx.issued, hout, hpending,
      Option.toList_none, List.append_nil]
  have hdelivered : ctx₁.out.delivered = ctx₁.out.hashed := by
    by_cases hobuf : start.obufSize = 0
    · have hempty : t.1.pending = [] :=
        hpending.trans (hat.roomy.unified_empty (hunified.trans (decide_eq_true hobuf)))
      have hnothing : syncDriverFlush O env t.1 t.2 = .ok t.1 :=
        syncDriverFlush_nothing (hst ▸ hat.savedByte_eq) hempty
      obtain rfl := Except.ok.inj (hnothing.symm.trans hflush)
      rw [hout, hat.delivered_eq]
    · exact hflushed.counted.delivered_eq (hacc hobuf) (by rw [hout]; exact hat.delivered_eq)
  have hlength : ctx'.out.delivered.length = total := by
    rw [OutState.delivered, hcalls, ← OutState.delivered, hdelivered, hhashed, hat.issued_length]
  have hsatisfied := hat.satisfied hl law hfull hleft
  have hrations := hat.rations
  rw [happart] at hsatisfied hrations
  rw [hlength]
  exact ⟨n, hrations, hsatisfied⟩

end Sync

section Async

variable {start : Ctx ρ ω} {capacity : Nat} {s t : AsyncState ρ ω} {a : AsyncAct}

/-- The reader asks for as much as a writer that holds nothing back. -/
theorem asyncToRead_ration (hl : LimitAndCount cfg limit count) {records total n : Nat}
    (h : asyncToRead cfg records total = some n) :
    n = ration false cfg.blocksize limit count records total := by
  have hlt := recordLimit_lt h
  have hcount : recordLimit cfg = count := by
    rw [recordLimit, hl.maxBytes_eq, hl.count_eq]
    rfl
  rw [asyncToRead, if_neg (by omega)] at h
  simp only [hl.limit_eq, hl.count_eq] at h
  split at h
  · cases h
  · obtain rfl := Option.some.inj h
    have hmore : ¬count ≤ records := by omega
    rw [if_neg hmore, ration, writtenOf, if_neg (by decide), if_neg hmore]

/-- What the reader counts. -/
def AsyncState.Rationed (cfg : Config) (limit count avail : Nat) (s : AsyncState ρ ω) : Prop :=
  Rations false cfg.blocksize limit count avail s.recordsDone s.totalBytesRead

theorem asyncStep_rationed (hl : LimitAndCount start.cfg limit count) (law : ReadsFrom I rest)
    (hfull : FullReads I rest) (hinv : AsyncInv rest start capacity s)
    (h : s.Rationed start.cfg limit count (rest start.input).length)
    (hs : AsyncStep I O env s a t) :
    t.Rationed start.cfg limit count (rest start.input).length := by
  cases hs with
  | reads i n r input hr hn hread =>
    rw [hinv.cfg_eq] at hn
    have hration := asyncToRead_ration hl hn
    unfold AsyncState.fillSlot
    split
    · exact h
    · exact h
    · rename_i bytes hne
      split
      · exact h
      · have hlen := hfull.ddIread law hread
        have hpos : 0 < bytes.length := List.length_pos_of_ne_nil hne
        have hall := congrArg List.length hinv.intaken.all_eq
        rw [List.length_append, ← hinv.intaken.total_eq] at hall
        have hbrought : bytes.length = rationed false start.cfg.blocksize limit count
            (rest start.input).length s.recordsDone s.totalBytesRead := by
          rw [hlen, rationed, hration]
          congr 1
          omega
        have hnext := Rations.next h (hbrought ▸ hpos)
        rw [← hbrought] at hnext
        exact hnext
  | _ => exact h

/-- What a copy that ends well has delivered. -/
theorem asyncSystem_rations {input : ρ} {file : ω} (hl : LimitAndCount cfg limit count)
    (hcap : 2 ≤ capacity) (law : ReadsFrom I rest) (hfull : FullReads I rest)
    (hbegin : ddCopyStart I O env (.start cfg input file) = .ok (none, start))
    (h : (asyncSystem I O env start capacity).Reachable s) (hw : s.writer = .ended .success) :
    ∃ n, Rations false cfg.blocksize limit count (rest start.input).length n
        s.ctx.out.delivered.length ∧
      Satisfied false cfg.blocksize limit count (rest start.input).length n
        s.ctx.out.delivered.length := by
  obtain ⟨hfresh, hsought⟩ := ddCopyStart_fresh hl.block_pos hbegin
  have hl' := hl.sought hsought
  have hblock : start.cfg.blocksize = cfg.blocksize := by
    obtain ⟨_, _, hcfg⟩ := hsought
    rw [hcfg]
  have hboth : AsyncInv rest start capacity s ∧
      s.Rationed start.cfg limit count (rest start.input).length := by
    refine h.invariant (I := fun s => AsyncInv rest start capacity s ∧
      s.Rationed start.cfg limit count (rest start.input).length)
      (fun s hs => ?_) fun s a t hs hst => ?_
    · rw [hs]
      exact ⟨asyncDriverInit_inv hfresh (by omega), .start⟩
    · exact ⟨asyncStep_inv law hfresh.block_pos hs.1 hst,
        asyncStep_rationed hl' law hfull hs.1 hs.2 hst⟩
  obtain ⟨hinv, hrations⟩ := hboth
  obtain ⟨hdone, hall⟩ := hinv.through (by rw [hw]; rfl)
  have hdelivered := hinv.paid.delivered_eq (by rw [hw]; rfl)
  have hlength : s.ctx.out.delivered.length = s.totalBytesRead := by
    rw [hdelivered, ← hall, hinv.intaken.total_eq]
  rw [hlength, ← hblock]
  refine ⟨s.recordsDone, hrations, ?_⟩
  rw [Satisfied, writtenOf, if_neg (by decide)]
  rcases hdone with hrecords | ⟨limit', hlimit', hle⟩ | hnil
  · rw [recordLimit, hl'.maxBytes_eq, hl'.count_eq] at hrecords
    simp only [ne_eq, not_true_eq_false, if_false, Nat.add_zero] at hrecords
    rw [rationed, ration, if_pos (by omega), Nat.min_zero, Nat.zero_min]
    exact .inr rfl
  · obtain rfl := Option.some.inj (hl'.limit_eq.symm.trans hlimit')
    exact .inl hle
  · have hsum := congrArg List.length hinv.intaken.all_eq
    rw [hnil, List.append_nil, ← hinv.intaken.total_eq] at hsum
    rw [rationed, hsum, Nat.sub_self, Nat.min_zero]
    exact .inr rfl

end Async

/-- The drivers; the synchronous one has an output buffer of its own where the seek has filled
blocks from it. -/
inductive CopyDriver where
  | sync (apart : Bool) | async | ring | reflink | splice
  deriving DecidableEq

/-- A copy by one of the drivers that ends with success, of a regular input of which these bytes are
unread after the skip: how many it delivers. A count of zero ends it before the driver. -/
inductive DriverRun (cfg : Config) (unread : List Byte) : CopyDriver → Nat → Prop where
  | early {d : CopyDriver} : cfg.maxRecords = 0 → cfg.maxBytes = 0 → DriverRun cfg unread d 0
  | sync {ρ ω : Type} {I : Input ρ} {O : Output ω} {env : Env} {rest : ρ → List Byte} {input : ρ}
      {file : ω} {start ctx : Ctx ρ ω} : ReadsFrom I rest → FullReads I rest →
      ddCopyStart I O env (.start cfg input file) = .ok (none, start) → rest start.input = unread →
      (start.obufSize ≠ 0 → Accepts O) → syncTransfer I O env start = .ok (.success, ctx) →
      DriverRun cfg unread (.sync (decide (start.obufSize ≠ 0))) ctx.out.delivered.length
  | async {ρ ω : Type} {I : Input ρ} {O : Output ω} {env : Env} {rest : ρ → List Byte} {input : ρ}
      {file : ω} {start : Ctx ρ ω} {capacity : Nat} {s : AsyncState ρ ω} : ReadsFrom I rest →
      FullReads I rest → ddCopyStart I O env (.start cfg input file) = .ok (none, start) →
      rest start.input = unread → 2 ≤ capacity →
      (asyncSystem I O env start capacity).Reachable s → s.writer = .ended .success →
      DriverRun cfg unread .async s.ctx.out.delivered.length
  | ring {fds : Descriptors} {input : List Byte} {s : RingState Byte} :
      ¬(cfg.maxRecords = 0 ∧ cfg.maxBytes = 0) → input.length < intmaxMax →
      source fds input = unread →
      ((ringSystem cfg fds input).restrict fun s a => FullCompletion fds input s a).Reachable s →
      s.phase = .done .success → DriverRun cfg unread .ring (s.log.flatMap (·.bytes)).length
  | reflink {env : Env} {results : Nat → Except Errno Nat} {s : MoveState} :
      ¬(cfg.maxRecords = 0 ∧ cfg.maxBytes = 0) →
      reflinkTransfer env cfg results unread = .ok (.eof, s) →
      DriverRun cfg unread .reflink s.moved.length
  | splice {env : Env} {piped : Bool} {results : Nat → Except Errno Nat} {s : MoveState} :
      ¬(cfg.maxRecords = 0 ∧ cfg.maxBytes = 0) →
      spliceTransfer env cfg piped results unread = .ok (.eof, s) →
      DriverRun cfg unread .splice s.moved.length

/-- When a driver copies the smallest of the limit, `count` blocks and what there is. -/
def HonoursBoth (cfg : Config) (limit count avail : Nat) : CopyDriver → Prop
  | .sync apart => apart = true → NoOverrun cfg.blocksize limit count avail
  | .async => True
  -- these drivers look at the limit alone
  | .ring | .reflink | .splice => count = 0 ∨ min limit avail ≤ count * cfg.blocksize

theorem length_take_eq_iff {unread : List Byte} (hcount : count ≠ 0) :
    (unread.take limit).length = min limit (min (count * cfg.blocksize) unread.length) ↔
      count = 0 ∨ min limit unread.length ≤ count * cfg.blocksize := by
  rw [List.length_take]
  omega

theorem driver_amount_iff {unread : List Byte} {d : CopyDriver} {copied : Nat}
    (hl : LimitAndCount cfg limit count) (h : DriverRun cfg unread d copied) :
    copied = min limit (min (count * cfg.blocksize) unread.length) ↔
      HonoursBoth cfg limit count unread.length d := by
  have hdriven : ¬(cfg.maxRecords = 0 ∧ cfg.maxBytes = 0) → count ≠ 0 := fun hgo hzero =>
    hgo ⟨hl.count_eq.trans hzero, hl.maxBytes_eq⟩
  cases h with
  | @early d hrecords hbytes =>
    obtain rfl : count = 0 := hl.count_eq.symm.trans hrecords
    have hzero : 0 = min limit (min (0 * cfg.blocksize) unread.length) := by omega
    refine ⟨fun _ => ?_, fun _ => hzero⟩
    cases d with
    | sync => exact fun _ => .inr (.inr (Nat.zero_le _))
    | async => trivial
    | ring | reflink | splice => exact .inl rfl
  | @sync ρ ω I O env rest input file start ctx law hfull hbegin hunread hacc hrun =>
    obtain ⟨hfresh, hsought⟩ := ddCopyStart_fresh hl.block_pos hbegin
    have hblock : start.cfg.blocksize = cfg.blocksize := by
      obtain ⟨_, _, hcfg⟩ := hsought
      rw [hcfg]
    obtain ⟨n, hrations, hdone⟩ :=
      syncTransfer_rations (hl.sought hsought) hfresh law hfull hacc hrun
    rw [hunread, hblock] at hrations hdone
    cases hapart : decide (start.obufSize ≠ 0) with
    | false =>
      rw [hapart] at hrations hdone
      exact ⟨fun _ => nofun, fun _ => hrations.amount hl.block_pos hdone⟩
    | true =>
      rw [hapart] at hrations hdone
      rw [hrations.amount_apart_iff hl.block_pos hdone]
      exact ⟨fun h _ => h, fun h => h rfl⟩
  | async law hfull hbegin hunread hcap hreach hw =>
    obtain ⟨n, hrations, hdone⟩ := asyncSystem_rations hl hcap law hfull hbegin hreach hw
    rw [hunread] at hrations hdone
    exact ⟨fun _ => trivial, fun _ => hrations.amount hl.block_pos hdone⟩
  | ring hgo hlen hsource hreach hdone =>
    obtain ⟨hlog, -⟩ := ring_copies hl.block_pos
      (fun hnone => nomatch hl.limit_eq.symm.trans hnone) hlen hreach hdone
    rw [hlog.flatMap_bytes, copyLength, hl.limit_eq, hsource]
    simp only [← length_take_eq_iff (hdriven hgo), HonoursBoth, List.length_take, Nat.min_assoc,
      Nat.min_self]
  | reflink hgo hrun =>
    rw [(reflinkTransfer_stops hrun).moved_eq hl.limit_eq]
    exact length_take_eq_iff (hdriven hgo)
  | splice hgo hrun =>
    rw [(spliceTransfer_stops hrun).moved_eq hl.limit_eq]
    exact length_take_eq_iff (hdriven hgo)

section Example

/-- Blocks of one byte, at most two bytes and at most one block. -/
def limitAndCount : Config := applyCount { blocksize := 1, bytesToCopy := some 2 } (some 1)

theorem limitAndCount_limited : LimitAndCount limitAndCount 2 1 := by
  have hlimit : LimitAndCount { blocksize := 1, bytesToCopy := some 2 } 2 intmaxMax :=
    ⟨by decide, rfl, rfl, rfl, rfl, rfl, rfl, rfl, rfl⟩
  exact hlimit.scanned 1

theorem limitAndCount_moves : ∃ s, s.moved = [7, 8] ∧
    reflinkTransfer (plainEnv 2) limitAndCount (fun _ => .ok 2) [7, 8] = .ok (.eof, s) :=
  ⟨_, rfl, rfl⟩

/-- The count is not looked at: two bytes are copied, not one. -/
theorem reflink_ignoresCount : ∃ copied, DriverRun limitAndCount [7, 8] .reflink copied ∧
    copied ≠ min 2 (min (1 * limitAndCount.blocksize) 2) := by
  obtain ⟨s, hmoved, hrun⟩ := limitAndCount_moves
  refine ⟨s.moved.length, .reflink (by decide) hrun, ?_⟩
  rw [hmoved]
  decide

theorem driver_amount_iff_reflink : ∃ copied,
    (copied = min 2 (min (1 * limitAndCount.blocksize) 2) ↔
      HonoursBoth limitAndCount 2 1 2 .reflink) := by
  obtain ⟨s, -, hrun⟩ := limitAndCount_moves
  exact ⟨_, driver_amount_iff limitAndCount_limited (.reflink (by decide) hrun)⟩

end Example

end Blkcp.C
