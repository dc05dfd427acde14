import Blkcp.C.Args
set_option autoImplicit false

/-! How often the progress of a copy is reported (`dd_check_progress` in `stats.c`). -/

namespace Blkcp.C

namespace Options

def isJson (cfg : Options) : Bool := cfg.jsonOutput || cfg.statusLevel == .json

def isTextProgress (cfg : Options) : Bool := cfg.statusLevel == .progress && !cfg.isJson

/-- The total of a line of progress. -/
def total (cfg : Options) (totalInputSize : Int) : Int :=
  match cfg.bytesToCopy with
  | some n => if n > 0 then n else totalInputSize
  | none => totalInputSize

def Reports (cfg : Options) : Prop := cfg.isJson = true ∨ cfg.isTextProgress = true

end Options

/-- The fields of `dd_stats_t` that say when to report. -/
structure Pace where
  progressCheckCounter : UInt32 := 0
  lastClockCheckBytes : Nat := 0
  nextTime : Nat
  deriving DecidableEq

/-- As `dd_execute` sets it. -/
def Pace.start (startTime : Nat) : Pace := { nextTime := startTime + xtimePrecision }

/-- What has been written when `dd_check_progress` is called, and what the clock shows then. -/
structure Check where
  wBytes : Nat
  now : Nat

/-- A line on standard error; the total is only in one of JSON. -/
structure Report where
  wBytes : Nat
  total : Option Int
  now : Nat
  deriving DecidableEq

def ddCheckProgress (cfg : Options) (totalInputSize : Int) (s : Pace) (c : Check) :
    Pace × Option Report :=
  if !cfg.isJson && !cfg.isTextProgress then (s, none)
  else
    let s := { s with progressCheckCounter := s.progressCheckCounter + 1 }
    if s.progressCheckCounter &&& 0x3F ≠ 0 ∧ c.wBytes - s.lastClockCheckBytes < 65536 then (s, none)
    else
      let s := { s with lastClockCheckBytes := c.wBytes }
      if c.now ≥ s.nextTime then
        ({ s with nextTime := c.now + xtimePrecision },
          some ⟨c.wBytes, if cfg.isJson then some (cfg.total totalInputSize) else none, c.now⟩)
      else (s, none)

/-- A call after another. -/
def checkAll (cfg : Options) (totalInputSize : Int) (s : Pace) :
    List Check → Pace × List Report
  | [] => (s, [])
  | c :: cs =>
    let (s, line) := ddCheckProgress cfg totalInputSize s c
    let (s, lines) := checkAll cfg totalInputSize s cs
    (s, line.toList ++ lines)

def reports (cfg : Options) (totalInputSize : Int) (startTime : Nat) (calls : List Check) :
    List Report :=
  (checkAll cfg totalInputSize (.start startTime) calls).2

variable {cfg : Options} {totalInputSize : Int} {s t : Pace} {c : Check} {cs : List Check}
  {line : Option Report}

/-- How many calls there are at most until the clock is read. -/
def Pace.untilSample (s : Pace) : Nat := 64 - s.progressCheckCounter.toNat % 64

theorem masked_counter (n : UInt32) : n &&& 0x3F = 0 ↔ n.toNat % 64 = 0 := by
  rw [← UInt32.toNat_inj, UInt32.toNat_and]
  exact iff_of_eq (congrArg (· = 0) (Nat.and_two_pow_sub_one_eq_mod n.toNat 6))

theorem counter_succ (n : UInt32) : (n + 1).toNat % 64 = (n.toNat + 1) % 64 := by
  rw [UInt32.toNat_add]
  exact Nat.mod_mod_of_dvd _ (by decide)

/-- What a call does: nothing, or count itself, or read the clock as well, or report. -/
inductive CheckStep (cfg : Options) (s : Pace) (c : Check) : Pace → Option Report → Prop where
  | silent : ¬cfg.Reports → CheckStep cfg s c s none
  | counted {t : Pace} : cfg.Reports → t.untilSample + 1 = s.untilSample →
      t.lastClockCheckBytes = s.lastClockCheckBytes → t.nextTime = s.nextTime →
      c.wBytes < s.lastClockCheckBytes + 65536 → CheckStep cfg s c t none
  | sampled {t : Pace} : cfg.Reports → c.now < s.nextTime → t.lastClockCheckBytes = c.wBytes →
      t.nextTime = s.nextTime → CheckStep cfg s c t none
  | reported {t : Pace} {l : Report} : cfg.Reports → s.nextTime ≤ c.now →
      t.lastClockCheckBytes = c.wBytes → t.nextTime = c.now + xtimePrecision → l.now = c.now →
      CheckStep cfg s c t (some l)

theorem ddCheckProgress_checkStep : CheckStep cfg s c (ddCheckProgress cfg totalInputSize s c).1
    (ddCheckProgress cfg totalInputSize s c).2 := by
  unfold ddCheckProgress
  by_cases hr : cfg.Reports
  · have hon : (!cfg.isJson && !cfg.isTextProgress) = false := by
      rcases hr with h | h <;> simp [h]
    rw [hon, if_neg Bool.false_ne_true]
    dsimp only
    split
    · rename_i hquiet
      obtain ⟨hmask, hbytes⟩ := hquiet
      have hcounter : (s.progressCheckCounter + 1).toNat % 64 ≠ 0 := fun hz =>
        hmask ((masked_counter _).mpr hz)
      refine .counted hr ?_ rfl rfl (by omega)
      have hsucc := counter_succ s.progressCheckCounter
      dsimp only [Pace.untilSample]
      omega
    · split
      · exact .reported hr ‹_› rfl rfl rfl
      · exact .sampled hr (Nat.lt_of_not_le ‹_›) rfl rfl
  · have hoff : (!cfg.isJson && !cfg.isTextProgress) = true := by
      simpa [Options.Reports] using hr
    rw [hoff, if_pos rfl]
    exact .silent hr

theorem checkAll_cons (h : ddCheckProgress cfg totalInputSize s c = (t, line)) :
    checkAll cfg totalInputSize s (c :: cs) =
      ((checkAll cfg totalInputSize t cs).1,
        line.toList ++ (checkAll cfg totalInputSize t cs).2) := by
  rw [checkAll, h]

theorem checkStep_of_eq (h : ddCheckProgress cfg totalInputSize s c = (t, line)) :
    CheckStep cfg s c t line := by
  have hstep : CheckStep cfg s c (ddCheckProgress cfg totalInputSize s c).1
      (ddCheckProgress cfg totalInputSize s c).2 := ddCheckProgress_checkStep
  rwa [h] at hstep

theorem checkAll_append (pre mid : List Check) :
    checkAll cfg totalInputSize s (pre ++ mid) =
      ((checkAll cfg totalInputSize (checkAll cfg totalInputSize s pre).1 mid).1,
        (checkAll cfg totalInputSize s pre).2 ++
          (checkAll cfg totalInputSize (checkAll cfg totalInputSize s pre).1 mid).2) := by
  induction pre generalizing s with
  | nil => rfl
  | cons c pre ih =>
    cases hstep : ddCheckProgress cfg totalInputSize s c with
    | mk t line => rw [List.cons_append, checkAll_cons hstep, checkAll_cons hstep, ih,
        List.append_assoc]

variable (cfg totalInputSize) in
/-- Each line is a second behind the one before. -/
theorem checkAll_apart (s : Pace) (cs : List Check) :
    (checkAll cfg totalInputSize s cs).2.Pairwise (fun a b => a.now + xtimePrecision ≤ b.now) ∧
      ∀ l ∈ (checkAll cfg totalInputSize s cs).2, s.nextTime ≤ l.now := by
  induction cs generalizing s with
  | nil => exact ⟨.nil, fun l hl => absurd hl List.not_mem_nil⟩
  | cons c cs ih =>
    cases hstep : ddCheckProgress cfg totalInputSize s c with
    | mk t line =>
      rw [checkAll_cons hstep]
      obtain ⟨hapart, hlater⟩ := ih t
      cases checkStep_of_eq hstep with
      | silent => exact ⟨hapart, hlater⟩
      | counted _ _ _ hnext =>
        rw [hnext] at hlater
        exact ⟨hapart, hlater⟩
      | sampled _ _ _ hnext =>
        rw [hnext] at hlater
        exact ⟨hapart, hlater⟩
      | @reported _ l _ hdue _ hnext hnow =>
        rw [hnext] at hlater
        refine ⟨List.pairwise_cons.mpr ⟨fun m hm => ?_, hapart⟩, fun m hm => ?_⟩
        · rw [hnow]
          exact hlater m hm
        · rcases List.mem_cons.mp hm with rfl | hm
          · rw [hnow]
            exact hdue
          · have := hlater m hm
            omega

/-- Lines a second apart are no more than there are seconds. -/
theorem length_apart {lines : List Report} {start finish : Nat}
    (hapart : lines.Pairwise fun a b => a.now + xtimePrecision ≤ b.now)
    (hstart : ∀ l ∈ lines, start + xtimePrecision ≤ l.now) (hfinish : ∀ l ∈ lines, l.now ≤ finish) :
    lines.length * xtimePrecision ≤ finish - start := by
  induction lines generalizing start with
  | nil => simp
  | cons l lines ih =>
    obtain ⟨hlater, hapart⟩ := List.pairwise_cons.mp hapart
    have hrest := ih hapart hlater fun m hm => hfinish m (List.mem_cons_of_mem l hm)
    have hfirst := hstart l List.mem_cons_self
    have hlast := hfinish l List.mem_cons_self
    rw [List.length_cons, Nat.succ_mul]
    omega

/-- The time is that of a call. -/
theorem checkAll_calls (cs : List Check) :
    ∀ l ∈ (checkAll cfg totalInputSize s cs).2, ∃ c ∈ cs, l.now = c.now := by
  induction cs generalizing s with
  | nil => exact fun l hl => absurd hl List.not_mem_nil
  | cons c cs ih =>
    intro l hl
    cases hstep : ddCheckProgress cfg totalInputSize s c with
    | mk t line =>
      rw [checkAll_cons hstep] at hl
      rcases List.mem_append.mp hl with hfirst | hlater
      · cases checkStep_of_eq hstep with
        | reported _ _ _ _ hnow =>
          rw [List.mem_singleton.mp hfirst]
          exact ⟨c, List.mem_cons_self, hnow⟩
        | _ => exact absurd hfirst List.not_mem_nil
      · obtain ⟨d, hd, hnow⟩ := ih l hlater
        exact ⟨d, List.mem_cons_of_mem c hd, hnow⟩

variable (cfg totalInputSize) in
/-- When the next line is due, and what had been written when the clock was read last. -/
theorem checkAll_state (s : Pace) (cs : List Check) :
    ((checkAll cfg totalInputSize s cs).1.nextTime = s.nextTime ∨
      ∃ l ∈ (checkAll cfg totalInputSize s cs).2,
        (checkAll cfg totalInputSize s cs).1.nextTime = l.now + xtimePrecision) ∧
    ((checkAll cfg totalInputSize s cs).1.lastClockCheckBytes = s.lastClockCheckBytes ∨
      ∃ c ∈ cs, (checkAll cfg totalInputSize s cs).1.lastClockCheckBytes = c.wBytes) := by
  induction cs generalizing s with
  | nil => exact ⟨.inl rfl, .inl rfl⟩
  | cons c cs ih =>
    cases hstep : ddCheckProgress cfg totalInputSize s c with
    | mk t line =>
      rw [checkAll_cons hstep]
      obtain ⟨hnext, hbytes⟩ := ih t
      have hbytes' : (checkAll cfg totalInputSize t cs).1.lastClockCheckBytes =
          t.lastClockCheckBytes ∨ ∃ d ∈ c :: cs,
            (checkAll cfg totalInputSize t cs).1.lastClockCheckBytes = d.wBytes :=
        hbytes.imp_right fun ⟨d, hd, he⟩ => ⟨d, List.mem_cons_of_mem c hd, he⟩
      cases checkStep_of_eq hstep with
      | silent => exact ⟨hnext, hbytes'⟩
      | counted _ _ hsame htime => exact ⟨htime ▸ hnext, hsame ▸ hbytes'⟩
      | sampled _ _ hread htime =>
        refine ⟨htime ▸ hnext, .inr ?_⟩
        rcases hbytes' with hsame | hlater
        · exact ⟨c, List.mem_cons_self, hsame.trans hread⟩
        · exact hlater
      | @reported _ l _ _ hread htime hnow =>
        refine ⟨.inr ?_, .inr ?_⟩
        · rcases hnext with hsame | ⟨m, hm, he⟩
          · exact ⟨l, List.mem_cons_self, by rw [hsame, htime, hnow]⟩
          · exact ⟨m, List.mem_cons_of_mem l hm, he⟩
        · rcases hbytes' with hsame | hlater
          · exact ⟨c, List.mem_cons_self, hsame.trans hread⟩
          · exact hlater

/-- A line that is due comes with the next reading of the clock. -/
theorem checkAll_due (hreports : cfg.Reports) (hdue : ∀ c ∈ cs, s.nextTime ≤ c.now)
    (hlong : s.untilSample ≤ cs.length ∨ ∃ c ∈ cs, s.lastClockCheckBytes + 65536 ≤ c.wBytes) :
    (checkAll cfg totalInputSize s cs).2 ≠ [] := by
  induction cs generalizing s with
  | nil =>
    have hpos : 0 < s.untilSample := by
      unfold Pace.untilSample
      omega
    rcases hlong with hlong | ⟨c, hc, -⟩
    · rw [List.length_nil] at hlong
      omega
    · exact absurd hc List.not_mem_nil
  | cons c cs ih =>
    have hnow := hdue c List.mem_cons_self
    cases hstep : ddCheckProgress cfg totalInputSize s c with
    | mk t line =>
      rw [checkAll_cons hstep]
      cases checkStep_of_eq hstep with
      | silent hno => exact absurd hreports hno
      | sampled _ hearly => omega
      | reported => exact List.cons_ne_nil _ _
      | counted _ huntil hbytes hnext hsmall =>
        refine ih (fun d hd => ?_) ?_
        · rw [hnext]
          exact hdue d (List.mem_cons_of_mem c hd)
        · rcases hlong with hlong | ⟨d, hd, hmany⟩
          · rw [List.length_cons] at hlong
            exact .inl (by omega)
          · rcases List.mem_cons.mp hd with rfl | hd
            · omega
            · exact .inr ⟨d, hd, by rw [hbytes]; exact hmany⟩

theorem checkAll_silent (hno : ¬cfg.Reports) (cs : List Check) :
    (checkAll cfg totalInputSize s cs).2 = [] := by
  induction cs generalizing s with
  | nil => rfl
  | cons c cs ih =>
    cases hstep : ddCheckProgress cfg totalInputSize s c with
    | mk t line =>
      rw [checkAll_cons hstep]
      cases checkStep_of_eq hstep with
      | silent => exact ih
      | counted hyes => exact absurd hyes hno
      | sampled hyes => exact absurd hyes hno
      | reported hyes => exact absurd hyes hno

/-- Lines are at least a second apart, the first a second behind the start, so that there are no
more than seconds have passed. Once a line is due it comes within 64 calls, or as soon as 64 KiB
more are written. Without a report to make there is none. -/
theorem reports_paced (cfg : Options) (totalInputSize : Int) (start : Nat) (calls : List Check) :
    (¬cfg.Reports → reports cfg totalInputSize start calls = []) ∧
    (reports cfg totalInputSize start calls).Pairwise (fun a b => a.now + xtimePrecision ≤ b.now) ∧
    (∀ l ∈ reports cfg totalInputSize start calls, start + xtimePrecision ≤ l.now) ∧
    (∀ finish, (∀ c ∈ calls, c.now ≤ finish) →
      (reports cfg totalInputSize start calls).length * xtimePrecision ≤ finish - start) ∧
    ∀ pre mid post, calls = pre ++ mid ++ post → cfg.Reports →
      (∀ c ∈ mid, start + xtimePrecision ≤ c.now) →
      (∀ c ∈ mid, ∀ l ∈ reports cfg totalInputSize start pre, l.now + xtimePrecision ≤ c.now) →
      (64 ≤ mid.length ∨ ∃ c ∈ mid, 65536 ≤ c.wBytes ∧ ∀ b ∈ pre, b.wBytes + 65536 ≤ c.wBytes) →
      ∃ l ∈ reports cfg totalInputSize start calls, (∃ c ∈ mid, l.now = c.now) ∧
        l ∉ reports cfg totalInputSize start pre := by
  obtain ⟨hapart, hstart⟩ := checkAll_apart cfg totalInputSize (.start start) calls
  refine ⟨fun hno => ?_, hapart, hstart, fun finish hfinish => ?_, ?_⟩
  · exact checkAll_silent hno calls
  · refine length_apart hapart hstart fun l hl => ?_
    obtain ⟨c, hc, hnow⟩ := checkAll_calls calls l hl
    rw [hnow]
    exact hfinish c hc
  · rintro pre mid post rfl hreports hdue hlate hlong
    obtain ⟨hnext, hbytes⟩ := checkAll_state cfg totalInputSize (.start start) pre
    have hready : ∀ c ∈ mid,
        (checkAll cfg totalInputSize (.start start) pre).1.nextTime ≤ c.now := by
      intro c hc
      rcases hnext with hsame | ⟨l, hl, he⟩
      · rw [hsame]
        exact hdue c hc
      · rw [he]
        exact hlate c hc l hl
    have hsoon : (checkAll cfg totalInputSize (.start start) pre).1.untilSample ≤ mid.length ∨
        ∃ c ∈ mid, (checkAll cfg totalInputSize (.start start) pre).1.lastClockCheckBytes +
          65536 ≤ c.wBytes := by
      rcases hlong with hlong | ⟨c, hc, hmany, hmore⟩
      · exact .inl (Nat.le_trans (Nat.sub_le _ _) hlong)
      · refine .inr ⟨c, hc, ?_⟩
        rcases hbytes with hsame | ⟨b, hb, he⟩
        · have hzero : (Pace.start start).lastClockCheckBytes = 0 := rfl
          rw [hsame, hzero, Nat.zero_add]
          exact hmany
        · rw [he]
          exact hmore b hb
    obtain ⟨l, hl⟩ := List.exists_mem_of_ne_nil _ (checkAll_due hreports hready hsoon)
    have hlines : reports cfg totalInputSize start (pre ++ mid ++ post) =
        reports cfg totalInputSize start pre ++
          (checkAll cfg totalInputSize (checkAll cfg totalInputSize (.start start) pre).1 mid).2 ++
          (checkAll cfg totalInputSize
            (checkAll cfg totalInputSize (.start start) (pre ++ mid)).1 post).2 := by
      rw [reports, checkAll_append, checkAll_append]
      rfl
    refine ⟨l, ?_, checkAll_calls mid l hl, fun hpre => ?_⟩
    · rw [hlines]
      exact List.mem_append_left _ (List.mem_append_right _ hl)
    · -- no line is its own predecessor
      rw [show (checkAll _ _ _ _).2 = _ from hlines, List.append_assoc] at hapart
      have hself := (List.pairwise_append.mp hapart).2.2 l hpre l (List.mem_append_left _ hl)
      exact absurd hself (by simp [xtimePrecision])

end Blkcp.C
