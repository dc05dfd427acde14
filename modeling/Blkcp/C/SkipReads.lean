import Blkcp.C.Args
import Blkcp.C.Reblock
set_option autoImplicit false

/-! The reads of `skip` where it cannot seek, against the block that it allocates for them. -/

namespace Blkcp.C
open Blkcp.Lib

/-- A read that `skip` issues: the bytes it asks for and the size of the buffer. `dd_iread` passes
the number on to the system as it is. -/
structure SkipRead where
  requested : Nat
  buffer : Nat
  deriving DecidableEq

section Traced

variable {δ : Type} (lseek : δ → Nat → Bool × δ)
  (iread : δ → Nat → Run (Except Errno (List Byte) × δ))

/-- `skipRecords` with the reads that it issues. -/
def skipRecordsTraced (blocksize : Nat) : Nat → δ → List SkipRead × Run (Nat × δ)
  | 0, d => ([], .ok (0, d))
  | records + 1, d =>
    match iread d blocksize with
    | .error h => ([⟨blocksize, blocksize⟩], .error h)
    | .ok (.ok (_ :: _), d) =>
      let (reads, r) := skipRecordsTraced blocksize records d
      (⟨blocksize, blocksize⟩ :: reads, r)
    | .ok (_, d) => ([⟨blocksize, blocksize⟩], .ok (records + 1, d))

/-- `skip` with the reads that it issues. -/
def skipTraced (records blocksize bytes : Nat) (d : δ) :
    List SkipRead × Run (Nat × Nat × δ) :=
  match lseek d (records * blocksize + bytes) with
  | (true, d) => ([], .ok (0, 0, d))
  | (false, d) =>
    let (reads, r) := skipRecordsTraced iread blocksize records d
    match r with
    | .error h => (reads, .error h)
    | .ok (0, d) =>
      if bytes > 0 then
        (reads ++ [⟨bytes, blocksize⟩],
          match iread d bytes with
          | .error h => .error h
          | .ok (.ok data, d) =>
            if blocksize < data.length then .error .undefined else .ok (0, bytes - data.length, d)
          | .ok (.error _, d) => .ok (0, bytes, d))
      else (reads, .ok (0, 0, d))
    | .ok (left, d) => (reads, .ok (left, bytes, d))

theorem skipRecordsTraced_snd (blocksize records : Nat) (d : δ) :
    (skipRecordsTraced iread blocksize records d).2 = skipRecords iread blocksize records d := by
  induction records generalizing d with
  | zero => rfl
  | succ records ih =>
    unfold skipRecordsTraced skipRecords
    rcases iread d blocksize with h | ⟨_ | _ | _, t⟩
    · rfl
    · rfl
    · rfl
    · exact ih t

theorem skipTraced_snd (records blocksize bytes : Nat) (d : δ) :
    (skipTraced lseek iread records blocksize bytes d).2 =
      skip lseek iread records blocksize bytes d := by
  unfold skipTraced skip
  rcases lseek d (records * blocksize + bytes) with ⟨_ | _, t⟩
  · simp only [← skipRecordsTraced_snd]
    rcases (skipRecordsTraced iread blocksize records t).2 with h | ⟨_ | left, u⟩
    · rfl
    · simp only
      split <;> rfl
    · rfl
  · rfl

/-- The reads of whole records fit. -/
theorem skipRecordsTraced_fit {blocksize records : Nat} {d : δ} {r : SkipRead}
    (h : r ∈ (skipRecordsTraced iread blocksize records d).1) : r.requested = r.buffer := by
  induction records generalizing d with
  | zero => cases h
  | succ records ih =>
    unfold skipRecordsTraced at h
    rcases hread : iread d blocksize with e | ⟨_ | _ | _, t⟩
    · rw [hread] at h
      rw [List.mem_singleton.mp h]
    · rw [hread] at h
      rw [List.mem_singleton.mp h]
    · rw [hread] at h
      rw [List.mem_singleton.mp h]
    · rw [hread] at h
      rcases List.mem_cons.mp h with rfl | h
      · rfl
      · exact ih h

variable {lseek iread}

/-- The odd bytes are the only ones that may not fit, and they are read where the seek has failed
and all records are passed over. -/
theorem skipTraced_fit_iff {records blocksize bytes : Nat} {d : δ} :
    (∀ r ∈ (skipTraced lseek iread records blocksize bytes d).1, r.requested ≤ r.buffer) ↔
      (lseek d (records * blocksize + bytes)).1 = true ∨ bytes ≤ blocksize ∨
        ∀ t, skipRecords iread blocksize records (lseek d (records * blocksize + bytes)).2 ≠
          .ok (0, t) := by
  have hrecords {t : δ} : ∀ r ∈ (skipRecordsTraced iread blocksize records t).1,
      r.requested ≤ r.buffer := fun r hr => Nat.le_of_eq (skipRecordsTraced_fit iread hr)
  unfold skipTraced
  rcases lseek d (records * blocksize + bytes) with ⟨_ | _, t⟩
  · simp only [← skipRecordsTraced_snd]
    rcases (skipRecordsTraced iread blocksize records t).2 with h | ⟨_ | left, u⟩
    · simpa using hrecords
    · by_cases hbytes : bytes > 0
      · simp only [if_pos hbytes, List.forall_mem_append, List.forall_mem_singleton]
        constructor
        · intro h
          exact .inr (.inl h.2)
        · rintro (h | h | h)
          · cases h
          · exact ⟨hrecords, h⟩
          · exact absurd rfl (h u)
      · simp only [if_neg hbytes]
        exact iff_of_true hrecords (.inr (.inl (by omega)))
    · simpa using hrecords
  · exact iff_of_true (fun _ h => nomatch h) (.inl rfl)

end Traced

section Copy

variable {ρ ω : Type} (I : Input ρ) (O : Output ω) (env : Env) (ctx : Ctx ρ ω)

def skipInputReads : List SkipRead :=
  if ctx.cfg.skipRecords ≠ 0 ∨ ctx.cfg.skipBytes ≠ 0 then
    (skipTraced I.lseek (ddIread I env ctx.cfg.inputFlags.direct) ctx.cfg.skipRecords
      ctx.cfg.blocksize ctx.cfg.skipBytes ctx.input).1
  else []

def seekOutputReads : List SkipRead :=
  if ctx.cfg.seekRecords ≠ 0 ∨ ctx.cfg.seekBytes ≠ 0 then
    (skipTraced O.lseek (ireadOutput O) ctx.cfg.seekRecords ctx.cfg.blocksize ctx.cfg.seekBytes
      ctx.out.file).1
  else []

/-- The reads that `skip` issues during `dd_copy`, on the input and then on the output. -/
def ddCopySkipReads : List SkipRead :=
  skipInputReads I env ctx ++
    match skipInput I env ctx with
    | .ok ctx => seekOutputReads O ctx
    | .error _ => []

variable {I O env ctx}

theorem skipInputReads_fit_iff (hrecords : ctx.cfg.skipRecords = 0) :
    (∀ r ∈ skipInputReads I env ctx, r.requested ≤ r.buffer) ↔
      (I.lseek ctx.input ctx.cfg.skipBytes).1 = true ∨ ctx.cfg.skipBytes ≤ ctx.cfg.blocksize := by
  unfold skipInputReads
  split
  · rw [skipTraced_fit_iff, hrecords]
    simp [skipRecords]
  · exact iff_of_true (List.forall_mem_nil _) (.inr (by omega))

theorem seekOutputReads_fit_iff (hrecords : ctx.cfg.seekRecords = 0) :
    (∀ r ∈ seekOutputReads O ctx, r.requested ≤ r.buffer) ↔
      (O.lseek ctx.out.file ctx.cfg.seekBytes).1 = true ∨ ctx.cfg.seekBytes ≤ ctx.cfg.blocksize := by
  unfold seekOutputReads
  split
  · rw [skipTraced_fit_iff, hrecords]
    simp [skipRecords]
  · exact iff_of_true (List.forall_mem_nil _) (.inr (by omega))

/-- The system never answers the read that is made instead of a seek. -/
def Unanswered (I : Input ρ) (direct : Bool) (n : Nat) (s : ρ) : Prop :=
  0 < n ∧ (I.lseek s n).1 = false ∧ ∀ r t, ¬Answers I direct n (I.lseek s n).2 r t

/-- A skip whose reads fit comes to an end, unless it gets no answer. -/
theorem skipInput_ends_iff (hrecords : ctx.cfg.skipRecords = 0)
    (hfit : (I.lseek ctx.input ctx.cfg.skipBytes).1 = true ∨ ctx.cfg.skipBytes ≤ ctx.cfg.blocksize) :
    (∃ fuel ctx', skipInput I (env.withFuel fuel) ctx = .ok ctx') ↔
      ¬Unanswered I ctx.cfg.inputFlags.direct ctx.cfg.skipBytes ctx.input := by
  by_cases hskip : ctx.cfg.skipBytes = 0
  · refine iff_of_true ⟨0, ctx, ?_⟩ fun h => absurd hskip (Nat.ne_of_gt h.1)
    rw [skipInput, if_neg (by omega)]
  have hn : 0 < ctx.cfg.skipBytes := Nat.pos_of_ne_zero hskip
  have hphase (fuel : Nat) : (∃ ctx', skipInput I (env.withFuel fuel) ctx = .ok ctx') ↔
      ∃ r, skip I.lseek (ddIread I (env.withFuel fuel) ctx.cfg.inputFlags.direct) 0
        ctx.cfg.blocksize ctx.cfg.skipBytes ctx.input = .ok r := by
    rw [skipInput, if_pos (.inr hskip), hrecords]
    cases skip I.lseek (ddIread I (env.withFuel fuel) ctx.cfg.inputFlags.direct) 0
      ctx.cfg.blocksize ctx.cfg.skipBytes ctx.input with
    | error e => exact iff_of_false (fun h => by cases h.choose_spec) fun h => by cases h.choose_spec
    | ok r => exact iff_of_true ⟨_, rfl⟩ ⟨r, rfl⟩
  simp only [hphase, Unanswered]
  rcases hseek : I.lseek ctx.input ctx.cfg.skipBytes with ⟨_ | _, t⟩
  · have hroom : ctx.cfg.skipBytes ≤ ctx.cfg.blocksize := by simpa [hseek] using hfit
    simp only [skip_read hn hseek]
    constructor
    · rintro ⟨fuel, r, hrun⟩ ⟨-, -, hnever⟩
      rcases hread : ddIread I (env.withFuel fuel) ctx.cfg.inputFlags.direct t ctx.cfg.skipBytes
        with e | ⟨r, u⟩
      · rw [hread] at hrun
        cases hrun
      · exact hnever r u (ddIread_answers.mp ⟨fuel, hread⟩)
    · intro hanswer
      obtain ⟨r, u, hr⟩ : ∃ r u,
          Answers I ctx.cfg.inputFlags.direct ctx.cfg.skipBytes t r u := by
        by_contra hnone
        exact hanswer ⟨hn, trivial, fun r u hr => hnone ⟨r, u, hr⟩⟩
      have hreads : ∃ fuel, ddIread I (env.withFuel fuel) ctx.cfg.inputFlags.direct t
          ctx.cfg.skipBytes = .ok (r, u) := ddIread_answers.mpr hr
      obtain ⟨fuel, hread⟩ := hreads
      have hlen : (answered r).length ≤ ctx.cfg.skipBytes := by
        cases r with
        | error e => exact Nat.zero_le _
        | ok bytes => exact ddIread_length hread
      refine ⟨fuel, (0, ctx.cfg.skipBytes - (answered r).length, u), ?_⟩
      rw [hread]
      exact if_neg (by omega)
  · simp only [skip_sought hseek]
    exact iff_of_true ⟨0, _, rfl⟩ fun h => absurd h.2.1 (by simp)

end Copy

section Scan

variable {xstrtoumax : Xstrtoumax} {s t : ScanState}

/-- The parser knows no records to skip or to seek. -/
structure NoRecords (cfg : Options) : Prop where
  skip : cfg.skipRecords = 0
  seek : cfg.seekRecords = 0

theorem integer_ok {what note : String} {ok : Nat → Bool} {optarg : CStr} {use : Nat → ScanState}
    (h : ScanState.integer xstrtoumax what note ok optarg use = .ok t) : ∃ n, t = use n := by
  unfold ScanState.integer at h
  simp only at h
  split at h
  · cases h
  · exact ⟨_, (Except.ok.inj h).symm⟩

theorem NoRecords.scanOption {o : Opt} (hs : NoRecords s.cfg)
    (h : s.scanOption xstrtoumax o = .ok t) : NoRecords t.cfg := by
  unfold ScanState.scanOption at h
  cases o with
  | blockSize optarg =>
    simp only at h
    split at h
    · obtain rfl := Except.ok.inj h
      exact ⟨hs.skip, hs.seek⟩
    · obtain ⟨n, rfl⟩ := integer_ok h
      exact ⟨hs.skip, hs.seek⟩
  | engine optarg =>
    simp only at h
    split at h
    · obtain rfl := Except.ok.inj h
      exact ⟨hs.skip, hs.seek⟩
    · cases h
  | hash optarg =>
    simp only at h
    split at h
    · obtain rfl := Except.ok.inj h
      exact ⟨hs.skip, hs.seek⟩
    · cases h
  | limit optarg | count optarg | queueDepth optarg | threads optarg | skip optarg | seek optarg =>
    obtain ⟨n, rfl⟩ := integer_ok h
    exact ⟨hs.skip, hs.seek⟩
  | help | version | unknown => cases h
  | _ =>
    obtain rfl := Except.ok.inj h
    exact ⟨hs.skip, hs.seek⟩

theorem NoRecords.scanOperand {cfg cfg' : Options} {arg : CStr} (hcfg : NoRecords cfg)
    (h : scanOperand cfg arg = .ok cfg') : NoRecords cfg' := by
  unfold C.scanOperand at h
  split at h
  · obtain rfl := Except.ok.inj h
    exact ⟨hcfg.skip, hcfg.seek⟩
  split at h
  · obtain rfl := Except.ok.inj h
    exact ⟨hcfg.skip, hcfg.seek⟩
  · cases h

theorem ddScanargs_noRecords {line : CommandLine} {cfg : Options}
    (h : ddScanargs xstrtoumax line = .ok cfg) : NoRecords cfg := by
  simp only [ddScanargs, bind_eq_ok_iff] at h
  obtain ⟨s, hs, cfg', hcfg', h⟩ := h
  obtain rfl := Except.ok.inj h
  have hstart : NoRecords ({ cfg := ddInitDefaultConfig } : ScanState).cfg := ⟨rfl, rfl⟩
  have hoptions : NoRecords s.cfg :=
    foldlM_invariant (P := fun s : ScanState => NoRecords s.cfg) NoRecords.scanOption hstart hs
  have hoperands : NoRecords cfg' := foldlM_invariant NoRecords.scanOperand hoptions hcfg'
  unfold resolve
  by_cases hcount : s.count = intmaxMax
  · rw [if_pos hcount]
    exact ⟨hoperands.skip, hoperands.seek⟩
  · rw [if_neg hcount]
    by_cases hlimit : cfg'.bytesToCopy = none ∧
        s.count * (if s.blocksize = 0 then 512 else s.blocksize) ≤ intmaxMax
    · rw [if_pos hlimit]
      exact ⟨hoperands.skip, hoperands.seek⟩
    · rw [if_neg hlimit]
      exact ⟨hoperands.skip, hoperands.seek⟩

end Scan

section Fit

variable {ρ ω : Type}

/-- Every read that `skip` issues during `dd_copy` asks for at most what its buffer holds. -/
def SkipReadsFit (I : Input ρ) (O : Output ω) (env : Env) (cfg : Config) (input : ρ) (file : ω) :
    Prop :=
  ∀ fuel, ∀ r ∈ ddCopySkipReads I O (env.withFuel fuel) (.start cfg input file),
    r.requested ≤ r.buffer

/-- What the options give for a skip or a seek is read at once, so it has to fit into one block
where there is no seeking; the output is not reached if the input leaves its read unanswered. -/
theorem skipReads_fit_iff {xstrtoumax : Xstrtoumax} {line : CommandLine} {cfg : Options}
    (h : ddScanargs xstrtoumax line = .ok cfg) (I : Input ρ) (O : Output ω) (env : Env) (input : ρ)
    (file : ω) :
    SkipReadsFit I O env cfg.toConfig input file ↔
      ((I.lseek input cfg.skipBytes).1 = true ∨ cfg.skipBytes ≤ cfg.blocksize) ∧
        ((O.lseek file cfg.seekBytes).1 = true ∨ cfg.seekBytes ≤ cfg.blocksize ∨
          Unanswered I cfg.inputFlags.direct cfg.skipBytes input) := by
  obtain ⟨hskip, hseek⟩ := ddScanargs_noRecords h
  let ctx : Ctx ρ ω := .start cfg.toConfig input file
  have hinput (fuel : Nat) : (∀ r ∈ skipInputReads I (env.withFuel fuel) ctx,
      r.requested ≤ r.buffer) ↔
      (I.lseek input cfg.skipBytes).1 = true ∨ cfg.skipBytes ≤ cfg.blocksize :=
    skipInputReads_fit_iff hskip
  have hends (hfit : (I.lseek input cfg.skipBytes).1 = true ∨ cfg.skipBytes ≤ cfg.blocksize) :
      (∃ fuel ctx', skipInput I (env.withFuel fuel) ctx = .ok ctx') ↔
        ¬Unanswered I cfg.inputFlags.direct cfg.skipBytes input :=
    skipInput_ends_iff hskip hfit
  have houtput {ctx' : Ctx ρ ω} (fuel : Nat) (hrun : skipInput I (env.withFuel fuel) ctx = .ok ctx') :
      (∀ r ∈ seekOutputReads O ctx', r.requested ≤ r.buffer) ↔
        (O.lseek file cfg.seekBytes).1 = true ∨ cfg.seekBytes ≤ cfg.blocksize := by
    obtain ⟨input', skipBytes, rfl⟩ := skipInput_ctx hrun
    exact seekOutputReads_fit_iff hseek
  simp only [SkipReadsFit, ddCopySkipReads, List.forall_mem_append]
  constructor
  · intro hfits
    have hfit := (hinput 0).mp (hfits 0).1
    refine ⟨hfit, ?_⟩
    by_cases hanswer : Unanswered I cfg.inputFlags.direct cfg.skipBytes input
    · exact .inr (.inr hanswer)
    · obtain ⟨fuel, ctx', hrun⟩ := (hends hfit).mpr hanswer
      have hreads := (hfits fuel).2
      rw [hrun] at hreads
      rcases (houtput fuel hrun).mp hreads with hsought | hroom
      · exact .inl hsought
      · exact .inr (.inl hroom)
  · rintro ⟨hfit, hout⟩ fuel
    refine ⟨(hinput fuel).mpr hfit, ?_⟩
    cases hrun : skipInput I (env.withFuel fuel) (.start cfg.toConfig input file) with
    | error e => exact fun _ hr => nomatch hr
    | ok ctx' =>
      refine (houtput fuel hrun).mpr ?_
      rcases hout with hsought | hroom | hanswer
      · exact .inl hsought
      · exact .inr hroom
      · exact absurd hanswer ((hends hfit).mp ⟨fuel, ctx', hrun⟩)

section Example

/-- A library that reads decimal digits. -/
def plainDigits : Xstrtoumax := fun str =>
  if str ≠ [] ∧ str.all Char.isDigit then
    ⟨str.foldl (fun n c => 10 * n + (c.toNat - '0'.toNat)) 0, {}, str.length⟩
  else ⟨0, { invalid := true }, 0⟩

/-- An output that takes everything and has no position. -/
def pipedOutput : Output Unit where
  write _ _ bytes := (.ok bytes.length, ())
  read _ _ := (.error (.other 9), ())
  lseek _ _ := (false, ())
  isRegular _ := false
  position _ := 0
  ftruncate _ _ := (false, ())
  lseekBack _ := (false, ())
  write_le := by
    intro f direct bytes n g h
    obtain rfl := Except.ok.inj (Prod.mk.inj h).1
    exact Nat.le_refl _

def skipTwo (blocksize : Char) : CommandLine :=
  ⟨[.blockSize [blocksize], .skip ['2'], .seek ['2']], []⟩

/-- Both reads ask for two bytes, and the buffer has one. -/
theorem skipReads_overrun : ¬ ∀ (xstrtoumax : Xstrtoumax) (line : CommandLine) (cfg : Options),
    ddScanargs xstrtoumax line = .ok cfg →
      SkipReadsFit pipedInput pipedOutput (plainEnv 1) cfg.toConfig [[7], [8]] () := by
  intro h
  have hfits := h plainDigits (skipTwo '1') _ rfl 1 ⟨2, 1⟩ (by decide)
  exact absurd hfits (by decide)

/-- With a block of two bytes they fit. -/
theorem skipReads_fit_two : ∃ cfg, ddScanargs plainDigits (skipTwo '2') = .ok cfg ∧
    SkipReadsFit pipedInput pipedOutput (plainEnv 1) cfg.toConfig [[7], [8]] () := by
  obtain ⟨cfg, hscan, hskip, hseek⟩ : ∃ cfg, ddScanargs plainDigits (skipTwo '2') = .ok cfg ∧
      cfg.skipBytes ≤ cfg.blocksize ∧ cfg.seekBytes ≤ cfg.blocksize :=
    ⟨_, rfl, by decide, by decide⟩
  exact ⟨cfg, hscan, (skipReads_fit_iff hscan pipedInput pipedOutput (plainEnv 1) [[7], [8]] ()).mpr
    ⟨.inr hskip, .inr (.inl hseek)⟩⟩

end Example

end Fit

end Blkcp.C
