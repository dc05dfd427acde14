import Blkcp.C.Args
set_option autoImplicit false

/-! The driver that `dd_copy` runs (`dd_select_io_driver`), and what the engine options before the
last one have to do with it. -/

namespace Blkcp.C
open Blkcp.Lib

inductive IoDriver where
  | uring | reflink | splice | async | sync
  deriving DecidableEq

section Selection

variable (cfg : Config) (streams : Streams)

/-- The tests of the opportunistic zero-copy drivers. `iread_fnc` is never set. -/
def zeroCopyCompatible : Bool :=
  !(cfg.conversions.swab || cfg.conversions.sync || cfg.conversions.sha256 ||
      cfg.conversions.blake3 || cfg.conversions.blks || cfg.conversions.sparse ||
      cfg.conversions.autotune) &&
    !cfg.iNocache && !cfg.oNocache && !(cfg.inputFlags.direct || cfg.inputFlags.nocache) &&
    !(cfg.outputFlags.direct || cfg.outputFlags.nocache)

def autoReflink : Bool :=
  zeroCopyCompatible cfg && streams.input == some .regular && streams.output == some .regular

def autoUring : Bool :=
  !(cfg.conversions.swab || cfg.conversions.autotune) &&
    (streams.input == some .block || streams.output == some .block ||
      (cfg.inputFlags.direct || cfg.outputFlags.direct) || decide (1 < cfg.threads))

def autoSplice : Bool :=
  zeroCopyCompatible cfg && (streams.input == some .fifo || streams.output == some .fifo)

def ddSelectIoDriver : IoDriver :=
  if cfg.engine = .uring ∨ cfg.conversions.uring then .uring
  else if cfg.engine = .reflink ∨ cfg.conversions.reflink then .reflink
  else if cfg.engine = .splice ∨ cfg.conversions.splice then .splice
  else if cfg.engine = .async ∨ cfg.conversions.async ∨ cfg.outputFlags.asyncPipeline then .async
  else if cfg.engine = .sync then .sync
  else if autoReflink cfg streams then .reflink
  else if autoUring cfg streams then .uring
  else if autoSplice cfg streams then .splice
  else .sync

end Selection

/-- What the engine option sets, and the flag that goes with it in the selection. -/
structure EngineFields where
  engine : Engine := .auto
  uring : Bool := false
  reflink : Bool := false
  splice : Bool := false
  async : Bool := false
  asyncPipeline : Bool := false

namespace EngineFields

def choose (p : EngineFields) (e : Engine) : EngineFields where
  engine := e
  uring := p.uring || e == .uring
  reflink := p.reflink || e == .reflink
  splice := p.splice || e == .splice
  async := p.async || e == .async
  asyncPipeline := p.asyncPipeline

variable (p : EngineFields)

/-- The rest of the configuration is left as it is. -/
def put (cfg : Options) : Options :=
  { cfg with
    engine := p.engine
    conversions := { cfg.conversions with
      uring := p.uring, reflink := p.reflink, splice := p.splice, async := p.async }
    outputFlags := { cfg.outputFlags with asyncPipeline := p.asyncPipeline } }

def putState (s : ScanState) : ScanState := s.setCfg (p.put s.cfg)

end EngineFields

def EngineFields.chooseArg (optarg : CStr) (p : EngineFields) : Except ScanExit EngineFields :=
  match engineNames.lookup optarg with
  | some e => .ok (p.choose e)
  | none => .error (.unrecognizedEngine optarg)

/-- The engine option works on these fields, or ends the program. -/
def chooseOpt : Opt → Option (EngineFields → Except ScanExit EngineFields)
  | .engine optarg => some (EngineFields.chooseArg optarg)
  | _ => none

theorem map_integer (f : ScanState → ScanState) (xstrtoumax : Xstrtoumax) (what note : String)
    (ok : Nat → Bool) (optarg : CStr) (use use' : Nat → ScanState) (h : ∀ n, use' n = f (use n)) :
    ScanState.integer xstrtoumax what note ok optarg use' =
      (ScanState.integer xstrtoumax what note ok optarg use).map f := by
  unfold ScanState.integer
  simp only
  split
  · rfl
  · rw [h]
    rfl

/-- The engine option overwrites its fields, and no other option reads or writes them. -/
theorem scanOption_overwrites (xstrtoumax : Xstrtoumax) :
    Overwrites (ScanState.scanOption xstrtoumax) EngineFields.putState chooseOpt where
  others := by
    intro o hother p s
    cases o with
    | engine optarg => cases hother
    | blockSize optarg =>
      unfold ScanState.scanOption
      simp only
      split
      · rfl
      · exact map_integer _ _ _ _ _ _ _ _ fun _ => rfl
    | hash optarg =>
      unfold ScanState.scanOption
      simp only
      cases hashNames.lookup (optarg.getD []) with
      | none => rfl
      | some h => cases h <;> rfl
    | limit optarg | count optarg | queueDepth optarg | threads optarg | skip optarg | seek optarg =>
      unfold ScanState.scanOption
      exact map_integer _ _ _ _ _ _ _ _ fun _ => rfl
    | _ => rfl
  owned := by
    intro o f howned p s
    cases o with
    | engine optarg =>
      obtain rfl := Option.some.inj howned
      unfold ScanState.scanOption EngineFields.chooseArg
      simp only
      cases engineNames.lookup optarg with
      | none => rfl
      | some e => cases e <;> simp [Except.map, EngineFields.putState, EngineFields.put, EngineFields.choose, ScanState.setCfg, Conversions.addEngine]
    | _ => cases howned

theorem scanOperand_overwrites :
    Overwrites scanOperand EngineFields.put fun _ => none where
  others := by
    intro arg _ p cfg
    have hinput : (p.put cfg).inputFile = cfg.inputFile := rfl
    have houtput : (p.put cfg).outputFile = cfg.outputFile := rfl
    unfold scanOperand
    rw [hinput, houtput]
    split
    · rfl
    · split <;> rfl
  owned := by
    intro _ _ h
    cases h

theorem resolve_put (p : EngineFields) (s : ScanState) (cfg : Options) :
    resolve (p.putState s) (p.put cfg) = p.put (resolve s cfg) := by
  unfold resolve
  by_cases hcount : s.count = intmaxMax
  · rw [if_pos hcount, if_pos (show (p.putState s).count = intmaxMax from hcount)]
    rfl
  · rw [if_neg hcount, if_neg (show ¬ (p.putState s).count = intmaxMax from hcount)]
    by_cases hlimit : cfg.bytesToCopy = none ∧
        s.count * (if s.blocksize = 0 then 512 else s.blocksize) ≤ intmaxMax
    · rw [if_pos hlimit]
      exact if_pos hlimit
    · rw [if_neg hlimit]
      exact if_neg hlimit

theorem ddScanargs_eq_ok (xstrtoumax : Xstrtoumax) (line : CommandLine) (cfg : Options) :
    ddScanargs xstrtoumax line = .ok cfg ↔
      ∃ s, line.options.foldlM (ScanState.scanOption xstrtoumax) { cfg := ddInitDefaultConfig } =
          .ok s ∧
        ∃ cfg', line.operands.foldlM scanOperand s.cfg = .ok cfg' ∧ cfg = resolve s cfg' := by
  unfold ddScanargs
  simp only [bind_eq_ok_iff]
  refine exists_congr fun s => and_congr_right fun _ => exists_congr fun cfg' =>
    and_congr_right fun _ => ?_
  exact ⟨fun h => (Except.ok.inj h).symm, fun h => congrArg Except.ok h.symm⟩

theorem foldlM_scanOperand_put (operands : List CStr) (p : EngineFields) (cfg cfg' : Options) :
    operands.foldlM scanOperand (p.put cfg) = .ok cfg' ↔
      ∃ rest, operands.foldlM scanOperand cfg = .ok rest ∧ cfg' = p.put rest := by
  rw [scanOperand_overwrites.foldlM_eq_ok_iff]
  simp [runOwned, runOthers, pure, Except.pure]

/-- The fields that the engine options leave behind stand in a configuration in which the other
options have set all else. -/
theorem ddScanargs_eq_ok_iff (xstrtoumax : Xstrtoumax) (line : CommandLine) (cfg : Options) :
    ddScanargs xstrtoumax line = .ok cfg ↔
      ∃ p rest, runOwned chooseOpt line.options {} = .ok p ∧
        ddScanargs xstrtoumax
          { line with options := line.options.filter fun o => (chooseOpt o).isNone } = .ok rest ∧
        cfg = p.put rest := by
  -- the configuration starts with these fields at their defaults
  have hfold (s : ScanState) := (scanOption_overwrites xstrtoumax).foldlM_eq_ok_iff line.options
    {} { cfg := ddInitDefaultConfig } s
  have hstart : EngineFields.putState {} { cfg := ddInitDefaultConfig } =
      { cfg := ddInitDefaultConfig } := rfl
  simp only [hstart] at hfold
  simp only [ddScanargs_eq_ok, hfold]
  constructor
  · rintro ⟨_, ⟨p, u, hp, hu, rfl⟩, cfg', hoperands, rfl⟩
    obtain ⟨rest, hrest, rfl⟩ := (foldlM_scanOperand_put _ p _ _).mp hoperands
    exact ⟨p, resolve u rest, hp, ⟨u, hu, rest, hrest, rfl⟩, resolve_put p u rest⟩
  · rintro ⟨p, _, hp, ⟨u, hu, rest, hrest, rfl⟩, rfl⟩
    refine ⟨p.putState u, ⟨p, u, hp, hu, rfl⟩, p.put rest, ?_, (resolve_put p u rest).symm⟩
    exact (foldlM_scanOperand_put _ p _ _).mpr ⟨rest, hrest, rfl⟩

def isEngine (o : Opt) : Bool := (chooseOpt o).isSome

/-- All engine options but the last one are taken out. -/
def keepLastEngine : List Opt → List Opt
  | [] => []
  | o :: os => if isEngine o ∧ os.any isEngine then keepLastEngine os else o :: keepLastEngine os

def engineOf : Opt → Option Engine
  | .engine optarg => engineNames.lookup optarg
  | _ => none

/-- The engines asked for, one after the other. -/
def enginesOf (options : List Opt) : List Engine := options.filterMap engineOf

section Options

variable {o : Opt} {os : List Opt} {p q : EngineFields}

theorem keepLastEngine_others (options : List Opt) :
    (keepLastEngine options).filter (fun o => (chooseOpt o).isNone) =
      options.filter fun o => (chooseOpt o).isNone := by
  induction options with
  | nil => rfl
  | cons o os ih =>
    unfold keepLastEngine
    split
    · rename_i hengine
      have hnone : ¬ (chooseOpt o).isNone = true := by
        rw [Option.isNone_iff_eq_none]
        exact Option.isSome_iff_ne_none.mp hengine.1
      rw [ih, List.filter_cons, if_neg hnone]
    · rw [List.filter_cons, List.filter_cons, ih]

theorem runOwned_other (h : chooseOpt o = none) (p : EngineFields) :
    runOwned chooseOpt (o :: os) p = runOwned chooseOpt os p := by
  unfold runOwned
  rw [List.filterMap_cons_none h]

theorem enginesOf_other (h : chooseOpt o = none) : enginesOf (o :: os) = enginesOf os := by
  cases o with
  | engine optarg => cases h
  | _ => rfl

/-- An option that chooses an engine names one, where the options are accepted. -/
theorem runOwned_engine (h : chooseOpt o ≠ none) (hrun : runOwned chooseOpt (o :: os) p = .ok q) :
    ∃ e, enginesOf (o :: os) = e :: enginesOf os ∧
      runOwned chooseOpt os (p.choose e) = .ok q ∧
      ∀ os' p', runOwned chooseOpt (o :: os') p' = runOwned chooseOpt os' (p'.choose e) := by
  cases o with
  | engine optarg =>
    have hcons (os : List Opt) (p : EngineFields) :
        runOwned chooseOpt (.engine optarg :: os) p =
          p.chooseArg optarg >>= runOwned chooseOpt os := rfl
    rw [hcons] at hrun
    obtain ⟨p', hchoose, hrest⟩ := bind_eq_ok_iff.mp hrun
    cases hlookup : engineNames.lookup optarg with
    | none =>
      rw [EngineFields.chooseArg, hlookup] at hchoose
      cases hchoose
    | some e =>
      have hchoice (p : EngineFields) : p.chooseArg optarg = .ok (p.choose e) := by
        rw [EngineFields.chooseArg, hlookup]
      rw [hchoice] at hchoose
      cases hchoose
      refine ⟨e, ?_, hrest, fun os' p' => ?_⟩
      · have hengine : engineOf (.engine optarg) = some e := hlookup
        unfold enginesOf
        rw [List.filterMap_cons_some hengine]
      · rw [hcons, hchoice]
        rfl
  | _ => exact absurd rfl h

theorem runOwned_eq_ok (hrun : runOwned chooseOpt os p = .ok q) :
    q = (enginesOf os).foldl EngineFields.choose p := by
  induction os generalizing p with
  | nil =>
    cases hrun
    rfl
  | cons o os ih =>
    by_cases h : chooseOpt o = none
    · rw [runOwned_other h] at hrun
      rw [enginesOf_other h]
      exact ih hrun
    · obtain ⟨e, hengines, hrest, -⟩ := runOwned_engine h hrun
      rw [hengines]
      exact ih hrest

theorem enginesOf_nil_iff (hrun : runOwned chooseOpt os p = .ok q) :
    enginesOf os = [] ↔ os.any isEngine = false := by
  induction os generalizing p with
  | nil => simp [enginesOf]
  | cons o os ih =>
    by_cases h : chooseOpt o = none
    · rw [runOwned_other h] at hrun
      rw [enginesOf_other h, ih hrun, List.any_cons]
      simp [isEngine, h]
    · obtain ⟨e, hengines, -, -⟩ := runOwned_engine h hrun
      rw [hengines, List.any_cons]
      simp [isEngine, Option.isSome_iff_ne_none, h]

/-- With the last engine option alone, its engine is the only one chosen. -/
theorem runOwned_keepLastEngine (hrun : runOwned chooseOpt os p = .ok q) (p' : EngineFields) :
    runOwned chooseOpt (keepLastEngine os) p' =
      .ok ((enginesOf os).getLast?.toList.foldl EngineFields.choose p') := by
  induction os generalizing p p' with
  | nil => rfl
  | cons o os ih =>
    unfold keepLastEngine
    by_cases h : chooseOpt o = none
    · have hengine : ¬ (isEngine o ∧ os.any isEngine) := by simp [isEngine, h]
      rw [runOwned_other h] at hrun
      rw [if_neg hengine, runOwned_other h, enginesOf_other h]
      exact ih hrun p'
    · obtain ⟨e, hengines, hrest, hcons⟩ := runOwned_engine h hrun
      rw [hengines]
      split
      · rename_i hlater
        have hne : enginesOf os ≠ [] := by
          rw [Ne, enginesOf_nil_iff hrest, hlater.2]
          exact Bool.noConfusion
        rw [ih hrest, List.getLast?_cons_of_ne_nil hne]
      · rename_i hlater
        have hnil : enginesOf os = [] := by
          rw [enginesOf_nil_iff hrest, ← Bool.not_eq_true]
          exact fun hany => hlater ⟨Option.isSome_iff_ne_none.mpr h, hany⟩
        rw [hcons, ih hrest, hnil]
        rfl

end Options

namespace EngineFields

/-- What any number of engine options leaves behind. -/
def asked (engines : List Engine) : EngineFields where
  engine := engines.getLast?.getD .auto
  uring := engines.contains .uring
  reflink := engines.contains .reflink
  splice := engines.contains .splice
  async := engines.contains .async

theorem foldl_choose (engines : List Engine) : engines.foldl choose {} = asked engines := by
  induction engines using List.reverseRecOn with
  | nil => rfl
  | append_singleton engines e ih =>
    rw [List.foldl_append, ih]
    cases e <;> simp [asked, choose]

variable (p : EngineFields) (cfg : Options) (streams : Streams)

theorem asked_last {engines : List Engine} {last : Engine} (h : engines.getLast? = some last) :
    asked engines = { asked engines with engine := last } := by
  unfold asked
  rw [h]
  rfl

/-- The driver that is selected, `auto` where no engine in particular is asked for. -/
def select (auto : IoDriver) : IoDriver :=
  if p.engine = .uring ∨ p.uring then .uring
  else if p.engine = .reflink ∨ p.reflink then .reflink
  else if p.engine = .splice ∨ p.splice then .splice
  else if p.engine = .async ∨ p.async ∨ p.asyncPipeline then .async
  else if p.engine = .sync then .sync
  else auto

end EngineFields

/-- The driver for the engine `auto`, by what the three tests for it say. -/
def autoDriver (reflink uring splice : Bool) : IoDriver :=
  if reflink then .reflink else if uring then .uring else if splice then .splice else .sync

theorem ddSelectIoDriver_put (p : EngineFields) (cfg : Options) (streams : Streams) :
    ddSelectIoDriver (p.put cfg).toConfig streams =
      p.select (autoDriver (autoReflink cfg.toConfig streams) (autoUring cfg.toConfig streams)
        (autoSplice cfg.toConfig streams)) := rfl

/-- The order in which the engines are looked for. -/
def Engine.rank : Engine → Nat
  | .auto | .sync => 0
  | .async => 1
  | .splice => 2
  | .reflink => 3
  | .uring => 4

theorem rank_le_iff (engines : List Engine) (n : Nat) : (∀ e ∈ engines, e.rank ≤ n) ↔
    (.uring ∈ engines → 4 ≤ n) ∧ (.reflink ∈ engines → 3 ≤ n) ∧ (.splice ∈ engines → 2 ≤ n) ∧
      (.async ∈ engines → 1 ≤ n) := by
  constructor
  · intro h
    exact ⟨h .uring, h .reflink, h .splice, h .async⟩
  · rintro ⟨huring, hreflink, hsplice, hasync⟩ e he
    cases e with
    | auto => exact Nat.zero_le n
    | sync => exact Nat.zero_le n
    | async => exact hasync he
    | splice => exact hsplice he
    | reflink => exact hreflink he
    | uring => exact huring he

/-- The first engine in that order that is asked for is the one that would be found for `auto`. -/
def AutoAgrees (engines : List Engine) (cfg : Config) (streams : Streams) : Prop :=
  .uring ∈ engines ∧ autoReflink cfg streams = false ∧ autoUring cfg streams ∨
    .uring ∉ engines ∧ .reflink ∈ engines ∧ autoReflink cfg streams ∨
    .uring ∉ engines ∧ .reflink ∉ engines ∧ .splice ∈ engines ∧ autoReflink cfg streams = false ∧
      autoUring cfg streams = false ∧ autoSplice cfg streams

/-- No engine asked for comes before the last one in that order, or the last one is `auto`, and they
come to the same. -/
def LastPrevails (engines : List Engine) (cfg : Config) (streams : Streams) : Prop :=
  ∀ last ∈ engines.getLast?, (∀ e ∈ engines, e.rank ≤ last.rank) ∨
    last = .auto ∧ AutoAgrees engines cfg streams

section Finite

variable {last : Engine} {uring reflink splice async : Bool} (reflink' uring' splice' : Bool)

theorem uring_eq_autoDriver : .uring = autoDriver reflink' uring' splice' ↔
    reflink' = false ∧ uring' := by
  revert reflink' uring' splice'
  decide

theorem reflink_eq_autoDriver : .reflink = autoDriver reflink' uring' splice' ↔ reflink' := by
  revert reflink' uring' splice'
  decide

theorem splice_eq_autoDriver : .splice = autoDriver reflink' uring' splice' ↔
    reflink' = false ∧ uring' = false ∧ splice' := by
  revert reflink' uring' splice'
  decide

theorem async_ne_autoDriver : .async ≠ autoDriver reflink' uring' splice' := by
  revert reflink' uring' splice'
  decide

/-- An engine whose flag is set is found by its flag. -/
theorem select_flags (huring : last = .uring → uring) (hreflink : last = .reflink → reflink)
    (hsplice : last = .splice → splice) (hasync : last = .async → async) (auto : IoDriver) :
    EngineFields.select ⟨last, uring, reflink, splice, async, false⟩ auto =
      if uring then .uring else if reflink then .reflink else if splice then .splice
      else if async then .async else if last = .sync then .sync else auto := by
  unfold EngineFields.select
  simp only [or_iff_right_of_imp huring, or_iff_right_of_imp hreflink,
    or_iff_right_of_imp hsplice, Bool.false_eq_true, or_false, or_iff_right_of_imp hasync]

theorem select_eq_iff (huring : last = .uring → uring) (hreflink : last = .reflink → reflink)
    (hsplice : last = .splice → splice) (hasync : last = .async → async) :
    EngineFields.select ⟨last, uring, reflink, splice, async, false⟩
        (autoDriver reflink' uring' splice') =
      EngineFields.select (EngineFields.asked [last]) (autoDriver reflink' uring' splice') ↔
    ((uring → 4 ≤ last.rank) ∧ (reflink → 3 ≤ last.rank) ∧ (splice → 2 ≤ last.rank) ∧
      (async → 1 ≤ last.rank)) ∨
    last = .auto ∧
      (uring ∧ reflink' = false ∧ uring' ∨ ¬ uring ∧ reflink ∧ reflink' ∨
        ¬ uring ∧ ¬ reflink ∧ splice ∧ reflink' = false ∧ uring' = false ∧ splice') := by
  rw [select_flags huring hreflink hsplice hasync]
  have hone : EngineFields.select (EngineFields.asked [last]) (autoDriver reflink' uring' splice') =
      match last with
      | .uring => .uring
      | .reflink => .reflink
      | .splice => .splice
      | .async => .async
      | .sync => .sync
      | .auto => autoDriver reflink' uring' splice' := by
    cases last <;> rfl
  rw [hone]
  cases last with
  | uring => simp [huring rfl, Engine.rank]
  | reflink => cases uring <;> simp [hreflink rfl, Engine.rank]
  | splice => cases uring <;> cases reflink <;> simp [hsplice rfl, Engine.rank]
  | async => cases uring <;> cases reflink <;> cases splice <;> simp [hasync rfl, Engine.rank]
  | sync => cases uring <;> cases reflink <;> cases splice <;> cases async <;> simp [Engine.rank]
  | auto =>
    cases uring with
    | true => simp [Engine.rank, uring_eq_autoDriver]
    | false =>
      cases reflink with
      | true => simp [Engine.rank, reflink_eq_autoDriver]
      | false =>
        cases splice with
        | true => simp [Engine.rank, splice_eq_autoDriver]
        | false => cases async <;> simp [Engine.rank, async_ne_autoDriver]

end Finite

/-- Another driver is chosen without the earlier engine options exactly when the last one does not
prevail. -/
theorem ddSelectIoDriver_lastEngine_iff {xstrtoumax : Xstrtoumax} {line : CommandLine}
    {cfg : Options} (h : ddScanargs xstrtoumax line = .ok cfg) :
    ∃ cfg', ddScanargs xstrtoumax { line with options := keepLastEngine line.options } = .ok cfg' ∧
      ∀ streams, ddSelectIoDriver cfg.toConfig streams = ddSelectIoDriver cfg'.toConfig streams ↔
        LastPrevails (enginesOf line.options) cfg.toConfig streams := by
  obtain ⟨p, rest, hp, hrest, rfl⟩ := (ddScanargs_eq_ok_iff _ _ _).mp h
  have hasked : p = EngineFields.asked (enginesOf line.options) := by
    rw [runOwned_eq_ok hp, EngineFields.foldl_choose]
  have hkept := runOwned_keepLastEngine hp {}
  rw [EngineFields.foldl_choose] at hkept
  refine ⟨_, (ddScanargs_eq_ok_iff _ _ _).mpr ⟨_, rest, hkept, ?_, rfl⟩, fun streams => ?_⟩
  · rw [keepLastEngine_others]
    exact hrest
  · rw [ddSelectIoDriver_put, ddSelectIoDriver_put, hasked]
    unfold LastPrevails
    cases hlast : (enginesOf line.options).getLast? with
    | none =>
      rw [List.getLast?_eq_none_iff.mp hlast]
      exact iff_of_true rfl fun _ h => nomatch h
    | some last =>
      have hmem (e : Engine) (he : last = e) : (enginesOf line.options).contains e := by
        rw [List.contains_iff_mem, ← he]
        exact List.mem_of_getLast? hlast
      rw [EngineFields.asked_last hlast]
      refine (select_eq_iff _ _ _ (hmem _) (hmem _) (hmem _) (hmem _)).trans ?_
      simp only [Option.mem_some_iff, forall_eq', rank_le_iff, AutoAgrees,
        List.contains_iff_mem]
      rfl

section Example

/-- A library that reads no number. -/
def noNumbers : Xstrtoumax := fun _ => ⟨0, { invalid := true }, 0⟩

def engineOpt (name : String) : Opt := .engine name.toList

/-- `-e uring` with `-e sync` behind it. -/
def uringThenSync : CommandLine := ⟨[engineOpt "uring", engineOpt "sync"], []⟩

/-- The bit of the first one is never cleared. -/
theorem earlierEngine_wins : ¬ ∀ (xstrtoumax : Xstrtoumax) (line : CommandLine)
    (cfg cfg' : Options) (streams : Streams), ddScanargs xstrtoumax line = .ok cfg →
      ddScanargs xstrtoumax { line with options := keepLastEngine line.options } = .ok cfg' →
      ddSelectIoDriver cfg.toConfig streams = ddSelectIoDriver cfg'.toConfig streams := by
  intro h
  have hsame := h noNumbers uringThenSync _ _ ⟨some .regular, some .regular⟩ rfl rfl
  revert hsame
  decide

def syncThenUring : CommandLine := ⟨[engineOpt "sync", engineOpt "uring"], []⟩

/-- The other way round the last one counts. -/
theorem laterEngine_wins : ∃ cfg cfg', ddScanargs noNumbers syncThenUring = .ok cfg ∧
    ddScanargs noNumbers { syncThenUring with options := keepLastEngine syncThenUring.options } =
      .ok cfg' ∧
    ∀ streams, ddSelectIoDriver cfg.toConfig streams = ddSelectIoDriver cfg'.toConfig streams := by
  have hscan : ddScanargs noNumbers syncThenUring = .ok _ := rfl
  obtain ⟨cfg', hkept, hiff⟩ := ddSelectIoDriver_lastEngine_iff hscan
  refine ⟨_, cfg', rfl, hkept, fun streams => (hiff streams).mpr ?_⟩
  intro last hlast
  obtain rfl := Option.some.inj hlast
  exact .inl (by decide)

end Example

end Blkcp.C
