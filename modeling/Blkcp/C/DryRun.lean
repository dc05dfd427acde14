import Blkcp.C.Select
set_option autoImplicit false

/-! The plan that `dd_execute_dry_run` prints, and the driver that `dd_copy` runs on the same
files. -/

namespace Blkcp.C
open Blkcp.Lib

/-- Which file `stat` finds. -/
inductive FileType where
  | regular | block | char | fifo | dir | special
  deriving DecidableEq

/-- What the drivers tell apart. -/
def FileType.kind : FileType → FileKind
  | .regular => .regular
  | .block => .block
  | .fifo => .fifo
  | .char | .dir | .special => .other

/-- `size` is that of a regular file, or of a block device where it can be asked for. -/
structure FileStat where
  type : FileType
  size : Nat
  blockSize : Option Nat

/-- The files by their paths, and what the standard input and output are. -/
structure Files where
  stat : String → Option FileStat
  stdin : FileType
  stdout : FileType

inductive PathType where
  | stream | regularFile | blockDevice | characterDevice | fifoPipe | directory | specialFile
  | notFound | newFile
  deriving DecidableEq

/-- What the plan says of one side. A size that is not known is -1. -/
structure Inspected where
  path : String
  type : PathType
  exists_ : Bool
  size : Int

namespace FileStat

def pathType (st : FileStat) : PathType :=
  match st.type with
  | .regular => .regularFile
  | .block => .blockDevice
  | .char => .characterDevice
  | .fifo => .fifoPipe
  | .dir => .directory
  | .special => .specialFile

def plannedSize (st : FileStat) : Int :=
  match st.type with
  | .regular => st.size
  | .block => (st.blockSize.map Int.ofNat).getD (-1)
  | _ => -1

end FileStat

section Plan

variable (files : Files) (cfg : Options)

def inspectInput : Inspected :=
  match cfg.inputFile with
  | none => ⟨"<standard input>", .stream, true, -1⟩
  | some path =>
    match files.stat path with
    | some st => ⟨path, st.pathType, true, st.plannedSize⟩
    | none => ⟨path, .notFound, false, -1⟩

def inspectOutput : Inspected :=
  match cfg.outputFile with
  | none => ⟨"<standard output>", .stream, false, -1⟩
  | some path =>
    match files.stat path with
    | some st => ⟨path, st.pathType, true, st.plannedSize⟩
    | none => ⟨path, .newFile, false, -1⟩

/-- The plan's own tests of the opportunistic zero-copy drivers. -/
def plannedCompatible : Bool :=
  !(cfg.conversions.swab || cfg.conversions.sync || cfg.conversions.sha256 ||
      cfg.conversions.blake3 || cfg.conversions.sparse || cfg.conversions.autotune) &&
    !cfg.iNocache && !cfg.oNocache && !(cfg.inputFlags.direct || cfg.inputFlags.nocache) &&
    !(cfg.outputFlags.direct || cfg.outputFlags.nocache)

def canReflink : Bool :=
  plannedCompatible cfg && (inspectInput files cfg).type == .regularFile &&
    ((inspectOutput files cfg).type == .regularFile || (inspectOutput files cfg).type == .newFile)

def canUring : Bool :=
  !(cfg.conversions.swab || cfg.conversions.autotune) &&
    ((inspectInput files cfg).type == .blockDevice ||
      (inspectOutput files cfg).type == .blockDevice ||
      (cfg.inputFlags.direct || cfg.outputFlags.direct))

def canSplice : Bool :=
  plannedCompatible cfg &&
    (((inspectInput files cfg).type == .fifoPipe || cfg.inputFile.isNone) ||
      ((inspectOutput files cfg).type == .fifoPipe || cfg.outputFile.isNone))

/-- The engine of the plan, as the driver it names. -/
def dryRunEngine : IoDriver :=
  if cfg.engine = .uring ∨ cfg.conversions.uring then .uring
  else if cfg.engine = .reflink ∨ cfg.conversions.reflink then .reflink
  else if cfg.engine = .splice ∨ cfg.conversions.splice then .splice
  else if cfg.engine = .async ∨ cfg.conversions.async ∨ cfg.outputFlags.asyncPipeline then .async
  else if cfg.engine = .sync then .sync
  else if canReflink files cfg then .reflink
  else if canUring files cfg then .uring
  else if canSplice files cfg then .splice
  else .sync

/-- The standard input and output as `setup_input_stream` and `setup_output_stream` leave them: a
new output is a regular file. -/
def openedStreams : Streams where
  input :=
    match cfg.inputFile with
    | none => some files.stdin.kind
    | some path => (files.stat path).map (·.type.kind)
  output :=
    match cfg.outputFile with
    | none => some files.stdout.kind
    | some path => some (((files.stat path).map (·.type.kind)).getD .regular)

end Plan

/-- The driver that `dd_copy` runs: the selected one, or the synchronous one if its `init` refuses.
Every system call succeeds. -/
def ddCopyDriver (cfg : Config) (streams : Streams) : IoDriver :=
  match ddSelectIoDriver cfg streams with
  | .reflink => if reflinkDriverInit cfg streams then .reflink else .sync
  | .splice => if (spliceDriverInit cfg streams true).isSome then .splice else .sync
  | driver => driver

/-- The engine that is asked for by name. -/
def requested (cfg : Config) : Option IoDriver :=
  if cfg.engine = .uring ∨ cfg.conversions.uring then some .uring
  else if cfg.engine = .reflink ∨ cfg.conversions.reflink then some .reflink
  else if cfg.engine = .splice ∨ cfg.conversions.splice then some .splice
  else if cfg.engine = .async ∨ cfg.conversions.async ∨ cfg.outputFlags.asyncPipeline then
    some .async
  else if cfg.engine = .sync then some .sync
  else none

section Requested

variable (files : Files) (cfg : Options) (streams : Streams)

theorem getD_ite (c : Prop) [Decidable c] (x y : Option IoDriver) (d : IoDriver) :
    (if c then x else y).getD d = if c then x.getD d else y.getD d := by
  split <;> rfl

theorem ddSelectIoDriver_requested : ddSelectIoDriver cfg.toConfig streams =
    (requested cfg.toConfig).getD (autoDriver (autoReflink cfg.toConfig streams)
      (autoUring cfg.toConfig streams) (autoSplice cfg.toConfig streams)) := by
  unfold ddSelectIoDriver requested
  simp only [getD_ite, Option.getD_some, Option.getD_none]
  rfl

theorem dryRunEngine_requested : dryRunEngine files cfg =
    (requested cfg.toConfig).getD (autoDriver (canReflink files cfg) (canUring files cfg)
      (canSplice files cfg)) := by
  unfold dryRunEngine requested
  simp only [getD_ite, Option.getD_some, Option.getD_none]
  rfl

theorem zeroCopyCompatible_veto (h : zeroCopyCompatible cfg.toConfig) :
    zeroCopyVeto cfg.toConfig = false := by
  unfold zeroCopyCompatible at h
  unfold zeroCopyVeto
  simp only [Bool.and_eq_true, Bool.not_eq_true', Bool.or_eq_false_iff] at h ⊢
  tauto

/-- The driver found for `auto` is accepted. -/
theorem autoReflink_init (h : autoReflink cfg.toConfig streams) :
    reflinkDriverInit cfg.toConfig streams := by
  unfold autoReflink at h
  simp only [Bool.and_eq_true] at h
  obtain ⟨⟨hcompatible, hinput⟩, houtput⟩ := h
  have hautotune : cfg.conversions.autotune = false := by
    unfold zeroCopyCompatible at hcompatible
    simp only [Bool.and_eq_true, Bool.not_eq_true', Bool.or_eq_false_iff] at hcompatible
    tauto
  unfold reflinkDriverInit
  rw [zeroCopyCompatible_veto cfg hcompatible, hinput, houtput, hautotune]
  simp

theorem autoSplice_init (h : autoSplice cfg.toConfig streams) (hinput : streams.input.isSome)
    (houtput : streams.output.isSome) :
    (spliceDriverInit cfg.toConfig streams true).isSome := by
  unfold autoSplice at h
  rw [Bool.and_eq_true] at h
  obtain ⟨input, hi⟩ := Option.isSome_iff_exists.mp hinput
  obtain ⟨output, ho⟩ := Option.isSome_iff_exists.mp houtput
  unfold spliceDriverInit
  rw [zeroCopyCompatible_veto cfg h.1, hi, ho]
  simp only [Bool.false_eq_true, if_false, if_true]
  split <;> rfl

theorem autoDriver_eq_iff (r u s r' u' s' : Bool) : autoDriver r u s = autoDriver r' u' s' ↔
    (r ↔ r') ∧ (r ∨ (u ↔ u') ∧ (u ∨ (s ↔ s'))) := by
  revert r u s r' u' s'
  decide

theorem ddCopyDriver_auto (h : requested cfg.toConfig = none) (hinput : streams.input.isSome)
    (houtput : streams.output.isSome) : ddCopyDriver cfg.toConfig streams =
      autoDriver (autoReflink cfg.toConfig streams) (autoUring cfg.toConfig streams)
        (autoSplice cfg.toConfig streams) := by
  unfold ddCopyDriver
  rw [ddSelectIoDriver_requested, h, Option.getD_none]
  cases hreflink : autoReflink cfg.toConfig streams with
  | true => exact if_pos (autoReflink_init cfg streams hreflink)
  | false =>
    cases autoUring cfg.toConfig streams with
    | true => rfl
    | false =>
      cases hsplice : autoSplice cfg.toConfig streams with
      | true => exact if_pos (autoSplice_init cfg streams hsplice hinput houtput)
      | false => rfl

theorem eq_unless_refused {accepted : Prop} [Decidable accepted] {d : IoDriver} (h : d ≠ .sync) :
    d = (if accepted then d else .sync) ↔ accepted := by
  split
  · rename_i haccepted
    exact iff_of_true rfl haccepted
  · rename_i hrefused
    exact iff_of_false h hrefused

end Requested

/-- An engine asked for by name is accepted by its driver, and for `auto` the first of the three
tests that holds of the plan is the first one that holds of the files opened. -/
def PlanHolds (files : Files) (cfg : Options) : Prop :=
  let streams := openedStreams files cfg
  match requested cfg.toConfig with
  | some .reflink => reflinkDriverInit cfg.toConfig streams
  | some .splice => (spliceDriverInit cfg.toConfig streams true).isSome
  | some _ => True
  | none =>
    (canReflink files cfg ↔ autoReflink cfg.toConfig streams) ∧
      (canReflink files cfg ∨ (canUring files cfg ↔ autoUring cfg.toConfig streams) ∧
        (canUring files cfg ∨ (canSplice files cfg ↔ autoSplice cfg.toConfig streams)))

/-- The plan names the driver that runs exactly when it holds. The input can be opened. -/
theorem ddDryRunEngine_iff {files : Files} {cfg : Options}
    (hinput : ∀ path ∈ cfg.inputFile, (files.stat path).isSome) :
    dryRunEngine files cfg = ddCopyDriver cfg.toConfig (openedStreams files cfg) ↔
      PlanHolds files cfg := by
  rw [dryRunEngine_requested]
  unfold PlanHolds
  cases hrequested : requested cfg.toConfig with
  | none =>
    have hin : (openedStreams files cfg).input.isSome := by
      unfold openedStreams
      cases hfile : cfg.inputFile with
      | none => rfl
      | some path =>
        rw [Option.isSome_map]
        exact hinput path hfile
    have hout : (openedStreams files cfg).output.isSome := by
      unfold openedStreams
      cases cfg.outputFile <;> rfl
    rw [ddCopyDriver_auto cfg _ hrequested hin hout]
    exact autoDriver_eq_iff _ _ _ _ _ _
  | some driver =>
    have hselect : ddSelectIoDriver cfg.toConfig (openedStreams files cfg) = driver := by
      rw [ddSelectIoDriver_requested, hrequested]
      rfl
    unfold ddCopyDriver
    rw [hselect]
    cases driver with
    | reflink => exact eq_unless_refused (d := .reflink) IoDriver.noConfusion
    | splice => exact eq_unless_refused (d := .splice) IoDriver.noConfusion
    | _ => exact iff_of_true rfl trivial

section Example

/-- Two regular files. -/
def twoFiles : Files where
  stat path := if path = "a" ∨ path = "b" then some ⟨.regular, 4096, none⟩ else none
  stdin := .char
  stdout := .char

def fromAToB (options : List Opt) : CommandLine :=
  ⟨.input ['a'] :: .output ['b'] :: options, []⟩

/-- With `--blks` the plan is to reflink, and the blocks are copied one by one. -/
theorem blks_planned : ¬ ∀ (xstrtoumax : Xstrtoumax) (line : CommandLine) (cfg : Options)
    (files : Files), ddScanargs xstrtoumax line = .ok cfg →
      (∀ path ∈ cfg.inputFile, (files.stat path).isSome) →
      dryRunEngine files cfg = ddCopyDriver cfg.toConfig (openedStreams files cfg) := by
  intro h
  have hsame := h noNumbers (fromAToB [.blks]) _ twoFiles rfl (by decide)
  revert hsame
  decide

/-- Without a checksum they are reflinked. -/
theorem reflink_planned : ∃ cfg, ddScanargs noNumbers (fromAToB []) = .ok cfg ∧
    dryRunEngine twoFiles cfg = ddCopyDriver cfg.toConfig (openedStreams twoFiles cfg) := by
  refine ⟨_, rfl, (ddDryRunEngine_iff (by decide)).mpr ?_⟩
  exact ⟨by decide, .inl (by decide)⟩

end Example

end Blkcp.C
