import Blkcp.C.DryRun
import Blkcp.DryRunLine
import Blkcp.Rust.Args
import Blkcp.Rust.DryRun
set_option autoImplicit false

/-! The JSON of a dry run in both programs: when it is well formed and has the paths as they are.
The characters of a path are its bytes. -/

namespace Blkcp
open Blkcp.Lib Blkcp.Lib.Json Blkcp.Lib.Utf8

namespace Rust

variable {α : Type}

/-- `as i64` of a `u64`. -/
def asI64 (n : Nat) : Int := if n < 2 ^ 63 then n else (n : Int) - 2 ^ 64

def DryType.word : DryType → PlanWord
  | .blockDevice => ⟨"block_device".toList, by decide, by decide⟩
  | .characterDevice => ⟨"character_device".toList, by decide, by decide⟩
  | .fifoPipe => ⟨"fifo_pipe".toList, by decide, by decide⟩
  | .directory => ⟨"directory".toList, by decide, by decide⟩
  | .regularFile => ⟨"regular_file".toList, by decide, by decide⟩
  | .missing => ⟨"missing".toList, by decide, by decide⟩
  | .newFile => ⟨"new_file".toList, by decide, by decide⟩

/-- The plan names no engine `auto`. -/
def Engine.word : Engine → PlanWord
  | .uring => ⟨"io_uring".toList, by decide, by decide⟩
  | .reflink => ⟨"reflink".toList, by decide, by decide⟩
  | .splice => ⟨"splice".toList, by decide, by decide⟩
  | .async => ⟨"async".toList, by decide, by decide⟩
  | .sync | .auto => ⟨"sync".toList, by decide, by decide⟩

/-- The guard with what it says of the target, if anything. -/
def guardWord (force : Bool) (detail : Option String) : PlanWord :=
  match detail with
  | none => ⟨"ok".toList, by decide, by decide⟩
  | some _ =>
    if force then ⟨"overridden".toList, by decide, by decide⟩
    else ⟨"blocked".toList, by decide, by decide⟩

section Plan

-- `len` is the length that `metadata` gives, and `detect` is `detect_mounted_violation`
variable (cfg : Config) (w : World α) (len : Path → Nat) (detect : Path → Option String)

def inspectInput : PlanSide :=
  match cfg.input with
  | some path =>
    if (w.fs.lookup path).isSome then
      ⟨toStringLossy path, (inputType cfg w).word, true, asI64 (len path)⟩
    else ⟨toStringLossy path, (inputType cfg w).word, false, -1⟩
  | none => ⟨"stdin".toList, (inputType cfg w).word, true, -1⟩

def inspectOutput : PlanSide :=
  match cfg.output with
  | some path =>
    if (w.fs.lookup path).isSome then
      ⟨toStringLossy path, (outputType cfg w).word, true, asI64 (len path)⟩
    else ⟨toStringLossy path, (outputType cfg w).word, false, -1⟩
  | none => ⟨"stdout".toList, (outputType cfg w).word, true, -1⟩

def dryRunPlan : Plan :=
  let guard := cfg.output.bind detect
  { input := inspectInput cfg w len
    output := inspectOutput cfg w len
    safetyGuard := guardWord cfg.force guard
    safetyGuardDetail := (guard.getD "").toList
    engine := (dryRunEngine cfg w).word
    blocksize := max cfg.blockSize 1
    autotune := cfg.autotune
    directIo := cfg.direct
    nocache := cfg.nocache
    sha256 := cfg.hashAlgo != .none
    limitBytes := (cfg.limitBytes.map asI64).getD (-1)
    skipBytes := cfg.skipBytes
    seekBytes := cfg.seekBytes }

/-- What is printed with `json`. Without it the plan is printed to be read, which is no JSON. -/
def executeDryRun : Option JsonText :=
  if cfg.json then some (dryRunPlan cfg w len detect).line else none

end Plan

/-- The guard on a machine: it has nothing to say when it does not come to an end. -/
def Machine.detect (M : Machine) (fuel : Nat) (path : Path) : Option String :=
  (M.detectMountedViolation fuel (toStringLossy path)).getD none

end Rust

namespace C

def PathType.word : PathType → PlanWord
  | .stream => ⟨"stream".toList, by decide, by decide⟩
  | .regularFile => ⟨"regular_file".toList, by decide, by decide⟩
  | .blockDevice => ⟨"block_device".toList, by decide, by decide⟩
  | .characterDevice => ⟨"character_device".toList, by decide, by decide⟩
  | .fifoPipe => ⟨"fifo_pipe".toList, by decide, by decide⟩
  | .directory => ⟨"directory".toList, by decide, by decide⟩
  | .specialFile => ⟨"special_file".toList, by decide, by decide⟩
  | .notFound => ⟨"not_found".toList, by decide, by decide⟩
  | .newFile => ⟨"new_file".toList, by decide, by decide⟩

def IoDriver.word : IoDriver → PlanWord
  | .uring => ⟨"io_uring".toList, by decide, by decide⟩
  | .reflink => ⟨"reflink".toList, by decide, by decide⟩
  | .splice => ⟨"splice".toList, by decide, by decide⟩
  | .async => ⟨"async".toList, by decide, by decide⟩
  | .sync => ⟨"sync".toList, by decide, by decide⟩

def guardStatus (safety : TargetSafetyStatus) (forced : Bool) : PlanWord :=
  match safety with
  | .ok => ⟨"ok".toList, by decide, by decide⟩
  | .mountedSystem | .activeSwap =>
    if forced then ⟨"overridden".toList, by decide, by decide⟩
    else ⟨"blocked".toList, by decide, by decide⟩

def Inspected.side (i : Inspected) : PlanSide := ⟨i.path.toList, i.type.word, i.exists_, i.size⟩

section Plan

variable (files : Files) (M : Host) (cfg : Options)

def dryRunPlan : Plan :=
  let safety := M.evaluateTargetSafety (cfg.outputFile.map String.toList) 512
  let forced := cfg.force || cfg.conversions.force
  let effectiveBs := if cfg.blocksize > 0 then cfg.blocksize else 512
  { input := (inspectInput files cfg).side
    output := (inspectOutput files cfg).side
    safetyGuard := guardStatus safety.1 forced
    safetyGuardDetail := safety.2.getD []
    engine := (dryRunEngine files cfg).word
    blocksize := effectiveBs
    autotune := cfg.conversions.autotune
    directIo := cfg.inputFlags.direct || cfg.outputFlags.direct
    nocache := cfg.iNocache || cfg.oNocache
    sha256 := cfg.conversions.sha256 || cfg.conversions.blake3
    limitBytes := (cfg.bytesToCopy.map Int.ofNat).getD (-1)
    skipBytes := (cfg.skipRecords * effectiveBs + cfg.skipBytes) % 2 ^ 64
    seekBytes := (cfg.seekRecords * effectiveBs + cfg.seekBytes) % 2 ^ 64 }

/-- The bytes that are printed as JSON. -/
def ddExecuteDryRun : Option (List UInt8) :=
  if cfg.jsonOutput ∨ cfg.statusLevel = .json then some (bytes (dryRunPlan files M cfg).line)
  else none

end Plan

end C

/-- The paths of the line that Rust prints come out as they are if and only if they are plain, and
so do those of the C program, where the bytes have to be UTF-8 besides. What the guard says is not
to close the string that it stands in. -/
theorem dryRunJson_faithful_iff {α : Type} (cfg : Rust.Config) (w : Rust.World α)
    (len : Rust.Path → Nat) (detect : Rust.Path → Option String) (hjson : cfg.json = true)
    (files : C.Files) (M : C.Host) (opts : C.Options)
    (hopts : opts.jsonOutput = true ∨ opts.statusLevel = .json) :
    (∃ line, Rust.executeDryRun cfg w len detect = some line ∧
      (Faithful line (Rust.inspectInput cfg w len).path (Rust.inspectOutput cfg w len).path ↔
        Plain (Rust.inspectInput cfg w len).path ∧ Plain (Rust.inspectOutput cfg w len).path ∧
          (Rust.dryRunPlan cfg w len detect).DetailCloses)) ∧
    ∃ line, C.ddExecuteDryRun files M opts = some line ∧
      (FaithfulBytes line (bytes (C.inspectInput files opts).path.toList)
          (bytes (C.inspectOutput files opts).path.toList) ↔
        ∃ i o detail, encode i = bytes (C.inspectInput files opts).path.toList ∧
          encode o = bytes (C.inspectOutput files opts).path.toList ∧
          encode detail = bytes (C.dryRunPlan files M opts).safetyGuardDetail ∧ Plain i ∧ Plain o ∧
          ((C.dryRunPlan files M opts).withTexts i o detail).DetailCloses) :=
  ⟨⟨_, if_pos hjson, (Rust.dryRunPlan cfg w len detect).faithful_iff⟩,
    ⟨_, if_pos hopts, (C.dryRunPlan files M opts).faithfulBytes_iff⟩⟩

section Example

/-- Nothing is mounted. -/
def idleMachine : Rust.Machine := ⟨fun _ => none, ⟨fun _ => [], fun _ => []⟩, none, none⟩

def noHost : C.Host := ⟨fun _ => none, none, none⟩

def noFiles : C.Files := ⟨fun _ => none, .regular, .regular⟩

/-- Quotes around the title of a film. -/
def quotedPath : String := "The \"Wall\".iso"

def rustDryRun (path : String) : Rust.Config where
  input := some path
  output := some "disk.img"
  json := true
  dryRun := true

def cDryRun (path : String) : C.Options where
  inputFile := some path
  outputFile := some "disk.img"
  jsonOutput := true
  statusLevel := .json
  dryRun := true

/-- What both programs print of it is no JSON. -/
theorem quotedPath_json :
    ¬ (∀ (cfg : Rust.Config) (w : Rust.World Blks.Byte) (len : Rust.Path → Nat)
      (detect : Rust.Path → Option String), cfg.json = true →
        ∃ line, Rust.executeDryRun cfg w len detect = some line ∧
          Faithful line (Rust.inspectInput cfg w len).path (Rust.inspectOutput cfg w len).path) ∧
    ¬ ∀ (files : C.Files) (M : C.Host) (opts : C.Options),
      opts.jsonOutput = true ∨ opts.statusLevel = .json →
        ∃ line, C.ddExecuteDryRun files M opts = some line ∧
          FaithfulBytes line (bytes (C.inspectInput files opts).path.toList)
            (bytes (C.inspectOutput files opts).path.toList) := by
  constructor
  · intro h
    obtain ⟨line, hline, hfaithful⟩ :=
      h (rustDryRun quotedPath) Rust.deviceWorld (fun _ => 0) (idleMachine.detect 1) rfl
    cases hline
    have hplain : Plain (Rust.toStringLossy quotedPath) := Plan.plain_input hfaithful
    revert hplain
    decide +kernel
  · intro h
    obtain ⟨line, hline, hfaithful⟩ := h noFiles noHost (cDryRun quotedPath) (.inl rfl)
    cases hline
    obtain ⟨i, o, detail, hi, -, -, hplain, -⟩ :=
      (C.dryRunPlan noFiles noHost (cDryRun quotedPath)).faithfulBytes_iff.mp hfaithful
    have hascii : Ascii quotedPath.toList := by decide +kernel
    obtain rfl := encode_injective (hi.trans (encode_ascii hascii).symm)
    revert hplain
    decide +kernel

/-- Two plain paths. -/
theorem plainPath_json : (∃ line, Rust.executeDryRun (rustDryRun "backup.iso") Rust.deviceWorld
      (fun _ => 0) (idleMachine.detect 1) = some line ∧
        Faithful line "backup.iso".toList "disk.img".toList) ∧
    ∃ line, C.ddExecuteDryRun noFiles noHost (cDryRun "backup.iso") = some line ∧
      FaithfulBytes line (bytes "backup.iso".toList) (bytes "disk.img".toList) := by
  obtain ⟨⟨line, hline, hrust⟩, line', hline', hc⟩ := dryRunJson_faithful_iff
    (rustDryRun "backup.iso") Rust.deviceWorld (fun _ => 0) (idleMachine.detect 1) rfl noFiles noHost
    (cDryRun "backup.iso") (.inl rfl)
  have hi : Ascii "backup.iso".toList := by decide +kernel
  have ho : Ascii "disk.img".toList := by decide +kernel
  refine ⟨⟨line, hline, ?_⟩, line', hline', ?_⟩
  · have hinput : (Rust.inspectInput (rustDryRun "backup.iso") Rust.deviceWorld fun _ => 0).path =
        "backup.iso".toList := by decide +kernel
    have houtput : (Rust.inspectOutput (rustDryRun "backup.iso") Rust.deviceWorld fun _ => 0).path =
        "disk.img".toList := by decide +kernel
    rw [hinput, houtput] at hrust
    refine hrust.mpr ⟨by decide +kernel, by decide +kernel, Plan.detailCloses_of_plain ?_⟩
    decide +kernel
  · refine hc.mpr ⟨_, _, [], encode_ascii hi, encode_ascii ho, rfl, ?_, ?_,
      Plan.detailCloses_of_plain nofun⟩
    · decide +kernel
    · decide +kernel

end Example

end Blkcp
