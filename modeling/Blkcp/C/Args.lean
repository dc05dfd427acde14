import Blkcp.Lib.Overwrite
import Blkcp.C.Skip
import Blkcp.C.TargetSafety
set_option autoImplicit false

/-! The options of the C program (`args.c`), as `getopt_long` hands them out one after another, and
what of the configuration each of them sets. -/

namespace Blkcp.C
open Blkcp.Lib

/-- The rest of `dd_config_t`. `force` is a bit of `output_flags`. -/
structure Options extends Config where
  statusLevel : StatusLevel := .default
  jsonOutput : Bool := false
  dryRun : Bool := false
  force : Bool := false

def ddInitDefaultConfig : Options where
  blocksize := 0

/-- The bits of `strtol_error`. -/
structure StrtolError where
  overflow : Bool := false
  invalidSuffixChar : Bool := false
  invalid : Bool := false
  deriving DecidableEq

/-- What `xstrtoumax` makes of a text with the suffixes `EGkKMPQRTwYZ0`: the number, the error and
how many characters stand before the suffix that it could not read. -/
structure Strtoumax where
  n : Nat
  error : StrtolError
  read : Nat

/-- The digits of `parse_integer` are read by a function of a library. -/
abbrev Xstrtoumax := CStr → Strtoumax

def parseInteger (xstrtoumax : Xstrtoumax) (str : CStr) : Nat × StrtolError :=
  let r := xstrtoumax str
  let e :=
    if r.error.invalidSuffixChar ∧ ¬ r.error.invalid ∧ str.drop r.read = ['B'] ∧ 0 < r.read ∧
        str[r.read - 1]? ≠ some 'B' then
      { r.error with invalidSuffixChar := false }
    else r.error
  if r.n ≤ intmaxMax then (r.n, e) else (intmaxMax, { overflow := true })

inductive Opt where
  | input (optarg : CStr)
  | output (optarg : CStr)
  | blockSize (optarg : CStr)
  | engine (optarg : CStr)
  | limit (optarg : CStr)
  | count (optarg : CStr)
  | progress | json
  | queueDepth (optarg : CStr)
  | quiet
  | threads (optarg : CStr)
  | force | dryRun | autotune
  | hash (optarg : Option CStr)
  | sha256 | blake3 | blks | direct | nocache | sparse | sync | swab
  | skip (optarg : CStr)
  | seek (optarg : CStr)
  | fdatasync | fsync | noerror | notrunc | help | version | unknown

/-- Which option or operand ends the program, and whether a number was too large. `note` stands
behind the text that is refused. -/
inductive ScanExit where
  | invalid (what note : String) (overflow : Bool) (optarg : CStr)
  | unrecognizedEngine (optarg : CStr)
  | unsupportedHash (optarg : CStr)
  | extraOperand (arg : CStr)
  | usage | help | version

structure ScanState where
  cfg : Options
  blocksize : Nat := 0
  count : Nat := intmaxMax
  skip : Nat := 0
  seek : Nat := 0

def engineNames : List (List Char × Engine) :=
  [("uring".toList, .uring), ("io_uring".toList, .uring), ("async".toList, .async),
    ("pipeline".toList, .async), ("reflink".toList, .reflink), ("cfr".toList, .reflink),
    ("zero-copy".toList, .reflink), ("splice".toList, .splice), ("pipe".toList, .splice),
    ("sync".toList, .sync), ("auto".toList, .auto)]

def hashNames : List (List Char × HashAlgo) :=
  [([], .sha256), ("sha256".toList, .sha256), ("blake3".toList, .blake3), ("b3".toList, .blake3),
    ("blks".toList, .blks), ("blks384".toList, .blks)]

/-- The bit that goes with an engine. There is none for `sync` and `auto`. -/
def Conversions.addEngine (c : Conversions) (e : Engine) : Conversions :=
  match e with
  | .uring => { c with uring := true }
  | .async => { c with async := true }
  | .reflink => { c with reflink := true }
  | .splice => { c with splice := true }
  | .sync | .auto => c

def Conversions.addHash (c : Conversions) (h : HashAlgo) : Conversions :=
  match h with
  | .sha256 => { c with sha256 := true }
  | .blake3 => { c with blake3 := true }
  | .blks => { c with blks := true }
  | .none => c

namespace ScanState

variable (xstrtoumax : Xstrtoumax) (s : ScanState)

def setCfg (cfg : Options) : ScanState := { s with cfg := cfg }

def setConversions (f : Conversions → Conversions) : ScanState :=
  s.setCfg { s.cfg with conversions := f s.cfg.conversions }

def setHash (h : HashAlgo) : ScanState :=
  s.setCfg { s.cfg with conversions := s.cfg.conversions.addHash h, hashAlgo := h }

/-- A number that is checked before it is used. -/
def integer (what note : String) (ok : Nat → Bool) (optarg : CStr) (use : Nat → ScanState) :
    Except ScanExit ScanState :=
  let (n, invalid) := parseInteger xstrtoumax optarg
  if invalid ≠ {} ∨ ¬ ok n then .error (.invalid what note (invalid == { overflow := true }) optarg)
  else .ok (use n)

def scanOption (o : Opt) : Except ScanExit ScanState :=
  match o with
  | .input optarg => .ok (s.setCfg { s.cfg with inputFile := some (String.ofList optarg) })
  | .output optarg => .ok (s.setCfg { s.cfg with outputFile := some (String.ofList optarg) })
  | .blockSize optarg =>
    if optarg = "auto".toList ∨ optarg = "autotune".toList then
      .ok (s.setConversions fun c => { c with autotune := true })
    else
      integer xstrtoumax "invalid block size" "" (0 < ·) optarg fun n => { s with blocksize := n }
  | .engine optarg =>
    match engineNames.lookup optarg with
    | some e =>
      .ok (s.setCfg { s.cfg with engine := e, conversions := s.cfg.conversions.addEngine e })
    | none => .error (.unrecognizedEngine optarg)
  | .limit optarg =>
    integer xstrtoumax "invalid byte limit" "" (fun _ => true) optarg fun n =>
      s.setCfg { s.cfg with
        bytesToCopy := some n, inputFlags := { s.cfg.inputFlags with countBytes := true } }
  | .count optarg =>
    integer xstrtoumax "invalid count" "" (fun _ => true) optarg fun n => { s with count := n }
  | .progress => .ok (s.setCfg { s.cfg with statusLevel := .progress })
  | .json => .ok (s.setCfg { s.cfg with statusLevel := .json, jsonOutput := true })
  | .queueDepth optarg =>
    integer xstrtoumax "invalid queue depth" " (must be between 2 and 1024)"
      (fun n => 2 ≤ n && n ≤ 1024) optarg fun n => s.setCfg { s.cfg with asyncQueueDepth := n }
  | .quiet => .ok (s.setCfg { s.cfg with statusLevel := .none })
  | .threads optarg =>
    integer xstrtoumax "invalid thread count" " (must be between 1 and 1024)"
      (fun n => 0 < n && n ≤ 1024) optarg fun n => s.setCfg { s.cfg with threads := n }
  | .force => .ok (s.setCfg { s.cfg with force := true })
  | .dryRun => .ok (s.setCfg { s.cfg with dryRun := true })
  | .autotune => .ok (s.setConversions fun c => { c with autotune := true })
  | .hash optarg =>
    match hashNames.lookup (optarg.getD []) with
    | some h => .ok (s.setHash h)
    | none => .error (.unsupportedHash (optarg.getD []))
  | .sha256 => .ok (s.setHash .sha256)
  | .blake3 => .ok (s.setHash .blake3)
  | .blks => .ok (s.setHash .blks)
  | .direct =>
    .ok (s.setCfg { s.cfg with
      inputFlags := { s.cfg.inputFlags with direct := true }
      outputFlags := { s.cfg.outputFlags with direct := true } })
  | .nocache => .ok (s.setCfg { s.cfg with iNocache := true, oNocache := true })
  | .sparse => .ok (s.setConversions fun c => { c with sparse := true })
  | .sync => .ok (s.setConversions fun c => { c with sync := true })
  | .swab => .ok (s.setConversions fun c => { c with swab := true })
  | .skip optarg =>
    integer xstrtoumax "invalid skip offset" "" (fun _ => true) optarg fun n =>
      { s with skip := n }
  | .seek optarg =>
    integer xstrtoumax "invalid seek offset" "" (fun _ => true) optarg fun n =>
      { s with seek := n }
  | .fdatasync => .ok (s.setConversions fun c => { c with fdatasync := true })
  | .fsync => .ok (s.setConversions fun c => { c with fsync := true })
  | .noerror => .ok (s.setConversions fun c => { c with noerror := true })
  | .notrunc => .ok (s.setConversions fun c => { c with notrunc := true })
  | .help => .error .help
  | .version => .error .version
  | .unknown => .error .usage

end ScanState

/-- The input, then the output, then nothing more. -/
def scanOperand (cfg : Options) (arg : CStr) : Except ScanExit Options :=
  if cfg.inputFile = none then .ok { cfg with inputFile := some (String.ofList arg) }
  else if cfg.outputFile = none then .ok { cfg with outputFile := some (String.ofList arg) }
  else .error (.extraOperand arg)

/-- What is set once all arguments are known. -/
def resolve (s : ScanState) (cfg : Options) : Options :=
  let blocksize := if s.blocksize = 0 then 512 else s.blocksize
  let cfg := { cfg with
    blocksize := blocksize
    skipBytes := if 0 < s.skip then s.skip else cfg.skipBytes
    seekBytes := if 0 < s.seek then s.seek else cfg.seekBytes }
  if s.count = intmaxMax then cfg
  else if cfg.bytesToCopy = none ∧ s.count * blocksize ≤ intmaxMax then
    { cfg with
      maxRecords := s.count
      bytesToCopy := some (s.count * blocksize)
      inputFlags := { cfg.inputFlags with countBytes := true } }
  else { cfg with maxRecords := s.count }

/-- The arguments with the options before the operands, as `getopt_long` orders them. -/
structure CommandLine where
  options : List Opt
  operands : List CStr

def ddScanargs (xstrtoumax : Xstrtoumax) (line : CommandLine) : Except ScanExit Options := do
  let s ← line.options.foldlM (ScanState.scanOption xstrtoumax) { cfg := ddInitDefaultConfig }
  let cfg ← line.operands.foldlM scanOperand s.cfg
  return resolve s cfg

end Blkcp.C
