import Blkcp.C.Args
import Blkcp.Lib.Getopt
import Blkcp.Lib.Shell
set_option autoImplicit false

/-! The form of the C interface (`tui_render.c`, `tui_main.c`) and the shell command that is made of
it, in arrays of a fixed size. -/

namespace Blkcp.C
open Blkcp.Lib

/-- What follows an option name or a letter of `args.c`. -/
inductive OptVal where
  | input | output | blockSize | engine | limit | count | progress | json | queueDepth | quiet
  | threads | force | dryRun | autotune | hash | sha256 | blake3 | blks | direct | nocache | sparse
  | sync | swab | skip | seek | fdatasync | fsync | noerror | notrunc | help | version
  deriving DecidableEq

/-- The letters and the names that `getopt_long` is called with. -/
def modernLongOptions : Getopt.Table OptVal where
  short :=
    [('i', .required, .input), ('o', .required, .output), ('b', .required, .blockSize),
      ('e', .required, .engine), ('l', .required, .limit), ('s', .required, .limit),
      ('c', .required, .count), ('j', .required, .threads), ('p', .no, .progress),
      ('q', .no, .quiet), ('f', .no, .force), ('n', .no, .dryRun), ('h', .no, .help),
      ('v', .no, .version)]
  long :=
    [("input".toList, .required, .input), ("output".toList, .required, .output),
      ("block-size".toList, .required, .blockSize), ("bs".toList, .required, .blockSize),
      ("limit".toList, .required, .limit), ("size".toList, .required, .limit),
      ("bytes".toList, .required, .limit), ("count".toList, .required, .count),
      ("engine".toList, .required, .engine), ("progress".toList, .no, .progress),
      ("json".toList, .no, .json), ("queue-depth".toList, .required, .queueDepth),
      ("async-queue".toList, .required, .queueDepth), ("threads".toList, .required, .threads),
      ("shards".toList, .required, .threads), ("quiet".toList, .no, .quiet),
      ("force".toList, .no, .force), ("dry-run".toList, .no, .dryRun),
      ("autotune".toList, .no, .autotune), ("hash".toList, .optional, .hash),
      ("sha256".toList, .no, .sha256), ("blake3".toList, .no, .blake3),
      ("blks".toList, .no, .blks), ("direct".toList, .no, .direct),
      ("nocache".toList, .no, .nocache), ("sparse".toList, .no, .sparse),
      ("sync".toList, .no, .sync), ("swab".toList, .no, .swab), ("skip".toList, .required, .skip),
      ("seek".toList, .required, .seek), ("fdatasync".toList, .no, .fdatasync),
      ("fsync".toList, .no, .fsync), ("noerror".toList, .no, .noerror),
      ("notrunc".toList, .no, .notrunc), ("help".toList, .no, .help),
      ("version".toList, .no, .version)]

/-- An option with what `optarg` points to. -/
def OptVal.opt (o : OptVal) (optarg : Option CStr) : Opt :=
  let arg := optarg.getD []
  match o with
  | .input => .input arg
  | .output => .output arg
  | .blockSize => .blockSize arg
  | .engine => .engine arg
  | .limit => .limit arg
  | .count => .count arg
  | .progress => .progress
  | .json => .json
  | .queueDepth => .queueDepth arg
  | .quiet => .quiet
  | .threads => .threads arg
  | .force => .force
  | .dryRun => .dryRun
  | .autotune => .autotune
  | .hash => .hash optarg
  | .sha256 => .sha256
  | .blake3 => .blake3
  | .blks => .blks
  | .direct => .direct
  | .nocache => .nocache
  | .sparse => .sparse
  | .sync => .sync
  | .swab => .swab
  | .skip => .skip arg
  | .seek => .seek arg
  | .fdatasync => .fdatasync
  | .fsync => .fsync
  | .noerror => .noerror
  | .notrunc => .notrunc
  | .help => .help
  | .version => .version

def itemOption (i : Getopt.Item OptVal) : Option Opt :=
  match i with
  | .option code optarg => some (code.opt optarg)
  | .unknown => some .unknown
  | .operand _ => none

def itemOperand (i : Getopt.Item OptVal) : Option CStr :=
  match i with
  | .operand text => some text
  | .option _ _ | .unknown => none

/-- The options and the operands in the arguments of a program. -/
def commandLine (args : List CStr) : CommandLine :=
  let items := modernLongOptions.scan none args
  ⟨items.filterMap itemOption, items.filterMap itemOperand⟩

/-- An array of characters that holds a string. -/
structure Buffer (size : Nat) where
  text : CStr
  fits : text.length < size
  nonul : '\x00' ∉ text

inductive TuiEngineMode where
  | auto | uring | async | reflink | splice | sync
  deriving DecidableEq

/-- The part of `tui_form_t` that a command is made of. -/
structure TuiForm where
  ifPath : Buffer 512
  ifIsPipe : Bool
  ofPath : Buffer 512
  ofIsPipe : Bool
  engine : TuiEngineMode
  queueDepth : Buffer 32
  bs : Buffer 64
  limit : Buffer 64
  count : Buffer 64
  skip : Buffer 64
  seek : Buffer 64
  optAutotune : Bool
  optSha256 : Bool
  optDirect : Bool
  optForce : Bool
  optSparse : Bool
  optSync : Bool
  optDryRun : Bool
  statusMode : Int

/-- The form at the start, without what is not part of a command. -/
def tuiInitForm : TuiForm where
  ifPath := ⟨[], by decide, by decide⟩
  ifIsPipe := false
  ofPath := ⟨[], by decide, by decide⟩
  ofIsPipe := false
  engine := .auto
  queueDepth := ⟨"auto".toList, by decide, by decide⟩
  bs := ⟨"auto".toList, by decide, by decide⟩
  limit := ⟨[], by decide, by decide⟩
  count := ⟨[], by decide, by decide⟩
  skip := ⟨[], by decide, by decide⟩
  seek := ⟨[], by decide, by decide⟩
  optAutotune := true
  optSha256 := false
  optDirect := false
  optForce := false
  optSparse := false
  optSync := false
  optDryRun := false
  statusMode := 2

/-- What `snprintf` leaves of a text in an array of some size. -/
def snprintf (size : Nat) (text : CStr) : CStr := text.take (size - 1)

/-- `snprintf(buf + strlen(buf), sizeof(buf) - strlen(buf), ...)`, for an array of 1024. -/
def snprintfAppend (buf text : CStr) : CStr := buf ++ snprintf (1024 - buf.length) text

def defaultBin : CStr := "./blkcp".toList

def binOf (blkcpBin : Option CStr) : CStr :=
  match blkcpBin with
  | some bin => if bin = [] then defaultBin else bin
  | none => defaultBin

/-- A path in double quotes, `%.500s` of it. -/
def quotedPath (flag : Char) (path : CStr) : CStr :=
  [' ', '-', flag, ' ', '"'] ++ path.take 500 ++ ['"']

def given (p : Prop) [Decidable p] (text : CStr) : CStr := if p then text else []

namespace TuiForm

variable (form : TuiForm)

def inputPrefix : CStr :=
  snprintf 600 (given (form.ifIsPipe ∧ form.ifPath.text ≠ [] ∧ form.ifPath.text ≠ "stdin".toList ∧
    form.ifPath.text ≠ ['-']) (form.ifPath.text.take 500 ++ " | ".toList))

def outputSuffix : CStr :=
  snprintf 600 (given (form.ofIsPipe ∧ form.ofPath.text ≠ [] ∧ form.ofPath.text ≠ "stdout".toList ∧
    form.ofPath.text ≠ ['-']) (" | ".toList ++ form.ofPath.text.take 500))

def inputPart : CStr :=
  given (form.ifIsPipe = false ∧ form.ifPath.text ≠ []) (quotedPath 'i' form.ifPath.text)

def outputPart : CStr :=
  given (form.ofIsPipe = false ∧ form.ofPath.text ≠ []) (quotedPath 'o' form.ofPath.text)

def enginePart : CStr :=
  match form.engine with
  | .uring => " -e uring".toList
  | .async => " -e async".toList
  | .reflink => " -e reflink".toList
  | .splice => " -e splice".toList
  | .sync => " -e sync".toList
  | .auto => []

/-- What is appended behind the paths, up to the flag of a dry run. -/
def optionParts : List CStr :=
  [form.enginePart,
    given (form.queueDepth.text ≠ [] ∧ form.queueDepth.text ≠ "auto".toList)
      (" --queue-depth=".toList ++ form.queueDepth.text),
    given (form.bs.text ≠ []) (" -b ".toList ++ form.bs.text),
    given (form.limit.text ≠ []) (" -l ".toList ++ form.limit.text),
    given (form.count.text ≠ []) (" -c ".toList ++ form.count.text),
    given (form.skip.text ≠ []) (" --skip=".toList ++ form.skip.text),
    given (form.seek.text ≠ []) (" --seek=".toList ++ form.seek.text),
    given (form.optAutotune ∧ form.bs.text ≠ "auto".toList) " --autotune".toList,
    given form.optSha256 " --hash".toList,
    given form.optDirect " --direct".toList,
    given form.optSparse " --sparse".toList,
    given form.optSync " --sync".toList,
    given form.optForce " -f".toList]

def dryRunPart : CStr := given form.optDryRun " -n".toList

def statusPart : CStr :=
  if form.statusMode = 0 then " -q".toList
  else if form.statusMode = 2 then " -p".toList
  else if form.statusMode = 3 then " --json".toList
  else []

def parts : List CStr :=
  [form.inputPart, form.outputPart] ++ form.optionParts ++ [form.dryRunPart, form.statusPart]

def tuiBuildCommand (blkcpBin : Option CStr) (cmdLen : Nat) : CStr :=
  let buf := form.parts.foldl snprintfAppend (snprintf 1024 (binOf blkcpBin))
  snprintf cmdLen (form.inputPrefix ++ buf ++ form.outputSuffix)

end TuiForm

/-- The program in the working directory, in an array of 600. `getcwd` may fail. -/
def fullBin (cwd : Option CStr) : CStr :=
  match cwd with
  | some dir => snprintf 600 (dir.take 500 ++ "/blkcp".toList)
  | none => defaultBin

/-- What `execute_dry_run_simulation` hands to the shell. -/
def executeDryRunSimulation (form : TuiForm) (cwd : Option CStr) : Option CStr :=
  if form.ifPath.text = [] ∨ form.ofPath.text = [] then none
  else
    let cmdBody := { form with optDryRun := true }.tuiBuildCommand (some (fullBin cwd)) 1600
    some (snprintf 2048 (cmdBody ++ " 2>&1".toList))

theorem snprintfAppend_eq {buf : CStr} (h : buf.length ≤ 1023) (text : CStr) :
    snprintfAppend buf text = (buf ++ text).take 1023 := by
  unfold snprintfAppend snprintf
  rw [List.take_append, List.take_of_length_le h, Nat.sub_right_comm]

/-- What is appended piece by piece is cut off once. -/
theorem foldl_snprintfAppend (texts : List CStr) {buf : CStr} (h : buf.length ≤ 1023) :
    texts.foldl snprintfAppend buf = (buf ++ texts.flatten).take 1023 := by
  induction texts generalizing buf with
  | nil => rw [List.foldl_nil, List.flatten_nil, List.append_nil, List.take_of_length_le h]
  | cons t texts ih =>
    rw [List.foldl_cons, snprintfAppend_eq h, ih (List.length_take_le _ _), List.flatten_cons,
      ← List.append_assoc]
    rw [List.take_append, @List.take_append _ (buf ++ t), List.take_take, Nat.min_self,
      List.length_take]
    congr 2
    omega

/-! ### The paths in the command -/

def inputArg (o : Opt) : Option CStr :=
  match o with
  | .input arg => some arg
  | _ => none

def outputArg (o : Opt) : Option CStr :=
  match o with
  | .output arg => some arg
  | _ => none

/-- The arguments of `-i`, in order. -/
def inputArgs (args : List CStr) : List CStr := (commandLine args).options.filterMap inputArg

/-- The arguments of `-o`, in order. -/
def outputArgs (args : List CStr) : List CStr := (commandLine args).options.filterMap outputArg

/-- An empty field stands for no option. -/
def pathOption (path : CStr) : List CStr := if path = [] then [] else [path]

/-- The command is a single simple one, and what the form says it reads and writes is what it has
behind `-i` and `-o`. -/
def Denotes (form : TuiForm) (command : CStr) : Prop :=
  ∃ name args, Shell.parse command = .ok [name :: args] ∧
    inputArgs args = pathOption form.ifPath.text ∧ outputArgs args = pathOption form.ofPath.text

/-- A path that stays what it is between double quotes, in the room that it has. -/
def PathKept (path : CStr) : Prop := Shell.literal path = true ∧ path.length ≤ 500

theorem scan_input (v : CStr) (more : List CStr) :
    commandLine (['-', 'i'] :: v :: more) =
      ⟨.input v :: (commandLine more).options, (commandLine more).operands⟩ := rfl

theorem scan_output (v : CStr) (more : List CStr) :
    commandLine (['-', 'o'] :: v :: more) =
      ⟨.output v :: (commandLine more).options, (commandLine more).operands⟩ := rfl

theorem length_quotedPath {path : CStr} (h : path.length ≤ 500) (flag : Char) :
    (quotedPath flag path).length = path.length + 6 := by
  unfold quotedPath
  rw [List.take_of_length_le h, List.length_append, List.length_append]
  simp only [List.length_cons, List.length_nil]
  omega

/-- The characters of a flag. -/
theorem ordinary_flag {flag : Char} (h : Shell.ordinary flag = true) :
    ∀ c ∈ ['-', flag], Shell.ordinary c = true := by
  simp [h, show Shell.ordinary '-' = true by decide]

theorem quotedPath_append (flag : Char) (path rest : CStr) :
    quotedPath flag path ++ rest =
      ' ' :: (['-', flag] ++ ' ' :: '"' :: (path.take 500 ++ '"' :: rest)) := by
  simp [quotedPath]

theorem arguments_quotedPath {flag : Char} (hflag : Shell.ordinary flag = true) {path : CStr}
    (h : PathKept path) {rest : CStr} (hrest : Shell.Apart rest) (args : List CStr) :
    Shell.arguments (quotedPath flag path ++ rest) = .ok args ↔
      ∃ more, args = ['-', flag] :: path :: more ∧ Shell.arguments rest = .ok more := by
  rw [quotedPath_append, List.take_of_length_le h.2,
    Shell.arguments_word (ordinary_flag hflag) (by simp) (.inr ⟨_, rfl⟩)]
  simp only [Shell.arguments_quoted h.1 hrest]
  constructor
  · rintro ⟨_, rfl, more, rfl, hmore⟩
    exact ⟨more, rfl, hmore⟩
  · rintro ⟨more, rfl, hmore⟩
    exact ⟨_, rfl, more, rfl, hmore⟩

/-- Less than the opening quote of a path. -/
theorem arguments_flag_cut {flag : Char} (hflag : Shell.ordinary flag = true) {n : Nat} (hn : n < 5)
    {rest : CStr} {args : List CStr}
    (h : Shell.arguments ((' ' :: '-' :: flag :: ' ' :: '"' :: rest).take n) = .ok args) :
    args ∈ [[], [['-']], [['-', flag]]] := by
  have hdash : Shell.arguments [' ', '-'] = .ok [['-']] := rfl
  have hword : ∀ rest, Shell.Apart rest → Shell.arguments rest = .ok [] →
      Shell.arguments (' ' :: (['-', flag] ++ rest)) = .ok [['-', flag]] := fun rest hr h =>
    (Shell.arguments_word (ordinary_flag hflag) (by simp) hr _).mpr ⟨[], rfl, h⟩
  have hargs : ∀ {text : CStr} {out : List CStr}, Shell.arguments text = .ok out →
      Shell.arguments text = .ok args → args = out := fun h h' => by
    rw [h] at h'
    cases h'
    rfl
  match n, hn with
  | 0, _ | 1, _ =>
    cases h
    exact List.mem_cons_self
  | 2, _ =>
    rw [hargs hdash h]
    simp
  | 3, _ =>
    rw [hargs (hword [] (.inl rfl) rfl) h]
    simp
  | 4, _ =>
    rw [hargs (hword [' '] (.inr ⟨[], rfl⟩) rfl) h]
    simp

theorem arguments_quotedPath_cut {flag : Char} (hflag : Shell.ordinary flag = true) {path : CStr}
    {rest : CStr} (hrest : Shell.Apart rest) {n : Nat} {args : List CStr}
    (h : Shell.arguments ((quotedPath flag path ++ rest).take n) = .ok args) :
    args ∈ [[], [['-']], [['-', flag]]] ∨
      ∃ v more, args = ['-', flag] :: v :: more ∧
        (v = path → PathKept path ∧ (quotedPath flag path).length ≤ n) := by
  rw [quotedPath_append] at h
  by_cases hn : n < 5
  · exact .inl (arguments_flag_cut hflag hn h)
  · obtain ⟨m, rfl⟩ : ∃ m, n = m + 5 := ⟨n - 5, by omega⟩
    have hcut : (' ' :: (['-', flag] ++ ' ' :: '"' :: (path.take 500 ++ '"' :: rest))).take (m + 5) =
        ' ' :: (['-', flag] ++ ' ' :: '"' :: (path.take 500 ++ '"' :: rest).take m) := rfl
    rw [hcut, Shell.arguments_word (ordinary_flag hflag) (by simp) (.inr ⟨_, rfl⟩)] at h
    obtain ⟨_, rfl, h⟩ := h
    obtain ⟨v, more, rfl, hv⟩ := Shell.arguments_quoted_cut (x := path.drop 500) hrest h
    refine .inr ⟨v, more, rfl, ?_⟩
    rintro rfl
    obtain ⟨hlit, hx, hm⟩ := hv (List.take_append_drop 500 v).symm
    have hlen : v.length ≤ 500 := List.drop_eq_nil_iff.mp hx
    rw [List.take_of_length_le hlen] at hlit hm
    refine ⟨⟨hlit, hlen⟩, ?_⟩
    rw [length_quotedPath hlen]
    omega

/-- One of the two options, for what the arguments say about it (`select`) and about the rest. -/
theorem exists_arguments_path (flag : Char) (hflag : Shell.ordinary flag = true) (path : CStr)
    {rest : CStr} (hrest : Shell.Apart rest) (n : Nat) (select : List CStr → List CStr)
    (others : List CStr → Prop)
    (hselect : ∀ v more, select (['-', flag] :: v :: more) = v :: select more)
    (hnone : ∀ args ∈ [[], [['-']], [['-', flag]]], select args = [])
    (hothers : ∀ v more, others (['-', flag] :: v :: more) ↔ others more) :
    (∃ args, Shell.arguments ((given (path ≠ []) (quotedPath flag path) ++ rest).take n) = .ok args ∧
        select args = pathOption path ∧ others args) ↔
      PathKept path ∧ (given (path ≠ []) (quotedPath flag path)).length ≤ n ∧
        ∃ args, Shell.arguments (rest.take (n - (given (path ≠ []) (quotedPath flag path)).length)) =
          .ok args ∧ select args = [] ∧ others args := by
  unfold given pathOption
  by_cases hp : path = []
  · subst hp
    simp [PathKept, Shell.literal]
  rw [if_pos hp, if_neg hp]
  constructor
  · rintro ⟨args, hargs, hsel, ho⟩
    rcases arguments_quotedPath_cut hflag hrest hargs with hmem | ⟨v, more, rfl, hv⟩
    · rw [hnone args hmem] at hsel
      cases hsel
    · rw [hselect] at hsel
      obtain ⟨rfl, hmore⟩ := List.cons.inj hsel
      obtain ⟨hkept, hlen⟩ := hv rfl
      refine ⟨hkept, hlen, more, ?_, hmore, (hothers _ _).mp ho⟩
      rw [List.take_append, List.take_of_length_le hlen,
        arguments_quotedPath hflag hkept (hrest.take _)] at hargs
      obtain ⟨more', he, hmore'⟩ := hargs
      cases he
      exact hmore'
  · rintro ⟨hkept, hlen, more, hmore, hsel, ho⟩
    refine ⟨['-', flag] :: path :: more, ?_, by rw [hselect, hsel], (hothers _ _).mpr ho⟩
    rw [List.take_append, List.take_of_length_le hlen]
    exact (arguments_quotedPath hflag hkept (hrest.take _) _).mpr ⟨more, rfl, hmore⟩

namespace TuiForm

variable (form : TuiForm)

/-- The options behind the paths, as far as there is room for them. -/
def optionText (room : Nat) : CStr :=
  (form.optionParts ++ [form.dryRunPart, form.statusPart]).flatten.take room

/-- The program and the paths fit into the array, both paths are kept, and what is pasted behind
them adds no more than options that are about neither. -/
structure Pastes (bin : CStr) : Prop where
  input : PathKept form.ifPath.text
  output : PathKept form.ofPath.text
  fits : (bin ++ form.inputPart ++ form.outputPart).length ≤ 1023
  options : ∃ args,
    Shell.arguments (form.optionText (1023 - (bin ++ form.inputPart ++ form.outputPart).length)) =
      .ok args ∧ inputArgs args = [] ∧ outputArgs args = []

end TuiForm

/-- A path of a program of ordinary characters, that `full_bin` has room for. -/
structure ProgramPath (bin : CStr) : Prop where
  ordinary : ∀ c ∈ bin, Shell.ordinary c = true ∧ c ≠ '='
  slash : '/' ∈ bin
  fits : bin.length < 600

theorem ProgramPath.isName {bin : CStr} (h : ProgramPath bin) : Shell.IsName bin where
  ordinary c hc := (h.ordinary c hc).1
  nonempty he := by simpa [he] using h.slash
  reserved := by
    have hslash : ∀ w ∈ ["if", "then", "else", "elif", "fi", "do", "done", "case", "esac", "while",
        "until", "for", "\x7b", "\x7d", "!"], '/' ∉ String.toList w := by decide
    rw [Bool.eq_false_iff]
    intro hr
    obtain ⟨w, hw, he⟩ := List.any_eq_true.mp hr
    exact hslash w hw (eq_of_beq he ▸ h.slash)
  assignment hmem := (h.ordinary '=' hmem).2 rfl

theorem apart_given {p : Prop} [Decidable p] {text : CStr} (h : Shell.Apart text) :
    Shell.Apart (given p text) := by
  unfold given
  split
  · exact h
  · exact .inl rfl

namespace TuiForm

variable (form : TuiForm)

theorem apart_enginePart : Shell.Apart form.enginePart := by
  unfold enginePart
  cases form.engine with
  | auto => exact .inl rfl
  | uring | async | reflink | splice | sync => exact .inr ⟨_, rfl⟩

theorem apart_statusPart : Shell.Apart form.statusPart := by
  unfold statusPart
  split_ifs
  · exact .inr ⟨_, rfl⟩
  · exact .inr ⟨_, rfl⟩
  · exact .inr ⟨_, rfl⟩
  · exact .inl rfl

theorem apart_optionParts : ∀ t ∈ form.optionParts, Shell.Apart t := by
  unfold optionParts
  simp only [List.forall_mem_cons, List.not_mem_nil, false_imp_iff, implies_true, and_true]
  exact ⟨form.apart_enginePart, apart_given (.inr ⟨_, rfl⟩), apart_given (.inr ⟨_, rfl⟩),
    apart_given (.inr ⟨_, rfl⟩), apart_given (.inr ⟨_, rfl⟩), apart_given (.inr ⟨_, rfl⟩),
    apart_given (.inr ⟨_, rfl⟩), apart_given (.inr ⟨_, rfl⟩), apart_given (.inr ⟨_, rfl⟩),
    apart_given (.inr ⟨_, rfl⟩), apart_given (.inr ⟨_, rfl⟩), apart_given (.inr ⟨_, rfl⟩),
    apart_given (.inr ⟨_, rfl⟩)⟩

theorem apart_options :
    Shell.Apart (form.optionParts ++ [form.dryRunPart, form.statusPart]).flatten := by
  refine Shell.apart_flatten fun t ht => ?_
  rcases List.mem_append.mp ht with ht | ht
  · exact form.apart_optionParts t ht
  · rcases List.mem_pair.mp ht with rfl | rfl
    · exact apart_given (.inr ⟨_, rfl⟩)
    · exact form.apart_statusPart

theorem apart_outputPart : Shell.Apart form.outputPart := apart_given (.inr ⟨_, rfl⟩)

theorem apart_inputPart : Shell.Apart form.inputPart := apart_given (.inr ⟨_, rfl⟩)

/-- Without pipes the command is what the array holds. -/
theorem tuiBuildCommand_noPipe (hi : form.ifIsPipe = false) (ho : form.ofIsPipe = false)
    {blkcpBin : Option CStr} (hbin : (binOf blkcpBin).length < 600) {cmdLen : Nat}
    (hlen : 1024 ≤ cmdLen) :
    form.tuiBuildCommand blkcpBin cmdLen =
      binOf blkcpBin ++ (form.inputPart ++ (form.outputPart ++
        (form.optionParts ++ [form.dryRunPart, form.statusPart]).flatten)).take
          (1023 - (binOf blkcpBin).length) := by
  have hlead : form.inputPrefix = [] := by simp [inputPrefix, given, hi, snprintf]
  have hsuffix : form.outputSuffix = [] := by simp [outputSuffix, given, ho, snprintf]
  have hstart : snprintf 1024 (binOf blkcpBin) = binOf blkcpBin :=
    List.take_of_length_le (by omega)
  unfold tuiBuildCommand
  rw [hlead, hsuffix, hstart, foldl_snprintfAppend _ (by omega)]
  simp only [List.nil_append, List.append_nil]
  unfold snprintf
  rw [List.take_take, Nat.min_eq_right (by omega), List.take_append,
    List.take_of_length_le (by omega)]
  unfold parts
  simp only [List.cons_append, List.nil_append, List.flatten_cons]

/-- A command whose name is the program is judged by its arguments. -/
theorem denotes_iff {bin : CStr} (hbin : Shell.IsName bin) {text : CStr} (h : Shell.Apart text) :
    Denotes form (bin ++ text) ↔
      ∃ args, Shell.arguments text = .ok args ∧ inputArgs args = pathOption form.ifPath.text ∧
        outputArgs args = pathOption form.ofPath.text := by
  unfold Denotes
  simp only [Shell.parse_iff hbin h]
  constructor
  · rintro ⟨name, args, ⟨args', hargs, he⟩, hio⟩
    obtain ⟨-, rfl⟩ := List.cons.inj he
    exact ⟨args, hargs, hio⟩
  · rintro ⟨args, hargs, hio⟩
    exact ⟨bin, args, ⟨args, hargs, rfl⟩, hio⟩

/-- The form's paths are what the command reads and writes exactly if they survive double quotes
and the room there is, and the options behind them are nothing else. -/
theorem tuiBuildCommand_denotes_iff (hi : form.ifIsPipe = false) (ho : form.ofIsPipe = false)
    {blkcpBin : Option CStr} (hbin : ProgramPath (binOf blkcpBin)) {cmdLen : Nat}
    (hlen : 1024 ≤ cmdLen) :
    Denotes form (form.tuiBuildCommand blkcpBin cmdLen) ↔ form.Pastes (binOf blkcpBin) := by
  have hin : form.inputPart = given (form.ifPath.text ≠ []) (quotedPath 'i' form.ifPath.text) := by
    simp [inputPart, hi]
  have hout : form.outputPart =
      given (form.ofPath.text ≠ []) (quotedPath 'o' form.ofPath.text) := by
    simp [outputPart, ho]
  have hrest := form.apart_outputPart.append form.apart_options
  have hinput := exists_arguments_path 'i' (by decide) form.ifPath.text hrest
    (1023 - (binOf blkcpBin).length) inputArgs
    (fun args => outputArgs args = pathOption form.ofPath.text)
    (fun _ _ => rfl) (by decide) (fun _ _ => Iff.rfl)
  have houtput := exists_arguments_path 'o' (by decide) form.ofPath.text
    form.apart_options (1023 - (binOf blkcpBin).length - form.inputPart.length)
    outputArgs (fun args => inputArgs args = [])
    (fun _ _ => rfl) (by decide) (fun _ _ => Iff.rfl)
  rw [form.tuiBuildCommand_noPipe hi ho hbin.fits hlen,
    form.denotes_iff hbin.isName ((form.apart_inputPart.append hrest).take _)]
  rw [← hin] at hinput
  rw [← hout] at houtput
  have hroom : 1023 - (binOf blkcpBin).length - form.inputPart.length - form.outputPart.length =
      1023 - (binOf blkcpBin ++ form.inputPart ++ form.outputPart).length := by
    rw [List.length_append, List.length_append, Nat.sub_sub, Nat.sub_sub, Nat.add_assoc]
  rw [hroom] at houtput
  refine hinput.trans ⟨?_, ?_⟩
  · rintro ⟨hki, hli, args, hargs, hnone, hsome⟩
    obtain ⟨hko, hlo, hopt⟩ := houtput.mp ⟨args, hargs, hsome, hnone⟩
    refine ⟨hki, hko, ?_, ?_⟩
    · rw [List.length_append, List.length_append]
      have := hbin.fits
      omega
    · obtain ⟨more, hmore, ho', hi'⟩ := hopt
      exact ⟨more, hmore, hi', ho'⟩
  · rintro ⟨hki, hko, hfits, more, hmore, hi', ho'⟩
    rw [List.length_append, List.length_append] at hfits
    obtain ⟨args, hargs, hsome, hnone⟩ :=
      houtput.mpr ⟨hko, by omega, more, hmore, ho', hi'⟩
    exact ⟨hki, by omega, args, hargs, hnone, hsome⟩

end TuiForm

/-- Files `a b` and `/dev/sdb`. -/
def blankInPath : TuiForm :=
  { tuiInitForm with
    ifPath := ⟨"a b".toList, by decide, by decide⟩
    ofPath := ⟨"/dev/sdb".toList, by decide, by decide⟩ }

/-- From `/dev/sda` to `/dev/sdb`. -/
def shortPaths : TuiForm :=
  { tuiInitForm with
    ifPath := ⟨"/dev/sda".toList, by decide, by decide⟩
    ofPath := ⟨"/dev/sdb".toList, by decide, by decide⟩ }

theorem blankInPath_denotes :
    Denotes blankInPath (blankInPath.tuiBuildCommand (some (fullBin (some "/root".toList))) 1600) :=
  (blankInPath.tuiBuildCommand_denotes_iff rfl rfl ⟨by decide, by decide, by decide⟩ (by decide)).mpr
    ⟨⟨by decide, by decide⟩, ⟨by decide, by decide⟩, by decide,
      [['-', 'b'], "auto".toList, ['-', 'p']], rfl, rfl, rfl⟩

/-- A file whose name closes the quotes and opens them again. -/
def quotesInPath : TuiForm :=
  { tuiInitForm with
    ifPath := ⟨"a\" -f \"b".toList, by decide, by decide⟩
    ofPath := ⟨"/dev/sdb".toList, by decide, by decide⟩ }

theorem quotesInPath_force :
    ¬ ∀ form : TuiForm, form.ifIsPipe = false → form.ofIsPipe = false →
      Denotes form (form.tuiBuildCommand (some (fullBin (some "/root".toList))) 1600) := by
  intro h
  obtain ⟨name, args, hparse, hin, -⟩ := h quotesInPath rfl rfl
  have hwords : Shell.parse
      (quotesInPath.tuiBuildCommand (some (fullBin (some "/root".toList))) 1600) =
        .ok [["/root/blkcp".toList, ['-', 'i'], ['a'], ['-', 'f'], ['b'], ['-', 'o'],
          "/dev/sdb".toList, ['-', 'b'], "auto".toList, ['-', 'p']]] := by
    decide +kernel
  rw [hwords] at hparse
  cases hparse
  revert hin
  decide

end Blkcp.C
