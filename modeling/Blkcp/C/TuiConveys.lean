import Blkcp.C.SkipReads
import Blkcp.C.TuiMain
set_option autoImplicit false

/-! What the command of the form means once the shell and `dd_scanargs` have read it: the
configuration that the fields stand for. -/

namespace Blkcp.C
open Blkcp.Lib

/-- A text that the shell and `getopt_long` take for some options. -/
structure Says (text : CStr) (os : List Opt) : Prop where
  apart : Shell.Apart text
  words : ∃ ws : List Quoted, Shell.Adds text ws ∧ ∀ more, commandLine (ws.map (·.1) ++ more) =
    ⟨os ++ (commandLine more).options, (commandLine more).operands⟩

theorem says_nil : Says [] [] where
  apart := .inl rfl
  words := ⟨[], Shell.adds_nil, fun _ => rfl⟩

theorem Says.append {a b : CStr} {os ps : List Opt} (ha : Says a os) (hb : Says b ps) :
    Says (a ++ b) (os ++ ps) where
  apart := ha.apart.append hb.apart
  words := by
    obtain ⟨ws, hws, hwa⟩ := ha.words
    obtain ⟨us, hus, hua⟩ := hb.words
    refine ⟨ws ++ us, hws.append hus hb.apart, fun more => ?_⟩
    rw [List.map_append, List.append_assoc, hwa, hua, List.append_assoc]

theorem says_flatten {texts : List CStr} {oss : List (List Opt)}
    (h : List.Forall₂ Says texts oss) : Says texts.flatten oss.flatten := by
  induction h with
  | nil => exact says_nil
  | cons h _ ih => exact h.append ih

theorem Says.given {text : CStr} {os : List Opt} (p : Prop) [Decidable p] (h : p → Says text os) :
    Says (given p text) (if p then os else []) := by
  unfold Blkcp.C.given
  split_ifs with hp
  · exact h hp
  · exact says_nil

/-- A word that is an option. -/
theorem says_word {w : CStr} {o : Opt} (hw : ∀ c ∈ w, Shell.ordinary c = true) (hne : w ≠ [])
    (hscan : ∀ more, commandLine (w :: more) =
      ⟨o :: (commandLine more).options, (commandLine more).operands⟩) : Says (' ' :: w) [o] where
  apart := .inr ⟨w, rfl⟩
  words := ⟨_, Shell.adds_word hw hne, hscan⟩

/-- A flag with its argument in the next word. -/
theorem says_valued {flag : Char} {o : CStr → Opt} (hflag : Shell.ordinary flag = true) {v : CStr}
    (hv : ∀ c ∈ v, Shell.ordinary c = true) (hne : v ≠ [])
    (hscan : ∀ v more, commandLine (['-', flag] :: v :: more) =
      ⟨o v :: (commandLine more).options, (commandLine more).operands⟩) :
    Says ([' ', '-', flag, ' '] ++ v) [o v] where
  apart := .inr ⟨_, rfl⟩
  words := ⟨[(['-', flag], false), (v, false)],
    (Shell.adds_word (ordinary_flag hflag) (by simp)).append (Shell.adds_word hv hne)
      (.inr ⟨_, rfl⟩), hscan v⟩

/-- A long option with its argument behind an equals sign. -/
theorem says_joined (name : CStr) {v : CStr} {o : CStr → Opt}
    (hname : ∀ c ∈ name, Shell.ordinary c = true) (hne : name ≠ [])
    (hv : ∀ c ∈ v, Shell.ordinary c = true)
    (hscan : ∀ v more, commandLine ((name ++ v) :: more) =
      ⟨o v :: (commandLine more).options, (commandLine more).operands⟩) :
    Says (' ' :: (name ++ v)) [o v] := by
  refine says_word (fun c hc => ?_) (by simp [hne]) (hscan v)
  rcases List.mem_append.mp hc with hc | hc
  · exact hname c hc
  · exact hv c hc

theorem says_quotedPath {flag : Char} {o : CStr → Opt} (hflag : Shell.ordinary flag = true)
    {path : CStr} (h : PathKept path)
    (hscan : ∀ v more, commandLine (['-', flag] :: v :: more) =
      ⟨o v :: (commandLine more).options, (commandLine more).operands⟩) :
    Says (quotedPath flag path) [o path] where
  apart := .inr ⟨_, rfl⟩
  words := by
    have hsplit : quotedPath flag path =
        (' ' :: ['-', flag]) ++ ([' ', '"'] ++ path ++ ['"']) := by
      simp [quotedPath, List.take_of_length_le h.2]
    rw [hsplit]
    exact ⟨_, (Shell.adds_word (ordinary_flag hflag) (by simp)).append (Shell.adds_quoted h.1)
      (.inr ⟨_, rfl⟩), hscan path⟩

/-! ### The options of the form -/

def TuiEngineMode.engine : TuiEngineMode → Engine
  | .auto => .auto
  | .uring => .uring
  | .async => .async
  | .reflink => .reflink
  | .splice => .splice
  | .sync => .sync

def TuiEngineMode.name : TuiEngineMode → CStr
  | .auto => "auto".toList
  | .uring => "uring".toList
  | .async => "async".toList
  | .reflink => "reflink".toList
  | .splice => "splice".toList
  | .sync => "sync".toList

namespace TuiForm

variable (form : TuiForm)

def statusOptions : List Opt :=
  if form.statusMode = 0 then [.quiet]
  else if form.statusMode = 2 then [.progress]
  else if form.statusMode = 3 then [.json]
  else []

/-- What is on or off. -/
def switches : List (List Opt) :=
  let flag (b : Bool) (o : Opt) : List Opt := if b then [o] else []
  [flag form.optSha256 (.hash none), flag form.optDirect .direct, flag form.optSparse .sparse,
    flag form.optSync .sync, flag form.optForce .force, flag form.optDryRun .dryRun]

/-- The options that the parts of the command are. -/
def options : List (List Opt) :=
  let valued (v : CStr) (o : CStr → Opt) : List Opt := if v ≠ [] then [o v] else []
  [if form.ifIsPipe = false ∧ form.ifPath.text ≠ [] then [.input form.ifPath.text] else [],
    if form.ofIsPipe = false ∧ form.ofPath.text ≠ [] then [.output form.ofPath.text] else [],
    if form.engine ≠ .auto then [.engine form.engine.name] else [],
    if form.queueDepth.text ≠ [] ∧ form.queueDepth.text ≠ "auto".toList then
      [.queueDepth form.queueDepth.text] else [],
    valued form.bs.text .blockSize, valued form.limit.text .limit, valued form.count.text .count,
    valued form.skip.text .skip, valued form.seek.text .seek,
    if form.optAutotune ∧ form.bs.text ≠ "auto".toList then [.autotune] else []] ++
  form.switches ++ [form.statusOptions]

theorem says_enginePart :
    Says form.enginePart (if form.engine ≠ .auto then [.engine form.engine.name] else []) := by
  have h (e : TuiEngineMode) (he : ∀ c ∈ e.name, Shell.ordinary c = true) (hne : e.name ≠ []) :
      Says ([' ', '-', 'e', ' '] ++ e.name) [.engine e.name] :=
    says_valued (by decide) he hne fun _ _ => rfl
  unfold enginePart
  cases form.engine with
  | auto => exact says_nil
  | uring => exact h .uring (by decide) (by decide)
  | async => exact h .async (by decide) (by decide)
  | reflink => exact h .reflink (by decide) (by decide)
  | splice => exact h .splice (by decide) (by decide)
  | sync => exact h .sync (by decide) (by decide)

theorem says_statusPart : Says form.statusPart form.statusOptions := by
  unfold statusPart statusOptions
  split_ifs
  · exact says_word (w := "-q".toList) (by decide) (by decide) fun _ => rfl
  · exact says_word (w := "-p".toList) (by decide) (by decide) fun _ => rfl
  · exact says_word (w := "--json".toList) (by decide) (by decide) fun _ => rfl
  · exact says_nil

theorem says_parts {form : TuiForm} (h : form.PlainTexts) (hin : PathKept form.ifPath.text)
    (hout : PathKept form.ofPath.text) : List.Forall₂ Says form.parts form.options := by
  have hflag {w : CStr} {o : Opt} (b : Bool) (hw : ∀ c ∈ w, Shell.ordinary c = true) (hne : w ≠ [])
      (hscan : ∀ more, commandLine (w :: more) =
        ⟨o :: (commandLine more).options, (commandLine more).operands⟩) :
      Says (Blkcp.C.given b (' ' :: w)) (if b then [o] else []) :=
    .given _ fun _ => says_word hw hne hscan
  unfold parts optionParts options switches dryRunPart
  simp only [List.cons_append, List.nil_append, List.forall₂_cons]
  refine ⟨.given _ fun _ => says_quotedPath (by decide) hin fun _ _ => rfl,
    .given _ fun _ => says_quotedPath (by decide) hout fun _ _ => rfl, form.says_enginePart,
    ?_, ?_, ?_, ?_, ?_, ?_, ?_, ?_, ?_, ?_, ?_, ?_, ?_, form.says_statusPart, .nil⟩
  · exact .given _ fun _ =>
      says_joined "--queue-depth=".toList (by decide) (by decide) h.queueDepth fun _ _ => rfl
  · exact .given _ fun hne => says_valued (by decide) h.bs hne fun _ _ => rfl
  · exact .given _ fun hne => says_valued (by decide) h.limit hne fun _ _ => rfl
  · exact .given _ fun hne => says_valued (by decide) h.count hne fun _ _ => rfl
  · exact .given _ fun _ =>
      says_joined "--skip=".toList (by decide) (by decide) h.skip fun _ _ => rfl
  · exact .given _ fun _ =>
      says_joined "--seek=".toList (by decide) (by decide) h.seek fun _ _ => rfl
  · exact .given _ fun _ =>
      says_word (w := "--autotune".toList) (by decide) (by decide) fun _ => rfl
  · exact hflag (w := "--hash".toList) form.optSha256 (by decide) (by decide) fun _ => rfl
  · exact hflag (w := "--direct".toList) form.optDirect (by decide) (by decide) fun _ => rfl
  · exact hflag (w := "--sparse".toList) form.optSparse (by decide) (by decide) fun _ => rfl
  · exact hflag (w := "--sync".toList) form.optSync (by decide) (by decide) fun _ => rfl
  · exact hflag (w := "-f".toList) form.optForce (by decide) (by decide) fun _ => rfl
  · exact hflag (w := "-n".toList) form.optDryRun (by decide) (by decide) fun _ => rfl

/-- Paths and texts that the shell leaves as they are, with room for all of them and for the flag of
a dry run. -/
structure Passes (bin : CStr) : Prop where
  texts : form.PlainTexts
  input : PathKept form.ifPath.text ∧ form.ifPath.text ≠ [] ∧ form.ifIsPipe = false
  output : PathKept form.ofPath.text ∧ form.ofPath.text ≠ [] ∧ form.ofIsPipe = false
  program : ProgramPath bin
  fits : (bin ++ { form with optDryRun := true }.parts.flatten).length ≤ 1023

theorem length_parts_le :
    form.parts.flatten.length ≤
      ({ form with optDryRun := true } : TuiForm).parts.flatten.length := by
  have hparts (form : TuiForm) : form.parts.flatten =
      ([form.inputPart, form.outputPart] ++ form.optionParts).flatten ++
        (form.dryRunPart ++ form.statusPart) := by
    unfold parts
    rw [List.flatten_append]
    simp only [List.flatten_cons, List.flatten_nil, List.append_nil]
  have hflag : form.dryRunPart.length ≤
      ({ form with optDryRun := true } : TuiForm).dryRunPart.length := by
    unfold dryRunPart
    cases form.optDryRun with
    | false => exact Nat.zero_le _
    | true => exact Nat.le_refl _
  rw [hparts form, hparts { form with optDryRun := true }, List.length_append, List.length_append,
    List.length_append, List.length_append]
  exact Nat.add_le_add_left (Nat.add_le_add_right hflag _) _

theorem Passes.room {form : TuiForm} {bin : CStr} (h : form.Passes bin) :
    (bin ++ form.parts.flatten).length ≤ 1023 := by
  have hfits := h.fits
  have hle := form.length_parts_le
  rw [List.length_append] at hfits ⊢
  omega

/-- The command is there as a whole. -/
theorem tuiBuildCommand_whole {form : TuiForm} {bin : CStr} (h : form.Passes bin) {cmdLen : Nat}
    (hlen : 1024 ≤ cmdLen) :
    form.tuiBuildCommand (some bin) cmdLen = bin ++ form.parts.flatten := by
  have hbin : binOf (some bin) = bin := if_neg h.program.isName.nonempty
  have hfits := h.room
  have hlt : (binOf (some bin)).length < 600 := by
    rw [hbin]
    exact h.program.fits
  rw [form.tuiBuildCommand_noPipe h.input.2.2 h.output.2.2 hlt hlen, hbin]
  congr 1
  rw [List.length_append] at hfits
  exact List.take_of_length_le (show form.parts.flatten.length ≤ _ by omega)

theorem jobCommand_whole {form : TuiForm} {cwd : Option CStr} (h : form.Passes (fullBin cwd)) :
    jobCommand form cwd = fullBin cwd ++ (form.parts.flatten ++ " 2>&1".toList) := by
  have hend : " 2>&1".toList.length = 5 := rfl
  have hroom := h.room
  unfold jobCommand
  rw [tuiBuildCommand_whole h (by decide), List.append_assoc]
  refine List.take_of_length_le ?_
  rw [← List.append_assoc, List.length_append, hend]
  omega

theorem Passes.dryRun {form : TuiForm} {bin : CStr} (h : form.Passes bin) :
    { form with optDryRun := true }.Passes bin where
  texts :=
    ⟨h.texts.queueDepth, h.texts.bs, h.texts.limit, h.texts.count, h.texts.skip, h.texts.seek⟩
  input := h.input
  output := h.output
  program := h.program
  fits := h.fits

end TuiForm

/-- A command of the program alone, with the words that follow it. -/
theorem parse_words {bin : CStr} (hbin : Shell.IsName bin) {text : CStr} {ws : List Quoted}
    (hadds : Shell.Adds text ws) (hapart : Shell.Apart text) :
    Shell.parse (bin ++ text) = .ok [bin :: ws.map (·.1)] ∧
      Shell.parse (bin ++ (text ++ " 2>&1".toList)) = .ok [bin :: ws.map (·.1)] := by
  have hread : Shell.reader.read {} text = .ok (Shell.wordTokens ws) := by
    have hall := hadds [] (.inl rfl)
    rw [List.append_nil] at hall
    rw [hall]
    exact congrArg Except.ok (List.append_nil _)
  have hcommand := Shell.commands_wordTokens ws (show Shell.commands [] = .ok [[]] from rfl)
  rw [List.append_nil, List.append_nil] at hcommand
  have hnone : PathName none := fun _ hn => absurd hn (Option.not_mem_none _)
  refine ⟨(Shell.parse_iff hbin hapart _).mpr ⟨_, (Shell.arguments_iff ..).mpr
    ⟨_, ws, hread, hcommand, rfl⟩, rfl⟩, (parse_pipeline hnone hnone hbin hadds hapart).trans ?_⟩
  simp [stage, hbin.simple, bind, Except.bind, pure, Except.pure]

/-! ### The configuration that the fields stand for -/

section

variable (xstrtoumax : Xstrtoumax)

/-- The number that a text is read as, if it is one and one that is allowed. -/
def numberOf (ok : Nat → Bool) (text : CStr) : Option Nat :=
  let (n, invalid) := parseInteger xstrtoumax text
  if invalid = {} ∧ ok n then some n else none

/-- The number of a field. In some texts it has none. -/
def fieldNumber (blank : List CStr) (ok : Nat → Bool) (text : CStr) : Option (Option Nat) :=
  if text ∈ blank then some none else (numberOf xstrtoumax ok text).map some

structure TuiNumbers where
  queueDepth : Option Nat
  blocksize : Option Nat
  limit : Option Nat
  count : Option Nat
  skip : Option Nat
  seek : Option Nat

/-- How many bytes are asked for: a limit comes before a number of blocks. -/
def TuiNumbers.amount (n : TuiNumbers) : Option Nat :=
  n.limit.or (n.count.bind fun c =>
    if c ≠ intmaxMax ∧ c * n.blocksize.getD 512 ≤ intmaxMax then some (c * n.blocksize.getD 512)
    else none)

namespace TuiForm

variable (form : TuiForm)

/-- The numbers of a form, if each is one that the program accepts. -/
def numbers : Option TuiNumbers := do
  let queueDepth ← fieldNumber xstrtoumax [[], "auto".toList] (fun n => 2 ≤ n && n ≤ 1024)
    form.queueDepth.text
  let blocksize ← fieldNumber xstrtoumax [[], "auto".toList, "autotune".toList] (0 < ·) form.bs.text
  let limit ← fieldNumber xstrtoumax [[]] (fun _ => true) form.limit.text
  let count ← fieldNumber xstrtoumax [[]] (fun _ => true) form.count.text
  let skip ← fieldNumber xstrtoumax [[]] (fun _ => true) form.skip.text
  let seek ← fieldNumber xstrtoumax [[]] (fun _ => true) form.seek.text
  return ⟨queueDepth, blocksize, limit, count, skip, seek⟩

def statusLevel : StatusLevel :=
  if form.statusMode = 0 then .none
  else if form.statusMode = 2 then .progress
  else if form.statusMode = 3 then .json
  else .default

def config (n : TuiNumbers) : Options where
  inputFile := some (String.ofList form.ifPath.text)
  outputFile := some (String.ofList form.ofPath.text)
  blocksize := n.blocksize.getD 512
  skipBytes := n.skip.getD 0
  seekBytes := n.seek.getD 0
  maxRecords := n.count.getD intmaxMax
  bytesToCopy := n.amount
  engine := form.engine.engine
  hashAlgo := if form.optSha256 then .sha256 else .none
  conversions :=
    { sync := form.optSync
      sparse := form.optSparse
      autotune := form.optAutotune ∨ form.bs.text = "auto".toList ∨
        form.bs.text = "autotune".toList
      sha256 := form.optSha256
      async := form.engine = .async
      reflink := form.engine = .reflink
      uring := form.engine = .uring
      splice := form.engine = .splice }
  inputFlags := { direct := form.optDirect, countBytes := n.amount.isSome }
  outputFlags := { direct := form.optDirect }
  asyncQueueDepth := n.queueDepth.getD 0
  statusLevel := form.statusLevel
  jsonOutput := form.statusMode = 3
  dryRun := form.optDryRun
  force := form.optForce

end TuiForm

variable {xstrtoumax}

theorem integer_eq_ok_iff {t : ScanState} {what note : String} {ok : Nat → Bool} {v : CStr}
    {use : Nat → ScanState} : ScanState.integer xstrtoumax what note ok v use = .ok t ↔
      ∃ n, numberOf xstrtoumax ok v = some n ∧ t = use n := by
  unfold ScanState.integer numberOf
  generalize parseInteger xstrtoumax v = r
  obtain ⟨n, invalid⟩ := r
  dsimp only
  by_cases h : invalid = {} ∧ ok n = true
  · have hno : ¬(invalid ≠ {} ∨ ¬ ok n = true) := fun hor => hor.elim (· h.1) (· h.2)
    rw [if_neg hno, if_pos h]
    constructor
    · intro ht
      exact ⟨n, rfl, (Except.ok.inj ht).symm⟩
    · rintro ⟨_, hn, ht⟩
      cases hn
      rw [ht]
  · rw [if_pos (not_and_or.mp h), if_neg h]
    constructor
    · intro ht
      cases ht
    · rintro ⟨_, hn, -⟩
      cases hn

/-- A field with a number, as an option that is left out for some texts. -/
theorem scan_field {s t : ScanState} {os : List Opt} {blank : List CStr} {text : CStr}
    {ok : Nat → Bool} {use : Option Nat → ScanState}
    (hblank : text ∈ blank → os.foldlM (ScanState.scanOption xstrtoumax) s = .ok (use none))
    (hgiven : text ∉ blank → ∃ o what note, os = [o] ∧ s.scanOption xstrtoumax o =
      ScanState.integer xstrtoumax what note ok text fun n => use (some n)) :
    os.foldlM (ScanState.scanOption xstrtoumax) s = .ok t ↔
      ∃ n, fieldNumber xstrtoumax blank ok text = some n ∧ t = use n := by
  unfold fieldNumber
  by_cases h : text ∈ blank
  · rw [hblank h, if_pos h]
    constructor
    · intro ht
      exact ⟨none, rfl, (Except.ok.inj ht).symm⟩
    · rintro ⟨_, hn, ht⟩
      cases hn
      rw [ht]
  · obtain ⟨o, what, note, rfl, hscan⟩ := hgiven h
    rw [List.foldlM_cons, hscan, if_neg h]
    simp only [List.foldlM_nil]
    rw [bind_pure, integer_eq_ok_iff]
    simp only [Option.map_eq_some_iff]
    constructor
    · rintro ⟨n, hn, ht⟩
      exact ⟨_, ⟨n, hn, rfl⟩, ht⟩
    · rintro ⟨_, ⟨n, hn, rfl⟩, ht⟩
      exact ⟨n, hn, ht⟩

/-- An option that is left out for an empty text. -/
theorem scan_valued {s t : ScanState} {v : CStr} {o : CStr → Opt} {what note : String}
    {use : Option Nat → ScanState} (hnone : s = use none)
    (hscan : s.scanOption xstrtoumax (o v) =
      ScanState.integer xstrtoumax what note (fun _ => true) v fun n => use (some n)) :
    (if v ≠ [] then [o v] else []).foldlM (ScanState.scanOption xstrtoumax) s = .ok t ↔
      ∃ n, fieldNumber xstrtoumax [[]] (fun _ => true) v = some n ∧ t = use n := by
  refine scan_field (fun h => ?_) fun h => ?_
  · rw [if_neg (not_not.mpr (List.mem_singleton.mp h))]
    exact congrArg Except.ok hnone
  · exact ⟨_, _, _, if_pos fun hnil => h (List.mem_singleton.mpr hnil), hscan⟩

theorem scan_one {s t : ScanState} {o : Opt} (h : s.scanOption xstrtoumax o = .ok t) :
    [o].foldlM (ScanState.scanOption xstrtoumax) s = .ok t := by
  rw [List.foldlM_cons, h]
  rfl

/-! ### The options, one after the other -/

namespace ScanState

variable (s : ScanState)

def putInput (v : CStr) : ScanState :=
  s.setCfg { s.cfg with inputFile := some (String.ofList v) }

def putOutput (v : CStr) : ScanState :=
  s.setCfg { s.cfg with outputFile := some (String.ofList v) }

def putEngine (e : TuiEngineMode) : ScanState :=
  s.setCfg { s.cfg with
    engine := if e = .auto then s.cfg.engine else e.engine
    conversions := s.cfg.conversions.addEngine e.engine }

def putQueueDepth (n : Option Nat) : ScanState :=
  s.setCfg { s.cfg with asyncQueueDepth := n.getD s.cfg.asyncQueueDepth }

def putAutotune (p : Prop) [Decidable p] : ScanState :=
  s.setConversions fun c => { c with autotune := c.autotune ∨ p }

def putBlocksize (n : Option Nat) : ScanState := { s with blocksize := n.getD s.blocksize }

def putLimit (n : Option Nat) : ScanState :=
  s.setCfg { s.cfg with
    bytesToCopy := n.or s.cfg.bytesToCopy
    inputFlags := { s.cfg.inputFlags with
      countBytes := if n.isSome then true else s.cfg.inputFlags.countBytes } }

def putCount (n : Option Nat) : ScanState := { s with count := n.getD s.count }

def putSkip (n : Option Nat) : ScanState := { s with skip := n.getD s.skip }

def putSeek (n : Option Nat) : ScanState := { s with seek := n.getD s.seek }

def putHash (b : Bool) : ScanState :=
  s.setCfg { s.cfg with
    hashAlgo := if b then .sha256 else s.cfg.hashAlgo
    conversions := { s.cfg.conversions with
      sha256 := if b then true else s.cfg.conversions.sha256 } }

def putDirect (b : Bool) : ScanState :=
  s.setCfg { s.cfg with
    inputFlags := { s.cfg.inputFlags with direct := if b then true else s.cfg.inputFlags.direct }
    outputFlags := { s.cfg.outputFlags with
      direct := if b then true else s.cfg.outputFlags.direct } }

def putSparse (b : Bool) : ScanState :=
  s.setConversions fun c => { c with sparse := if b then true else c.sparse }

def putSync (b : Bool) : ScanState :=
  s.setConversions fun c => { c with sync := if b then true else c.sync }

def putForce (b : Bool) : ScanState :=
  s.setCfg { s.cfg with force := if b then true else s.cfg.force }

def putDryRun (b : Bool) : ScanState :=
  s.setCfg { s.cfg with dryRun := if b then true else s.cfg.dryRun }

def putStatus (form : TuiForm) : ScanState :=
  s.setCfg { s.cfg with
    statusLevel :=
      if form.statusMode = 0 ∨ form.statusMode = 2 ∨ form.statusMode = 3 then form.statusLevel
      else s.cfg.statusLevel
    jsonOutput := s.cfg.jsonOutput ∨ form.statusMode = 3 }

end ScanState

namespace TuiForm

variable (form : TuiForm) (s : ScanState)

theorem scan_input (v : CStr) :
    [Opt.input v].foldlM (ScanState.scanOption xstrtoumax) s = .ok (s.putInput v) := rfl

theorem scan_output (v : CStr) :
    [Opt.output v].foldlM (ScanState.scanOption xstrtoumax) s = .ok (s.putOutput v) := rfl

theorem scan_engine (e : TuiEngineMode) :
    (if e ≠ .auto then [Opt.engine e.name] else []).foldlM (ScanState.scanOption xstrtoumax) s =
      .ok (s.putEngine e) := by
  cases e <;> rfl

theorem scan_queueDepth {t : ScanState} : (if form.queueDepth.text ≠ [] ∧
      form.queueDepth.text ≠ "auto".toList then [Opt.queueDepth form.queueDepth.text] else
        []).foldlM (ScanState.scanOption xstrtoumax) s = .ok t ↔
      ∃ n, fieldNumber xstrtoumax [[], "auto".toList] (fun n => 2 ≤ n && n ≤ 1024)
        form.queueDepth.text = some n ∧ t = s.putQueueDepth n := by
  refine scan_field (fun h => ?_) fun h => ?_
  · rw [if_neg fun hne => ?_]
    · rfl
    · rcases List.mem_cons.mp h with h | h
      · exact hne.1 h
      · exact hne.2 (List.mem_singleton.mp h)
  · simp only [List.mem_cons, List.not_mem_nil, or_false, not_or] at h
    exact ⟨_, _, _, if_pos h, rfl⟩

theorem scan_blockSize {t : ScanState} :
    (if form.bs.text ≠ [] then [Opt.blockSize form.bs.text] else []).foldlM
        (ScanState.scanOption xstrtoumax) s = .ok t ↔
      ∃ n, fieldNumber xstrtoumax [[], "auto".toList, "autotune".toList] (0 < ·) form.bs.text =
          some n ∧
        t = (s.putAutotune (form.bs.text = "auto".toList ∨
          form.bs.text = "autotune".toList)).putBlocksize n := by
  refine scan_field (fun h => ?_) fun h => ?_
  · unfold ScanState.putAutotune
    by_cases hnil : form.bs.text = []
    · rw [if_neg (not_not.mpr hnil), hnil]
      have hno : ¬([] = "auto".toList ∨ [] = "autotune".toList) := by decide
      simp only [hno, or_false, Bool.decide_eq_true]
      rfl
    · rcases List.mem_cons.mp h with h | h
      · exact absurd h hnil
      · have hauto : form.bs.text = "auto".toList ∨ form.bs.text = "autotune".toList := by
          rcases List.mem_cons.mp h with h | h
          · exact .inl h
          · exact .inr (List.mem_singleton.mp h)
        rw [if_pos hnil]
        refine scan_one ((if_pos hauto).trans ?_)
        simp only [hauto, or_true, decide_true]
        rfl
  · simp only [List.mem_cons, List.not_mem_nil, or_false, not_or] at h
    have hno : ¬(form.bs.text = "auto".toList ∨ form.bs.text = "autotune".toList) := not_or.mpr h.2
    refine ⟨_, "invalid block size", "", if_pos h.1, (if_neg hno).trans ?_⟩
    unfold ScanState.putAutotune
    simp only [hno, or_false, Bool.decide_eq_true]
    rfl

theorem scan_limit {t : ScanState} :
    (if form.limit.text ≠ [] then [Opt.limit form.limit.text] else []).foldlM
        (ScanState.scanOption xstrtoumax) s = .ok t ↔
      ∃ n, fieldNumber xstrtoumax [[]] (fun _ => true) form.limit.text = some n ∧
        t = s.putLimit n :=
  scan_valued rfl rfl

theorem scan_count {t : ScanState} :
    (if form.count.text ≠ [] then [Opt.count form.count.text] else []).foldlM
        (ScanState.scanOption xstrtoumax) s = .ok t ↔
      ∃ n, fieldNumber xstrtoumax [[]] (fun _ => true) form.count.text = some n ∧
        t = s.putCount n :=
  scan_valued rfl rfl

theorem scan_skip {t : ScanState} :
    (if form.skip.text ≠ [] then [Opt.skip form.skip.text] else []).foldlM
        (ScanState.scanOption xstrtoumax) s = .ok t ↔
      ∃ n, fieldNumber xstrtoumax [[]] (fun _ => true) form.skip.text = some n ∧
        t = s.putSkip n :=
  scan_valued rfl rfl

theorem scan_seek {t : ScanState} :
    (if form.seek.text ≠ [] then [Opt.seek form.seek.text] else []).foldlM
        (ScanState.scanOption xstrtoumax) s = .ok t ↔
      ∃ n, fieldNumber xstrtoumax [[]] (fun _ => true) form.seek.text = some n ∧
        t = s.putSeek n :=
  scan_valued rfl rfl

theorem scan_autotune :
    (if form.optAutotune ∧ form.bs.text ≠ "auto".toList then [Opt.autotune] else []).foldlM
        (ScanState.scanOption xstrtoumax) s =
      .ok (s.putAutotune (form.optAutotune ∧ form.bs.text ≠ "auto".toList)) := by
  unfold ScanState.putAutotune
  split_ifs with h
  · have hon (c : Conversions) : decide (c.autotune = true ∨ form.optAutotune = true ∧
        form.bs.text ≠ "auto".toList) = true := decide_eq_true (.inr h)
    rw [scan_one rfl]
    simp only [hon]
  · simp only [h, or_false, Bool.decide_eq_true]
    rfl

theorem scan_switches :
    form.switches.flatten.foldlM (ScanState.scanOption xstrtoumax) s =
      .ok ((((((s.putHash form.optSha256).putDirect form.optDirect).putSparse
        form.optSparse).putSync form.optSync).putForce form.optForce).putDryRun
          form.optDryRun) := by
  have hash (b : Bool) (s : ScanState) : (if b then [Opt.hash none] else []).foldlM
      (ScanState.scanOption xstrtoumax) s = .ok (s.putHash b) := by cases b <;> rfl
  have direct (b : Bool) (s : ScanState) : (if b then [Opt.direct] else []).foldlM
      (ScanState.scanOption xstrtoumax) s = .ok (s.putDirect b) := by cases b <;> rfl
  have sparse (b : Bool) (s : ScanState) : (if b then [Opt.sparse] else []).foldlM
      (ScanState.scanOption xstrtoumax) s = .ok (s.putSparse b) := by cases b <;> rfl
  have sync (b : Bool) (s : ScanState) : (if b then [Opt.sync] else []).foldlM
      (ScanState.scanOption xstrtoumax) s = .ok (s.putSync b) := by cases b <;> rfl
  have force (b : Bool) (s : ScanState) : (if b then [Opt.force] else []).foldlM
      (ScanState.scanOption xstrtoumax) s = .ok (s.putForce b) := by cases b <;> rfl
  have dryRun (b : Bool) (s : ScanState) : (if b then [Opt.dryRun] else []).foldlM
      (ScanState.scanOption xstrtoumax) s = .ok (s.putDryRun b) := by cases b <;> rfl
  unfold switches
  simp only [List.flatten_cons, List.flatten_nil, List.append_nil, List.foldlM_append]
  simp only [hash, direct, sparse, sync, force, dryRun, bind, Except.bind]

theorem scan_status :
    form.statusOptions.foldlM (ScanState.scanOption xstrtoumax) s = .ok (s.putStatus form) := by
  unfold ScanState.putStatus statusOptions statusLevel
  split_ifs <;> simp_all [ScanState.scanOption, ScanState.setCfg]
  rfl

/-- The numbers and the switches, put into the configuration in the order of the options. -/
def scanned (n : TuiNumbers) : ScanState :=
  let s : ScanState := { cfg := ddInitDefaultConfig }
  let s := ((s.putInput form.ifPath.text).putOutput form.ofPath.text).putEngine form.engine
  let s := ((s.putQueueDepth n.queueDepth).putAutotune (form.bs.text = "auto".toList ∨
    form.bs.text = "autotune".toList)).putBlocksize n.blocksize
  let s := (((s.putLimit n.limit).putCount n.count).putSkip n.skip).putSeek n.seek
  let s := s.putAutotune (form.optAutotune ∧ form.bs.text ≠ "auto".toList)
  let s := ((s.putHash form.optSha256).putDirect form.optDirect).putSparse form.optSparse
  (((s.putSync form.optSync).putForce form.optForce).putDryRun form.optDryRun).putStatus form

theorem numbers_eq_some_iff {n : TuiNumbers} : form.numbers xstrtoumax = some n ↔
    fieldNumber xstrtoumax [[], "auto".toList] (fun n => 2 ≤ n && n ≤ 1024) form.queueDepth.text =
        some n.queueDepth ∧
      fieldNumber xstrtoumax [[], "auto".toList, "autotune".toList] (0 < ·) form.bs.text =
        some n.blocksize ∧
      fieldNumber xstrtoumax [[]] (fun _ => true) form.limit.text = some n.limit ∧
      fieldNumber xstrtoumax [[]] (fun _ => true) form.count.text = some n.count ∧
      fieldNumber xstrtoumax [[]] (fun _ => true) form.skip.text = some n.skip ∧
      fieldNumber xstrtoumax [[]] (fun _ => true) form.seek.text = some n.seek := by
  obtain ⟨queueDepth, blocksize, limit, count, skip, seek⟩ := n
  simp only [numbers, Option.bind_eq_bind, Option.bind_eq_some_iff, Option.pure_def,
    Option.some.injEq, TuiNumbers.mk.injEq]
  constructor
  · rintro ⟨_, h1, _, h2, _, h3, _, h4, _, h5, _, h6, rfl, rfl, rfl, rfl, rfl, rfl⟩
    exact ⟨h1, h2, h3, h4, h5, h6⟩
  · rintro ⟨h1, h2, h3, h4, h5, h6⟩
    exact ⟨_, h1, _, h2, _, h3, _, h4, _, h5, _, h6, rfl, rfl, rfl, rfl, rfl, rfl⟩

theorem scan_options (hi : form.ifIsPipe = false) (ho : form.ofIsPipe = false)
    (hin : form.ifPath.text ≠ []) (hout : form.ofPath.text ≠ []) (t : ScanState) :
    form.options.flatten.foldlM (ScanState.scanOption xstrtoumax) { cfg := ddInitDefaultConfig } =
        .ok t ↔
      ∃ n, form.numbers xstrtoumax = some n ∧ t = form.scanned n := by
  unfold options
  rw [if_pos ⟨hi, hin⟩, if_pos ⟨ho, hout⟩]
  simp only [List.flatten_append, List.flatten_cons, List.flatten_nil, List.append_nil,
    List.foldlM_append, bind_eq_ok_iff]
  simp only [scan_input, scan_output, scan_engine, scan_queueDepth, scan_blockSize, scan_limit,
    scan_count, scan_skip, scan_seek, scan_autotune, scan_switches, scan_status,
    Except.ok.injEq, exists_eq_left', numbers_eq_some_iff]
  constructor
  · rintro ⟨_, ⟨_, ⟨_, ⟨n1, h1, rfl⟩, _, ⟨n2, h2, rfl⟩, _, ⟨n3, h3, rfl⟩, _, ⟨n4, h4, rfl⟩, _,
      ⟨n5, h5, rfl⟩, _, ⟨n6, h6, rfl⟩, rfl⟩, rfl⟩, rfl⟩
    exact ⟨⟨n1, n2, n3, n4, n5, n6⟩, ⟨h1, h2, h3, h4, h5, h6⟩, rfl⟩
  · rintro ⟨n, ⟨h1, h2, h3, h4, h5, h6⟩, rfl⟩
    exact ⟨_, ⟨_, ⟨_, ⟨_, h1, rfl⟩, _, ⟨_, h2, rfl⟩, _, ⟨_, h3, rfl⟩, _, ⟨_, h4, rfl⟩, _,
      ⟨_, h5, rfl⟩, _, ⟨_, h6, rfl⟩, rfl⟩, rfl⟩, rfl⟩

/-- A block size that is accepted is not nothing. -/
theorem blocksize_of_numbers {n : TuiNumbers} (h : form.numbers xstrtoumax = some n) :
    (if n.blocksize.getD 0 = 0 then 512 else n.blocksize.getD 0) = n.blocksize.getD 512 := by
  obtain ⟨-, hb, -⟩ := (form.numbers_eq_some_iff).mp h
  unfold fieldNumber numberOf at hb
  cases hn : n.blocksize with
  | none => rfl
  | some b =>
    rw [hn] at hb
    split_ifs at hb
    · cases hb
    · obtain ⟨m, hm, hmb⟩ := Option.map_eq_some_iff.mp hb
      obtain rfl := Option.some.inj hmb
      dsimp only at hm
      split_ifs at hm with hok
      obtain rfl := Option.some.inj hm
      exact if_neg (Nat.ne_of_gt (of_decide_eq_true hok.2))

/-- What is known before the numbers are put together. -/
theorem scanned_cfg (n : TuiNumbers) : (form.scanned n).cfg =
    { form.config n with
      blocksize := 0
      skipBytes := 0
      seekBytes := 0
      maxRecords := intmaxMax
      bytesToCopy := n.limit
      inputFlags := { direct := form.optDirect, countBytes := n.limit.isSome } } := by
  have hengine : (if form.engine = .auto then Engine.auto else form.engine.engine) =
      form.engine.engine := by
    cases form.engine <;> rfl
  have hbits : ({} : Conversions).addEngine form.engine.engine =
      { async := form.engine = .async
        reflink := form.engine = .reflink
        uring := form.engine = .uring
        splice := form.engine = .splice } := by
    cases form.engine <;> rfl
  have hlevel : (if form.statusMode = 0 ∨ form.statusMode = 2 ∨ form.statusMode = 3 then
      form.statusLevel else .default) = form.statusLevel := by
    split_ifs with h
    · rfl
    · simp only [not_or] at h
      simp only [statusLevel, h, if_false]
  have hautotune : ((form.bs.text = "auto".toList ∨ form.bs.text = "autotune".toList) ∨
      form.optAutotune = true ∧ form.bs.text ≠ "auto".toList) ↔
        form.optAutotune = true ∨ form.bs.text = "auto".toList ∨
          form.bs.text = "autotune".toList := by
    by_cases h : form.bs.text = "auto".toList
    · simp only [h, true_or, or_true]
    · simp only [h, ne_eq, not_false_eq_true, and_true]
      exact or_comm
  have hswitch (b : Bool) : (if b = true then true else false) = b := by
    cases b <;> rfl
  simp only [scanned, config, ScanState.putInput, ScanState.putOutput, ScanState.putEngine,
    ScanState.putQueueDepth, ScanState.putAutotune, ScanState.putBlocksize, ScanState.putLimit,
    ScanState.putCount, ScanState.putSkip, ScanState.putSeek, ScanState.putHash,
    ScanState.putDirect, ScanState.putSparse, ScanState.putSync, ScanState.putForce,
    ScanState.putDryRun, ScanState.putStatus, ScanState.setCfg, ScanState.setConversions,
    ddInitDefaultConfig, hengine, hbits, hlevel, hswitch, Option.or_none, Bool.false_eq_true,
    false_or, decide_eq_true_eq, hautotune]

theorem resolve_scanned {n : TuiNumbers} (h : form.numbers xstrtoumax = some n) :
    resolve (form.scanned n) (form.scanned n).cfg = form.config n := by
  have hcount : (form.scanned n).count = n.count.getD intmaxMax := rfl
  have hblock : (form.scanned n).blocksize = n.blocksize.getD 0 := rfl
  have hskip : (form.scanned n).skip = n.skip.getD 0 := rfl
  have hseek : (form.scanned n).seek = n.seek.getD 0 := rfl
  have hzero (m : Nat) : (if 0 < m then m else 0) = m := by
    split_ifs <;> omega
  unfold resolve
  rw [hblock, form.blocksize_of_numbers h, hcount, hskip, hseek, scanned_cfg]
  unfold config TuiNumbers.amount
  generalize n.blocksize.getD 512 = b
  simp only [hzero]
  cases n.count with
  | none => simp only [Option.getD_none, if_true, Option.bind_none, Option.or_none]
  | some c =>
    simp only [Option.getD_some, Option.bind_some]
    by_cases hc : c = intmaxMax
    · have hnone : (if c ≠ intmaxMax ∧ c * b ≤ intmaxMax then some (c * b) else none) = none :=
        if_neg fun h => h.1 hc
      rw [if_pos hc, hnone, hc, Option.or_none]
    · simp only [hc, ne_eq, not_false_eq_true, true_and, if_false]
      cases n.limit with
      | some l => simp only [reduceCtorEq, false_and, if_false, Option.some_or]
      | none =>
        by_cases hfits : c * b ≤ intmaxMax
        · simp only [hfits, and_self, if_true, Option.none_or, Option.isSome_some]
        · simp only [hfits, and_false, if_false, Option.none_or]

end TuiForm

end

/-- What the program does with the arguments of a command: it takes them if the numbers are ones,
and then they mean what stands in the form. -/
def Conveys (xstrtoumax : Xstrtoumax) (form : TuiForm) (bin command : CStr) : Prop :=
  ∃ args, Shell.parse command = .ok [bin :: args] ∧ ∀ cfg,
    ddScanargs xstrtoumax (commandLine args) = .ok cfg ↔
      ∃ n, form.numbers xstrtoumax = some n ∧ cfg = form.config n

theorem conveys_of_passes (xstrtoumax : Xstrtoumax) {form : TuiForm} {bin : CStr}
    (h : form.Passes bin) :
    Conveys xstrtoumax form bin (bin ++ form.parts.flatten) ∧
      Conveys xstrtoumax form bin (bin ++ (form.parts.flatten ++ " 2>&1".toList)) := by
  obtain ⟨hapart, ws, hws, hscan⟩ := says_flatten (TuiForm.says_parts h.texts h.input.1 h.output.1)
  obtain ⟨hplain, hredirected⟩ := parse_words h.program.isName hws hapart
  have hline : commandLine (ws.map (·.1)) = ⟨form.options.flatten, []⟩ := by
    have hall := hscan []
    rw [List.append_nil] at hall
    rw [hall]
    exact congrArg (CommandLine.mk · []) (List.append_nil _)
  have hcfg (cfg : Options) : ddScanargs xstrtoumax (commandLine (ws.map (·.1))) = .ok cfg ↔
      ∃ n, form.numbers xstrtoumax = some n ∧ cfg = form.config n := by
    rw [hline]
    unfold ddScanargs
    simp only [bind_eq_ok_iff, form.scan_options h.input.2.2 h.output.2.2 h.input.2.1 h.output.2.1,
      List.foldlM_nil]
    constructor
    · rintro ⟨_, ⟨n, hn, rfl⟩, _, hoperands, hresolve⟩
      obtain rfl := Except.ok.inj hoperands
      refine ⟨n, hn, ?_⟩
      rw [← form.resolve_scanned hn]
      exact (Except.ok.inj hresolve).symm
    · rintro ⟨n, hn, rfl⟩
      refine ⟨_, ⟨n, hn, rfl⟩, _, rfl, ?_⟩
      rw [form.resolve_scanned hn]
      rfl
  exact ⟨⟨_, hplain, hcfg⟩, _, hredirected, hcfg⟩

/-- The first 64 bytes of `/dev/sda`, with holes. -/
def partOfDisk : TuiForm :=
  { shortPaths with
    engine := .uring
    limit := ⟨"64".toList, by decide, by decide⟩
    optSparse := true }

end Blkcp.C
