import Blkcp.C.TuiCommand
set_option autoImplicit false

/-! The dry run of the C interface: the flag that makes it one stands behind the paths and the
options, where the array of `tui_build_command` may be full. -/

namespace Blkcp.C
open Blkcp.Lib

def isDryRun (o : Opt) : Bool :=
  match o with
  | .dryRun => true
  | _ => false

/-- The arguments hold the option `-n`. -/
def asksDryRun (args : List CStr) : Bool := (commandLine args).options.any isDryRun

/-- The shell does not run the command, or the program in it is told not to copy. -/
def DryOrRefused (bin command : CStr) : Prop :=
  match Shell.parse command with
  | .error .unterminated | .error .malformed => True
  | .error .unsupported => False
  | .ok cs => ∃ args, bin :: args ∈ cs ∧ asksDryRun args = true

def pathChar (c : Char) : Bool := c.isAlphanum || c == '/' || c == '-' || c == '.'

abbrev Quoted := CStr × Bool

/-- An option that is no dry run, and so is whatever is left of it when the array is full. -/
structure Harmless (text : CStr) : Prop where
  apart : Shell.Apart text
  whole : ∃ ws : List Quoted, Shell.Adds text ws ∧
    ∀ more, asksDryRun (ws.map (·.1) ++ more) = asksDryRun more
  cut : ∀ n < text.length, ∃ ws : List Quoted, Shell.Adds (text.take n) ws ∧
    asksDryRun (ws.map (·.1)) = false

theorem harmless_nil : Harmless [] where
  apart := .inl rfl
  whole := ⟨[], Shell.adds_nil, fun _ => rfl⟩
  cut n hn := absurd hn (Nat.not_lt_zero n)

theorem Harmless.given {text : CStr} (h : Harmless text) (p : Prop) [Decidable p] :
    Harmless (given p text) := by
  unfold Blkcp.C.given
  split
  · exact h
  · exact harmless_nil

/-- What is left of a single word. -/
theorem adds_word_cut {w : CStr} (hw : ∀ c ∈ w, Shell.ordinary c = true) (n : Nat) :
    ∃ ws : List Quoted, Shell.Adds ((' ' :: w).take n) ws ∧
      (ws = [] ∨ ∃ m < n, ws = [(w.take m, false)]) := by
  cases n with
  | zero => exact ⟨[], Shell.adds_nil, .inl rfl⟩
  | succ m =>
    rw [List.take_succ_cons]
    by_cases hm : w.take m = []
    · rw [hm]
      exact ⟨[], Shell.adds_blank, .inl rfl⟩
    · exact ⟨_, Shell.adds_word (fun c hc => hw c (List.mem_of_mem_take hc)) hm,
        .inr ⟨m, Nat.lt_succ_self m, rfl⟩⟩

theorem harmless_word {w : CStr} (hw : ∀ c ∈ w, Shell.ordinary c = true) (hne : w ≠ [])
    (hwhole : ∀ more, asksDryRun (w :: more) = asksDryRun more)
    (hcut : ∀ m < w.length, asksDryRun [w.take m] = false) : Harmless (' ' :: w) where
  apart := .inr ⟨w, rfl⟩
  whole := ⟨_, Shell.adds_word hw hne, hwhole⟩
  cut n hn := by
    obtain ⟨ws, hadds, rfl | ⟨m, hm, rfl⟩⟩ := adds_word_cut hw n
    · exact ⟨[], hadds, rfl⟩
    · refine ⟨_, hadds, hcut m ?_⟩
      rw [List.length_cons] at hn
      omega

/-- A flag with its argument in the next word. -/
theorem harmless_valued {flag : Char} (hflag : Shell.ordinary flag = true) {v : CStr}
    (hv : ∀ c ∈ v, Shell.ordinary c = true) (hne : v ≠ [])
    (hwhole : ∀ v more, asksDryRun (['-', flag] :: v :: more) = asksDryRun more)
    (hcut : asksDryRun [['-', flag]] = false) : Harmless ([' ', '-', flag, ' '] ++ v) where
  apart := .inr ⟨_, rfl⟩
  whole := ⟨[(['-', flag], false), (v, false)],
    (Shell.adds_word (ordinary_flag hflag) (by simp)).append (Shell.adds_word hv hne) (.inr ⟨_, rfl⟩),
    hwhole v⟩
  cut n hn := by
    have hsplit : [' ', '-', flag, ' '] ++ v = (' ' :: ['-', flag]) ++ (' ' :: v) := rfl
    rw [hsplit, List.take_append]
    by_cases h3 : n < 3
    · obtain ⟨ws, hadds, hws⟩ := adds_word_cut (ordinary_flag hflag) n
      rw [Nat.sub_eq_zero_of_le (by simp only [List.length_cons, List.length_nil]; omega),
        List.take_zero, List.append_nil]
      refine ⟨ws, hadds, ?_⟩
      rcases hws with rfl | ⟨m, hm, rfl⟩
      · rfl
      · match m, (by omega : m < 2) with
        | 0, _ => rfl
        | 1, _ => rfl
    · obtain ⟨us, hus, hvs⟩ := adds_word_cut hv (n - (' ' :: ['-', flag]).length)
      rw [List.take_of_length_le (by simp only [List.length_cons, List.length_nil]; omega)]
      refine ⟨_, (Shell.adds_word (ordinary_flag hflag) (by simp)).append hus
        ((Shell.Apart.take (.inr ⟨v, rfl⟩)) _), ?_⟩
      rcases hvs with rfl | ⟨m, -, rfl⟩
      · exact hcut
      · exact hwhole _ []

/-- A long option with its argument behind an equals sign. -/
theorem harmless_joined (name : CStr) {v : CStr} (hname : ∀ c ∈ name, Shell.ordinary c = true)
    (hv : ∀ c ∈ v, Shell.ordinary c = true) (hne : name ≠ [])
    (hwhole : ∀ v more, asksDryRun ((name ++ v) :: more) = asksDryRun more)
    (hcut : ∀ m < name.length, asksDryRun [name.take m] = false) :
    Harmless (' ' :: (name ++ v)) := by
  refine harmless_word (fun c hc => ?_) (by simp [hne]) (hwhole v) fun m hm => ?_
  · rcases List.mem_append.mp hc with hc | hc
    · exact hname c hc
    · exact hv c hc
  · rw [List.take_append]
    by_cases hlt : m < name.length
    · rw [Nat.sub_eq_zero_of_le (Nat.le_of_lt hlt), List.take_zero, List.append_nil]
      exact hcut m hlt
    · rw [List.take_of_length_le (Nat.le_of_not_lt hlt)]
      exact hwhole _ []

/-- Options one behind the other. -/
theorem Harmless.append {a b : CStr} (ha : Harmless a) (hb : Harmless b) : Harmless (a ++ b) where
  apart := ha.apart.append hb.apart
  whole := by
    obtain ⟨ws, hws, hwa⟩ := ha.whole
    obtain ⟨us, hus, hua⟩ := hb.whole
    refine ⟨ws ++ us, hws.append hus hb.apart, fun more => ?_⟩
    rw [List.map_append, List.append_assoc, hwa, hua]
  cut n hn := by
    rw [List.length_append] at hn
    rw [List.take_append]
    by_cases hlt : n < a.length
    · obtain ⟨ws, hws, hwa⟩ := ha.cut n hlt
      rw [Nat.sub_eq_zero_of_le (Nat.le_of_lt hlt), List.take_zero, List.append_nil]
      exact ⟨ws, hws, hwa⟩
    · obtain ⟨ws, hws, hwa⟩ := ha.whole
      obtain ⟨us, hus, hua⟩ := hb.cut (n - a.length) (by omega)
      rw [List.take_of_length_le (Nat.le_of_not_lt hlt)]
      refine ⟨ws ++ us, hws.append hus (hb.apart.take _), ?_⟩
      rw [List.map_append, hwa, hua]

theorem harmless_flatten {texts : List CStr} (h : ∀ t ∈ texts, Harmless t) :
    Harmless texts.flatten := by
  induction texts with
  | nil => exact harmless_nil
  | cons t texts ih =>
    exact (h t List.mem_cons_self).append (ih fun u hu => h u (List.mem_cons_of_mem t hu))

/-- What is left of options with the flag of a dry run behind them: no dry run, unless all of it is
there. -/
theorem harmless_flag_cut {text : CStr} (h : Harmless text) {n : Nat} (hn : n < text.length + 3) :
    ∃ ws : List Quoted, Shell.Adds ((text ++ " -n".toList).take n) ws ∧
      asksDryRun (ws.map (·.1)) = false := by
  rw [List.take_append]
  by_cases hlt : n < text.length
  · obtain ⟨ws, hws, hwa⟩ := h.cut n hlt
    rw [Nat.sub_eq_zero_of_le (Nat.le_of_lt hlt), List.take_zero, List.append_nil]
    exact ⟨ws, hws, hwa⟩
  · obtain ⟨ws, hws, hwa⟩ := h.whole
    rw [List.take_of_length_le (Nat.le_of_not_lt hlt)]
    obtain ⟨us, hus, hua⟩ := adds_word_cut (w := ['-', 'n']) (by decide) (n - text.length)
    refine ⟨ws ++ us, hws.append hus ((Shell.Apart.take (.inr ⟨_, rfl⟩)) _), ?_⟩
    rw [List.map_append, hwa]
    rcases hua with rfl | ⟨m, hm, rfl⟩
    · rfl
    · match m, (by omega : m < 2) with
      | 0, _ => rfl
      | 1, _ => rfl

theorem Harmless.take {text : CStr} (h : Harmless text) (n : Nat) :
    ∃ ws : List Quoted, Shell.Adds (text.take n) ws := by
  by_cases hlt : n < text.length
  · obtain ⟨ws, hws, -⟩ := h.cut n hlt
    exact ⟨ws, hws⟩
  · obtain ⟨ws, hws, -⟩ := h.whole
    rw [List.take_of_length_le (Nat.le_of_not_lt hlt)]
    exact ⟨ws, hws⟩

/-- Options, the flag of a dry run and another option, as far as there is room. -/
theorem adds_flag {text status : CStr} (h : Harmless text) (hs : Harmless status) (n : Nat) :
    ∃ ws : List Quoted, Shell.Adds ((text ++ (" -n".toList ++ status)).take n) ws ∧
      asksDryRun (ws.map (·.1)) = decide (text.length + 3 ≤ n) := by
  have hflag : " -n".toList.length = 3 := rfl
  by_cases hfits : text.length + 3 ≤ n
  · obtain ⟨ws, hws, hwa⟩ := h.whole
    obtain ⟨us, hus⟩ := hs.take (n - text.length - 3)
    have hn : Shell.Adds " -n".toList [(['-', 'n'], false)] :=
      Shell.adds_word (by decide) (by decide)
    rw [List.take_append, List.take_of_length_le (by omega), List.take_append,
      List.take_of_length_le (by omega), hflag, decide_eq_true hfits]
    refine ⟨ws ++ ([(['-', 'n'], false)] ++ us), hws.append (hn.append hus (hs.apart.take _))
      (.inr ⟨_, rfl⟩), ?_⟩
    rw [List.map_append, hwa]
    rfl
  · obtain ⟨ws, hws, hwa⟩ := harmless_flag_cut h (Nat.lt_of_not_le hfits)
    rw [← List.append_assoc, List.take_append_of_le_length (by
      rw [List.length_append, hflag]; omega), decide_eq_false hfits]
    exact ⟨ws, hws, hwa⟩

namespace TuiForm

variable (form : TuiForm)

/-- Texts that the shell takes for one word each. -/
structure PlainTexts : Prop where
  queueDepth : ∀ c ∈ form.queueDepth.text, Shell.ordinary c = true
  bs : ∀ c ∈ form.bs.text, Shell.ordinary c = true
  limit : ∀ c ∈ form.limit.text, Shell.ordinary c = true
  count : ∀ c ∈ form.count.text, Shell.ordinary c = true
  skip : ∀ c ∈ form.skip.text, Shell.ordinary c = true
  seek : ∀ c ∈ form.seek.text, Shell.ordinary c = true

theorem harmless_enginePart : Harmless form.enginePart := by
  have h : ∀ v : CStr, (∀ c ∈ v, Shell.ordinary c = true) → v ≠ [] →
      Harmless ([' ', '-', 'e', ' '] ++ v) := fun v hv hne =>
    harmless_valued (by decide) hv hne (fun _ _ => rfl) rfl
  unfold enginePart
  cases form.engine with
  | auto => exact harmless_nil
  | uring => exact h "uring".toList (by decide) (by decide)
  | async => exact h "async".toList (by decide) (by decide)
  | reflink => exact h "reflink".toList (by decide) (by decide)
  | splice => exact h "splice".toList (by decide) (by decide)
  | sync => exact h "sync".toList (by decide) (by decide)

theorem harmless_statusPart : Harmless form.statusPart := by
  unfold statusPart
  split_ifs
  · exact harmless_word (w := "-q".toList) (by decide) (by decide) (fun _ => rfl) (by decide)
  · exact harmless_word (w := "-p".toList) (by decide) (by decide) (fun _ => rfl) (by decide)
  · exact harmless_word (w := "--json".toList) (by decide) (by decide) (fun _ => rfl) (by decide)
  · exact harmless_nil

theorem harmless_given_valued {flag : Char} (hflag : Shell.ordinary flag = true) {v : CStr}
    (hv : ∀ c ∈ v, Shell.ordinary c = true)
    (hwhole : ∀ v more, asksDryRun (['-', flag] :: v :: more) = asksDryRun more)
    (hcut : asksDryRun [['-', flag]] = false) :
    Harmless (Blkcp.C.given (v ≠ []) ([' ', '-', flag, ' '] ++ v)) := by
  by_cases hne : v = []
  · rw [show Blkcp.C.given (v ≠ []) _ = [] from if_neg (not_not.mpr hne)]
    exact harmless_nil
  · exact (harmless_valued hflag hv hne hwhole hcut).given _

theorem harmless_options {form : TuiForm} (h : form.PlainTexts) :
    Harmless form.optionParts.flatten := by
  refine harmless_flatten ?_
  unfold optionParts
  simp only [List.forall_mem_cons, List.not_mem_nil, false_imp_iff, implies_true, and_true]
  refine ⟨form.harmless_enginePart, ?_, ?_, ?_, ?_, ?_, ?_, ?_, ?_, ?_, ?_, ?_, ?_⟩
  · exact (harmless_joined "--queue-depth=".toList (by decide) h.queueDepth (by decide)
      (fun _ _ => rfl) (by decide)).given _
  · exact harmless_given_valued (by decide) h.bs (fun _ _ => rfl) rfl
  · exact harmless_given_valued (by decide) h.limit (fun _ _ => rfl) rfl
  · exact harmless_given_valued (by decide) h.count (fun _ _ => rfl) rfl
  · exact (harmless_joined "--skip=".toList (by decide) h.skip (by decide)
      (fun _ _ => rfl) (by decide)).given _
  · exact (harmless_joined "--seek=".toList (by decide) h.seek (by decide)
      (fun _ _ => rfl) (by decide)).given _
  · exact (harmless_word (w := "--autotune".toList) (by decide) (by decide) (fun _ => rfl)
      (by decide)).given _
  · exact (harmless_word (w := "--hash".toList) (by decide) (by decide) (fun _ => rfl)
      (by decide)).given _
  · exact (harmless_word (w := "--direct".toList) (by decide) (by decide) (fun _ => rfl)
      (by decide)).given _
  · exact (harmless_word (w := "--sparse".toList) (by decide) (by decide) (fun _ => rfl)
      (by decide)).given _
  · exact (harmless_word (w := "--sync".toList) (by decide) (by decide) (fun _ => rfl)
      (by decide)).given _
  · exact (harmless_word (w := "-f".toList) (by decide) (by decide) (fun _ => rfl)
      (by decide)).given _

end TuiForm

/-! ### Paths of letters, digits, slashes, dashes and dots -/

theorem pathChar_ne {c d : Char} (hc : pathChar c = true) (hd : pathChar d = false) : c ≠ d := by
  rintro rfl
  rw [hc] at hd
  cases hd

theorem ordinary_pathChar {c : Char} (hc : pathChar c = true) : Shell.ordinary c = true := by
  have h : ∀ d ∈ [' ', '\t', '$', '\x60', '*', '?', '[', '<', '&', ';', '(', ')', '\n', '\'', '"',
      '\\', '|', '>', '#', '~'], c ≠ d := fun d hd =>
    pathChar_ne hc ((show ∀ d ∈ [' ', '\t', '$', '\x60', '*', '?', '[', '<', '&', ';', '(', ')',
      '\n', '\'', '"', '\\', '|', '>', '#', '~'], pathChar d = false by decide) d hd)
  simp only [List.forall_mem_cons] at h
  simp [Shell.ordinary, Shell.isBlank, Shell.special, h]

theorem literal_of_ne {text : CStr}
    (h : ∀ c ∈ text, c ≠ '\\' ∧ c ≠ '$' ∧ c ≠ '\x60' ∧ c ≠ '"') : Shell.literal text = true := by
  induction text with
  | nil => rfl
  | cons c cs ih =>
    obtain ⟨h1, h2, h3, h4⟩ := h c List.mem_cons_self
    unfold Shell.literal
    rw [if_neg h1, ih fun d hd => h d (List.mem_cons_of_mem c hd)]
    simp [h2, h3, h4]

theorem pathChar_ne_quotes {c : Char} (hc : pathChar c = true) :
    c ≠ '\\' ∧ c ≠ '$' ∧ c ≠ '\x60' ∧ c ≠ '"' :=
  ⟨pathChar_ne hc (by decide), pathChar_ne hc (by decide), pathChar_ne hc (by decide),
    pathChar_ne hc (by decide)⟩

theorem adds_quotedPath {flag : Char} (hflag : Shell.ordinary flag = true) {path : CStr}
    (hp : ∀ c ∈ path, pathChar c = true) :
    Shell.Adds (quotedPath flag path) [(['-', flag], false), (path.take 500, true)] := by
  have hsplit : quotedPath flag path =
      (' ' :: ['-', flag]) ++ ([' ', '"'] ++ path.take 500 ++ ['"']) := by simp [quotedPath]
  rw [hsplit]
  refine (Shell.adds_word (ordinary_flag hflag) (by simp)).append (Shell.adds_quoted ?_)
    (.inr ⟨_, rfl⟩)
  exact literal_of_ne fun c hc => pathChar_ne_quotes (hp c (List.mem_of_mem_take hc))

/-- The part of a path, whether it is given or not, changes nothing about a dry run. -/
theorem adds_path (flag : Char) (hflag : Shell.ordinary flag = true) {path : CStr}
    (hp : ∀ c ∈ path, pathChar c = true) (p : Prop) [Decidable p]
    (hwhole : ∀ v more, asksDryRun (['-', flag] :: v :: more) = asksDryRun more) :
    ∃ ws : List Quoted, Shell.Adds (given p (quotedPath flag path)) ws ∧
      ∀ more, asksDryRun (ws.map (·.1) ++ more) = asksDryRun more := by
  unfold given
  split
  · exact ⟨_, adds_quotedPath hflag hp, hwhole _⟩
  · exact ⟨[], Shell.adds_nil, fun _ => rfl⟩

/-- What is left of a path inside its quotes, and behind it no other quote. -/
theorem read_open_quotes (flag : Char) (hflag : Shell.ordinary flag = true) {path : CStr}
    (hp : ∀ c ∈ path, pathChar c = true) {n : Nat} (h5 : 5 ≤ n)
    (hn : n < (quotedPath flag path).length) :
    Shell.reader.read {} ((quotedPath flag path).take n ++ " 2>&1".toList) =
      .error .unterminated := by
  obtain ⟨m, rfl⟩ : ∃ m, n = m + 5 := ⟨n - 5, by omega⟩
  have hlen : (quotedPath flag path).length = (path.take 500).length + 6 := by
    simp only [quotedPath, List.length_append, List.length_cons, List.length_nil]
    omega
  have hm : m ≤ (path.take 500).length := by omega
  have hcut : (quotedPath flag path).take (m + 5) ++ " 2>&1".toList =
      ' ' :: (['-', flag] ++ ' ' :: '"' :: ((path.take 500).take m ++ " 2>&1".toList)) := by
    unfold quotedPath
    simp only [List.cons_append, List.nil_append, List.take_succ_cons]
    rw [List.take_append_of_le_length hm]
  have hlit : Shell.literal ((path.take 500).take m ++ " 2>&1".toList) = true := by
    refine literal_of_ne fun c hc => ?_
    rcases List.mem_append.mp hc with hc | hc
    · exact pathChar_ne_quotes (hp c (List.mem_of_mem_take (List.mem_of_mem_take hc)))
    · exact (show ∀ c ∈ " 2>&1".toList, c ≠ '\\' ∧ c ≠ '$' ∧ c ≠ '\x60' ∧ c ≠ '"' by decide) c hc
  have hword := Shell.adds_word (ordinary_flag hflag) (by simp) (' ' :: '"' ::
    ((path.take 500).take m ++ " 2>&1".toList)) (.inr ⟨_, rfl⟩)
  rw [List.cons_append] at hword
  rw [hcut, hword, Shell.reader.read_of_quiet_step (s := {}) (t := {}) rfl,
    Shell.reader.read_of_quiet_step (t := ⟨.double, [], true⟩) rfl,
    ← List.append_nil ((path.take 500).take m ++ " 2>&1".toList),
    Shell.reader.read_of_run (Shell.State.run_literal hlit [])]
  rfl

/-! ### The commands of the line -/

def beforePipe (w : Option CStr) : CStr :=
  match w with
  | some name => name ++ " | ".toList
  | none => []

def behindPipe (w : Option CStr) : CStr :=
  match w with
  | some name => " | ".toList ++ name
  | none => []

/-- A command of one word, if there is one. -/
def stage (w : Option CStr) : List (List Quoted) := w.toList.map fun name => [(name, false)]

/-- A command that a path alone makes. -/
def PathName (w : Option CStr) : Prop := ∀ name ∈ w, name ≠ [] ∧ ∀ c ∈ name, pathChar c = true

theorem read_beforePipe {w : Option CStr} (h : PathName w) (rest : CStr) :
    Shell.reader.read {} (beforePipe w ++ rest) =
      (Shell.reader.read {} rest).map
        ((stage w).flatMap (fun c => Shell.wordTokens c ++ [.pipe]) ++ ·) := by
  cases w with
  | none => exact (Shell.map_append_nil _).symm
  | some name =>
    obtain ⟨hne, hname⟩ := h name rfl
    have hrun := Shell.State.run_word (fun c hc => ordinary_pathChar (hname c hc)) hne
    have hpipe : Shell.reader.run ⟨.word, name, false⟩ " | ".toList =
        .ok ([.word name false, .pipe], {}) := rfl
    unfold beforePipe
    rw [List.append_assoc, Shell.reader.read_of_run hrun, Shell.reader.read_of_run hpipe]
    cases Shell.reader.read {} rest <;> rfl

theorem read_behindPipe {w : Option CStr} (h : PathName w) {rest : CStr}
    (hrest : Shell.Apart rest) :
    Shell.reader.read {} (behindPipe w ++ rest) =
      (Shell.reader.read {} rest).map
        ((stage w).flatMap (fun c => .pipe :: Shell.wordTokens c) ++ ·) := by
  cases w with
  | none => exact (Shell.map_append_nil _).symm
  | some name =>
    obtain ⟨hne, hname⟩ := h name rfl
    have hpipe : Shell.reader.run {} " | ".toList = .ok ([.pipe], {}) := rfl
    unfold behindPipe
    rw [List.append_assoc, Shell.reader.read_of_run hpipe,
      Shell.reader.read_of_run (Shell.State.run_word (fun c hc => ordinary_pathChar (hname c hc)) hne),
      Shell.State.read_word hrest]
    cases Shell.reader.read {} rest <;> rfl

theorem apart_behindPipe (w : Option CStr) : Shell.Apart (behindPipe w) := by
  cases w with
  | none => exact .inl rfl
  | some name => exact .inr ⟨_, rfl⟩

/-- The commands of a pipeline around the program, whose words are `ws`. -/
theorem parse_pipeline {pre suf : Option CStr} (hpre : PathName pre) (hsuf : PathName suf)
    {bin : CStr} (hbin : Shell.IsName bin) {text : CStr} {ws : List Quoted}
    (hadds : Shell.Adds text ws) (hapart : Shell.Apart text) :
    Shell.parse (beforePipe pre ++ (bin ++ (text ++ (behindPipe suf ++ " 2>&1".toList)))) =
      (stage pre ++ ((bin, false) :: ws) :: stage suf).mapM Shell.simple := by
  have hredirect : Shell.reader.read {} " 2>&1".toList = .ok [.redirect, .word ['1'] false] := rfl
  have hrest : Shell.Apart (behindPipe suf ++ " 2>&1".toList) :=
    (apart_behindPipe suf).append (.inr ⟨_, rfl⟩)
  have hbehind := read_behindPipe hsuf (show Shell.Apart " 2>&1".toList from .inr ⟨_, rfl⟩)
  have hread : Shell.reader.read {}
      (beforePipe pre ++ (bin ++ (text ++ (behindPipe suf ++ " 2>&1".toList)))) =
        .ok ((stage pre).flatMap (fun c => Shell.wordTokens c ++ [.pipe]) ++
          (Shell.wordTokens ((bin, false) :: ws) ++
            ((stage suf).flatMap (fun c => .pipe :: Shell.wordTokens c) ++
              [.redirect, .word ['1'] false]))) := by
    rw [read_beforePipe hpre, Shell.reader.read_of_run (Shell.State.run_word hbin.ordinary
      hbin.nonempty), Shell.State.read_word (hapart.append hrest), hadds _ hrest,
      hbehind, hredirect]
    rfl
  have hsuffix : Shell.commands ((stage suf).flatMap (fun c => .pipe :: Shell.wordTokens c) ++
      [.redirect, .word ['1'] false]) = .ok ([] :: stage suf) := by
    cases suf <;> rfl
  have hprogram := Shell.commands_wordTokens ((bin, false) :: ws) hsuffix
  rw [List.append_nil] at hprogram
  unfold Shell.parse
  rw [hread]
  cases pre with
  | none =>
    simp only [stage, Option.toList_none, List.map_nil, List.flatMap_nil, List.nil_append]
    exact (congrArg (· >>= _) hprogram)
  | some name =>
    have hpipe := Shell.commands_pipe hprogram
    have hall := (Shell.commands_word name false _ _ _).mpr ⟨[], rfl, hpipe⟩
    exact congrArg (· >>= _) hall

theorem simple_path {name : CStr} (h : ∀ c ∈ name, pathChar c = true) :
    Shell.simple [(name, false)] =
      if Shell.reserved name = true then .error .malformed else .ok [name] := by
  have hassign : '=' ∉ name := fun hmem => pathChar_ne (h _ hmem) (d := '=') (by decide) rfl
  unfold Shell.simple
  dsimp only
  by_cases hr : Shell.reserved name = true
  · rw [if_pos ⟨rfl, hr⟩, if_pos rfl, if_pos hr]
  · rw [if_neg fun h => hr h.2, if_neg hassign, if_neg hr]
    rfl

/-- A pipeline around the program: it is no command if one of the others has a name that the shell
keeps for itself. -/
theorem dryOrRefused_pipeline {pre suf : Option CStr} (hpre : PathName pre) (hsuf : PathName suf)
    {bin command : CStr} (hbin : Shell.IsName bin) {ws : List Quoted}
    (h : Shell.parse command = (stage pre ++ ((bin, false) :: ws) :: stage suf).mapM Shell.simple) :
    DryOrRefused bin command ↔
      asksDryRun (ws.map (·.1)) = true ∨
        ∃ name ∈ pre.toList ++ suf.toList, Shell.reserved name = true := by
  have hnil : asksDryRun [] = false := rfl
  have hp : ∀ name, pre = some name → ∀ c ∈ name, pathChar c = true := fun n hn => (hpre n hn).2
  have hs : ∀ name, suf = some name → ∀ c ∈ name, pathChar c = true := fun n hn => (hsuf n hn).2
  unfold DryOrRefused
  rw [h]
  cases pre with
  | none =>
    cases suf with
    | none => simp [stage, hbin.simple, bind, Except.bind, pure, Except.pure]
    | some q =>
      by_cases hq : Shell.reserved q = true <;>
        simp [stage, hbin.simple, simple_path (hs q rfl), hq, hnil, or_and_right, exists_or,
          bind, Except.bind, pure, Except.pure]
  | some p =>
    by_cases hr : Shell.reserved p = true
    · simp [stage, simple_path (hp p rfl), hr, bind, Except.bind]
    · cases suf with
      | none =>
        simp [stage, hbin.simple, simple_path (hp p rfl), hr, hnil, or_and_right, exists_or,
          bind, Except.bind, pure, Except.pure]
      | some q =>
        by_cases hq : Shell.reserved q = true <;>
          simp [stage, hbin.simple, simple_path (hp p rfl), simple_path (hs q rfl), hr, hq, hnil,
            or_and_right, exists_or, bind, Except.bind, pure, Except.pure]

theorem dryOrRefused_unterminated {bin command : CStr}
    (h : Shell.reader.read {} command = .error .unterminated) : DryOrRefused bin command := by
  have hparse : Shell.parse command = .error .unterminated := by
    unfold Shell.parse
    rw [h]
    rfl
  unfold DryOrRefused
  rw [hparse]
  trivial

theorem fullBin_path {cwd : Option CStr} (h : ∀ dir ∈ cwd, ∀ c ∈ dir, pathChar c = true) :
    ProgramPath (fullBin cwd) ∧ (fullBin cwd).length ≤ 506 := by
  cases cwd with
  | none => exact ⟨⟨by decide, by decide, by decide⟩, by decide⟩
  | some dir =>
    have hlen : (dir.take 500 ++ "/blkcp".toList).length ≤ 506 := by
      have hname : "/blkcp".toList.length = 6 := rfl
      rw [List.length_append, hname]
      exact Nat.add_le_add_right (List.length_take_le 500 dir) 6
    have he : fullBin (some dir) = dir.take 500 ++ "/blkcp".toList :=
      List.take_of_length_le (by omega)
    rw [he]
    refine ⟨⟨fun c hc => ?_, List.mem_append_right _ (by decide), by omega⟩, hlen⟩
    have hpath : pathChar c = true := by
      rcases List.mem_append.mp hc with hc | hc
      · exact h dir rfl c (List.mem_of_mem_take hc)
      · exact (show ∀ c ∈ "/blkcp".toList, pathChar c = true by decide) c hc
    exact ⟨ordinary_pathChar hpath, pathChar_ne hpath (by decide)⟩

namespace TuiForm

variable (form : TuiForm)

/-- The path in place of a file that is a command to read from. -/
def inputCommand : Option CStr :=
  if form.ifIsPipe ∧ form.ifPath.text ≠ [] ∧ form.ifPath.text ≠ "stdin".toList ∧
      form.ifPath.text ≠ ['-'] then some form.ifPath.text else none

def outputCommand : Option CStr :=
  if form.ofIsPipe ∧ form.ofPath.text ≠ [] ∧ form.ofPath.text ≠ "stdout".toList ∧
      form.ofPath.text ≠ ['-'] then some form.ofPath.text else none

/-- The array is full before the flag of the dry run and behind all quotes, and the line is one that
the shell takes. -/
structure CutOff (bin : CStr) : Prop where
  paths : (bin ++ form.inputPart ++ form.outputPart).length ≤ 1023
  flag : 1023 < (bin ++ form.inputPart ++ form.outputPart ++ form.optionParts.flatten).length + 3
  commands : ∀ name ∈ form.inputCommand.toList ++ form.outputCommand.toList,
    Shell.reserved name = false

theorem inputPrefix_eq : form.inputPrefix = beforePipe (form.inputCommand.map (·.take 500)) := by
  unfold inputPrefix inputCommand Blkcp.C.given
  split_ifs
  · refine List.take_of_length_le ?_
    have hpipe : " | ".toList.length = 3 := rfl
    have := List.length_take_le 500 form.ifPath.text
    rw [List.length_append, hpipe]
    omega
  · rfl

theorem outputSuffix_eq : form.outputSuffix = behindPipe (form.outputCommand.map (·.take 500)) := by
  unfold outputSuffix outputCommand Blkcp.C.given
  split_ifs
  · refine List.take_of_length_le ?_
    have hpipe : " | ".toList.length = 3 := rfl
    have := List.length_take_le 500 form.ofPath.text
    rw [List.length_append, hpipe]
    omega
  · rfl

/-- What stands behind the program, as far as there is room for it. -/
def argumentText (room : Nat) : CStr :=
  (form.inputPart ++ (form.outputPart ++ (form.optionParts.flatten ++
    (" -n".toList ++ form.statusPart)))).take room

theorem parts_dryRun : { form with optDryRun := true }.parts.flatten =
    form.inputPart ++ (form.outputPart ++ (form.optionParts.flatten ++
      (" -n".toList ++ form.statusPart))) := by
  have hparts : { form with optDryRun := true }.parts = [form.inputPart, form.outputPart] ++
      form.optionParts ++ [" -n".toList, form.statusPart] := rfl
  rw [hparts]
  simp only [List.flatten_append, List.flatten_cons, List.flatten_nil, List.append_nil,
    List.append_assoc]

/-- Only what is behind the second pipe is cut once more. -/
theorem snprintf_line {a b : CStr} (ha : a.length ≤ 503) (hb : b.length ≤ 1023) (text : CStr) :
    snprintf 2048 (snprintf 1600 (a ++ b ++ text) ++ " 2>&1".toList) =
      a ++ b ++ text.take (1599 - (a ++ b).length) ++ " 2>&1".toList := by
  have hab : (a ++ b).length ≤ 1599 := by
    rw [List.length_append]
    omega
  have hend : " 2>&1".toList.length = 5 := rfl
  have hcut : snprintf 1600 (a ++ b ++ text) = a ++ b ++ text.take (1599 - (a ++ b).length) := by
    unfold snprintf
    rw [List.take_append, List.take_of_length_le hab]
  rw [hcut]
  refine List.take_of_length_le ?_
  simp only [List.length_append, List.length_take, hend] at hab ⊢
  omega

/-- What is left of the command behind the second pipe. -/
theorem take_behindPipe (w : Option CStr) {n : Nat} (hn : 9 ≤ n) :
    ∃ j, 6 ≤ j ∧ (behindPipe (w.map (·.take 500))).take n = behindPipe (w.map (·.take j)) := by
  refine ⟨min (n - 3) 500, by omega, ?_⟩
  cases w with
  | none => exact List.take_nil
  | some p =>
    have hpipe : " | ".toList.length = 3 := rfl
    simp only [Option.map_some, behindPipe]
    rw [List.take_append, hpipe, List.take_take, List.take_of_length_le (by omega)]

/-- The line of a dry run. The command behind the second pipe may be cut. -/
theorem executeDryRunSimulation_eq {cwd : Option CStr} {command : CStr}
    (hbin : (fullBin cwd).length ≤ 506) (hne : fullBin cwd ≠ [])
    (h : executeDryRunSimulation form cwd = some command) :
    ∃ j, 6 ≤ j ∧ command = beforePipe (form.inputCommand.map (·.take 500)) ++ (fullBin cwd ++
      (form.argumentText (1023 - (fullBin cwd).length) ++
        (behindPipe (form.outputCommand.map (·.take j)) ++ " 2>&1".toList))) := by
  unfold executeDryRunSimulation at h
  split_ifs at h
  obtain rfl := Option.some.inj h
  have hbinOf : binOf (some (fullBin cwd)) = fullBin cwd := if_neg hne
  have hstart : snprintf 1024 (fullBin cwd) = fullBin cwd := List.take_of_length_le (by omega)
  have hpre : (beforePipe (form.inputCommand.map (·.take 500))).length ≤ 503 := by
    cases form.inputCommand with
    | none => exact Nat.zero_le _
    | some p =>
      have := List.length_take_le 500 p
      have hpipe : " | ".toList.length = 3 := rfl
      simp only [Option.map_some, beforePipe, List.length_append, hpipe]
      omega
  unfold tuiBuildCommand
  rw [hbinOf, hstart, foldl_snprintfAppend _ (by omega)]
  have hbuf : (fullBin cwd ++ { form with optDryRun := true }.parts.flatten).take 1023 =
      fullBin cwd ++ form.argumentText (1023 - (fullBin cwd).length) := by
    rw [List.take_append, List.take_of_length_le (by omega)]
    rw [form.parts_dryRun]
    rfl
  have hlen : (fullBin cwd ++ form.argumentText (1023 - (fullBin cwd).length)).length ≤ 1023 := by
    rw [← hbuf]
    exact List.length_take_le _ _
  have hlead : ({ form with optDryRun := true } : TuiForm).inputPrefix = form.inputPrefix := rfl
  have hsuffix : ({ form with optDryRun := true } : TuiForm).outputSuffix = form.outputSuffix := rfl
  rw [hbuf, hlead, hsuffix, inputPrefix_eq, outputSuffix_eq]
  obtain ⟨j, hj, hcut⟩ := take_behindPipe form.outputCommand
    (n := 1599 - (beforePipe (form.inputCommand.map (·.take 500)) ++
      (fullBin cwd ++ form.argumentText (1023 - (fullBin cwd).length))).length)
    (by rw [List.length_append]; omega)
  refine ⟨j, hj, ?_⟩
  rw [snprintf_line hpre hlen, hcut]
  simp only [List.append_assoc]

end TuiForm

theorem length_of_reserved {name : CStr} (h : Shell.reserved name = true) : name.length ≤ 5 := by
  have hall : ∀ w ∈ ["if", "then", "else", "elif", "fi", "do", "done", "case", "esac", "while",
      "until", "for", "\x7b", "\x7d", "!"], (String.toList w).length ≤ 5 := by decide
  obtain ⟨w, hw, he⟩ := List.any_eq_true.mp h
  rw [← eq_of_beq he]
  exact hall w hw

theorem reserved_take {name : CStr} {j : Nat} (hj : 6 ≤ j) :
    Shell.reserved (name.take j) = Shell.reserved name := by
  by_cases hlen : name.length ≤ j
  · rw [List.take_of_length_le hlen]
  · rw [Bool.eq_iff_iff]
    constructor
    · intro h
      have := length_of_reserved h
      rw [List.length_take] at this
      omega
    · intro h
      have := length_of_reserved h
      omega

theorem pathName_take {p : Prop} [Decidable p] {path : CStr} (hne : p → path ≠ [])
    (h : ∀ c ∈ path, pathChar c = true) {j : Nat} (hj : 6 ≤ j) :
    PathName ((if p then some path else none).map (·.take j)) := by
  split_ifs with hp
  · intro name hname
    obtain rfl := Option.some.inj hname
    refine ⟨fun he => ?_, fun c hc => h c (List.mem_of_mem_take hc)⟩
    rcases List.take_eq_nil_iff.mp he with h0 | hnil
    · omega
    · exact hne hp hnil
  · nofun

theorem exists_reserved_take {w v : Option CStr} {i j : Nat} (hi : 6 ≤ i) (hj : 6 ≤ j) :
    (∃ name ∈ (w.map (·.take i)).toList ++ (v.map (·.take j)).toList,
        Shell.reserved name = true) ↔
      ∃ name ∈ w.toList ++ v.toList, Shell.reserved name = true := by
  cases w <;> cases v <;> simp [reserved_take hi, reserved_take hj]

namespace TuiForm

variable {form : TuiForm}

/-- The words behind the program: both paths, then those of `text`. -/
theorem adds_arguments (hi : ∀ c ∈ form.ifPath.text, pathChar c = true)
    (ho : ∀ c ∈ form.ofPath.text, pathChar c = true) {text : CStr} {ws : List Quoted}
    (h : Shell.Adds text ws) (hapart : Shell.Apart text) :
    ∃ us : List Quoted, Shell.Adds (form.inputPart ++ (form.outputPart ++ text)) us ∧
      asksDryRun (us.map (·.1)) = asksDryRun (ws.map (·.1)) := by
  obtain ⟨is, his, hia⟩ := adds_path 'i' (by decide) hi
    (form.ifIsPipe = false ∧ form.ifPath.text ≠ []) fun _ _ => rfl
  obtain ⟨os, hos, hoa⟩ := adds_path 'o' (by decide) ho
    (form.ofIsPipe = false ∧ form.ofPath.text ≠ []) fun _ _ => rfl
  refine ⟨is ++ (os ++ ws), his.append (hos.append h hapart) (form.apart_outputPart.append hapart),
    ?_⟩
  rw [List.map_append, hia, List.map_append, hoa]

theorem length_inputPart_le : form.inputPart.length ≤ 506 := by
  unfold inputPart Blkcp.C.given
  split_ifs
  · unfold quotedPath
    have := List.length_take_le 500 form.ifPath.text
    simp only [List.length_append, List.length_cons, List.length_nil]
    omega
  · exact Nat.zero_le _

/-- The array is full inside the quotes of the second path. -/
theorem unterminated_of_full {cwd : Option CStr} (hcwd : ∀ dir ∈ cwd, ∀ c ∈ dir, pathChar c = true)
    (hi : ∀ c ∈ form.ifPath.text, pathChar c = true)
    (ho : ∀ c ∈ form.ofPath.text, pathChar c = true) (j : Nat)
    (hfull : 1023 < (fullBin cwd ++ form.inputPart ++ form.outputPart).length) :
    Shell.reader.read {} (beforePipe (form.inputCommand.map (·.take 500)) ++ (fullBin cwd ++
      (form.argumentText (1023 - (fullBin cwd).length) ++
        (behindPipe (form.outputCommand.map (·.take j)) ++ " 2>&1".toList)))) =
      .error .unterminated := by
  obtain ⟨hbin, hlen⟩ := fullBin_path hcwd
  have hil := form.length_inputPart_le
  simp only [List.length_append] at hfull
  have hgiven : form.ofIsPipe = false ∧ form.ofPath.text ≠ [] := by
    by_contra hno
    have hnil : form.outputPart = [] := if_neg hno
    rw [hnil, List.length_nil] at hfull
    omega
  have hout : form.outputPart = quotedPath 'o' form.ofPath.text := if_pos hgiven
  have hnone : form.outputCommand = none := if_neg fun h => by simp [hgiven.1] at h
  have hargs : form.argumentText (1023 - (fullBin cwd).length) = form.inputPart ++
      (quotedPath 'o' form.ofPath.text).take
        (1023 - (fullBin cwd).length - form.inputPart.length) := by
    unfold argumentText
    rw [List.take_append, List.take_of_length_le (by omega), hout,
      List.take_append_of_le_length (by rw [← hout]; omega)]
  obtain ⟨ws, hws, -⟩ : ∃ ws : List Quoted, Shell.Adds form.inputPart ws ∧ _ :=
    adds_path 'i' (by decide) hi (form.ifIsPipe = false ∧ form.ifPath.text ≠ []) fun _ _ => rfl
  have hopen := read_open_quotes 'o' (by decide) ho
    (n := 1023 - (fullBin cwd).length - form.inputPart.length) (by omega) (by rw [← hout]; omega)
  have hrest : Shell.Apart ((quotedPath 'o' form.ofPath.text).take
      (1023 - (fullBin cwd).length - form.inputPart.length) ++ " 2>&1".toList) :=
    (Shell.Apart.take (.inr ⟨_, rfl⟩) _).append (.inr ⟨_, rfl⟩)
  have hpre : PathName (form.inputCommand.map (·.take 500)) :=
    pathName_take (fun hp => hp.2.1) hi (by decide)
  have hin := hws _ hrest
  rw [hopen] at hin
  have hname := Shell.State.run_word hbin.isName.ordinary hbin.isName.nonempty
  have hbehind : behindPipe ((none : Option CStr).map (·.take j)) = [] := rfl
  rw [hargs, hnone, hbehind, List.nil_append, read_beforePipe hpre, Shell.reader.read_of_run hname,
    List.append_assoc, Shell.State.read_word (form.apart_inputPart.append hrest), hin]
  rfl

/-- What a dry run hands to the shell is refused or copies nothing, unless the array ends between
the paths and the flag. -/
theorem executeDryRunSimulation_iff (hi : ∀ c ∈ form.ifPath.text, pathChar c = true)
    (ho : ∀ c ∈ form.ofPath.text, pathChar c = true) (hplain : form.PlainTexts)
    {cwd : Option CStr} (hcwd : ∀ dir ∈ cwd, ∀ c ∈ dir, pathChar c = true) {command : CStr}
    (h : executeDryRunSimulation form cwd = some command) :
    DryOrRefused (fullBin cwd) command ↔ ¬ form.CutOff (fullBin cwd) := by
  obtain ⟨hbin, hlen⟩ := fullBin_path hcwd
  obtain ⟨j, hj, rfl⟩ := form.executeDryRunSimulation_eq hlen hbin.isName.nonempty h
  have hpre : PathName (form.inputCommand.map (·.take 500)) :=
    pathName_take (fun hp => hp.2.1) hi (by decide)
  have hsuf : PathName (form.outputCommand.map (·.take j)) :=
    pathName_take (fun hp => hp.2.1) ho hj
  by_cases hpaths : (fullBin cwd ++ form.inputPart ++ form.outputPart).length ≤ 1023
  swap
  · have hread := unterminated_of_full hcwd hi ho j (Nat.lt_of_not_le hpaths)
    exact iff_of_true (dryOrRefused_unterminated hread) fun hcut => hpaths hcut.paths
  have hroom := hpaths
  simp only [List.length_append] at hroom
  have hargs : form.argumentText (1023 - (fullBin cwd).length) =
      form.inputPart ++ (form.outputPart ++
        (form.optionParts.flatten ++ (" -n".toList ++ form.statusPart)).take
          (1023 - (fullBin cwd).length - form.inputPart.length - form.outputPart.length)) := by
    unfold argumentText
    rw [List.take_append, List.take_of_length_le (by omega), List.take_append,
      List.take_of_length_le (by omega)]
  have hoptions := harmless_options hplain
  have hapart : Shell.Apart (form.optionParts.flatten ++ (" -n".toList ++ form.statusPart)) :=
    hoptions.apart.append (.inr ⟨_, rfl⟩)
  have hflag : " -n".toList.length = 3 := rfl
  generalize hn : 1023 - (fullBin cwd).length - form.inputPart.length - form.outputPart.length = n
  rw [hn] at hargs
  -- the words behind the program decide, as far as they are there
  obtain ⟨ws, hadds, hasks⟩ := adds_flag hoptions form.harmless_statusPart n
  obtain ⟨us, hus, hua⟩ := adds_arguments hi ho hadds (hapart.take n)
  rw [hargs, dryOrRefused_pipeline hpre hsuf hbin.isName (parse_pipeline hpre hsuf hbin.isName hus
    (form.apart_inputPart.append (form.apart_outputPart.append (hapart.take n)))), hua, hasks,
    exists_reserved_take (by decide) hj, decide_eq_true_iff]
  constructor
  · rintro (hfits | ⟨name, hname, hr⟩) ⟨-, hcut, hcommands⟩
    · simp only [List.length_append] at hcut
      omega
    · rw [hcommands name hname] at hr
      cases hr
  · intro hcut
    by_contra hno
    obtain ⟨hfits, hnames⟩ := not_or.mp hno
    refine hcut ⟨hpaths, ?_, fun name hname => ?_⟩
    · simp only [List.length_append]
      omega
    · rw [Bool.eq_false_iff]
      exact fun hr => hnames ⟨name, hname, hr⟩

end TuiForm

theorem shortPaths_dry :
    ∃ command, executeDryRunSimulation shortPaths none = some command ∧
      DryOrRefused (fullBin none) command := by
  have hline : executeDryRunSimulation shortPaths none =
      some (snprintf 2048 (({ shortPaths with optDryRun := true } : TuiForm).tuiBuildCommand
        (some (fullBin none)) 1600 ++ " 2>&1".toList)) := if_neg (by decide)
  have hcut : ¬ shortPaths.CutOff (fullBin none) := fun h => absurd h.flag (by decide +kernel)
  have hplain : shortPaths.PlainTexts :=
    ⟨by decide, by decide, by decide, by decide, by decide, by decide⟩
  have hi : ∀ c ∈ shortPaths.ifPath.text, pathChar c = true := by decide
  have ho : ∀ c ∈ shortPaths.ofPath.text, pathChar c = true := by decide
  generalize snprintf 2048 _ = command at hline
  have hiff := TuiForm.executeDryRunSimulation_iff hi ho hplain (by simp) hline
  exact ⟨_, hline, hiff.mpr hcut⟩

/-- A path of one character, over and over. -/
def repeated (c : Char) (hc : c ≠ '\x00') (n : Nat) (hn : n < 512) : Buffer 512 where
  text := List.replicate n c
  fits := by rwa [List.length_replicate]
  nonul h := hc (List.eq_of_mem_replicate h).symm

/-- Two paths that fill the array up to its end. -/
def longPaths : TuiForm :=
  { tuiInitForm with
    ifPath := repeated 'a' (by decide) 500 (by decide)
    ofPath := repeated 'b' (by decide) 500 (by decide) }

theorem longPaths_copy :
    ¬ ∀ (form : TuiForm) (cwd : Option CStr) (command : CStr),
      (∀ c ∈ form.ifPath.text, pathChar c = true) → (∀ c ∈ form.ofPath.text, pathChar c = true) →
      (∀ dir ∈ cwd, ∀ c ∈ dir, pathChar c = true) →
      executeDryRunSimulation form cwd = some command → DryOrRefused (fullBin cwd) command := by
  intro h
  have hline : (executeDryRunSimulation longPaths (some "/root".toList)).map Shell.parse =
      some (.ok [["/root/blkcp".toList, ['-', 'i'], List.replicate 500 'a', ['-', 'o'],
        List.replicate 500 'b']]) := by decide +kernel
  obtain ⟨command, hcommand, hparse⟩ := Option.map_eq_some_iff.mp hline
  have hdry := h longPaths (some "/root".toList) command
    (fun c hc => by rw [List.eq_of_mem_replicate hc]; rfl)
    (fun c hc => by rw [List.eq_of_mem_replicate hc]; rfl) (by decide) hcommand
  unfold DryOrRefused at hdry
  rw [hparse] at hdry
  obtain ⟨args, hmem, hasks⟩ := hdry
  obtain ⟨-, rfl⟩ := List.cons.inj (List.mem_singleton.mp hmem)
  cases hasks

end Blkcp.C
