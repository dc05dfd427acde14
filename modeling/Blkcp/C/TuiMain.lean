import Blkcp.C.TuiDryRun
set_option autoImplicit false

/-! The loop of the C interface (`tui_main.c`, `tui_nav.c`): what the keys make of the form, and
which commands go to the shell. -/

namespace Blkcp.C
open Blkcp.Lib

inductive TuiField where
  | ifPath | ifSearchFile | ifSearchDev | ifSearchPipe
  | ofPath | ofSearchFile | ofSearchDev | ofSearchPipe
  | engine | queueDepth | bs | limit | count | skip | seek
  | optAutotune | optSha256 | optDirect | optForce | optSparse | optSync | optDryRun
  | status | btnStart | btnSimulate | btnCopy | btnQuit
  deriving DecidableEq

namespace TuiField

/-- In the order of `tui_field_id_t`. -/
def all : List TuiField :=
  [ifPath, ifSearchFile, ifSearchDev, ifSearchPipe, ofPath, ofSearchFile, ofSearchDev,
    ofSearchPipe, engine, queueDepth, bs, limit, count, skip, seek, optAutotune, optSha256,
    optDirect, optForce, optSparse, optSync, optDryRun, status, btnStart, btnSimulate, btnCopy,
    btnQuit]

/-- The field with an index. -/
def ofIndex (n : Nat) : TuiField := all.getD n ifPath

def tab (f : TuiField) : TuiField := ofIndex ((all.idxOf f + 1) % 27)

def backTab (f : TuiField) : TuiField := ofIndex ((all.idxOf f + 27 - 1) % 27)

def tuiNavRight : TuiField → TuiField
  | ifPath => ifSearchFile
  | ifSearchFile => ifSearchDev
  | ifSearchDev => ifSearchPipe
  | ifSearchPipe => ifPath
  | ofPath => ofSearchFile
  | ofSearchFile => ofSearchDev
  | ofSearchDev => ofSearchPipe
  | ofSearchPipe => ofPath
  | engine => queueDepth
  | queueDepth => engine
  | bs => bs
  | limit => limit
  | count => skip
  | skip => seek
  | seek => count
  | optAutotune => optSha256
  | optSha256 => optAutotune
  | optDirect => optForce
  | optForce => optDirect
  | optSparse => optSync
  | optSync => optSparse
  | optDryRun => optDryRun
  | status => status
  | btnStart => btnSimulate
  | btnSimulate => btnCopy
  | btnCopy => btnQuit
  | btnQuit => btnStart

def tuiNavLeft : TuiField → TuiField
  | ifSearchPipe => ifSearchDev
  | ifSearchDev => ifSearchFile
  | ifSearchFile => ifPath
  | ifPath => ifSearchPipe
  | ofSearchPipe => ofSearchDev
  | ofSearchDev => ofSearchFile
  | ofSearchFile => ofPath
  | ofPath => ofSearchPipe
  | engine => queueDepth
  | queueDepth => engine
  | bs => bs
  | limit => limit
  | seek => skip
  | skip => count
  | count => seek
  | optSha256 => optAutotune
  | optAutotune => optSha256
  | optForce => optDirect
  | optDirect => optForce
  | optSync => optSparse
  | optSparse => optSync
  | optDryRun => optDryRun
  | status => status
  | btnQuit => btnCopy
  | btnCopy => btnSimulate
  | btnSimulate => btnStart
  | btnStart => btnQuit

def tuiNavDown : TuiField → TuiField
  | ifPath => ofPath
  | ifSearchFile => ofSearchFile
  | ifSearchDev => ofSearchDev
  | ifSearchPipe => ofSearchPipe
  | ofPath | ofSearchFile | ofSearchDev | ofSearchPipe => engine
  | engine => bs
  | queueDepth => bs
  | bs => limit
  | limit => count
  | count => optAutotune
  | skip => optSha256
  | seek => optSha256
  | optAutotune => optDirect
  | optSha256 => optForce
  | optDirect => optSparse
  | optForce => optSync
  | optSparse => optDryRun
  | optSync => optDryRun
  | optDryRun => status
  | status => btnStart
  | btnStart => ifPath
  | btnSimulate => ifSearchFile
  | btnCopy => ifSearchDev
  | btnQuit => ifSearchPipe

def tuiNavUp : TuiField → TuiField
  | ifPath => btnStart
  | ifSearchFile => btnSimulate
  | ifSearchDev => btnCopy
  | ifSearchPipe => btnQuit
  | ofPath => ifPath
  | ofSearchFile => ifSearchFile
  | ofSearchDev => ifSearchDev
  | ofSearchPipe => ifSearchPipe
  | engine => ofPath
  | queueDepth => ofPath
  | bs => engine
  | limit => bs
  | count => limit
  | skip => limit
  | seek => limit
  | optAutotune => count
  | optSha256 => skip
  | optDirect => optAutotune
  | optForce => optSha256
  | optSparse => optDirect
  | optSync => optForce
  | optDryRun => optSparse
  | status => optDryRun
  | btnStart | btnSimulate | btnCopy | btnQuit => status

end TuiField

/-- `c`, `s`, `d` and `q` stand for the capital as well, `q` for the escape key too. -/
inductive TuiKey where
  | up | down | left | right | tab | btab | space | enter | c | s | d | q | other
  deriving DecidableEq

/-- A string of C. -/
structure CText where
  text : CStr
  nonul : '\x00' ∉ text

/-- What the dialogs and the system answer while a key is handled: the text typed, what a chooser
returns, the keys pressed in the dialog that warns, the working directory and the block devices. -/
structure TuiAnswers where
  typed : CText
  chosen : Option CText
  warned : List Char
  cwd : Option CStr
  isBlockDevice : CStr → Bool

structure TuiSession where
  form : TuiForm
  activeField : TuiField
  running : Bool

/-- What a key does besides: a warning with its answer, a command for the shell or the clipboard. -/
inductive TuiEffect where
  | warned (target : CStr) (answer : Option Bool)
  | copies (command : CStr)
  | simulates (command : CStr)
  | clips (command : CStr)
  deriving DecidableEq

/-- `snprintf` into an array. -/
def Buffer.print {size : Nat} (target : Buffer size) (t : CText) : Buffer size where
  text := snprintf size t.text
  fits := by
    have := target.fits
    have := List.length_take_le (size - 1) t.text
    unfold snprintf
    omega
  nonul h := t.nonul (List.mem_of_mem_take h)

/-- What is typed replaces the text, unless nothing is. -/
def editTextModal {size : Nat} (typed : CText) (target : Buffer size) : Buffer size :=
  let input := target.print typed
  if input.text = [] then target else input

/-- The dialog waits for one of its keys. -/
def confirmSafetyModal : List Char → Option Bool
  | [] => none
  | ch :: chs =>
    if ch = 'j' ∨ ch = 'J' ∨ ch = 'y' ∨ ch = 'Y' then some true
    else if ch = 'n' ∨ ch = 'N' ∨ ch = '\x1b' ∨ ch = 'q' then some false
    else confirmSafetyModal chs

def TuiEngineMode.next : TuiEngineMode → TuiEngineMode
  | .auto => .uring
  | .uring => .async
  | .async => .reflink
  | .reflink => .splice
  | .splice => .sync
  | .sync => .auto

def simulation (a : TuiAnswers) (form : TuiForm) : List TuiEffect :=
  ((executeDryRunSimulation form a.cwd).map TuiEffect.simulates).toList

/-- The command of a copy. -/
def jobCommand (form : TuiForm) (cwd : Option CStr) : CStr :=
  snprintf 2048 (form.tuiBuildCommand (some (fullBin cwd)) 1600 ++ " 2>&1".toList)

def executeBlkcpJob (a : TuiAnswers) (form : TuiForm) : List TuiEffect :=
  if form.ifPath.text = [] ∨ form.ofPath.text = [] then []
  else if form.optDryRun then simulation a form
  else if a.isBlockDevice form.ofPath.text then
    let answer := confirmSafetyModal a.warned
    .warned form.ofPath.text answer ::
      if answer = some true then [.copies (jobCommand form a.cwd)] else []
  else [.copies (jobCommand form a.cwd)]

def clipboard (form : TuiForm) : List TuiEffect :=
  [.clips (form.tuiBuildCommand (some defaultBin) 1024)]

namespace TuiForm

variable (form : TuiForm)

def nextStatus : TuiForm := { form with statusMode := (form.statusMode + 1) % 4 }

/-- The fields that a blank changes. -/
def toggle (f : TuiField) : TuiForm :=
  match f with
  | .engine => { form with engine := form.engine.next }
  | .optAutotune => { form with optAutotune := !form.optAutotune }
  | .optSha256 => { form with optSha256 := !form.optSha256 }
  | .optDirect => { form with optDirect := !form.optDirect }
  | .optForce => { form with optForce := !form.optForce }
  | .optSparse => { form with optSparse := !form.optSparse }
  | .optSync => { form with optSync := !form.optSync }
  | .optDryRun => { form with optDryRun := !form.optDryRun }
  | .status => form.nextStatus
  | _ => form

def editInput (typed : CText) : TuiForm :=
  let ifPath := editTextModal typed form.ifPath
  { form with ifPath := ifPath, ifIsPipe := form.ifIsPipe || ifPath.text.head? = some '|' }

def editOutput (typed : CText) : TuiForm :=
  let ofPath := editTextModal typed form.ofPath
  { form with ofPath := ofPath, ofIsPipe := form.ofIsPipe || ofPath.text.head? = some '|' }

/-- What a chooser returns. -/
def chooseInput (chosen : Option CText) (isPipe : Bool) : TuiForm :=
  match chosen with
  | some t => { form with ifPath := form.ifPath.print t, ifIsPipe := isPipe }
  | none => form

def chooseOutput (chosen : Option CText) (isPipe : Bool) : TuiForm :=
  match chosen with
  | some t => { form with ofPath := form.ofPath.print t, ofIsPipe := isPipe }
  | none => form

/-- The fields in which the enter key changes the form. -/
def enter (a : TuiAnswers) (f : TuiField) : TuiForm :=
  match f with
  | .ifPath => form.editInput a.typed
  | .ifSearchFile | .ifSearchDev => form.chooseInput a.chosen false
  | .ifSearchPipe => form.chooseInput a.chosen true
  | .ofPath => form.editOutput a.typed
  | .ofSearchFile | .ofSearchDev => form.chooseOutput a.chosen false
  | .ofSearchPipe => form.chooseOutput a.chosen true
  | .queueDepth => { form with queueDepth := editTextModal a.typed form.queueDepth }
  | .bs => { form with bs := editTextModal a.typed form.bs }
  | .limit => { form with limit := editTextModal a.typed form.limit }
  | .count => { form with count := editTextModal a.typed form.count }
  | .skip => { form with skip := editTextModal a.typed form.skip }
  | .seek => { form with seek := editTextModal a.typed form.seek }
  | f => form.toggle f

end TuiForm

namespace TuiSession

def start : TuiSession := ⟨tuiInitForm, .ifPath, true⟩

variable (s : TuiSession)

def move (nav : TuiField → TuiField) : TuiSession := { s with activeField := nav s.activeField }

/-- What the loop does on a key. -/
def handleKey (a : TuiAnswers) (key : TuiKey) : TuiSession × List TuiEffect :=
  match key with
  | .up => (s.move .tuiNavUp, [])
  | .down => (s.move .tuiNavDown, [])
  | .left => (s.move .tuiNavLeft, [])
  | .right => (s.move .tuiNavRight, [])
  | .tab => (s.move .tab, [])
  | .btab => (s.move .backTab, [])
  | .space => ({ s with form := s.form.toggle s.activeField }, [])
  | .enter =>
    match s.activeField with
    | .btnStart => (s, executeBlkcpJob a s.form)
    | .btnSimulate => (s, simulation a s.form)
    | .btnCopy => (s, clipboard s.form)
    | .btnQuit => ({ s with running := false }, [])
    | f => ({ s with form := s.form.enter a f }, [])
  | .c => (s, clipboard s.form)
  | .s | .d => (s, simulation a s.form)
  | .q => ({ s with running := false }, [])
  | .other => (s, [])

end TuiSession

/-- A key that was handled: before, the answers, and what it did. -/
structure TuiMoment where
  session : TuiSession
  answers : TuiAnswers
  key : TuiKey
  effects : List TuiEffect

/-- The loop, as long as it runs. -/
def runTui (s : TuiSession) : List (TuiAnswers × TuiKey) → List TuiMoment
  | [] => []
  | (a, key) :: events =>
    if s.running then
      let (next, effects) := s.handleKey a key
      ⟨s, a, key, effects⟩ :: runTui next events
    else []

/-! ### The form, field by field, out of what was pressed -/

/-- A path with the fields that choose one in its place. -/
structure TuiRow where
  own : TuiField
  file : TuiField
  device : TuiField
  pipe : TuiField
  path : TuiForm → Buffer 512

def inputRow : TuiRow := ⟨.ifPath, .ifSearchFile, .ifSearchDev, .ifSearchPipe, TuiForm.ifPath⟩

def outputRow : TuiRow := ⟨.ofPath, .ofSearchFile, .ofSearchDev, .ofSearchPipe, TuiForm.ofPath⟩

namespace TuiMoment

variable (m : TuiMoment)

/-- What is typed into a field, unless it is nothing. -/
def typedInto (f : TuiField) : Option CText :=
  if m.key = .enter ∧ m.session.activeField = f ∧ m.answers.typed.text ≠ [] then
    some m.answers.typed
  else none

def chosenBy (f : TuiField) : Option CText :=
  if m.key = .enter ∧ m.session.activeField = f then m.answers.chosen else none

/-- What is typed or chosen for a path. -/
def entered (row : TuiRow) : Option CText :=
  ((m.typedInto row.own).or (m.chosenBy row.file)).or
    ((m.chosenBy row.device).or (m.chosenBy row.pipe))

def toggles (f : TuiField) : Bool :=
  (m.key = .space ∨ m.key = .enter) ∧ m.session.activeField = f

/-- The path is what a pipe was chosen for, or it starts with the sign of one as the enter key is
pressed on it. -/
def setsPipe (row : TuiRow) : Bool :=
  (m.chosenBy row.pipe).isSome ∨ (m.key = .enter ∧ m.session.activeField = row.own ∧
    (editTextModal m.answers.typed (row.path m.session.form)).text.head? = some '|')

def clearsPipe (row : TuiRow) : Bool :=
  (m.chosenBy row.file).isSome || (m.chosenBy row.device).isSome

end TuiMoment

/-- The last of the texts that were entered, in its array, or what was there at the start. -/
def lastText {size : Nat} (start : Buffer size) (entered : TuiMoment → Option CText)
    (past : List TuiMoment) : Buffer size :=
  ((past.filterMap entered).getLast?).elim start start.print

/-- Pressed an odd number of times. -/
def switched (start : Bool) (f : TuiField) (past : List TuiMoment) : Bool :=
  start ^^ past.countP (·.toggles f) % 2 == 1

/-- Set, and not cleared since then. -/
def latched (sets clears : TuiMoment → Bool) (past : List TuiMoment) : Bool :=
  past.foldl (fun b m => if sets m then true else if clears m then false else b) false

/-- What one key makes of a form, each part by itself. -/
def TuiForm.after (form : TuiForm) (m : TuiMoment) : TuiForm :=
  let text {size : Nat} (b : Buffer size) (t : Option CText) : Buffer size := t.elim b b.print
  let switch (b : Bool) (f : TuiField) : Bool := if m.toggles f then !b else b
  let pipe (b : Bool) (row : TuiRow) : Bool :=
    if m.setsPipe row then true else if m.clearsPipe row then false else b
  { ifPath := text form.ifPath (m.entered inputRow)
    ifIsPipe := pipe form.ifIsPipe inputRow
    ofPath := text form.ofPath (m.entered outputRow)
    ofIsPipe := pipe form.ofIsPipe outputRow
    engine := if m.toggles .engine then form.engine.next else form.engine
    queueDepth := text form.queueDepth (m.typedInto .queueDepth)
    bs := text form.bs (m.typedInto .bs)
    limit := text form.limit (m.typedInto .limit)
    count := text form.count (m.typedInto .count)
    skip := text form.skip (m.typedInto .skip)
    seek := text form.seek (m.typedInto .seek)
    optAutotune := switch form.optAutotune .optAutotune
    optSha256 := switch form.optSha256 .optSha256
    optDirect := switch form.optDirect .optDirect
    optForce := switch form.optForce .optForce
    optSparse := switch form.optSparse .optSparse
    optSync := switch form.optSync .optSync
    optDryRun := switch form.optDryRun .optDryRun
    statusMode := if m.toggles .status then (form.statusMode + 1) % 4 else form.statusMode }

/-- The form as what was pressed leaves it, each part by itself. -/
def formOf (past : List TuiMoment) : TuiForm where
  ifPath := lastText tuiInitForm.ifPath (·.entered inputRow) past
  ifIsPipe := latched (·.setsPipe inputRow) (·.clearsPipe inputRow) past
  ofPath := lastText tuiInitForm.ofPath (·.entered outputRow) past
  ofIsPipe := latched (·.setsPipe outputRow) (·.clearsPipe outputRow) past
  engine := TuiEngineMode.next^[past.countP (·.toggles .engine)] .auto
  queueDepth := lastText tuiInitForm.queueDepth (·.typedInto .queueDepth) past
  bs := lastText tuiInitForm.bs (·.typedInto .bs) past
  limit := lastText tuiInitForm.limit (·.typedInto .limit) past
  count := lastText tuiInitForm.count (·.typedInto .count) past
  skip := lastText tuiInitForm.skip (·.typedInto .skip) past
  seek := lastText tuiInitForm.seek (·.typedInto .seek) past
  optAutotune := switched true .optAutotune past
  optSha256 := switched false .optSha256 past
  optDirect := switched false .optDirect past
  optForce := switched false .optForce past
  optSparse := switched false .optSparse past
  optSync := switched false .optSync past
  optDryRun := switched false .optDryRun past
  statusMode := (2 + past.countP (·.toggles .status) : Nat) % 4

theorem lastText_append {size : Nat} (start : Buffer size) (entered : TuiMoment → Option CText)
    (past : List TuiMoment) (m : TuiMoment) :
    lastText start entered (past ++ [m]) =
      (entered m).elim (lastText start entered past) (lastText start entered past).print := by
  unfold lastText
  cases h : entered m with
  | none => rw [List.filterMap_append, List.filterMap_cons_none h, List.filterMap_nil,
      List.append_nil, Option.elim_none]
  | some t =>
    rw [List.filterMap_append, List.filterMap_cons_some h, List.filterMap_nil,
      List.getLast?_append_cons]
    rfl

theorem switched_append (start : Bool) (f : TuiField) (past : List TuiMoment) (m : TuiMoment) :
    switched start f (past ++ [m]) =
      if m.toggles f then !switched start f past else switched start f past := by
  unfold switched
  rw [List.countP_append, List.countP_singleton]
  cases m.toggles f with
  | false => simp
  | true =>
    rcases Nat.mod_two_eq_zero_or_one (past.countP (·.toggles f)) with h | h <;>
      simp [Nat.add_mod, h]

theorem latched_append (sets clears : TuiMoment → Bool) (past : List TuiMoment) (m : TuiMoment) :
    latched sets clears (past ++ [m]) =
      if sets m then true else if clears m then false else latched sets clears past := by
  unfold latched
  rw [List.foldl_append]
  rfl

theorem formOf_append (past : List TuiMoment) (m : TuiMoment) :
    formOf (past ++ [m]) = (formOf past).after m := by
  have hcount (f : TuiField) : (past ++ [m]).countP (·.toggles f) =
      past.countP (·.toggles f) + if m.toggles f then 1 else 0 := by
    rw [List.countP_append, List.countP_singleton]
  have hengine : (formOf (past ++ [m])).engine = ((formOf past).after m).engine := by
    change TuiEngineMode.next^[_] _ = if _ then _ else _
    rw [hcount]
    split_ifs
    · exact Function.iterate_succ_apply' _ _ _
    · rfl
  have hstatus : (formOf (past ++ [m])).statusMode = ((formOf past).after m).statusMode := by
    simp only [formOf, TuiForm.after, hcount]
    split_ifs <;> push_cast <;> omega
  unfold formOf TuiForm.after at *
  simp only [lastText_append, switched_append, latched_append] at *
  simp only [hengine, hstatus]

/-- An array that holds a character takes over some of any text. -/
theorem editTextModal_eq {size : Nat} (hsize : 2 ≤ size) (typed : CText) (target : Buffer size) :
    editTextModal typed target = if typed.text = [] then target else target.print typed := by
  have hempty : (target.print typed).text = [] ↔ typed.text = [] := by
    change typed.text.take (size - 1) = [] ↔ _
    rw [List.take_eq_nil_iff, or_iff_right (by omega)]
  unfold editTextModal
  simp only [hempty]

theorem editTextModal_typedInto {size : Nat} (hsize : 2 ≤ size) {m : TuiMoment} {f : TuiField}
    (hkey : m.key = .enter) (hfield : m.session.activeField = f) (b : Buffer size) :
    editTextModal m.answers.typed b = (m.typedInto f).elim b b.print := by
  rw [editTextModal_eq hsize]
  unfold TuiMoment.typedInto
  by_cases ht : m.answers.typed.text = []
  · rw [if_pos ht, if_neg fun h => h.2.2 ht]
    rfl
  · rw [if_neg ht, if_pos ⟨hkey, hfield, ht⟩]
    rfl

/-- What is typed for a path may make a pipe of it. -/
theorem typed_path (row : TuiRow) {m : TuiMoment} (hkey : m.key = .enter)
    (hfield : m.session.activeField = row.own) (hfile : m.chosenBy row.file = none)
    (hdevice : m.chosenBy row.device = none) (hpipe : m.chosenBy row.pipe = none)
    (path : Buffer 512) (hpath : row.path m.session.form = path) (b : Bool) :
    editTextModal m.answers.typed path = (m.entered row).elim path path.print ∧
      (b || decide ((editTextModal m.answers.typed path).text.head? = some '|')) =
        if m.setsPipe row then true else if m.clearsPipe row then false else b := by
  constructor
  · unfold TuiMoment.entered
    rw [hfile, hdevice, hpipe, Option.or_none, Option.or_none, Option.or_none]
    exact editTextModal_typedInto (by decide) hkey hfield path
  · unfold TuiMoment.setsPipe TuiMoment.clearsPipe
    rw [hfile, hdevice, hpipe, hpath]
    by_cases h : (editTextModal m.answers.typed path).text.head? = some '|'
    · simp [h, hkey, hfield]
    · simp [h]

/-- The enter key changes the part of the form that has the focus. -/
theorem enter_eq_after (form : TuiForm) (field : TuiField) (running : Bool) (a : TuiAnswers)
    (effects : List TuiEffect) :
    (TuiSession.handleKey ⟨form, field, running⟩ a .enter).1.form =
      form.after ⟨⟨form, field, running⟩, a, .enter, effects⟩ := by
  cases field with
  | ifPath =>
    obtain ⟨hpath, hpipe⟩ := typed_path inputRow
      (m := ⟨⟨form, .ifPath, running⟩, a, .enter, effects⟩) rfl rfl rfl rfl rfl form.ifPath rfl
      form.ifIsPipe
    exact congrArg₂ (fun p b => { form with ifPath := p, ifIsPipe := b }) hpath hpipe
  | ofPath =>
    obtain ⟨hpath, hpipe⟩ := typed_path outputRow
      (m := ⟨⟨form, .ofPath, running⟩, a, .enter, effects⟩) rfl rfl rfl rfl rfl form.ofPath rfl
      form.ofIsPipe
    exact congrArg₂ (fun p b => { form with ofPath := p, ofIsPipe := b }) hpath hpipe
  | queueDepth =>
    exact congrArg (fun b => { form with queueDepth := b }) (editTextModal_typedInto
      (m := ⟨⟨form, .queueDepth, running⟩, a, .enter, effects⟩) (by decide) rfl rfl form.queueDepth)
  | bs =>
    exact congrArg (fun b => { form with bs := b }) (editTextModal_typedInto
      (m := ⟨⟨form, .bs, running⟩, a, .enter, effects⟩) (by decide) rfl rfl form.bs)
  | limit =>
    exact congrArg (fun b => { form with limit := b }) (editTextModal_typedInto
      (m := ⟨⟨form, .limit, running⟩, a, .enter, effects⟩) (by decide) rfl rfl form.limit)
  | count =>
    exact congrArg (fun b => { form with count := b }) (editTextModal_typedInto
      (m := ⟨⟨form, .count, running⟩, a, .enter, effects⟩) (by decide) rfl rfl form.count)
  | skip =>
    exact congrArg (fun b => { form with skip := b }) (editTextModal_typedInto
      (m := ⟨⟨form, .skip, running⟩, a, .enter, effects⟩) (by decide) rfl rfl form.skip)
  | seek =>
    exact congrArg (fun b => { form with seek := b }) (editTextModal_typedInto
      (m := ⟨⟨form, .seek, running⟩, a, .enter, effects⟩) (by decide) rfl rfl form.seek)
  | ifSearchFile | ifSearchDev | ifSearchPipe | ofSearchFile | ofSearchDev | ofSearchPipe =>
    obtain ⟨typed, chosen, warned, cwd, isBlockDevice⟩ := a
    cases chosen <;> rfl
  | _ => rfl

/-- A key changes the form only where it works. -/
theorem form_handleKey (m : TuiMoment) :
    (m.session.handleKey m.answers m.key).1.form = m.session.form.after m := by
  obtain ⟨⟨form, field, running⟩, a, key, effects⟩ := m
  cases key with
  | enter => exact enter_eq_after form field running a effects
  | space => cases field <;> rfl
  | _ => rfl

/-- In a run that goes on from a form with a past, every key meets the form that the past and the
keys before it make. -/
theorem runTui_form {events : List (TuiAnswers × TuiKey)} {s : TuiSession}
    {earlier past rest : List TuiMoment} {m : TuiMoment} (hs : s.form = formOf earlier)
    (h : runTui s events = past ++ m :: rest) :
    m.session.form = formOf (earlier ++ past) ∧
      m.effects = (m.session.handleKey m.answers m.key).2 := by
  induction events generalizing s earlier past with
  | nil => cases past <;> cases h
  | cons e events ih =>
    obtain ⟨a, key⟩ := e
    unfold runTui at h
    split_ifs at h
    · cases past with
      | nil =>
        obtain ⟨rfl, -⟩ := List.cons.inj h
        rw [List.append_nil]
        exact ⟨hs, rfl⟩
      | cons first past =>
        obtain ⟨rfl, hrest⟩ := List.cons.inj h
        have hnext : (s.handleKey a key).1.form =
            formOf (earlier ++ [⟨s, a, key, (s.handleKey a key).2⟩]) := by
          rw [formOf_append, ← hs]
          exact form_handleKey ⟨s, a, key, (s.handleKey a key).2⟩
        obtain ⟨hform, heffects⟩ := ih hnext hrest
        rw [List.append_assoc] at hform
        exact ⟨hform, heffects⟩
    · cases past <;> cases h

/-! ### What is copied -/

/-- The start button was pressed on this form, and the command is that of the form. For a device the
question about this very path was answered with yes right before. -/
structure Confirmed (form : TuiForm) (m : TuiMoment) (command : CStr) : Prop where
  pressed : m.key = .enter ∧ m.session.activeField = .btnStart
  real : form.optDryRun = false
  paths : form.ifPath.text ≠ [] ∧ form.ofPath.text ≠ []
  line : command = jobCommand form m.answers.cwd
  answered : m.effects =
    if m.answers.isBlockDevice form.ofPath.text then
      [.warned form.ofPath.text (some true), .copies command]
    else [.copies command]

theorem copies_simulation {a : TuiAnswers} {form : TuiForm} {command : CStr} :
    .copies command ∉ simulation a form := by
  unfold simulation
  cases executeDryRunSimulation form a.cwd <;> simp

/-- What the start button asks for before it copies. -/
theorem executeBlkcpJob_copies {a : TuiAnswers} {form : TuiForm} {command : CStr}
    (h : .copies command ∈ executeBlkcpJob a form) :
    (form.ifPath.text ≠ [] ∧ form.ofPath.text ≠ []) ∧ form.optDryRun = false ∧
      command = jobCommand form a.cwd ∧
      executeBlkcpJob a form =
        if a.isBlockDevice form.ofPath.text then
          [.warned form.ofPath.text (some true), .copies command]
        else [.copies command] := by
  unfold executeBlkcpJob at h ⊢
  split_ifs at h with hpaths hdry hdevice
  · exact absurd h List.not_mem_nil
  · exact absurd h copies_simulation
  · rw [if_neg hpaths, if_neg hdry, if_pos hdevice, if_pos hdevice]
    rcases List.mem_cons.mp h with h | h
    · cases h
    · split_ifs at h with hyes
      · obtain rfl := TuiEffect.copies.inj (List.mem_singleton.mp h)
        refine ⟨not_or.mp hpaths, Bool.eq_false_of_not_eq_true hdry, rfl, ?_⟩
        simp only [hyes, if_true]
      · exact absurd h List.not_mem_nil
  · rw [if_neg hpaths, if_neg hdry, if_neg hdevice, if_neg hdevice]
    obtain rfl := TuiEffect.copies.inj (List.mem_singleton.mp h)
    exact ⟨not_or.mp hpaths, Bool.eq_false_of_not_eq_true hdry, rfl, rfl⟩

/-- Only the button that starts a copy starts one. -/
theorem pressed_of_copies {s : TuiSession} {a : TuiAnswers} {key : TuiKey} {command : CStr}
    (h : .copies command ∈ (s.handleKey a key).2) :
    key = .enter ∧ s.activeField = .btnStart ∧
      (s.handleKey a key).2 = executeBlkcpJob a s.form := by
  obtain ⟨form, field, running⟩ := s
  have hclip : .copies command ∉ clipboard form := by simp [clipboard]
  cases key with
  | enter =>
    cases field with
    | btnStart => exact ⟨rfl, rfl, rfl⟩
    | btnSimulate => exact absurd h copies_simulation
    | btnCopy => exact absurd h hclip
    | _ => exact absurd h List.not_mem_nil
  | c => exact absurd h hclip
  | s => exact absurd h copies_simulation
  | d => exact absurd h copies_simulation
  | _ => exact absurd h List.not_mem_nil

/-- Whatever is pressed: each part of the form is what was last entered there, and a copy is one
that was asked for with this form. -/
theorem copies_confirmed {events : List (TuiAnswers × TuiKey)} {past rest : List TuiMoment}
    {m : TuiMoment} (hrun : runTui .start events = past ++ m :: rest) :
    m.session.form = formOf past ∧
      ∀ command, .copies command ∈ m.effects → Confirmed (formOf past) m command := by
  have hstart : TuiSession.start.form = formOf [] := rfl
  obtain ⟨hform, heffects⟩ := runTui_form hstart hrun
  rw [List.nil_append] at hform
  refine ⟨hform, fun command h => ?_⟩
  rw [heffects] at h
  obtain ⟨hkey, hfield, hjob⟩ := pressed_of_copies h
  rw [hjob, hform] at h heffects
  obtain ⟨hpaths, hreal, hline, hjob⟩ := executeBlkcpJob_copies h
  exact ⟨⟨hkey, hfield⟩, hreal, hpaths, hline, heffects.trans hjob⟩

/-- Someone who types a path and says yes in the end. -/
def answering (path : Buffer 512) : TuiAnswers where
  typed := ⟨path.text, path.nonul⟩
  chosen := none
  warned := ['x', 'j']
  cwd := none
  isBlockDevice path := path = "/dev/sdb".toList

def toDevice : List (TuiAnswers × TuiKey) :=
  let a := answering shortPaths.ifPath
  let b := answering shortPaths.ofPath
  [(a, .enter), (a, .down), (b, .enter), (b, .up), (b, .up), (b, .enter)]

theorem copies_confirmed_device :
    ∃ past m, runTui .start toDevice = past ++ [m] ∧
      (formOf past).ofPath.text = "/dev/sdb".toList ∧
      Confirmed (formOf past) m
        "./blkcp -i \"/dev/sda\" -o \"/dev/sdb\" -b auto -p 2>&1".toList := by
  have hrun : runTui .start toDevice = (runTui .start toDevice).take 5 ++
      [⟨⟨formOf ((runTui .start toDevice).take 5), .btnStart, true⟩,
        answering shortPaths.ofPath, .enter, _⟩] := rfl
  exact ⟨_, _, hrun, rfl, (copies_confirmed hrun).2 _ (by decide)⟩

end Blkcp.C
