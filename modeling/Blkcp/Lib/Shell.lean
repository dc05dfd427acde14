import Blkcp.Lib.Scan
set_option autoImplicit false

/-! How a POSIX shell cuts a command line into words and commands: quoting, comments, pipelines and
output redirections. A line with another operator, or with something that the shell would expand, is
`unsupported`. -/

namespace Blkcp.Lib.Shell

abbrev Word := List Char

inductive Fault where
  /-- The line ends inside quotes. -/
  | unterminated
  /-- No command has this form. -/
  | malformed
  | unsupported
  deriving DecidableEq

/-- A word, with whether some of it was quoted. A redirection is for the word after it. -/
inductive Token where
  | word (text : Word) (quoted : Bool)
  | pipe
  | redirect
  deriving DecidableEq

inductive Mode where
  | blank | redirect | word | escape | single | double | doubleEscape | comment
  deriving DecidableEq

/-- Where the reader stands, and the word that it is in. -/
structure State where
  mode : Mode := .blank
  text : Word := []
  quoted : Bool := false
  deriving DecidableEq

/-- Operators that are not read here, and what starts an expansion outside quotes. -/
def special (c : Char) : Bool :=
  ['$', '\x60', '*', '?', '[', '<', '&', ';', '(', ')', '\n'].contains c

/-- What a backslash inside double quotes takes its meaning from. -/
def escapable (c : Char) : Bool := ['$', '\x60', '"', '\\'].contains c

def isBlank (c : Char) : Bool := c == ' ' || c == '\t'

namespace State

variable (s : State)

def add (c : Char) (mode : Mode) : State := ⟨mode, s.text ++ [c], s.quoted⟩

/-- The word, unless it is the number of the file that a redirection is about. -/
def beforeRedirect : List Token :=
  if s.quoted = false ∧ s.text ≠ [] ∧ s.text.all Char.isDigit then [] else [.word s.text s.quoted]

/-- A character outside quotes that does not end a word. -/
def inWord (c : Char) : Except Fault (List Token × State) :=
  if c = '\'' then .ok ([], ⟨.single, s.text, true⟩)
  else if c = '"' then .ok ([], ⟨.double, s.text, true⟩)
  else if c = '\\' then .ok ([], { s with mode := .escape })
  else if special c then .error .unsupported
  else .ok ([], s.add c .word)

/-- A character between words. -/
def between (c : Char) : Except Fault (List Token × State) :=
  if isBlank c then .ok ([], {})
  else if c = '#' then .ok ([], ⟨.comment, [], false⟩)
  else if c = '|' then .ok ([.pipe], {})
  else if c = '>' then .ok ([.redirect], ⟨.redirect, [], false⟩)
  else if c = '~' then .error .unsupported
  else inWord {} c

def step (c : Char) : Except Fault (List Token × State) :=
  match s.mode with
  | .blank => between c
  -- `>&`, `>>` and `>|` redirect as well
  | .redirect => if c = '&' ∨ c = '>' ∨ c = '|' then .ok ([], {}) else between c
  | .word =>
    if isBlank c then .ok ([.word s.text s.quoted], {})
    else if c = '|' then .ok ([.word s.text s.quoted, .pipe], {})
    else if c = '>' then .ok (s.beforeRedirect ++ [.redirect], ⟨.redirect, [], false⟩)
    else s.inWord c
  | .escape =>
    -- a line that is continued
    if c = '\n' then .ok ([], if s.text = [] ∧ s.quoted = false then {} else { s with mode := .word })
    else .ok ([], { s.add c .word with quoted := true })
  | .single =>
    if c = '\'' then .ok ([], { s with mode := .word }) else .ok ([], s.add c .single)
  | .double =>
    if c = '"' then .ok ([], { s with mode := .word })
    else if c = '\\' then .ok ([], { s with mode := .doubleEscape })
    else if c = '$' ∨ c = '\x60' then .error .unsupported
    else .ok ([], s.add c .double)
  | .doubleEscape =>
    if c = '\n' then .ok ([], { s with mode := .double })
    else if escapable c then .ok ([], s.add c .double)
    else .ok ([], (s.add '\\' .double).add c .double)
  | .comment => if c = '\n' then .error .unsupported else .ok ([], s)

def close : Except Fault (List Token) :=
  match s.mode with
  | .word => .ok [.word s.text s.quoted]
  | .single | .double | .doubleEscape => .error .unterminated
  | .escape => .error .unsupported
  | .blank | .redirect | .comment => .ok []

end State

abbrev reader : Scanner State Char Token Fault := ⟨State.step, State.close⟩

/-- The commands of a pipeline, each with its words. -/
def commands : List Token → Except Fault (List (List (Word × Bool)))
  | [] => .ok [[]]
  | .pipe :: ts => do
    let cs ← commands ts
    .ok ([] :: cs)
  | .redirect :: .word _ _ :: ts => commands ts
  | .redirect :: _ => .error .malformed
  | .word w q :: ts => do
    match ← commands ts with
    | c :: cs => .ok (((w, q) :: c) :: cs)
    | [] => .ok [[(w, q)]]

def reserved (name : Word) : Bool :=
  ["if", "then", "else", "elif", "fi", "do", "done", "case", "esac", "while", "until", "for",
    "\x7b", "\x7d", "!"].any fun w => w.toList == name

/-- A simple command: its name is none of the words that compound commands are made of, and no
assignment. Such a word on its own makes no command. -/
def simple (c : List (Word × Bool)) : Except Fault (List Word) :=
  match c with
  | [] => .error .unsupported
  | (name, quoted) :: args =>
    if quoted = false ∧ reserved name then
      if args = [] then .error .malformed else .error .unsupported
    else if '=' ∈ name then .error .unsupported
    else .ok (name :: args.map (·.1))

/-- The commands that the shell runs for a line, as their words. -/
def parse (line : List Char) : Except Fault (List (List Word)) := do
  let ts ← reader.read {} line
  let cs ← commands ts
  cs.mapM simple

/-- The words that a text adds behind the name of a simple command. -/
def arguments (text : List Char) : Except Fault (List Word) := do
  let ts ← reader.read {} text
  match ← commands ts with
  | [c] => .ok (c.map (·.1))
  | _ => .error .unsupported

/-- A character that stands for itself wherever it is. -/
def ordinary (c : Char) : Bool :=
  !(isBlank c || special c || ['\'', '"', '\\', '|', '>', '#', '~'].contains c)

theorem ordinary_iff {c : Char} :
    ordinary c = true ↔ isBlank c = false ∧ special c = false ∧ c ≠ '\'' ∧ c ≠ '"' ∧ c ≠ '\\' ∧
      c ≠ '|' ∧ c ≠ '>' ∧ c ≠ '#' ∧ c ≠ '~' := by
  simp [ordinary, and_assoc]

/-- A text that double quotes keep as it is. -/
def literal : List Char → Bool
  | [] => true
  | c :: cs =>
    if c = '\\' then
      match cs with
      | [] => false
      | d :: _ => !(escapable d || d == '\n') && literal cs
    else !(c == '$' || c == '\x60' || c == '"') && literal cs

namespace State

theorem step_ordinary {c : Char} (h : ordinary c = true) (w : Word) (q : Bool) :
    step ⟨.word, w, q⟩ c = .ok ([], ⟨.word, w ++ [c], q⟩) := by
  obtain ⟨hb, hs, h1, h2, h3, h4, h5, -, -⟩ := ordinary_iff.mp h
  simp [step, inWord, add, hb, hs, h1, h2, h3, h4, h5]

theorem start_ordinary {c : Char} (h : ordinary c = true) :
    step {} c = .ok ([], ⟨.word, [c], false⟩) := by
  obtain ⟨hb, hs, h1, h2, h3, h4, h5, h6, h7⟩ := ordinary_iff.mp h
  simp [step, between, inWord, add, hb, hs, h1, h2, h3, h4, h5, h6, h7]

theorem run_ordinary {p : Word} (hp : ∀ c ∈ p, ordinary c = true) (w : Word) (q : Bool) :
    reader.run ⟨.word, w, q⟩ p = .ok ([], ⟨.word, w ++ p, q⟩) := by
  induction p generalizing w with
  | nil => rw [List.append_nil]; rfl
  | cons c p ih =>
    rw [reader.run_of_quiet_step (step_ordinary (hp c List.mem_cons_self) w q),
      ih fun d hd => hp d (List.mem_cons_of_mem c hd), List.append_assoc, List.singleton_append]

/-- An ordinary word, read from between two words. -/
theorem run_word {p : Word} (hp : ∀ c ∈ p, ordinary c = true) (hne : p ≠ []) :
    reader.run {} p = .ok ([], ⟨.word, p, false⟩) := by
  cases p with
  | nil => exact absurd rfl hne
  | cons c p =>
    rw [reader.run_of_quiet_step (start_ordinary (hp c List.mem_cons_self)),
      run_ordinary fun d hd => hp d (List.mem_cons_of_mem c hd), List.singleton_append]

theorem step_blank (w : Word) (q : Bool) :
    step ⟨.word, w, q⟩ ' ' = .ok ([.word w q], {}) := rfl

/-- Before such a character a backslash stands for itself. -/
theorem step_doubleEscape {d : Char} (hd : escapable d = false) (hn : d ≠ '\n') (w : Word) :
    reader.step ⟨.doubleEscape, w, true⟩ d = reader.step ⟨.double, w ++ ['\\'], true⟩ d := by
  have hd' : d ≠ '$' ∧ d ≠ '\x60' ∧ d ≠ '"' ∧ d ≠ '\\' := by simpa [escapable] using hd
  simp [step, add, hd, hn, hd']

/-- A literal text between double quotes. -/
theorem run_literal {p : List Char} (hp : literal p = true) (w : Word) :
    reader.run ⟨.double, w, true⟩ p = .ok ([], ⟨.double, w ++ p, true⟩) := by
  induction p generalizing w with
  | nil => rw [List.append_nil]; rfl
  | cons c cs ih =>
    unfold literal at hp
    by_cases hc : c = '\\'
    · subst hc
      rw [if_pos rfl] at hp
      cases cs with
      | nil => exact absurd hp Bool.false_ne_true
      | cons d cs =>
        rw [Bool.and_eq_true, Bool.not_eq_true', Bool.or_eq_false_iff] at hp
        have hd : d ≠ '\n' := by simpa using hp.1.2
        have hstep : step ⟨.double, w, true⟩ '\\' = .ok ([], ⟨.doubleEscape, w, true⟩) := rfl
        rw [reader.run_of_quiet_step hstep, reader.run_congr (step_doubleEscape hp.1.1 hd w), ih hp.2,
          List.append_assoc, List.singleton_append]
    · rw [if_neg hc, Bool.and_eq_true] at hp
      have hc' : c ≠ '$' ∧ c ≠ '\x60' ∧ c ≠ '"' := by simpa [and_assoc] using hp.1
      have hstep : step ⟨.double, w, true⟩ c = .ok ([], ⟨.double, w ++ [c], true⟩) := by
        simp [step, add, hc, hc']
      rw [reader.run_of_quiet_step hstep, ih hp.2, List.append_assoc, List.singleton_append]

/-- Inside a word of which something was quoted. -/
def Inside (s : State) : Prop :=
  s.quoted = true ∧ s.mode ≠ .blank ∧ s.mode ≠ .redirect ∧ s.mode ≠ .comment

/-- How far a reader in some mode has fallen behind a text that contains quotes and that it is to
read as a word just like itself. -/
def lag : Mode → Nat
  | .word | .double => 1
  | _ => 2

theorem one_le_lag (m : Mode) : 1 ≤ lag m := by cases m <;> decide

/-- Quotes that have to be closed before the word can end. -/
def owed : Mode → Nat
  | .single | .double => 1
  | _ => 0

/-- One character `c` inside a word, and what is kept of it. -/
structure Keeps (s t : State) (c : Char) (kept : List Char) : Prop where
  inside : t.Inside
  text : t.text = s.text ++ kept
  blank : c ∈ kept ∨ c ≠ ' '
  lag : lag t.mode + kept.length ≤ lag s.mode + 1
  owed : kept.length + owed s.mode ≤ owed t.mode + 1

/-- What one character does inside a word: it ends it, or some of it is kept. -/
theorem step_inside {s t : State} (hs : s.Inside) {c : Char} {out : List Token}
    (h : s.step c = .ok (out, t)) :
    s.mode = .word ∧ (∃ more, out = .word s.text true :: more) ∨
      out = [] ∧ ∃ kept, Keeps s t c kept := by
  obtain ⟨mode, w, q⟩ := s
  obtain ⟨hq, hb, hr, hc⟩ := hs
  subst hq
  have hdrop : ∀ m m' : Mode, m' ≠ .blank ∧ m' ≠ .redirect ∧ m' ≠ .comment → c ≠ ' ' →
      lag m' ≤ lag m + 1 → owed m ≤ owed m' + 1 → Keeps ⟨m, w, true⟩ ⟨m', w, true⟩ c [] :=
    fun m m' hm hblank hl ho => ⟨⟨rfl, hm⟩, (List.append_nil w).symm, .inr hblank, by simpa using hl,
      by simpa using ho⟩
  have hkeep : ∀ m m' : Mode, m' ≠ .blank ∧ m' ≠ .redirect ∧ m' ≠ .comment →
      lag m' ≤ lag m → owed m ≤ owed m' → Keeps ⟨m, w, true⟩ ⟨m', w ++ [c], true⟩ c [c] :=
    fun m m' hm hl ho => ⟨⟨rfl, hm⟩, rfl, .inl List.mem_cons_self, by simpa using hl,
      by rw [List.length_singleton, Nat.add_comm]; exact Nat.add_le_add_right ho 1⟩
  cases mode with
  | blank => exact absurd rfl hb
  | redirect => exact absurd rfl hr
  | comment => exact absurd rfl hc
  | word =>
    simp only [step] at h
    split_ifs at h
    · cases h
      exact .inl ⟨rfl, [], rfl⟩
    · cases h
      exact .inl ⟨rfl, [.pipe], rfl⟩
    · cases h
      exact .inl ⟨rfl, [.redirect], rfl⟩
    · unfold inWord at h
      split_ifs at h with h1 h2 h3 h4 <;> cases h
      · exact .inr ⟨rfl, [], hdrop _ _ (by decide) (by rw [h1]; decide) (by decide) (by decide)⟩
      · exact .inr ⟨rfl, [], hdrop _ _ (by decide) (by rw [h2]; decide) (by decide) (by decide)⟩
      · exact .inr ⟨rfl, [], hdrop _ _ (by decide) (by rw [h3]; decide) (by decide) (by decide)⟩
      · exact .inr ⟨rfl, [c], hkeep _ _ (by decide) (by decide) (by decide)⟩
  | escape =>
    simp only [step, Bool.true_eq_false, and_false, if_false] at h
    split_ifs at h with h1 <;> cases h
    · exact .inr ⟨rfl, [], hdrop _ _ (by decide) (by rw [h1]; decide) (by decide) (by decide)⟩
    · exact .inr ⟨rfl, [c], hkeep .escape .word (by decide) (by decide) (by decide)⟩
  | single =>
    simp only [step] at h
    split_ifs at h with h1 <;> cases h
    · exact .inr ⟨rfl, [], hdrop _ _ (by decide) (by rw [h1]; decide) (by decide) (by decide)⟩
    · exact .inr ⟨rfl, [c], hkeep _ _ (by decide) (by decide) (by decide)⟩
  | double =>
    simp only [step] at h
    split_ifs at h with h1 h2 <;> cases h
    · exact .inr ⟨rfl, [], hdrop _ _ (by decide) (by rw [h1]; decide) (by decide) (by decide)⟩
    · exact .inr ⟨rfl, [], hdrop _ _ (by decide) (by rw [h2]; decide) (by decide) (by decide)⟩
    · exact .inr ⟨rfl, [c], hkeep _ _ (by decide) (by decide) (by decide)⟩
  | doubleEscape =>
    simp only [step] at h
    split_ifs at h with h1 <;> cases h
    · exact .inr ⟨rfl, [], hdrop _ _ (by decide) (by rw [h1]; decide) (by decide) (by decide)⟩
    · exact .inr ⟨rfl, [c], hkeep _ _ (by decide) (by decide) (by decide)⟩
    · exact .inr ⟨rfl, ['\\', c], ⟨⟨rfl, by simp [add]⟩, by simp [add], .inl (by simp),
        by simp [lag, add], by simp [owed, add]⟩⟩

/-- The first character of what is left to read: the word ends before it, or it stays inside. -/
theorem read_inside {s : State} (hs : s.Inside) {c : Char} {cs : List Char} {w : Word} {q : Bool}
    {ts : List Token} (h : reader.read s (c :: cs) = .ok (.word w q :: ts)) :
    s.mode = .word ∧ w = s.text ∨
      ∃ t kept, s.step c = .ok ([], t) ∧ Keeps s t c kept ∧ reader.read t cs = .ok (.word w q :: ts) := by
  cases hstep : s.step c with
  | error e =>
    rw [reader.read_of_error hstep] at h
    cases h
  | ok p =>
    obtain ⟨out, t⟩ := p
    rcases step_inside hs hstep with ⟨hm, more, rfl⟩ | ⟨rfl, kept, hkept⟩
    · rw [reader.read_of_step hstep] at h
      cases hr : reader.read t cs with
      | error e =>
        rw [hr] at h
        cases h
      | ok toks =>
        rw [hr] at h
        cases h
        exact .inl ⟨hm, rfl⟩
    · rw [reader.read_of_quiet_step hstep] at h
      exact .inr ⟨t, kept, rfl, hkept, h⟩

theorem read_nil_inside {s : State} {w : Word} {q : Bool} {ts : List Token}
    (h : reader.read s [] = .ok (.word w q :: ts)) : s.mode = .word ∧ w = s.text := by
  rw [reader.read_nil] at h
  change s.close = _ at h
  unfold close at h
  split at h <;> cases h
  exact ⟨‹_›, rfl⟩

/-- A word that is being read keeps what is read of it. -/
theorem prefix_of_read {s : State} (hs : s.Inside) {cs : List Char} {w : Word} {q : Bool}
    {ts : List Token} (h : reader.read s cs = .ok (.word w q :: ts)) : s.text <+: w := by
  induction cs generalizing s with
  | nil =>
    obtain ⟨-, rfl⟩ := read_nil_inside h
    exact List.prefix_refl _
  | cons c cs ih =>
    rcases read_inside hs h with ⟨-, rfl⟩ | ⟨t, kept, -, hk, hr⟩
    · exact List.prefix_refl _
    · have hw := ih hk.inside hr
      rw [hk.text] at hw
      exact (List.prefix_append _ _).trans hw

/-- A word has no more characters than were read for it, and quotes are not among them. -/
theorem length_of_read {s : State} (hs : s.Inside) {cs : List Char} {w : Word} {q : Bool}
    {ts : List Token} (h : reader.read s cs = .ok (.word w q :: ts)) :
    w.length + owed s.mode ≤ s.text.length + cs.length := by
  induction cs generalizing s with
  | nil =>
    obtain ⟨hm, hw⟩ := read_nil_inside h
    rw [hm, hw]
    exact Nat.le_refl _
  | cons c cs ih =>
    rcases read_inside hs h with ⟨hm, hw⟩ | ⟨t, kept, -, hk, hr⟩
    · rw [hm, hw]
      exact Nat.le_add_right _ _
    · have hlen := ih hk.inside hr
      have howed := hk.owed
      rw [hk.text, List.length_append] at hlen
      rw [List.length_cons]
      omega

/-- A double quote, read inside a word. -/
theorem step_quote {s : State} (hs : s.Inside) :
    ∃ t kept, s.step '"' = .ok ([], t) ∧ t.Inside ∧
      (t.mode = .word ∨ t.mode = .single ∨ t.mode = .double) ∧
      t.text = s.text ++ kept ∧ kept.length < lag s.mode := by
  obtain ⟨mode, w, q⟩ := s
  obtain ⟨hq, hb, hr, hc⟩ := hs
  subst hq
  cases mode with
  | blank => exact absurd rfl hb
  | redirect => exact absurd rfl hr
  | comment => exact absurd rfl hc
  | word => exact ⟨⟨.double, w, true⟩, [], rfl, by simp [Inside], by simp, by simp, by simp [lag]⟩
  | double => exact ⟨⟨.word, w, true⟩, [], rfl, by simp [Inside], by simp, by simp, by simp [lag]⟩
  | escape =>
    exact ⟨⟨.word, w ++ ['"'], true⟩, ['"'], rfl, by simp [Inside], by simp, by simp, by simp [lag]⟩
  | single =>
    exact ⟨⟨.single, w ++ ['"'], true⟩, ['"'], rfl, by simp [Inside], by simp, by simp, by simp [lag]⟩
  | doubleEscape =>
    exact ⟨⟨.double, w ++ ['"'], true⟩, ['"'], rfl, by simp [Inside], by simp, by simp, by simp [lag]⟩

/-- Behind the quote that ends a text, the word ends or a blank belongs to it. -/
theorem read_rest {rest : List Char} (hrest : rest = [] ∨ ∃ more, rest = ' ' :: more) {t : State}
    (ht : t.Inside) (hm : t.mode = .word ∨ t.mode = .single ∨ t.mode = .double) {w : Word}
    {q : Bool} {ts : List Token} (h : reader.read t rest = .ok (.word w q :: ts)) :
    w = t.text ∨ t.mode ≠ .word ∧ t.text ++ [' '] <+: w := by
  rcases hrest with rfl | ⟨more, rfl⟩
  · exact .inl (read_nil_inside h).2
  · rcases read_inside ht h with ⟨-, hw⟩ | ⟨v, kept, hv, hk, hr⟩
    · exact .inl hw
    · have hpre := prefix_of_read hk.inside hr
      rcases hm with hm | hm | hm <;> simp [step, hm, isBlank] at hv <;>
        exact .inr ⟨by rw [hm]; decide, by rwa [← hv] at hpre⟩

/-- A reader that has fallen behind the text stays behind it: the word that it reads is not the
text. `u` is what it has read of the text and not kept; it never catches up, since the text goes on
with a quote and a blank, and `u` has no blank. -/
theorem read_behind {rest : List Char} (hrest : rest = [] ∨ ∃ more, rest = ' ' :: more)
    (r x : List Char) {s : State} (hs : s.Inside) {u : List Char} (hu : ' ' ∉ u)
    (hlag : lag s.mode ≤ u.length) (q : Bool) (ts : List Token) :
    reader.read s (r ++ '"' :: rest) ≠ .ok (.word (s.text ++ (u ++ (r ++ x))) q :: ts) := by
  induction r generalizing s u with
  | nil =>
    intro h
    obtain ⟨t, kept, hstep, ht, hm, he, hk⟩ := step_quote hs
    rw [List.nil_append, reader.read_of_quiet_step hstep] at h
    rcases read_rest hrest ht hm h with hw | ⟨-, hw⟩
    · have hlen := congrArg List.length hw
      simp only [he, List.length_append] at hlen
      omega
    · rw [he, List.append_assoc, List.prefix_append_right_inj] at hw
      have hpre : kept ++ [' '] <+: u :=
        List.prefix_of_prefix_length_le hw (List.prefix_append _ _)
          (by rw [List.length_append, List.length_singleton]; omega)
      exact hu (hpre.subset (List.mem_append_right _ (List.mem_singleton.mpr rfl)))
  | cons c r ih =>
    intro h
    rcases read_inside hs h with ⟨-, hw⟩ | ⟨t, kept, -, hk, hr⟩
    · have hlen := congrArg List.length hw
      have := one_le_lag s.mode
      simp only [List.length_append] at hlen
      omega
    · have hone := one_le_lag t.mode
      have hl := hk.lag
      have hpre := prefix_of_read hk.inside hr
      rw [hk.text, List.prefix_append_right_inj] at hpre
      -- what was kept is the start of what was left to keep
      obtain ⟨u', rfl⟩ : kept <+: u :=
        List.prefix_of_prefix_length_le hpre (List.prefix_append _ _) (by omega)
      have hu' : ' ' ∉ u' ++ [c] := by
        intro hmem
        rcases List.mem_append.mp hmem with hmem | hmem
        · exact hu (List.mem_append_right _ hmem)
        · rcases hk.blank with hc | hc
          · exact hu (List.mem_append_left _ (List.mem_singleton.mp hmem ▸ hc))
          · exact hc (List.mem_singleton.mp hmem).symm
      refine ih hk.inside hu' ?_ ?_
      · simp only [List.length_append, List.length_singleton] at hlag ⊢
        omega
      · rw [hk.text]
        simpa [List.append_assoc] using hr

theorem inside_double (w : Word) : Inside ⟨.double, w, true⟩ := by simp [Inside]

/-- A backslash inside double quotes that comes out as it went in stood for itself. -/
theorem backslash_of_read {rest : List Char} (hrest : rest = [] ∨ ∃ more, rest = ' ' :: more)
    {p x : List Char} {w : Word} {q : Bool} {ts : List Token}
    (h : reader.read ⟨.double, w, true⟩ ('\\' :: (p ++ '"' :: rest)) =
      .ok (.word (w ++ '\\' :: (p ++ x)) q :: ts)) :
    ∃ d p', p = d :: p' ∧ escapable d = false ∧ d ≠ '\n' ∧
      reader.read ⟨.double, w ++ ['\\'], true⟩ (p ++ '"' :: rest) =
        .ok (.word (w ++ '\\' :: (p ++ x)) q :: ts) := by
  have hstep : step ⟨.double, w, true⟩ '\\' = .ok ([], ⟨.doubleEscape, w, true⟩) := rfl
  rw [reader.read_of_quiet_step hstep] at h
  cases p with
  | nil =>
    have hq : step ⟨.doubleEscape, w, true⟩ '"' = .ok ([], ⟨.double, w ++ ['"'], true⟩) := rfl
    rw [List.nil_append, reader.read_of_quiet_step hq] at h
    have hpre := prefix_of_read (inside_double _) h
    simp at hpre
  | cons d p =>
    rw [List.cons_append] at h
    by_cases hn : d = '\n'
    · subst hn
      have hq : step ⟨.doubleEscape, w, true⟩ '\n' = .ok ([], ⟨.double, w, true⟩) := rfl
      rw [reader.read_of_quiet_step hq] at h
      exact absurd h (read_behind hrest p x (inside_double w) (u := ['\\', '\n']) (by decide)
        (by simp [lag]) q ts)
    · cases hd : escapable d with
      | true =>
        have hq : step ⟨.doubleEscape, w, true⟩ d = .ok ([], ⟨.double, w ++ [d], true⟩) := by
          simp [step, add, hn, hd]
        rw [reader.read_of_quiet_step hq] at h
        -- it is a second backslash, and one of the two is gone
        have hpre := prefix_of_read (inside_double _) h
        rw [List.prefix_append_right_inj, List.cons_append, List.cons_prefix_cons] at hpre
        obtain ⟨rfl, -⟩ := hpre
        refine absurd h ?_
        simpa [List.append_assoc] using
          read_behind hrest p x (inside_double (w ++ ['\\'])) (u := ['\\']) (by decide)
            (by simp [lag]) q ts
      | false =>
        rw [reader.read_congr (step_doubleEscape hd hn w)] at h
        exact ⟨d, p, rfl, hd, hn, h⟩

/-- Only a literal text comes out of double quotes as it went in. `x` is what was cut off it. -/
theorem literal_of_read {rest : List Char} (hrest : rest = [] ∨ ∃ more, rest = ' ' :: more)
    (p x : List Char) {w : Word} {q : Bool} {ts : List Token}
    (h : reader.read ⟨.double, w, true⟩ (p ++ '"' :: rest) = .ok (.word (w ++ (p ++ x)) q :: ts)) :
    literal p = true ∧ x = [] := by
  have hword : ∀ w, Inside ⟨.word, w, true⟩ := fun w => by simp [Inside]
  induction p generalizing w with
  | nil =>
    have hstep : step ⟨.double, w, true⟩ '"' = .ok ([], ⟨.word, w, true⟩) := rfl
    rw [List.nil_append, reader.read_of_quiet_step hstep] at h
    rcases read_rest hrest (hword w) (.inl rfl) h with hw | ⟨hne, -⟩
    · simpa [literal] using hw
    · exact absurd rfl hne
  | cons c p ih =>
    have hsplit : w ++ (c :: p ++ x) = w ++ [c] ++ (p ++ x) := by
      rw [List.append_assoc, List.cons_append, List.singleton_append]
    rw [List.cons_append] at h
    unfold literal
    by_cases hc : c = '\\'
    · subst hc
      rw [if_pos rfl]
      obtain ⟨d, p, rfl, hd, hn, hr⟩ := backslash_of_read hrest h
      rw [show w ++ '\\' :: (d :: p ++ x) = w ++ ['\\'] ++ (d :: p ++ x) by simp] at hr
      obtain ⟨hp, hx⟩ := ih hr
      exact ⟨by simp [hd, hn, hp], hx⟩
    · rw [if_neg hc]
      by_cases hq : c = '"'
      · subst hq
        have hstep : step ⟨.double, w, true⟩ '"' = .ok ([], ⟨.word, w, true⟩) := rfl
        rw [reader.read_of_quiet_step hstep] at h
        exact absurd h (read_behind hrest p x (hword w) (u := ['"']) (by decide) (by simp [lag]) q ts)
      by_cases he : c = '$' ∨ c = '\x60'
      · have hstep : step ⟨.double, w, true⟩ c = .error .unsupported := by
          simp [step, hc, hq, he]
        rw [reader.read_of_error hstep] at h
        cases h
      · have hstep : step ⟨.double, w, true⟩ c = .ok ([], ⟨.double, w ++ [c], true⟩) := by
          simp [step, add, hc, hq, he]
        rw [reader.read_of_quiet_step hstep, hsplit] at h
        obtain ⟨hp, hx⟩ := ih h
        rw [not_or] at he
        exact ⟨by simp [hq, he, hp], hx⟩

end State

theorem commands_ne_nil (ts : List Token) : commands ts ≠ .ok [] := by
  intro h
  induction ts using commands.induct with
  | case1 => cases h
  | case2 ts ih =>
    unfold commands at h
    cases hc : commands ts <;> rw [hc] at h <;> cases h
  | case3 w q ts ih => exact ih h
  | case4 ts hts =>
    unfold commands at h
    split at h <;> simp_all
  | case5 w q ts ih =>
    unfold commands at h
    cases hc : commands ts with
    | error e => rw [hc] at h; cases h
    | ok cs => cases cs <;> rw [hc] at h <;> cases h

/-- A word belongs to the command that goes on behind it. -/
theorem commands_word (w : Word) (q : Bool) (ts : List Token) (c : List (Word × Bool))
    (cs : List (List (Word × Bool))) :
    commands (.word w q :: ts) = .ok (c :: cs) ↔
      ∃ c', c = (w, q) :: c' ∧ commands ts = .ok (c' :: cs) := by
  rw [commands]
  cases hc : commands ts with
  | error e =>
    constructor
    · intro h
      cases h
    · rintro ⟨_, -, h⟩
      cases h
  | ok l =>
    cases l with
    | nil => exact absurd hc (commands_ne_nil ts)
    | cons d ds =>
      constructor
      · intro h
        cases h
        exact ⟨d, rfl, rfl⟩
      · rintro ⟨c', rfl, h⟩
        cases h
        rfl

theorem commands_pipe {ts : List Token} {cs : List (List (Word × Bool))}
    (h : commands ts = .ok cs) : commands (.pipe :: ts) = .ok ([] :: cs) := by
  rw [commands, h]
  rfl

/-- Nothing, or something behind a blank. -/
def Apart (text : List Char) : Prop := text = [] ∨ ∃ more, text = ' ' :: more

theorem Apart.take {text : List Char} (h : Apart text) (n : Nat) : Apart (text.take n) := by
  rcases h with rfl | ⟨more, rfl⟩
  · exact .inl List.take_nil
  · cases n with
    | zero => exact .inl rfl
    | succ n => exact .inr ⟨more.take n, rfl⟩

theorem Apart.append {a b : List Char} (ha : Apart a) (hb : Apart b) : Apart (a ++ b) := by
  rcases ha with rfl | ⟨more, rfl⟩
  · exact hb
  · exact .inr ⟨more ++ b, rfl⟩

theorem apart_flatten {texts : List (List Char)} (h : ∀ t ∈ texts, Apart t) :
    Apart texts.flatten := by
  induction texts with
  | nil => exact .inl rfl
  | cons t texts ih =>
    exact (h t List.mem_cons_self).append (ih fun u hu => h u (List.mem_cons_of_mem t hu))

theorem State.read_word {text : List Char} (h : Apart text) (w : Word) (q : Bool) :
    reader.read ⟨.word, w, q⟩ text = (reader.read {} text).map (.word w q :: ·) := by
  rcases h with rfl | ⟨more, rfl⟩
  · rfl
  · rw [reader.read_of_step (step_blank w q), reader.read_of_quiet_step (s := {}) (t := {}) rfl]
    rfl

theorem arguments_iff (text : List Char) (args : List Word) :
    arguments text = .ok args ↔
      ∃ ts c, reader.read {} text = .ok ts ∧ commands ts = .ok [c] ∧ args = c.map (·.1) := by
  unfold arguments
  rw [bind_eq_ok_iff]
  constructor
  · rintro ⟨ts, hts, h⟩
    obtain ⟨cs, hcs, h⟩ := bind_eq_ok_iff.mp h
    split at h
    · cases h
      exact ⟨ts, _, hts, hcs, rfl⟩
    · cases h
  · rintro ⟨ts, c, hts, hc, rfl⟩
    exact ⟨ts, hts, bind_eq_ok_iff.mpr ⟨[c], hc, rfl⟩⟩

theorem mapM_simple_iff (cs : List (List (Word × Bool))) (c : List Word) :
    cs.mapM simple = .ok [c] ↔ ∃ d, cs = [d] ∧ simple d = .ok c := by
  constructor
  · intro h
    cases cs with
    | nil => cases h
    | cons d ds =>
      rw [List.mapM_cons, bind_eq_ok_iff] at h
      obtain ⟨e, he, h⟩ := h
      obtain ⟨es, hes, h⟩ := bind_eq_ok_iff.mp h
      cases h
      cases ds with
      | nil => exact ⟨d, rfl, he⟩
      | cons d' ds =>
        rw [List.mapM_cons, bind_eq_ok_iff] at hes
        obtain ⟨f, -, hes⟩ := hes
        obtain ⟨fs, -, hes⟩ := bind_eq_ok_iff.mp hes
        cases hes
  · rintro ⟨d, rfl, hd⟩
    rw [List.mapM_cons, List.mapM_nil, hd]
    rfl

def wordTokens (ws : List (Word × Bool)) : List Token := ws.map fun w => .word w.1 w.2

/-- The words of a text, if a blank or nothing follows. -/
def Adds (text : List Char) (ws : List (Word × Bool)) : Prop :=
  ∀ rest, Apart rest →
    reader.read {} (text ++ rest) = (reader.read {} rest).map (wordTokens ws ++ ·)

theorem map_append_nil (x : Except Fault (List Token)) : x.map ([] ++ ·) = x := by
  cases x <;> rfl

theorem adds_nil : Adds [] [] := fun _ _ => (map_append_nil _).symm

theorem adds_blank : Adds [' '] [] := fun rest _ => by
  rw [List.singleton_append, reader.read_of_quiet_step (s := {}) (t := {}) rfl]
  exact (map_append_nil _).symm

theorem adds_word {w : Word} (hw : ∀ c ∈ w, ordinary c = true) (hne : w ≠ []) :
    Adds (' ' :: w) [(w, false)] := fun rest hrest => by
  rw [List.cons_append, reader.read_of_quiet_step (s := {}) (t := {}) rfl,
    reader.read_of_run (State.run_word hw hne), State.read_word hrest]
  cases reader.read {} rest <;> rfl

theorem adds_quoted {p : List Char} (hp : literal p = true) :
    Adds ([' ', '"'] ++ p ++ ['"']) [(p, true)] := fun rest hrest => by
  have hclose : State.step ⟨.double, [] ++ p, true⟩ '"' = .ok ([], ⟨.word, p, true⟩) := rfl
  simp only [List.append_assoc, List.cons_append, List.nil_append]
  rw [reader.read_of_quiet_step (s := {}) (t := {}) rfl,
    reader.read_of_quiet_step (t := ⟨.double, [], true⟩) rfl,
    reader.read_of_run (State.run_literal hp []), reader.read_of_quiet_step hclose,
    State.read_word hrest]
  cases reader.read {} rest <;> rfl

theorem Adds.append {a b : List Char} {ws us : List (Word × Bool)} (ha : Adds a ws)
    (hb : Adds b us) (hapart : Apart b) : Adds (a ++ b) (ws ++ us) := fun rest hrest => by
  rw [List.append_assoc, ha _ (hapart.append hrest), hb rest hrest]
  unfold wordTokens
  rw [List.map_append]
  cases reader.read {} rest with
  | error e => rfl
  | ok ts => exact congrArg _ (List.append_assoc ..).symm

theorem commands_wordTokens (ws : List (Word × Bool)) {ts : List Token} {c : List (Word × Bool)}
    {cs : List (List (Word × Bool))} (h : commands ts = .ok (c :: cs)) :
    commands (wordTokens ws ++ ts) = .ok ((ws ++ c) :: cs) := by
  induction ws with
  | nil => exact h
  | cons w ws ih => exact (commands_word ..).mpr ⟨_, rfl, ih⟩

theorem arguments_cons {text rest : List Char} {w : Word} {q : Bool}
    (h : reader.read {} text = (reader.read {} rest).map (.word w q :: ·)) (args : List Word) :
    arguments text = .ok args ↔ ∃ more, args = w :: more ∧ arguments rest = .ok more := by
  simp only [arguments_iff, h]
  constructor
  · rintro ⟨ts, c, hts, hc, rfl⟩
    cases hr : reader.read {} rest with
    | error e =>
      rw [hr] at hts
      cases hts
    | ok ts' =>
      rw [hr] at hts
      cases hts
      obtain ⟨d, rfl, hd⟩ := (commands_word ..).mp hc
      exact ⟨_, rfl, ts', d, rfl, hd, rfl⟩
  · rintro ⟨_, rfl, ts, c, hts, hc, rfl⟩
    rw [hts]
    exact ⟨_, (w, q) :: c, rfl, (commands_word ..).mpr ⟨c, rfl, hc⟩, rfl⟩

theorem arguments_nil (args : List Word) : arguments [] = .ok args ↔ args = [] := by
  constructor
  · intro h
    cases h
    rfl
  · rintro rfl
    rfl

/-- A word that stands behind a blank. -/
theorem arguments_word {w : Word} (hw : ∀ c ∈ w, ordinary c = true) (hne : w ≠ [])
    {rest : List Char} (hrest : Apart rest) (args : List Word) :
    arguments (' ' :: (w ++ rest)) = .ok args ↔
      ∃ more, args = w :: more ∧ arguments rest = .ok more :=
  arguments_cons (adds_word hw hne rest hrest) args

/-- A literal text in double quotes. -/
theorem arguments_quoted {p : List Char} (hp : literal p = true) {rest : List Char}
    (hrest : Apart rest) (args : List Word) :
    arguments (' ' :: '"' :: (p ++ '"' :: rest)) = .ok args ↔
      ∃ more, args = p :: more ∧ arguments rest = .ok more := by
  have h := adds_quoted hp rest hrest
  simp only [List.append_assoc, List.cons_append, List.nil_append] at h
  exact arguments_cons h args

theorem State.exists_of_read {s : State} (hs : s.Inside) {cs : List Char} {ts : List Token}
    (h : reader.read s cs = .ok ts) : ∃ w q more, ts = .word w q :: more := by
  induction cs generalizing s with
  | nil =>
    rw [reader.read_nil] at h
    obtain ⟨mode, w, q⟩ := s
    obtain ⟨-, hb, hr, hc⟩ := hs
    cases mode with
    | blank => exact absurd rfl hb
    | redirect => exact absurd rfl hr
    | comment => exact absurd rfl hc
    | word =>
      cases h
      exact ⟨w, q, [], rfl⟩
    | escape | single | double | doubleEscape => cases h
  | cons c cs ih =>
    cases hstep : s.step c with
    | error e =>
      rw [reader.read_of_error hstep] at h
      cases h
    | ok p =>
      obtain ⟨out, t⟩ := p
      rcases step_inside hs hstep with ⟨-, more, rfl⟩ | ⟨rfl, kept, hk⟩
      · rw [reader.read_of_step hstep] at h
        cases hr : reader.read t cs <;> rw [hr] at h <;> cases h
        exact ⟨_, _, _, rfl⟩
      · rw [reader.read_of_quiet_step hstep] at h
        exact ih hk.inside h

/-- A text in double quotes of which `n` characters are there: a word comes of it, and this is the
text with `x` behind it only if all of a literal text was there, and nothing was to come. -/
theorem arguments_quoted_cut {p x rest : List Char} {n : Nat} (hrest : Apart rest)
    {args : List Word} (h : arguments (' ' :: '"' :: (p ++ '"' :: rest).take n) = .ok args) :
    ∃ v more, args = v :: more ∧ (v = p ++ x → literal p = true ∧ x = [] ∧ p.length < n) := by
  obtain ⟨ts, c, hts, hc, rfl⟩ := (arguments_iff ..).mp h
  rw [reader.read_of_quiet_step (s := {}) (t := {}) rfl,
    reader.read_of_quiet_step (t := ⟨.double, [], true⟩) rfl] at hts
  obtain ⟨v, q, more, rfl⟩ := State.exists_of_read (State.inside_double []) hts
  obtain ⟨d, rfl, -⟩ := (commands_word ..).mp hc
  refine ⟨v, _, rfl, ?_⟩
  rintro rfl
  have hlen := State.length_of_read (State.inside_double []) hts
  simp only [State.owed, List.length_append, List.length_take, List.length_nil] at hlen
  have hn : p.length < n := by omega
  obtain ⟨m, hm⟩ : ∃ m, n - p.length = m + 1 := ⟨n - p.length - 1, by omega⟩
  rw [List.take_append, List.take_of_length_le (Nat.le_of_lt hn), hm, List.take_succ_cons] at hts
  obtain ⟨hp, hx⟩ := State.literal_of_read (hrest.take m) p x (w := []) hts
  exact ⟨hp, hx, hn⟩

/-- A word that is the name of a command wherever it stands first. -/
structure IsName (name : Word) : Prop where
  ordinary : ∀ c ∈ name, ordinary c = true
  nonempty : name ≠ []
  reserved : reserved name = false
  assignment : '=' ∉ name

theorem IsName.simple {name : Word} (hn : IsName name) (args : List (Word × Bool)) :
    simple ((name, false) :: args) = .ok (name :: args.map (·.1)) := by
  unfold Shell.simple
  dsimp only
  rw [if_neg fun h => by simp [hn.reserved] at h, if_neg hn.assignment]

theorem parse_iff {name : Word} (hn : IsName name) {text : List Char} (h : Apart text)
    (c : List Word) :
    parse (name ++ text) = .ok [c] ↔ ∃ args, arguments text = .ok args ∧ c = name :: args := by
  have hread : reader.read {} (name ++ text) =
      (reader.read {} text).map (.word name false :: ·) := by
    rw [reader.read_of_run (State.run_word hn.ordinary hn.nonempty), State.read_word h]
    cases reader.read {} text <;> rfl
  unfold parse
  rw [hread]
  simp only [bind_eq_ok_iff, mapM_simple_iff, arguments_iff]
  constructor
  · rintro ⟨ts', hts, cs, hcs, d, rfl, hd⟩
    cases hr : reader.read {} text with
    | error e =>
      rw [hr] at hts
      cases hts
    | ok ts =>
      rw [hr] at hts
      cases hts
      obtain ⟨d', rfl, hd'⟩ := (commands_word ..).mp hcs
      rw [hn.simple] at hd
      cases hd
      exact ⟨_, ⟨ts, d', rfl, hd', rfl⟩, rfl⟩
  · rintro ⟨args, ⟨ts, d, hts, hd, rfl⟩, rfl⟩
    rw [hts]
    exact ⟨_, rfl, _, (commands_word ..).mpr ⟨d, rfl, hd⟩, _, rfl, hn.simple d⟩

end Blkcp.Lib.Shell
