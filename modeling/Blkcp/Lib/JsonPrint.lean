import Blkcp.Lib.Json
set_option autoImplicit false

/-! The text of a JSON value, and that the value is read back from it. -/

namespace Blkcp.Lib.Json

def quoted (t : JsonText) : JsonText := '"' :: (t ++ ['"'])

mutual

/-- The text of a value, without whitespace and with its strings as they are. -/
def text : Json → JsonText
  | .null => "null".toList
  | .bool b => boolText b
  | .num w => w
  | .str t => quoted t
  | .arr js => '[' :: (elementsText js ++ [']'])
  | .obj ms => '{' :: (membersText ms ++ ['}'])

def elementsText : List Json → JsonText
  | [] => []
  | [j] => text j
  | j :: j' :: js => text j ++ ',' :: elementsText (j' :: js)

def membersText : List (JsonText × Json) → JsonText
  | [] => []
  | [(name, j)] => quoted name ++ ':' :: text j
  | (name, j) :: m :: ms => quoted name ++ ':' :: (text j ++ ',' :: membersText (m :: ms))

end

mutual

def tokens : Json → List Token
  | .null => [.bare "null".toList]
  | .bool b => [.bare (boolText b)]
  | .num w => [.bare w]
  | .str t => [.str t]
  | .arr js => .lbracket :: (elementTokens js ++ [.rbracket])
  | .obj ms => .lbrace :: (memberTokens ms ++ [.rbrace])

def elementTokens : List Json → List Token
  | [] => []
  | [j] => tokens j
  | j :: j' :: js => tokens j ++ .comma :: elementTokens (j' :: js)

def memberTokens : List (JsonText × Json) → List Token
  | [] => []
  | [(name, j)] => .str name :: .colon :: tokens j
  | (name, j) :: m :: ms =>
    .str name :: .colon :: (tokens j ++ .comma :: memberTokens (m :: ms))

end

/-- The word of a number. -/
structure NumberWord (w : JsonText) : Prop where
  isNumber : isNumber w = true
  isBare : ∀ c ∈ w, isBare c = true
  ne_nil : w ≠ []

mutual

/-- The strings need no escapes, and the numbers are numbers. -/
def Printable : Json → Prop
  | .null => True
  | .bool _ => True
  | .num w => NumberWord w
  | .str t => ∀ c ∈ t, isPlain c = true
  | .arr js => PrintableAll js
  | .obj ms => PrintableMembers ms

def PrintableAll : List Json → Prop
  | [] => True
  | j :: js => Printable j ∧ PrintableAll js

def PrintableMembers : List (JsonText × Json) → Prop
  | [] => True
  | (name, j) :: ms => (∀ c ∈ name, isPlain c = true) ∧ Printable j ∧ PrintableMembers ms

end

theorem numberWord_intText (i : Int) : NumberWord (intText i) :=
  ⟨isNumber_intText i, isBare_intText i, intText_ne_nil i⟩

/-- A word ends before the text. -/
def Delimits (rest : JsonText) : Prop := ∀ c, rest.head? = some c → isBare c = false

/-- The text gives these tokens, whatever comes behind it. -/
def Lexes (t : JsonText) (ts : List Token) : Prop :=
  ∀ rest more, Delimits rest → reader.read .between rest = .ok more →
    reader.read .between (t ++ rest) = .ok (ts ++ more)

section Lexes

variable {rest w : JsonText} {more ts us : List Token}

theorem delimits_cons {c : Char} (h : isBare c = false) : Delimits (c :: rest) := by
  intro d hd
  rw [List.head?_cons, Option.some.injEq] at hd
  rw [← hd]
  exact h

theorem read_punctuation {c : Char} {t : Token}
    (h : State.step .between c = .ok ([t], .between))
    (hrest : reader.read .between rest = .ok more) :
    reader.read .between (c :: rest) = .ok (t :: more) := by
  rw [reader.read_of_step h, hrest]
  rfl

theorem read_quoted (hw : ∀ c ∈ w, isPlain c = true)
    (hrest : reader.read .between rest = .ok more) :
    reader.read .between (quoted w ++ rest) = .ok (.str w :: more) := by
  have hopen : State.step .between '"' = .ok ([], .str []) := rfl
  have hclose : State.step (.str w) '"' = .ok ([.str w], .between) := by simp [State.step]
  rw [quoted, List.cons_append, reader.read_of_quiet_step hopen, List.append_assoc,
    reader.read_of_run (State.run_plain hw []), List.nil_append, List.singleton_append,
    reader.read_of_step hclose, hrest]
  rfl

theorem lexes_word (hw : ∀ c ∈ w, isBare c = true) (hne : w ≠ []) : Lexes w [.bare w] := by
  intro rest more hrest hread
  rw [reader.read_of_run (State.run_word hw hne)]
  cases rest with
  | nil =>
    rw [reader.read_nil] at hread ⊢
    obtain rfl : more = [] := (Except.ok.inj hread).symm
    rfl
  | cons c rest =>
    have hc : isBare c = false := hrest c rfl
    have hstep : State.step (.bare w) c =
        (State.step .between c).map fun p => (.bare w :: p.1, p.2) := by
      simp [State.step, hc]
    cases hbetween : State.step .between c with
    | error e =>
      rw [reader.read_of_error hbetween] at hread
      cases hread
    | ok p =>
      rw [hbetween] at hstep
      rw [reader.read_of_step hbetween] at hread
      rw [reader.read_of_step hstep]
      cases hlater : reader.read p.2 rest with
      | error e =>
        rw [hlater] at hread
        cases hread
      | ok later =>
        rw [hlater] at hread
        obtain rfl := Except.ok.inj hread
        rfl

end Lexes

mutual

theorem lexes_text (j : Json) (h : j.Printable) : Lexes j.text j.tokens := by
  cases j with
  | null => exact lexes_word (by decide) (by decide)
  | bool b => exact lexes_word (isBare_boolText b) (boolText_ne_nil b)
  | num w =>
    rw [Printable] at h
    exact lexes_word h.isBare h.ne_nil
  | str t =>
    rw [Printable] at h
    intro rest more _ hread
    exact read_quoted h hread
  | arr js =>
    rw [Printable] at h
    intro rest more _ hread
    have hclose := read_punctuation (c := ']') rfl hread
    have hinner := lexes_elementsText js h _ _ (delimits_cons rfl) hclose
    have hopen := read_punctuation (c := '[') rfl hinner
    simpa only [text, tokens, List.cons_append, List.append_assoc, List.nil_append] using hopen
  | obj ms =>
    rw [Printable] at h
    intro rest more _ hread
    have hclose := read_punctuation (c := '}') rfl hread
    have hinner := lexes_membersText ms h _ _ (delimits_cons rfl) hclose
    have hopen := read_punctuation (c := '{') rfl hinner
    simpa only [text, tokens, List.cons_append, List.append_assoc, List.nil_append] using hopen

theorem lexes_elementsText (js : List Json) (h : PrintableAll js) :
    Lexes (elementsText js) (elementTokens js) := by
  intro rest more hrest hread
  cases js with
  | nil => exact hread
  | cons j js =>
    rw [PrintableAll] at h
    cases js with
    | nil => exact lexes_text j h.1 rest more hrest hread
    | cons j' js =>
      have hlater := lexes_elementsText (j' :: js) h.2 rest more hrest hread
      have hcomma := read_punctuation (c := ',') rfl hlater
      have hfirst := lexes_text j h.1 _ _ (delimits_cons rfl) hcomma
      simpa only [elementsText, elementTokens, List.cons_append, List.append_assoc] using hfirst

theorem lexes_membersText (ms : List (JsonText × Json)) (h : PrintableMembers ms) :
    Lexes (membersText ms) (memberTokens ms) := by
  intro rest more hrest hread
  cases ms with
  | nil => exact hread
  | cons m ms =>
    obtain ⟨name, j⟩ := m
    rw [PrintableMembers] at h
    obtain ⟨hname, hj, hms⟩ := h
    cases ms with
    | nil =>
      have hvalue := lexes_text j hj rest more hrest hread
      have hcolon := read_punctuation (c := ':') rfl hvalue
      have hwhole := read_quoted hname hcolon
      simpa only [membersText, memberTokens, List.cons_append, List.append_assoc] using hwhole
    | cons m ms =>
      have hlater := lexes_membersText (m :: ms) hms rest more hrest hread
      have hcomma := read_punctuation (c := ',') rfl hlater
      have hvalue := lexes_text j hj _ _ (delimits_cons rfl) hcomma
      have hcolon := read_punctuation (c := ':') rfl hvalue
      have hwhole := read_quoted hname hcolon
      simpa only [membersText, memberTokens, List.cons_append, List.append_assoc] using hwhole

end

theorem head_tokens (j : Json) : ∃ t ts, j.tokens = t :: ts ∧ t ≠ .rbracket := by
  cases j <;> exact ⟨_, _, rfl, by simp⟩

mutual

theorem reads_tokens (j : Json) (h : j.Printable) (ts : List Token) :
    Reads value (j.tokens ++ ts) j ts := by
  cases j with
  | null => exact .bare rfl ts
  | bool b => exact .bare (scalar_boolText b) ts
  | num w =>
    rw [Printable] at h
    exact .bare (scalar_of_isNumber h.isNumber) ts
  | str t => exact .str t ts
  | arr js =>
    rw [Printable] at h
    cases js with
    | nil => exact .arr_nil ts
    | cons j js =>
      have hne : (elementTokens (j :: js) ++ .rbracket :: ts).head? ≠ some .rbracket := by
        obtain ⟨t, us, htokens, ht⟩ := head_tokens j
        cases js <;> simp [elementTokens, htokens, ht]
      have hinner := reads_elementTokens (j :: js) h (by simp) ts
      simpa only [tokens, List.cons_append, List.append_assoc, List.nil_append] using
        Reads.arr hne hinner
  | obj ms =>
    rw [Printable] at h
    cases ms with
    | nil => exact .obj_nil ts
    | cons m ms =>
      have hne : (memberTokens (m :: ms) ++ .rbrace :: ts).head? ≠ some .rbrace := by
        obtain ⟨name, j⟩ := m
        cases ms <;> simp [memberTokens]
      have hinner := reads_memberTokens (m :: ms) h (by simp) ts
      simpa only [tokens, List.cons_append, List.append_assoc, List.nil_append] using
        Reads.obj hne hinner

theorem reads_elementTokens (js : List Json) (h : PrintableAll js) (hne : js ≠ [])
    (ts : List Token) : Reads elements (elementTokens js ++ .rbracket :: ts) js ts := by
  cases js with
  | nil => exact absurd rfl hne
  | cons j js =>
    rw [PrintableAll] at h
    cases js with
    | nil => exact .last_element (reads_tokens j h.1 _)
    | cons j' js =>
      have hlater := reads_elementTokens (j' :: js) h.2 (by simp) ts
      simpa only [elementTokens, List.cons_append, List.append_assoc] using
        Reads.element (reads_tokens j h.1 _) hlater

theorem reads_memberTokens (ms : List (JsonText × Json)) (h : PrintableMembers ms) (hne : ms ≠ [])
    (ts : List Token) : Reads members (memberTokens ms ++ .rbrace :: ts) ms ts := by
  cases ms with
  | nil => exact absurd rfl hne
  | cons m ms =>
    obtain ⟨name, j⟩ := m
    rw [PrintableMembers] at h
    obtain ⟨-, hj, hms⟩ := h
    cases ms with
    | nil => exact .last_member (reads_tokens j hj _)
    | cons m ms =>
      have hlater := reads_memberTokens (m :: ms) hms (by simp) ts
      simpa only [memberTokens, List.cons_append, List.append_assoc] using
        Reads.member (reads_tokens j hj _) hlater

end

/-- A value is read back from its text, with whitespace behind it or not. -/
theorem parse_text {j : Json} (h : j.Printable) {space : JsonText}
    (hspace : ∀ c ∈ space, isWhitespace c = true) : parse (j.text ++ space) = some j := by
  have hread : reader.read .between space = .ok [] := by
    induction space with
    | nil => rfl
    | cons c space ih =>
      have hstep : State.step .between c = .ok ([], .between) := by
        simp [State.step, State.outside, hspace c List.mem_cons_self]
      rw [reader.read_of_quiet_step hstep]
      exact ih fun d hd => hspace d (List.mem_cons_of_mem c hd)
  have hdelimits : Delimits space := by
    intro c hc
    have hwhite := hspace c (List.mem_of_mem_head? hc)
    cases hbare : isBare c with
    | false => rfl
    | true => exact absurd hwhite (by simp [(State.isBare_ne hbare).1])
  have htokens := lexes_text j h space [] hdelimits hread
  exact parse_eq_some_iff.mpr ⟨_, htokens, reads_tokens j h []⟩

/-! ### Decimals -/

theorem takeWhile_digits {w : JsonText} (hw : ∀ c ∈ w, c.isDigit = true) :
    w.takeWhile Char.isDigit = w := List.takeWhile_eq_self_iff.mpr hw

/-- What is behind the integer part is not looked at. -/
theorem integerPart_append_point (n : Nat) (fraction : JsonText) :
    integerPart (Nat.toDigits 10 n ++ '.' :: fraction) = some ('.' :: fraction) := by
  have hhead := head_toDigits n
  have hdigits := isDigit_toDigits (n := n)
  cases hd : Nat.toDigits 10 n with
  | nil => exact absurd hd Nat.toDigits_ne_nil
  | cons c rest =>
    rw [hd] at hhead hdigits
    rw [List.cons_append, integerPart]
    by_cases hc : c = '0'
    · subst hc
      obtain rfl := hhead rfl
      rw [Nat.toDigits_zero] at hd
      cases hd
      rfl
    · have hrest : ∀ d ∈ rest, d.isDigit = true := fun d hd => hdigits d (List.mem_cons_of_mem c hd)
      rw [if_neg hc, if_pos (hdigits c List.mem_cons_self),
        List.dropWhile_append_of_pos hrest]
      rfl

theorem numberWord_decimal (n : Nat) {fraction : JsonText} (hne : fraction ≠ [])
    (hdigits : ∀ c ∈ fraction, c.isDigit = true) :
    NumberWord (Nat.toDigits 10 n ++ '.' :: fraction) where
  isNumber := by
    have hhead : (Nat.toDigits 10 n ++ '.' :: fraction).head? ≠ some '-' := by
      rw [List.head?_append_of_ne_nil _ Nat.toDigits_ne_nil]
      intro h
      have hdigit := isDigit_toDigits (n := n) '-' (List.mem_of_mem_head? h)
      cases hdigit
    have hsome : someDigits fraction = some [] := by
      rw [someDigits, takeWhile_digits hdigits, if_neg hne, dropWhile_digits hdigits]
    simp only [Json.isNumber, if_neg hhead, integerPart_append_point, Option.bind_eq_bind,
      Option.bind_some, fractionPart, hsome, exponentPart, beq_self_eq_true]
  isBare c hc := by
    rcases List.mem_append.mp hc with hc | hc
    · simp [Json.isBare, Char.isAlphanum, isDigit_toDigits c hc]
    · rcases List.mem_cons.mp hc with rfl | hc
      · rfl
      · simp [Json.isBare, Char.isAlphanum, hdigits c hc]
  ne_nil := List.append_ne_nil_of_left_ne_nil Nat.toDigits_ne_nil _

/-! ### Lines of JSON -/

def lines (js : List Json) : JsonText := js.flatMap fun j => j.text ++ ['\n']

/-- What a reader makes of a stream with one value on each line. -/
def parseLines (t : JsonText) : Option (List Json) :=
  ((t.splitOn '\n').filter fun line => line ≠ []).mapM parse

theorem newline_not_mem_quoted {t : JsonText} (h : ∀ c ∈ t, isPlain c = true) :
    '\n' ∉ quoted t := by
  intro hmem
  simp only [quoted, List.mem_cons, List.mem_append, List.not_mem_nil, or_false] at hmem
  rcases hmem with h1 | h1 | h1
  · exact absurd h1 (by decide)
  · exact absurd (h _ h1) (by decide)
  · exact absurd h1 (by decide)

theorem newline_not_mem_bare {w : JsonText} (h : ∀ c ∈ w, isBare c = true) : '\n' ∉ w :=
  fun hmem => absurd (h _ hmem) (by decide)

mutual

theorem newline_not_mem_text (j : Json) (h : j.Printable) : '\n' ∉ j.text := by
  cases j with
  | null => exact newline_not_mem_bare (by decide)
  | bool b => exact newline_not_mem_bare (isBare_boolText b)
  | num w =>
    rw [Printable] at h
    exact newline_not_mem_bare h.isBare
  | str t =>
    rw [Printable] at h
    exact newline_not_mem_quoted h
  | arr js =>
    rw [Printable] at h
    have hinner := newline_not_mem_elementsText js h
    simp [text, hinner]
  | obj ms =>
    rw [Printable] at h
    have hinner := newline_not_mem_membersText ms h
    simp [text, hinner]

theorem newline_not_mem_elementsText (js : List Json) (h : PrintableAll js) :
    '\n' ∉ elementsText js := by
  cases js with
  | nil => exact List.not_mem_nil
  | cons j js =>
    rw [PrintableAll] at h
    have hfirst := newline_not_mem_text j h.1
    cases js with
    | nil => exact hfirst
    | cons j' js =>
      have hlater := newline_not_mem_elementsText (j' :: js) h.2
      simp [elementsText, hfirst, hlater]

theorem newline_not_mem_membersText (ms : List (JsonText × Json)) (h : PrintableMembers ms) :
    '\n' ∉ membersText ms := by
  cases ms with
  | nil => exact List.not_mem_nil
  | cons m ms =>
    obtain ⟨name, j⟩ := m
    rw [PrintableMembers] at h
    have hname := newline_not_mem_quoted h.1
    have hvalue := newline_not_mem_text j h.2.1
    cases ms with
    | nil => simp [membersText, hname, hvalue]
    | cons m ms =>
      have hlater := newline_not_mem_membersText (m :: ms) h.2.2
      simp [membersText, hname, hvalue, hlater]

end

theorem text_ne_nil {j : Json} (h : j.Printable) : j.text ≠ [] := by
  cases j with
  | null => exact List.cons_ne_nil _ _
  | bool b => exact boolText_ne_nil b
  | num w =>
    rw [Printable] at h
    exact h.ne_nil
  | str t => exact List.cons_ne_nil _ _
  | arr js => exact List.cons_ne_nil _ _
  | obj ms => exact List.cons_ne_nil _ _

/-- Each line of such a stream is one value. -/
theorem parseLines_lines {js : List Json} (h : ∀ j ∈ js, j.Printable) :
    parseLines (lines js) = some js := by
  unfold parseLines
  induction js with
  | nil => rfl
  | cons j js ih =>
    have hj : j.Printable := h j List.mem_cons_self
    have hvalue : parse j.text = some j := by
      simpa using parse_text hj (fun c (hc : c ∈ []) => absurd hc List.not_mem_nil)
    have hsplit : (lines (j :: js)).splitOn '\n' = j.text :: (lines js).splitOn '\n' := by
      rw [lines, List.flatMap_cons, List.append_assoc, List.singleton_append,
        List.splitOn_append_cons_self_of_not_mem (newline_not_mem_text j hj)]
      rfl
    rw [hsplit, List.filter_cons_of_pos (by simpa using text_ne_nil hj), List.mapM_cons, hvalue,
      ih fun j' hj' => h j' (List.mem_cons_of_mem j hj')]
    rfl

end Blkcp.Lib.Json
