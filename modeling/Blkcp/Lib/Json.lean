import Mathlib.Data.List.TakeWhile
import Blkcp.Lib.Scan
set_option autoImplicit false

/-! JSON texts (RFC 8259): the tokens of a text, the value that they make, and what becomes of a
text that is put between quotes as it is. -/

namespace Blkcp.Lib

abbrev JsonText := List Char

/-- A number is kept as it is written. -/
inductive Json where
  | null
  | bool (b : Bool)
  | num (text : JsonText)
  | str (text : JsonText)
  | arr (elements : List Json)
  | obj (members : List (JsonText × Json))

namespace Json

inductive Token where
  | lbrace | rbrace | lbracket | rbracket | colon | comma
  | str (text : JsonText)
  | bare (word : JsonText)
  deriving DecidableEq

/-- Where a reader stands: `high` is the first half of a surrogate pair, `left` the number of
hexadecimal digits to come. -/
inductive State where
  | between
  | bare (word : JsonText)
  | str (text : JsonText)
  | escape (text : JsonText)
  | unicode (text : JsonText) (high : Option Nat) (left : Nat) (value : Nat)
  | low (text : JsonText) (high : Nat)
  | lowEscape (text : JsonText) (high : Nat)
  deriving DecidableEq

def isWhitespace (c : Char) : Bool := c == ' ' || c == '\t' || c == '\n' || c == '\r'

def isBare (c : Char) : Bool := c.isAlphanum || c == '+' || c == '-' || c == '.'

def isControl (c : Char) : Bool := c.toNat < 0x20

def hexDigit (c : Char) : Option Nat :=
  if c.isDigit then some (c.toNat - '0'.toNat)
  else if 'a' ≤ c ∧ c ≤ 'f' then some (c.toNat - 'a'.toNat + 10)
  else if 'A' ≤ c ∧ c ≤ 'F' then some (c.toNat - 'A'.toNat + 10)
  else none

def punctuation (c : Char) : Option Token :=
  match c with
  | '{' => some .lbrace
  | '}' => some .rbrace
  | '[' => some .lbracket
  | ']' => some .rbracket
  | ':' => some .colon
  | ',' => some .comma
  | _ => none

/-- The escapes of two characters. -/
def unescape (c : Char) : Option Char :=
  match c with
  | '"' => some '"'
  | '\\' => some '\\'
  | '/' => some '/'
  | 'b' => some '\x08'
  | 'f' => some '\x0c'
  | 'n' => some '\n'
  | 'r' => some '\r'
  | 't' => some '\t'
  | _ => none

namespace State

def outside (c : Char) : Except Unit (List Token × State) :=
  if isWhitespace c then .ok ([], .between)
  else if c = '"' then .ok ([], .str [])
  else if isBare c then .ok ([], .bare [c])
  else
    match punctuation c with
    | some t => .ok ([t], .between)
    | none => .error ()

/-- The last digit of an escape is read. -/
def decoded (text : JsonText) (high : Option Nat) (value : Nat) : Except Unit (List Token × State) :=
  match high with
  | none =>
    if 0xd800 ≤ value ∧ value < 0xdc00 then .ok ([], .low text value)
    else if 0xdc00 ≤ value ∧ value < 0xe000 then .error ()
    else .ok ([], .str (text ++ [Char.ofNat value]))
  | some h =>
    if 0xdc00 ≤ value ∧ value < 0xe000 then
      .ok ([], .str (text ++ [Char.ofNat (0x10000 + (h - 0xd800) * 0x400 + (value - 0xdc00))]))
    else .error ()

def step (s : State) (c : Char) : Except Unit (List Token × State) :=
  match s with
  | .between => outside c
  | .bare word =>
    if isBare c then .ok ([], .bare (word ++ [c]))
    else (outside c).map fun p => (.bare word :: p.1, p.2)
  | .str text =>
    if c = '"' then .ok ([.str text], .between)
    else if c = '\\' then .ok ([], .escape text)
    else if isControl c then .error ()
    else .ok ([], .str (text ++ [c]))
  | .escape text =>
    if c = 'u' then .ok ([], .unicode text none 4 0)
    else
      match unescape c with
      | some d => .ok ([], .str (text ++ [d]))
      | none => .error ()
  | .unicode text high left value =>
    match hexDigit c with
    | none => .error ()
    | some d =>
      if left ≤ 1 then decoded text high (16 * value + d)
      else .ok ([], .unicode text high (left - 1) (16 * value + d))
  | .low text high => if c = '\\' then .ok ([], .lowEscape text high) else .error ()
  | .lowEscape text high => if c = 'u' then .ok ([], .unicode text (some high) 4 0) else .error ()

def close (s : State) : Except Unit (List Token) :=
  match s with
  | .between => .ok []
  | .bare word => .ok [.bare word]
  | _ => .error ()

end State

abbrev reader : Scanner State Char Token Unit := ⟨State.step, State.close⟩

/-! ### Numbers and literals -/

def integerPart (w : JsonText) : Option JsonText :=
  match w with
  | [] => none
  | c :: rest =>
    if c = '0' then some rest else if c.isDigit then some (rest.dropWhile Char.isDigit) else none

def someDigits (w : JsonText) : Option JsonText :=
  if w.takeWhile Char.isDigit = [] then none else some (w.dropWhile Char.isDigit)

def fractionPart (w : JsonText) : Option JsonText :=
  match w with
  | '.' :: rest => someDigits rest
  | _ => some w

def exponentPart (w : JsonText) : Option JsonText :=
  match w with
  | [] => some []
  | c :: rest =>
    if c = 'e' ∨ c = 'E' then
      match rest with
      | '+' :: rest => someDigits rest
      | '-' :: rest => someDigits rest
      | _ => someDigits rest
    else some w

def isNumber (w : JsonText) : Bool :=
  let w := if w.head? = some '-' then w.tail else w
  (integerPart w >>= fractionPart >>= exponentPart) == some []

def scalar (w : JsonText) : Option Json :=
  if w = "null".toList then some .null
  else if w = "true".toList then some (.bool true)
  else if w = "false".toList then some (.bool false)
  else if isNumber w then some (.num w)
  else none

/-! ### Values -/

mutual

/-- The value at the start of some tokens, and what is behind it. No value goes deeper than there
are tokens. -/
def value : Nat → List Token → Option (Json × List Token)
  | 0, _ => none
  | _ + 1, [] => none
  | n + 1, t :: ts =>
    match t with
    | .str text => some (.str text, ts)
    | .bare word => (scalar word).map fun j => (j, ts)
    | .lbrace =>
      if ts.head? = some .rbrace then some (.obj [], ts.tail)
      else (members n ts).map fun p => (.obj p.1, p.2)
    | .lbracket =>
      if ts.head? = some .rbracket then some (.arr [], ts.tail)
      else (elements n ts).map fun p => (.arr p.1, p.2)
    | .rbrace | .rbracket | .colon | .comma => none

def members : Nat → List Token → Option (List (JsonText × Json) × List Token)
  | n + 1, .str name :: .colon :: ts =>
    match value n ts with
    | some (j, .comma :: rest) => (members n rest).map fun p => ((name, j) :: p.1, p.2)
    | some (j, .rbrace :: rest) => some ([(name, j)], rest)
    | _ => none
  | _, _ => none

def elements : Nat → List Token → Option (List Json × List Token)
  | 0, _ => none
  | n + 1, ts =>
    match value n ts with
    | some (j, .comma :: rest) => (elements n rest).map fun p => (j :: p.1, p.2)
    | some (j, .rbracket :: rest) => some ([j], rest)
    | _ => none

end

/-- The value of a text that is one JSON value and nothing else. -/
def parse (text : JsonText) : Option Json :=
  match reader.read .between text with
  | .ok ts =>
    match value (ts.length + 1) ts with
    | some (j, []) => some j
    | _ => none
  | .error _ => none

/-- The member of an object that has some name, if there is exactly one. -/
def member (name : JsonText) (j : Json) : Option Json :=
  match j with
  | .obj ms =>
    match ms.filter fun m => m.1 = name with
    | [m] => some m.2
    | _ => none
  | _ => none

/-! ### Texts between quotes -/

/-- A character that stands for itself in a string. -/
def isPlain (c : Char) : Bool := c != '"' && c != '\\' && !isControl c

theorem isPlain_iff {c : Char} :
    isPlain c = true ↔ c ≠ '"' ∧ c ≠ '\\' ∧ isControl c = false := by
  simp [isPlain, and_assoc]

namespace State

theorem step_plain {c : Char} (h : isPlain c = true) (w : JsonText) :
    step (.str w) c = .ok ([], .str (w ++ [c])) := by
  obtain ⟨h1, h2, h3⟩ := isPlain_iff.mp h
  simp [step, h1, h2, h3]

theorem run_plain {p : JsonText} (hp : ∀ c ∈ p, isPlain c = true) (w : JsonText) :
    reader.run (.str w) p = .ok ([], .str (w ++ p)) := by
  induction p generalizing w with
  | nil =>
    rw [List.append_nil]
    rfl
  | cons c p ih =>
    rw [reader.run_of_quiet_step (step_plain (hp c List.mem_cons_self) w),
      ih fun d hd => hp d (List.mem_cons_of_mem c hd), List.append_assoc, List.singleton_append]

/-- The text of the string that the reader is in. -/
def inside (s : State) : Option JsonText :=
  match s with
  | .str text | .escape text | .unicode text _ _ _ | .low text _ | .lowEscape text _ => some text
  | .between | .bare _ => none

theorem decoded_inside {w : JsonText} {high : Option Nat} {value : Nat} {out : List Token}
    {t : State} (h : decoded w high value = .ok (out, t)) :
    out = [] ∧ (∀ v, t ≠ .escape v) ∧ ∃ kept, t.inside = some (w ++ kept) ∧ kept.length ≤ 1 := by
  unfold decoded at h
  cases high with
  | none =>
    dsimp only at h
    split_ifs at h <;> cases h
    · exact ⟨rfl, nofun, [], by simp [inside], Nat.zero_le _⟩
    · exact ⟨rfl, nofun, [_], rfl, Nat.le_refl _⟩
  | some hi =>
    dsimp only at h
    split_ifs at h
    cases h
    exact ⟨rfl, nofun, [_], rfl, Nat.le_refl _⟩

/-- What one character does inside a string: it ends it, or at most one character is added. -/
theorem step_inside {s t : State} {w : JsonText} (hs : s.inside = some w) {c : Char}
    {out : List Token} (h : s.step c = .ok (out, t)) :
    s = .str w ∧ c = '"' ∧ out = [.str w] ∨
      out = [] ∧ (∀ v, t = .escape v → c = '\\') ∧
        ∃ kept, t.inside = some (w ++ kept) ∧ kept.length ≤ 1 := by
  cases s with
  | between => cases hs
  | bare word => cases hs
  | str text =>
    cases hs
    unfold step at h
    dsimp only at h
    split_ifs at h with h1 h2 h3 <;> cases h
    · exact .inl ⟨rfl, h1, rfl⟩
    · exact .inr ⟨rfl, fun _ _ => h2, [], by simp [inside], Nat.zero_le _⟩
    · exact .inr ⟨rfl, nofun, [c], rfl, Nat.le_refl _⟩
  | escape text =>
    cases hs
    unfold step at h
    dsimp only at h
    split_ifs at h
    · cases h
      exact .inr ⟨rfl, nofun, [], by simp [inside], Nat.zero_le _⟩
    · split at h <;> cases h
      exact .inr ⟨rfl, nofun, [_], rfl, Nat.le_refl _⟩
  | unicode text high left value =>
    cases hs
    unfold step at h
    dsimp only at h
    split at h
    · cases h
    · split_ifs at h
      · obtain ⟨ho, hne, hk⟩ := decoded_inside h
        exact .inr ⟨ho, fun v hv => absurd hv (hne v), hk⟩
      · cases h
        exact .inr ⟨rfl, nofun, [], by simp [inside], Nat.zero_le _⟩
  | low text high =>
    cases hs
    unfold step at h
    dsimp only at h
    split_ifs at h
    cases h
    exact .inr ⟨rfl, nofun, [], by simp [inside], Nat.zero_le _⟩
  | lowEscape text high =>
    cases hs
    unfold step at h
    dsimp only at h
    split_ifs at h
    cases h
    exact .inr ⟨rfl, nofun, [], by simp [inside], Nat.zero_le _⟩

/-- The first character of what is left: the string ends with it, or goes on. -/
theorem read_inside {s : State} {w : JsonText} (hs : s.inside = some w) {c : Char}
    {cs : List Char} {ts : List Token} (h : reader.read s (c :: cs) = .ok ts) :
    (s = .str w ∧ c = '"' ∧ ∃ more, ts = .str w :: more ∧ reader.read .between cs = .ok more) ∨
      ∃ t kept, s.step c = .ok ([], t) ∧ (∀ v, t = .escape v → c = '\\') ∧
        t.inside = some (w ++ kept) ∧ kept.length ≤ 1 ∧ reader.read t cs = .ok ts := by
  cases hstep : s.step c with
  | error e =>
    rw [reader.read_of_error hstep] at h
    cases h
  | ok p =>
    obtain ⟨out, t⟩ := p
    rcases step_inside hs hstep with ⟨rfl, rfl, rfl⟩ | ⟨rfl, hesc, kept, ht, hk⟩
    · cases hstep
      have hend : State.step (.str w) '"' = .ok ([.str w], .between) := rfl
      rw [reader.read_of_step hend] at h
      cases hr : reader.read .between cs with
      | error e =>
        rw [hr] at h
        cases h
      | ok more =>
        rw [hr] at h
        cases h
        exact .inl ⟨rfl, rfl, more, rfl, rfl⟩
    · rw [reader.read_of_quiet_step hstep] at h
      exact .inr ⟨t, kept, rfl, hesc, ht, hk, h⟩

theorem not_read_nil_inside {s : State} {w : JsonText} (hs : s.inside = some w) (ts : List Token) :
    reader.read s [] ≠ .ok ts := by
  rw [reader.read_nil]
  cases s with
  | between => cases hs
  | bare word => cases hs
  | str text => nofun
  | escape text => nofun
  | unicode text high left value => nofun
  | low text high => nofun
  | lowEscape text high => nofun

/-- The string that the reader is in comes out, with what was read of it in front. -/
theorem exists_of_read {s : State} {w : JsonText} (hs : s.inside = some w) {cs : List Char}
    {ts : List Token} (h : reader.read s cs = .ok ts) :
    ∃ v more, ts = .str v :: more ∧ w <+: v := by
  induction cs generalizing s w with
  | nil => exact absurd h (not_read_nil_inside hs ts)
  | cons c cs ih =>
    rcases read_inside hs h with ⟨-, -, more, rfl, -⟩ | ⟨t, kept, -, -, ht, -, hr⟩
    · exact ⟨w, more, rfl, List.prefix_refl w⟩
    · obtain ⟨v, more, rfl, hv⟩ := ih ht hr
      exact ⟨v, more, rfl, (List.prefix_append w kept).trans hv⟩

theorem prefix_of_read {s : State} {w : JsonText} (hs : s.inside = some w) {cs : List Char}
    {v : JsonText} {ts : List Token} (h : reader.read s cs = .ok (.str v :: ts)) : w <+: v := by
  obtain ⟨_, _, he, hv⟩ := exists_of_read hs h
  cases he
  exact hv

/-- A reader that has fallen behind the text, with `u` read of it and not kept, stays behind. -/
theorem read_behind (r rest : List Char) {s : State} {w u : JsonText} (hs : s.inside = some w)
    (hu : u ≠ []) (hesc : ∀ v, s = .escape v → '\\' ∈ u) (ts : List Token) :
    reader.read s (r ++ '"' :: ',' :: '"' :: rest) ≠ .ok (.str (w ++ (u ++ r)) :: ts) := by
  intro h
  induction r generalizing s w u with
  | nil =>
    rw [List.nil_append, List.append_nil] at h
    rcases read_inside hs h with ⟨-, -, more, he, -⟩ | ⟨t, kept, hstep, -, -, -, -⟩
    · exact hu (List.append_right_eq_self.mp (Token.str.inj (List.cons.inj he).1))
    · cases s with
      | between => cases hs
      | bare word => cases hs
      | str text => cases hstep
      | unicode text high left value => cases hstep
      | low text high => cases hstep
      | lowEscape text high => cases hstep
      | escape text =>
        cases hs
        -- the quote that ends the text is taken for part of it, and the next one ends it
        have hquote : step (.escape w) '"' = .ok ([], .str (w ++ ['"'])) := rfl
        have hcomma : step (.str (w ++ ['"'])) ',' = .ok ([], .str (w ++ ['"'] ++ [','])) := rfl
        have hend : step (.str (w ++ ['"'] ++ [','])) '"' =
            .ok ([.str (w ++ ['"'] ++ [','])], .between) := rfl
        rw [reader.read_of_quiet_step hquote, reader.read_of_quiet_step hcomma,
          reader.read_of_step hend] at h
        cases hr : reader.read .between rest with
        | error e =>
          rw [hr] at h
          cases h
        | ok more =>
          rw [hr] at h
          obtain ⟨he, -⟩ := List.cons.inj (Except.ok.inj h)
          have hw := Token.str.inj he
          rw [List.append_assoc, List.append_cancel_left_eq] at hw
          rw [← hw] at hesc
          exact absurd (hesc w rfl) (by decide)
  | cons c r ih =>
    rcases read_inside hs h with ⟨-, -, more, he, -⟩ | ⟨t, kept, -, ht', ht, hk, hr⟩
    · have hlen := congrArg List.length (Token.str.inj (List.cons.inj he).1)
      have := List.length_pos_iff.mpr hu
      simp only [List.length_append] at hlen
      omega
    · have hpos := List.length_pos_iff.mpr hu
      have hpre := prefix_of_read ht hr
      rw [List.prefix_append_right_inj] at hpre
      -- what was kept is the start of what was left to keep
      obtain ⟨u', rfl⟩ : kept <+: u :=
        List.prefix_of_prefix_length_le hpre (List.prefix_append _ _) (by omega)
      refine ih ht (u := u' ++ [c]) (by simp) (fun v hv => ?_) ?_
      · rw [ht' v hv]
        exact List.mem_append_right _ (List.mem_singleton.mpr rfl)
      · simpa [List.append_assoc] using hr

/-- Only a plain text comes out of the quotes as it was put between them. -/
theorem plain_of_read (p rest : List Char) {w : JsonText} {ts : List Token}
    (h : reader.read (.str w) (p ++ '"' :: ',' :: '"' :: rest) = .ok (.str (w ++ p) :: ts)) :
    ∀ c ∈ p, isPlain c = true := by
  induction p generalizing w with
  | nil => nofun
  | cons c p ih =>
    by_cases hc : isPlain c = true
    · rw [List.cons_append, reader.read_of_quiet_step (step_plain hc w)] at h
      have hsplit : w ++ c :: p = w ++ [c] ++ p := by
        rw [List.append_assoc, List.singleton_append]
      rw [hsplit] at h
      exact List.forall_mem_cons.mpr ⟨hc, ih h⟩
    · exfalso
      rw [isPlain_iff, not_and, not_and, Bool.not_eq_false] at hc
      by_cases hq : c = '"'
      · subst hq
        rcases read_inside (s := .str w) rfl h with ⟨-, -, more, he, -⟩ | ⟨t, kept, hstep, -⟩
        · have hlen := congrArg List.length (Token.str.inj (List.cons.inj he).1)
          simp only [List.length_append, List.length_cons] at hlen
          omega
        · cases hstep
      · by_cases hb : c = '\\'
        · subst hb
          have hstep : step (.str w) '\\' = .ok ([], .escape w) := rfl
          rw [List.cons_append, reader.read_of_quiet_step hstep] at h
          exact read_behind p rest (s := .escape w) (u := ['\\']) rfl (by simp) (by simp) ts h
        · have hstep : step (.str w) c = .error () := by
            simp [step, hq, hb, hc hq hb]
          rw [List.cons_append, reader.read_of_error hstep] at h
          cases h

theorem run_quoted {p : JsonText} (hp : ∀ c ∈ p, isPlain c = true) {behind : List Char}
    {out : List Token} {t : State} (h : reader.run (.str p) behind = .ok (out, t)) :
    reader.run (.str []) (p ++ behind) = .ok (out, t) :=
  reader.run_trans (run_plain hp []) h

theorem run_bare {w : JsonText} (hw : ∀ c ∈ w, isBare c = true) (v : JsonText) :
    reader.run (.bare v) w = .ok ([], .bare (v ++ w)) := by
  induction w generalizing v with
  | nil =>
    rw [List.append_nil]
    rfl
  | cons c w ih =>
    have hstep : step (.bare v) c = .ok ([], .bare (v ++ [c])) := by
      simp [step, hw c List.mem_cons_self]
    rw [reader.run_of_quiet_step hstep, ih fun d hd => hw d (List.mem_cons_of_mem c hd),
      List.append_assoc, List.singleton_append]

theorem isBare_ne {c : Char} (h : isBare c = true) : isWhitespace c = false ∧ c ≠ '"' := by
  constructor
  · rw [Bool.eq_false_iff]
    intro hw
    simp only [isWhitespace, Bool.or_eq_true, beq_iff_eq] at hw
    rcases hw with ((rfl | rfl) | rfl) | rfl <;> cases h
  · rintro rfl
    cases h

/-- A number or a literal between other tokens. -/
theorem run_word {w : JsonText} (hw : ∀ c ∈ w, isBare c = true) (hne : w ≠ []) :
    reader.run .between w = .ok ([], .bare w) := by
  cases w with
  | nil => exact absurd rfl hne
  | cons c w =>
    have hc := hw c List.mem_cons_self
    obtain ⟨hs, hq⟩ := isBare_ne hc
    have hstep : step .between c = .ok ([], .bare [c]) := by simp [step, outside, hs, hq, hc]
    rw [reader.run_of_quiet_step hstep, run_bare fun d hd => hw d (List.mem_cons_of_mem c hd),
      List.singleton_append]

theorem run_unquoted {w : JsonText} (hw : ∀ c ∈ w, isBare c = true) (hne : w ≠ [])
    {behind : List Char} {out : List Token} {t : State}
    (h : reader.run (.bare w) behind = .ok (out, t)) :
    reader.run .between (w ++ behind) = .ok (out, t) :=
  reader.run_trans (run_word hw hne) h

end State

/-! ### Numbers as they are printed -/

def intText (i : Int) : JsonText :=
  match i with
  | .ofNat n => Nat.toDigits 10 n
  | .negSucc n => '-' :: Nat.toDigits 10 (n + 1)

theorem isDigit_toDigits {n : Nat} : ∀ c ∈ Nat.toDigits 10 n, c.isDigit = true :=
  fun _ hc => Nat.isDigit_of_mem_toDigits (by decide) (by decide) hc

theorem dropWhile_digits {w : JsonText} (h : ∀ c ∈ w, c.isDigit = true) :
    w.dropWhile Char.isDigit = [] := List.dropWhile_eq_nil_iff.mpr h

/-- No number but zero starts with a zero. -/
theorem head_toDigits (n : Nat) : (Nat.toDigits 10 n).head? = some '0' → n = 0 := by
  induction n using Nat.strongRecOn with
  | ind n ih =>
    by_cases hn : n < 10
    · rw [Nat.toDigits_of_lt_base hn]
      revert hn
      intro hn h
      match n, hn with
      | 0, _ => rfl
      | 1, _ | 2, _ | 3, _ | 4, _ | 5, _ | 6, _ | 7, _ | 8, _ | 9, _ => cases h
    · rw [Nat.toDigits_of_base_le (by decide) (by omega)]
      intro h
      rw [List.head?_append_of_ne_nil _ Nat.toDigits_ne_nil] at h
      have := ih (n / 10) (by omega) h
      omega

theorem integerPart_toDigits (n : Nat) : integerPart (Nat.toDigits 10 n) = some [] := by
  have hhead := head_toDigits n
  have hdigits := isDigit_toDigits (n := n)
  cases hd : Nat.toDigits 10 n with
  | nil => exact absurd hd Nat.toDigits_ne_nil
  | cons c rest =>
    rw [hd] at hhead hdigits
    unfold integerPart
    dsimp only
    by_cases hc : c = '0'
    · subst hc
      obtain rfl := hhead rfl
      rw [Nat.toDigits_zero] at hd
      cases hd
      rfl
    · rw [if_neg hc, if_pos (hdigits c List.mem_cons_self),
        dropWhile_digits fun d hd => hdigits d (List.mem_cons_of_mem c hd)]

theorem isNumber_intText (i : Int) : isNumber (intText i) = true := by
  cases i with
  | ofNat n =>
    have hhead : (Nat.toDigits 10 n).head? ≠ some '-' := by
      intro h
      have hdigit := isDigit_toDigits (n := n) '-' (List.mem_of_mem_head? h)
      cases hdigit
    unfold isNumber intText
    dsimp only
    rw [if_neg hhead, integerPart_toDigits]
    rfl
  | negSucc n =>
    unfold isNumber intText
    simp only [List.head?_cons, if_true, List.tail_cons, integerPart_toDigits]
    rfl

/-! ### The value of some tokens -/

theorem members_eq_some_iff {n : Nat} {ts rest : List Token} {ms : List (JsonText × Json)} :
    members (n + 1) ts = some (ms, rest) ↔ ∃ name ts' j, ts = .str name :: .colon :: ts' ∧
      ((value n ts' = some (j, .rbrace :: rest) ∧ ms = [(name, j)]) ∨
        ∃ between more, value n ts' = some (j, .comma :: between) ∧
          members n between = some (more, rest) ∧ ms = (name, j) :: more) := by
  constructor
  · intro h
    unfold members at h
    split at h
    · rename_i k name ts' hk
      obtain rfl := Nat.succ.inj hk
      split at h
      · rename_i j between hvalue
        obtain ⟨⟨more, rest'⟩, hmore, he⟩ := Option.map_eq_some_iff.mp h
        cases he
        exact ⟨name, ts', j, rfl, .inr ⟨between, more, hvalue, hmore, rfl⟩⟩
      · rename_i j rest' hvalue
        cases h
        exact ⟨name, ts', j, rfl, .inl ⟨hvalue, rfl⟩⟩
      · cases h
    · cases h
  · rintro ⟨name, ts', j, rfl, ⟨hvalue, rfl⟩ | ⟨between, more, hvalue, hmore, rfl⟩⟩
    · simp only [members, hvalue]
    · simp only [members, hvalue, hmore, Option.map_some]

theorem elements_eq_some_iff {n : Nat} {ts rest : List Token} {js : List Json} :
    elements (n + 1) ts = some (js, rest) ↔ ∃ j,
      (value n ts = some (j, .rbracket :: rest) ∧ js = [j]) ∨
        ∃ between more, value n ts = some (j, .comma :: between) ∧
          elements n between = some (more, rest) ∧ js = j :: more := by
  constructor
  · intro h
    unfold elements at h
    split at h
    · rename_i j between hvalue
      obtain ⟨⟨more, rest'⟩, hmore, he⟩ := Option.map_eq_some_iff.mp h
      cases he
      exact ⟨j, .inr ⟨between, more, hvalue, hmore, rfl⟩⟩
    · rename_i j rest' hvalue
      cases h
      exact ⟨j, .inl ⟨hvalue, rfl⟩⟩
    · cases h
  · rintro ⟨j, ⟨hvalue, rfl⟩ | ⟨between, more, hvalue, hmore, rfl⟩⟩
    · simp only [elements, hvalue]
    · simp only [elements, hvalue, hmore, Option.map_some]

/-- All fuel that is enough for the tokens in front of `rest` gives the same result. -/
def Reads {β : Type} (parser : Nat → List Token → Option (β × List Token)) (ts : List Token) (b : β)
    (rest : List Token) : Prop :=
  rest.length < ts.length ∧ ∀ n, ts.length ≤ rest.length + n → parser n ts = some (b, rest)

namespace Reads

variable {β : Type} {parser : Nat → List Token → Option (β × List Token)} {b : β}
  {ts rest between : List Token} {name : JsonText} {j : Json} {ms : List (JsonText × Json)}
  {js : List Json}

theorem of_succ (hlen : rest.length < ts.length)
    (h : ∀ m, ts.length ≤ rest.length + m + 1 → parser (m + 1) ts = some (b, rest)) :
    Reads parser ts b rest := by
  refine ⟨hlen, fun n hn => ?_⟩
  cases n with
  | zero => omega
  | succ m => exact h m hn

theorem exists_eq (h : Reads parser ts b rest) : ∃ n, parser (n + 1) ts = some (b, rest) :=
  ⟨ts.length, h.2 _ (by omega)⟩

theorem str (text : JsonText) (ts : List Token) : Reads value (.str text :: ts) (.str text) ts :=
  of_succ (by simp) fun _ _ => by simp only [value]

theorem bare {word : JsonText} (h : scalar word = some j) (ts : List Token) :
    Reads value (.bare word :: ts) j ts :=
  of_succ (by simp) fun _ _ => by simp only [value, h, Option.map_some]

theorem obj (hne : ts.head? ≠ some .rbrace) (h : Reads members ts ms rest) :
    Reads value (.lbrace :: ts) (.obj ms) rest := by
  obtain ⟨hlen, hreads⟩ := h
  refine of_succ (by rw [List.length_cons]; omega) fun m hm => ?_
  rw [List.length_cons] at hm
  simp only [value, hne, if_false, hreads m (by omega), Option.map_some]

theorem obj_nil (ts : List Token) : Reads value (.lbrace :: .rbrace :: ts) (.obj []) ts :=
  of_succ (by simp only [List.length_cons]; omega) fun _ _ => by
    simp only [value, List.head?_cons, if_true, List.tail_cons]

theorem arr (hne : ts.head? ≠ some .rbracket) (h : Reads elements ts js rest) :
    Reads value (.lbracket :: ts) (.arr js) rest := by
  obtain ⟨hlen, hreads⟩ := h
  refine of_succ (by rw [List.length_cons]; omega) fun m hm => ?_
  rw [List.length_cons] at hm
  simp only [value, hne, if_false, hreads m (by omega), Option.map_some]

theorem arr_nil (ts : List Token) : Reads value (.lbracket :: .rbracket :: ts) (.arr []) ts :=
  of_succ (by simp only [List.length_cons]; omega) fun _ _ => by
    simp only [value, List.head?_cons, if_true, List.tail_cons]

theorem last_member (h : Reads value ts j (.rbrace :: rest)) :
    Reads members (.str name :: .colon :: ts) [(name, j)] rest := by
  obtain ⟨hlen, hreads⟩ := h
  simp only [List.length_cons] at hlen hreads
  refine of_succ (by simp only [List.length_cons]; omega) fun m hm => ?_
  simp only [List.length_cons] at hm
  exact members_eq_some_iff.mpr ⟨name, ts, j, rfl, .inl ⟨hreads m (by omega), rfl⟩⟩

theorem member (h : Reads value ts j (.comma :: between)) (hms : Reads members between ms rest) :
    Reads members (.str name :: .colon :: ts) ((name, j) :: ms) rest := by
  obtain ⟨hlen, hreads⟩ := h
  obtain ⟨hlen', hreads'⟩ := hms
  simp only [List.length_cons] at hlen hreads
  refine of_succ (by simp only [List.length_cons]; omega) fun m hm => ?_
  simp only [List.length_cons] at hm
  exact members_eq_some_iff.mpr ⟨name, ts, j, rfl,
    .inr ⟨between, ms, hreads m (by omega), hreads' m (by omega), rfl⟩⟩

theorem last_element (h : Reads value ts j (.rbracket :: rest)) : Reads elements ts [j] rest := by
  obtain ⟨hlen, hreads⟩ := h
  simp only [List.length_cons] at hlen hreads
  exact of_succ (by omega) fun m hm =>
    elements_eq_some_iff.mpr ⟨j, .inl ⟨hreads m (by omega), rfl⟩⟩

theorem element (h : Reads value ts j (.comma :: between)) (hjs : Reads elements between js rest) :
    Reads elements ts (j :: js) rest := by
  obtain ⟨hlen, hreads⟩ := h
  obtain ⟨hlen', hreads'⟩ := hjs
  simp only [List.length_cons] at hlen hreads
  exact of_succ (by omega) fun m hm => elements_eq_some_iff.mpr
    ⟨j, .inr ⟨between, js, hreads m (by omega), hreads' m (by omega), rfl⟩⟩

end Reads

/-- What is read with some fuel is read with all that is enough. -/
theorem reads_of_eq (n : Nat) :
    (∀ ts j rest, value n ts = some (j, rest) → Reads value ts j rest) ∧
      (∀ ts ms rest, members n ts = some (ms, rest) → Reads members ts ms rest) ∧
      ∀ ts js rest, elements n ts = some (js, rest) → Reads elements ts js rest := by
  induction n with
  | zero =>
    refine ⟨fun ts j rest h => ?_, fun ts ms rest h => ?_, fun ts js rest h => ?_⟩
    · simp [value] at h
    · simp [members] at h
    · simp [elements] at h
  | succ n ih =>
    obtain ⟨ihv, ihm, ihe⟩ := ih
    refine ⟨fun ts j rest h => ?_, fun ts ms rest h => ?_, fun ts js rest h => ?_⟩
    · rcases ts with _ | ⟨t, ts⟩
      · simp [value] at h
      · cases t with
        | str text =>
          simp only [value, Option.some.injEq, Prod.mk.injEq] at h
          obtain ⟨rfl, rfl⟩ := h
          exact .str text ts
        | bare word =>
          simp only [value, Option.map_eq_some_iff, Prod.mk.injEq] at h
          obtain ⟨j, hj, rfl, rfl⟩ := h
          exact .bare hj ts
        | lbrace =>
          simp only [value] at h
          split_ifs at h with hempty
          · obtain ⟨ts, rfl⟩ := List.head?_eq_some_iff.mp hempty
            cases h
            exact .obj_nil ts
          · obtain ⟨⟨ms, rest⟩, hms, he⟩ := Option.map_eq_some_iff.mp h
            cases he
            exact .obj hempty (ihm ts ms rest hms)
        | lbracket =>
          simp only [value] at h
          split_ifs at h with hempty
          · obtain ⟨ts, rfl⟩ := List.head?_eq_some_iff.mp hempty
            cases h
            exact .arr_nil ts
          · obtain ⟨⟨js, rest⟩, hjs, he⟩ := Option.map_eq_some_iff.mp h
            cases he
            exact .arr hempty (ihe ts js rest hjs)
        | rbrace => simp [value] at h
        | rbracket => simp [value] at h
        | colon => simp [value] at h
        | comma => simp [value] at h
    · obtain ⟨name, ts', j, rfl, ⟨hvalue, rfl⟩ | ⟨between, more, hvalue, hmore, rfl⟩⟩ :=
        members_eq_some_iff.mp h
      · exact .last_member (ihv _ _ _ hvalue)
      · exact .member (ihv _ _ _ hvalue) (ihm _ _ _ hmore)
    · obtain ⟨j, ⟨hvalue, rfl⟩ | ⟨between, more, hvalue, hmore, rfl⟩⟩ := elements_eq_some_iff.mp h
      · exact .last_element (ihv _ _ _ hvalue)
      · exact .element (ihv _ _ _ hvalue) (ihe _ _ _ hmore)

theorem reads_str_iff {text : JsonText} {ts rest : List Token} {j : Json} :
    Reads value (.str text :: ts) j rest ↔ j = .str text ∧ rest = ts := by
  constructor
  · intro h
    obtain ⟨n, hn⟩ := h.exists_eq
    simp only [value, Option.some.injEq, Prod.mk.injEq] at hn
    exact ⟨hn.1.symm, hn.2.symm⟩
  · rintro ⟨rfl, rfl⟩
    exact .str text rest

theorem reads_bare_iff {word : JsonText} {ts rest : List Token} {j : Json} :
    Reads value (.bare word :: ts) j rest ↔ scalar word = some j ∧ rest = ts := by
  constructor
  · intro h
    obtain ⟨n, hn⟩ := h.exists_eq
    simp only [value, Option.map_eq_some_iff, Prod.mk.injEq] at hn
    obtain ⟨j, hj, rfl, rfl⟩ := hn
    exact ⟨hj, rfl⟩
  · rintro ⟨hj, rfl⟩
    exact .bare hj rest

/-- An object that is not empty. -/
theorem reads_obj_iff {text : JsonText} {ts rest : List Token} {j : Json} :
    Reads value (.lbrace :: .str text :: ts) j rest ↔
      ∃ ms, j = .obj ms ∧ Reads members (.str text :: ts) ms rest := by
  have hne : (Token.str text :: ts).head? ≠ some .rbrace := nofun
  constructor
  · intro h
    obtain ⟨n, hn⟩ := h.exists_eq
    simp only [value, hne, if_false, Option.map_eq_some_iff, Prod.mk.injEq] at hn
    obtain ⟨⟨ms, rest⟩, hms, rfl, rfl⟩ := hn
    exact ⟨ms, rfl, (reads_of_eq n).2.1 _ _ _ hms⟩
  · rintro ⟨ms, rfl, hms⟩
    exact .obj hne hms

theorem reads_members_iff {name : JsonText} {ts rest : List Token} {ms : List (JsonText × Json)} :
    Reads members (.str name :: .colon :: ts) ms rest ↔ ∃ j,
      (Reads value ts j (.rbrace :: rest) ∧ ms = [(name, j)]) ∨
        ∃ between more, Reads value ts j (.comma :: between) ∧ Reads members between more rest ∧
          ms = (name, j) :: more := by
  constructor
  · intro h
    obtain ⟨n, hn⟩ := h.exists_eq
    obtain ⟨_, _, j, he, ⟨hvalue, rfl⟩ | ⟨between, more, hvalue, hmore, rfl⟩⟩ :=
      members_eq_some_iff.mp hn
    · cases he
      exact ⟨j, .inl ⟨(reads_of_eq n).1 _ _ _ hvalue, rfl⟩⟩
    · cases he
      exact ⟨j, .inr ⟨between, more, (reads_of_eq n).1 _ _ _ hvalue,
        (reads_of_eq n).2.1 _ _ _ hmore, rfl⟩⟩
  · rintro ⟨j, ⟨hvalue, rfl⟩ | ⟨between, more, hvalue, hmore, rfl⟩⟩
    · exact .last_member hvalue
    · exact .member hvalue hmore

theorem parse_eq_some_iff {text : JsonText} {j : Json} : parse text = some j ↔
    ∃ ts, reader.read .between text = .ok ts ∧ Reads value ts j [] := by
  unfold parse
  constructor
  · intro h
    split at h
    · rename_i ts hread
      split at h
      · rename_i j' hvalue
        cases h
        exact ⟨ts, hread, (reads_of_eq _).1 _ _ _ hvalue⟩
      · cases h
    · cases h
  · rintro ⟨ts, hread, hvalue⟩
    have hlen : ts.length ≤ ([] : List Token).length + (ts.length + 1) := by
      rw [List.length_nil]
      omega
    simp only [hread, hvalue.2 _ hlen]

/-! ### Scalars -/

theorem scalar_of_isNumber {w : JsonText} (h : isNumber w = true) : scalar w = some (.num w) := by
  have hne {v : JsonText} (hv : isNumber v = false) : w ≠ v := by
    rintro rfl
    rw [h] at hv
    cases hv
  unfold scalar
  rw [if_neg (hne (by decide)), if_neg (hne (by decide)), if_neg (hne (by decide)), if_pos h]

theorem scalar_intText (i : Int) : scalar (intText i) = some (.num (intText i)) :=
  scalar_of_isNumber (isNumber_intText i)

def boolText (b : Bool) : JsonText := if b then "true".toList else "false".toList

theorem scalar_boolText (b : Bool) : scalar (boolText b) = some (.bool b) := by
  cases b <;> rfl

theorem isBare_boolText (b : Bool) : ∀ c ∈ boolText b, isBare c = true := by
  cases b <;> decide

theorem boolText_ne_nil (b : Bool) : boolText b ≠ [] := by
  cases b <;> decide

theorem isBare_intText (i : Int) : ∀ c ∈ intText i, isBare c = true := by
  have hdigits (n : Nat) : ∀ c ∈ Nat.toDigits 10 n, isBare c = true := fun c hc => by
    simp [isBare, Char.isAlphanum, isDigit_toDigits c hc]
  cases i with
  | ofNat n => exact hdigits n
  | negSucc n => exact List.forall_mem_cons.mpr ⟨rfl, hdigits (n + 1)⟩

theorem intText_ne_nil (i : Int) : intText i ≠ [] := by
  cases i with
  | ofNat n => exact Nat.toDigits_ne_nil
  | negSucc n => exact List.cons_ne_nil _ _

/-! ### Members -/

section Members

variable {name word text : JsonText} {j : Json} {ts rest : List Token} {ms : List (JsonText × Json)}

theorem reads_str_member_iff : Reads members (.str name :: .colon :: .str text :: .comma :: ts) ms rest ↔
    ∃ more, ms = (name, .str text) :: more ∧ Reads members ts more rest := by
  simp only [reads_members_iff, reads_str_iff, List.cons.injEq, reduceCtorEq, false_and, and_false,
    false_or, true_and]
  constructor
  · rintro ⟨j, between, more, ⟨rfl, rfl⟩, hmore, rfl⟩
    exact ⟨more, rfl, hmore⟩
  · rintro ⟨more, rfl, hmore⟩
    exact ⟨_, ts, more, ⟨rfl, rfl⟩, hmore, rfl⟩

theorem reads_bare_member_iff (h : scalar word = some j) :
    Reads members (.str name :: .colon :: .bare word :: .comma :: ts) ms rest ↔
      ∃ more, ms = (name, j) :: more ∧ Reads members ts more rest := by
  simp only [reads_members_iff, reads_bare_iff, List.cons.injEq, reduceCtorEq, false_and, and_false,
    false_or, true_and]
  constructor
  · rintro ⟨k, between, more, ⟨hk, rfl⟩, hmore, rfl⟩
    rw [h, Option.some.injEq] at hk
    exact ⟨more, by rw [hk], hmore⟩
  · rintro ⟨more, rfl, hmore⟩
    exact ⟨_, ts, more, ⟨h, rfl⟩, hmore, rfl⟩

theorem reads_last_bare_member_iff (h : scalar word = some j) :
    Reads members (.str name :: .colon :: .bare word :: .rbrace :: ts) ms rest ↔
      ms = [(name, j)] ∧ rest = ts := by
  simp only [reads_members_iff, reads_bare_iff, List.cons.injEq, reduceCtorEq, false_and, and_false,
    or_false, true_and, exists_false]
  constructor
  · rintro ⟨k, ⟨hk, rfl⟩, rfl⟩
    rw [h, Option.some.injEq] at hk
    exact ⟨by rw [hk], rfl⟩
  · rintro ⟨rfl, rfl⟩
    exact ⟨j, ⟨h, rfl⟩, rfl⟩

/-- A member that is an object, when its own members are known. -/
theorem reads_obj_member_iff {name' : JsonText} {inner : List (JsonText × Json)} {ts' : List Token}
    (h : ∀ ms rest, Reads members (.str name' :: ts) ms rest ↔ ms = inner ∧ rest = .comma :: ts') :
    Reads members (.str name :: .colon :: .lbrace :: .str name' :: ts) ms rest ↔
      ∃ more, ms = (name, .obj inner) :: more ∧ Reads members ts' more rest := by
  simp only [reads_members_iff, reads_obj_iff, h, List.cons.injEq, reduceCtorEq, false_and,
    and_false, exists_false, false_or, true_and]
  constructor
  · rintro ⟨j, between, more, ⟨ms, rfl, rfl, rfl⟩, hmore, rfl⟩
    exact ⟨more, rfl, hmore⟩
  · rintro ⟨more, rfl, hmore⟩
    exact ⟨_, ts', more, ⟨inner, rfl, rfl, rfl⟩, hmore, rfl⟩

/-- Members in front of those of an object that is the first member. -/
theorem reads_obj_front_iff {first first' : JsonText} {front : List (JsonText × Json)}
    {ts' : List Token}
    (h : ∀ ms rest, Reads members (.str first :: ts) ms rest ↔
      ∃ more, ms = front ++ more ∧ Reads members (.str first' :: ts') more rest) :
    Reads members (.str name :: .colon :: .lbrace :: .str first :: ts) ms rest ↔
      ∃ inner top, ms = (name, .obj (front ++ inner)) :: top ∧
        Reads members (.str name :: .colon :: .lbrace :: .str first' :: ts')
          ((name, .obj inner) :: top) rest := by
  simp only [reads_members_iff, reads_obj_iff, h]
  constructor
  · rintro ⟨j, ⟨⟨ms', rfl, inner, rfl, hinner⟩, rfl⟩ | ⟨between, top, ⟨ms', rfl, inner, rfl, hinner⟩,
      htop, rfl⟩⟩
    · exact ⟨inner, [], rfl, .obj inner, .inl ⟨⟨inner, rfl, hinner⟩, rfl⟩⟩
    · exact ⟨inner, top, rfl, .obj inner, .inr ⟨between, top, ⟨inner, rfl, hinner⟩, htop, rfl⟩⟩
  · rintro ⟨inner, top, rfl, j, ⟨⟨ms', rfl, hinner⟩, he⟩ | ⟨between, more, ⟨ms', rfl, hinner⟩, hmore,
      he⟩⟩
    · cases he
      exact ⟨_, .inl ⟨⟨_, rfl, inner, rfl, hinner⟩, rfl⟩⟩
    · cases he
      exact ⟨_, .inr ⟨between, top, ⟨_, rfl, inner, rfl, hinner⟩, hmore, rfl⟩⟩

/-- The first member is an object, whatever is behind it. -/
theorem exists_of_reads_obj_member {name' : JsonText}
    (h : Reads members (.str name :: .colon :: .lbrace :: .str name' :: ts) ms rest) :
    ∃ inner more between, ms = (name, .obj inner) :: more ∧
      Reads members (.str name' :: ts) inner between := by
  obtain ⟨j, ⟨hvalue, rfl⟩ | ⟨between, more, hvalue, -, rfl⟩⟩ := reads_members_iff.mp h
  · obtain ⟨inner, rfl, hinner⟩ := reads_obj_iff.mp hvalue
    exact ⟨inner, [], _, rfl, hinner⟩
  · obtain ⟨inner, rfl, hinner⟩ := reads_obj_iff.mp hvalue
    exact ⟨inner, more, _, rfl, hinner⟩

theorem exists_of_reads_str_member
    (h : Reads members (.str name :: .colon :: .str text :: ts) ms rest) :
    ∃ more, ms = (name, .str text) :: more := by
  obtain ⟨j, ⟨hvalue, rfl⟩ | ⟨between, more, hvalue, -, rfl⟩⟩ := reads_members_iff.mp h
  · obtain ⟨rfl, -⟩ := reads_str_iff.mp hvalue
    exact ⟨[], rfl⟩
  · obtain ⟨rfl, -⟩ := reads_str_iff.mp hvalue
    exact ⟨more, rfl⟩

end Members

/-- Whether no member of an object has some name. -/
def lacks (name : JsonText) (ms : List (JsonText × Json)) : Prop := ∀ m ∈ ms, m.1 ≠ name

theorem lacks_cons {name : JsonText} {m : JsonText × Json} {ms : List (JsonText × Json)} :
    lacks name (m :: ms) ↔ m.1 ≠ name ∧ lacks name ms := List.forall_mem_cons

theorem member_cons_of_ne {name : JsonText} {m : JsonText × Json} {ms : List (JsonText × Json)}
    (h : m.1 ≠ name) : member name (.obj (m :: ms)) = member name (.obj ms) := by
  unfold member
  dsimp only
  rw [List.filter_cons_of_neg (by simpa using h)]

theorem member_cons_self {name : JsonText} {j k : Json} {ms : List (JsonText × Json)} :
    member name (.obj ((name, j) :: ms)) = some k ↔ k = j ∧ lacks name ms := by
  have hfilter : ms.filter (fun m => m.1 = name) = [] ↔ lacks name ms := by
    simp [lacks, List.filter_eq_nil_iff]
  unfold member
  dsimp only
  rw [List.filter_cons_of_pos (by simp), ← hfilter]
  cases ms.filter fun m => m.1 = name with
  | nil => simp [eq_comm]
  | cons m more => simp

end Json

end Blkcp.Lib
