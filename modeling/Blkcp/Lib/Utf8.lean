import Mathlib.Data.List.Basic
import Blkcp.Lib.Scan
set_option autoImplicit false

/-! Texts as bytes in UTF-8, and the text that is made of bytes that may not be UTF-8. -/

namespace Blkcp.Lib.Utf8

def encode (text : List Char) : List UInt8 := text.flatMap String.utf8EncodeChar

/-- A string of bytes that is written with one character for each. -/
def bytes (s : List Char) : List UInt8 := s.map fun c => UInt8.ofNat c.toNat

theorem toNat_ofNat_toNat (b : UInt8) : (Char.ofNat b.toNat).toNat = b.toNat := by
  have hb : b.toNat < 256 := b.toNat_lt
  have hvalid : b.toNat.isValidChar := .inl (by omega)
  rw [Char.ofNat, dif_pos hvalid]
  rfl

/-! ### Lossy decoding -/

/-- Where a decoder stands: the bytes to come of a character, what is known of its number, and the
least and the greatest byte that may come next. -/
inductive State where
  | start
  | owed (left value least greatest : Nat)

def replacement : Char := '\ufffd'

def first (b : Nat) : List Char × State :=
  if b < 0x80 then ([Char.ofNat b], .start)
  else if 0xc2 ≤ b ∧ b < 0xe0 then ([], .owed 1 (b - 0xc0) 0x80 0xbf)
  else if 0xe0 ≤ b ∧ b < 0xf0 then
    ([], .owed 2 (b - 0xe0) (if b = 0xe0 then 0xa0 else 0x80) (if b = 0xed then 0x9f else 0xbf))
  else if 0xf0 ≤ b ∧ b < 0xf5 then
    ([], .owed 3 (b - 0xf0) (if b = 0xf0 then 0x90 else 0x80) (if b = 0xf4 then 0x8f else 0xbf))
  else ([replacement], .start)

namespace State

/-- A byte that does not go on with a character ends it, and is read as the first one of the
next. -/
def step (s : State) (byte : UInt8) : Except Empty (List Char × State) :=
  let b := byte.toNat
  match s with
  | .start => .ok (first b)
  | .owed left value least greatest =>
    if least ≤ b ∧ b ≤ greatest then
      let value := 64 * value + (b - 0x80)
      .ok (if left ≤ 1 then ([Char.ofNat value], .start) else ([], .owed (left - 1) value 0x80 0xbf))
    else .ok (replacement :: (first b).1, (first b).2)

def close (s : State) : Except Empty (List Char) :=
  match s with
  | .start => .ok []
  | .owed _ _ _ _ => .ok [replacement]

end State

abbrev decoder : Scanner State UInt8 Char Empty := ⟨State.step, State.close⟩

/-- The text of some bytes, with a replacement character for each sequence that is cut short and
each byte that can start none. -/
def lossy (bytes : List UInt8) : List Char :=
  match decoder.read .start bytes with
  | .ok text => text
  | .error e => nomatch e

theorem step_start {b : Nat} (hb : b < 256) :
    State.step .start (UInt8.ofNat b) = .ok (first b) := by
  unfold State.step
  dsimp only
  rw [UInt8.toNat_ofNat_of_lt' hb]

/-- A byte that goes on with a character. -/
theorem step_owed {left value least greatest b : Nat} (hb : b < 0x40) (hl : least ≤ b + 0x80)
    (hg : b + 0x80 ≤ greatest) :
    State.step (.owed left value least greatest) (UInt8.ofNat (b + 0x80)) =
      .ok (if left ≤ 1 then ([Char.ofNat (64 * value + b)], .start)
        else ([], .owed (left - 1) (64 * value + b) 0x80 0xbf)) := by
  have hbyte : (UInt8.ofNat (b + 0x80)).toNat = b + 0x80 :=
    UInt8.toNat_ofNat_of_lt' (show b + 0x80 < 256 by omega)
  unfold State.step
  dsimp only
  rw [hbyte, if_pos ⟨hl, hg⟩, Nat.add_sub_cancel]

/-- The bytes that a first byte with `left` of them asks for. -/
theorem run_owed_one {value least greatest b : Nat} (hb : b < 0x40) (hl : least ≤ b + 0x80)
    (hg : b + 0x80 ≤ greatest) :
    decoder.run (.owed 1 value least greatest) [UInt8.ofNat (b + 0x80)] =
      .ok ([Char.ofNat (64 * value + b)], .start) := by
  simp only [Scanner.run, step_owed hb hl hg, Nat.le_refl, if_true, bind, Except.bind,
    List.append_nil]

theorem run_owed_succ {left value least greatest b : Nat} (hleft : 1 ≤ left) (hb : b < 0x40)
    (hl : least ≤ b + 0x80) (hg : b + 0x80 ≤ greatest) (more : List UInt8) :
    decoder.run (.owed (left + 1) value least greatest) (UInt8.ofNat (b + 0x80) :: more) =
      decoder.run (.owed left (64 * value + b) 0x80 0xbf) more := by
  have hstep : State.step (.owed (left + 1) value least greatest) (UInt8.ofNat (b + 0x80)) =
      .ok ([], .owed left (64 * value + b) 0x80 0xbf) := by
    rw [step_owed hb hl hg, if_neg (show ¬ left + 1 ≤ 1 by omega), Nat.add_sub_cancel]
  exact decoder.run_of_quiet_step hstep more

theorem run_first {b : Nat} (hb : b < 256) {t : State} (h : first b = ([], t))
    (more : List UInt8) :
    decoder.run .start (UInt8.ofNat b :: more) = decoder.run t more :=
  decoder.run_of_quiet_step ((step_start hb).trans (congrArg Except.ok h)) more

theorem run_encodeChar (c : Char) :
    decoder.run .start (String.utf8EncodeChar c) = .ok ([c], .start) := by
  have hvalid := c.valid
  have hc : Char.ofNat c.val.toNat = c := Char.ofNat_toNat c
  unfold String.utf8EncodeChar
  rw [UInt32.isValidChar, Nat.isValidChar] at hvalid
  generalize c.val.toNat = v at hc hvalid
  dsimp only
  split_ifs with h1 h2 h3
  · simp only [Scanner.run, step_start (show v < 256 by omega), first, bind, Except.bind,
      if_pos (show v < 0x80 by omega), hc, List.append_nil]
  · have h0 : first (v / 64 % 32 + 0xc0) = ([], .owed 1 (v / 64 % 32) 0x80 0xbf) := by
      unfold first
      rw [if_neg (by omega), if_pos (by omega), Nat.add_sub_cancel]
    rw [run_first (by omega) h0, run_owed_one (by omega) (by omega) (by omega),
      show 64 * (v / 64 % 32) + v % 64 = v by omega, hc]
  · have h0 : first (v / 4096 % 16 + 0xe0) = ([], .owed 2 (v / 4096 % 16)
        (if v / 4096 % 16 + 0xe0 = 0xe0 then 0xa0 else 0x80)
        (if v / 4096 % 16 + 0xe0 = 0xed then 0x9f else 0xbf)) := by
      unfold first
      rw [if_neg (by omega), if_neg (by omega), if_pos (by omega), Nat.add_sub_cancel]
    rw [run_first (by omega) h0, run_owed_succ (by omega) (by omega) (by split <;> omega)
      (by split <;> omega), run_owed_one (by omega) (by omega) (by omega),
      show 64 * (64 * (v / 4096 % 16) + v / 64 % 64) + v % 64 = v by omega, hc]
  · have h0 : first (v / 262144 % 8 + 0xf0) = ([], .owed 3 (v / 262144 % 8)
        (if v / 262144 % 8 + 0xf0 = 0xf0 then 0x90 else 0x80)
        (if v / 262144 % 8 + 0xf0 = 0xf4 then 0x8f else 0xbf)) := by
      unfold first
      rw [if_neg (by omega), if_neg (by omega), if_neg (by omega), if_pos (by omega),
        Nat.add_sub_cancel]
    rw [run_first (by omega) h0, run_owed_succ (by omega) (by omega) (by split <;> omega)
      (by split <;> omega), run_owed_succ (by omega) (by omega) (by omega) (by omega),
      run_owed_one (by omega) (by omega) (by omega),
      show 64 * (64 * (64 * (v / 262144 % 8) + v / 4096 % 64) + v / 64 % 64) + v % 64 = v by omega,
      hc]

theorem run_encode (text : List Char) : decoder.run .start (encode text) = .ok (text, .start) := by
  induction text with
  | nil => rfl
  | cons c text ih => exact decoder.run_trans (run_encodeChar c) ih

theorem lossy_encode (text : List Char) : lossy (encode text) = text := by
  have hread : decoder.read .start (encode text) = .ok text := by
    have h := decoder.read_of_run (run_encode text) []
    rw [List.append_nil, Scanner.read_nil] at h
    rw [h]
    show Except.ok (text ++ []) = Except.ok text
    rw [List.append_nil]
  unfold lossy
  rw [hread]

theorem encode_injective {s t : List Char} (h : encode s = encode t) : s = t := by
  rw [← lossy_encode s, h, lossy_encode]

/-! ### Where ASCII characters stand -/

theorem encode_append (s t : List Char) : encode (s ++ t) = encode s ++ encode t :=
  List.flatMap_append

theorem encode_cons (c : Char) (t : List Char) :
    encode (c :: t) = String.utf8EncodeChar c ++ encode t := rfl

/-- A byte below 0x80 is a character. -/
theorem encodeChar_of_mem {c : Char} {b : UInt8} (hb : b ∈ String.utf8EncodeChar c)
    (h : b.toNat < 0x80) : String.utf8EncodeChar c = [b] ∧ Char.ofNat b.toNat = c := by
  have hc : Char.ofNat c.val.toNat = c := Char.ofNat_toNat c
  have htail (n : Nat) (hn : 0x80 ≤ n ∧ n < 256) : b ≠ UInt8.ofNat n := by
    rintro rfl
    rw [UInt8.toNat_ofNat_of_lt' hn.2] at h
    omega
  unfold String.utf8EncodeChar at hb ⊢
  generalize c.val.toNat = v at hc hb
  dsimp only at hb ⊢
  split_ifs at hb ⊢ with h1 h2 h3
  · rw [List.mem_singleton] at hb
    subst hb
    rw [UInt8.toNat_ofNat_of_lt' (show v < 256 by omega)]
    exact ⟨rfl, hc⟩
  · simp only [List.mem_cons, List.not_mem_nil, or_false] at hb
    rcases hb with hb | hb
    · exact absurd hb (htail _ (by omega))
    · exact absurd hb (htail _ (by omega))
  · simp only [List.mem_cons, List.not_mem_nil, or_false] at hb
    rcases hb with hb | hb | hb
    · exact absurd hb (htail _ (by omega))
    · exact absurd hb (htail _ (by omega))
    · exact absurd hb (htail _ (by omega))
  · simp only [List.mem_cons, List.not_mem_nil, or_false] at hb
    rcases hb with hb | hb | hb | hb
    · exact absurd hb (htail _ (by omega))
    · exact absurd hb (htail _ (by omega))
    · exact absurd hb (htail _ (by omega))
    · exact absurd hb (htail _ (by omega))

theorem encode_eq_append_cons {t : List Char} {a rest : List UInt8} {b : UInt8}
    (hb : b.toNat < 0x80) (h : encode t = a ++ b :: rest) :
    ∃ t₁ t₂, t = t₁ ++ Char.ofNat b.toNat :: t₂ ∧ encode t₁ = a ∧ encode t₂ = rest := by
  induction t generalizing a with
  | nil =>
    have hlen := congrArg List.length h
    simp [encode] at hlen
  | cons c t ih =>
    rw [encode_cons] at h
    by_cases hmem : b ∈ String.utf8EncodeChar c
    · obtain ⟨hc, hchar⟩ := encodeChar_of_mem hmem hb
      rw [hc, List.singleton_append] at h
      cases a with
      | nil =>
        rw [List.nil_append, List.cons.injEq] at h
        exact ⟨[], t, by rw [hchar, List.nil_append], rfl, h.2⟩
      | cons b' a =>
        rw [List.cons_append, List.cons.injEq] at h
        obtain ⟨t₁, t₂, rfl, h₁, h₂⟩ := ih h.2
        refine ⟨c :: t₁, t₂, rfl, ?_, h₂⟩
        rw [encode_cons, hc, h₁, h.1, List.singleton_append]
    · -- the character ends before the byte
      have hpre : String.utf8EncodeChar c <+: a := by
        rcases List.append_eq_append_iff.mp h with ⟨more, ha, -⟩ | ⟨more, hmore, hrest⟩
        · exact ⟨more, ha.symm⟩
        · cases more with
          | nil =>
            rw [List.append_nil] at hmore
            exact ⟨[], by rw [List.append_nil, hmore]⟩
          | cons b' more =>
            rw [List.cons_append, List.cons.injEq] at hrest
            rw [hmore, hrest.1] at hmem
            exact absurd (by simp) hmem
      obtain ⟨a, rfl⟩ := hpre
      rw [List.append_assoc, List.append_cancel_left_eq] at h
      obtain ⟨t₁, t₂, rfl, h₁, h₂⟩ := ih h
      exact ⟨c :: t₁, t₂, rfl, by rw [encode_cons, h₁], h₂⟩

theorem bytes_append (s t : List Char) : bytes (s ++ t) = bytes s ++ bytes t := List.map_append

theorem encode_ascii {t : List Char} (ht : ∀ c ∈ t, c.toNat < 0x80) : encode t = bytes t := by
  induction t with
  | nil => rfl
  | cons c t ih =>
    have hc : c.val.toNat ≤ 0x7f := Nat.lt_succ_iff.mp (ht c List.mem_cons_self)
    rw [encode_cons, ih fun d hd => ht d (List.mem_cons_of_mem c hd), String.utf8EncodeChar,
      if_pos hc]
    rfl

/-- A text that begins with ASCII characters. -/
theorem encode_eq_bytes_append {s t : List Char} {rest : List UInt8}
    (hs : ∀ c ∈ s, c.toNat < 0x80) :
    encode t = bytes s ++ rest ↔ ∃ u, t = s ++ u ∧ encode u = rest := by
  constructor
  · intro h
    induction s generalizing t with
    | nil => exact ⟨t, rfl, h⟩
    | cons c s ih =>
      have hc := hs c List.mem_cons_self
      have hb : (UInt8.ofNat c.toNat).toNat = c.toNat :=
        UInt8.toNat_ofNat_of_lt' (show c.toNat < 256 by omega)
      obtain ⟨t₁, t₂, rfl, h₁, h₂⟩ :=
        encode_eq_append_cons (a := []) (b := UInt8.ofNat c.toNat) (by omega) h
      obtain rfl := encode_injective (t := []) h₁
      obtain ⟨u, rfl, hu⟩ := ih (fun d hd => hs d (List.mem_cons_of_mem c hd)) h₂
      rw [hb, Char.ofNat_toNat]
      exact ⟨u, rfl, hu⟩
  · rintro ⟨u, rfl, rfl⟩
    rw [encode_append, encode_ascii hs]

/-- A text with ASCII characters between any others. -/
theorem encode_eq_append_bytes_append {c : Char} {s t : List Char} {a rest : List UInt8}
    (hs : ∀ d ∈ c :: s, d.toNat < 0x80) :
    encode t = a ++ (bytes (c :: s) ++ rest) ↔
      ∃ t₁ t₂, t = t₁ ++ (c :: s ++ t₂) ∧ encode t₁ = a ∧ encode t₂ = rest := by
  constructor
  · intro h
    have hc := hs c List.mem_cons_self
    have hb : (UInt8.ofNat c.toNat).toNat = c.toNat :=
      UInt8.toNat_ofNat_of_lt' (show c.toNat < 256 by omega)
    obtain ⟨t₁, t₂, rfl, h₁, h₂⟩ :=
      encode_eq_append_cons (b := UInt8.ofNat c.toNat) (by omega) h
    obtain ⟨u, rfl, hu⟩ :=
      (encode_eq_bytes_append fun d hd => hs d (List.mem_cons_of_mem c hd)).mp h₂
    rw [hb, Char.ofNat_toNat]
    exact ⟨t₁, u, rfl, h₁, hu⟩
  · rintro ⟨t₁, t₂, rfl, rfl, rfl⟩
    rw [encode_append, encode_append, encode_ascii hs]

end Blkcp.Lib.Utf8
