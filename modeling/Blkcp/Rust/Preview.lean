import Blkcp.Rust.Args
import Blkcp.Rust.Presets
set_option autoImplicit false

/-! The command line that the interface shows (`tui_state.rs`), and what the program makes of its
words. -/

namespace Blkcp.Rust
open Blkcp.Lib

/-! ### Trimmed texts -/

section Trim

variable {t : Text}

theorem words_trim (t : Text) : words isWhitespace (trim t) = words isWhitespace t := by
  rw [trim, words_rdropWhile, words_dropWhile]

theorem trim_of_unsplit (h : Unsplit isWhitespace t) : trim t = t := by
  have hdrop : t.dropWhile isWhitespace = t := by
    cases t with
    | nil => rfl
    | cons c t => exact List.dropWhile_cons_of_neg (by rw [h c List.mem_cons_self]; decide)
  rw [trim, hdrop, List.rdropWhile_eq_self_iff]
  intro hne hc
  rw [h _ (List.getLast_mem hne)] at hc
  cases hc

/-- A trimmed text begins and ends with what is no whitespace. -/
theorem trim_ends (t : Text) : (∀ c ∈ (trim t).head?, isWhitespace c = false) ∧
    ∀ c ∈ (trim t).getLast?, isWhitespace c = false := by
  constructor
  · intro c hc
    have hhead : (t.dropWhile isWhitespace).head? = some c := by
      obtain ⟨more, hmore⟩ := List.rdropWhile_prefix isWhitespace (l := t.dropWhile isWhitespace)
      rw [← hmore]
      change c ∈ ((t.dropWhile isWhitespace).rdropWhile isWhitespace).head? at hc
      rw [List.head?_append, Option.mem_def.mp hc, Option.some_or]
    have := List.head?_dropWhile_not isWhitespace t
    rw [hhead] at this
    simpa using this
  · intro c hc
    have hne : trim t ≠ [] := by
      rintro he
      rw [he] at hc
      cases hc
    rw [List.getLast?_eq_getLast_of_ne_nil hne, Option.mem_some_iff] at hc
    rw [← hc]
    exact Bool.eq_false_iff.mpr (List.rdropWhile_last_not isWhitespace _ hne)

theorem trim_trim (t : Text) : trim (trim t) = trim t := by
  obtain ⟨hhead, -⟩ := trim_ends t
  have hdrop : (trim t).dropWhile isWhitespace = trim t := by
    cases he : trim t with
    | nil => rfl
    | cons c u =>
      rw [he] at hhead
      exact List.dropWhile_cons_of_neg (by rw [hhead c rfl]; decide)
  change ((trim t).dropWhile isWhitespace).rdropWhile isWhitespace = trim t
  rw [hdrop, trim, List.rdropWhile_idempotent]

theorem mem_trim {c : Char} (hc : c ∈ t) (h : isWhitespace c = false) : c ∈ trim t := by
  have hdrop : c ∈ t.dropWhile isWhitespace := by
    rw [← List.takeWhile_append_dropWhile (p := isWhitespace) (l := t), List.mem_append] at hc
    rcases hc with hc | hc
    · rw [List.mem_takeWhile_imp hc] at h
      cases h
    · exact hc
  rw [← List.rdropWhile_append_rtakeWhile (p := isWhitespace) (l := t.dropWhile isWhitespace),
    List.mem_append] at hdrop
  rcases hdrop with hdrop | hdrop
  · exact hdrop
  · rw [List.mem_rtakeWhile_imp hdrop] at h
    cases h

/-- Whitespace inside a trimmed text leaves more than one word. -/
theorem words_of_broken (h : ¬ Unsplit isWhitespace (trim t)) : ∃ s w more, s ≠ [] ∧
    ∀ pre, Unsplit isWhitespace pre →
      words isWhitespace (pre ++ trim t) = (pre ++ s) :: w :: more := by
  obtain ⟨hhead, hlast⟩ := trim_ends t
  generalize trim t = u at h hhead hlast
  have hcut : ∃ s c v, Unsplit isWhitespace s ∧ isWhitespace c = true ∧ u = s ++ c :: v := by
    induction u using @word_induction _ isWhitespace with
    | hunsplit u hu => exact absurd hu h
    | hcut s c v hs hc => exact ⟨s, c, v, hs, hc, rfl⟩
  obtain ⟨s, c, v, hs, hc, rfl⟩ := hcut
  have hne : s ≠ [] := by
    rintro rfl
    rw [hhead c rfl] at hc
    cases hc
  have hv : words isWhitespace v ≠ [] := by
    intro hv
    have hall : ∀ d ∈ c :: v, isWhitespace d = true :=
      List.forall_mem_cons.mpr ⟨hc, forall_of_words_eq_nil hv⟩
    have hmem : (c :: v).getLast (List.cons_ne_nil c v) ∈ c :: v := List.getLast_mem _
    have hend := hlast _ (by
      rw [List.getLast?_append_of_ne_nil _ (List.cons_ne_nil c v),
        List.getLast?_eq_getLast_of_ne_nil (List.cons_ne_nil c v)]
      rfl)
    rw [hall _ hmem] at hend
    cases hend
  obtain ⟨w, more, hmore⟩ := List.exists_cons_of_ne_nil hv
  refine ⟨s, w, more, hne, fun pre hpre => ?_⟩
  have hword : Unsplit isWhitespace (pre ++ s) := List.forall_mem_append.mpr ⟨hpre, hs⟩
  rw [← List.append_assoc, words_append_cons hc, hmore,
    words_of_unsplit hword (List.append_ne_nil_of_right_ne_nil _ hne), List.singleton_append]

/-- The first word of a text, and the words behind it. -/
def firstWord (t : Text) : Text := (words isWhitespace t).headD []

def moreWords (t : Text) : List Text := (words isWhitespace t).tail

theorem words_eq_cons (h : words isWhitespace t ≠ []) :
    words isWhitespace t = firstWord t :: moreWords t := by
  obtain ⟨w, more, hmore⟩ := List.exists_cons_of_ne_nil h
  rw [firstWord, moreWords, hmore, List.headD_cons, List.tail_cons]

theorem trim_eq_nil_iff : trim t = [] ↔ words isWhitespace t = [] := by
  constructor
  · intro h
    rw [← words_trim, h, words_nil]
  · intro h
    rw [← words_trim] at h
    have hall := forall_of_words_eq_nil h
    obtain ⟨hhead, -⟩ := trim_ends t
    cases htrim : trim t with
    | nil => rfl
    | cons c u =>
      rw [htrim] at hhead hall
      have hc := hhead c rfl
      rw [hall c List.mem_cons_self] at hc
      cases hc

theorem moreWords_eq_nil_iff : moreWords t = [] ↔ Unsplit isWhitespace (trim t) := by
  rw [moreWords, ← words_trim]
  constructor
  · intro h
    by_contra hbroken
    obtain ⟨s, w, more, -, hwords⟩ := words_of_broken hbroken
    rw [← List.nil_append (trim t), hwords [] (List.forall_mem_nil _)] at h
    cases h
  · intro h
    by_cases hnil : trim t = []
    · rw [hnil, words_nil]
      rfl
    · rw [words_of_unsplit h hnil]
      rfl

theorem firstWord_eq (h : moreWords t = []) : firstWord t = trim t := by
  have hword := moreWords_eq_nil_iff.mp h
  rw [firstWord, ← words_trim]
  by_cases hnil : trim t = []
  · rw [hnil, words_nil]
    rfl
  · rw [words_of_unsplit hword hnil]
    rfl

/-- What stands right in front of a trimmed text becomes a part of its first word. -/
theorem words_append_trim {pre : Text} (hpre : Unsplit isWhitespace pre)
    (h : words isWhitespace t ≠ []) :
    words isWhitespace (pre ++ trim t) = (pre ++ firstWord t) :: moreWords t := by
  by_cases hword : Unsplit isWhitespace (trim t)
  · have hmore := moreWords_eq_nil_iff.mpr hword
    have hnil : trim t ≠ [] := fun hnil => h (trim_eq_nil_iff.mp hnil)
    rw [hmore, firstWord_eq hmore, words_of_unsplit (List.forall_mem_append.mpr ⟨hpre, hword⟩)
      (List.append_ne_nil_of_right_ne_nil _ hnil)]
  · obtain ⟨s, w, more, -, hwords⟩ := words_of_broken hword
    have halone := hwords [] (List.forall_mem_nil _)
    rw [List.nil_append, List.nil_append, words_trim] at halone
    rw [hwords pre hpre, firstWord, moreWords, halone, List.headD_cons, List.tail_cons]

end Trim

/-! ### Sizes and numbers in words -/

section Sizes

variable {t : Text} {n : Nat}

theorem parseSize_trim (t : Text) : parseSize (trim t) = parseSize t := by
  unfold parseSize
  rw [trim_trim]

theorem dash_not_mem_of_multiplier {s : Text} (h : multiplier s ≠ none) : '-' ∉ s := by
  unfold multiplier at h
  split at h
  case h_16 => exact absurd rfl h
  all_goals decide

/-- A text that is a size has no dash. -/
theorem dash_not_mem (h : parseSize t = some n) : '-' ∉ trim t := by
  intro hdash
  have hspace : isWhitespace '-' = false := by decide
  have hlower : '-'.toLower = '-' := by decide
  have hlowercase : toLowercase '-' = '-' := by decide
  unfold parseSize at h
  dsimp only at h
  split_ifs at h with hnil hauto hdigits hmax
  · have hmem := List.mem_map_of_mem (f := Char.toLower) hdash
    rw [hauto, hlower] at hmem
    revert hmem
    decide
  · obtain ⟨m, hm, -⟩ := Option.map_eq_some_iff.mp h
    refine dash_not_mem_of_multiplier (Option.ne_none_iff_exists'.mpr ⟨m, hm⟩) ?_
    have hdrop : ∀ u v : Text, u ++ v = trim t → (trim t).drop u.length = v := fun u v h => by
      rw [← h, List.drop_left]
    have hsplit := List.takeWhile_append_dropWhile (p := Char.isDigit) (l := trim t)
    rw [hdrop _ _ hsplit, ← hlowercase]
    refine List.mem_map_of_mem (mem_trim ?_ hspace)
    rw [← hsplit, List.mem_append] at hdash
    rcases hdash with hdash | hdash
    · exact absurd (List.mem_takeWhile_imp hdash) (by decide)
    · exact hdash

theorem head_ne_dash (h : parseSize t = some n) {w : Text} (hw : w ∈ words isWhitespace t) :
    w.head? ≠ some '-' := by
  rw [← words_trim] at hw
  intro hhead
  exact dash_not_mem h (subset_of_mem_words hw (List.mem_of_mem_head? hhead))

end Sizes

/-! ### Words that the loop takes -/

/-- What the loop makes of these words, whatever it has taken before them: they set a part of the
configuration or fail, and leave some operands. -/
def Takes (ws operands : List Text) (set : Config → Option Config) : Prop :=
  ∀ cfg positional rest, parseLoop cfg positional (ws ++ rest) =
    (set cfg).elim .error fun cfg => parseLoop cfg (positional ++ operands) rest

section Takes

variable {ws ws' operands operands' : List Text} {arg val : Text}
  {set set' : Config → Option Config}

theorem Takes.nil : Takes [] [] some := by
  intro cfg positional rest
  rw [List.nil_append, List.append_nil, Option.elim_some]

theorem Takes.append (h : Takes ws operands set) (h' : Takes ws' operands' set') :
    Takes (ws ++ ws') (operands ++ operands') fun cfg => (set cfg).bind set' := by
  intro cfg positional rest
  rw [List.append_assoc, h]
  dsimp only
  cases set cfg with
  | none => rfl
  | some mid => rw [Option.elim_some, h', Option.bind_some, List.append_assoc]

theorem takes_operands (h : ∀ w ∈ ws, w.head? ≠ some '-') : Takes ws ws some := by
  induction ws with
  | nil => exact .nil
  | cons w ws ih =>
    obtain ⟨hw, hws⟩ := List.forall_mem_cons.mp h
    intro cfg positional rest
    rw [List.cons_append, parseLoop_positional hw, ih hws, List.append_assoc]
    rfl

theorem takes_valued {o : Valued} {v : Text} (h : classify arg = .valued o) :
    Takes [arg, v] [] (o.set v) := by
  intro cfg positional rest
  cases hset : o.set v cfg with
  | none => exact parseLoop_valued_error h hset
  | some cfg' =>
    rw [List.append_nil]
    exact parseLoop_valued h hset

theorem takes_inline {o : Valued} {v : Text} (h : classify arg = .inline o v) :
    Takes [arg] [] (o.set v) := by
  intro cfg positional rest
  cases hset : o.set v cfg with
  | none => exact parseLoop_inline_error h hset
  | some cfg' =>
    rw [List.append_nil]
    exact parseLoop_inline h hset

theorem takes_switch {o : Switch} (h : classify arg = .switch o) :
    Takes [arg] [] fun cfg => some (o.set cfg) := by
  intro cfg positional rest
  rw [List.append_nil]
  exact parseLoop_switch h

/-- No word of the text behind its first one is taken for an option. -/
def NoOption (t : Text) : Prop := ∀ w ∈ moreWords t, w.head? ≠ some '-'

theorem noOption_of_size {t : Text} {n : Nat} (h : parseSize t = some n) : NoOption t :=
  fun _ hw => head_ne_dash h (List.mem_of_mem_tail hw)

theorem noOption_of_word {t : Text} (h : moreWords t = []) : NoOption t := by
  intro w hw
  rw [h] at hw
  cases hw

theorem takes_text {o : Valued} {t : Text} (harg : classify arg = .valued o)
    (hne : words isWhitespace t ≠ []) (h : NoOption t) :
    Takes (arg :: words isWhitespace t) (moreWords t) (o.set (firstWord t)) := by
  have htakes := (takes_valued (v := firstWord t) harg).append (takes_operands h)
  rw [words_eq_cons hne]
  simpa using htakes

end Takes

/-! ### The line -/

def spaced (name : String) (val : Text) : Text := name.toList ++ ' ' :: val

/-- The part is pushed if the condition holds. -/
def pushed (p : Prop) [Decidable p] (part : Text) : List Text := if p then [part] else []

def engStr : Engine → Text
  | .auto => "auto".toList
  | .sync => "sync".toList
  | .async => "async".toList
  | .reflink => "reflink".toList
  | .uring => "uring".toList
  | .splice => "splice".toList

def hashParts : HashAlgo → List Text
  | .none => []
  | .blake3 => ["--blake3".toList]
  | .blks => ["--blks".toList]
  | .sha256 => ["--sha256".toList]

def syncParts : SyncMode → List Text
  | .none => []
  | .fdatasync => ["--fdatasync".toList]
  | .fsync => ["--fsync".toList]

/-- A limit or an offset is left out where its text is empty or zero. -/
def isShown (t : Text) : Prop := trim t ≠ [] ∧ trim t ≠ ['0']

instance (t : Text) : Decidable (isShown t) := inferInstanceAs (Decidable (_ ∧ _))

namespace TuiState

variable (s : TuiState)

/-- The parts behind the block size. -/
def optionParts : List Text :=
  pushed (s.engine ≠ .auto) (spaced "-e" (engStr s.engine)) ++
    pushed (1 < s.threads) (spaced "-j" (Nat.toDigits 10 s.threads)) ++
    (s.queueDepthOpt.toList.map fun qd => "--queue-depth=".toList ++ Nat.toDigits 10 qd) ++
    hashParts s.hashAlgo ++
    pushed s.directIo "--direct".toList ++
    pushed s.nocache "--nocache".toList ++
    pushed s.sparse "--sparse".toList ++
    pushed s.swab "--swab".toList ++
    pushed s.syncPad "--sync".toList ++
    pushed s.notrunc "--notrunc".toList ++
    pushed s.noerror "--noerror".toList ++
    syncParts s.syncMode ++
    pushed (isShown s.limitStr) (spaced "-l" (trim s.limitStr)) ++
    pushed (isShown s.skipStr) ("--skip=".toList ++ trim s.skipStr) ++
    pushed (isShown s.seekStr) ("--seek=".toList ++ trim s.seekStr) ++
    pushed s.dryRun "--dry-run".toList ++
    pushed s.forceOverride "--force".toList

/-- The characters of the path of an endpoint are its bytes. -/
def shownPath (side : Option BlockDevice) (placeholder : String) : Text :=
  (side.map fun d => toStringLossy (String.ofList d.path)).getD placeholder.toList

def buildCliCommand : Text :=
  [' '].intercalate
    (["blkcp".toList, spaced "-i" (shownPath s.source "INPUT"),
      spaced "-o" (shownPath s.target "OUTPUT"), spaced "-b" s.blockSizeStr] ++ s.optionParts)

end TuiState

/-! ### What the options set -/

section Options

variable {part t : Text} {operands : List Text} {set : Config → Option Config}

theorem words_spaced {name : String} (h : words isWhitespace name.toList = [name.toList]) :
    words isWhitespace (spaced name t) = name.toList :: words isWhitespace t := by
  rw [spaced, words_append_cons (by decide), h, List.singleton_append]

theorem Takes.congr {ws : List Text} {set' : Config → Option Config} (h : Takes ws operands set)
    (hset : ∀ cfg, set cfg = set' cfg) : Takes ws operands set' := by
  intro cfg positional rest
  rw [h, hset]

theorem takes_pushed {p : Prop} [Decidable p]
    (h : p → Takes (words isWhitespace part) operands set) (hoff : ¬p → operands = []) :
    Takes ((pushed p part).flatMap (words isWhitespace)) operands
      fun cfg => if p then set cfg else some cfg := by
  unfold pushed
  by_cases hp : p
  · simpa only [if_pos hp, List.flatMap_singleton] using h hp
  · simpa only [if_neg hp, List.flatMap_nil, hoff hp] using Takes.nil

theorem takes_flag (name : String) (o : Switch) (b : Bool) (f : Bool → Config → Config)
    (hwords : words isWhitespace name.toList = [name.toList])
    (hname : classify name.toList = .switch o) (hon : o.set = f true) (hoff : f false = id) :
    Takes ((pushed b name.toList).flatMap (words isWhitespace)) [] fun cfg => some (f b cfg) := by
  have htakes := takes_switch hname
  rw [← hwords] at htakes
  refine Takes.congr (takes_pushed (fun _ => htakes) fun _ => rfl) fun cfg => ?_
  cases b with
  | false => rw [hoff]; rfl
  | true => rw [← hon]; rfl

theorem parseUsize_toDigits {n : Nat} (h : n ≤ u64Max) :
    parseUsize (Nat.toDigits 10 n) = some n := by
  have hdigit : ∀ c ∈ Nat.toDigits 10 n, c.isDigit = true :=
    fun c hc => Nat.isDigit_of_mem_toDigits (by decide) (by decide) hc
  have hsign : (Nat.toDigits 10 n).head? ≠ some '+' := fun hplus =>
    absurd (hdigit _ (List.mem_of_mem_head? hplus)) (by decide)
  have hvalue : (Nat.toDigits 10 n).foldl (fun n c => n * 10 + (c.toNat - 48)) 0 = n := by
    refine Eq.trans ?_ (Nat.ofDigitChars_ten_toDigits (n := n))
    simp only [Nat.ofDigitChars_eq_foldl, Nat.mul_comm 10]
    rfl
  unfold parseUsize
  dsimp only
  rw [if_neg hsign, hvalue, if_neg (not_or.mpr ⟨Nat.toDigits_ne_nil, by simpa using hdigit⟩),
    if_neg (Nat.not_lt.mpr h)]

theorem words_toDigits (n : Nat) {pre : Text} (hpre : Unsplit isWhitespace pre) :
    words isWhitespace (pre ++ Nat.toDigits 10 n) = [pre ++ Nat.toDigits 10 n] := by
  refine words_of_unsplit (List.forall_mem_append.mpr ⟨hpre, fun c hc => ?_⟩)
    (List.append_ne_nil_of_right_ne_nil _ Nat.toDigits_ne_nil)
  have hdigit : (c.val ≥ '0'.val && c.val ≤ '9'.val) = true :=
    Nat.isDigit_of_mem_toDigits (by decide) (by decide) hc
  simp only [Bool.and_eq_true, decide_eq_true_eq, ge_iff_le, UInt32.le_iff_toNat_le] at hdigit
  have hlow : 48 ≤ c.toNat := hdigit.1
  have hhigh : c.toNat ≤ 57 := hdigit.2
  simp only [isWhitespace, Bool.or_eq_false_iff, Bool.and_eq_false_iff, decide_eq_false_iff_not,
    beq_eq_false_iff_ne]
  omega

theorem takes_engine (e : Engine) :
    Takes ((pushed (e ≠ .auto) (spaced "-e" (engStr e))).flatMap (words isWhitespace)) []
      fun cfg => some { cfg with engine := if e = .auto then cfg.engine else e } := by
  have htakes : Takes (words isWhitespace (spaced "-e" (engStr e))) []
      fun cfg => some { cfg with engine := e } := by
    have hwords : words isWhitespace (spaced "-e" (engStr e)) = ["-e".toList, engStr e] := by
      cases e <;> decide
    rw [hwords]
    refine (takes_valued (o := .engine) (by decide)).congr fun cfg => ?_
    cases e <;> rfl
  refine Takes.congr (takes_pushed (fun _ => htakes) fun _ => rfl) fun cfg => ?_
  cases e <;> rfl

theorem takes_threads {n : Nat} (h : n ≤ u64Max) :
    Takes ((pushed (1 < n) (spaced "-j" (Nat.toDigits 10 n))).flatMap (words isWhitespace)) []
      fun cfg => some { cfg with threads := if 1 < n then n else cfg.threads } := by
  have htakes : Takes (words isWhitespace (spaced "-j" (Nat.toDigits 10 n))) []
      fun cfg => some { cfg with threads := n } := by
    have hdigits := words_toDigits n (List.forall_mem_nil _)
    rw [List.nil_append] at hdigits
    rw [words_spaced (by decide), hdigits]
    refine (takes_valued (o := .threads) (by decide)).congr fun cfg => ?_
    rw [Valued.set, parseUsize_toDigits h]
    rfl
  refine Takes.congr (takes_pushed (fun _ => htakes) fun _ => rfl) fun cfg => ?_
  by_cases hn : 1 < n
  · rw [if_pos hn, if_pos hn]
  · rw [if_neg hn, if_neg hn]

/-- A depth of zero is shown, and refused. -/
def queueWord (q : Option Nat) : Option (Option Nat) := if q = some 0 then none else some q

theorem takes_queueDepth {q : Option Nat} (h : ∀ n ∈ q, n ≤ u64Max) :
    Takes ((q.toList.map fun qd => "--queue-depth=".toList ++ Nat.toDigits 10 qd).flatMap
        (words isWhitespace)) []
      fun cfg => (queueWord q).map fun q => { cfg with queueDepth := q.or cfg.queueDepth } := by
  cases q with
  | none => exact .nil
  | some n =>
    rw [Option.toList_some, List.map_singleton, List.flatMap_singleton,
      words_toDigits n (by decide)]
    refine (takes_inline (o := .queueDepth) (v := Nat.toDigits 10 n) rfl).congr fun cfg => ?_
    rw [Valued.set, parseUsize_toDigits (h n rfl)]
    unfold queueWord
    by_cases hn : n = 0
    · simp [hn]
    · simp [hn]

theorem takes_hash (algo : HashAlgo) :
    Takes ((hashParts algo).flatMap (words isWhitespace)) []
      fun cfg => some { cfg with hashAlgo := if algo = .none then cfg.hashAlgo else algo } := by
  cases algo with
  | none => exact .nil
  | sha256 => exact takes_switch (o := .hash .sha256) (by decide)
  | blake3 => exact takes_switch (o := .hash .blake3) (by decide)
  | blks => exact takes_switch (o := .hash .blks) (by decide)

theorem takes_syncMode (mode : SyncMode) :
    Takes ((syncParts mode).flatMap (words isWhitespace)) []
      fun cfg => some { cfg with
        fdatasync := mode == .fdatasync || cfg.fdatasync
        fsync := mode == .fsync || cfg.fsync } := by
  cases mode with
  | none => exact .nil
  | fdatasync => exact takes_switch (o := .fdatasync) (by decide)
  | fsync => exact takes_switch (o := .fsync) (by decide)

/-- What the word behind `-b` sets. -/
def blockWord (w : Text) : Option (Bool × Nat) :=
  if (trim w).map Char.toLower = ['a', 'u', 't', 'o'] then some (true, 64 * 1024)
  else (parseSize w).bind fun n => if n = 0 then none else some (false, n)

theorem takes_block (hne : words isWhitespace t ≠ []) (h : NoOption t) :
    Takes (words isWhitespace (spaced "-b" t)) (moreWords t) fun cfg =>
      (blockWord (firstWord t)).map fun p =>
        { cfg with autotune := p.1 || cfg.autotune, blockSize := p.2 } := by
  rw [words_spaced (by decide)]
  refine (takes_text (o := .blockSize) (by decide) hne h).congr fun cfg => ?_
  unfold Valued.set blockWord
  dsimp only
  split
  · rfl
  · cases parseSize (firstWord t) with
    | none => rfl
    | some n =>
      by_cases hn : n = 0
      · simp [hn]
      · simp [hn]

theorem words_ne_nil_of_isShown (h : isShown t) : words isWhitespace t ≠ [] :=
  fun hnil => h.1 (trim_eq_nil_iff.mpr hnil)

theorem moreWords_of_not_isShown (h : ¬ isShown t) : moreWords t = [] := by
  refine moreWords_eq_nil_iff.mpr ?_
  by_cases hnil : trim t = []
  · rw [hnil]
    exact List.forall_mem_nil _
  · have hzero : trim t = ['0'] := by
      by_contra hzero
      exact h ⟨hnil, hzero⟩
    rw [hzero]
    decide

def limitWord (t : Text) : Option (Option Nat) :=
  if isShown t then (parseSize (firstWord t)).map some else some none

theorem takes_limit (h : NoOption t) :
    Takes ((pushed (isShown t) (spaced "-l" (trim t))).flatMap (words isWhitespace)) (moreWords t)
      fun cfg => (limitWord t).map fun l => { cfg with limitBytes := l.or cfg.limitBytes } := by
  have htakes : isShown t → Takes (words isWhitespace (spaced "-l" (trim t))) (moreWords t)
      fun cfg => (parseSize (firstWord t)).map fun n => { cfg with limitBytes := some n } := by
    intro hshown
    rw [words_spaced (by decide), words_trim]
    exact takes_text (o := .limit) (by decide) (words_ne_nil_of_isShown hshown) h
  refine Takes.congr (takes_pushed htakes moreWords_of_not_isShown) fun cfg => ?_
  unfold limitWord
  by_cases hshown : isShown t
  · rw [if_pos hshown, if_pos hshown, Option.map_map]
    rfl
  · rw [if_neg hshown, if_neg hshown]
    rfl

def offsetWord (t : Text) : Option Nat :=
  if isShown t then parseSize (firstWord t) else some 0

theorem takes_offset (pre : String) (o : Valued) (f : Nat → Config → Config)
    (hname : ∀ val, classify (pre.toList ++ val) = .inline o val)
    (hpre : Unsplit isWhitespace pre.toList)
    (hset : ∀ val cfg, o.set val cfg = (parseSize val).map fun n => f n cfg) (h : NoOption t) :
    Takes ((pushed (isShown t) (pre.toList ++ trim t)).flatMap (words isWhitespace)) (moreWords t)
      fun cfg => (offsetWord t).map fun n => if isShown t then f n cfg else cfg := by
  have htakes : isShown t → Takes (words isWhitespace (pre.toList ++ trim t)) (moreWords t)
      (o.set (firstWord t)) := by
    intro hshown
    rw [words_append_trim hpre (words_ne_nil_of_isShown hshown)]
    exact (takes_inline (hname (firstWord t))).append (takes_operands h) |>.congr fun cfg => by
      rw [Option.bind_fun_some]
  refine Takes.congr (takes_pushed htakes moreWords_of_not_isShown) fun cfg => ?_
  unfold offsetWord
  by_cases hshown : isShown t
  · simp only [if_pos hshown, hset]
  · simp only [if_neg hshown, Option.map_some]

end Options

namespace TuiState

variable {s : TuiState}

/-- The words of the line behind the name of the program. -/
def cliWords (s : TuiState) : List Text := (words isWhitespace s.buildCliCommand).tail

/-- The paths and the block size are shown by words, and of no text a word behind the first one is
taken for an option. -/
structure Clean (s : TuiState) : Prop where
  source_ne : words isWhitespace (shownPath s.source "INPUT") ≠ []
  target_ne : words isWhitespace (shownPath s.target "OUTPUT") ≠ []
  blockSizeStr_ne : words isWhitespace s.blockSizeStr ≠ []
  source : NoOption (shownPath s.source "INPUT")
  target : NoOption (shownPath s.target "OUTPUT")
  blockSizeStr : NoOption s.blockSizeStr
  limitStr : NoOption s.limitStr
  skipStr : NoOption s.skipStr
  seekStr : NoOption s.seekStr

/-- The words that are put aside as operands. -/
def operands (s : TuiState) : List Text :=
  moreWords (shownPath s.source "INPUT") ++ moreWords (shownPath s.target "OUTPUT") ++
    moreWords s.blockSizeStr ++
    (moreWords s.limitStr ++ moreWords s.skipStr ++ moreWords s.seekStr)

theorem cliWords_eq : s.cliWords =
    "-i".toList :: words isWhitespace (shownPath s.source "INPUT") ++
      "-o".toList :: words isWhitespace (shownPath s.target "OUTPUT") ++
      "-b".toList :: words isWhitespace s.blockSizeStr ++
      s.optionParts.flatMap (words isWhitespace) := by
  have hname : words isWhitespace "blkcp".toList = ["blkcp".toList] := by decide
  rw [cliWords, buildCliCommand, words_intercalate (by decide)]
  simp only [List.flatMap_cons, hname,
    words_spaced (show words isWhitespace "-i".toList = ["-i".toList] by decide),
    words_spaced (show words isWhitespace "-o".toList = ["-o".toList] by decide),
    words_spaced (show words isWhitespace "-b".toList = ["-b".toList] by decide),
    List.cons_append, List.nil_append, List.tail_cons, List.append_assoc]

/-- What the options of the line set in a configuration. -/
def applyOptions (s : TuiState) (cfg : Config) : Option Config := do
  let queueDepth ← queueWord s.queueDepthOpt
  let limit ← limitWord s.limitStr
  let skip ← offsetWord s.skipStr
  let seek ← offsetWord s.seekStr
  some { cfg with
    engine := if s.engine = .auto then cfg.engine else s.engine
    threads := if 1 < s.threads then s.threads else cfg.threads
    queueDepth := queueDepth.or cfg.queueDepth
    hashAlgo := if s.hashAlgo = .none then cfg.hashAlgo else s.hashAlgo
    direct := s.directIo || cfg.direct
    nocache := s.nocache || cfg.nocache
    sparse := s.sparse || cfg.sparse
    swab := s.swab || cfg.swab
    sync := s.syncPad || cfg.sync
    notrunc := s.notrunc || cfg.notrunc
    noerror := s.noerror || cfg.noerror
    fdatasync := s.syncMode == .fdatasync || cfg.fdatasync
    fsync := s.syncMode == .fsync || cfg.fsync
    limitBytes := limit.or cfg.limitBytes
    skipBytes := if isShown s.skipStr then skip else cfg.skipBytes
    seekBytes := if isShown s.seekStr then seek else cfg.seekBytes
    dryRun := s.dryRun || cfg.dryRun
    force := s.forceOverride || cfg.force }

theorem takes_options (hlimit : NoOption s.limitStr) (hskip : NoOption s.skipStr)
    (hseek : NoOption s.seekStr) (hthreads : s.threads ≤ u64Max)
    (hqueue : ∀ n ∈ s.queueDepthOpt, n ≤ u64Max) :
    Takes (s.optionParts.flatMap (words isWhitespace))
      (moreWords s.limitStr ++ moreWords s.skipStr ++ moreWords s.seekStr) s.applyOptions := by
  have htakes := (takes_engine s.engine).append (takes_threads hthreads)
    |>.append (takes_queueDepth hqueue)
    |>.append (takes_hash s.hashAlgo)
    |>.append (takes_flag "--direct" .direct s.directIo
      (fun b cfg => { cfg with direct := b || cfg.direct }) (by decide) (by decide) rfl rfl)
    |>.append (takes_flag "--nocache" .nocache s.nocache
      (fun b cfg => { cfg with nocache := b || cfg.nocache }) (by decide) (by decide) rfl rfl)
    |>.append (takes_flag "--sparse" .sparse s.sparse
      (fun b cfg => { cfg with sparse := b || cfg.sparse }) (by decide) (by decide) rfl rfl)
    |>.append (takes_flag "--swab" .swab s.swab
      (fun b cfg => { cfg with swab := b || cfg.swab }) (by decide) (by decide) rfl rfl)
    |>.append (takes_flag "--sync" .sync s.syncPad
      (fun b cfg => { cfg with sync := b || cfg.sync }) (by decide) (by decide) rfl rfl)
    |>.append (takes_flag "--notrunc" .notrunc s.notrunc
      (fun b cfg => { cfg with notrunc := b || cfg.notrunc }) (by decide) (by decide) rfl rfl)
    |>.append (takes_flag "--noerror" .noerror s.noerror
      (fun b cfg => { cfg with noerror := b || cfg.noerror }) (by decide) (by decide) rfl rfl)
    |>.append (takes_syncMode s.syncMode)
    |>.append (takes_limit hlimit)
    |>.append (takes_offset "--skip=" .skip (fun n cfg => { cfg with skipBytes := n }) (fun _ => rfl)
      (by decide) (fun _ _ => rfl) hskip)
    |>.append (takes_offset "--seek=" .seek (fun n cfg => { cfg with seekBytes := n }) (fun _ => rfl)
      (by decide) (fun _ _ => rfl) hseek)
    |>.append (takes_flag "--dry-run" .dryRun s.dryRun
      (fun b cfg => { cfg with dryRun := b || cfg.dryRun }) (by decide) (by decide) rfl rfl)
    |>.append (takes_flag "--force" .force s.forceOverride
      (fun b cfg => { cfg with force := b || cfg.force }) (by decide) (by decide) rfl rfl)
  unfold optionParts
  simp only [List.flatMap_append]
  simp only [List.nil_append, List.append_nil, Option.bind_some] at htakes
  refine htakes.congr fun cfg => ?_
  unfold applyOptions
  rcases queueWord s.queueDepthOpt with _ | queueDepth
  · rfl
  rcases limitWord s.limitStr with _ | limit
  · rfl
  rcases offsetWord s.skipStr with _ | skip
  · rfl
  rcases offsetWord s.seekStr with _ | seek
  · rfl
  by_cases hskip : isShown s.skipStr <;> by_cases hseek : isShown s.seekStr <;>
    simp only [hskip, hseek, if_true, if_false] <;> rfl

/-- What is made of the line if nothing is left over. -/
def lineConfig (s : TuiState) : Option Config := do
  let (autotune, blockSize) ← blockWord (firstWord s.blockSizeStr)
  s.applyOptions
    { input := some (osPath (firstWord (shownPath s.source "INPUT")))
      output := some (osPath (firstWord (shownPath s.target "OUTPUT")))
      autotune := autotune
      blockSize := blockSize }

theorem applyOptions_paths {cfg c : Config} (h : s.applyOptions cfg = some c) :
    c.input = cfg.input ∧ c.output = cfg.output := by
  simp only [applyOptions, Option.bind_eq_bind, Option.bind_eq_some_iff] at h
  obtain ⟨queueDepth, -, limit, -, skip, -, seek, -, hc⟩ := h
  cases hc
  exact ⟨rfl, rfl⟩

theorem parseArgs_cliWords (h : s.Clean)
    (hthreads : s.threads ≤ u64Max) (hqueue : ∀ n ∈ s.queueDepthOpt, n ≤ u64Max) :
    parseArgs s.cliWords =
      if s.operands = [] then s.lineConfig.elim .error .config else .error := by
  have htakes := (takes_text (o := .input) (show classify "-i".toList = _ by decide)
      h.source_ne h.source).append
    (takes_text (o := .output) (show classify "-o".toList = _ by decide) h.target_ne h.target)
    |>.append (takes_block h.blockSizeStr_ne h.blockSizeStr)
    |>.append (takes_options h.limitStr h.skipStr h.seekStr hthreads hqueue)
  have hline : parseArgs s.cliWords =
      s.lineConfig.elim .error fun cfg => resolvePositional cfg s.operands := by
    have hrun := htakes {} [] []
    rw [List.append_nil, words_spaced (by decide), ← cliWords_eq, List.nil_append] at hrun
    refine hrun.trans ?_
    unfold lineConfig
    rcases blockWord (firstWord s.blockSizeStr) with _ | ⟨_ | _, blockSize⟩ <;> rfl
  rw [hline]
  cases hc : s.lineConfig with
  | none => simp
  | some c =>
    obtain ⟨p, -, hset⟩ := Option.bind_eq_some_iff.mp hc
    obtain ⟨hin, hout⟩ := applyOptions_paths hset
    rw [Option.elim_some, Option.elim_some]
    split
    · rename_i hnone
      exact hnone ▸ resolvePositional_nil c
    · rename_i hsome
      exact resolvePositional_extra (by rw [hin]; rfl) (by rw [hout]; rfl) hsome

end TuiState

/-! ### Fields that are read back -/

section Fields

variable {t : Text}

/-- A whitespace character is its own lower case. -/
theorem toLower_of_isWhitespace {c : Char} (h : isWhitespace c = true) : c.toLower = c := by
  unfold Char.toLower
  refine dif_neg fun hupper => ?_
  have hlow : 65 ≤ c.toNat := UInt32.le_iff_toNat_le.mp hupper.1
  have hhigh : c.toNat ≤ 90 := UInt32.le_iff_toNat_le.mp hupper.2
  simp only [isWhitespace, Bool.or_eq_true, Bool.and_eq_true, decide_eq_true_eq,
    beq_iff_eq] at h
  omega

/-- A text that is a word but for its case has no whitespace. -/
theorem unsplit_of_toLower {w : Text} (hw : Unsplit isWhitespace w) (h : t.map Char.toLower = w) :
    Unsplit isWhitespace t := by
  intro c hc
  by_contra hspace
  rw [Bool.not_eq_false] at hspace
  have hmem : c ∈ w := by
    rw [← toLower_of_isWhitespace hspace, ← h]
    exact List.mem_map_of_mem hc
  rw [hw c hmem] at hspace
  cases hspace

theorem trim_of_auto (h : t.map Char.toLower = ['a', 'u', 't', 'o']) : trim t = t :=
  trim_of_unsplit (unsplit_of_toLower (by decide) h)

theorem parseSize_of_trim_auto (h : (trim t).map Char.toLower = ['a', 'u', 't', 'o']) :
    parseSize t = some 0 := by
  have hne : trim t ≠ [] := by
    intro hnil
    rw [hnil] at h
    cases h
  unfold parseSize
  dsimp only
  rw [if_neg hne, if_pos h]

theorem parseSize_of_none (h : (trim t).map Char.toLower = ['n', 'o', 'n', 'e']) :
    parseSize t = none := by
  have hdigits : (trim t).takeWhile Char.isDigit = [] := by
    cases htrim : trim t with
    | nil => rfl
    | cons c u =>
      rw [htrim, List.map_cons] at h
      have hc : c.toLower = 'n' := (List.cons.inj h).1
      refine List.takeWhile_cons_of_neg fun hdigit => ?_
      have hlower : c.toLower = c := by
        unfold Char.toLower
        refine dif_neg fun hupper => ?_
        have hlow : 65 ≤ c.toNat := UInt32.le_iff_toNat_le.mp hupper.1
        have hrange : (c.val ≥ '0'.val && c.val ≤ '9'.val) = true := hdigit
        have hhigh : c.toNat ≤ 57 :=
          UInt32.le_iff_toNat_le.mp (of_decide_eq_true (Bool.and_eq_true_iff.mp hrange).2)
        omega
      rw [hlower] at hc
      rw [hc] at hdigit
      cases hdigit
  have hne : trim t ≠ [] := by
    intro hnil
    rw [hnil] at h
    cases h
  unfold parseSize
  dsimp only
  rw [if_neg hne, h, if_neg (by decide), hdigits, if_pos rfl]

theorem blockWord_eq_some_iff (h : moreWords t = []) {p : Bool × Nat}
    (hp : TuiState.blockSizeField t = some p) :
    blockWord (firstWord t) = some p ↔
      t.map Char.toLower = ['a', 'u', 't', 'o'] ∨ parseSize t ≠ some 0 := by
  rw [firstWord_eq h]
  unfold TuiState.blockSizeField at hp
  unfold blockWord
  rw [trim_trim, parseSize_trim]
  split at hp
  · rename_i hauto
    rw [trim_of_auto hauto, if_pos hauto, hp]
    exact iff_of_true rfl (.inl hauto)
  · rename_i hauto
    obtain ⟨n, hn, rfl⟩ := Option.map_eq_some_iff.mp hp
    rw [or_iff_right hauto, hn]
    by_cases htrim : (trim t).map Char.toLower = ['a', 'u', 't', 'o']
    · have hzero := hn.symm.trans (parseSize_of_trim_auto htrim)
      rw [if_pos htrim]
      simp [hzero]
    · rw [if_neg htrim, Option.bind_some]
      by_cases hzero : n = 0
      · simp [hzero]
      · simp [hzero]

theorem blockWord_eq_none (h : moreWords t = []) (hp : TuiState.blockSizeField t = none) :
    blockWord (firstWord t) = none := by
  rw [firstWord_eq h]
  unfold TuiState.blockSizeField at hp
  split at hp
  · cases hp
  · have hnone := Option.map_eq_none_iff.mp hp
    have htrim : ¬ (trim t).map Char.toLower = ['a', 'u', 't', 'o'] := by
      intro htrim
      rw [parseSize_of_trim_auto htrim] at hnone
      cases hnone
    unfold blockWord
    rw [trim_trim, parseSize_trim, if_neg htrim, hnone, Option.bind_none]

theorem limitField_of_isShown (h : isShown t) : TuiState.limitField t =
    if (trim t).map Char.toLower = ['n', 'o', 'n', 'e'] then some none
    else (parseSize t).map some := by
  unfold TuiState.limitField
  dsimp only
  rw [parseSize_trim]
  simp only [h.1, h.2, false_or]

theorem limitWord_of_isShown (hshown : isShown t) (h : moreWords t = []) :
    limitWord t = (parseSize t).map some := by
  unfold limitWord
  rw [if_pos hshown, firstWord_eq h, parseSize_trim]

theorem limitField_of_not_isShown (h : ¬ isShown t) : TuiState.limitField t = some none := by
  unfold TuiState.limitField
  dsimp only
  refine if_pos ?_
  by_cases hnil : trim t = []
  · exact .inl hnil
  · exact .inr (.inl (by_contra fun hzero => h ⟨hnil, hzero⟩))

theorem limitWord_eq_some_iff (h : moreWords t = []) {l : Option Nat}
    (hl : TuiState.limitField t = some l) :
    limitWord t = some l ↔ (trim t).map Char.toLower ≠ ['n', 'o', 'n', 'e'] := by
  by_cases hshown : isShown t
  · rw [limitField_of_isShown hshown] at hl
    rw [limitWord_of_isShown hshown h]
    split at hl
    · rename_i hnone
      rw [parseSize_of_none hnone, Option.map_none]
      exact iff_of_false (by simp) (not_not.mpr hnone)
    · rename_i hnone
      exact iff_of_true hl hnone
  · have hword : limitWord t = some none := if_neg hshown
    rw [limitField_of_not_isShown hshown] at hl
    refine iff_of_true (hword.trans hl) fun hnone => hshown ⟨?_, ?_⟩
    · rintro hnil
      rw [hnil] at hnone
      cases hnone
    · rintro hzero
      rw [hzero] at hnone
      revert hnone
      decide

theorem limitWord_eq_none (h : moreWords t = []) (hl : TuiState.limitField t = none) :
    limitWord t = none := by
  by_cases hshown : isShown t
  · rw [limitField_of_isShown hshown] at hl
    rw [limitWord_of_isShown hshown h]
    split at hl
    · cases hl
    · exact hl
  · rw [limitField_of_not_isShown hshown] at hl
    cases hl

theorem offsetWord_eq (h : moreWords t = []) : offsetWord t = TuiState.offsetField t := by
  unfold offsetWord TuiState.offsetField
  dsimp only
  rw [firstWord_eq h]
  by_cases hshown : isShown t
  · rw [if_pos hshown, if_neg (not_or.mpr ⟨hshown.1, hshown.2⟩)]
  · rw [if_neg hshown]
    refine (if_pos ?_).symm
    by_cases hnil : trim t = []
    · exact .inl hnil
    · exact .inr (by_contra fun hzero => hshown ⟨hnil, hzero⟩)

theorem words_of_blockSizeField {p : Bool × Nat} (h : TuiState.blockSizeField t = some p) :
    words isWhitespace t ≠ [] ∧ ∀ w ∈ words isWhitespace t, w.head? ≠ some '-' := by
  unfold TuiState.blockSizeField at h
  split at h
  · rename_i hauto
    have hne : t ≠ [] := by
      rintro rfl
      cases hauto
    rw [words_of_unsplit (unsplit_of_toLower (by decide) hauto) hne]
    refine ⟨List.cons_ne_nil _ _, List.forall_mem_singleton.mpr fun hdash => ?_⟩
    have hlower := List.mem_map_of_mem (f := Char.toLower) (List.mem_of_mem_head? hdash)
    rw [hauto] at hlower
    revert hlower
    decide
  · obtain ⟨n, hn, -⟩ := Option.map_eq_some_iff.mp h
    refine ⟨fun hnil => ?_, fun w hw => head_ne_dash hn hw⟩
    have hnone : parseSize t = none := if_pos (trim_eq_nil_iff.mpr hnil)
    rw [hnone] at hn
    cases hn

theorem noOption_of_limitField {l : Option Nat} (h : TuiState.limitField t = some l) :
    NoOption t := by
  by_cases hshown : isShown t
  · rw [limitField_of_isShown hshown] at h
    split at h
    · rename_i hnone
      exact noOption_of_word (moreWords_eq_nil_iff.mpr (unsplit_of_toLower (by decide) hnone))
    · obtain ⟨n, hn, -⟩ := Option.map_eq_some_iff.mp h
      exact noOption_of_size hn
  · exact noOption_of_word (moreWords_of_not_isShown hshown)

theorem noOption_of_offsetField {n : Nat} (h : TuiState.offsetField t = some n) : NoOption t := by
  by_cases hshown : isShown t
  · unfold TuiState.offsetField at h
    dsimp only at h
    rw [if_neg (not_or.mpr ⟨hshown.1, hshown.2⟩), parseSize_trim] at h
    exact noOption_of_size h
  · exact noOption_of_word (moreWords_of_not_isShown hshown)

theorem shown_of_offsetWord {n : Nat} (h : offsetWord t = some n) :
    (if isShown t then n else 0) = n := by
  unfold offsetWord at h
  split at h
  · rename_i hshown
    exact if_pos hshown
  · rename_i hshown
    rw [if_neg hshown]
    exact Option.some.inj h

end Fields

namespace TuiState

variable {s : TuiState} {src dst : BlockDevice} {c : Config}

/-- What is read back as it was set: a block size that the loop accepts, a limit that is no word,
at least one thread, and a queue of some depth. -/
structure ReadBack (s : TuiState) : Prop where
  blockSize : s.blockSizeStr.map Char.toLower = ['a', 'u', 't', 'o'] ∨
    parseSize s.blockSizeStr ≠ some 0
  limit : (trim s.limitStr).map Char.toLower ≠ ['n', 'o', 'n', 'e']
  threads : 1 ≤ s.threads
  queueDepth : s.queueDepthOpt ≠ some 0

/-- The path is the UTF-8 of one word. -/
def IsWord (path : Text) : Prop :=
  ∃ t, t ≠ [] ∧ Unsplit isWhitespace t ∧ String.ofList path = osPath t

theorem shownPath_of_osPath {side : Option BlockDevice} {d : BlockDevice} {placeholder : String}
    {t : Text} (hside : side = some d) (ht : String.ofList d.path = osPath t) :
    shownPath side placeholder = t := by
  rw [shownPath, hside, Option.map_some, Option.getD_some, ht, toStringLossy_osPath]

theorem osPath_firstWord {side : Option BlockDevice} {d : BlockDevice} {placeholder : String}
    (hside : side = some d) (h : IsWord d.path) :
    osPath (firstWord (shownPath side placeholder)) = String.ofList d.path := by
  obtain ⟨t, -, hword, ht⟩ := h
  have hmore : moreWords t = [] := moreWords_eq_nil_iff.mpr (by rwa [trim_of_unsplit hword])
  rw [shownPath_of_osPath hside ht, firstWord_eq hmore, trim_of_unsplit hword, ht]

theorem lineConfig_eq_iff (hsrc : s.source = some src) (hdst : s.target = some dst)
    (hin : IsWord src.path) (hout : IsWord dst.path) (hops : s.operands = [])
    (hc : s.buildConfig = some c) : s.lineConfig = some c ↔ s.ReadBack := by
  simp only [operands, List.append_eq_nil_iff] at hops
  obtain ⟨⟨-, hmoreBlock⟩, ⟨hmoreLimit, hmoreSkip⟩, hmoreSeek⟩ := hops
  simp only [buildConfig, Option.bind_eq_bind, Option.bind_eq_some_iff] at hc
  obtain ⟨⟨autotune, blockSize⟩, hblock, limit, hlimit, skip, hskip, seek, hseek, hc⟩ := hc
  have hblockIff := blockWord_eq_some_iff hmoreBlock hblock
  have hlimitIff := limitWord_eq_some_iff hmoreLimit hlimit
  rw [← offsetWord_eq hmoreSkip] at hskip
  rw [← offsetWord_eq hmoreSeek] at hseek
  cases hc
  unfold lineConfig applyOptions
  rw [osPath_firstWord hsrc hin, osPath_firstWord hdst hout, hskip, hseek, hsrc, hdst]
  constructor
  · intro h
    simp only [Option.bind_eq_bind, Option.bind_some, Option.bind_eq_some_iff] at h
    obtain ⟨⟨autotune', blockSize'⟩, hblock', queueDepth, hqueue, limit', hlimit', h⟩ := h
    replace h := Option.some.inj h
    have hautotune : autotune' = autotune := congrArg Config.autotune h
    have hsize : blockSize' = blockSize := congrArg Config.blockSize h
    have hthreads : (if 1 < s.threads then s.threads else 1) = s.threads := congrArg Config.threads h
    have hbytes : limit'.or none = limit := congrArg Config.limitBytes h
    rw [Option.or_none] at hbytes
    subst hautotune hsize hbytes
    refine ⟨hblockIff.mp hblock', hlimitIff.mp hlimit', ?_, fun hzero => ?_⟩
    · split at hthreads <;> omega
    · rw [hzero] at hqueue
      cases hqueue
  · intro h
    have hthreads : (if 1 < s.threads then s.threads else 1) = s.threads := by
      have hpos := h.threads
      split <;> omega
    have hengine : (if s.engine = .auto then Engine.auto else s.engine) = s.engine := by
      split
      · rename_i he
        exact he.symm
      · rfl
    have hhash : (if s.hashAlgo = .none then HashAlgo.none else s.hashAlgo) = s.hashAlgo := by
      split
      · rename_i ha
        exact ha.symm
      · rfl
    rw [hblockIff.mpr h.blockSize, hlimitIff.mpr h.limit, queueWord, if_neg h.queueDepth]
    simp only [Option.bind_eq_bind, Option.bind_some, hengine, hthreads, hhash,
      shown_of_offsetWord hskip, shown_of_offsetWord hseek,
      Option.or_none, Bool.or_false]
    rfl

theorem buildConfig_eq_none_iff : s.buildConfig = none ↔ s.Unparsed := by
  unfold buildConfig Unparsed
  rcases blockSizeField s.blockSizeStr with _ | ⟨autotune, blockSize⟩
  · simp
  rcases limitField s.limitStr with _ | limit
  · simp
  rcases offsetField s.skipStr with _ | skip
  · simp
  rcases offsetField s.seekStr with _ | seek
  · simp
  · simp

theorem lineConfig_eq_none (hops : s.operands = []) (h : s.Unparsed) : s.lineConfig = none := by
  simp only [operands, List.append_eq_nil_iff] at hops
  obtain ⟨⟨-, hmoreBlock⟩, ⟨hmoreLimit, hmoreSkip⟩, hmoreSeek⟩ := hops
  have hset (cfg : Config) (h : limitField s.limitStr = none ∨ offsetField s.skipStr = none ∨
      offsetField s.seekStr = none) : s.applyOptions cfg = none := by
    unfold applyOptions
    rw [offsetWord_eq hmoreSkip, offsetWord_eq hmoreSeek]
    rcases queueWord s.queueDepthOpt with _ | queueDepth
    · rfl
    rcases h with h | h | h
    · rw [limitWord_eq_none hmoreLimit h]
      rfl
    · rcases limitWord s.limitStr with _ | limit
      · rfl
      · rw [h]
        rfl
    · rcases limitWord s.limitStr with _ | limit
      · rfl
      · rcases offsetField s.skipStr with _ | skip
        · rfl
        · rw [h]
          rfl
  unfold lineConfig
  rcases h with h | h
  · rw [blockWord_eq_none hmoreBlock h]
    rfl
  · rcases blockWord (firstWord s.blockSizeStr) with _ | ⟨autotune, blockSize⟩
    · rfl
    · exact hset _ h

/-! ### Paths that the line loses -/

/-- Words that set no path leave the paths, or give an operand to the output. -/
theorem paths_of_takes {ws operands positional : List Text} {set : Config → Option Config}
    {cfg : Config} (h : Takes ws operands set)
    (hset : ∀ {cfg c}, set cfg = some c → c.input = cfg.input ∧ c.output = cfg.output)
    (hin : cfg.input.isSome) (hrun : parseLoop cfg positional ws = .config c) :
    c.input = cfg.input ∧ (c.output = cfg.output ∨
      cfg.output = none ∧ ∃ w ∈ positional ++ operands, c.output = some (osPath w)) := by
  have htakes := h cfg positional []
  rw [List.append_nil, hrun] at htakes
  cases hc : set cfg with
  | none =>
    rw [hc] at htakes
    cases htakes
  | some mid =>
    rw [hc] at htakes
    obtain ⟨hi, ho⟩ := hset hc
    obtain ⟨hin', hout'⟩ := resolvePositional_eq_config htakes.symm
    rw [hi] at hin'
    rw [ho] at hout'
    refine ⟨?_, hout'⟩
    rcases hin' with hin' | ⟨hnone, -⟩
    · exact hin'
    · rw [hnone] at hin
      cases hin

theorem parseLoop_input {cfg : Config} {positional rest : List Text} (val : Text) :
    parseLoop cfg positional ("-i".toList :: val :: rest) =
      parseLoop { cfg with input := some (osPath val) } positional rest :=
  parseLoop_valued (o := .input) (by decide) rfl

theorem parseLoop_output {cfg : Config} {positional rest : List Text} (val : Text) :
    parseLoop cfg positional ("-o".toList :: val :: rest) =
      parseLoop { cfg with output := some (osPath val) } positional rest :=
  parseLoop_valued (o := .output) (by decide) rfl

section Lost

variable {bs opts operands operands' : List Text} {set set' : Config → Option Config}

/-- Behind `-i` without a path the name of the next option is taken for it. -/
theorem lost_source {t' : Text} {ws : List Text}
    (h : Takes ("-b".toList :: (bs ++ opts)) operands set)
    (hset : ∀ {cfg c}, set cfg = some c → c.input = cfg.input ∧ c.output = cfg.output)
    (hoperands : ∀ w ∈ operands, w.head? ≠ some '-') (h' : Takes (bs ++ opts) operands' set')
    (hset' : ∀ {cfg c}, set' cfg = some c → c.input = cfg.input ∧ c.output = cfg.output)
    (hws : ws = [] ∨ ws = [t'])
    (hrun : parseLoop { input := some (osPath "-o".toList) } []
      (ws ++ "-b".toList :: (bs ++ opts)) = .config c)
    (hout : c.output = some (osPath t')) : c.input ≠ some (osPath []) := by
  have hpath {cfg : Config} {u : Text} (hu : cfg.input = some (osPath u)) (hne : u ≠ [])
      (hc : c.input = cfg.input) : c.input ≠ some (osPath []) := by
    intro hnil
    rw [hc, hu] at hnil
    exact hne (osPath_injective (Option.some.inj hnil))
  rcases hws with rfl | rfl
  · exact hpath rfl (by decide) (paths_of_takes h hset rfl hrun).1
  rw [List.singleton_append] at hrun
  cases hc : classify t' with
  | exit => simp [parseLoop, hc] at hrun
  | unknown => simp [parseLoop, hc] at hrun
  | switch o =>
    rw [parseLoop_switch hc] at hrun
    have hin := Switch.set_input o { input := some (osPath "-o".toList) }
    exact hpath hin (by decide) (paths_of_takes h hset (by rw [hin]; rfl) hrun).1
  | positional =>
    rw [parseLoop, hc] at hrun
    exact hpath rfl (by decide) (paths_of_takes h hset rfl hrun).1
  | valued o =>
    cases hval : o.set "-b".toList { input := some (osPath "-o".toList) } with
    | none =>
      rw [parseLoop_valued_error hc hval] at hrun
      cases hrun
    | some cfg =>
      rw [parseLoop_valued hc hval] at hrun
      have hin := (Valued.set_paths hval).1
      split at hin
      · exact hpath hin (by decide) (paths_of_takes h' hset' (by rw [hin]; rfl) hrun).1
      · exact hpath hin (by decide) (paths_of_takes h' hset' (by rw [hin]; rfl) hrun).1
  | inline o val =>
    cases hval : o.set val { input := some (osPath "-o".toList) } with
    | none =>
      rw [parseLoop_inline_error hc hval] at hrun
      cases hrun
    | some cfg =>
      rw [parseLoop_inline hc hval] at hrun
      obtain ⟨hin, hout'⟩ := Valued.set_paths hval
      by_cases ho : o = .input
      · -- the word is the path of the target, and no operand has its dash
        subst ho
        rw [if_pos rfl] at hin
        rw [if_neg (by decide)] at hout'
        obtain ⟨-, hlast | ⟨-, w, hw, hlast⟩⟩ := paths_of_takes h hset (by rw [hin]; rfl) hrun
        · rw [hlast, hout'] at hout
          cases hout
        · rw [hlast] at hout
          obtain rfl := osPath_injective (Option.some.inj hout)
          exact absurd (head_of_classify hc (by simp)) (hoperands w (by simpa using hw))
      · rw [if_neg ho] at hin
        exact hpath hin (by decide) (paths_of_takes h hset (by rw [hin]; rfl) hrun).1

/-- A path that is shown by no word makes the line name another one. -/
theorem words_of_paths {t t' : Text} (ht : Unsplit isWhitespace t) (ht' : Unsplit isWhitespace t')
    (h : Takes ("-b".toList :: (bs ++ opts)) operands set)
    (hset : ∀ {cfg c}, set cfg = some c → c.input = cfg.input ∧ c.output = cfg.output)
    (hoperands : ∀ w ∈ operands, w.head? ≠ some '-') (h' : Takes (bs ++ opts) operands' set')
    (hset' : ∀ {cfg c}, set' cfg = some c → c.input = cfg.input ∧ c.output = cfg.output)
    (hrun : parseArgs ("-i".toList :: words isWhitespace t ++ "-o".toList :: words isWhitespace t' ++
      "-b".toList :: (bs ++ opts)) = .config c)
    (hin : c.input = some (osPath t)) (hout : c.output = some (osPath t')) :
    t ≠ [] ∧ t' ≠ [] := by
  have hsource : t ≠ [] := by
    rintro rfl
    rw [words_nil, List.singleton_append, List.cons_append, List.cons_append, parseArgs,
      parseLoop_input] at hrun
    refine lost_source h hset hoperands h' hset' ?_ hrun hout hin
    by_cases hnil : t' = []
    · exact .inl (by rw [hnil, words_nil])
    · exact .inr (words_of_unsplit ht' hnil)
  refine ⟨hsource, ?_⟩
  rintro rfl
  rw [words_of_unsplit ht hsource, words_nil] at hrun
  simp only [List.cons_append, List.nil_append] at hrun
  rw [parseArgs, parseLoop_input, parseLoop_output] at hrun
  obtain ⟨-, hpath | ⟨hnone, -⟩⟩ := paths_of_takes h' hset' rfl hrun
  · exact absurd (osPath_injective (Option.some.inj (hout.symm.trans hpath))) (by decide)
  · cases hnone

end Lost

/-- Both errors, or equal configurations. -/
def SameOutcome : Parsed → Option Config → Prop
  | .config c, some d => c = d
  | .error, none => True
  | _, _ => False

/-- Each path and each text is shown as one word, and read back as it was set. -/
structure Conveyed (s : TuiState) (src dst : BlockDevice) : Prop extends ReadBack s where
  source : IsWord src.path
  target : IsWord dst.path
  blockSizeStr : Unsplit isWhitespace (trim s.blockSizeStr)
  limitStr : Unsplit isWhitespace (trim s.limitStr)
  skipStr : Unsplit isWhitespace (trim s.skipStr)
  seekStr : Unsplit isWhitespace (trim s.seekStr)

theorem operands_eq_nil_iff (hsrc : s.source = some src) (hdst : s.target = some dst)
    (hin : IsWord src.path) (hout : IsWord dst.path) : s.operands = [] ↔
      Unsplit isWhitespace (trim s.blockSizeStr) ∧ Unsplit isWhitespace (trim s.limitStr) ∧
        Unsplit isWhitespace (trim s.skipStr) ∧ Unsplit isWhitespace (trim s.seekStr) := by
  have hpath {side : Option BlockDevice} {d : BlockDevice} {placeholder : String}
      (hside : side = some d) (h : IsWord d.path) : moreWords (shownPath side placeholder) = [] := by
    obtain ⟨t, -, hword, ht⟩ := h
    rw [shownPath_of_osPath hside ht, moreWords_eq_nil_iff, trim_of_unsplit hword]
    exact hword
  simp only [operands, List.append_eq_nil_iff, hpath hsrc hin, hpath hdst hout,
    moreWords_eq_nil_iff, true_and, and_assoc]

theorem clean_of_words (hsrc : s.source = some src) (hdst : s.target = some dst)
    (hin : IsWord src.path) (hout : IsWord dst.path) (hc : s.buildConfig = some c) : s.Clean := by
  have hpath {side : Option BlockDevice} {d : BlockDevice} {placeholder : String}
      (hside : side = some d) (h : IsWord d.path) :
      words isWhitespace (shownPath side placeholder) ≠ [] ∧
        NoOption (shownPath side placeholder) := by
    obtain ⟨t, hne, hword, ht⟩ := h
    rw [shownPath_of_osPath hside ht]
    refine ⟨by simp [words_of_unsplit hword hne], noOption_of_word ?_⟩
    rw [moreWords_eq_nil_iff, trim_of_unsplit hword]
    exact hword
  simp only [buildConfig, Option.bind_eq_bind, Option.bind_eq_some_iff] at hc
  obtain ⟨p, hblock, limit, hlimit, skip, hskip, seek, hseek, -⟩ := hc
  obtain ⟨hblockNe, hblockWords⟩ := words_of_blockSizeField hblock
  exact
    { source_ne := (hpath hsrc hin).1
      target_ne := (hpath hdst hout).1
      blockSizeStr_ne := hblockNe
      source := (hpath hsrc hin).2
      target := (hpath hdst hout).2
      blockSizeStr := fun w hw => hblockWords w (List.mem_of_mem_tail hw)
      limitStr := noOption_of_limitField hlimit
      skipStr := noOption_of_offsetField hskip
      seekStr := noOption_of_offsetField hseek }

theorem isWord_of_parseArgs (hsrc : s.source = some src) (hdst : s.target = some dst)
    (hthreads : s.threads ≤ u64Max) (hqueue : ∀ n ∈ s.queueDepthOpt, n ≤ u64Max)
    (hc : s.buildConfig = some c) (hrun : parseArgs s.cliWords = .config c) :
    IsWord src.path ∧ IsWord dst.path := by
  have hwords : ∀ w ∈ s.cliWords, Unsplit isWhitespace w :=
    fun w hw => (mem_words (List.mem_of_mem_tail hw)).2
  obtain ⟨hspokenIn, hspokenOut⟩ := parseArgs_spoken hwords hrun
  simp only [buildConfig, Option.bind_eq_bind, Option.bind_eq_some_iff] at hc
  obtain ⟨p, hblock, limit, hlimit, skip, hskip, seek, hseek, hc⟩ := hc
  have hin : c.input = some (String.ofList src.path) := by
    rw [← Option.some.inj hc, hsrc, Option.map_some]
  have hout : c.output = some (String.ofList dst.path) := by
    rw [← Option.some.inj hc, hdst, Option.map_some]
  obtain ⟨t, ht, hsource⟩ := hspokenIn _ hin
  obtain ⟨t', ht', htarget⟩ := hspokenOut _ hout
  obtain ⟨hblockNe, hblockWords⟩ := words_of_blockSizeField hblock
  have hmore : NoOption s.blockSizeStr := fun w hw => hblockWords w (List.mem_of_mem_tail hw)
  have hoptions := takes_options (noOption_of_limitField hlimit) (noOption_of_offsetField hskip)
    (noOption_of_offsetField hseek) hthreads hqueue
  have htakes := (takes_block hblockNe hmore).append hoptions
  rw [words_spaced (by decide)] at htakes
  rw [cliWords_eq, shownPath_of_osPath hsrc hsource, shownPath_of_osPath hdst htarget] at hrun
  rw [hsource] at hin
  rw [htarget] at hout
  have hne : t ≠ [] ∧ t' ≠ [] := by
    refine words_of_paths ht ht' htakes ?_ ?_ ((takes_operands hblockWords).append hoptions)
      (fun h => applyOptions_paths h) ?_ hin hout
    · intro cfg c h
      obtain ⟨mid, hmid, hset⟩ := Option.bind_eq_some_iff.mp h
      obtain ⟨q, -, rfl⟩ := Option.map_eq_some_iff.mp hmid
      obtain ⟨hi, ho⟩ := applyOptions_paths hset
      exact ⟨hi, ho⟩
    · simp only [List.mem_append]
      rintro w (hw | (hw | hw) | hw)
      · exact hmore w hw
      · exact noOption_of_limitField hlimit w hw
      · exact noOption_of_offsetField hskip w hw
      · exact noOption_of_offsetField hseek w hw
    · rwa [List.append_assoc _ (_ :: _), List.cons_append] at hrun
  exact ⟨⟨t, hne.1, ht, hsource⟩, t', hne.2, ht', htarget⟩

/-- A line that shows sizes only gives what the interface runs exactly if each text is one word that
is read back; of a text that is no size nothing comes of the line either, unless a word behind its
first one is taken for an option. -/
theorem preview_conveys_iff (hsrc : s.source = some src) (hdst : s.target = some dst)
    (hthreads : s.threads ≤ u64Max) (hqueue : ∀ n ∈ s.queueDepthOpt, n ≤ u64Max) :
    (¬ s.Unparsed →
      (SameOutcome (parseArgs s.cliWords) s.buildConfig ↔ s.Conveyed src dst)) ∧
    (s.Unparsed → s.Clean → SameOutcome (parseArgs s.cliWords) s.buildConfig) := by
  constructor
  · intro hparsed
    obtain ⟨c, hc⟩ : ∃ c, s.buildConfig = some c :=
      Option.ne_none_iff_exists'.mp fun hnone => hparsed (buildConfig_eq_none_iff.mp hnone)
    have hsame : SameOutcome (parseArgs s.cliWords) s.buildConfig ↔
        parseArgs s.cliWords = .config c := by
      rw [hc]
      cases parseArgs s.cliWords with
      | config d => simp [SameOutcome]
      | error => simp [SameOutcome]
      | exit => simp [SameOutcome]
    have hline (hin : IsWord src.path) (hout : IsWord dst.path) :
        parseArgs s.cliWords = .config c ↔ s.operands = [] ∧ s.lineConfig = some c := by
      rw [parseArgs_cliWords (clean_of_words hsrc hdst hin hout hc) hthreads hqueue]
      split
      · rename_i hops
        rw [and_iff_right hops]
        cases s.lineConfig with
        | none => simp
        | some d => simp
      · rename_i hops
        exact iff_of_false (by simp) fun h => hops h.1
    rw [hsame]
    constructor
    · intro hrun
      obtain ⟨hin, hout⟩ := isWord_of_parseArgs hsrc hdst hthreads hqueue hc hrun
      obtain ⟨hops, hconfig⟩ := (hline hin hout).mp hrun
      obtain ⟨hblock, hlimit, hskip, hseek⟩ := (operands_eq_nil_iff hsrc hdst hin hout).mp hops
      exact ⟨(lineConfig_eq_iff hsrc hdst hin hout hops hc).mp hconfig, hin, hout, hblock, hlimit,
        hskip, hseek⟩
    · intro h
      have hops := (operands_eq_nil_iff hsrc hdst h.source h.target).mpr
        ⟨h.blockSizeStr, h.limitStr, h.skipStr, h.seekStr⟩
      exact (hline h.source h.target).mpr
        ⟨hops, (lineConfig_eq_iff hsrc hdst h.source h.target hops hc).mpr h.toReadBack⟩
  · intro hunparsed hclean
    rw [parseArgs_cliWords hclean hthreads hqueue, buildConfig_eq_none_iff.mpr hunparsed]
    split
    · rename_i hops
      rw [lineConfig_eq_none hops hunparsed]
      trivial
    · trivial

section Example

theorem conveyed_new : (TuiState.new (desk [])).Conveyed (virtualEndpoint (desk []) zeroName)
    (virtualEndpoint (desk []) nullName) where
  blockSize := .inr (by decide)
  limit := by decide
  threads := Nat.le_refl 1
  queueDepth h := by cases h
  source := ⟨devDir ++ zeroName, by decide, by decide, by decide⟩
  target := ⟨devDir ++ nullName, by decide, by decide, by decide⟩
  blockSizeStr := by decide
  limitStr := by decide
  skipStr := by decide
  seekStr := by decide

/-- The line of the interface as it starts, from the zero to the null device. -/
theorem preview_conveys_new : SameOutcome (parseArgs (TuiState.new (desk [])).cliWords)
    (TuiState.new (desk [])).buildConfig := by
  have hparsed : ¬ (TuiState.new (desk [])).Unparsed := by
    unfold Unparsed
    decide
  exact ((preview_conveys_iff rfl rfl (by decide) (fun n hn => by cases hn)).1 hparsed).mpr
    conveyed_new

end Example

end TuiState

end Blkcp.Rust
