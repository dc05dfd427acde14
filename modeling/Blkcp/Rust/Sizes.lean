import Blkcp.Rust.TuiDevice
set_option autoImplicit false

/-! Sizes on the command line (`parse_size`) in both build profiles: where the number that is
returned is the one that is written, and where the product of the number and its unit leaves 64
bits. -/

namespace Blkcp.Rust

/-- What the overflow of a product comes to depends on the profile. -/
inductive Profile where
  | debug
  | release
  deriving DecidableEq

inductive SizeResult where
  | ok (v : Nat)
  | err (msg : Text)
  | panicked
  deriving DecidableEq

/-- The value of decimal digits. -/
def decimal (digits : Text) : Nat := digits.foldl (fun n c => n * 10 + (c.toNat - 48)) 0

/-- The word `auto`, in letters of either case. -/
def IsAuto (s : Text) : Prop := (trim s).map Char.toLower = ['a', 'u', 't', 'o']

def u64Mul (profile : Profile) (a b : Nat) : SizeResult :=
  if a * b ≤ u64Max then .ok (a * b)
  else
    match profile with
    | .debug => .panicked
    | .release => .ok (a * b % 2 ^ 64)

def parseSizeIn (profile : Profile) (s : Text) : SizeResult :=
  let s := trim s
  if s = [] then .err "Empty size string".toList
  else if s.map Char.toLower = ['a', 'u', 't', 'o'] then .ok 0
  else
    let digits := s.takeWhile Char.isDigit
    if digits = [] then .err ("Invalid number: ".toList ++ s)
    else if u64Max < decimal digits then .err "number too large to fit in target type".toList
    else
      let suffix := trim (s.drop digits.length)
      match multiplier (suffix.map toLowercase) with
      | some m => u64Mul profile (decimal digits) m
      | none =>
        .err ("Unknown size suffix '".toList ++ suffix ++ "' in '".toList ++ s ++ "'".toList)

/-- The optimised build is the one that the rest of the model is about. -/
theorem parseSize_eq_release (s : Text) :
    parseSize s = match parseSizeIn .release s with
      | .ok v => some v
      | _ => none := by
  have hmul (a b : Nat) : u64Mul .release a b = .ok (a * b % 2 ^ 64) := by
    unfold u64Mul
    split_ifs with h
    · rw [Nat.mod_eq_of_lt (by unfold u64Max at h; omega)]
    · rfl
  unfold parseSize parseSizeIn decimal
  dsimp only
  split_ifs with hnil hauto hdigits hmax
  · rfl
  · rfl
  · rfl
  · rfl
  · cases multiplier ((trim ((trim s).drop
        ((trim s).takeWhile Char.isDigit).length)).map toLowercase) with
    | none => rfl
    | some m =>
      dsimp only
      rw [hmul]
      rfl

/-- A decimal number `n` and a suffix that stands for `m`. -/
def IsSize (s : Text) (n m : Nat) : Prop :=
  ∃ digits tail, trim s = digits ++ tail ∧ digits ≠ [] ∧ (∀ c ∈ digits, c.isDigit = true) ∧
    (∀ c ∈ tail.head?, c.isDigit = false) ∧ decimal digits = n ∧
    multiplier ((trim tail).map toLowercase) = some m

section Exact

variable {s : Text} {n m : Nat}

theorem isSize_iff : IsSize s n m ↔
    (trim s).takeWhile Char.isDigit ≠ [] ∧ decimal ((trim s).takeWhile Char.isDigit) = n ∧
      multiplier ((trim ((trim s).drop ((trim s).takeWhile Char.isDigit).length)).map
        toLowercase) = some m := by
  constructor
  · rintro ⟨digits, tail, htrim, hne, hdigits, htail, hn, hm⟩
    have hstop : tail.takeWhile Char.isDigit = [] := by
      cases tail with
      | nil => rfl
      | cons c tail => exact List.takeWhile_cons_of_neg (by rw [htail c rfl]; decide)
    have hspan : (trim s).takeWhile Char.isDigit = digits := by
      rw [htrim, List.takeWhile_append_of_pos hdigits, hstop, List.append_nil]
    rw [hspan, htrim, List.drop_left]
    exact ⟨hne, hn, hm⟩
  · rintro ⟨hne, hn, hm⟩
    have hsplit := List.takeWhile_append_dropWhile (p := Char.isDigit) (l := trim s)
    refine ⟨_, _, hsplit.symm, hne, fun c hc => List.mem_takeWhile_imp hc, ?_, hn, ?_⟩
    · intro c hc
      have hhead := List.head?_dropWhile_not Char.isDigit (trim s)
      rw [Option.mem_def.mp hc] at hhead
      simpa using hhead
    · have hdrop := congrArg (List.drop ((trim s).takeWhile Char.isDigit).length) hsplit
      rw [List.drop_left] at hdrop
      rw [hdrop, hm]

theorem IsSize.unique {n' m' : Nat} (h : IsSize s n m) (h' : IsSize s n' m') :
    n = n' ∧ m = m' := by
  obtain ⟨-, hn, hm⟩ := isSize_iff.mp h
  obtain ⟨-, hn', hm'⟩ := isSize_iff.mp h'
  exact ⟨hn.symm.trans hn', Option.some.inj (hm.symm.trans hm')⟩

theorem IsSize.not_auto (h : IsSize s n m) : ¬ IsAuto s := by
  obtain ⟨digits, tail, htrim, hne, hdigits, -⟩ := h
  intro hauto
  unfold IsAuto at hauto
  obtain ⟨c, digits, rfl⟩ := List.exists_cons_of_ne_nil hne
  rw [htrim, List.cons_append, List.map_cons] at hauto
  have hc := hdigits c List.mem_cons_self
  have hlower : c.toLower = c := by
    unfold Char.isDigit at hc
    unfold Char.toLower
    rw [Bool.and_eq_true, decide_eq_true_eq, decide_eq_true_eq] at hc
    refine dif_neg fun hupper => ?_
    exact absurd (UInt32.le_trans hupper.1 hc.2) (by decide)
  rw [hlower] at hauto
  rw [(List.cons.inj hauto).1] at hc
  exact absurd hc (by decide)

/-- A size is read as far as its number fits. -/
theorem parseSizeIn_of_isSize (profile : Profile) (h : IsSize s n m) :
    parseSizeIn profile s =
      if u64Max < n then .err "number too large to fit in target type".toList
      else u64Mul profile n m := by
  have hauto : ¬ (trim s).map Char.toLower = ['a', 'u', 't', 'o'] := h.not_auto
  obtain ⟨hne, rfl, hm⟩ := isSize_iff.mp h
  have hnil : trim s ≠ [] := by
    intro hnil
    rw [hnil] at hne
    exact hne rfl
  unfold parseSizeIn
  dsimp only
  rw [if_neg hnil, if_neg hauto, if_neg hne, hm]

theorem parseSizeIn_of_not_isSize (profile : Profile) (h : ∀ n m, ¬ IsSize s n m)
    (hauto : ¬ IsAuto s) : ∃ msg, parseSizeIn profile s = .err msg := by
  unfold parseSizeIn
  dsimp only
  rw [if_neg (show ¬ (trim s).map Char.toLower = ['a', 'u', 't', 'o'] from hauto)]
  split_ifs with hnil hdigits hmax
  · exact ⟨_, rfl⟩
  · exact ⟨_, rfl⟩
  · exact ⟨_, rfl⟩
  · split
    · rename_i m hm
      exact absurd (isSize_iff.mpr ⟨hdigits, rfl, hm⟩) (h _ m)
    · exact ⟨_, rfl⟩

/-- A number is what is written, a product beyond 64 bits is refused, and nothing panics. -/
structure ExactOrRefused (profile : Profile) (s : Text) : Prop where
  exact : ∀ v, parseSizeIn profile s = .ok v → ¬ IsAuto s → ∃ n m, IsSize s n m ∧ v = n * m
  refused : ∀ n m, IsSize s n m → u64Max < n * m → ∃ msg, parseSizeIn profile s = .err msg
  total : parseSizeIn profile s ≠ .panicked

theorem exactOrRefused_of_err {profile : Profile} {msg : Text}
    (h : parseSizeIn profile s = .err msg) : ExactOrRefused profile s where
  exact v hv _ := by
    rw [h] at hv
    cases hv
  refused _ _ _ _ := ⟨msg, h⟩
  total := by
    rw [h]
    nofun

theorem exactOrRefused_of_ok {profile : Profile} (hsize : IsSize s n m) (hle : n * m ≤ u64Max)
    (h : parseSizeIn profile s = .ok (n * m)) : ExactOrRefused profile s where
  exact v hv _ := by
    rw [h] at hv
    exact ⟨n, m, hsize, (SizeResult.ok.inj hv).symm⟩
  refused n' m' hsize' hover := by
    obtain ⟨rfl, rfl⟩ := hsize.unique hsize'
    exact absurd hle (Nat.not_le.mpr hover)
  total := by
    rw [h]
    nofun

theorem exactOrRefused_auto (profile : Profile) (h : IsAuto s) : ExactOrRefused profile s where
  exact _ _ hauto := absurd h hauto
  refused _ _ hsize _ := absurd h hsize.not_auto
  total := by
    have hauto : (trim s).map Char.toLower = ['a', 'u', 't', 'o'] := h
    unfold parseSizeIn
    dsimp only
    rw [if_pos hauto]
    split_ifs <;> nofun

/-- In either profile a size is exact or refused but where its number fits in 64 bits and the
product does not. -/
theorem parseSize_exact_iff (profile : Profile) (s : Text) :
    ExactOrRefused profile s ↔ ∀ n m, IsSize s n m → u64Max < n * m → u64Max < n := by
  constructor
  · intro h n m hsize hover
    by_contra hn
    obtain ⟨msg, hmsg⟩ := h.refused n m hsize hover
    rw [parseSizeIn_of_isSize profile hsize, if_neg hn] at hmsg
    unfold u64Mul at hmsg
    rw [if_neg (Nat.not_le.mpr hover)] at hmsg
    cases profile <;> cases hmsg
  · intro h
    by_cases hsome : ∃ n m, IsSize s n m
    · obtain ⟨n, m, hsize⟩ := hsome
      have hparse := parseSizeIn_of_isSize profile hsize
      by_cases hn : u64Max < n
      · rw [if_pos hn] at hparse
        exact exactOrRefused_of_err hparse
      · have hle : n * m ≤ u64Max := Nat.not_lt.mp fun hover => hn (h n m hsize hover)
        have hmul : u64Mul profile n m = .ok (n * m) := if_pos hle
        rw [if_neg hn, hmul] at hparse
        exact exactOrRefused_of_ok hsize hle hparse
    · by_cases hauto : IsAuto s
      · exact exactOrRefused_auto profile hauto
      · obtain ⟨msg, hmsg⟩ :=
          parseSizeIn_of_not_isSize profile (fun n m hsize => hsome ⟨n, m, hsize⟩) hauto
        exact exactOrRefused_of_err hmsg

/-- 16 Mi times a tebibyte is 2 ^ 64: an optimised build returns 0, and a debug build panics. -/
theorem parseSize_wraps : parseSizeIn .release "16777216T".toList = .ok 0 ∧
    parseSizeIn .debug "16777216T".toList = .panicked ∧
    ∀ profile, ¬ ExactOrRefused profile "16777216T".toList := by
  have hrelease : parseSizeIn .release "16777216T".toList = .ok 0 := by decide +kernel
  have hdebug : parseSizeIn .debug "16777216T".toList = .panicked := by decide +kernel
  have hsize : IsSize "16777216T".toList 16777216 (2 ^ 40) := isSize_iff.mpr (by decide +kernel)
  refine ⟨hrelease, hdebug, fun profile h => ?_⟩
  obtain ⟨msg, hmsg⟩ := h.refused _ _ hsize (by decide)
  cases profile with
  | debug =>
    rw [hdebug] at hmsg
    cases hmsg
  | release =>
    rw [hrelease] at hmsg
    cases hmsg

end Exact

end Blkcp.Rust
