import Blkcp.C.FileEffect
set_option autoImplicit false

/-! The skip of the input in `dd_copy`: what it passes over, and when it says that it could not. -/

namespace Blkcp.C
open Blkcp.Lib

inductive StatusLevel where
  | none | noxfer | default | progress | json
  deriving DecidableEq

/-- `dd_scanargs` gives a skip in bytes; the records stay at zero. -/
def applySkip (cfg : Config) (skip : Nat) : Config :=
  if skip > 0 then { cfg with skipBytes := skip } else cfg

/-- `setup_input_stream`: `position` is what `lseek` gives, if the input has one. -/
def setupInputOffset (position : Option Nat) : Option Nat :=
  match position with
  | some offset => some (if offset > 0 then offset else 0)
  | none => some 0

/-- The bytes to skip, unless `intmax_t` is too small for them. -/
def usBytes (cfg : Config) : Option Nat :=
  if cfg.skipRecords * cfg.blocksize ≤ intmaxMax ∧
      cfg.skipBytes + cfg.skipRecords * cfg.blocksize ≤ intmaxMax then
    some (cfg.skipBytes + cfg.skipRecords * cfg.blocksize)
  else none

/-- `file` is the name of the input. -/
def cannotSkip (file : String) : String := file ++ ": cannot skip to specified offset"

/-- Whether the offset has not moved by the bytes to skip, where there is one. -/
def missedOffset (usBytes inputOffset inputOffset0 : Option Nat) : Bool :=
  match inputOffset, inputOffset0 with
  | some offset, some offset0 => usBytes != some (offset - offset0)
  | _, _ => false

/-- What the skip phase works on; a negative `input_offset` is `none`. -/
structure SkipState (ρ : Type) where
  cfg : Config
  input : ρ
  inputOffset : Option Nat
  diagnosed : List String

variable {ρ : Type}

/-- The skip phase of `dd_copy`. `skip` leaves `input_offset` alone. -/
def ddCopySkip (I : Input ρ) (env : Env) (statusLevel : StatusLevel) (file : String)
    (s : SkipState ρ) : Run (SkipState ρ) :=
  if s.cfg.skipRecords ≠ 0 ∨ s.cfg.skipBytes ≠ 0 then do
    let usBytes := usBytes s.cfg
    let inputOffset0 := s.inputOffset
    let (usBlocks, bytes, input) ← skip I.lseek (ddIread I env s.cfg.inputFlags.direct)
      s.cfg.skipRecords s.cfg.blocksize s.cfg.skipBytes s.input
    let s := { s with input := input, cfg := { s.cfg with skipBytes := bytes } }
    if (usBlocks ≠ 0 ∨ missedOffset usBytes s.inputOffset inputOffset0) ∧ statusLevel ≠ .none then
      return { s with diagnosed := s.diagnosed ++ [cannotSkip file] }
    else return s
  else .ok s

/-- The input and the configuration are those of the skip without its diagnostic. -/
theorem ddCopySkip_skipInput {ω : Type} {I : Input ρ} {env : Env} {statusLevel : StatusLevel}
    {file : String} {ctx : Ctx ρ ω} {inputOffset : Option Nat} {diagnosed : List String}
    {s : SkipState ρ}
    (h : ddCopySkip I env statusLevel file ⟨ctx.cfg, ctx.input, inputOffset, diagnosed⟩ = .ok s) :
    skipInput I env ctx = .ok { ctx with input := s.input, cfg := s.cfg } := by
  rw [ddCopySkip] at h
  rw [skipInput]
  split at h
  · rename_i hskip
    rw [if_pos hskip]
    cases hrun : skip I.lseek (ddIread I env ctx.cfg.inputFlags.direct) ctx.cfg.skipRecords
        ctx.cfg.blocksize ctx.cfg.skipBytes ctx.input with
    | error e => simp [hrun, bind, Except.bind] at h
    | ok r =>
      obtain ⟨usBlocks, bytes, input⟩ := r
      simp only [hrun, bind, Except.bind, pure, Except.pure] at h ⊢
      split at h
      all_goals
        obtain rfl := Except.ok.inj h
        rfl
  · rename_i hskip
    rw [if_neg hskip]
    obtain rfl := Except.ok.inj h
    rfl

/-- What the system answers to a read until it is not interrupted. -/
inductive Answers (I : Input ρ) (direct : Bool) (size : Nat) :
    ρ → Except Errno (List Byte) → ρ → Prop where
  | data {s t : ρ} {bytes : List Byte} : I.read s direct size = (.ok bytes, t) →
      Answers I direct size s (.ok bytes) t
  | interrupted {s t u : ρ} {r : Except Errno (List Byte)} :
      I.read s direct size = (.error .eintr, t) → Answers I direct size t r u →
      Answers I direct size s r u
  | undirected {s t u : ρ} {r : Except Errno (List Byte)} :
      I.read s direct size = (.error .einval, t) → direct = true →
      I.read t false size = (r, u) → Answers I direct size s r u
  | failed {s t : ρ} {e : Errno} : I.read s direct size = (.error e, t) → e ≠ .eintr →
      ¬(e = .einval ∧ direct = true) → Answers I direct size s (.error e) t

/-- The bytes an answer hands out. -/
def answered (r : Except Errno (List Byte)) : List Byte :=
  match r with
  | .ok bytes => bytes
  | .error _ => []

/-- The same surroundings with fuel for so many rounds. -/
def Env.withFuel (env : Env) (fuel : Nat) : Env := { env with fuel := fuel }

variable {I : Input ρ} {env : Env} {direct : Bool} {size : Nat} {s t : ρ}
  {r : Except Errno (List Byte)}

/-- `dd_iread` returns what it is answered. -/
theorem ddIread_answers :
    (∃ fuel, ddIread I (env.withFuel fuel) direct s size = .ok (r, t)) ↔
      Answers I direct size s r t := by
  constructor
  · rintro ⟨fuel, h⟩
    rw [ddIread, loop, Env.withFuel] at h
    induction fuel generalizing s with
    | zero => cases h
    | succ fuel ih =>
      rw [runLoop, ddIreadBody] at h
      rcases hread : I.read s direct size with ⟨e | bytes, t'⟩
      · simp only [hread] at h
        by_cases hintr : e = .eintr
        · rw [if_pos hintr] at h
          subst hintr
          exact .interrupted hread (ih h)
        · rw [if_neg hintr] at h
          by_cases hdirect : e = .einval ∧ direct = true
          · rw [if_pos hdirect] at h
            obtain ⟨rfl, hd⟩ := hdirect
            exact .undirected hread hd (Except.ok.inj h)
          · rw [if_neg hdirect] at h
            obtain ⟨rfl, rfl⟩ := Prod.mk.inj (Except.ok.inj h)
            exact .failed hread hintr hdirect
      · simp only [hread] at h
        obtain ⟨rfl, rfl⟩ := Prod.mk.inj (Except.ok.inj h)
        exact .data hread
  · intro h
    induction h with
    | data hread => exact ⟨1, by simp [ddIread, loop, runLoop, ddIreadBody, Env.withFuel, hread]⟩
    | interrupted hread _ ih =>
      obtain ⟨fuel, hfuel⟩ := ih
      refine ⟨fuel + 1, ?_⟩
      rw [ddIread, loop, Env.withFuel, runLoop, ddIreadBody, hread]
      exact hfuel
    | undirected hread hd hread' =>
      subst hd
      exact ⟨1, by simp [ddIread, loop, runLoop, ddIreadBody, Env.withFuel, hread, hread']⟩
    | failed hread hintr hdirect =>
      refine ⟨1, ?_⟩
      simp only [ddIread, loop, runLoop, ddIreadBody, Env.withFuel, hread, if_neg hintr,
        if_neg hdirect]

/-- What the input of a skip does: a read hands out the next bytes or leaves them, and a seek that
succeeds moves the offset. -/
structure SkipInput (I : Input ρ) (rest : ρ → List Byte) (offset : ρ → Nat) : Prop where
  read : ∀ {s direct size r t}, I.read s direct size = (r, t) → rest s = answered r ++ rest t
  sought : ∀ {s n t}, I.lseek s n = (true, t) → offset t = offset s + n
  stayed : ∀ {s n t}, I.lseek s n = (false, t) → rest t = rest s

variable {rest : ρ → List Byte} {offset : ρ → Nat}

theorem SkipInput.answers (law : SkipInput I rest offset) (h : Answers I direct size s r t) :
    rest s = answered r ++ rest t := by
  induction h with
  | data hread => exact law.read hread
  | interrupted hread _ ih => exact (law.read hread).trans ih
  | undirected hread _ hread' => exact (law.read hread).trans (law.read hread')
  | failed hread => exact law.read hread

/-- `n` bytes skipped in full: an input that can be sought in has moved by `n`, another one has
passed over `n` bytes or all there are; and with status output the diagnostic is there exactly if
fewer than `n` bytes were passed over. -/
structure SkippedExactly (I : Input ρ) (rest : ρ → List Byte) (offset : ρ → Nat)
    (statusLevel : StatusLevel) (file : String) (n : Nat) (s : ρ) (t : SkipState ρ) : Prop where
  sought : (I.lseek s n).1 = true → offset t.input = offset s + n
  passed : (I.lseek s n).1 = false →
    (rest s).length - (rest t.input).length = min n (rest s).length
  told : statusLevel ≠ .none → (cannotSkip file ∈ t.diagnosed ↔
    (I.lseek s n).1 = false ∧ (rest s).length - (rest t.input).length < n)

/-- The skip phase of a run that was told to skip `n` bytes returns, with them skipped. -/
def SkipsExactly (I : Input ρ) (env : Env) (cfg : Config) (rest : ρ → List Byte) (offset : ρ → Nat)
    (position : Option Nat) (statusLevel : StatusLevel) (file : String) (n : Nat) (s : ρ) : Prop :=
  ∃ fuel t, ddCopySkip I (env.withFuel fuel) statusLevel file
      ⟨applySkip cfg n, s, setupInputOffset position, []⟩ = .ok t ∧
    SkippedExactly I rest offset statusLevel file n s t

/-- The seek succeeds and nobody is told; or the one read that is made instead gives at once all
that there is to skip, into a buffer that holds it, and nobody is told or there is less than `n`. -/
def SkipFits (I : Input ρ) (cfg : Config) (rest : ρ → List Byte) (statusLevel : StatusLevel)
    (n : Nat) (s : ρ) : Prop :=
  if (I.lseek s n).1 then statusLevel = .none
  else
    (∃ r t, Answers I cfg.inputFlags.direct n (I.lseek s n).2 r t ∧
      (answered r).length = min n (rest s).length) ∧
    min n (rest s).length ≤ cfg.blocksize ∧
    (statusLevel = .none ∨ (rest s).length < n)

/-- `input_offset` does not move, so some bytes are always missing. -/
theorem setupInputOffset_missed (position : Option Nat) {n : Nat} (hn : 0 < n) (cfg : Config) :
    missedOffset (usBytes (applySkip cfg n)) (setupInputOffset position)
      (setupInputOffset position) = true := by
  have hbytes : usBytes (applySkip cfg n) ≠ some 0 := by
    rw [applySkip, if_pos hn, usBytes]
    split
    · intro hzero
      have hsum := Option.some.inj hzero
      change n + cfg.skipRecords * cfg.blocksize = 0 at hsum
      omega
    · nofun
  cases position with
  | none => simpa [missedOffset, setupInputOffset] using hbytes
  | some o => simpa [missedOffset, setupInputOffset] using hbytes

section Phase

variable {cfg : Config} {position : Option Nat} {statusLevel : StatusLevel} {file : String}
  {n fuel : Nat} {input : ρ}

/-- What the skip phase leaves, `left` of the bytes not skipped. -/
def skipped (cfg : Config) (position : Option Nat) (statusLevel : StatusLevel) (file : String)
    (left : Nat) (input : ρ) : SkipState ρ where
  cfg := { cfg with skipBytes := left }
  input := input
  inputOffset := setupInputOffset position
  diagnosed := if statusLevel = .none then [] else [cannotSkip file]

/-- The phase in terms of what `skip` returns, when the offset is missed. -/
theorem ddCopySkip_missed (hskip : cfg.skipRecords ≠ 0 ∨ cfg.skipBytes ≠ 0)
    (hmissed : missedOffset (usBytes cfg) (setupInputOffset position) (setupInputOffset position) =
      true) :
    ddCopySkip I env statusLevel file ⟨cfg, s, setupInputOffset position, []⟩ =
      (skip I.lseek (ddIread I env cfg.inputFlags.direct) cfg.skipRecords cfg.blocksize cfg.skipBytes
        s).map fun r => skipped cfg position statusLevel file r.2.1 r.2.2 := by
  rw [ddCopySkip, if_pos hskip]
  simp only [hmissed, or_true, true_and]
  cases hrun : skip I.lseek (ddIread I env cfg.inputFlags.direct) cfg.skipRecords cfg.blocksize
      cfg.skipBytes s with
  | error e => rfl
  | ok r =>
    simp only [bind, Except.bind, Except.map, skipped]
    by_cases hstatus : statusLevel = .none
    · rw [if_neg (not_not.mpr hstatus), if_pos hstatus]
      rfl
    · rw [if_pos hstatus, if_neg hstatus]
      rfl

theorem ddCopySkip_eq (hn : 0 < n) (hrecords : cfg.skipRecords = 0) :
    ddCopySkip I env statusLevel file ⟨applySkip cfg n, s, setupInputOffset position, []⟩ =
      (skip I.lseek (ddIread I env cfg.inputFlags.direct) 0 cfg.blocksize n s).map fun r =>
        skipped cfg position statusLevel file r.2.1 r.2.2 := by
  have hmissed := setupInputOffset_missed position hn cfg
  have hconfig : applySkip cfg n = { cfg with skipBytes := n } := if_pos hn
  rw [hconfig] at hmissed ⊢
  rw [ddCopySkip_missed (.inr (Nat.ne_of_gt hn)) hmissed, ← hrecords]
  rfl

theorem skip_sought (h : I.lseek s n = (true, t)) :
    skip I.lseek (ddIread I env direct) 0 size n s = .ok (0, 0, t) := by
  rw [skip, Nat.zero_mul, Nat.zero_add, h]

/-- One read instead of a seek. -/
theorem skip_read (hn : 0 < n) (h : I.lseek s n = (false, t)) :
    skip I.lseek (ddIread I env direct) 0 size n s =
      match ddIread I env direct t n with
      | .error h => .error h
      | .ok (r, u) =>
        if size < (answered r).length then .error .undefined
        else .ok (0, n - (answered r).length, u) := by
  rw [skip, Nat.zero_mul, Nat.zero_add, h]
  simp only [skipRecords, gt_iff_lt, if_pos hn]
  rcases ddIread I env direct t n with e | ⟨e | data, u⟩
  · rfl
  · rfl
  · rfl

end Phase

/-- The skip phase of `dd_copy` skips exactly and says so only then if nobody can be told of a seek,
and where it cannot seek if one read gives all at once. -/
theorem skip_exact_iff (law : SkipInput I rest offset) {cfg : Config}
    (hrecords : cfg.skipRecords = 0) {n : Nat} (hn : 0 < n) (position : Option Nat)
    (statusLevel : StatusLevel) (file : String) :
    SkipsExactly I env cfg rest offset position statusLevel file n s ↔
      SkipFits I cfg rest statusLevel n s := by
  have hdiagnosed : ∀ left input,
      cannotSkip file ∈ (skipped cfg position statusLevel file left input : SkipState ρ).diagnosed ↔
        statusLevel ≠ .none := by
    intro left input
    rw [skipped]
    split <;> simp_all
  simp only [SkipsExactly, ddCopySkip_eq hn hrecords]
  rcases hseek : I.lseek s n with ⟨_ | _, t₀⟩
  · -- it reads
    simp only [skip_read hn hseek, SkipFits, hseek, Bool.false_eq_true, if_false]
    have hpassed : ∀ {r u}, Answers I cfg.inputFlags.direct n t₀ r u →
        (rest s).length - (rest u).length = (answered r).length := by
      intro r u hr
      rw [← law.stayed hseek, law.answers hr, List.length_append, Nat.add_sub_cancel]
    constructor
    · rintro ⟨fuel, x, hrun, hexact⟩
      rcases hread : ddIread I (env.withFuel fuel) cfg.inputFlags.direct t₀ n with e | ⟨r, u⟩
      · simp [hread, Except.map] at hrun
      · have hr := ddIread_answers.mp ⟨fuel, hread⟩
        simp only [hread] at hrun
        split at hrun
        · cases hrun
        · rename_i hfits
          obtain rfl := Except.ok.inj hrun
          have hlen := (hpassed hr).symm.trans (hexact.passed (by rw [hseek]))
          refine ⟨⟨r, u, hr, hlen⟩, by omega, ?_⟩
          by_cases hstatus : statusLevel = .none
          · exact .inl hstatus
          · have hless := ((hexact.told hstatus).mp ((hdiagnosed _ _).mpr hstatus)).2
            have hpass := hpassed hr
            change (rest s).length - (rest u).length < n at hless
            exact .inr (by omega)
    · rintro ⟨⟨r, u, hr, hlen⟩, hfits, htold⟩
      have hreads : ∃ fuel, ddIread I (env.withFuel fuel) cfg.inputFlags.direct t₀ n = .ok (r, u) :=
        ddIread_answers.mpr hr
      obtain ⟨fuel, hread⟩ := hreads
      refine ⟨fuel, skipped cfg position statusLevel file (n - (answered r).length) u, ?_, ?_⟩
      · simp only [hread]
        rw [if_neg (by omega)]
        rfl
      · have hpass := hpassed hr
        refine ⟨fun hs => ?_, fun _ => hpass.trans hlen, fun hstatus => ?_⟩
        · rw [hseek] at hs
          cases hs
        · rw [hdiagnosed, hseek]
          have hless := htold.resolve_left hstatus
          refine ⟨fun _ => ⟨rfl, ?_⟩, fun _ => hstatus⟩
          change (rest s).length - (rest u).length < n
          omega
  · -- it seeks
    simp only [skip_sought hseek, SkipFits, hseek, if_true]
    constructor
    · rintro ⟨-, x, hrun, hexact⟩
      obtain rfl := Except.ok.inj hrun
      by_contra hstatus
      have hless := ((hexact.told hstatus).mp ((hdiagnosed _ _).mpr hstatus)).1
      rw [hseek] at hless
      cases hless
    · intro hstatus
      refine ⟨0, skipped cfg position statusLevel file 0 t₀, rfl, fun _ => ?_, fun hs => ?_,
        fun h => absurd hstatus h⟩
      · exact law.sought hseek
      · rw [hseek] at hs
        cases hs

section Example

/-- A file of two bytes at a position. -/
def seekableInput : Input Nat where
  read pos _ size := (.ok (([7, 8].drop pos).take size), min 2 (pos + size))
  lseek pos n := (true, pos + n)
  read_le := by
    intro pos direct size bytes t h
    obtain rfl := Except.ok.inj (Prod.mk.inj h).1
    exact List.length_take_le _ _

theorem seekableInput_law : SkipInput seekableInput (fun pos => [7, 8].drop pos) id where
  read {pos direct size r t} h := by
    obtain ⟨rfl, rfl⟩ := Prod.mk.inj h
    change [7, 8].drop pos = ([7, 8].drop pos).take size ++ [7, 8].drop (min 2 (pos + size))
    have hdrop : ([7, 8] : List Byte).drop (min 2 (pos + size)) = ([7, 8].drop pos).drop size := by
      rw [List.drop_drop]
      rcases Nat.le_total 2 (pos + size) with hle | hle
      · rw [Nat.min_eq_left hle, List.drop_of_length_le (l := [7, 8]) hle]
        rfl
      · rw [Nat.min_eq_right hle]
    rw [hdrop, List.take_append_drop]
  sought h := by
    obtain ⟨-, rfl⟩ := Prod.mk.inj h
    rfl
  stayed h := by cases (Prod.mk.inj h).1

/-- A pipe with the pieces that its reads give. -/
def pipedInput : Input (List (List Byte)) where
  read pieces _ size :=
    match pieces with
    | [] => (.ok [], [])
    | piece :: pieces => (.ok (piece.take size), piece.drop size :: pieces)
  lseek pieces _ := (false, pieces)
  read_le := by
    intro pieces direct size bytes t h
    cases pieces with
    | nil =>
      obtain rfl := Except.ok.inj (Prod.mk.inj h).1
      exact Nat.zero_le _
    | cons piece pieces =>
      obtain rfl := Except.ok.inj (Prod.mk.inj h).1
      exact List.length_take_le _ _

/-- A byte of a file is skipped, and reported as not skipped; of two bytes in a pipe that come one at
a time only the first is skipped. -/
theorem skip_inexact :
    ¬SkipsExactly seekableInput (plainEnv 1) {} (fun pos => [7, 8].drop pos) id (some 0) .default
      "in" 1 0 ∧
    ¬SkipsExactly pipedInput (plainEnv 1) {} List.flatten (fun _ => 0) none .none "in" 2
      [[7], [8]] := by
  constructor
  · rintro ⟨fuel, t, hrun, hexact⟩
    obtain rfl := Except.ok.inj hrun
    have htold := (hexact.told nofun).mp (List.mem_singleton.mpr rfl)
    cases htold.1
  · rintro ⟨fuel, t, hrun, hexact⟩
    cases fuel with
    | zero => cases hrun
    | succ fuel =>
      obtain rfl := Except.ok.inj hrun
      exact absurd (hexact.passed rfl) (by decide)

/-- Without status output the skip of one byte of a file is exact. -/
theorem skip_exact_quiet :
    SkipsExactly seekableInput (plainEnv 1) {} (fun pos => [7, 8].drop pos) id (some 0) .none "in" 1
      0 := by
  have hfits : SkipFits seekableInput {} (fun pos => [7, 8].drop pos) .none 1 0 := rfl
  exact (skip_exact_iff seekableInput_law rfl (by decide) (some 0) .none "in").mpr hfits

end Example

end Blkcp.C
