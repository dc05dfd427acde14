import Blkcp.Lib.Utf8
import Blkcp.Lib.Words
import Blkcp.Rust.TuiDevice
set_option autoImplicit false

/-! The command line (`args.rs`): the loop over its words and what of the configuration each of
them sets. Where a function returns an error, `none` stands for it. -/

namespace Blkcp.Rust
open Blkcp.Lib

/-- The bytes of a text as a path, each as the character of that number. -/
def osPath (text : Text) : Path :=
  String.ofList ((Utf8.encode text).map fun b => Char.ofNat b.toNat)

/-- The text of a path, the characters of which are its bytes. -/
def toStringLossy (path : Path) : Text := Utf8.lossy (Utf8.bytes path.toList)

theorem bytes_osPath (text : Text) : Utf8.bytes (osPath text).toList = Utf8.encode text := by
  unfold osPath Utf8.bytes
  rw [String.toList_ofList, List.map_map]
  refine List.map_id'' (fun b => ?_) _
  rw [Function.comp_apply, Utf8.toNat_ofNat_toNat, UInt8.ofNat_toNat]

theorem toStringLossy_osPath (text : Text) : toStringLossy (osPath text) = text := by
  rw [toStringLossy, bytes_osPath, Utf8.lossy_encode]

theorem osPath_injective {s t : Text} (h : osPath s = osPath t) : s = t := by
  rw [← toStringLossy_osPath s, h, toStringLossy_osPath]

/-- `usize` from a text. -/
def parseUsize (s : Text) : Option Nat :=
  let digits := if s.head? = some '+' then s.tail else s
  if digits = [] ∨ ¬ digits.all Char.isDigit then none
  else
    let n := digits.foldl (fun n c => n * 10 + (c.toNat - 48)) 0
    if u64Max < n then none else some n

def parseEngine (s : Text) : Option Engine :=
  let s := s.map toLowercase
  if s = "sync".toList then some .sync
  else if s = "async".toList then some .async
  else if s = "reflink".toList then some .reflink
  else if s = "uring".toList then some .uring
  else if s = "splice".toList then some .splice
  else if s = "auto".toList then some .auto
  else none

def parseHash (s : Text) : Option HashAlgo :=
  let s := s.map toLowercase
  if s = "sha256".toList then some .sha256
  else if s = "blake3".toList then some .blake3
  else if s = "blks".toList then some .blks
  else none

/-- The options that take a value. -/
inductive Valued where
  | input | output | blockSize | count | limit | skip | seek | engine | threads | queueDepth | hash
  deriving DecidableEq

inductive Switch where
  | progress | quiet | force | dryRun | autotune | direct | nocache | sparse | sync | swab
  | fdatasync | fsync | notrunc | noerror | json
  | hash (algo : HashAlgo)
  deriving DecidableEq

def Valued.set (o : Valued) (val : Text) (cfg : Config) : Option Config :=
  match o with
  | .input => some { cfg with input := some (osPath val) }
  | .output => some { cfg with output := some (osPath val) }
  | .blockSize =>
    if (trim val).map Char.toLower = ['a', 'u', 't', 'o'] then
      some { cfg with autotune := true, blockSize := 64 * 1024 }
    else do
      let sz ← parseSize val
      if sz = 0 then none else some { cfg with blockSize := sz }
  | .count => (parseSize val).map fun n => { cfg with count := some n }
  | .limit => (parseSize val).map fun n => { cfg with limitBytes := some n }
  | .skip => (parseSize val).map fun n => { cfg with skipBytes := n }
  | .seek => (parseSize val).map fun n => { cfg with seekBytes := n }
  | .engine => (parseEngine val).map fun e => { cfg with engine := e }
  | .threads => (parseUsize val).map fun n => { cfg with threads := n }
  | .queueDepth => do
    let qd ← parseUsize val
    if qd = 0 then none else some { cfg with queueDepth := some qd }
  | .hash => (parseHash val).map fun h => { cfg with hashAlgo := h }

def Switch.set (o : Switch) (cfg : Config) : Config :=
  match o with
  | .progress => { cfg with progress := true }
  | .quiet => { cfg with quiet := true }
  | .force => { cfg with force := true }
  | .dryRun => { cfg with dryRun := true }
  | .autotune =>
    { cfg with autotune := true, blockSize := if cfg.blockSize = 512 then 64 * 1024 else cfg.blockSize }
  | .direct => { cfg with direct := true }
  | .nocache => { cfg with nocache := true }
  | .sparse => { cfg with sparse := true }
  | .sync => { cfg with sync := true }
  | .swab => { cfg with swab := true }
  | .fdatasync => { cfg with fdatasync := true }
  | .fsync => { cfg with fsync := true }
  | .notrunc => { cfg with notrunc := true }
  | .noerror => { cfg with noerror := true }
  | .json => { cfg with json := true }
  | .hash algo => { cfg with hashAlgo := algo }

/-- Each option with its names and with what stands in front of a value in the same word. -/
def valuedOptions : List (Valued × List String × List String) :=
  [(.input, ["-i", "--input"], ["--input="]),
    (.output, ["-o", "--output"], ["--output="]),
    (.blockSize, ["-b", "--block-size", "--bs"], ["--block-size=", "--bs="]),
    (.count, ["-c", "--count"], ["--count="]),
    (.limit, ["-l", "--limit", "-s", "--size", "--bytes"], ["--limit=", "--size=", "--bytes="]),
    (.skip, ["--skip"], ["--skip="]),
    (.seek, ["--seek"], ["--seek="]),
    (.engine, ["-e", "--engine"], ["--engine="]),
    (.threads, ["-j", "--threads", "--shards"], ["--threads=", "--shards="]),
    (.queueDepth, ["--queue-depth"], ["--queue-depth="])]

def switches : List (Switch × List String) :=
  [(.progress, ["-p", "--progress"]), (.quiet, ["-q", "--quiet"]), (.force, ["-f", "--force"]),
    (.dryRun, ["-n", "--dry-run"]), (.autotune, ["--autotune"]), (.direct, ["--direct"]),
    (.nocache, ["--nocache"]), (.sparse, ["--sparse"]), (.sync, ["--sync"]), (.swab, ["--swab"]),
    (.fdatasync, ["--fdatasync"]), (.fsync, ["--fsync"]), (.notrunc, ["--notrunc"]),
    (.noerror, ["--noerror"]), (.json, ["--json"]), (.hash .sha256, ["--sha256"]),
    (.hash .blake3, ["--blake3"]), (.hash .blks, ["--blks"]), (.hash .sha256, ["--hash"])]

/-- What a word of the command line is. -/
inductive Arg where
  | exit
  | valued (o : Valued)
  | inline (o : Valued) (val : Text)
  | switch (o : Switch)
  | positional
  | unknown
  deriving DecidableEq

def named (names : List String) (arg : Text) : Bool := names.any fun name => name.toList == arg

def valuedArg (arg : Text) (e : Valued × List String × List String) : Option Arg :=
  if named e.2.1 arg then some (.valued e.1)
  else (e.2.2.findSome? fun pre => stripPrefix pre.toList arg).map (.inline e.1)

def switchArg (arg : Text) (e : Switch × List String) : Option Arg :=
  if named e.2 arg then some (.switch e.1) else none

def classify (arg : Text) : Arg :=
  if named ["-h", "--help", "-v", "--version"] arg then .exit
  else
    match valuedOptions.findSome? (valuedArg arg) with
    | some a => a
    | none =>
      match switches.findSome? (switchArg arg) with
      | some a => a
      | none =>
        match stripPrefix "--hash=".toList arg with
        | some val => .inline .hash val
        | none => if arg.head? = some '-' then .unknown else .positional

/-- The process ends with the help or the version, or the function returns. -/
inductive Parsed where
  | exit
  | error
  | config (cfg : Config)
  deriving DecidableEq

/-- The operands are the input and the output where these are not named. -/
def resolvePositional (cfg : Config) (positional : List Text) : Parsed :=
  let takesInput := cfg.input.isNone && !positional.isEmpty
  let (cfg, positional) :=
    if takesInput then ({ cfg with input := positional.head?.map osPath }, positional.tail)
    else (cfg, positional)
  let takesOutput := cfg.output.isNone && !positional.isEmpty
  let (cfg, positional) :=
    if takesOutput then ({ cfg with output := positional.head?.map osPath }, positional.tail)
    else (cfg, positional)
  if positional.isEmpty then .config cfg else .error

/-- The loop over the words behind the name of the program. -/
def parseLoop (cfg : Config) (positional : List Text) : List Text → Parsed
  | [] => resolvePositional cfg positional
  | arg :: rest =>
    match classify arg with
    | .exit => .exit
    | .valued o =>
      match rest with
      | [] => .error
      | val :: rest =>
        match o.set val cfg with
        | some cfg => parseLoop cfg positional rest
        | none => .error
    | .inline o val =>
      match o.set val cfg with
      | some cfg => parseLoop cfg positional rest
      | none => .error
    | .switch o => parseLoop (o.set cfg) positional rest
    | .positional => parseLoop cfg (positional ++ [arg]) rest
    | .unknown => .error

def parseArgs (args : List Text) : Parsed := parseLoop {} [] args

/-! ### Words by their first character -/

section Classify

variable {arg : Text}

theorem named_of_head {names : List String} (hnames : ∀ n ∈ names, n.toList.head? = some '-')
    (h : arg.head? ≠ some '-') : named names arg = false := by
  rw [named, List.any_eq_false]
  intro n hn he
  rw [beq_iff_eq] at he
  exact h (he ▸ hnames n hn)

theorem stripPrefix_of_head {pre : Text} (hpre : pre.head? = some '-')
    (h : arg.head? ≠ some '-') : stripPrefix pre arg = none := by
  unfold stripPrefix
  refine if_neg fun hlead => h ?_
  obtain ⟨rest, rfl⟩ := List.isPrefixOf_iff_prefix.mp hlead
  cases pre with
  | nil => cases hpre
  | cons c pre => exact hpre

theorem classify_of_head (h : arg.head? ≠ some '-') : classify arg = .positional := by
  have hvalued : valuedOptions.findSome? (valuedArg arg) = none := by
    have hdash : ∀ e ∈ valuedOptions, (∀ n ∈ e.2.1, n.toList.head? = some '-') ∧
        ∀ p ∈ e.2.2, p.toList.head? = some '-' := by decide
    rw [List.findSome?_eq_none_iff]
    intro e he
    unfold valuedArg
    rw [named_of_head (hdash e he).1 h, if_neg Bool.false_ne_true, Option.map_eq_none_iff,
      List.findSome?_eq_none_iff]
    exact fun p hp => stripPrefix_of_head ((hdash e he).2 p hp) h
  have hswitch : switches.findSome? (switchArg arg) = none := by
    have hdash : ∀ e ∈ switches, ∀ n ∈ e.2, n.toList.head? = some '-' := by decide
    rw [List.findSome?_eq_none_iff]
    intro e he
    unfold switchArg
    rw [named_of_head (hdash e he) h, if_neg Bool.false_ne_true]
  have hexit : named ["-h", "--help", "-v", "--version"] arg = false :=
    named_of_head (by decide) h
  unfold classify
  rw [hexit, hvalued, hswitch, stripPrefix_of_head (by decide) h]
  exact if_neg h

theorem head_of_classify {a : Arg} (h : classify arg = a) (ha : a ≠ .positional) :
    arg.head? = some '-' := by
  by_contra hhead
  exact ha (h.symm.trans (classify_of_head hhead))

/-- What is set behind a name is what the word has behind it. -/
theorem stripPrefix_of_inline {o : Valued} {val : Text} (h : classify arg = .inline o val) :
    ∃ pre, stripPrefix pre arg = some val := by
  unfold classify at h
  split at h
  · cases h
  · split at h
    · rename_i a hfind
      subst h
      obtain ⟨e, -, he⟩ := List.exists_of_findSome?_eq_some hfind
      unfold valuedArg at he
      split at he
      · cases he
      · obtain ⟨val', hval, hinline⟩ := Option.map_eq_some_iff.mp he
        cases hinline
        obtain ⟨pre, -, hpre⟩ := List.exists_of_findSome?_eq_some hval
        exact ⟨_, hpre⟩
    · split at h
      · rename_i a hfind
        subst h
        obtain ⟨e, -, he⟩ := List.exists_of_findSome?_eq_some hfind
        unfold switchArg at he
        split at he <;> cases he
      · split at h
        · rename_i val' hval
          cases h
          exact ⟨_, hval⟩
        · split at h <;> cases h

end Classify

/-! ### Steps of the loop -/

section Loop

variable {cfg cfg' : Config} {positional rest : List Text} {arg val : Text}

theorem parseLoop_valued {o : Valued} (h : classify arg = .valued o)
    (hset : o.set val cfg = some cfg') :
    parseLoop cfg positional (arg :: val :: rest) = parseLoop cfg' positional rest := by
  simp only [parseLoop, h, hset]

theorem parseLoop_valued_error {o : Valued} (h : classify arg = .valued o)
    (hset : o.set val cfg = none) :
    parseLoop cfg positional (arg :: val :: rest) = .error := by
  simp only [parseLoop, h, hset]

theorem parseLoop_inline {o : Valued} (h : classify arg = .inline o val)
    (hset : o.set val cfg = some cfg') :
    parseLoop cfg positional (arg :: rest) = parseLoop cfg' positional rest := by
  simp only [parseLoop, h, hset]

theorem parseLoop_inline_error {o : Valued} (h : classify arg = .inline o val)
    (hset : o.set val cfg = none) : parseLoop cfg positional (arg :: rest) = .error := by
  simp only [parseLoop, h, hset]

theorem parseLoop_switch {o : Switch} (h : classify arg = .switch o) :
    parseLoop cfg positional (arg :: rest) = parseLoop (o.set cfg) positional rest := by
  simp only [parseLoop, h]

theorem parseLoop_positional (h : arg.head? ≠ some '-') :
    parseLoop cfg positional (arg :: rest) = parseLoop cfg (positional ++ [arg]) rest := by
  simp only [parseLoop, classify_of_head h]

end Loop

/-- What one turn of the loop does when it does not end it. -/
inductive ParseStep : Config → List Text → List Text → Config → List Text → List Text → Prop
  | valued {cfg cfg' : Config} {positional rest : List Text} {arg val : Text} {o : Valued}
      (h : classify arg = .valued o) (hset : o.set val cfg = some cfg') :
      ParseStep cfg positional (arg :: val :: rest) cfg' positional rest
  | inline {cfg cfg' : Config} {positional rest : List Text} {arg val : Text} {o : Valued}
      (h : classify arg = .inline o val) (hset : o.set val cfg = some cfg') :
      ParseStep cfg positional (arg :: rest) cfg' positional rest
  | switch {cfg : Config} {positional rest : List Text} {arg : Text} {o : Switch}
      (h : classify arg = .switch o) :
      ParseStep cfg positional (arg :: rest) (o.set cfg) positional rest
  | positional {cfg : Config} {positional rest : List Text} {arg : Text}
      (h : classify arg = .positional) :
      ParseStep cfg positional (arg :: rest) cfg (positional ++ [arg]) rest

/-- What the turns preserve holds where the words end. -/
theorem parseLoop_run {I : Config → List Text → List Text → Prop}
    (hstep : ∀ {cfg positional ws cfg' positional' ws'},
      ParseStep cfg positional ws cfg' positional' ws' → I cfg positional ws →
        I cfg' positional' ws')
    {cfg c : Config} {positional ws : List Text} (hI : I cfg positional ws)
    (h : parseLoop cfg positional ws = .config c) :
    ∃ cfg' positional', I cfg' positional' [] ∧ resolvePositional cfg' positional' = .config c := by
  induction hn : ws.length using Nat.strongRecOn generalizing cfg positional ws with
  | ind n ih =>
    cases ws with
    | nil => exact ⟨cfg, positional, hI, h⟩
    | cons arg rest =>
      rw [List.length_cons] at hn
      cases hc : classify arg with
      | exit => simp [parseLoop, hc] at h
      | unknown => simp [parseLoop, hc] at h
      | valued o =>
        cases rest with
        | nil => simp [parseLoop, hc] at h
        | cons val rest =>
          rw [List.length_cons] at hn
          cases hset : o.set val cfg with
          | none => simp [parseLoop, hc, hset] at h
          | some cfg' =>
            rw [parseLoop_valued hc hset] at h
            exact ih _ (by omega) (hstep (.valued hc hset) hI) h rfl
      | inline o val =>
        cases hset : o.set val cfg with
        | none => simp [parseLoop, hc, hset] at h
        | some cfg' =>
          rw [parseLoop_inline hc hset] at h
          exact ih _ (by omega) (hstep (.inline hc hset) hI) h rfl
      | switch o =>
        rw [parseLoop_switch hc] at h
        exact ih _ (by omega) (hstep (.switch hc) hI) h rfl
      | positional =>
        simp only [parseLoop, hc] at h
        exact ih _ (by omega) (hstep (.positional hc) hI) h rfl

section Paths

variable {cfg cfg' c : Config} {positional ws : List Text} {o : Valued} {val : Text}

theorem Valued.set_paths (h : o.set val cfg = some cfg') :
    cfg'.input = (if o = .input then some (osPath val) else cfg.input) ∧
      cfg'.output = if o = .output then some (osPath val) else cfg.output := by
  unfold Valued.set at h
  cases o with
  | blockSize =>
    dsimp only at h
    split_ifs at h
    · cases h
      exact ⟨rfl, rfl⟩
    · obtain ⟨sz, -, hsz⟩ := Option.bind_eq_some_iff.mp h
      split_ifs at hsz
      cases hsz
      exact ⟨rfl, rfl⟩
  | queueDepth =>
    obtain ⟨qd, -, hqd⟩ := Option.bind_eq_some_iff.mp h
    split_ifs at hqd
    cases hqd
    exact ⟨rfl, rfl⟩
  | input =>
    cases h
    exact ⟨rfl, rfl⟩
  | output =>
    cases h
    exact ⟨rfl, rfl⟩
  | _ =>
    obtain ⟨_, -, rfl⟩ := Option.map_eq_some_iff.mp h
    exact ⟨rfl, rfl⟩

theorem Switch.set_input (o : Switch) (cfg : Config) : (o.set cfg).input = cfg.input := by
  cases o <;> rfl

theorem Switch.set_output (o : Switch) (cfg : Config) : (o.set cfg).output = cfg.output := by
  cases o <;> rfl

/-- Operands are taken only for a side that has no path. -/
theorem resolvePositional_eq_config (h : resolvePositional cfg positional = .config c) :
    (c.input = cfg.input ∨ cfg.input = none ∧ ∃ w ∈ positional, c.input = some (osPath w)) ∧
      (c.output = cfg.output ∨ cfg.output = none ∧ ∃ w ∈ positional, c.output = some (osPath w)) := by
  obtain ⟨input, output⟩ := cfg
  unfold resolvePositional at h
  cases input <;> cases output <;> rcases positional with _ | ⟨p, _ | ⟨q, _ | ⟨r, more⟩⟩⟩ <;>
    simp at h <;> subst h <;> simp

theorem resolvePositional_nil (cfg : Config) : resolvePositional cfg [] = .config cfg := by
  simp [resolvePositional]

theorem resolvePositional_extra (hin : cfg.input.isSome) (hout : cfg.output.isSome)
    (hne : positional ≠ []) : resolvePositional cfg positional = .error := by
  obtain ⟨i, hi⟩ := Option.isSome_iff_exists.mp hin
  obtain ⟨o, ho⟩ := Option.isSome_iff_exists.mp hout
  simp [resolvePositional, hi, ho, hne]

/-- Both sides are named, and there is an operand. -/
structure TooMany (cfg : Config) (positional : List Text) : Prop where
  input : cfg.input.isSome
  output : cfg.output.isSome
  operand : positional ≠ []

theorem TooMany.step {positional' ws' : List Text}
    (hstep : ParseStep cfg positional ws cfg' positional' ws') (h : TooMany cfg positional) :
    TooMany cfg' positional' := by
  obtain ⟨hin, hout, hne⟩ := h
  have hset {o : Valued} {val : Text} (hset : o.set val cfg = some cfg') :
      cfg'.input.isSome ∧ cfg'.output.isSome := by
    obtain ⟨hi, ho⟩ := Valued.set_paths hset
    rw [hi, ho]
    constructor
    · split
      · rfl
      · exact hin
    · split
      · rfl
      · exact hout
  cases hstep with
  | valued _ hs => exact ⟨(hset hs).1, (hset hs).2, hne⟩
  | inline _ hs => exact ⟨(hset hs).1, (hset hs).2, hne⟩
  | switch _ => exact ⟨by rwa [Switch.set_input], by rwa [Switch.set_output], hne⟩
  | positional _ => exact ⟨hin, hout, List.append_ne_nil_of_right_ne_nil _ (List.cons_ne_nil _ _)⟩

theorem TooMany.parseLoop (h : TooMany cfg positional) : parseLoop cfg positional ws ≠ .config c := by
  intro hrun
  obtain ⟨cfg', positional', ⟨hin, hout, hne⟩, hresolve⟩ :=
    parseLoop_run (I := fun cfg positional _ => TooMany cfg positional) TooMany.step h hrun
  rw [resolvePositional_extra hin hout hne] at hresolve
  cases hresolve

/-- A path that is a word, or the end of one. -/
def Spoken (path : Option Path) : Prop :=
  ∀ p ∈ path, ∃ t, Unsplit isWhitespace t ∧ p = osPath t

theorem spoken_some {t : Text} (h : Unsplit isWhitespace t) : Spoken (some (osPath t)) := by
  intro p hp
  cases hp
  exact ⟨t, h, rfl⟩

theorem unsplit_of_inline {arg : Text} (h : classify arg = .inline o val)
    (harg : Unsplit isWhitespace arg) : Unsplit isWhitespace val := by
  obtain ⟨pre, hpre⟩ := stripPrefix_of_inline h
  unfold stripPrefix at hpre
  split_ifs at hpre
  cases hpre
  exact fun c hc => harg c (List.mem_of_mem_drop hc)

/-- The paths of a configuration are in the words that it is made of. -/
structure SpokenPaths (cfg : Config) (positional ws : List Text) : Prop where
  words : ∀ w ∈ ws, Unsplit isWhitespace w
  operands : ∀ w ∈ positional, Unsplit isWhitespace w
  input : Spoken cfg.input
  output : Spoken cfg.output

theorem SpokenPaths.step {positional' ws' : List Text}
    (hstep : ParseStep cfg positional ws cfg' positional' ws') (h : SpokenPaths cfg positional ws) :
    SpokenPaths cfg' positional' ws' := by
  obtain ⟨hws, hpos, hin, hout⟩ := h
  have hset {o : Valued} {val : Text} (hval : Unsplit isWhitespace val)
      (hset : o.set val cfg = some cfg') : Spoken cfg'.input ∧ Spoken cfg'.output := by
    obtain ⟨hi, ho⟩ := Valued.set_paths hset
    rw [hi, ho]
    constructor
    · split
      · exact spoken_some hval
      · exact hin
    · split
      · exact spoken_some hval
      · exact hout
  cases hstep with
  | valued _ hs =>
    obtain ⟨-, hval, hrest⟩ : _ ∧ _ ∧ _ := by simpa using hws
    exact ⟨hrest, hpos, (hset hval hs).1, (hset hval hs).2⟩
  | inline hc hs =>
    obtain ⟨harg, hrest⟩ := List.forall_mem_cons.mp hws
    have hval := unsplit_of_inline hc harg
    exact ⟨hrest, hpos, (hset hval hs).1, (hset hval hs).2⟩
  | switch _ =>
    obtain ⟨-, hrest⟩ := List.forall_mem_cons.mp hws
    exact ⟨hrest, hpos, by rwa [Switch.set_input], by rwa [Switch.set_output]⟩
  | positional _ =>
    obtain ⟨harg, hrest⟩ := List.forall_mem_cons.mp hws
    exact ⟨hrest, List.forall_mem_append.mpr ⟨hpos, List.forall_mem_singleton.mpr harg⟩, hin, hout⟩

theorem parseArgs_spoken (hws : ∀ w ∈ ws, Unsplit isWhitespace w)
    (h : parseArgs ws = .config c) : Spoken c.input ∧ Spoken c.output := by
  have hstart : SpokenPaths {} [] ws := ⟨hws, nofun, nofun, nofun⟩
  obtain ⟨cfg', positional', ⟨-, hpos, hin, hout⟩, hresolve⟩ :=
    parseLoop_run SpokenPaths.step hstart h
  obtain ⟨hi, ho⟩ := resolvePositional_eq_config hresolve
  constructor
  · rcases hi with hi | ⟨-, w, hw, hi⟩
    · rwa [hi]
    · rw [hi]
      exact spoken_some (hpos w hw)
  · rcases ho with ho | ⟨-, w, hw, ho⟩
    · rwa [ho]
    · rw [ho]
      exact spoken_some (hpos w hw)

end Paths

end Blkcp.Rust
