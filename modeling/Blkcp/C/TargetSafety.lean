import Blkcp.C.ZeroCopy
set_option autoImplicit false

/-! The target safety guard (`io_engine.c`): whether the output is a block device that is mounted
where the system lives, or swapped to, or a disk with such a partition. -/

namespace Blkcp.C

/-- The bytes of a string, up to the one that ends it. -/
abbrev CStr := List Char

/-- What `stat` says of a path: the kind of file and, of a device, its number. -/
structure Stat where
  kind : FileKind
  major : Nat
  minor : Nat
  deriving DecidableEq

/-- What the guard looks at. A file that cannot be opened is `none`. -/
structure Host where
  stat : CStr → Option Stat
  mounts : Option CStr
  swaps : Option CStr

inductive TargetSafetyStatus where
  | ok | mountedSystem | activeSwap
  deriving DecidableEq

def isspace (c : Char) : Bool :=
  c == ' ' || c == '\t' || c == '\n' || c == '\x0b' || c == '\x0c' || c == '\r'

/-- A line with its end, or `room` characters of it. -/
def fgets : Nat → CStr → CStr × CStr
  | 0, s => ([], s)
  | _ + 1, [] => ([], [])
  | room + 1, c :: s =>
    if c = '\n' then ([c], s) else (c :: (fgets room s).1, (fgets room s).2)

/-- What one call of `fgets` after the other reads into an array of 1024, at most `n` times. -/
def fgetsAll : Nat → CStr → List CStr
  | 0, _ => []
  | n + 1, s => if s = [] then [] else (fgets 1023 s).1 :: fgetsAll n (fgets 1023 s).2

def lines (file : Option CStr) : List CStr :=
  match file with
  | some s => fgetsAll s.length s
  | none => []

/-- `%511s` of `sscanf`. -/
def scanWord (s : CStr) : Option (CStr × CStr) :=
  let word := ((s.dropWhile isspace).take 511).takeWhile fun c => !isspace c
  if word = [] then none else some (word, (s.dropWhile isspace).drop word.length)

/-- The line as a string, for `sscanf`. -/
def cString (line : CStr) : CStr := line.takeWhile (· != '\x00')

/-- What follows the last slash, if there is one. -/
def strrchrSlash (s : CStr) : Option CStr :=
  if '/' ∈ s then some (s.reverse.takeWhile (· != '/')).reverse else none

/-- Whether the byte after `dlen` others is a digit. The byte that ends a string is none. -/
def digitAt (s : CStr) (dlen : Nat) : Bool := (s.drop dlen).head?.any Char.isDigit

def isPartitionOfDevice (devName diskName : CStr) : Bool :=
  if diskName = [] ∨ ¬ diskName.isPrefixOf devName then false
  else
    match devName.drop diskName.length with
    | [] => true
    | next :: _ =>
      if diskName.getLast?.any Char.isDigit then
        next == 'p' && digitAt devName (diskName.length + 1)
      else next.isDigit

def systemMountPoint (mountpoint : CStr) : Bool :=
  [['/'], ['/', 'b', 'o', 'o', 't'], ['/', 'b', 'o', 'o', 't', '/', 'e', 'f', 'i'],
    ['/', 'h', 'o', 'm', 'e']].contains mountpoint

/-- The partition match: by the last component of each path, within one major number. -/
def namedMatch (outputFile devpath : CStr) : Bool :=
  match strrchrSlash outputFile, strrchrSlash devpath with
  | some tgtBase, some devBase => isPartitionOfDevice devBase tgtBase
  | _, _ => false

namespace Host

variable (M : Host)

/-- Whether an active device is the target or one of its partitions. -/
def isMatch (outputFile devpath : CStr) (target : Stat) : Bool :=
  match M.stat devpath with
  | some m =>
    m.kind == .block &&
      if m.major = target.major ∧ m.minor = target.minor then true
      else if m.major = target.major then namedMatch outputFile devpath
      else false
  | none => false

/-- The device and the mount point of a line that is about one of the system's own. -/
def systemMount (line : CStr) : Option (CStr × CStr) := do
  let (devpath, rest) ← scanWord (cString line)
  let (mountpoint, _) ← scanWord rest
  if systemMountPoint mountpoint then some (devpath, mountpoint) else none

def swapDevice (line : CStr) : Option CStr := (scanWord (cString line)).map (·.1)

/-- The devices mounted where the system lives, each with its mount point. -/
def systemMounts : List (CStr × CStr) := (lines M.mounts).filterMap systemMount

/-- The devices swapped to. The first line is a header. -/
def swapDevices : List CStr := ((lines M.swaps).drop 1).filterMap swapDevice

/-- The status, with what is written to a `detail` of some size. -/
def evaluateTargetSafety (outputFile : Option CStr) (detailSize : Nat) :
    TargetSafetyStatus × Option CStr :=
  match outputFile with
  | none => (.ok, none)
  | some path =>
    match M.stat path with
    | none => (.ok, none)
    | some target =>
      if target.kind ≠ .block then (.ok, none)
      else
        let detail (text : CStr) := if 0 < detailSize then some (text.take (detailSize - 1)) else none
        match M.systemMounts.find? fun mount => M.isMatch path mount.1 target with
        | some mount => (.mountedSystem, detail mount.2)
        | none =>
          match M.swapDevices.find? fun swapDev => M.isMatch path swapDev target with
          | some swapDev => (.activeSwap, detail swapDev)
          | none => (.ok, none)

end Host

/-- A device in use is the target itself, by its number. -/
def Host.Direct (M : Host) (target : Stat) (devpath : CStr) : Prop :=
  M.stat devpath = some target

/-- A device in use has the major number of the target, another minor one, and a name as those of
the partitions of a disk called like the target. -/
def Host.Named (M : Host) (target : Stat) (outputFile devpath : CStr) : Prop :=
  ∃ m, M.stat devpath = some m ∧ m.kind = .block ∧ m.major = target.major ∧
    m.minor ≠ target.minor ∧ namedMatch outputFile devpath

namespace Host

variable {M : Host} {target : Stat} {p q devpath : CStr}

theorem isMatch_iff (htarget : target.kind = .block) :
    M.isMatch p devpath target ↔ M.Direct target devpath ∨ M.Named target p devpath := by
  unfold isMatch Direct Named
  cases hstat : M.stat devpath with
  | none => simp
  | some m =>
    obtain ⟨kind, major, minor⟩ := m
    obtain ⟨kind', major', minor'⟩ := target
    cases htarget
    by_cases hmajor : major = major'
    · by_cases hminor : minor = minor'
      · simp [hmajor, hminor]
      · simp [hmajor, hminor]
    · simp [hmajor]

/-- The status where something of the system's own is mounted from the target or its partitions,
or swapped to on them. -/
def statusOf (mounted swapped : Bool) : TargetSafetyStatus :=
  if mounted then .mountedSystem else if swapped then .activeSwap else .ok

theorem statusOf_eq_iff (mounted swapped mounted' swapped' : Bool) :
    statusOf mounted swapped = statusOf mounted' swapped' ↔
      (mounted ↔ mounted') ∧ (mounted ∨ (swapped ↔ swapped')) := by
  cases mounted <;> cases mounted' <;> cases swapped <;> cases swapped' <;> decide

theorem evaluateTargetSafety_status (hp : M.stat p = some target) (htarget : target.kind = .block)
    (size : Nat) : (M.evaluateTargetSafety (some p) size).1 =
      statusOf (M.systemMounts.any fun mount => M.isMatch p mount.1 target)
        (M.swapDevices.any fun swapDev => M.isMatch p swapDev target) := by
  simp only [evaluateTargetSafety, hp, htarget, ← List.isSome_find?]
  cases M.systemMounts.find? fun mount => M.isMatch p mount.1 target with
  | some mount => rfl
  | none =>
    cases M.swapDevices.find? fun swapDev => M.isMatch p swapDev target with
    | some swapDev => rfl
    | none => rfl

theorem any_mount_iff (htarget : target.kind = .block) :
    (M.systemMounts.any fun mount => M.isMatch p mount.1 target) ↔
      (∃ mount ∈ M.systemMounts, M.Direct target mount.1) ∨
        ∃ mount ∈ M.systemMounts, M.Named target p mount.1 := by
  simp only [List.any_eq_true, isMatch_iff htarget, and_or_left, exists_or]

theorem any_swap_iff (htarget : target.kind = .block) :
    (M.swapDevices.any fun swapDev => M.isMatch p swapDev target) ↔
      (∃ swapDev ∈ M.swapDevices, M.Direct target swapDev) ∨
        ∃ swapDev ∈ M.swapDevices, M.Named target p swapDev := by
  simp only [List.any_eq_true, isMatch_iff htarget, and_or_left, exists_or]

/-- The status is the same under both spellings exactly when the target itself is mounted, or what
is mounted and, nothing being so, what is swapped to is named like a partition of both or of none of
them. -/
theorem evaluateTargetSafety_spelling_iff (hp : M.stat p = some target)
    (hq : M.stat q = some target) (htarget : target.kind = .block) (size : Nat) :
    (M.evaluateTargetSafety (some p) size).1 = (M.evaluateTargetSafety (some q) size).1 ↔
      (∃ mount ∈ M.systemMounts, M.Direct target mount.1) ∨
        ((∃ mount ∈ M.systemMounts, M.Named target p mount.1) ↔
          ∃ mount ∈ M.systemMounts, M.Named target q mount.1) ∧
        ((∃ mount ∈ M.systemMounts, M.Named target p mount.1) ∨
          (∃ swapDev ∈ M.swapDevices, M.Direct target swapDev) ∨
          ((∃ swapDev ∈ M.swapDevices, M.Named target p swapDev) ↔
            ∃ swapDev ∈ M.swapDevices, M.Named target q swapDev)) := by
  rw [evaluateTargetSafety_status hp htarget, evaluateTargetSafety_status hq htarget,
    statusOf_eq_iff, any_mount_iff htarget, any_mount_iff htarget, any_swap_iff htarget,
    any_swap_iff htarget]
  by_cases hdirect : ∃ mount ∈ M.systemMounts, M.Direct target mount.1
  · exact iff_of_true ⟨iff_of_true (.inl hdirect) (.inl hdirect), .inl (.inl hdirect)⟩ (.inl hdirect)
  · simp only [hdirect, false_or]
    refine and_congr_right fun _ => or_congr_right ?_
    by_cases hswap : ∃ swapDev ∈ M.swapDevices, M.Direct target swapDev
    · exact iff_of_true (iff_of_true (.inl hswap) (.inl hswap)) (.inl hswap)
    · simp only [hswap, false_or]

end Host

section Example

def devSda : CStr := ['/', 'd', 'e', 'v', '/', 's', 'd', 'a']

def devSda1 : CStr := devSda ++ ['1']

/-- Another path of the first disk. -/
def byId : CStr := ['/', 'd', 'e', 'v', '/', 'd', 'i', 's', 'k', '/', 'b', 'y', '-', 'i', 'd', '/',
  'a', 't', 'a', '-', 'X']

/-- A machine whose system is on the first partition of its first disk. -/
def sdaHost : Host where
  stat path :=
    if path = devSda ∨ path = '/' :: devSda ∨ path = byId then some ⟨.block, 8, 0⟩
    else if path = devSda1 then some ⟨.block, 8, 1⟩
    else none
  mounts := some (devSda1 ++ [' ', '/', ' ', 'e', 'x', 't', '4', '\n'])
  swaps := none

/-- The disk by its kernel name is refused and the same disk by its serial number is not. -/
theorem byId_accepted : ¬ ∀ (M : Host) (p q : CStr) (target : Stat) (size : Nat),
    M.stat p = some target → M.stat q = some target → target.kind = .block →
      (M.evaluateTargetSafety (some p) size).1 = (M.evaluateTargetSafety (some q) size).1 := by
  intro h
  have hsame := h sdaHost devSda byId ⟨.block, 8, 0⟩ 512 (by decide) (by decide) rfl
  revert hsame
  decide

/-- Two spellings with the same last component. -/
theorem doubleSlash_same : (sdaHost.evaluateTargetSafety (some devSda) 512).1 =
    (sdaHost.evaluateTargetSafety (some ('/' :: devSda)) 512).1 := by
  have hsda : sdaHost.stat devSda = some ⟨.block, 8, 0⟩ := by decide
  have hslash : sdaHost.stat ('/' :: devSda) = some ⟨.block, 8, 0⟩ := by decide
  refine (Host.evaluateTargetSafety_spelling_iff hsda hslash rfl 512).mpr (.inr ?_)
  have hmount : (devSda1, ['/']) ∈ sdaHost.systemMounts := by decide
  have hstat : sdaHost.stat devSda1 = some ⟨.block, 8, 1⟩ := by decide
  have hnamed : ∃ mount ∈ sdaHost.systemMounts, sdaHost.Named ⟨.block, 8, 0⟩ devSda mount.1 :=
    ⟨_, hmount, _, hstat, rfl, rfl, by decide, by decide⟩
  have hnamed' : ∃ mount ∈ sdaHost.systemMounts,
      sdaHost.Named ⟨.block, 8, 0⟩ ('/' :: devSda) mount.1 :=
    ⟨_, hmount, _, hstat, rfl, rfl, by decide, by decide⟩
  exact ⟨iff_of_true hnamed hnamed', .inl hnamed⟩

end Example

end Blkcp.C
