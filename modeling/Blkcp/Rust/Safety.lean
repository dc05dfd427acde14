import Blkcp.Lib.Worklist
set_option autoImplicit false

/-! The target safety guard (`safety.rs`): which devices hold a device, and whether a mounted or
swap device is the target, a partition of it or one that holds it. -/

namespace Blkcp.Rust
open Blkcp.Lib Relation

/-- Device names, paths and the fields of lines. -/
abbrev Text := List Char

def devDir : Text := ['/', 'd', 'e', 'v', '/']

def devNull : Text := devDir ++ ['n', 'u', 'l', 'l']

def devZero : Text := devDir ++ ['z', 'e', 'r', 'o']

def mapperDir : Text := devDir ++ ['m', 'a', 'p', 'p', 'e', 'r', '/']

def stripPrefix (pre s : Text) : Option Text :=
  if pre.isPrefixOf s then some (s.drop pre.length) else none

/-- Every copy of a non-empty `pre` at the start is removed; `n` bounds how many there are. -/
def trimStartMatches (pre : Text) : Nat → Text → Text
  | 0, s => s
  | n + 1, s =>
    match stripPrefix pre s with
    | some rest => trimStartMatches pre n rest
    | none => s

/-- What `/sys/class/block` holds of each device: the entries of its directory, with whether there
is a file `partition` in them, and its holders. -/
structure Sysfs where
  entries : Text → List (Text × Bool)
  holders : Text → List Text

def childPartitions (sys : Sysfs) (devName : Text) : List Text :=
  ((sys.entries devName).filter fun e => devName.isPrefixOf e.1 && e.2).map (·.1)

/-- The last entry pushed is the first one popped. The set is a list in the order of insertion. -/
def collectAllHolders (sys : Sysfs) (fuel : Nat) (devName : Text) : Option (List Text) :=
  runLoop (Worklist.body sys.holders) fuel
    (.start (devName :: childPartitions sys devName).reverse)

def partitionChar (c : Char) : Bool := c.isDigit || c == 'p'

def checkDeviceRelation (activeDev targetPathStr : Text) (allHolders : List Text)
    (usageDesc : String) : Option String :=
  let active := String.ofList activeDev
  let target := String.ofList targetPathStr
  let held := allHolders.findSome? fun holderName =>
    if activeDev = devDir ++ holderName ∨ (mapperDir ++ holderName).isPrefixOf activeDev then
      some ("Active device holder '" ++ String.ofList holderName ++ "' (LVM/LUKS) of '" ++
        target ++ "' is " ++ usageDesc)
    else none
  if activeDev = targetPathStr then
    some ("Target device '" ++ target ++ "' is " ++ usageDesc)
  else
    match stripPrefix targetPathStr activeDev with
    | some suffix =>
      if suffix ≠ [] ∧ suffix.all partitionChar then
        some ("Partition '" ++ active ++ "' of target device '" ++ target ++ "' is " ++ usageDesc)
      else held
    | none => held

/-- A line split at whitespace; `utf8` says whether it can be read as a `String`. -/
structure Line where
  fields : List Text
  utf8 : Bool

/-- What the guard looks at. A file that cannot be opened is `none`. -/
structure Machine where
  canonicalize : Text → Option Text
  sysfs : Sysfs
  mounts : Option (List Line)
  swaps : Option (List Line)

namespace Machine

variable (M : Machine)

def resolve (path : Text) : Text := (M.canonicalize path).getD path

def candidates (raw : Text) : List Text :=
  let canon := if devDir.isPrefixOf raw then M.canonicalize raw else none
  [raw, canon.getD raw]

/-- The lines before the first one that cannot be read. -/
def readable (file : Option (List Line)) : List Line := (file.getD []).takeWhile (·.utf8)

def mountViolation (pathStr : Text) (allHolders : List Text) (line : Line) : Option String :=
  match line.fields with
  | rawMountedDev :: mountPoint :: _ =>
    (M.candidates rawMountedDev).findSome? fun cand =>
      checkDeviceRelation cand pathStr allHolders
        ("mounted on '" ++ String.ofList mountPoint ++ "'")
  | _ => none

def swapViolation (pathStr : Text) (allHolders : List Text) (line : Line) : Option String :=
  match line.fields with
  | rawSwapDev :: _ =>
    (M.candidates rawSwapDev).findSome? fun cand =>
      checkDeviceRelation cand pathStr allHolders "active system swap"
  | [] => none

/-- `none` when collecting the holders does not end within the fuel. -/
def detectMountedViolation (fuel : Nat) (outputPath : Text) : Option (Option String) :=
  let pathStr := M.resolve outputPath
  if !devDir.isPrefixOf pathStr then some none
  else if pathStr = devNull ∨ pathStr = devZero then some none
  else
    let devName := trimStartMatches devDir pathStr.length pathStr
    (collectAllHolders M.sysfs fuel devName).map fun allHolders =>
      ((readable M.mounts).findSome? (M.mountViolation pathStr allHolders)).or
        (((readable M.swaps).drop 1).findSome? (M.swapViolation pathStr allHolders))

end Machine

end Blkcp.Rust
