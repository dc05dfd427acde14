import Blkcp.Rust.Config
import Blkcp.Rust.Safety
import Mathlib.Data.Char
import Mathlib.Data.List.Lex
import Mathlib.Data.List.Sort
import Mathlib.Data.List.DropRight
set_option autoImplicit false

/-! Sizes and paths as the interface reads them (`args.rs`, `std::path`), and its list of devices
(`tui_device.rs`). -/

namespace Blkcp.Rust
open Blkcp.Lib

section Sizes

/-- The characters `str::trim` takes off. -/
def isWhitespace (c : Char) : Bool :=
  let n := c.toNat
  9 ≤ n && n ≤ 13 || n == 32 || n == 0x85 || n == 0xA0 || n == 0x1680 ||
    0x2000 ≤ n && n ≤ 0x200A || n == 0x2028 || n == 0x2029 || n == 0x202F || n == 0x205F ||
    n == 0x3000

def trim (s : Text) : Text := (s.dropWhile isWhitespace).rdropWhile isWhitespace

/-- Of what is not an ASCII letter, only the Kelvin sign has one as its lower case. -/
def toLowercase (c : Char) : Char := if c.toNat = 0x212A then 'k' else c.toLower

def multiplier (suffix : Text) : Option Nat :=
  match suffix with
  | [] => some 1
  | ['c'] => some 1
  | ['b'] => some 512
  | ['k'] => some 1024
  | ['k', 'i', 'b'] => some 1024
  | ['k', 'b'] => some 1000
  | ['m'] => some (1024 * 1024)
  | ['m', 'i', 'b'] => some (1024 * 1024)
  | ['m', 'b'] => some (1000 * 1000)
  | ['g'] => some (1024 * 1024 * 1024)
  | ['g', 'i', 'b'] => some (1024 * 1024 * 1024)
  | ['g', 'b'] => some (1000 * 1000 * 1000)
  | ['t'] => some (1024 * 1024 * 1024 * 1024)
  | ['t', 'i', 'b'] => some (1024 * 1024 * 1024 * 1024)
  | ['t', 'b'] => some (1000 * 1000 * 1000 * 1000)
  | _ => none

/-- The product is that of `u64`, which wraps in a release build. -/
def parseSize (s : Text) : Option Nat :=
  let s := trim s
  if s = [] then none
  else if s.map Char.toLower = ['a', 'u', 't', 'o'] then some 0
  else
    let digits := s.takeWhile Char.isDigit
    if digits = [] then none
    else
      let num := digits.foldl (fun n c => n * 10 + (c.toNat - 48)) 0
      if u64Max < num then none
      else (multiplier ((trim (s.drop digits.length)).map toLowercase)).map fun m =>
        num * m % 2 ^ 64

end Sizes

section Paths

/-- Whether a path starts at the root, and what stands between its separators. -/
def splitPath (p : Text) : Bool × List Text :=
  match p with
  | '/' :: rest => (true, rest.splitOn '/')
  | [] => (false, [])
  | _ => (false, p.splitOn '/')

/-- A repeated separator or a `.` that is not the first part of a relative path. -/
def isSkipped (part : Text) : Bool := part == [] || part == ['.']

/-- `Path::components`. -/
def components (p : Text) : Bool × List Text :=
  match splitPath p with
  | (false, first :: rest) => (false, first :: rest.filter (!isSkipped ·))
  | (root, parts) => (root, parts.filter (!isSkipped ·))

/-- Paths are compared by their components. -/
def samePath (p q : Text) : Bool := components p == components q

def fileName (p : Text) : Option Text :=
  (components p).2.getLast?.filter fun part => part != ['.'] && part != ['.', '.']

/-- The parts of a path without what is skipped at its end. -/
def trimRight : Bool × List Text → List Text
  | (false, first :: rest) => first :: rest.rdropWhile isSkipped
  | (_, parts) => parts.rdropWhile isSkipped

def parent (p : Text) : Option Text :=
  let root := (splitPath p).1
  match trimRight (splitPath p) with
  | [] => none
  | parts => some ((if root then ['/'] else []) ++
      ['/'].intercalate (trimRight (root, parts.dropLast)))

/-- `Path::join` with the name of an entry. -/
def joinPath (dir name : Text) : Text :=
  if dir = [] ∨ dir.getLast? = some '/' then dir ++ name else dir ++ '/' :: name

end Paths

/-- An entry of `/sys/class/block`: its name, whether it has a file `partition`, and its `size` as a
number, if there is one. -/
structure BlockEntry where
  name : Text
  partition : Bool
  size : Option Nat

/-- An entry of a directory; `isDir` is `none` when its metadata cannot be read. -/
structure DirEntry where
  name : Text
  isDir : Option Bool

/-- What the interface looks at: the machine as the guard sees it, on which collecting the holders
ends, the block devices and the file system. -/
structure Host where
  machine : Machine
  fuel : Text → Nat
  collects : ∀ path, (machine.detectMountedViolation (fuel path) path).isSome
  blocks : Option (List BlockEntry)
  fileLen : Text → Option Nat
  currentDir : Option Text
  readDir : Text → Option (List DirEntry)

namespace Host

variable (H : Host)

def detectMountedViolation (path : Text) : Option String :=
  (H.machine.detectMountedViolation (H.fuel path) path).get (H.collects path)

end Host

inductive EndpointKind where
  | physicalDisk | partition | virtualDevice | regularFile
  deriving DecidableEq, Repr

/-- `listedOn` is not in the source: it keeps the host the entry was made on. Nothing reads it. -/
structure BlockDevice where
  name : Text
  path : Text
  sizeBytes : Nat
  kind : EndpointKind
  isSystemRoot : Bool
  listedOn : Host

namespace BlockDevice

def fromCustomPath (H : Host) (path : Text) : BlockDevice where
  name := (fileName path).getD path
  path := path
  sizeBytes := (H.fileLen path).getD 0
  kind := .regularFile
  isSystemRoot := (H.detectMountedViolation path).isSome
  listedOn := H

end BlockDevice

section Scan

variable (H : Host)

def systemMounts : List Text := [['/'], ['/', 'b', 'o', 'o', 't'], ['/', 'h', 'o', 'm', 'e']]

/-- Whether a line of `/proc/mounts` puts the device, or one whose name goes on from its own, on a
directory of the system. -/
def holdsSystem (path : Text) (isPartition : Bool) : Bool :=
  (Machine.readable H.machine.mounts).any fun line =>
    match line.fields with
    | mdev :: mp :: _ =>
      (mdev == path || !isPartition && path.isPrefixOf mdev) && systemMounts.contains mp
    | _ => false

def scannedDevice (includePartitions : Bool) (entry : BlockEntry) : Option BlockDevice :=
  let path := devDir ++ entry.name
  let sizeBytes := entry.size.getD 0 * 512
  if ['r', 'a', 'm'].isPrefixOf entry.name || ['z', 'r', 'a', 'm'].isPrefixOf entry.name then none
  else if !includePartitions && ['l', 'o', 'o', 'p'].isPrefixOf entry.name then none
  else if entry.partition && !includePartitions then none
  else if sizeBytes = 0 then none
  else some
    { name := entry.name
      path := path
      sizeBytes := sizeBytes
      kind := if entry.partition then .partition else .physicalDisk
      isSystemRoot := holdsSystem H path entry.partition ||
        (H.detectMountedViolation path).isSome
      listedOn := H }

def virtualEndpoint (name : Text) : BlockDevice where
  name := name
  path := devDir ++ name
  sizeBytes := 0
  kind := .virtualDevice
  isSystemRoot := false
  listedOn := H

def zeroName : Text := ['z', 'e', 'r', 'o']
def urandomName : Text := ['u', 'r', 'a', 'n', 'd', 'o', 'm']
def nullName : Text := ['n', 'u', 'l', 'l']

def scanBlockDevicesExt (includePartitions : Bool) : List BlockDevice :=
  ((H.blocks.getD []).filterMap (scannedDevice H includePartitions)).insertionSort
      (fun a b => a.name ≤ b.name) ++
    [virtualEndpoint H zeroName, virtualEndpoint H urandomName, virtualEndpoint H nullName]

end Scan

structure FileEntry where
  name : Text
  path : Text
  isDir : Bool
  deriving DecidableEq

/-- The entry for the directory above, then the directories, then the files. -/
def listDirectoryEntries (H : Host) (dir : Text) : List FileEntry :=
  let parentEntry : List FileEntry := (parent dir).toList.map fun p => ⟨parentLabel, p, true⟩
  let visible := ((H.readDir dir).getD []).filter fun e => e.name.head? != some '.'
  let dirs := visible.filterMap fun e =>
    if e.isDir = some true then some ⟨dirLabel e.name, joinPath dir e.name, true⟩ else none
  let files := visible.filterMap fun e =>
    if e.isDir = some false then some ⟨e.name, joinPath dir e.name, false⟩ else none
  parentEntry ++ dirs.insertionSort (fun a b => a.name ≤ b.name) ++
    files.insertionSort (fun a b => a.name ≤ b.name)
where
  parentLabel : Text := ".. (Übergeordnetes Verzeichnis)".toList
  dirLabel (name : Text) : Text := "📁 ".toList ++ name ++ ['/']

end Blkcp.Rust
