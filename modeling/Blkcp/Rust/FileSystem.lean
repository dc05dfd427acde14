import Blkcp.Rust.Config
set_option autoImplicit false

/-! Files, standard streams and how the Rust program opens them. -/

namespace Blkcp.Rust

/-- An error number with the text the system gives for it. -/
structure Errno where
  code : Nat
  text : String
  deriving DecidableEq

namespace Errno

def enoent : Errno := ⟨2, "No such file or directory (os error 2)"⟩
def eintr : Errno := ⟨4, "EINTR: Interrupted system call"⟩
def ebadf : Errno := ⟨9, "EBADF: Bad file number"⟩
def eacces : Errno := ⟨13, "Permission denied (os error 13)"⟩
def eisdir : Errno := ⟨21, "Is a directory (os error 21)"⟩
def einval : Errno := ⟨22, "EINVAL: Invalid argument"⟩
def espipe : Errno := ⟨29, "Illegal seek (os error 29)"⟩
def enosys : Errno := ⟨38, "ENOSYS: Function not implemented"⟩

end Errno

inductive FileKind where
  | regular | directory | blockDevice | charDevice | fifo
  deriving DecidableEq

def FileKind.seekable : FileKind → Bool
  | .regular | .directory | .blockDevice => true
  | .charDevice | .fifo => false

structure Node (α : Type) where
  kind : FileKind
  content : List α
  readable : Bool
  writable : Bool
  deriving DecidableEq

/-- Two paths of one file (links, spellings) have one id. -/
abbrev FileId := Nat

structure FileSystem (α : Type) where
  locate : Path → FileId
  node : FileId → Option (Node α)
  creatable : FileId → Bool
  directSupported : FileId → Bool

variable {α : Type}

namespace FileSystem

def setNode (fs : FileSystem α) (id : FileId) (n : Node α) : FileSystem α :=
  { fs with node := fun j => if j = id then some n else fs.node j }

def lookup (fs : FileSystem α) (path : Path) : Option (Node α) := fs.node (fs.locate path)

def content (fs : FileSystem α) (id : FileId) : List α :=
  match fs.node id with
  | some n => n.content
  | none => []

def seekable (fs : FileSystem α) (id : FileId) : Bool :=
  match fs.node id with
  | some n => n.kind.seekable
  | none => true

def setContent (fs : FileSystem α) (id : FileId) (content : List α) : FileSystem α :=
  match fs.node id with
  | some n => fs.setNode id { n with content := content }
  | none => fs

def openRead (fs : FileSystem α) (path : Path) (direct : Bool) : Except Errno FileId :=
  let id := fs.locate path
  match fs.node id with
  | none => .error .enoent
  | some n =>
    if !n.readable then .error .eacces
    else if direct && !fs.directSupported id then .error .einval
    else .ok id

/-- `open` with `O_WRONLY | O_CREAT`; `O_DIRECT` is checked after a missing file is created and
before an existing one is truncated. -/
def openWrite (fs : FileSystem α) (path : Path) (truncate direct : Bool) :
    Except Errno FileId × FileSystem α :=
  let id := fs.locate path
  let refused := direct && !fs.directSupported id
  match fs.node id with
  | none =>
    if fs.creatable id then
      let fs := fs.setNode id ⟨.regular, [], true, true⟩
      if refused then (.error .einval, fs) else (.ok id, fs)
    else (.error .eacces, fs)
  | some n =>
    if n.kind = .directory then (.error .eisdir, fs)
    else if !n.writable then (.error .eacces, fs)
    else if refused then (.error .einval, fs)
    else if truncate && n.kind = .regular then (.ok id, fs.setNode id { n with content := [] })
    else (.ok id, fs)

def isRegularFileOrNew (fs : FileSystem α) (path : Path) : Bool :=
  match fs.lookup path with
  | some n => n.kind = .regular
  | none => true

def openInputFile (fs : FileSystem α) (path : Path) (direct : Bool) : Except String FileId :=
  let plain := match fs.openRead path false with
    | .ok f => .ok f
    | .error e => .error ("Failed to open input '" ++ path ++ "': " ++ e.text)
  if direct then
    match fs.openRead path true with
    | .ok f => .ok f
    | .error _ => plain
  else plain

def openOutputFile (fs : FileSystem α) (path : Path) (notrunc direct : Bool) :
    Except String FileId × FileSystem α :=
  let shouldTrunc := !notrunc && fs.isRegularFileOrNew path
  let plain (fs : FileSystem α) : Except String FileId × FileSystem α :=
    match fs.openWrite path shouldTrunc false with
    | (.ok f, fs) => (.ok f, fs)
    | (.error e, fs) => (.error ("Failed to open output '" ++ path ++ "': " ++ e.text), fs)
  if direct then
    match fs.openWrite path shouldTrunc true with
    | (.ok f, fs) => (.ok f, fs)
    | (.error _, fs) => plain fs
  else plain fs

theorem openInputFile_cases {fs : FileSystem α} {path : Path} {direct : Bool} {f : FileId}
    (h : fs.openInputFile path direct = .ok f) : ∃ d, fs.openRead path d = .ok f := by
  have hplain : fs.openInputFile path false = .ok f → fs.openRead path false = .ok f := by
    rcases hread : fs.openRead path false with e | f' <;> simp [openInputFile, hread]
  cases direct with
  | false => exact ⟨false, hplain h⟩
  | true =>
    rcases hread : fs.openRead path true with e | f'
    · exact ⟨false, hplain (by simpa [openInputFile, hread] using h)⟩
    · exact ⟨true, by simpa [openInputFile, hread] using h⟩

/-- Of an open with `O_DIRECT` that is refused, only what it did to the files remains. -/
theorem openOutputFile_cases {fs fs' : FileSystem α} {path : Path} {notrunc direct : Bool}
    {r : Except String FileId} (h : fs.openOutputFile path notrunc direct = (r, fs')) :
    ∃ mid d r', (mid = fs ∨ ∃ e,
        fs.openWrite path (!notrunc && fs.isRegularFileOrNew path) true = (.error e, mid)) ∧
      mid.openWrite path (!notrunc && fs.isRegularFileOrNew path) d = (r', fs') ∧
      ∀ f, r = .ok f → r' = .ok f := by
  simp only [openOutputFile] at h
  generalize (!notrunc && fs.isRegularFileOrNew path) = shouldTrunc at h ⊢
  cases direct with
  | false =>
    rcases hopen : fs.openWrite path shouldTrunc false with ⟨r', fs₁⟩
    refine ⟨fs, false, r', .inl rfl, ?_⟩
    rw [hopen] at h ⊢
    cases r' <;> obtain ⟨rfl, rfl⟩ := Prod.mk.inj h <;> simp
  | true =>
    rcases hdirect : fs.openWrite path shouldTrunc true with ⟨e | f, mid⟩
    · rw [hdirect] at h
      rcases hopen : mid.openWrite path shouldTrunc false with ⟨r', fs₁⟩
      refine ⟨mid, false, r', .inr ⟨e, rfl⟩, ?_⟩
      simp only [if_true, hopen] at h
      rw [hopen]
      cases r' <;> obtain ⟨rfl, rfl⟩ := Prod.mk.inj h <;> simp
    · refine ⟨fs, true, .ok f, .inl rfl, ?_⟩
      rw [hdirect] at h ⊢
      obtain ⟨rfl, rfl⟩ := Prod.mk.inj h
      simp

end FileSystem

/-- An open input or output: a file at a position, or a standard stream. -/
inductive OpenInput where
  | file (id : FileId) (pos : Nat)
  | stdin
  deriving DecidableEq

inductive OpenOutput where
  | file (id : FileId) (pos : Nat)
  | stdout
  deriving DecidableEq

inductive SyncCall where
  | syncData (id : FileId)
  | syncAll (id : FileId)
  | flushStdout
  deriving DecidableEq

structure World (α : Type) where
  fs : FileSystem α
  stdin : List α
  stdout : List α
  stats : Stats
  syncs : List SyncCall

/-- What a copy leaves behind: its result, the input not consumed, the output's content. -/
structure Effect (α β : Type) where
  result : β
  inputRest : List α
  output : List α
  stats : Stats

/-- A copy from an open input to an open output: from the bytes to be read, the content of the
output, the position in it and the counters. `none` when it does not return. -/
abbrev CopyPath (α β : Type) := List α → List α → Nat → Stats → Option (Effect α β)

namespace World

def inputBytes (w : World α) : OpenInput → List α
  | .file id pos => (w.fs.content id).drop pos
  | .stdin => w.stdin

def outputContent (w : World α) : OpenOutput → List α
  | .file id _ => w.fs.content id
  | .stdout => w.stdout

/-- Where the next write goes; streams are appended to. -/
def outputPos (w : World α) : OpenOutput → Nat
  | .file id pos => if w.fs.seekable id then pos else (w.fs.content id).length
  | .stdout => w.stdout.length

/-- Bytes read from a stream are gone. -/
def consume (w : World α) (i : OpenInput) (rest : List α) : World α :=
  match i with
  | .file id _ => if w.fs.seekable id then w else { w with fs := w.fs.setContent id rest }
  | .stdin => { w with stdin := rest }

def store (w : World α) (o : OpenOutput) (content : List α) : World α :=
  match o with
  | .file id _ => { w with fs := w.fs.setContent id content }
  | .stdout => { w with stdout := content }

def runCopy {β : Type} (w : World α) (i : OpenInput) (o : OpenOutput) (copy : CopyPath α β) :
    Option (β × World α) :=
  match copy (w.inputBytes i) (w.outputContent o) (w.outputPos o) w.stats with
  | none => none
  | some e => some (e.result, { (w.consume i e.inputRest).store o e.output with stats := e.stats })

def logSync (w : World α) (call : SyncCall) : World α := { w with syncs := w.syncs ++ [call] }

end World

def seekInput (fs : FileSystem α) (i : OpenInput) (pos : Nat) : Except Errno OpenInput :=
  match i with
  | .file id _ => if fs.seekable id then .ok (.file id pos) else .error .espipe
  | .stdin => .ok .stdin

def seekOutput (fs : FileSystem α) (o : OpenOutput) (pos : Nat) : Except Errno OpenOutput :=
  match o with
  | .file id _ => if fs.seekable id then .ok (.file id pos) else .error .espipe
  | .stdout => .ok .stdout

end Blkcp.Rust
