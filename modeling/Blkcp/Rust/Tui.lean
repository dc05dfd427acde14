import Blkcp.Lib.Transition
import Blkcp.Rust.TuiDevice
set_option autoImplicit false

/-! The text interface (`tui_state.rs`, `tui_main.rs`): its state, its keys and the transfers it
starts. What is only drawn (status and summary lines, the last digest) is left out. -/

namespace Blkcp.Rust
open Blkcp.Lib

inductive FocusPane where
  | source | target | modules
  deriving DecidableEq, Repr

inductive SyncMode where
  | none | fdatasync | fsync
  deriving DecidableEq, Repr

def SyncMode.next : SyncMode → SyncMode
  | .none => .fdatasync
  | .fdatasync => .fsync
  | .fsync => .none

/-- `field` is 0 for the limit, 1 for skip, 2 for seek. -/
inductive ModalDialog where
  | none
  | safetyConfirm
  | pathInput (forTarget : Bool) (buffer : Text)
  | limitInput (field : Nat) (limitBuf skipBuf seekBuf : Text)
  | fileBrowser (forTarget : Bool) (currentDir : Text) (entries : List FileEntry)
      (selectedIdx : Nat)
  deriving DecidableEq

/-- `handle` counts the transfer threads started before this one. -/
structure ActiveJob where
  expectedBytes : Option Nat
  handle : Nat

structure TuiState where
  devices : List BlockDevice
  includePartitions : Bool := false
  sourceIdx : Nat
  targetIdx : Nat
  focus : FocusPane := .modules
  moduleIdx : Nat := 0
  blockSizeStr : Text := ['1', 'M']
  engine : Engine := .auto
  hashAlgo : HashAlgo := .blake3
  threads : Nat := 1
  queueDepthOpt : Option Nat := none
  directIo : Bool := false
  nocache : Bool := false
  sparse : Bool := false
  swab : Bool := false
  syncPad : Bool := false
  notrunc : Bool := false
  noerror : Bool := false
  dryRun : Bool := false
  forceOverride : Bool := false
  syncMode : SyncMode := .none
  limitStr : Text := ['2', '5', '6', 'M']
  skipStr : Text := ['0']
  seekStr : Text := ['0']
  modal : ModalDialog := .none
  activeJob : Option ActiveJob := none
  running : Bool := true

/-- The first endpoint with a path. -/
def position (devices : List BlockDevice) (path : Text) : Option Nat :=
  devices.findIdx? fun d => samePath d.path path

namespace TuiState

def new (H : Host) : TuiState :=
  let devices := scanBlockDevicesExt H false
  { devices := devices
    sourceIdx := (position devices devZero).getD 0
    targetIdx := (position devices devNull).getD 0 }

variable (s : TuiState)

def source : Option BlockDevice := s.devices[s.sourceIdx]?

def target : Option BlockDevice := s.devices[s.targetIdx]?

/-- An index follows the path it stood for, if that is still listed. -/
def reselect (devices : List BlockDevice) (prev : Option Text) (idx : Nat) : Nat :=
  let idx := (prev.bind (position devices)).getD idx
  if devices.length ≤ idx then 0 else idx

/-- The custom entry stays as it is if the scan does not list its path. -/
def keepCustom (devices : List BlockDevice) (cd : BlockDevice) : List BlockDevice :=
  if devices.any fun d => samePath d.path cd.path then devices else devices ++ [cd]

def refreshDevices (H : Host) : TuiState :=
  let customDevs := s.devices.filter (·.kind == .regularFile)
  let devices := customDevs.foldl keepCustom (scanBlockDevicesExt H s.includePartitions)
  { s with
    devices := devices
    sourceIdx := reselect devices (s.source.map (·.path)) s.sourceIdx
    targetIdx := reselect devices (s.target.map (·.path)) s.targetIdx }

def addOrSelectCustomPath (H : Host) (path : Text) (forTarget : Bool) : TuiState :=
  let dev := BlockDevice.fromCustomPath H path
  let (devices, idx) := match position s.devices path with
    | some pos => (s.devices.set pos dev, pos)
    | none => (s.devices ++ [dev], s.devices.length)
  if forTarget then { s with devices := devices, targetIdx := idx }
  else { s with devices := devices, sourceIdx := idx }

def applyPreset (preset : Nat) : TuiState :=
  match preset with
  | 1 =>
    { s with
      engine := .uring, threads := 4, blockSizeStr := ['1', 'M'], directIo := true
      nocache := false, sparse := false, swab := false, syncPad := false
      hashAlgo := .none, syncMode := .fdatasync }
  | 2 =>
    { s with
      engine := .async, threads := 1, queueDepthOpt := some 32, blockSizeStr := ['1', 'M']
      directIo := false, sparse := false, swab := false, syncPad := true, noerror := true
      hashAlgo := .blks, syncMode := .fsync }
  | 3 =>
    { s with
      engine := .sync, threads := 1, blockSizeStr := ['1', 'M'], directIo := false
      sparse := true, swab := false, syncPad := false
      hashAlgo := .blake3, syncMode := .fdatasync }
  | 4 =>
    { s with
      engine := .reflink, threads := 1, blockSizeStr := ['4', 'M'], directIo := false
      nocache := false, sparse := false, swab := false, syncPad := false
      hashAlgo := .none, syncMode := .none }
  | 5 =>
    { s with
      sourceIdx := (position s.devices devZero).getD s.sourceIdx
      targetIdx := (position s.devices devNull).getD s.targetIdx
      engine := .uring, threads := 4, blockSizeStr := ['1', 'M'], limitStr := ['2', 'G']
      directIo := false, sparse := false, swab := false
      hashAlgo := .none, dryRun := false }
  | 6 =>
    { s with
      engine := .splice, threads := 1, blockSizeStr := ['1', 'M'], directIo := false
      nocache := false, sparse := false, swab := false, syncPad := false
      hashAlgo := .none, syncMode := .fdatasync }
  | 7 =>
    { s with
      engine := .uring, threads := 4, blockSizeStr := ['1', 'M'], directIo := true
      nocache := true, sparse := false, swab := false, syncPad := false
      hashAlgo := .none, syncMode := .fdatasync }
  | 8 =>
    { s with
      engine := .async, threads := 1, blockSizeStr := ['1', 'M'], directIo := false
      nocache := false, sparse := false, swab := true, syncPad := false
      hashAlgo := .blake3, syncMode := .fdatasync }
  | _ => s

def autoResolveCombinations : TuiState :=
  let s := if s.engine = .reflink ∧ (s.hashAlgo ≠ .none ∨ s.swab ∨ s.sparse ∨ s.syncPad) then
    { s with engine := .auto } else s
  let s := if s.engine = .splice ∧ s.directIo then { s with directIo := false } else s
  let s := if s.engine = .splice ∧ (s.hashAlgo ≠ .none ∨ s.swab) then
    { s with engine := .async } else s
  if s.directIo ∧ s.nocache then { s with nocache := false } else s

def cycleBlockSize : TuiState :=
  { s with
    blockSizeStr := match s.blockSizeStr with
      | ['4', 'K'] => ['6', '4', 'K']
      | ['6', '4', 'K'] => ['2', '5', '6', 'K']
      | ['2', '5', '6', 'K'] => ['1', 'M']
      | ['1', 'M'] => ['4', 'M']
      | ['4', 'M'] => ['1', '6', 'M']
      | ['1', '6', 'M'] => ['a', 'u', 't', 'o']
      | _ => ['4', 'K'] }

def cycleEngine : TuiState :=
  { s with
    engine := match s.engine with
      | .auto => .uring
      | .uring => .async
      | .async => .reflink
      | .reflink => .splice
      | .splice => .sync
      | .sync => .auto }

def cycleHash : TuiState :=
  { s with
    hashAlgo := match s.hashAlgo with
      | .none => .blake3
      | .blake3 => .blks
      | .blks => .sha256
      | .sha256 => .none }

def cycleThreads : TuiState :=
  { s with
    threads := match s.threads with
      | 1 => 2
      | 2 => 4
      | 4 => 8
      | 8 => 16
      | 16 => 32
      | _ => 1 }

def cycleQueueDepth : TuiState :=
  { s with
    queueDepthOpt := match s.queueDepthOpt with
      | none => some 16
      | some 16 => some 32
      | some 32 => some 64
      | some 64 => some 128
      | _ => none }

def openLimitInput : TuiState :=
  { s with modal := .limitInput 0 s.limitStr s.skipStr s.seekStr }

def toggleSelectedModule : TuiState :=
  match s.moduleIdx with
  | 0 => s.cycleBlockSize
  | 1 => s.cycleEngine
  | 2 => s.cycleHash
  | 3 => s.cycleThreads
  | 4 => s.cycleQueueDepth
  | 5 => { s with directIo := !s.directIo }
  | 6 => { s with nocache := !s.nocache }
  | 7 => { s with sparse := !s.sparse }
  | 8 => { s with swab := !s.swab }
  | 9 => { s with syncPad := !s.syncPad }
  | 10 => { s with notrunc := !s.notrunc }
  | 11 => { s with syncMode := s.syncMode.next }
  | 12 => { s with noerror := !s.noerror }
  | 13 => { s with dryRun := !s.dryRun }
  | 14 => s.openLimitInput
  | 15 => { s with forceOverride := !s.forceOverride }
  | _ => s

/-- Whether the size is left to the tuner, and the size. -/
def blockSizeField (str : Text) : Option (Bool × Nat) :=
  if str.map Char.toLower = ['a', 'u', 't', 'o'] then some (true, 64 * 1024)
  else (parseSize str).map (false, ·)

def limitField (str : Text) : Option (Option Nat) :=
  let lim := trim str
  if lim = [] ∨ lim = ['0'] ∨ lim.map Char.toLower = ['n', 'o', 'n', 'e'] then some none
  else (parseSize lim).map some

def offsetField (str : Text) : Option Nat :=
  let offset := trim str
  if offset = [] ∨ offset = ['0'] then some 0 else parseSize offset

/-- `none` for a size that does not parse. -/
def buildConfig : Option Config := do
  let (autotune, blockSize) ← blockSizeField s.blockSizeStr
  let limitBytes ← limitField s.limitStr
  let skipBytes ← offsetField s.skipStr
  let seekBytes ← offsetField s.seekStr
  some
    { input := s.source.map fun d => String.ofList d.path
      output := s.target.map fun d => String.ofList d.path
      autotune := autotune
      blockSize := blockSize
      engine := s.engine
      hashAlgo := s.hashAlgo
      threads := s.threads
      queueDepth := s.queueDepthOpt
      direct := s.directIo
      nocache := s.nocache
      sparse := s.sparse
      swab := s.swab
      sync := s.syncPad
      notrunc := s.notrunc
      noerror := s.noerror
      dryRun := s.dryRun
      force := s.forceOverride
      fdatasync := s.syncMode == .fdatasync
      fsync := s.syncMode == .fsync
      limitBytes := limitBytes
      skipBytes := skipBytes
      seekBytes := seekBytes }

end TuiState

inductive KeyCode where
  | char (c : Char)
  | enter | esc | tab | backTab | up | down | backspace
  | other
  deriving DecidableEq, Repr

namespace TuiState

variable (H : Host) (s : TuiState)

def pathInputKey (forTarget : Bool) (buffer : Text) : KeyCode → TuiState
  | .esc => { s with modal := .none }
  | .enter =>
    let trimmed := trim buffer
    let s := { s with modal := .none }
    if trimmed ≠ [] then s.addOrSelectCustomPath H trimmed forTarget else s
  | .backspace => { s with modal := .pathInput forTarget buffer.dropLast }
  | .char c => { s with modal := .pathInput forTarget (buffer ++ [c]) }
  | _ => s

/-- One of the three buffers is edited. -/
def editLimit (field : Nat) (limitBuf skipBuf seekBuf : Text) (edit : Text → Text) : ModalDialog :=
  match field with
  | 0 => .limitInput field (edit limitBuf) skipBuf seekBuf
  | 1 => .limitInput field limitBuf (edit skipBuf) seekBuf
  | _ => .limitInput field limitBuf skipBuf (edit seekBuf)

def limitInputKey (field : Nat) (limitBuf skipBuf seekBuf : Text) : KeyCode → TuiState
  | .esc => { s with modal := .none }
  | .tab | .down => { s with modal := .limitInput ((field + 1) % 3) limitBuf skipBuf seekBuf }
  | .backTab | .up => { s with modal := .limitInput ((field + 2) % 3) limitBuf skipBuf seekBuf }
  | .enter =>
    { s with
      limitStr := trim limitBuf, skipStr := trim skipBuf, seekStr := trim seekBuf
      modal := .none }
  | .backspace => { s with modal := editLimit field limitBuf skipBuf seekBuf List.dropLast }
  | .char c => { s with modal := editLimit field limitBuf skipBuf seekBuf (· ++ [c]) }
  | .other => s

def fileBrowserKey (forTarget : Bool) (currentDir : Text) (entries : List FileEntry)
    (selectedIdx : Nat) (code : KeyCode) : TuiState :=
  if code = .esc ∨ code = .char 'q' then { s with modal := .none }
  else if code = .up ∨ code = .char 'k' then
    { s with modal := .fileBrowser forTarget currentDir entries (selectedIdx - 1) }
  else if code = .down ∨ code = .char 'j' then
    if selectedIdx + 1 < entries.length then
      { s with modal := .fileBrowser forTarget currentDir entries (selectedIdx + 1) }
    else s
  else if code = .enter then
    match entries[selectedIdx]? with
    | some entry =>
      if entry.isDir then
        { s with modal := .fileBrowser forTarget entry.path (listDirectoryEntries H entry.path) 0 }
      else { s with modal := .none }.addOrSelectCustomPath H entry.path forTarget
    | none => s
  else s

def tabKey : TuiState :=
  { s with
    focus := match s.focus with
      | .source => .target
      | .target => .modules
      | .modules => .source }

def backTabKey : TuiState :=
  { s with
    focus := match s.focus with
      | .source => .modules
      | .target => .source
      | .modules => .target }

def upKey : TuiState :=
  match s.focus with
  | .source => { s with sourceIdx := s.sourceIdx - 1 }
  | .target => { s with targetIdx := s.targetIdx - 1 }
  | .modules => { s with moduleIdx := s.moduleIdx - 1 }

def downKey : TuiState :=
  match s.focus with
  | .source =>
    if s.sourceIdx + 1 < s.devices.length then { s with sourceIdx := s.sourceIdx + 1 } else s
  | .target =>
    if s.targetIdx + 1 < s.devices.length then { s with targetIdx := s.targetIdx + 1 } else s
  | .modules => if s.moduleIdx + 1 < 16 then { s with moduleIdx := s.moduleIdx + 1 } else s

def openPathInput (forTarget : Bool) (selected : Option BlockDevice) : TuiState :=
  { s with modal := .pathInput forTarget ((selected.map (·.path)).getD []) }

def openFileBrowser : TuiState :=
  let cwd := H.currentDir.getD ['.']
  { s with modal := .fileBrowser (s.focus == .target) cwd (listDirectoryEntries H cwd) 0 }

/-- The keys with a character in normal navigation. -/
def charKey (c : Char) : TuiState :=
  if c = 'q' then { s with running := false }
  else if c = 'k' then s.upKey
  else if c = ' ' then if s.focus = .modules then s.toggleSelectedModule else s
  else if c = 'b' ∨ c = 'B' then s.cycleBlockSize
  else if c = 'e' ∨ c = 'E' then s.cycleEngine
  else if c = 'h' ∨ c = 'H' then s.cycleHash
  else if c = 'j' ∨ c = 'J' then s.cycleThreads
  else if c = 'u' ∨ c = 'U' then s.cycleQueueDepth
  else if c = 'd' ∨ c = 'D' then { s with directIo := !s.directIo }
  else if c = 'c' ∨ c = 'C' then { s with nocache := !s.nocache }
  else if c = 'a' ∨ c = 'A' then { s with sparse := !s.sparse }
  else if c = 'w' ∨ c = 'W' then { s with swab := !s.swab }
  else if c = 'y' ∨ c = 'Y' then { s with syncPad := !s.syncPad }
  else if c = 't' ∨ c = 'T' then { s with notrunc := !s.notrunc }
  else if c = 'g' ∨ c = 'G' then { s with syncMode := s.syncMode.next }
  else if c = 'm' ∨ c = 'M' then { s with noerror := !s.noerror }
  else if c = 'n' ∨ c = 'N' then { s with dryRun := !s.dryRun }
  else if c = 'p' ∨ c = 'P' then
    { s with includePartitions := !s.includePartitions }.refreshDevices H
  else if c = 'r' ∨ c = 'R' then s.refreshDevices H
  else if c = 'l' ∨ c = 'L' then s.openLimitInput
  else if c = 'i' ∨ c = 'I' then s.openPathInput false s.source
  else if c = 'o' ∨ c = 'O' then s.openPathInput true s.target
  else if c = 'f' ∨ c = 'F' then s.openFileBrowser H
  else if '1' ≤ c ∧ c ≤ '8' then s.applyPreset (c.toNat - 48)
  else if c = 'z' ∨ c = 'Z' then s.autoResolveCombinations
  else s

end TuiState

/-- A transfer thread: what it was started with, its flag for cancelling, whether it has ended. -/
structure Transfer where
  cfg : Config
  cancelFlag : Bool
  finished : Bool

/-- The process: the interface, every transfer thread it has started, and the host around it. -/
structure Tui where
  state : TuiState
  threads : List Transfer
  host : Host

namespace Tui

variable (p : Tui)

/-- A transfer thread is started and kept as the active job. -/
def spawn (cfg : Config) (expectedBytes : Option Nat) : Tui :=
  { p with
    threads := p.threads ++ [⟨cfg, false, false⟩]
    state := { p.state with activeJob := some ⟨expectedBytes, p.threads.length⟩ } }

/-- Nothing starts when the configuration has an error or asks for a dry run. -/
def startTransfer : Tui :=
  match p.state.buildConfig with
  | none => p
  | some cfg =>
    if cfg.dryRun then p
    else
      let sourceSize := p.state.source.bind fun d =>
        if 0 < d.sizeBytes then some d.sizeBytes else none
      p.spawn cfg (cfg.limitBytes.or sourceSize)

def pollActiveJob : Tui :=
  match p.state.activeJob with
  | some job =>
    if p.threads[job.handle]?.any (·.finished) then
      { p with state := { p.state with activeJob := none } }
    else p
  | none => p

def enterKey : Tui :=
  if p.state.dryRun then p.startTransfer
  else
    match p.state.target with
    | some target =>
      if target.isSystemRoot ∧ ¬p.state.forceOverride then p
      else if samePath target.path devNull then p.startTransfer
      else { p with state := { p.state with modal := .safetyConfirm } }
    | none => p

/-- The keys that start the transfer in the dialog. -/
def confirms (code : KeyCode) : Prop := code = .char 'y' ∨ code = .char 'Y' ∨ code = .enter

instance (code : KeyCode) : Decidable (confirms code) :=
  inferInstanceAs (Decidable (_ ∨ _ ∨ _))

def safetyConfirmKey (code : KeyCode) : Tui :=
  let closed := { p with state := { p.state with modal := .none } }
  if confirms code then closed.startTransfer
  else if code = .char 'n' ∨ code = .char 'N' ∨ code = .esc then closed
  else p

def normalKey (code : KeyCode) : Tui :=
  match code with
  | .esc => { p with state := { p.state with running := false } }
  | .tab => { p with state := p.state.tabKey }
  | .backTab => { p with state := p.state.backTabKey }
  | .up => { p with state := p.state.upKey }
  | .down => { p with state := p.state.downKey }
  | .char c => { p with state := p.state.charKey p.host c }
  | .enter => p.enterKey
  | .backspace | .other => p

def cancelKey (job : ActiveJob) (code : KeyCode) : Tui :=
  if code = .char 'x' ∨ code = .char 'X' ∨ code = .esc then
    { p with threads := p.threads.modify job.handle ({ · with cancelFlag := true }) }
  else p

def handleKeyEvent (code : KeyCode) : Tui :=
  match p.state.activeJob with
  | some job => p.cancelKey job code
  | none =>
    match p.state.modal with
    | .none => p.normalKey code
    | .safetyConfirm => p.safetyConfirmKey code
    | .pathInput forTarget buffer =>
      { p with state := p.state.pathInputKey p.host forTarget buffer code }
    | .limitInput field limitBuf skipBuf seekBuf =>
      { p with state := p.state.limitInputKey field limitBuf skipBuf seekBuf code }
    | .fileBrowser forTarget currentDir entries selectedIdx =>
      { p with
        state := p.state.fileBrowserKey p.host forTarget currentDir entries selectedIdx code }

/-- What happens to the process: a turn of the main loop polls the job and handles a key, if there
is one; threads end and mounts, swaps and files change at any time. -/
inductive Event where
  | poll
  | key (code : KeyCode)
  | finish (thread : Nat)
  | change (host : Host)

def next : Event → Tui
  | .poll => p.pollActiveJob
  | .key code => p.handleKeyEvent code
  | .finish thread => { p with threads := p.threads.modify thread ({ · with finished := true }) }
  | .change host => { p with host := host }

end Tui

/-- The main loop goes on while the interface is running. -/
def tui : System Tui Tui.Event where
  init p := p.state = TuiState.new p.host ∧ p.threads = []
  step p ev q := p.state.running = true ∧ q = p.next ev

end Blkcp.Rust
