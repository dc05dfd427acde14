import Blkcp.Rust.FileSystem
set_option autoImplicit false

/-! `execute_transfer_with_control`: which copy path is tried with which open files, and what
happens when one gives up. -/

namespace Blkcp.Rust

variable {α : Type}

/-- The digest and the name of its algorithm. -/
abbrev HashInfo := Option (String × String)

/-- The copies themselves. Those that hash give the text of their digest. -/
structure Engines (α : Type) where
  tryReflinkCopy : Config → CopyPath α (Except String Bool)
  trySpliceCopy : Config → CopyPath α (Except String Bool)
  executeAsyncTransfer : Config → CopyPath α (Except String HashInfo)
  executeUringTransfer : Config → CopyPath α (Except String HashInfo)
  transferLoop : Config → CopyPath α (Except String HashInfo)

def canUseReflink (cfg : Config) : Bool :=
  if cfg.hashAlgo != .none || cfg.swab || cfg.sparse || cfg.sync || cfg.direct || cfg.nocache then
    false
  else
    match cfg.engine with
    | .reflink => true
    | .auto => !cfg.autotune
    | _ => false

/-- How a path of the function ends: it returns, or falls through to the next one. The outer
`none` is a copy that does not return. -/
abbrev PathResult (α : Type) := Option (Option (Except String HashInfo) × World α)

def PathResult.orElse (r : PathResult α) (next : World α → PathResult α) : PathResult α :=
  match r with
  | some (none, w) => next w
  | r => r

def openSource (w : World α) (cfg : Config) : Except String OpenInput :=
  match cfg.input with
  | some inPath =>
    match w.fs.openInputFile inPath cfg.direct with
    | .ok f => .ok (.file f 0)
    | .error e => .error e
  | none => .ok .stdin

def openSink (w : World α) (cfg : Config) : Except String OpenOutput × World α :=
  match cfg.output with
  | some outPath =>
    match w.fs.openOutputFile outPath cfg.notrunc cfg.direct with
    | (.ok f, fs) => (.ok (.file f 0), { w with fs := fs })
    | (.error e, fs) => (.error e, { w with fs := fs })
  | none => (.ok .stdout, w)

/-- `let _ = f.seek(..)`: a failed seek leaves the position. -/
def seekInputOrStay (fs : FileSystem α) (i : OpenInput) (pos : Nat) : OpenInput :=
  if pos > 0 then
    match seekInput fs i pos with
    | .ok i => i
    | .error _ => i
  else i

def seekOutputOrStay (fs : FileSystem α) (o : OpenOutput) (pos : Nat) : OpenOutput :=
  if pos > 0 then
    match seekOutput fs o pos with
    | .ok o => o
    | .error _ => o
  else o

def seekInputOrFail (fs : FileSystem α) (i : OpenInput) (pos : Nat) : Except String OpenInput :=
  if pos > 0 then
    match seekInput fs i pos with
    | .ok i => .ok i
    | .error e =>
      .error ("Failed to seek input to offset " ++ toString pos ++ ": " ++ e.text)
  else .ok i

def seekOutputOrFail (fs : FileSystem α) (o : OpenOutput) (pos : Nat) : Except String OpenOutput :=
  if pos > 0 then
    match seekOutput fs o pos with
    | .ok o => .ok o
    | .error e =>
      .error ("Failed to seek output to offset " ++ toString pos ++ ": " ++ e.text)
  else .ok o

/-- The sync calls after a copy into a file; their results are ignored. -/
def syncFile (cfg : Config) (o : OpenOutput) (w : World α) : World α :=
  match o with
  | .file id _ =>
    if cfg.fdatasync then w.logSync (.syncData id)
    else if cfg.fsync then w.logSync (.syncAll id)
    else w
  | .stdout => w

variable (E : Engines α) (cfg : Config)

def reflinkPath (w : World α) : PathResult α :=
  if canUseReflink cfg && cfg.threads ≤ 1 then
    match cfg.input, cfg.output with
    | some inPath, some outPath =>
      -- both files are opened before the pair of results is matched
      let inF := w.fs.openInputFile inPath false
      let (outF, fs) := w.fs.openOutputFile outPath cfg.notrunc false
      let w := { w with fs := fs }
      match inF, outF with
      | .ok inF, .ok outF =>
        let i := seekInputOrStay w.fs (.file inF 0) cfg.skipBytes
        let o := seekOutputOrStay w.fs (.file outF 0) cfg.seekBytes
        match w.runCopy i o (E.tryReflinkCopy cfg) with
        | none => none
        | some (.ok true, w) =>
          some (some (.ok none),
            if cfg.fdatasync || cfg.fsync then w.logSync (.syncAll outF) else w)
        | some (.ok false, w) => some (none, w)
        | some (.error e, w) => some (some (.error e), w)
      | _, _ => some (none, w)
    | _, _ => some (none, w)
  else some (none, w)

def splicePath (w : World α) : PathResult α :=
  if cfg.engine = .splice ∧ cfg.hashAlgo = .none ∧ !cfg.swab ∧ !cfg.sparse ∧ !cfg.sync then
    match openSource w cfg with
    | .error e => some (some (.error e), w)
    | .ok i =>
      let i := seekInputOrStay w.fs i cfg.skipBytes
      match openSink w cfg with
      | (.error e, w) => some (some (.error e), w)
      | (.ok o, w) =>
        let o := seekOutputOrStay w.fs o cfg.seekBytes
        match w.runCopy i o (E.trySpliceCopy cfg) with
        | none => none
        | some (.ok true, w) => some (some (.ok none), syncFile cfg o w)
        -- not only `Ok(false)`: an error is dropped here too
        | some (_, w) => some (none, w)
  else some (none, w)

/-- Open and seek both sides or fail, then copy. -/
def openAndCopy (w : World α) (copy : CopyPath α (Except String HashInfo)) : PathResult α :=
  match openSource w cfg with
  | .error e => some (some (.error e), w)
  | .ok i =>
    match seekInputOrFail w.fs i cfg.skipBytes with
    | .error e => some (some (.error e), w)
    | .ok i =>
      match openSink w cfg with
      | (.error e, w) => some (some (.error e), w)
      | (.ok o, w) =>
        match seekOutputOrFail w.fs o cfg.seekBytes with
        | .error e => some (some (.error e), w)
        | .ok o =>
          match w.runCopy i o copy with
          | none => none
          | some (.error e, w) => some (some (.error e), w)
          | some (.ok hash, w) => some (some (.ok hash), syncFile cfg o w)

def asyncPath (w : World α) : PathResult α :=
  if cfg.engine = .async then openAndCopy cfg w (E.executeAsyncTransfer cfg) else some (none, w)

def uringPath (w : World α) : PathResult α :=
  if (cfg.engine = .uring ∨ cfg.threads > 1 ∧ cfg.engine = .auto) ∧
      !cfg.swab ∧ !cfg.sparse ∧ !cfg.sync then
    match cfg.input, cfg.output with
    | some inPath, some outPath =>
      if w.fs.isRegularFileOrNew inPath || inPath.startsWith "/dev/" then
        match w.fs.openInputFile inPath cfg.direct with
        | .error e => some (some (.error e), w)
        | .ok inF =>
          match w.fs.openOutputFile outPath cfg.notrunc cfg.direct with
          | (.error e, fs) => some (some (.error e), { w with fs := fs })
          | (.ok outF, fs) =>
            -- skip and seek are offsets of the requests, not positions of the files
            match { w with fs := fs }.runCopy (.file inF 0) (.file outF 0)
                (E.executeUringTransfer cfg) with
            | none => none
            | some (.ok hash, w) => some (some (.ok hash), syncFile cfg (.file outF 0) w)
            | some (.error _, w) => some (none, w)
      else some (none, w)
    | _, _ => some (none, w)
  else some (none, w)

def syncPath (w : World α) : PathResult α :=
  match openAndCopy cfg w (E.transferLoop cfg) with
  | some (some (.ok hash), w) =>
    some (some (.ok hash), if cfg.output.isNone && (cfg.fdatasync || cfg.fsync) then
      w.logSync .flushStdout else w)
  | r => r

def executeTransferWithControl (w : World α) : PathResult α :=
  (reflinkPath E cfg w).orElse fun w =>
    (splicePath E cfg w).orElse fun w =>
      (asyncPath E cfg w).orElse fun w =>
        (uringPath E cfg w).orElse fun w => syncPath E cfg w

end Blkcp.Rust
