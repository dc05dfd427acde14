import Blkcp.Rust.Reflink
import Blkcp.Rust.Views
set_option autoImplicit false

/-! The plan that `execute_dry_run` prints, and the engine that copies when the same configuration
is executed. -/

namespace Blkcp.Rust
open Blkcp.Lib Blkcp.Blks

variable {α : Type}

/-- `metadata` of a path, and how the plan calls it. -/
inductive DryType where
  | blockDevice | characterDevice | fifoPipe | directory | regularFile | missing | newFile
  deriving DecidableEq

def FileKind.dryType : FileKind → DryType
  | .blockDevice => .blockDevice
  | .charDevice => .characterDevice
  | .fifo => .fifoPipe
  | .directory => .directory
  | .regular => .regularFile

section Plan

variable (cfg : Config) (w : World α)

def inputType : DryType :=
  match cfg.input with
  | some path => ((w.fs.lookup path).map (·.kind.dryType)).getD .missing
  | none => .fifoPipe

def outputType : DryType :=
  match cfg.output with
  | some path => ((w.fs.lookup path).map (·.kind.dryType)).getD .newFile
  | none => .fifoPipe

def dryRunEngine : Engine :=
  match cfg.engine with
  | .auto =>
    if canUseReflink cfg && inputType cfg w == .regularFile &&
        (outputType cfg w == .regularFile || outputType cfg w == .newFile) then .reflink
    else if inputType cfg w == .blockDevice || outputType cfg w == .blockDevice || cfg.direct then
      .uring
    else .sync
  | engine => engine

end Plan

/-- The paths that are tried one after the other, each with its engine: how the one that returns
ends. -/
def attempt : List (Engine × (World α → PathResult α)) → World α →
    Option (Option (Engine × Except String HashInfo) × World α)
  | [], w => some (none, w)
  | (engine, path) :: rest, w =>
    match path w with
    | none => none
    | some (none, w) => attempt rest w
    | some (some result, w) => some (some (engine, result), w)

/-- The paths of `execute_transfer_with_control`. -/
def enginePaths (E : Engines α) (cfg : Config) : List (Engine × (World α → PathResult α)) :=
  [(.reflink, reflinkPath E cfg), (.splice, splicePath E cfg), (.async, asyncPath E cfg),
    (.uring, uringPath E cfg), (.sync, syncPath E cfg)]

/-- Without the names of the engines it is that function. -/
theorem attempt_enginePaths (E : Engines α) (cfg : Config) (w : World α) :
    (attempt (enginePaths E cfg) w).map (fun r => (r.1.map (·.2), r.2)) =
      executeTransferWithControl E cfg w := by
  unfold executeTransferWithControl enginePaths
  have hcons (engine : Engine) (path : World α → PathResult α) (rest) (w : World α)
      (next : World α → PathResult α)
      (h : ∀ w, (attempt rest w).map (fun r => (r.1.map (·.2), r.2)) = next w) :
      (attempt ((engine, path) :: rest) w).map (fun r => (r.1.map (·.2), r.2)) =
        (path w).orElse next := by
    unfold attempt PathResult.orElse
    rcases path w with _ | ⟨_ | result, w'⟩
    · rfl
    · exact h w'
    · rfl
  refine hcons _ _ _ _ _ fun w => hcons _ _ _ _ _ fun w => hcons _ _ _ _ _ fun w =>
    hcons _ _ _ _ _ fun w => ?_
  unfold attempt
  rcases syncPath E cfg w with _ | ⟨_ | result, w'⟩ <;> rfl

/-- There is a file that can be written, or one can be created. -/
def FileSystem.Writable (fs : FileSystem α) (path : Path) : Prop :=
  fs.lookup path = none ∧ fs.creatable (fs.locate path) = true ∨
    ∃ n, fs.lookup path = some n ∧ n.kind ≠ .directory ∧ n.writable = true

section Kinds

variable (cfg : Config) (w : World α)

def inputKind : Option FileKind := cfg.input.bind fun path => (w.fs.lookup path).map (·.kind)

/-- A new output is a regular file. -/
def outputKind : Option FileKind :=
  cfg.output.map fun path => ((w.fs.lookup path).map (·.kind)).getD .regular

def bothRegular : Prop := inputKind cfg w = some .regular ∧ outputKind cfg w = some .regular

instance : Decidable (bothRegular cfg w) := inferInstanceAs (Decidable (_ ∧ _))

/-- What the ring is tried for: two named files, the first one regular or under `/dev/`, and no
conversion. -/
def uringEligible : Bool :=
  !cfg.swab && !cfg.sparse && !cfg.sync && cfg.output.isSome &&
    cfg.input.any fun path => inputKind cfg w == some .regular || path.startsWith "/dev/"

theorem uringEligible_iff : uringEligible cfg w ↔
    (cfg.swab = false ∧ cfg.sparse = false ∧ cfg.sync = false) ∧ cfg.output.isSome ∧
      ∃ path, cfg.input = some path ∧
        (inputKind cfg w = some .regular ∨ path.startsWith "/dev/") := by
  unfold uringEligible
  cases hin : cfg.input with
  | none => simp
  | some path =>
    simp only [Bool.and_eq_true, Bool.not_eq_true', Option.any_some, Bool.or_eq_true, beq_iff_eq,
      Option.some.injEq, exists_eq_left', and_assoc]

/-- Opening and positioning both sides succeeds. -/
structure Openable : Prop where
  input : ∀ path ∈ cfg.input, ∃ n, w.fs.lookup path = some n ∧ n.readable = true
  output : ∀ path ∈ cfg.output, w.fs.Writable path
  skip : cfg.skipBytes = 0 ∨ ∀ path ∈ cfg.input, w.fs.seekable (w.fs.locate path) = true
  seek : cfg.seekBytes = 0 ∨ ∀ path ∈ cfg.output, w.fs.seekable (w.fs.locate path) = true

/-- Every call that the copies behind the first path make succeeds. -/
structure Completes (E : Engines α) : Prop where
  splice : ∀ input output pos stats, ∃ e, E.trySpliceCopy cfg input output pos stats = some e ∧
    e.result = .ok true
  async : ∀ input output pos stats, ∃ e,
    E.executeAsyncTransfer cfg input output pos stats = some e ∧ ∃ hash, e.result = .ok hash
  uring : ∀ input output pos stats, ∃ e,
    E.executeUringTransfer cfg input output pos stats = some e ∧ ∃ hash, e.result = .ok hash
  sync : ∀ input output pos stats, ∃ e,
    E.transferLoop cfg input output pos stats = some e ∧ ∃ hash, e.result = .ok hash

/-- Every engine is there and every call it makes succeeds. `copy_file_range` is only called for
regular files, by `try_reflink_copy` itself. -/
structure Supported [Octet α] (E : Engines α) : Prop extends Completes cfg E where
  reflink : ∀ input output pos stats, ∃ (results : Nat → SpliceResult) (fuel : Nat) (e : _),
    (∀ i, ∃ n, results i = .moved n) ∧ E.tryReflinkCopy cfg input output pos stats = some e ∧
    tryReflinkCopy ((inputKind cfg w).bind fun kIn => (outputKind cfg w).map (kIn, ·))
      (fun _ => false) results fuel cfg input output pos stats = some e

end Kinds

section Opens

variable {fs : FileSystem α} {path : Path}

theorem openInputFile_readable {n : Node α} (hn : fs.lookup path = some n)
    (hread : n.readable = true) (direct : Bool) :
    fs.openInputFile path direct = .ok (fs.locate path) := by
  have hnode : fs.node (fs.locate path) = some n := hn
  unfold FileSystem.openInputFile FileSystem.openRead
  simp only [hnode, hread, Bool.not_true, Bool.false_eq_true, if_false, Bool.false_and]
  cases direct with
  | false => rfl
  | true => cases fs.directSupported (fs.locate path) <;> rfl

theorem openWrite_writable (h : fs.Writable path) (truncate : Bool) :
    ∃ fs', fs.openWrite path truncate false = (.ok (fs.locate path), fs') := by
  unfold FileSystem.openWrite
  rcases h with ⟨hnone, hcreate⟩ | ⟨n, hn, hdir, hwrite⟩
  · have hnode : fs.node (fs.locate path) = none := hnone
    simp only [hnode, hcreate, Bool.false_and, Bool.false_eq_true, if_false, if_true]
    exact ⟨_, rfl⟩
  · have hnode : fs.node (fs.locate path) = some n := hn
    simp only [hnode, hdir, hwrite, Bool.not_true, Bool.false_and, Bool.false_eq_true, if_false]
    split
    · exact ⟨_, rfl⟩
    · exact ⟨_, rfl⟩

/-- An output that can be opened, at once or without `O_DIRECT`. -/
theorem openOutputFile_writable (h : fs.Writable path) (notrunc direct : Bool) :
    ∃ fs', fs.openOutputFile path notrunc direct = (.ok (fs.locate path), fs') := by
  unfold FileSystem.openOutputFile
  generalize (!notrunc && fs.isRegularFileOrNew path) = truncate
  cases direct with
  | false =>
    obtain ⟨fs', hopen⟩ := openWrite_writable h truncate
    simp only [hopen, Bool.false_eq_true, if_false]
    exact ⟨fs', rfl⟩
  | true =>
    simp only [if_true]
    rcases hopen : fs.openWrite path truncate true with ⟨e | id, fs1⟩
    · have hwritable : fs1.Writable path := by
        rcases FileSystem.openWrite_error hopen with rfl | ⟨-, rfl⟩
        · exact h
        · refine .inr ⟨FileSystem.opened none truncate, ?_, FileKind.noConfusion, rfl⟩
          simp [FileSystem.lookup, FileSystem.setNode]
      have hlocate : fs1.locate path = fs.locate path := by
        rcases FileSystem.openWrite_error hopen with rfl | ⟨-, rfl⟩ <;> rfl
      obtain ⟨fs', hplain⟩ := openWrite_writable hwritable truncate
      simp only [hplain, hlocate]
      exact ⟨fs', rfl⟩
    · obtain ⟨rfl, -⟩ := FileSystem.openWrite_ok hopen
      exact ⟨fs1, rfl⟩

end Opens

section SameFiles

/-- Files keep their kind and their permissions, and new ones are regular. -/
structure SameFiles (fs fs' : FileSystem α) : Prop where
  locate : fs'.locate = fs.locate
  creatable : fs'.creatable = fs.creatable
  kept : ∀ {id n}, fs.node id = some n → ∃ n', fs'.node id = some n' ∧ n'.kind = n.kind ∧
    n'.readable = n.readable ∧ n'.writable = n.writable
  new : ∀ {id n'}, fs.node id = none → fs'.node id = some n' → n'.kind = .regular ∧
    n'.writable = true

variable {fs fs' fs'' : FileSystem α}

theorem SameFiles.refl (fs : FileSystem α) : SameFiles fs fs where
  locate := rfl
  creatable := rfl
  kept := fun {_ n} hn => ⟨n, hn, rfl, rfl, rfl⟩
  new := fun hnone hn => by rw [hnone] at hn; cases hn

theorem SameFiles.trans (h : SameFiles fs fs') (h' : SameFiles fs' fs'') : SameFiles fs fs'' where
  locate := h'.locate.trans h.locate
  creatable := h'.creatable.trans h.creatable
  kept := by
    intro id n hn
    obtain ⟨n', hn', hkind, hread, hwrite⟩ := h.kept hn
    obtain ⟨n'', hn'', hkind', hread', hwrite'⟩ := h'.kept hn'
    exact ⟨n'', hn'', hkind'.trans hkind, hread'.trans hread, hwrite'.trans hwrite⟩
  new := by
    intro id n'' hnone hn''
    cases hn' : fs'.node id with
    | none => exact h'.new hn' hn''
    | some n' =>
      obtain ⟨m, hm, hkind, -, hwrite⟩ := h'.kept hn'
      obtain ⟨hregular, hwritable⟩ := h.new hnone hn'
      rw [hn''] at hm
      cases hm
      exact ⟨hkind.trans hregular, hwrite.trans hwritable⟩

theorem sameFiles_opened (fs : FileSystem α) (id : FileId) (truncate : Bool) :
    SameFiles fs (fs.setNode id (FileSystem.opened (fs.node id) truncate)) where
  locate := rfl
  creatable := rfl
  kept := by
    intro j n hn
    unfold FileSystem.setNode
    by_cases hj : j = id
    · subst hj
      rw [hn]
      refine ⟨_, if_pos rfl, ?_⟩
      unfold FileSystem.opened
      simp only
      split
      · exact ⟨rfl, rfl, rfl⟩
      · exact ⟨rfl, rfl, rfl⟩
    · exact ⟨n, (if_neg hj).trans hn, rfl, rfl, rfl⟩
  new := by
    intro j n' hnone hn'
    unfold FileSystem.setNode at hn'
    by_cases hj : j = id
    · subst hj
      simp only [if_true, hnone] at hn'
      cases hn'
      exact ⟨rfl, rfl⟩
    · simp only [if_neg hj, hnone] at hn'
      cases hn'

theorem sameFiles_openOutputFile {path : Path} {notrunc direct : Bool} {f : FileId}
    (h : fs.openOutputFile path notrunc direct = (.ok f, fs')) : SameFiles fs fs' := by
  obtain ⟨-, rfl⟩ := FileSystem.openOutputFile_ok h
  exact sameFiles_opened _ _ _

theorem sameFiles_setContent (fs : FileSystem α) (id : FileId) (content : List α) :
    SameFiles fs (fs.setContent id content) := by
  unfold FileSystem.setContent
  cases hnode : fs.node id with
  | none => exact .refl fs
  | some m =>
    refine ⟨rfl, rfl, fun {j n} hn => ?_, fun {j n'} hnone hn' => ?_⟩
    · unfold FileSystem.setNode
      by_cases hj : j = id
      · subst hj
        rw [hnode] at hn
        cases hn
        exact ⟨_, if_pos rfl, rfl, rfl, rfl⟩
      · exact ⟨n, (if_neg hj).trans hn, rfl, rfl, rfl⟩
    · unfold FileSystem.setNode at hn'
      by_cases hj : j = id
      · subst hj
        rw [hnode] at hnone
        cases hnone
      · simp only [if_neg hj, hnone] at hn'
        cases hn'

theorem sameFiles_runCopy {β : Type} {w w' : World α} {i : OpenInput} {o : OpenOutput}
    {copy : CopyPath α β} {r : β} (h : w.runCopy i o copy = some (r, w')) :
    SameFiles w.fs w'.fs := by
  have hconsume (rest : List α) : SameFiles w.fs (w.consume i rest).fs := by
    cases i with
    | stdin => exact .refl _
    | file id pos =>
      unfold World.consume
      simp only
      split
      · exact .refl _
      · exact sameFiles_setContent _ _ _
  have hstore (w : World α) (content : List α) : SameFiles w.fs (w.store o content).fs := by
    cases o with
    | stdout => exact .refl _
    | file id pos => exact sameFiles_setContent _ _ _
  unfold World.runCopy at h
  cases hcopy : copy (w.inputBytes i) (w.outputContent o) (w.outputPos o) w.stats with
  | none =>
    rw [hcopy] at h
    cases h
  | some e =>
    rw [hcopy] at h
    cases h
    exact (hconsume e.inputRest).trans (hstore _ e.output)

/-- What can be opened and positioned can be so again. -/
theorem Openable.again {cfg : Config} {w w' : World α} (h : Openable cfg w)
    (hsame : SameFiles w.fs w'.fs) : Openable cfg w' := by
  have hseekable (id : FileId) (hid : w.fs.seekable id = true) : w'.fs.seekable id = true := by
    unfold FileSystem.seekable at hid ⊢
    cases hnode : w.fs.node id with
    | none =>
      cases hnode' : w'.fs.node id with
      | none => rfl
      | some n' =>
        simp only [(hsame.new hnode hnode').1]
        rfl
    | some n =>
      obtain ⟨n', hn', hkind, -⟩ := hsame.kept hnode
      rw [hnode] at hid
      simp only [hn', hkind]
      exact hid
  have hlookup (path : Path) : w'.fs.lookup path = w'.fs.node (w.fs.locate path) := by
    unfold FileSystem.lookup
    rw [hsame.locate]
  refine ⟨fun path hpath => ?_, fun path hpath => ?_, ?_, ?_⟩
  · obtain ⟨n, hn, hread⟩ := h.input path hpath
    obtain ⟨n', hn', -, hread', -⟩ := hsame.kept hn
    exact ⟨n', (hlookup path).trans hn', hread'.trans hread⟩
  · rcases h.output path hpath with ⟨hnone, hcreate⟩ | ⟨n, hn, hdir, hwrite⟩
    · cases hnode' : w'.fs.node (w.fs.locate path) with
      | none =>
        refine .inl ⟨(hlookup path).trans hnode', ?_⟩
        rw [hsame.locate, hsame.creatable]
        exact hcreate
      | some n' =>
        obtain ⟨hregular, hwritable⟩ := hsame.new hnone hnode'
        refine .inr ⟨n', (hlookup path).trans hnode', ?_, hwritable⟩
        rw [hregular]
        exact FileKind.noConfusion
    · obtain ⟨n', hn', hkind, -, hwrite'⟩ := hsame.kept hn
      exact .inr ⟨n', (hlookup path).trans hn', hkind ▸ hdir, hwrite'.trans hwrite⟩
  · refine h.skip.imp_right fun hall path hpath => ?_
    rw [hsame.locate]
    exact hseekable _ (hall path hpath)
  · refine h.seek.imp_right fun hall path hpath => ?_
    rw [hsame.locate]
    exact hseekable _ (hall path hpath)

end SameFiles

section Paths

variable {cfg : Config} {w : World α} {E : Engines α}

theorem openSource_succeeds (h : Openable cfg w) : ∃ i, openSource w cfg = .ok i ∧
    i = match cfg.input with
      | some path => .file (w.fs.locate path) 0
      | none => .stdin := by
  unfold openSource
  cases hin : cfg.input with
  | none => exact ⟨_, rfl, rfl⟩
  | some path =>
    obtain ⟨n, hn, hread⟩ := h.input path hin
    exact ⟨_, by simp only [openInputFile_readable hn hread], rfl⟩

theorem openSink_succeeds (h : Openable cfg w) : ∃ o w', openSink w cfg = (.ok o, w') ∧
    SameFiles w.fs w'.fs ∧ o = match cfg.output with
      | some path => .file (w.fs.locate path) 0
      | none => .stdout := by
  unfold openSink
  cases hout : cfg.output with
  | none => exact ⟨_, w, rfl, .refl _, rfl⟩
  | some path =>
    obtain ⟨fs', hopen⟩ := openOutputFile_writable (h.output path hout) cfg.notrunc cfg.direct
    refine ⟨.file (w.fs.locate path) 0, { w with fs := fs' }, ?_, sameFiles_openOutputFile hopen, rfl⟩
    simp only [hopen]

theorem seekInput_succeeds (h : Openable cfg w) {i : OpenInput} (hi : openSource w cfg = .ok i) :
    ∃ i', seekInputOrFail w.fs i cfg.skipBytes = .ok i' := by
  obtain ⟨i', hi', hfile⟩ := openSource_succeeds h
  rw [hi] at hi'
  cases hi'
  unfold seekInputOrFail
  split
  · rename_i hpos
    have hseekable := h.skip.resolve_left (Nat.ne_of_gt hpos)
    cases hin : cfg.input with
    | none =>
      rw [hfile, hin]
      exact ⟨_, rfl⟩
    | some path =>
      rw [hfile, hin]
      simp only [seekInput, hseekable path hin, if_true]
      exact ⟨_, rfl⟩
  · exact ⟨i, rfl⟩

theorem seekOutput_succeeds {w' : World α} (h : Openable cfg w') {o : OpenOutput}
    (ho : o = match cfg.output with
      | some path => .file (w'.fs.locate path) 0
      | none => .stdout) : ∃ o', seekOutputOrFail w'.fs o cfg.seekBytes = .ok o' := by
  unfold seekOutputOrFail
  split
  · rename_i hpos
    have hseekable := h.seek.resolve_left (Nat.ne_of_gt hpos)
    cases hout : cfg.output with
    | none =>
      rw [ho, hout]
      exact ⟨_, rfl⟩
    | some path =>
      rw [ho, hout]
      simp only [seekOutput, hseekable path hout, if_true]
      exact ⟨_, rfl⟩
  · exact ⟨o, rfl⟩

theorem runCopy_of_succeeds {β : Type} {copy : CopyPath α β} {P : β → Prop}
    (h : ∀ input output pos stats, ∃ e, copy input output pos stats = some e ∧ P e.result)
    (w : World α) (i : OpenInput) (o : OpenOutput) :
    ∃ r w', w.runCopy i o copy = some (r, w') ∧ P r := by
  obtain ⟨e, he, hP⟩ := h (w.inputBytes i) (w.outputContent o) (w.outputPos o) w.stats
  unfold World.runCopy
  rw [he]
  exact ⟨_, _, rfl, hP⟩

theorem openAndCopy_succeeds (h : Openable cfg w) {copy : CopyPath α (Except String HashInfo)}
    (hcopy : ∀ input output pos stats, ∃ e, copy input output pos stats = some e ∧
      ∃ hash, e.result = .ok hash) :
    ∃ hash w', openAndCopy cfg w copy = some (some (.ok hash), w') := by
  obtain ⟨i, hi, -⟩ := openSource_succeeds h
  obtain ⟨i', hi'⟩ := seekInput_succeeds h hi
  obtain ⟨o, w1, ho, hsame, hfile⟩ := openSink_succeeds h
  rw [← hsame.locate] at hfile
  obtain ⟨o', ho'⟩ := seekOutput_succeeds (h.again hsame) hfile
  obtain ⟨r, w2, hrun, hash, rfl⟩ := runCopy_of_succeeds (P := fun r : Except String HashInfo => ∃ hash, r = .ok hash) hcopy w1 i' o'
  unfold openAndCopy
  simp only [hi, hi', ho, ho', hrun]
  exact ⟨hash, _, rfl⟩

/-- The reflink path gets as far as a copy. -/
def reflinkTried (cfg : Config) : Bool :=
  canUseReflink cfg && decide (cfg.threads ≤ 1) && cfg.input.isSome && cfg.output.isSome

def spliceTried (cfg : Config) : Prop :=
  cfg.engine = .splice ∧ cfg.hashAlgo = .none ∧ !cfg.swab ∧ !cfg.sparse ∧ !cfg.sync

instance (cfg : Config) : Decidable (spliceTried cfg) := inferInstanceAs (Decidable (_ ∧ _))

theorem reflinkPath_untried (h : reflinkTried cfg = false) :
    reflinkPath E cfg w = some (none, w) := by
  unfold reflinkTried at h
  unfold reflinkPath
  cases hcan : canUseReflink cfg && decide (cfg.threads ≤ 1) with
  | false => rfl
  | true =>
    rw [hcan] at h
    cases hin : cfg.input with
    | none => simp
    | some inPath =>
      cases hout : cfg.output with
      | none => simp
      | some outPath =>
        rw [hin, hout] at h
        cases h

/-- With every call succeeding `copy_file_range` gets to the end. -/
theorem reflinkBody_left [Octet α] {results : Nat → SpliceResult}
    (hmoved : ∀ i, ∃ n, results i = .moved n) {s t : ReflinkState α} {r : Except String Bool}
    (h : reflinkBody cfg (fun _ => false) results s = .inr (r, t)) : r = .ok true := by
  unfold reflinkBody at h
  simp only [Bool.false_eq_true, if_false] at h
  split at h
  · cases h
    rfl
  · obtain ⟨n, hn⟩ := hmoved s.calls
    simp only [Nat.add_sub_cancel, hn] at h
    split at h
    · cases h
      rfl
    · cases h

theorem tryReflinkCopy_result [Octet α] {kIn kOut : FileKind} {results : Nat → SpliceResult}
    (hmoved : ∀ i, ∃ n, results i = .moved n) {fuel pos : Nat} {input output : List α}
    {stats : Stats} {e : Effect α (Except String Bool)}
    (h : tryReflinkCopy (some (kIn, kOut)) (fun _ => false) results fuel cfg input output pos stats =
      some e) :
    (kIn = .regular ∧ kOut = .regular ∧ e.result = .ok true) ∨
      ¬(kIn = .regular ∧ kOut = .regular) ∧ e.result =
        if cfg.engine = .reflink then
          .error "copy_file_range requires regular files for input and output"
        else .ok false := by
  obtain ⟨⟨r, t⟩, hrun, rfl⟩ := Option.map_eq_some_iff.mp h
  unfold reflinkRun at hrun
  simp only at hrun
  split at hrun
  · rename_i hkinds
    refine .inr ⟨by tauto, ?_⟩
    split at hrun
    · rename_i hengine
      cases hrun
      exact (if_pos hengine).symm
    · rename_i hengine
      cases hrun
      exact (if_neg hengine).symm
  · rename_i hkinds
    rw [not_or, not_not, not_not] at hkinds
    obtain ⟨u, -, hleave⟩ := runLoop_invariant (I := fun _ => True) (fun _ _ _ _ => trivial) hrun
      trivial
    exact .inl ⟨hkinds.1, hkinds.2, reflinkBody_left hmoved hleave⟩

/-- The reflink path copies two regular files, ends with an error where it was asked for by name and
leaves other files to the next path. -/
theorem reflinkPath_tried [Octet α] (h : reflinkTried cfg = true) (hopen : Openable cfg w)
    (hE : Supported cfg w E) :
    (bothRegular cfg w ∧ ∃ w', reflinkPath E cfg w = some (some (.ok none), w')) ∨
      ¬ bothRegular cfg w ∧
        ((cfg.engine = .reflink ∧
            ∃ msg w', reflinkPath E cfg w = some (some (.error msg), w')) ∨
          cfg.engine ≠ .reflink ∧
            ∃ w', reflinkPath E cfg w = some (none, w') ∧ SameFiles w.fs w'.fs) := by
  unfold reflinkTried at h
  simp only [Bool.and_eq_true] at h
  obtain ⟨⟨⟨hcan, hthreads⟩, hin⟩, hout⟩ := h
  obtain ⟨inPath, hin⟩ := Option.isSome_iff_exists.mp hin
  obtain ⟨outPath, hout⟩ := Option.isSome_iff_exists.mp hout
  obtain ⟨n, hn, hread⟩ := hopen.input inPath hin
  obtain ⟨fs', hwrite⟩ := openOutputFile_writable (hopen.output outPath hout) cfg.notrunc false
  have hinput := openInputFile_readable hn hread false
  have hkinds : (inputKind cfg w).bind (fun kIn => (outputKind cfg w).map (kIn, ·)) =
      some (n.kind, ((w.fs.lookup outPath).map (·.kind)).getD .regular) := by
    simp only [inputKind, outputKind, hin, hout, Option.bind_some, hn, Option.map_some]
  have hregular : bothRegular cfg w ↔
      n.kind = .regular ∧ ((w.fs.lookup outPath).map (·.kind)).getD .regular = .regular := by
    simp only [bothRegular, inputKind, outputKind, hin, hout, Option.bind_some, hn,
      Option.map_some, Option.some.injEq]
  -- the files as the opens leave them, and the copy between them
  let w1 : World α := { w with fs := fs' }
  let i := seekInputOrStay fs' (.file (w.fs.locate inPath) 0) cfg.skipBytes
  let o := seekOutputOrStay fs' (.file (w.fs.locate outPath) 0) cfg.seekBytes
  obtain ⟨results, fuel, e, hmoved, hcopy, hrun⟩ :=
    hE.reflink (w1.inputBytes i) (w1.outputContent o) (w1.outputPos o) w1.stats
  have hrunCopy : ∃ w', w1.runCopy i o (E.tryReflinkCopy cfg) = some (e.result, w') := by
    unfold World.runCopy
    rw [hcopy]
    exact ⟨_, rfl⟩
  obtain ⟨w', hw'⟩ := hrunCopy
  have hsame : SameFiles w.fs w'.fs := (sameFiles_openOutputFile hwrite).trans (sameFiles_runCopy hw')
  have hpath : reflinkPath E cfg w = match e.result with
      | .ok true => some (some (.ok none),
        if cfg.fdatasync || cfg.fsync then w'.logSync (.syncAll (w.fs.locate outPath)) else w')
      | .ok false => some (none, w')
      | .error msg => some (some (.error msg), w') := by
    unfold reflinkPath
    rw [hcan, hthreads, hin, hout]
    simp only [Bool.and_self, if_true, hinput, hwrite]
    generalize e.result = r at hw'
    rw [show World.runCopy _ _ _ _ = some (r, w') from hw']
    rcases r with msg | _ | _ <;> rfl
  rw [hkinds] at hrun
  rw [hregular]
  rcases tryReflinkCopy_result hmoved hrun with ⟨hkIn, hkOut, hresult⟩ | ⟨hkind, hresult⟩
  · rw [hresult] at hpath
    exact .inl ⟨⟨hkIn, hkOut⟩, _, hpath⟩
  · refine .inr ⟨hkind, ?_⟩
    by_cases hengine : cfg.engine = .reflink
    · rw [hresult, if_pos hengine] at hpath
      exact .inl ⟨hengine, _, _, hpath⟩
    · rw [hresult, if_neg hengine] at hpath
      exact .inr ⟨hengine, _, hpath, hsame⟩

theorem splicePath_tried (h : spliceTried cfg) (hopen : Openable cfg w)
    (hE : Completes cfg E) : ∃ w', splicePath E cfg w = some (some (.ok none), w') := by
  obtain ⟨i, hi, -⟩ := openSource_succeeds hopen
  obtain ⟨o, w1, ho, -, -⟩ := openSink_succeeds hopen
  obtain ⟨r, w2, hrun, rfl⟩ := runCopy_of_succeeds (P := fun r : Except String Bool => r = .ok true) hE.splice w1
    (seekInputOrStay w.fs i cfg.skipBytes) (seekOutputOrStay w1.fs o cfg.seekBytes)
  unfold spliceTried at h
  unfold splicePath
  rw [if_pos h]
  simp only [hi, ho, hrun]
  exact ⟨_, rfl⟩

theorem splicePath_untried (h : ¬ spliceTried cfg) : splicePath E cfg w = some (none, w) := by
  unfold splicePath
  exact if_neg h

/-- The ring is asked for by name or by a number of threads. -/
def uringAsked (cfg : Config) : Prop := cfg.engine = .uring ∨ cfg.threads > 1 ∧ cfg.engine = .auto

instance (cfg : Config) : Decidable (uringAsked cfg) := inferInstanceAs (Decidable (_ ∨ _))

theorem uringPath_eligible (hengine : uringAsked cfg) (h : uringEligible cfg w)
    (hopen : Openable cfg w) (hE : Completes cfg E) :
    ∃ hash w', uringPath E cfg w = some (some (.ok hash), w') := by
  obtain ⟨⟨hswab, hsparse, hsync⟩, hout, inPath, hin, hkind⟩ := (uringEligible_iff cfg w).mp h
  obtain ⟨outPath, hout⟩ := Option.isSome_iff_exists.mp hout
  obtain ⟨n, hn, hread⟩ := hopen.input inPath hin
  obtain ⟨fs', hwrite⟩ := openOutputFile_writable (hopen.output outPath hout) cfg.notrunc cfg.direct
  have hfile : (w.fs.isRegularFileOrNew inPath || inPath.startsWith "/dev/") = true := by
    unfold inputKind at hkind
    rw [hin, Option.bind_some, hn] at hkind
    unfold FileSystem.isRegularFileOrNew
    rw [hn]
    rcases hkind with hkind | hdev
    · simp [Option.some.inj hkind]
    · simp [hdev]
  obtain ⟨r, w2, hrun, hash, rfl⟩ := runCopy_of_succeeds
    (P := fun r : Except String HashInfo => ∃ hash, r = .ok hash) hE.uring { w with fs := fs' }
    (.file (w.fs.locate inPath) 0) (.file (w.fs.locate outPath) 0)
  unfold uringPath
  rw [if_pos ⟨hengine, by simp [hswab], by simp [hsparse], by simp [hsync]⟩, hin, hout]
  simp only [hfile, if_true, openInputFile_readable hn hread, hwrite, hrun]
  exact ⟨_, _, rfl⟩

theorem uringPath_ineligible (h : ¬ (uringAsked cfg ∧ uringEligible cfg w))
    (hopen : Openable cfg w) : uringPath E cfg w = some (none, w) := by
  unfold uringPath
  split
  · rename_i htest
    obtain ⟨hengine, hswab, hsparse, hsync⟩ := htest
    cases hin : cfg.input with
    | none => rfl
    | some inPath =>
      cases hout : cfg.output with
      | none => rfl
      | some outPath =>
        obtain ⟨n, hn, -⟩ := hopen.input inPath hin
        refine if_neg fun hfile => h ⟨hengine, (uringEligible_iff cfg w).mpr
          ⟨⟨by simpa using hswab, by simpa using hsparse, by simpa using hsync⟩, by rw [hout]; rfl,
            inPath, hin, ?_⟩⟩
        rw [Bool.or_eq_true] at hfile
        refine hfile.imp_left fun hregular => ?_
        unfold FileSystem.isRegularFileOrNew at hregular
        rw [hn] at hregular
        unfold inputKind
        rw [hin, Option.bind_some, hn, Option.map_some]
        exact congrArg some (of_decide_eq_true hregular)
  · rfl

theorem syncPath_succeeds (hopen : Openable cfg w) (hE : Completes cfg E) : ∃ hash w', syncPath E cfg w = some (some (.ok hash), w') := by
  obtain ⟨hash, w', hcopy⟩ := openAndCopy_succeeds hopen hE.sync
  unfold syncPath
  rw [hcopy]
  exact ⟨hash, _, rfl⟩

end Paths

/-- The engine that copies if that of the first path does not. -/
def laterEngine (cfg : Config) (w : World α) : Engine :=
  if spliceTried cfg then .splice
  else if cfg.engine = .async then .async
  else if uringAsked cfg ∧ uringEligible cfg w then .uring
  else .sync

/-- The engine that copies, if the transfer does not end with an error. -/
def runningEngine (cfg : Config) (w : World α) : Option Engine :=
  if reflinkTried cfg ∧ bothRegular cfg w then some .reflink
  else if reflinkTried cfg ∧ cfg.engine = .reflink then none
  else some (laterEngine cfg w)

section Attempt

variable {cfg : Config} {w : World α} {E : Engines α}

theorem attempt_returned {engine : Engine} {path : World α → PathResult α}
    {result : Except String HashInfo} {w' : World α} (rest) (h : path w = some (some result, w')) :
    attempt ((engine, path) :: rest) w = some (some (engine, result), w') := by
  unfold attempt
  rw [h]

theorem attempt_passed {engine : Engine} {path : World α → PathResult α} {w' : World α} (rest)
    (h : path w = some (none, w')) : attempt ((engine, path) :: rest) w = attempt rest w' := by
  rw [attempt, h]

/-- The paths behind that of reflink. -/
theorem attempt_laterPaths (hopen : Openable cfg w) (hE : Completes cfg E) :
    ∃ hash w', attempt (enginePaths E cfg).tail w = some (some (laterEngine cfg w, .ok hash), w') := by
  unfold enginePaths laterEngine
  rw [List.tail_cons]
  by_cases hsplice : spliceTried cfg
  · obtain ⟨w', hpath⟩ := splicePath_tried hsplice hopen hE
    rw [if_pos hsplice]
    exact ⟨_, w', attempt_returned _ hpath⟩
  rw [if_neg hsplice, attempt_passed _ (splicePath_untried hsplice)]
  by_cases hasync : cfg.engine = .async
  · obtain ⟨hash, w', hpath⟩ := openAndCopy_succeeds hopen hE.async
    rw [if_pos hasync]
    exact ⟨hash, w', attempt_returned _ ((if_pos hasync).trans hpath)⟩
  have hpassed : asyncPath E cfg w = some (none, w) := if_neg hasync
  rw [if_neg hasync, attempt_passed _ hpassed]
  by_cases huring : uringAsked cfg ∧ uringEligible cfg w
  · obtain ⟨hash, w', hpath⟩ := uringPath_eligible huring.1 huring.2 hopen hE
    rw [if_pos huring]
    exact ⟨hash, w', attempt_returned _ hpath⟩
  rw [if_neg huring, attempt_passed _ (uringPath_ineligible huring hopen)]
  obtain ⟨hash, w', hpath⟩ := syncPath_succeeds hopen hE
  exact ⟨hash, w', attempt_returned _ hpath⟩

theorem engine_of_reflinkTried (h : reflinkTried cfg = true) (hengine : cfg.engine ≠ .reflink) :
    cfg.engine = .auto ∧ cfg.threads ≤ 1 := by
  unfold reflinkTried canUseReflink at h
  simp only [Bool.and_eq_true, decide_eq_true_eq] at h
  obtain ⟨⟨⟨hcan, hthreads⟩, -⟩, -⟩ := h
  refine ⟨?_, hthreads⟩
  split at hcan
  · cases hcan
  · cases hcfg : cfg.engine with
    | auto => rfl
    | reflink => exact absurd hcfg hengine
    | _ => rw [hcfg] at hcan; cases hcan

theorem laterEngine_auto (hauto : cfg.engine = .auto) (hthreads : cfg.threads ≤ 1) :
    laterEngine cfg w = .sync := by
  have hsplice : ¬ spliceTried cfg := by
    rintro ⟨hengine, -⟩
    rw [hauto] at hengine
    cases hengine
  have hasync : ¬ cfg.engine = .async := by
    rw [hauto]
    exact Engine.noConfusion
  have huring : ¬ uringAsked cfg := by
    rintro (hengine | ⟨hmany, -⟩)
    · rw [hauto] at hengine
      cases hengine
    · exact absurd hthreads (Nat.not_le.mpr hmany)
  unfold laterEngine
  rw [if_neg hsplice, if_neg hasync, if_neg fun h => huring h.1]

/-- The engine that copies, or the error of the reflink path. -/
theorem attempt_running [Octet α] (hopen : Openable cfg w) (hE : Supported cfg w E) :
    ∃ engine result w', attempt (enginePaths E cfg) w = some (some (engine, result), w') ∧
      match runningEngine cfg w with
      | some running => engine = running ∧ ∃ hash, result = .ok hash
      | none => ∃ msg, result = .error msg := by
  have hpaths : enginePaths E cfg = (.reflink, reflinkPath E cfg) :: (enginePaths E cfg).tail := rfl
  rw [hpaths]
  unfold runningEngine
  cases htried : reflinkTried cfg with
  | false =>
    rw [attempt_passed _ (reflinkPath_untried htried)]
    obtain ⟨hash, w', hrun⟩ := attempt_laterPaths hopen hE.toCompletes
    refine ⟨_, _, w', hrun, ?_⟩
    rw [if_neg fun h => Bool.noConfusion h.1, if_neg fun h => Bool.noConfusion h.1]
    exact ⟨rfl, hash, rfl⟩
  | true =>
    rcases reflinkPath_tried htried hopen hE with ⟨hboth, w', hpath⟩ |
      ⟨hboth, ⟨hengine, msg, w', hpath⟩ | ⟨hengine, w', hpath, hsame⟩⟩
    · refine ⟨_, _, w', attempt_returned _ hpath, ?_⟩
      rw [if_pos ⟨rfl, hboth⟩]
      exact ⟨rfl, none, rfl⟩
    · refine ⟨_, _, w', attempt_returned _ hpath, ?_⟩
      rw [if_neg fun h => hboth h.2, if_pos ⟨rfl, hengine⟩]
      exact ⟨msg, rfl⟩
    · -- the files have been opened once, but only the loop is left to copy them
      obtain ⟨hauto, hthreads⟩ := engine_of_reflinkTried htried hengine
      rw [attempt_passed _ hpath]
      obtain ⟨hash, w'', hrun⟩ := attempt_laterPaths (hopen.again hsame) hE.toCompletes
      refine ⟨_, _, w'', hrun, ?_⟩
      rw [if_neg fun h => hboth h.2, if_neg fun h => hengine h.2, laterEngine_auto hauto hthreads,
        laterEngine_auto hauto hthreads]
      exact ⟨rfl, hash, rfl⟩

/-- An engine completes the copy when it is the running one. -/
theorem attempt_completed_iff [Octet α] (hopen : Openable cfg w) (hE : Supported cfg w E)
    (planned : Engine) : (∃ hash w', attempt (enginePaths E cfg) w =
      some (some (planned, .ok hash), w')) ↔ runningEngine cfg w = some planned := by
  obtain ⟨engine, result, w', hrun, hend⟩ := attempt_running hopen hE
  rw [hrun]
  cases hrunning : runningEngine cfg w with
  | none =>
    rw [hrunning] at hend
    obtain ⟨msg, rfl⟩ := hend
    refine iff_of_false ?_ nofun
    rintro ⟨hash, w'', h⟩
    cases h
  | some running =>
    rw [hrunning] at hend
    obtain ⟨rfl, hash, rfl⟩ := hend
    constructor
    · rintro ⟨hash', w'', h⟩
      cases h
      rfl
    · intro h
      cases h
      exact ⟨hash, w', rfl⟩

end Attempt

section Named

variable (cfg : Config) (w : World α)

/-- What the plan takes for a reason to use the ring. -/
def ringPlanned : Prop :=
  inputType cfg w = .blockDevice ∨ outputType cfg w = .blockDevice ∨ cfg.direct = true

instance : Decidable (ringPlanned cfg w) := inferInstanceAs (Decidable (_ ∨ _ ∨ _))

/-- The engine asked for can run with these options and files; where none is, the tests of the plan
come to what the paths come to. -/
def PlanHolds : Prop :=
  match cfg.engine with
  | .sync | .async => True
  | .splice => spliceTried cfg
  | .uring => uringEligible cfg w
  | .reflink => canUseReflink cfg ∧ cfg.threads ≤ 1 ∧ bothRegular cfg w
  | .auto =>
    (cfg.threads ≤ 1 → (canUseReflink cfg ∧ bothRegular cfg w) ∨ ¬ ringPlanned cfg w) ∧
      (1 < cfg.threads → ¬ (canUseReflink cfg ∧ bothRegular cfg w) ∧
        (ringPlanned cfg w ↔ uringEligible cfg w))

variable {cfg w}

theorem bothRegular_named (h : bothRegular cfg w) : cfg.input.isSome ∧ cfg.output.isSome := by
  obtain ⟨hin, hout⟩ := h
  unfold inputKind at hin
  unfold outputKind at hout
  constructor
  · cases hinput : cfg.input with
    | none => rw [hinput] at hin; cases hin
    | some path => rfl
  · cases houtput : cfg.output with
    | none => rw [houtput] at hout; cases hout
    | some path => rfl

theorem reflinkTried_regular : reflinkTried cfg ∧ bothRegular cfg w ↔
    canUseReflink cfg ∧ cfg.threads ≤ 1 ∧ bothRegular cfg w := by
  unfold reflinkTried
  constructor
  · rintro ⟨htried, hboth⟩
    simp only [Bool.and_eq_true, decide_eq_true_eq] at htried
    exact ⟨htried.1.1.1, htried.1.1.2, hboth⟩
  · rintro ⟨hcan, hthreads, hboth⟩
    obtain ⟨hin, hout⟩ := bothRegular_named hboth
    exact ⟨by simp [hcan, hthreads, hin, hout], hboth⟩

/-- The plan's look at the types of the files. -/
theorem plannedRegular_iff : inputType cfg w = .regularFile ∧
    (outputType cfg w = .regularFile ∨ outputType cfg w = .newFile) ↔ bothRegular cfg w := by
  have hkind (k : FileKind) : k.dryType = .regularFile ↔ k = .regular := by cases k <;> decide
  have hnew (k : FileKind) : k.dryType ≠ .newFile := by cases k <;> decide
  unfold bothRegular
  refine and_congr ?_ ?_
  · unfold inputType inputKind
    cases cfg.input with
    | none => simp
    | some path =>
      simp only [Option.bind_some]
      cases w.fs.lookup path with
      | none => simp
      | some n => simp [hkind]
  · unfold outputType outputKind
    cases cfg.output with
    | none => simp
    | some path =>
      simp only [Option.map_some]
      cases w.fs.lookup path with
      | none => simp
      | some n => simp [hkind, hnew]

theorem dryRunEngine_auto (h : cfg.engine = .auto) : dryRunEngine cfg w =
    if canUseReflink cfg ∧ bothRegular cfg w then .reflink
    else if ringPlanned cfg w then .uring
    else .sync := by
  unfold dryRunEngine
  rw [h]
  refine ite_congr (propext ?_) (fun _ => rfl) fun _ =>
    ite_congr (propext ?_) (fun _ => rfl) fun _ => rfl
  · rw [← plannedRegular_iff]
    simp only [Bool.and_eq_true, Bool.or_eq_true, beq_iff_eq, and_assoc]
  · simp only [ringPlanned, Bool.or_eq_true, beq_iff_eq, or_assoc]

theorem uringOrSync_eq_iff (p q : Prop) [Decidable p] [Decidable q] :
    some (if p then Engine.uring else .sync) = some (if q then .uring else .sync) ↔ (p ↔ q) := by
  by_cases hp : p <;> by_cases hq : q <;> simp [hp, hq]

theorem canUseReflink_engine (h : canUseReflink cfg = true) :
    cfg.engine = .reflink ∨ cfg.engine = .auto := by
  unfold canUseReflink at h
  split at h
  · cases h
  · split at h
    · rename_i hengine
      exact .inl hengine
    · rename_i hengine
      exact .inr hengine
    · cases h

theorem laterEngine_eq : laterEngine cfg w = match cfg.engine with
    | .splice => if spliceTried cfg then .splice else .sync
    | .async => .async
    | .uring => if uringEligible cfg w then .uring else .sync
    | .auto => if 1 < cfg.threads ∧ uringEligible cfg w then .uring else .sync
    | .reflink | .sync => .sync := by
  have hsplice (h : cfg.engine ≠ .splice) : ¬ spliceTried cfg := fun htried => h htried.1
  unfold laterEngine
  cases hengine : cfg.engine with
  | splice => simp [uringAsked, hengine]
  | _ => simp [hsplice, uringAsked, hengine]

theorem runningEngine_reflink (h : canUseReflink cfg ∧ cfg.threads ≤ 1 ∧ bothRegular cfg w) :
    runningEngine cfg w = some .reflink := by
  unfold runningEngine
  exact if_pos (reflinkTried_regular.mpr h)

theorem runningEngine_later (h : ¬ (canUseReflink cfg ∧ cfg.threads ≤ 1 ∧ bothRegular cfg w))
    (hengine : cfg.engine ≠ .reflink) : runningEngine cfg w = some (laterEngine cfg w) := by
  unfold runningEngine
  rw [if_neg (mt reflinkTried_regular.mp h), if_neg fun herror => hengine herror.2]

/-- Where the engine asked for is not that of the first path, it runs if the later paths come to
it. -/
theorem runningEngine_asked (h : cfg.engine ≠ .reflink) (hauto : cfg.engine ≠ .auto) :
    runningEngine cfg w = some cfg.engine ↔ laterEngine cfg w = cfg.engine := by
  have hcan : ¬ (canUseReflink cfg ∧ cfg.threads ≤ 1 ∧ bothRegular cfg w) := fun hcan =>
    (canUseReflink_engine hcan.1).elim h hauto
  rw [runningEngine_later hcan h, Option.some.injEq]

/-- The plan names the engine that copies exactly when it holds. -/
theorem dryRunEngine_iff [Octet α] {E : Engines α} (hopen : Openable cfg w)
    (hE : Supported cfg w E) :
    (∃ hash w', attempt (enginePaths E cfg) w =
      some (some (dryRunEngine { cfg with dryRun := true } w, .ok hash), w')) ↔
    PlanHolds cfg w := by
  have hplanned : dryRunEngine { cfg with dryRun := true } w = dryRunEngine cfg w := rfl
  rw [hplanned, attempt_completed_iff hopen hE]
  have hnamed (h : cfg.engine ≠ .auto) : dryRunEngine cfg w = cfg.engine := by
    unfold dryRunEngine
    cases hengine : cfg.engine with
    | auto => exact absurd hengine h
    | _ => rfl
  unfold PlanHolds
  cases hengine : cfg.engine with
  | sync =>
    rw [hnamed (by rw [hengine]; decide), runningEngine_asked (by rw [hengine]; decide)
      (by rw [hengine]; decide), laterEngine_eq, hengine]
    exact iff_of_true rfl trivial
  | async =>
    rw [hnamed (by rw [hengine]; decide), runningEngine_asked (by rw [hengine]; decide)
      (by rw [hengine]; decide), laterEngine_eq, hengine]
    exact iff_of_true rfl trivial
  | splice =>
    rw [hnamed (by rw [hengine]; decide), runningEngine_asked (by rw [hengine]; decide)
      (by rw [hengine]; decide), laterEngine_eq, hengine]
    simp
  | uring =>
    rw [hnamed (by rw [hengine]; decide), runningEngine_asked (by rw [hengine]; decide)
      (by rw [hengine]; decide), laterEngine_eq, hengine]
    simp
  | reflink =>
    rw [hnamed (by rw [hengine]; decide), hengine]
    by_cases hruns : canUseReflink cfg ∧ cfg.threads ≤ 1 ∧ bothRegular cfg w
    · exact iff_of_true (runningEngine_reflink hruns) hruns
    · refine iff_of_false ?_ hruns
      unfold runningEngine
      rw [if_neg (mt reflinkTried_regular.mp hruns), laterEngine_eq, hengine]
      split
      · exact nofun
      · exact nofun
  | auto =>
    rw [dryRunEngine_auto hengine]
    have hlater : ¬ (canUseReflink cfg ∧ cfg.threads ≤ 1 ∧ bothRegular cfg w) →
        runningEngine cfg w = some (if 1 < cfg.threads ∧ uringEligible cfg w then .uring else .sync) := by
      intro hreflink
      rw [runningEngine_later hreflink (by rw [hengine]; decide), laterEngine_eq, hengine]
    by_cases hreflink : canUseReflink cfg ∧ bothRegular cfg w
    · by_cases hthreads : cfg.threads ≤ 1
      · rw [if_pos hreflink, runningEngine_reflink ⟨hreflink.1, hthreads, hreflink.2⟩]
        exact iff_of_true rfl ⟨fun _ => .inl hreflink, fun hmany => absurd hthreads (by omega)⟩
      · rw [if_pos hreflink, hlater fun h => hthreads h.2.1]
        refine iff_of_false ?_ fun h => (h.2 (by omega)).1 hreflink
        split <;> exact nofun
    · rw [if_neg hreflink, hlater fun h => hreflink ⟨h.1, h.2.2⟩, uringOrSync_eq_iff]
      by_cases hthreads : cfg.threads ≤ 1
      · have hone : ¬ 1 < cfg.threads := Nat.not_lt.mpr hthreads
        simp only [hthreads, hone, hreflink, false_and, false_or, false_iff, true_implies,
          false_implies, and_true]
      · have hmany : 1 < cfg.threads := Nat.not_le.mp hthreads
        simp only [hthreads, hmany, hreflink, true_and, not_false_eq_true, true_implies,
          false_implies]
        exact iff_comm

end Named

section Example

/-- A disk under `/dev/` and a regular file. -/
def deviceWorld : World Byte where
  fs :=
    { locate := fun path => if path = "/dev/x" then 0 else 1
      node := fun id =>
        if id = 0 then some ⟨.blockDevice, [1, 2, 3, 4], true, true⟩
        else if id = 1 then some ⟨.regular, [], true, true⟩ else none
      creatable := fun _ => true
      directSupported := fun _ => true }
  stdin := []
  stdout := []
  stats := {}
  syncs := []

def fromDevice (engine : Engine) : Config where
  input := some "/dev/x"
  output := some "image"
  engine := engine

/-- Engines that copy everything at once. `try_reflink_copy` is that of the source. -/
def promptEngines : Engines Byte where
  tryReflinkCopy := tryReflinkCopy (some (.blockDevice, .regular)) (fun _ => false)
    (fun _ => .moved 1) 1
  trySpliceCopy _ input output pos stats := some ⟨.ok true, [], placeAt 0 output pos input, stats⟩
  executeAsyncTransfer _ input output pos stats :=
    some ⟨.ok none, [], placeAt 0 output pos input, stats⟩
  executeUringTransfer _ input output pos stats :=
    some ⟨.ok none, [], placeAt 0 output pos input, stats⟩
  transferLoop _ input output pos stats := some ⟨.ok none, [], placeAt 0 output pos input, stats⟩

theorem openable_fromDevice (engine : Engine) : Openable (fromDevice engine) deviceWorld where
  input := by
    intro path hpath
    cases hpath
    exact ⟨_, rfl, rfl⟩
  output := by
    intro path hpath
    cases hpath
    exact .inr ⟨_, rfl, by decide, rfl⟩
  skip := .inl rfl
  seek := .inl rfl

theorem supported_fromDevice (engine : Engine) :
    Supported (fromDevice engine) deviceWorld promptEngines where
  splice _ _ _ _ := ⟨_, rfl, rfl⟩
  async _ _ _ _ := ⟨_, rfl, none, rfl⟩
  uring _ _ _ _ := ⟨_, rfl, none, rfl⟩
  sync _ _ _ _ := ⟨_, rfl, none, rfl⟩
  reflink input output pos stats := by
    have hsome : ∃ e, tryReflinkCopy (some (.blockDevice, .regular)) (fun _ => false)
        (fun _ => .moved 1) 1 (fromDevice engine) input output pos stats = some e := by
      unfold tryReflinkCopy reflinkRun
      cases engine <;> exact ⟨_, rfl⟩
    obtain ⟨e, he⟩ := hsome
    exact ⟨fun _ => .moved 1, 1, e, fun _ => ⟨1, rfl⟩, he, he⟩

/-- A disk is planned to be read by the ring and read by the loop. -/
theorem device_planned : ¬ ∀ (cfg : Config) (w : World Byte) (E : Engines Byte), Openable cfg w →
    Supported cfg w E → ∃ hash w', attempt (enginePaths E cfg) w =
      some (some (dryRunEngine { cfg with dryRun := true } w, .ok hash), w') := by
  intro h
  have hopen := openable_fromDevice .auto
  have hE := supported_fromDevice .auto
  have hengine := (attempt_completed_iff hopen hE _).mp (h _ _ _ hopen hE)
  exact absurd hengine (by decide)

/-- With `-e uring` the ring does read it. -/
theorem device_uring : ∃ hash w', attempt (enginePaths promptEngines (fromDevice .uring))
    deviceWorld = some (some (dryRunEngine { fromDevice .uring with dryRun := true } deviceWorld,
      .ok hash), w') := by
  refine (dryRunEngine_iff (openable_fromDevice .uring) (supported_fromDevice .uring)).mpr ?_
  have hdev : "/dev/x".startsWith "/dev/" = true := by simp [String.startsWith_string_iff]
  exact (uringEligible_iff _ _).mpr ⟨⟨rfl, rfl, rfl⟩, rfl, "/dev/x", rfl, .inr hdev⟩

end Example

end Blkcp.Rust
