import Blkcp.Rust.OpenOrder
set_option autoImplicit false

/-! Opening and copying, seen from the contents of the input and the output. -/

namespace Blkcp.Rust

variable {α : Type}

namespace FileSystem

/-- The node an open for writing leaves, given the one it finds. -/
def opened (found : Option (Node α)) (truncate : Bool) : Node α :=
  match found with
  | none => ⟨.regular, [], true, true⟩
  | some n => if truncate && n.kind = .regular then { n with content := [] } else n

theorem openWrite_ok {fs fs' : FileSystem α} {path : Path} {truncate direct : Bool} {f : FileId}
    (h : fs.openWrite path truncate direct = (.ok f, fs')) :
    f = fs.locate path ∧
      fs' = fs.setNode (fs.locate path) (opened (fs.node (fs.locate path)) truncate) := by
  simp only [openWrite] at h
  rcases hn : fs.node (fs.locate path) with _ | n
  · simp only [hn] at h
    repeat' split at h
    · simp at h
    · obtain ⟨hf, rfl⟩ := Prod.mk.inj h
      exact ⟨(Except.ok.inj hf).symm, rfl⟩
    · simp at h
  · simp only [hn] at h
    repeat' split at h
    all_goals simp at h
    · obtain ⟨rfl, rfl⟩ := h
      simp_all [opened]
    · obtain ⟨rfl, rfl⟩ := h
      rename_i hopen
      simp only [opened, hopen, Bool.false_eq_true, if_false]
      exact ⟨trivial, (setNode_self hn).symm⟩

theorem openWrite_error {fs fs' : FileSystem α} {path : Path} {truncate direct : Bool} {e : Errno}
    (h : fs.openWrite path truncate direct = (.error e, fs')) :
    fs' = fs ∨ fs.node (fs.locate path) = none ∧
      fs' = fs.setNode (fs.locate path) (opened none truncate) := by
  simp only [openWrite] at h
  rcases hn : fs.node (fs.locate path) with _ | n
  · simp only [hn] at h
    repeat' split at h
    all_goals simp_all [opened]
  · simp only [hn] at h
    repeat' split at h
    all_goals simp_all

/-- Opening a file that was just created. -/
theorem opened_twice (fs : FileSystem α) (id : FileId) (truncate : Bool) :
    (fs.setNode id (opened none truncate)).setNode id
        (opened ((fs.setNode id (opened none truncate)).node id) truncate) =
      fs.setNode id (opened none truncate) := by
  have hn : (fs.setNode id (opened none truncate)).node id = some (opened none truncate) := by
    simp [setNode]
  have hsame : opened (some (opened (none : Option (Node α)) truncate)) truncate =
      opened none truncate := by
    simp [opened]
  rw [hn, hsame]
  exact setNode_self hn

theorem openOutputFile_ok {fs fs' : FileSystem α} {path : Path} {notrunc direct : Bool}
    {f : FileId} (h : fs.openOutputFile path notrunc direct = (.ok f, fs')) :
    f = fs.locate path ∧ fs' = fs.setNode (fs.locate path)
      (opened (fs.node (fs.locate path)) (!notrunc && fs.isRegularFileOrNew path)) := by
  obtain ⟨mid, d, r, hmid, hopen, hr⟩ := openOutputFile_cases h
  obtain rfl := hr f rfl
  obtain ⟨hf, hfs⟩ := openWrite_ok hopen
  rcases hmid with rfl | ⟨e, hrefused⟩
  · exact ⟨hf, hfs⟩
  rcases openWrite_error hrefused with rfl | ⟨hnone, rfl⟩
  · exact ⟨hf, hfs⟩
  · have hloc : (fs.setNode (fs.locate path) (opened none (!notrunc &&
        fs.isRegularFileOrNew path))).locate path = fs.locate path := rfl
    rw [hloc, opened_twice] at hfs
    rw [hnone]
    exact ⟨hf, hfs⟩

theorem content_opened (fs : FileSystem α) (path : Path) (notrunc : Bool) :
    (opened (fs.node (fs.locate path)) (!notrunc && fs.isRegularFileOrNew path)).content =
      if !notrunc && fs.isRegularFileOrNew path then [] else fs.content (fs.locate path) := by
  rcases hn : fs.node (fs.locate path) with _ | n
  · simp [opened, content, hn]
  · have hreg : fs.isRegularFileOrNew path = decide (n.kind = .regular) := by
      simp only [isRegularFileOrNew, lookup, hn]
    simp only [opened, content, hn, hreg]
    cases notrunc <;> by_cases hk : n.kind = .regular <;> simp [hk]

theorem openInputFile_ok {fs : FileSystem α} {path : Path} {direct : Bool} {f : FileId}
    (h : fs.openInputFile path direct = .ok f) : f = fs.locate path := by
  obtain ⟨d, hread⟩ := openInputFile_cases h
  simp only [openRead] at hread
  repeat' split at hread
  all_goals simp_all

end FileSystem

section Views

variable (cfg : Config) (w : World α)

/-- The bytes the named input or stdin holds. -/
def inputView : List α :=
  match cfg.input with
  | some inPath => w.fs.content (w.fs.locate inPath)
  | none => w.stdin

def outputView : List α :=
  match cfg.output with
  | some outPath => w.fs.content (w.fs.locate outPath)
  | none => w.stdout

/-- Whether opening the output empties it or finds it empty. -/
def truncates : Bool :=
  match cfg.output with
  | some outPath => !cfg.notrunc && w.fs.isRegularFileOrNew outPath
  | none => false

def sameFile : Bool :=
  match cfg.input, cfg.output with
  | some inPath, some outPath => w.fs.locate inPath = w.fs.locate outPath
  | _, _ => false

/-- Named files have positions; pipes are standard streams. -/
structure Seekable : Prop where
  input : ∀ inPath, cfg.input = some inPath → w.fs.seekable (w.fs.locate inPath) = true
  output : ∀ outPath, cfg.output = some outPath → w.fs.seekable (w.fs.locate outPath) = true

/-- What opening and copying leave of a world apart from contents. -/
structure SamePlaces (w w' : World α) : Prop where
  locate_eq : w'.fs.locate = w.fs.locate
  seekable_eq : ∀ id, w'.fs.seekable id = w.fs.seekable id
  truncates_eq : truncates cfg w' = truncates cfg w

variable {cfg w}

theorem SamePlaces.trans {w' w'' : World α} (h : SamePlaces cfg w w') (h' : SamePlaces cfg w' w'') :
    SamePlaces cfg w w'' :=
  ⟨h'.locate_eq.trans h.locate_eq, fun id => (h'.seekable_eq id).trans (h.seekable_eq id),
    h'.truncates_eq.trans h.truncates_eq⟩

theorem SamePlaces.sameFile_eq {w' : World α} (h : SamePlaces cfg w w') :
    sameFile cfg w' = sameFile cfg w := by
  simp only [sameFile, h.locate_eq]

theorem SamePlaces.seekable {w' : World α} (h : SamePlaces cfg w w') (hs : Seekable cfg w) :
    Seekable cfg w' := by
  refine ⟨fun p hp => ?_, fun p hp => ?_⟩
  · rw [h.locate_eq, h.seekable_eq]
    exact hs.input p hp
  · rw [h.locate_eq, h.seekable_eq]
    exact hs.output p hp

/-- Changing the content of a node that is there, or creating a regular one. -/
theorem samePlaces_setNode {fs : FileSystem α} {id : FileId} {n : Node α}
    (hn : n.kind = (match fs.node id with
      | some m => m.kind
      | none => .regular)) (stdin stdout : List α) (stats : Stats) (syncs : List SyncCall)
    (hfs : w.fs = fs) : SamePlaces cfg w ⟨fs.setNode id n, stdin, stdout, stats, syncs⟩ := by
  subst hfs
  refine ⟨rfl, fun j => ?_, ?_⟩
  · simp only [FileSystem.seekable, FileSystem.setNode]
    by_cases hj : j = id
    · subst hj
      simp only [if_true, hn]
      cases w.fs.node j <;> rfl
    · rw [if_neg hj]
  · simp only [truncates, FileSystem.isRegularFileOrNew, FileSystem.lookup, FileSystem.setNode]
    cases cfg.output with
    | none => rfl
    | some outPath =>
      by_cases hj : w.fs.locate outPath = id
      · subst hj
        simp only [if_true, hn]
        cases w.fs.node (w.fs.locate outPath) <;> simp
      · simp only [if_neg hj]

theorem opened_kind (found : Option (Node α)) (truncate : Bool) :
    (FileSystem.opened found truncate).kind = (match found with
      | some m => m.kind
      | none => .regular) := by
  cases found with
  | none => rfl
  | some m =>
    simp only [FileSystem.opened]
    split <;> rfl

theorem openSource_ok {i : OpenInput} (h : openSource w cfg = .ok i) :
    (match cfg.input with
      | some inPath => i = .file (w.fs.locate inPath) 0
      | none => i = .stdin) := by
  simp only [openSource] at h
  cases hin : cfg.input with
  | none =>
    rw [hin] at h
    exact (Except.ok.inj h).symm
  | some inPath =>
    rw [hin] at h
    simp only at h
    split at h
    · rename_i f hf
      rw [FileSystem.openInputFile_ok hf] at h
      exact (Except.ok.inj h).symm
    · simp at h

/-- An open output: where it stands, and what the open did to both contents. -/
structure Opened (cfg : Config) (w w' : World α) (o : OpenOutput) : Prop where
  samePlaces : SamePlaces cfg w w'
  stdin_eq : w'.stdin = w.stdin
  stats_eq : w'.stats = w.stats
  output_eq : outputView cfg w' = if truncates cfg w then [] else outputView cfg w
  input_eq : inputView cfg w' =
    if sameFile cfg w && truncates cfg w then [] else inputView cfg w
  sink_eq : o = match cfg.output with
    | some outPath => .file (w'.fs.locate outPath) 0
    | none => .stdout
  node_isSome : ∀ outPath, cfg.output = some outPath →
    (w'.fs.node (w'.fs.locate outPath)).isSome

theorem openSink_ok {w' : World α} {o : OpenOutput} (h : openSink w cfg = (.ok o, w')) :
    Opened cfg w w' o := by
  simp only [openSink] at h
  cases hout : cfg.output with
  | none =>
    rw [hout] at h
    obtain ⟨ho, rfl⟩ := Prod.mk.inj h
    have htr : truncates cfg w = false := by simp [truncates, hout]
    refine ⟨⟨rfl, fun _ => rfl, rfl⟩, rfl, rfl, ?_, ?_, ?_, ?_⟩
    · simp [htr]
    · simp [htr]
    · rw [hout]
      exact (Except.ok.inj ho).symm
    · intro outPath ho'
      rw [hout] at ho'
      cases ho'
  | some outPath =>
    rw [hout] at h
    simp only at h
    split at h
    · rename_i f fs hf
      obtain ⟨ho, rfl⟩ := Prod.mk.inj h
      obtain ⟨rfl, rfl⟩ := FileSystem.openOutputFile_ok hf
      have htr : truncates cfg w = (!cfg.notrunc && w.fs.isRegularFileOrNew outPath) := by
        simp only [truncates, hout]
      have hcontent := FileSystem.content_opened w.fs outPath cfg.notrunc
      refine ⟨samePlaces_setNode (opened_kind _ _) _ _ _ _ rfl, rfl, rfl, ?_, ?_, ?_, ?_⟩
      · simp only [outputView, hout]
        rw [htr, ← hcontent]
        simp [FileSystem.content, FileSystem.setNode]
      · cases hin : cfg.input with
        | none => simp [inputView, sameFile, hin]
        | some inPath =>
          simp only [inputView, sameFile, hin, hout]
          by_cases hs : w.fs.locate inPath = w.fs.locate outPath
          · simp only [hs, decide_true, Bool.true_and]
            rw [htr, ← hcontent]
            simp [FileSystem.content, FileSystem.setNode, hs]
          · simp [FileSystem.content, FileSystem.setNode, hs]
      · rw [hout]
        exact (Except.ok.inj ho).symm
      · intro path hpath
        rw [hout] at hpath
        obtain rfl := Option.some.inj hpath
        simp [FileSystem.setNode]
    · simp at h

/-- Where the first byte goes: the start of a named file, the end of stdout. -/
def outPos (cfg : Config) (w : World α) : Nat :=
  match cfg.output with
  | some _ => 0
  | none => w.stdout.length

theorem outPos_le (cfg : Config) (w : World α) : outPos cfg w ≤ (outputView cfg w).length := by
  simp only [outPos, outputView]
  cases cfg.output with
  | none => exact Nat.le_refl _
  | some outPath => exact Nat.zero_le _

theorem Opened.outPos_eq {w' : World α} {o : OpenOutput} (h : Opened cfg w w' o) :
    outPos cfg w' = outPos cfg w := by
  have hview := h.output_eq
  cases hc : cfg.output with
  | none =>
    simp only [truncates, outputView, hc, Bool.false_eq_true, if_false] at hview
    simp only [outPos, hc, hview]
  | some outPath => simp only [outPos, hc]

/-- A copy between the opened input and output, seen from their contents. -/
structure Copied {β : Type} (cfg : Config) (w w' : World α) (copy : CopyPath α β) (r : β) where
  opened : World α
  sink : OpenOutput
  effect : Effect α β
  isOpened : Opened cfg w opened sink
  opened_eq : opened = (openSink w cfg).2
  run_eq : copy (inputView cfg opened) (outputView cfg opened) (outPos cfg opened) opened.stats =
    some effect
  result_eq : effect.result = r
  samePlaces : SamePlaces cfg w w'
  output_eq : outputView cfg w' = effect.output
  input_eq : inputView cfg w' = match cfg.input with
    | some _ => if sameFile cfg w then effect.output else inputView cfg opened
    | none => effect.inputRest

theorem content_setContent (fs : FileSystem α) (id j : FileId) (c : List α)
    (h : (fs.node id).isSome) :
    (fs.setContent id c).content j = if j = id then c else fs.content j := by
  obtain ⟨n, hn⟩ := Option.isSome_iff_exists.mp h
  simp only [FileSystem.setContent, hn, FileSystem.content, FileSystem.setNode]
  by_cases hj : j = id <;> simp [hj]

theorem samePlaces_setContent (cfg : Config) (w : World α) (id : FileId) (c stdin stdout : List α)
    (stats : Stats) (syncs : List SyncCall) :
    SamePlaces cfg w ⟨w.fs.setContent id c, stdin, stdout, stats, syncs⟩ := by
  simp only [FileSystem.setContent]
  split
  · rename_i n hn
    exact samePlaces_setNode (by rw [hn]) _ _ _ _ rfl
  · exact ⟨rfl, fun _ => rfl, rfl⟩

theorem copied_of_runCopy {β : Type} {w1 w2 : World α} {i : OpenInput} {o : OpenOutput}
    {copy : CopyPath α β} {r : β} (hs : Seekable cfg w) (hi : openSource w cfg = .ok i)
    (ho : openSink w cfg = (.ok o, w1)) (h : w1.runCopy i o copy = some (r, w2)) :
    Nonempty (Copied cfg w w2 copy r) := by
  have hopen := openSink_ok ho
  have hsrc := openSource_ok hi
  have hs1 := hopen.samePlaces.seekable hs
  have hsink := hopen.sink_eq
  have hin : w1.inputBytes i = inputView cfg w1 := by
    cases hc : cfg.input with
    | none =>
      rw [hc] at hsrc
      simp [hsrc, World.inputBytes, inputView, hc]
    | some inPath =>
      rw [hc] at hsrc
      simp [hsrc, World.inputBytes, inputView, hc, hopen.samePlaces.locate_eq]
  have hout : w1.outputContent o = outputView cfg w1 := by
    cases hc : cfg.output with
    | none =>
      rw [hc] at hsink
      simp [hsink, World.outputContent, outputView, hc]
    | some outPath =>
      rw [hc] at hsink
      simp [hsink, World.outputContent, outputView, hc]
  have hpos : w1.outputPos o = outPos cfg w1 := by
    cases hc : cfg.output with
    | none =>
      rw [hc] at hsink
      simp [hsink, World.outputPos, outPos, hc]
    | some outPath =>
      rw [hc] at hsink
      simp [hsink, World.outputPos, outPos, hc, hs1.output outPath hc]
  simp only [World.runCopy, hin, hout, hpos] at h
  split at h
  · simp at h
  · rename_i e hrun
    obtain ⟨hr, rfl⟩ := Prod.mk.inj (Option.some.inj h)
    have hconsume : w1.consume i e.inputRest = match cfg.input with
        | some _ => w1
        | none => { w1 with stdin := e.inputRest } := by
      cases hc : cfg.input with
      | none =>
        rw [hc] at hsrc
        simp [hsrc, World.consume]
      | some inPath =>
        rw [hc] at hsrc
        have hseek := hs1.input inPath hc
        rw [hopen.samePlaces.locate_eq] at hseek
        simp [hsrc, World.consume, hseek]
    have hfs : (w1.consume i e.inputRest).fs = w1.fs := by
      rw [hconsume]
      cases cfg.input <;> rfl
    refine ⟨⟨w1, o, e, hopen, by rw [ho], hrun, hr, ?_, ?_, ?_⟩⟩
    · refine hopen.samePlaces.trans ?_
      rw [hsink]
      cases cfg.output with
      | none =>
        simp only [World.store, hfs]
        exact ⟨rfl, fun _ => rfl, by simp [truncates]⟩
      | some outPath =>
        simp only [World.store, hfs]
        exact samePlaces_setContent _ _ _ _ _ _ _ _
    · rw [hsink]
      cases hc : cfg.output with
      | none => simp [outputView, hc, World.store]
      | some outPath =>
        simp only [outputView, hc, World.store, hfs]
        rw [(samePlaces_setContent cfg w1 _ _ w1.stdin w1.stdout w1.stats
          w1.syncs).locate_eq, content_setContent _ _ _ _ (hopen.node_isSome outPath hc), if_pos rfl]
    · rw [hsink, ← hopen.samePlaces.sameFile_eq]
      cases hci : cfg.input with
      | none =>
        rw [hconsume, hci]
        cases cfg.output <;> simp [inputView, hci, World.store]
      | some inPath =>
        cases hc : cfg.output with
        | none => simp [inputView, hci, World.store, hfs, sameFile, hc]
        | some outPath =>
          simp only [inputView, hci, World.store, hfs, sameFile, hc, decide_eq_true_eq]
          rw [(samePlaces_setContent cfg w1 _ _ w1.stdin w1.stdout w1.stats
            w1.syncs).locate_eq, content_setContent _ _ _ _ (hopen.node_isSome outPath hc)]

end Views

end Blkcp.Rust
