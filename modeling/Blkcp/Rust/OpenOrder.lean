import Blkcp.Rust.Execute
set_option autoImplicit false

/-! What becomes of the output when the input cannot be opened. -/

namespace Blkcp.Rust

variable {α : Type}

namespace FileSystem

def Unopenable (fs : FileSystem α) (path : Path) : Prop := ∃ e, fs.openRead path false = .error e

/-- Opening the output for writing would create it or empty it. -/
def openChanges (fs : FileSystem α) (path : Path) (notrunc : Bool) : Bool :=
  match fs.lookup path with
  | none => fs.creatable (fs.locate path)
  | some n => decide (n.kind = .regular) && n.writable && !notrunc && !n.content.isEmpty

/-- Same paths, and no file has disappeared. -/
structure Keeps (fs fs' : FileSystem α) : Prop where
  locate_eq : fs'.locate = fs.locate
  node_isSome : ∀ id, (fs.node id).isSome → (fs'.node id).isSome

namespace Keeps

theorem refl (fs : FileSystem α) : Keeps fs fs := ⟨rfl, fun _ h => h⟩

theorem trans {fs fs' fs'' : FileSystem α} (h : Keeps fs fs') (h' : Keeps fs' fs'') :
    Keeps fs fs'' :=
  ⟨h'.locate_eq.trans h.locate_eq, fun id hid => h'.node_isSome id (h.node_isSome id hid)⟩

theorem lookup_isSome {fs fs' : FileSystem α} (h : Keeps fs fs') {path : Path}
    (hp : (fs.lookup path).isSome) : (fs'.lookup path).isSome := by
  rw [lookup, h.locate_eq]
  exact h.node_isSome _ hp

end Keeps

theorem keeps_setNode (fs : FileSystem α) (id : FileId) (n : Node α) :
    Keeps fs (fs.setNode id n) := by
  refine ⟨rfl, fun j hj => ?_⟩
  simp only [setNode]
  split
  · rfl
  · exact hj

theorem setNode_self {fs : FileSystem α} {id : FileId} {n : Node α} (h : fs.node id = some n) :
    fs.setNode id n = fs := by
  have hnode : (fun j => if j = id then some n else fs.node j) = fs.node := by
    funext j
    split
    · rename_i hj
      rw [hj, h]
    · rfl
  rw [setNode, hnode]

theorem keeps_setContent (fs : FileSystem α) (id : FileId) (content : List α) :
    Keeps fs (fs.setContent id content) := by
  rw [setContent]
  split
  · exact keeps_setNode _ _ _
  · exact .refl fs

theorem keeps_openWrite (fs : FileSystem α) (path : Path) (truncate direct : Bool) :
    Keeps fs (fs.openWrite path truncate direct).2 := by
  simp only [openWrite]
  repeat' split
  all_goals first
    | exact .refl fs
    | exact keeps_setNode _ _ _

theorem keeps_openOutputFile (fs : FileSystem α) (path : Path) (notrunc direct : Bool) :
    Keeps fs (fs.openOutputFile path notrunc direct).2 := by
  obtain ⟨mid, d, r, hmid, hopen, -⟩ := openOutputFile_cases
    (Prod.mk.eta (p := fs.openOutputFile path notrunc direct)).symm
  have hlast := keeps_openWrite mid path (!notrunc && fs.isRegularFileOrNew path) d
  rw [hopen] at hlast
  rcases hmid with rfl | ⟨e, hrefused⟩
  · exact hlast
  · have hfirst := keeps_openWrite fs path (!notrunc && fs.isRegularFileOrNew path) true
    rw [hrefused] at hfirst
    exact hfirst.trans hlast

theorem openInputFile_of_unopenable {fs : FileSystem α} {path : Path} (h : fs.Unopenable path)
    (direct : Bool) : ∃ e, fs.openInputFile path direct = .error e := by
  obtain ⟨e, he⟩ := h
  have hdirect : ∃ e, fs.openRead path true = .error e := by
    simp only [openRead] at he ⊢
    cases hn : fs.node (fs.locate path) with
    | none => exact ⟨_, rfl⟩
    | some n =>
      by_cases hr : n.readable
      · simp [hn, hr] at he
      · exact ⟨.eacces, by simp [hr]⟩
  obtain ⟨e', he'⟩ := hdirect
  exact ⟨"Failed to open input '" ++ path ++ "': " ++ e.text, by simp [openInputFile, he, he']⟩

/-- What a plain open of the output leaves. -/
theorem openOutputFile_plain (fs : FileSystem α) (path : Path) (notrunc : Bool) :
    (fs.openOutputFile path notrunc false).2 =
      match fs.lookup path with
      | none =>
        if fs.creatable (fs.locate path) then
          fs.setNode (fs.locate path) ⟨.regular, [], true, true⟩
        else fs
      | some n =>
        if n.kind = .regular ∧ n.writable ∧ !notrunc then
          fs.setNode (fs.locate path) { n with content := [] }
        else fs := by
  rcases hn : fs.node (fs.locate path) with _ | n
  · by_cases hc : fs.creatable (fs.locate path) <;>
      simp [openOutputFile, openWrite, lookup, hn, hc]
  · by_cases hk : n.kind = .regular <;> by_cases hw : n.writable <;> cases notrunc <;>
      by_cases hd : n.kind = .directory <;>
      simp_all [openOutputFile, openWrite, isRegularFileOrNew, lookup]

theorem openOutputFile_eq_self {fs : FileSystem α} {path : Path} {notrunc : Bool}
    (h : fs.openChanges path notrunc = false) :
    (fs.openOutputFile path notrunc false).2 = fs := by
  rw [openOutputFile_plain]
  simp only [openChanges, lookup] at h ⊢
  rcases hn : fs.node (fs.locate path) with _ | n
  · simp_all
  · simp only [hn, Bool.and_eq_false_iff, decide_eq_false_iff_not] at h ⊢
    split
    · rename_i hopen
      have hempty : n.content = [] := by simp_all
      have hself : ({ n with content := [] } : Node α) = n := by rw [← hempty]
      rw [hself]
      exact setNode_self hn
    · rfl

/-- Opening an existing output does not make another file readable. -/
theorem unopenable_openOutputFile {fs : FileSystem α} {inPath outPath : Path} {notrunc : Bool}
    (h : fs.Unopenable inPath) (hout : (fs.lookup outPath).isSome) :
    (fs.openOutputFile outPath notrunc false).2.Unopenable inPath := by
  rw [openOutputFile_plain]
  obtain ⟨n, hn⟩ := Option.isSome_iff_exists.mp hout
  rw [hn]
  simp only
  split
  · obtain ⟨e, he⟩ := h
    refine ⟨e, ?_⟩
    simp only [openRead, setNode, lookup] at he hn ⊢
    by_cases hid : fs.locate inPath = fs.locate outPath
    · simpa [hid, hn] using he
    · simpa [hid] using he
  · exact h

theorem lookup_openOutputFile_ne {fs : FileSystem α} {path : Path} {notrunc : Bool}
    (h : fs.openChanges path notrunc = true) :
    (fs.openOutputFile path notrunc false).2.lookup path ≠ fs.lookup path := by
  rw [openOutputFile_plain]
  simp only [openChanges, lookup] at h ⊢
  rcases hn : fs.node (fs.locate path) with _ | n
  · simp_all [setNode]
  · simp only [hn, Bool.and_eq_true, decide_eq_true_eq] at h
    obtain ⟨⟨⟨hk, hw⟩, ht⟩, hc⟩ := h
    have hne : ({ n with content := [] } : Node α) ≠ n := by
      intro he
      rw [← he] at hc
      simp at hc
    simpa only [if_pos (And.intro hk (And.intro hw ht)), setNode, if_true, ne_eq,
      Option.some.injEq] using hne

end FileSystem

theorem keeps_runCopy {β : Type} {w w' : World α} {i : OpenInput} {o : OpenOutput}
    {copy : CopyPath α β} {r : β} (h : w.runCopy i o copy = some (r, w')) : w.fs.Keeps w'.fs := by
  have hconsume : ∀ rest, w.fs.Keeps (w.consume i rest).fs := by
    intro rest
    cases i with
    | file id pos =>
      simp only [World.consume]
      split
      · exact .refl _
      · exact FileSystem.keeps_setContent _ _ _
    | stdin => exact .refl _
  have hstore : ∀ (w : World α) content, w.fs.Keeps (w.store o content).fs := by
    intro w content
    cases o with
    | file id pos => exact FileSystem.keeps_setContent _ _ _
    | stdout => exact .refl _
  simp only [World.runCopy] at h
  split at h
  · simp at h
  · simp only [Option.some.injEq, Prod.mk.injEq] at h
    obtain ⟨-, rfl⟩ := h
    exact (hconsume _).trans (hstore _ _)

/-- A path of the function that returns or falls through loses no file. -/
def PathResult.Keeps (w : World α) (r : PathResult α) : Prop :=
  ∀ x w', r = some (x, w') → w.fs.Keeps w'.fs

theorem keeps_orElse {w : World α} {r : PathResult α} {next : World α → PathResult α}
    (hr : r.Keeps w) (hnext : ∀ w, (next w).Keeps w) : (r.orElse next).Keeps w := by
  intro x w' h
  simp only [PathResult.orElse] at h
  split at h
  · rename_i w1
    exact (hr _ _ rfl).trans (hnext _ _ _ h)
  · exact hr _ _ h

theorem syncFile_fs (cfg : Config) (o : OpenOutput) (w : World α) :
    (syncFile cfg o w).fs = w.fs := by
  cases o with
  | file id pos =>
    simp only [syncFile]
    repeat' split
    all_goals rfl
  | stdout => rfl

theorem keeps_openSink (w : World α) (cfg : Config) : w.fs.Keeps (openSink w cfg).2.fs := by
  simp only [openSink]
  split
  · rename_i outPath _
    have h := FileSystem.keeps_openOutputFile w.fs outPath cfg.notrunc cfg.direct
    split <;> simp_all
  · exact .refl _

theorem keeps_openAndCopy (cfg : Config) (w : World α)
    (copy : CopyPath α (Except String HashInfo)) : (openAndCopy cfg w copy).Keeps w := by
  have hsink := keeps_openSink w cfg
  intro x w' h
  simp only [openAndCopy] at h
  split at h
  · obtain ⟨-, rfl⟩ := by simpa using h
    exact .refl _
  · split at h
    · obtain ⟨-, rfl⟩ := by simpa using h
      exact .refl _
    · split at h
      · rename_i hs
        rw [hs] at hsink
        obtain ⟨-, rfl⟩ := by simpa using h
        exact hsink
      · rename_i hs
        rw [hs] at hsink
        split at h
        · obtain ⟨-, rfl⟩ := by simpa using h
          exact hsink
        · split at h
          · simp at h
          · rename_i hc
            obtain ⟨-, rfl⟩ := by simpa using h
            exact hsink.trans (keeps_runCopy hc)
          · rename_i hc
            obtain ⟨-, rfl⟩ := by simpa using h
            rw [syncFile_fs]
            exact hsink.trans (keeps_runCopy hc)

variable (E : Engines α) (cfg : Config)

theorem keeps_splicePath (w : World α) : (splicePath E cfg w).Keeps w := by
  have hsink := keeps_openSink w cfg
  intro x w' h
  simp only [splicePath] at h
  split at h
  · split at h
    · obtain ⟨-, rfl⟩ := by simpa using h
      exact .refl _
    · split at h
      · rename_i hs
        rw [hs] at hsink
        obtain ⟨-, rfl⟩ := by simpa using h
        exact hsink
      · rename_i hs
        rw [hs] at hsink
        split at h
        · simp at h
        · rename_i hc
          obtain ⟨-, rfl⟩ := by simpa using h
          rw [syncFile_fs]
          exact hsink.trans (keeps_runCopy hc)
        · rename_i hc
          obtain ⟨-, rfl⟩ := by simpa using h
          exact hsink.trans (keeps_runCopy hc)
  · obtain ⟨-, rfl⟩ := by simpa using h
    exact .refl _

theorem keeps_asyncPath (w : World α) : (asyncPath E cfg w).Keeps w := by
  simp only [asyncPath]
  split
  · exact keeps_openAndCopy cfg w _
  · intro x w' h
    obtain ⟨-, rfl⟩ := by simpa using h
    exact .refl _

theorem keeps_uringPath (w : World α) : (uringPath E cfg w).Keeps w := by
  intro x w' h
  simp only [uringPath] at h
  split at h
  · split at h
    · rename_i inPath outPath _ _
      have hopen := FileSystem.keeps_openOutputFile w.fs outPath cfg.notrunc cfg.direct
      split at h
      · split at h
        · obtain ⟨-, rfl⟩ := by simpa using h
          exact .refl _
        · split at h
          · rename_i hs
            rw [hs] at hopen
            obtain ⟨-, rfl⟩ := by simpa using h
            exact hopen
          · rename_i hs
            rw [hs] at hopen
            split at h
            · simp at h
            · rename_i hc
              obtain ⟨-, rfl⟩ := by simpa using h
              rw [syncFile_fs]
              exact hopen.trans (keeps_runCopy hc)
            · rename_i hc
              obtain ⟨-, rfl⟩ := by simpa using h
              exact hopen.trans (keeps_runCopy hc)
      · obtain ⟨-, rfl⟩ := by simpa using h
        exact .refl _
    · obtain ⟨-, rfl⟩ := by simpa using h
      exact .refl _
  · obtain ⟨-, rfl⟩ := by simpa using h
    exact .refl _

theorem keeps_syncPath (w : World α) : (syncPath E cfg w).Keeps w := by
  have hcopy := keeps_openAndCopy cfg w (E.transferLoop cfg)
  intro x w' h
  simp only [syncPath] at h
  split at h
  · rename_i hc
    have hk := hcopy _ _ hc
    obtain ⟨-, rfl⟩ := by simpa using h
    split
    · exact hk
    · exact hk
  · exact hcopy _ _ h

/-- What follows the reflink attempt. -/
def laterPaths (w : World α) : PathResult α :=
  (splicePath E cfg w).orElse fun w =>
    (asyncPath E cfg w).orElse fun w =>
      (uringPath E cfg w).orElse fun w => syncPath E cfg w

theorem executeTransferWithControl_eq (w : World α) :
    executeTransferWithControl E cfg w = (reflinkPath E cfg w).orElse (laterPaths E cfg) := rfl

theorem keeps_laterPaths (w : World α) : (laterPaths E cfg w).Keeps w :=
  keeps_orElse (keeps_splicePath E cfg w) fun w =>
    keeps_orElse (keeps_asyncPath E cfg w) fun w =>
      keeps_orElse (keeps_uringPath E cfg w) fun w => keeps_syncPath E cfg w

section Unopenable

variable {cfg}
variable {w : World α} {inPath outPath : Path}

theorem openSource_of_unopenable (hin : cfg.input = some inPath)
    (h : w.fs.Unopenable inPath) : ∃ e, openSource w cfg = .error e := by
  obtain ⟨e, he⟩ := FileSystem.openInputFile_of_unopenable h cfg.direct
  exact ⟨e, by simp only [openSource, hin, he]⟩

/-- Every later path opens the input first and gives up before it touches the output. -/
theorem laterPaths_of_unopenable (hin : cfg.input = some inPath) (h : w.fs.Unopenable inPath) :
    ∃ e, laterPaths E cfg w = some (some (.error e), w) := by
  obtain ⟨e, he⟩ := openSource_of_unopenable hin h
  have hsync : syncPath E cfg w = some (some (.error e), w) := by
    simp only [syncPath, openAndCopy, he]
  have huring : ∃ e, (uringPath E cfg w).orElse (syncPath E cfg) = some (some (.error e), w) := by
    obtain ⟨e', he'⟩ := FileSystem.openInputFile_of_unopenable h cfg.direct
    simp only [uringPath, hin]
    split
    · split
      · rename_i _ _ hin' _
        obtain rfl := Option.some.inj hin'
        split
        · rw [he']
          exact ⟨e', rfl⟩
        · exact ⟨e, hsync⟩
      · exact ⟨e, hsync⟩
    · exact ⟨e, hsync⟩
  have hasync : ∃ e, (asyncPath E cfg w).orElse (fun w =>
      (uringPath E cfg w).orElse (syncPath E cfg)) = some (some (.error e), w) := by
    simp only [asyncPath]
    split
    · exact ⟨e, by simp only [openAndCopy, he, PathResult.orElse]⟩
    · exact huring
  simp only [laterPaths, splicePath]
  split
  · exact ⟨e, by simp only [he, PathResult.orElse]⟩
  · exact hasync

theorem reflinkPath_of_unopenable (hin : cfg.input = some inPath)
    (hout : cfg.output = some outPath) (h : w.fs.Unopenable inPath) :
    reflinkPath E cfg w = some (none, if canUseReflink cfg && cfg.threads ≤ 1 then
      { w with fs := (w.fs.openOutputFile outPath cfg.notrunc false).2 } else w) := by
  obtain ⟨e, he⟩ := FileSystem.openInputFile_of_unopenable h false
  simp only [reflinkPath, hin, hout, he]
  split
  · rfl
  · rfl

/-- With an input that cannot be opened, the function fails and leaves the output alone exactly
when no reflink attempt opens, and by that creates or empties, the output. -/
theorem executeTransferWithControl_unopenable (hin : cfg.input = some inPath)
    (hout : cfg.output = some outPath) (h : w.fs.Unopenable inPath) :
    (∃ e w', executeTransferWithControl E cfg w = some (some (.error e), w') ∧
        w'.fs.lookup outPath = w.fs.lookup outPath) ↔
      ¬ (canUseReflink cfg = true ∧ cfg.threads ≤ 1 ∧
        w.fs.openChanges outPath cfg.notrunc = true) := by
  rw [executeTransferWithControl_eq, reflinkPath_of_unopenable E hin hout h]
  simp only [PathResult.orElse]
  by_cases hgate : canUseReflink cfg = true ∧ cfg.threads ≤ 1
  · rw [if_pos (by simpa using hgate)]
    cases hc : w.fs.openChanges outPath cfg.notrunc with
    | false =>
      rw [FileSystem.openOutputFile_eq_self hc]
      obtain ⟨e, he⟩ := laterPaths_of_unopenable E hin h
      simp only [Bool.false_eq_true, and_false, not_false_eq_true, iff_true]
      exact ⟨e, w, he, rfl⟩
    | true =>
      simp only [hgate, and_self, not_true_eq_false, iff_false]
      rintro ⟨e, w', hrun, hsame⟩
      have hne := FileSystem.lookup_openOutputFile_ne hc
      rcases hn : w.fs.lookup outPath with _ | n
      · -- created: whatever runs afterwards, the file is there
        have hsome : ((w.fs.openOutputFile outPath cfg.notrunc false).2.lookup outPath).isSome :=
          Option.isSome_iff_ne_none.mpr (hn ▸ hne)
        have hkept := (keeps_laterPaths E cfg _ _ _ hrun).lookup_isSome hsome
        rw [hsame, hn] at hkept
        simp at hkept
      · -- emptied: the input still cannot be opened
        have h' : (w.fs.openOutputFile outPath cfg.notrunc false).2.Unopenable inPath :=
          FileSystem.unopenable_openOutputFile h (by rw [hn]; rfl)
        obtain ⟨e', he'⟩ := laterPaths_of_unopenable E
          (w := { w with fs := (w.fs.openOutputFile outPath cfg.notrunc false).2 }) hin h'
        rw [he'] at hrun
        simp only [Option.some.injEq, Prod.mk.injEq] at hrun
        obtain ⟨-, rfl⟩ := hrun
        exact hne hsame
  · rw [if_neg (by simpa using hgate)]
    obtain ⟨e, he⟩ := laterPaths_of_unopenable E hin h
    exact ⟨fun _ hand => hgate ⟨hand.1, hand.2.1⟩, fun _ => ⟨e, w, he, rfl⟩⟩

end Unopenable

section Example

/-- `out` holds one byte, there is no `in`. -/
def missingInput : World Blks.Byte where
  fs :=
    { locate := fun path => if path = "out" then 1 else 0
      node := fun id => if id = 1 then some ⟨.regular, [7], true, true⟩ else none
      creatable := fun _ => true
      directSupported := fun _ => true }
  stdin := []
  stdout := []
  stats := {}
  syncs := []

/-- Engines that copy nothing. -/
def idleEngines : Engines α where
  tryReflinkCopy _ input output _ stats := some ⟨.ok false, input, output, stats⟩
  trySpliceCopy _ input output _ stats := some ⟨.ok false, input, output, stats⟩
  executeAsyncTransfer _ input output _ stats := some ⟨.ok none, input, output, stats⟩
  executeUringTransfer _ input output _ stats := some ⟨.ok none, input, output, stats⟩
  transferLoop _ input output _ stats := some ⟨.ok none, input, output, stats⟩

/-- With the default engine the missing input costs the output its content. -/
theorem missingInput_truncates :
    ¬ ∃ e w', executeTransferWithControl idleEngines
        { input := some "in", output := some "out" } missingInput = some (some (.error e), w') ∧
      w'.fs.lookup "out" = missingInput.fs.lookup "out" := by
  rintro ⟨e, w', hrun, hsame⟩
  have hcut : ∃ e w1, executeTransferWithControl idleEngines
      { input := some "in", output := some "out" } missingInput = some (some (.error e), w1) ∧
      w1.fs.lookup "out" = some ⟨.regular, [], true, true⟩ := ⟨_, _, rfl, rfl⟩
  obtain ⟨e1, w1, hrun1, hlook⟩ := hcut
  rw [hrun] at hrun1
  simp only [Option.some.injEq, Prod.mk.injEq] at hrun1
  obtain ⟨-, rfl⟩ := hrun1
  rw [hlook] at hsame
  exact absurd hsame (by decide)

theorem executeTransferWithControl_missingInput :
    (∃ e w', executeTransferWithControl idleEngines
        { input := some "in", output := some "out", engine := .sync } missingInput =
          some (some (.error e), w') ∧
        w'.fs.lookup "out" = missingInput.fs.lookup "out") ↔
      ¬ (canUseReflink { input := some "in", output := some "out", engine := .sync } = true ∧
        (1 : Nat) ≤ 1 ∧ missingInput.fs.openChanges "out" false = true) :=
  executeTransferWithControl_unopenable idleEngines rfl rfl ⟨.enoent, rfl⟩

end Example

end Blkcp.Rust
