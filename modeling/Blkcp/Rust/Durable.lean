import Blkcp.Rust.OpenOrder
import Blkcp.Rust.Views
set_option autoImplicit false

/-! Which sync call a copy makes on its output, and what its result says about it. -/

namespace Blkcp.Rust

variable {α : Type} {cfg : Config} {w w' : World α} {outPath : Path}

/-- The call is on this file and no weaker than what is asked for. -/
def SyncCall.covers (cfg : Config) (id : FileId) : SyncCall → Bool
  | .syncAll f => f = id
  | .syncData f => f = id && !cfg.fsync
  | .flushStdout => false

/-- A sync call that covers the output was made since `w`, and succeeded. -/
def Durable (cfg : Config) (succeeds : SyncCall → Bool) (id : FileId) (w w' : World α) : Prop :=
  ∃ call ∈ w'.syncs.drop w.syncs.length, call.covers cfg id = true ∧ succeeds call = true

/-- The call after every copy but one by `copy_file_range`. -/
def lastSync (cfg : Config) (id : FileId) : SyncCall :=
  if cfg.fdatasync then .syncData id else .syncAll id

theorem covers_lastSync (id : FileId) :
    (lastSync cfg id).covers cfg id = true ↔ ¬(cfg.fdatasync = true ∧ cfg.fsync = true) := by
  rw [lastSync]
  split
  · rename_i hdata
    simp [SyncCall.covers, hdata]
  · rename_i hdata
    simp [SyncCall.covers, hdata]

/-- A path of the function that falls through makes no sync call, and one that returns this one. -/
structure PathResult.Syncs (w : World α) (call : SyncCall) (r : PathResult α) : Prop where
  falls : ∀ w', r = some (none, w') → w'.syncs = w.syncs
  returns : ∀ hash w', r = some (some (.ok hash), w') → w'.syncs = w.syncs ++ [call]

theorem PathResult.Syncs.congr {call : SyncCall} {w₁ : World α} {r : PathResult α}
    (h : r.Syncs w₁ call) (hw : w₁.syncs = w.syncs) : r.Syncs w call :=
  ⟨fun w' hr => (h.falls w' hr).trans hw,
    fun hash w' hr => by rw [h.returns hash w' hr, hw]⟩

theorem PathResult.Syncs.orElse {call : SyncCall} {r : PathResult α}
    {next : World α → PathResult α} (hr : r.Syncs w call) (hkeep : r.Keeps w)
    (hnext : ∀ w₁, w.fs.Keeps w₁.fs → (next w₁).Syncs w₁ call) : (r.orElse next).Syncs w call := by
  cases hcase : r with
  | none => exact ⟨nofun, nofun⟩
  | some x =>
    obtain ⟨_ | res, w₁⟩ := x
    · exact (hnext w₁ (hkeep _ _ hcase)).congr (hr.falls w₁ hcase)
    · rwa [hcase] at hr

theorem syncs_runCopy {β : Type} {i : OpenInput} {o : OpenOutput} {copy : CopyPath α β} {r : β}
    (h : w.runCopy i o copy = some (r, w')) : w'.syncs = w.syncs := by
  have hconsume : ∀ rest, (w.consume i rest).syncs = w.syncs := by
    intro rest
    cases i with
    | file id pos =>
      rw [World.consume]
      split <;> rfl
    | stdin => rfl
  have hstore : ∀ (w : World α) content, (w.store o content).syncs = w.syncs := by
    intro w content
    cases o <;> rfl
  simp only [World.runCopy] at h
  split at h
  · cases h
  · obtain ⟨-, rfl⟩ := Prod.mk.inj (Option.some.inj h)
    exact (hstore _ _).trans (hconsume _)

theorem seekOutputOrStay_file (fs : FileSystem α) (id : FileId) (pos n : Nat) :
    ∃ pos', seekOutputOrStay fs (.file id pos) n = .file id pos' := by
  simp only [seekOutputOrStay, seekOutput]
  split
  · split
    · rename_i h
      split at h
      · exact ⟨n, (Except.ok.inj h).symm⟩
      · cases h
    · exact ⟨pos, rfl⟩
  · exact ⟨pos, rfl⟩

theorem seekOutputOrFail_file {fs : FileSystem α} {id : FileId} {pos n : Nat} {o : OpenOutput}
    (h : seekOutputOrFail fs (.file id pos) n = .ok o) : ∃ pos', o = .file id pos' := by
  simp only [seekOutputOrFail, seekOutput] at h
  split at h
  · split at h
    · rename_i hseek
      split at hseek
      · obtain rfl := Except.ok.inj hseek
        exact ⟨n, (Except.ok.inj h).symm⟩
      · cases hseek
    · cases h
  · exact ⟨pos, (Except.ok.inj h).symm⟩

theorem openSink_syncs {r : Except String OpenOutput} (h : openSink w cfg = (r, w')) :
    w'.syncs = w.syncs := by
  simp only [openSink] at h
  split at h
  · split at h <;> obtain ⟨-, rfl⟩ := Prod.mk.inj h <;> rfl
  · obtain ⟨-, rfl⟩ := Prod.mk.inj h
    rfl

section Requested

variable (E : Engines α)

theorem openSink_file (hout : cfg.output = some outPath) {o : OpenOutput}
    (h : openSink w cfg = (.ok o, w')) : o = .file (w.fs.locate outPath) 0 := by
  simp only [openSink, hout] at h
  split at h
  · rename_i hopen
    obtain ⟨ho, -⟩ := Prod.mk.inj h
    obtain ⟨rfl, -⟩ := FileSystem.openOutputFile_ok hopen
    exact (Except.ok.inj ho).symm
  · cases h

theorem syncFile_file (hreq : cfg.fdatasync = true ∨ cfg.fsync = true) (id : FileId) (pos : Nat)
    (w : World α) : syncFile cfg (.file id pos) w = w.logSync (lastSync cfg id) := by
  rw [syncFile, lastSync]
  split
  · rfl
  · rename_i hdata
    rw [if_pos (hreq.resolve_left hdata)]

theorem syncs_openAndCopy (hout : cfg.output = some outPath)
    (hreq : cfg.fdatasync = true ∨ cfg.fsync = true)
    (copy : CopyPath α (Except String HashInfo)) (w : World α) :
    (openAndCopy cfg w copy).Syncs w (lastSync cfg (w.fs.locate outPath)) := by
  refine ⟨fun w' h => ?_, fun hash w' h => ?_⟩
  · simp only [openAndCopy] at h
    repeat' split at h
    all_goals cases h
  · simp only [openAndCopy] at h
    repeat' split at h
    all_goals try cases h
    rename_i hsink _ _ hseek _ _ hcopy
    obtain rfl := openSink_file hout hsink
    obtain ⟨pos, rfl⟩ := seekOutputOrFail_file hseek
    rw [syncFile_file hreq]
    show _ ++ _ = _
    rw [syncs_runCopy hcopy, openSink_syncs hsink]

theorem syncs_splicePath (hout : cfg.output = some outPath)
    (hreq : cfg.fdatasync = true ∨ cfg.fsync = true) (w : World α) :
    (splicePath E cfg w).Syncs w (lastSync cfg (w.fs.locate outPath)) := by
  refine ⟨fun w' h => ?_, fun hash w' h => ?_⟩
  · simp only [splicePath] at h
    repeat' split at h
    all_goals try cases h
    · rename_i hsink _ _ _ hcopy
      rw [syncs_runCopy hcopy, openSink_syncs hsink]
    · rfl
  · simp only [splicePath] at h
    repeat' split at h
    all_goals try cases h
    rename_i w₁ hsink _ w₂ hcopy
    obtain rfl := openSink_file hout hsink
    obtain ⟨pos, hseek⟩ := seekOutputOrStay_file w₁.fs (w.fs.locate outPath) 0 cfg.seekBytes
    rw [hseek, syncFile_file hreq]
    show _ ++ _ = _
    rw [syncs_runCopy hcopy, openSink_syncs hsink]

theorem syncs_uringPath (hout : cfg.output = some outPath)
    (hreq : cfg.fdatasync = true ∨ cfg.fsync = true) (w : World α) :
    (uringPath E cfg w).Syncs w (lastSync cfg (w.fs.locate outPath)) := by
  refine ⟨fun w' h => ?_, fun hash w' h => ?_⟩
  · simp only [uringPath, hout] at h
    repeat' split at h
    all_goals try cases h
    · rename_i hcopy
      exact (syncs_runCopy hcopy :)
    all_goals rfl
  · simp only [uringPath, hout] at h
    repeat' split at h
    all_goals try cases h
    rename_i hpath _ _ _ _ _ _ _ hopen _ _ hcopy
    obtain rfl := Option.some.inj hpath
    obtain ⟨rfl, -⟩ := FileSystem.openOutputFile_ok hopen
    rw [syncFile_file hreq]
    show _ ++ _ = _
    rw [syncs_runCopy hcopy]

theorem syncs_asyncPath (hout : cfg.output = some outPath)
    (hreq : cfg.fdatasync = true ∨ cfg.fsync = true) (w : World α) :
    (asyncPath E cfg w).Syncs w (lastSync cfg (w.fs.locate outPath)) := by
  rw [asyncPath]
  split
  · exact syncs_openAndCopy hout hreq _ w
  · refine ⟨fun w' h => ?_, by simp⟩
    obtain ⟨-, rfl⟩ := Prod.mk.inj (Option.some.inj h)
    rfl

theorem syncs_syncPath (hout : cfg.output = some outPath)
    (hreq : cfg.fdatasync = true ∨ cfg.fsync = true) (w : World α) :
    (syncPath E cfg w).Syncs w (lastSync cfg (w.fs.locate outPath)) := by
  have hcopy := syncs_openAndCopy hout hreq (E.transferLoop cfg) w
  have hstdout : (cfg.output.isNone && (cfg.fdatasync || cfg.fsync)) = false := by
    rw [hout]
    rfl
  rw [syncPath, hstdout]
  split
  · rename_i hash w' heq
    refine ⟨by simp, fun hash' w'' h => ?_⟩
    obtain ⟨-, rfl⟩ := Prod.mk.inj (Option.some.inj h)
    exact hcopy.returns _ _ heq
  · exact hcopy

/-- `copy_file_range` copies all of it. -/
def ReflinkCopies (E : Engines α) (cfg : Config) (w : World α) : Prop :=
  (canUseReflink cfg && cfg.threads ≤ 1) = true ∧ ∃ inPath outPath inF outF,
    cfg.input = some inPath ∧ cfg.output = some outPath ∧
    w.fs.openInputFile inPath false = .ok inF ∧
    (w.fs.openOutputFile outPath cfg.notrunc false).1 = .ok outF ∧
    let fs := (w.fs.openOutputFile outPath cfg.notrunc false).2
    ∃ w', ({ w with fs := fs } : World α).runCopy
      (seekInputOrStay fs (.file inF 0) cfg.skipBytes)
      (seekOutputOrStay fs (.file outF 0) cfg.seekBytes) (E.tryReflinkCopy cfg) =
        some (.ok true, w')

theorem ReflinkCopies.reflinkPath_eq (h : ReflinkCopies E cfg w) :
    ∃ w', reflinkPath E cfg w = some (some (.ok none), w') := by
  obtain ⟨huse, inPath, outPath, inF, outF, hin, hout, hopenIn, hopenOut, w', hcopy⟩ := h
  simp only [reflinkPath, huse, hin, hout, hopenIn, hopenOut, hcopy, if_true]
  exact ⟨_, rfl⟩

theorem reflinkPath_falls {w' : World α} (h : reflinkPath E cfg w = some (none, w')) :
    ¬ReflinkCopies E cfg w ∧ w'.syncs = w.syncs := by
  refine ⟨fun hcopies => ?_, ?_⟩
  · obtain ⟨w₁, hpath⟩ := hcopies.reflinkPath_eq
    rw [hpath] at h
    cases h
  · simp only [reflinkPath] at h
    repeat' split at h
    all_goals try cases h
    · rename_i hcopy
      exact (syncs_runCopy hcopy :)
    all_goals rfl

theorem keeps_reflinkPath (w : World α) : (reflinkPath E cfg w).Keeps w := by
  intro x w' h
  simp only [reflinkPath] at h
  split at h
  · split at h
    · rename_i outPath _ _
      have hopen := FileSystem.keeps_openOutputFile w.fs outPath cfg.notrunc false
      split at h
      · split at h
        · cases h
        all_goals
          rename_i hcopy
          have hkept := keeps_runCopy hcopy
          obtain ⟨-, rfl⟩ := Prod.mk.inj (Option.some.inj h)
        · split <;> exact hopen.trans hkept
        · exact hopen.trans hkept
        · exact hopen.trans hkept
      · obtain ⟨-, rfl⟩ := Prod.mk.inj (Option.some.inj h)
        exact hopen
    · obtain ⟨-, rfl⟩ := Prod.mk.inj (Option.some.inj h)
      exact .refl _
  · obtain ⟨-, rfl⟩ := Prod.mk.inj (Option.some.inj h)
    exact .refl _

theorem reflinkPath_returns (hout : cfg.output = some outPath)
    (hreq : cfg.fdatasync = true ∨ cfg.fsync = true) {w' : World α} {hash : HashInfo}
    (h : reflinkPath E cfg w = some (some (.ok hash), w')) :
    ReflinkCopies E cfg w ∧ w'.syncs = w.syncs ++ [.syncAll (w.fs.locate outPath)] := by
  have hasked : (cfg.fdatasync || cfg.fsync) = true := Bool.or_eq_true_iff.mpr hreq
  simp only [reflinkPath, hout, hasked, if_true] at h
  repeat' split at h
  all_goals try cases h
  rename_i huse _ _ inPath _ hin hpath _ _ inF outF hopenIn hopenOut _ w₁ hcopy
  obtain rfl := Option.some.inj hpath
  refine ⟨⟨huse, inPath, outPath, inF, outF, hin, hout, hopenIn, hopenOut, w₁, hcopy⟩, ?_⟩
  obtain ⟨rfl, -⟩ := FileSystem.openOutputFile_ok (Prod.ext hopenOut rfl)
  show _ ++ _ = _
  rw [syncs_runCopy hcopy]

theorem laterPaths_syncs (hout : cfg.output = some outPath)
    (hreq : cfg.fdatasync = true ∨ cfg.fsync = true) (w : World α) :
    (laterPaths E cfg w).Syncs w (lastSync cfg (w.fs.locate outPath)) := by
  have hplace : ∀ {w₁ : World α}, w.fs.Keeps w₁.fs →
      w₁.fs.locate outPath = w.fs.locate outPath := fun hk => by rw [hk.locate_eq]
  refine (syncs_splicePath E hout hreq w).orElse (keeps_splicePath E cfg w) fun w₁ h₁ => ?_
  rw [← hplace h₁]
  have hplace₁ : ∀ {w₂ : World α}, w₁.fs.Keeps w₂.fs →
      w₂.fs.locate outPath = w₁.fs.locate outPath := fun hk => by rw [hk.locate_eq]
  refine (syncs_asyncPath E hout hreq w₁).orElse (keeps_asyncPath E cfg w₁) fun w₂ h₂ => ?_
  rw [← hplace₁ h₂]
  refine (syncs_uringPath E hout hreq w₂).orElse (keeps_uringPath E cfg w₂) fun w₃ h₃ => ?_
  rw [← h₃.locate_eq]
  exact syncs_syncPath E hout hreq w₃

/-- The one sync call of a copy that returns. -/
theorem executeTransferWithControl_syncs (hout : cfg.output = some outPath)
    (hreq : cfg.fdatasync = true ∨ cfg.fsync = true) {w' : World α} {hash : HashInfo}
    (h : executeTransferWithControl E cfg w = some (some (.ok hash), w')) :
    ReflinkCopies E cfg w ∧ w'.syncs = w.syncs ++ [.syncAll (w.fs.locate outPath)] ∨
      ¬ReflinkCopies E cfg w ∧ w'.syncs = w.syncs ++ [lastSync cfg (w.fs.locate outPath)] := by
  rw [executeTransferWithControl_eq] at h
  cases hpath : reflinkPath E cfg w with
  | none =>
    rw [hpath] at h
    cases h
  | some x =>
    rw [hpath] at h
    obtain ⟨_ | r, w₁⟩ := x
    · obtain ⟨hno, hsyncs⟩ := reflinkPath_falls E hpath
      refine .inr ⟨hno, ?_⟩
      have hlater := laterPaths_syncs E hout hreq w₁
      rw [hlater.returns hash w' h, hsyncs, (keeps_reflinkPath E w _ _ hpath).locate_eq]
    · exact .inl (reflinkPath_returns E hout hreq (hpath.trans h))

end Requested

section Example

/-- From stdin to `out`, with the metadata flushed too. -/
def fsyncOut : Config := { output := some "out", engine := .sync, fsync := true }

end Example

end Blkcp.Rust
