import Blkcp.Rust.Execute
set_option autoImplicit false

/-! Opening an output file that exists: what it holds then, and where it is written first. -/

namespace Blkcp.Rust

variable {α : Type} {cfg : Config} {fs fs' : FileSystem α} {path : Path} {n : Node α} {id : FileId}

/-- An existing regular output, opened and moved to where the output begins: its content then and
the position. -/
inductive OpenedAt (cfg : Config) (old : List α) : List α → Nat → Prop where
  | intro {w w' : World α} {path : Path} {n : Node α} {o o' : OpenOutput} :
      cfg.output = some path → w.fs.lookup path = some n → n.kind = .regular → n.content = old →
      openSink w cfg = (.ok o, w') → seekOutputOrFail w'.fs o cfg.seekBytes = .ok o' →
      OpenedAt cfg old (w'.outputContent o') (w'.outputPos o')

namespace FileSystem

/-- The file of the path, cut to nothing if it is truncated. -/
def Truncated (fs : FileSystem α) (path : Path) (n : Node α) (truncate : Bool)
    (fs' : FileSystem α) : Prop :=
  fs'.node (fs.locate path) = some { n with content := if truncate then [] else n.content }

theorem openWrite_regular {truncate direct : Bool} (hn : fs.lookup path = some n)
    (hreg : n.kind = .regular) (h : fs.openWrite path truncate direct = (.ok id, fs')) :
    id = fs.locate path ∧ fs.Truncated path n truncate fs' := by
  have hnode : fs.node (fs.locate path) = some n := hn
  simp only [openWrite, hnode, hreg, reduceCtorEq, if_false, decide_true, Bool.and_true] at h
  split at h
  · cases h
  split at h
  · cases h
  split at h
  · rename_i htrunc
    obtain ⟨hid, rfl⟩ := Prod.mk.inj h
    refine ⟨(Except.ok.inj hid).symm, ?_⟩
    simp only [Truncated, htrunc, setNode, hreg, if_true]
  · rename_i htrunc
    obtain ⟨hid, rfl⟩ := Prod.mk.inj h
    refine ⟨(Except.ok.inj hid).symm, ?_⟩
    rw [Truncated, if_neg htrunc, hnode]

theorem openWrite_refused {truncate direct : Bool} {e : Errno} (hn : fs.lookup path = some n)
    (h : fs.openWrite path truncate direct = (.error e, fs')) : fs' = fs := by
  have hnode : fs.node (fs.locate path) = some n := hn
  simp only [openWrite, hnode] at h
  split at h
  · exact (Prod.mk.inj h).2.symm
  split at h
  · exact (Prod.mk.inj h).2.symm
  split at h
  · exact (Prod.mk.inj h).2.symm
  split at h
  · cases h
  · cases h

theorem openOutputFile_regular {notrunc direct : Bool} (hn : fs.lookup path = some n)
    (hreg : n.kind = .regular) (h : fs.openOutputFile path notrunc direct = (.ok id, fs')) :
    id = fs.locate path ∧ fs.Truncated path n (!notrunc) fs' := by
  have htrunc : (!notrunc && fs.isRegularFileOrNew path) = !notrunc := by
    simp [isRegularFileOrNew, hn, hreg]
  obtain ⟨mid, d, r, hmid, hopen, hr⟩ := openOutputFile_cases h
  obtain rfl := hr id rfl
  rw [htrunc] at hmid hopen
  have hsame : mid = fs := by
    rcases hmid with rfl | ⟨e, hrefused⟩
    · rfl
    · exact openWrite_refused hn hrefused
  rw [hsame] at hopen
  exact openWrite_regular hn hreg hopen

end FileSystem

theorem openedAt_eq {old content : List α} {pos : Nat} (h : OpenedAt cfg old content pos) :
    content = (if cfg.notrunc then old else []) ∧ pos = cfg.seekBytes := by
  obtain ⟨hout, hn, hreg, hold, hopen, hseek⟩ := h
  rename_i w w' path n o o'
  simp only [openSink, hout] at hopen
  split at hopen
  · rename_i f fs hfile
    obtain ⟨ho, rfl⟩ := Prod.mk.inj hopen
    obtain rfl := Except.ok.inj ho
    obtain ⟨rfl, hnode⟩ := FileSystem.openOutputFile_regular hn hreg hfile
    rw [FileSystem.Truncated] at hnode
    have hseekable : fs.seekable (w.fs.locate path) = true := by
      simp only [FileSystem.seekable, hnode, hreg]
      rfl
    have hcontent : fs.content (w.fs.locate path) = if cfg.notrunc then old else [] := by
      simp only [FileSystem.content, hnode, hold]
      cases cfg.notrunc <;> rfl
    have hmoved : o' = .file (w.fs.locate path) cfg.seekBytes := by
      simp only [seekOutputOrFail, seekOutput, hseekable, if_true] at hseek
      split at hseek
      · exact (Except.ok.inj hseek).symm
      · rename_i hzero
        rw [Nat.eq_zero_of_not_pos hzero]
        exact (Except.ok.inj hseek).symm
    rw [hmoved]
    refine ⟨hcontent, ?_⟩
    simp only [World.outputPos, hseekable, if_true]
  · cases hopen

end Blkcp.Rust
