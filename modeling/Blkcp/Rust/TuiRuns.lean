import Blkcp.Rust.Aligned
import Blkcp.Rust.Preview
set_option autoImplicit false

/-! What holds in every state of the interface, whatever keys have been pressed and whatever has
happened to the host: the selections, the settings and the dialogs stay in range. -/

namespace Blkcp.Rust
open Blkcp.Lib

section Range

/-- The sizes that the block-size key goes through. -/
def offeredSizes : List Text :=
  [['4', 'K'], ['6', '4', 'K'], ['2', '5', '6', 'K'], ['1', 'M'], ['4', 'M'], ['1', '6', 'M'],
    ['a', 'u', 't', 'o']]

def offeredThreads : List Nat := [1, 2, 4, 8, 16, 32]

def offeredDepths : List (Option Nat) := [none, some 16, some 32, some 64, some 128]

def Trimmed (t : Text) : Prop := trim t = t

/-- A dialog with three fields has one of them in focus; a file browser shows a directory as it was
when it was entered, and has an entry selected, unless there is none. -/
def ModalDialog.InRange : ModalDialog → Prop
  | .limitInput field _ _ _ => field < 3
  | .fileBrowser _ currentDir entries selectedIdx =>
    (∃ H, entries = listDirectoryEntries H currentDir) ∧
      (entries = [] ∧ selectedIdx = 0 ∨ selectedIdx < entries.length)
  | _ => True

namespace TuiState

/-- Only what the interface offers is selected and set. -/
structure InRange (s : TuiState) : Prop where
  source : s.sourceIdx < s.devices.length
  target : s.targetIdx < s.devices.length
  module : s.moduleIdx < 16
  blockSize : s.blockSizeStr ∈ offeredSizes
  threads : s.threads ∈ offeredThreads
  queueDepth : s.queueDepthOpt ∈ offeredDepths
  limit : Trimmed s.limitStr
  skip : Trimmed s.skipStr
  seek : Trimmed s.seekStr
  modal : s.modal.InRange

theorem InRange.ite {P : Prop} [Decidable P] {s t : TuiState} (hs : s.InRange) (ht : t.InRange) :
    (if P then s else t).InRange := by
  split
  · exact hs
  · exact ht

variable {s : TuiState} (H : Host)

theorem InRange.close (h : s.InRange) : InRange { s with modal := .none } :=
  { h with modal := trivial }

theorem cycleBlockSize_inRange (h : s.InRange) : s.cycleBlockSize.InRange := by
  refine { h with blockSize := ?_ }
  dsimp only [cycleBlockSize]
  split <;> decide

theorem cycleThreads_inRange (h : s.InRange) : s.cycleThreads.InRange := by
  refine { h with threads := ?_ }
  dsimp only [cycleThreads]
  split <;> decide

theorem cycleQueueDepth_inRange (h : s.InRange) : s.cycleQueueDepth.InRange := by
  refine { h with queueDepth := ?_ }
  dsimp only [cycleQueueDepth]
  split <;> decide

theorem openLimitInput_inRange (h : s.InRange) : s.openLimitInput.InRange :=
  { h with modal := (by decide : 0 < 3) }

theorem toggleSelectedModule_inRange (h : s.InRange) : s.toggleSelectedModule.InRange := by
  unfold toggleSelectedModule
  split
  case h_1 => exact cycleBlockSize_inRange h
  case h_4 => exact cycleThreads_inRange h
  case h_5 => exact cycleQueueDepth_inRange h
  case h_15 => exact openLimitInput_inRange h
  all_goals exact { h with }

theorem upKey_inRange (h : s.InRange) : s.upKey.InRange := by
  unfold upKey
  split
  · exact { h with source := Nat.lt_of_le_of_lt (Nat.sub_le _ 1) h.source }
  · exact { h with target := Nat.lt_of_le_of_lt (Nat.sub_le _ 1) h.target }
  · exact { h with module := Nat.lt_of_le_of_lt (Nat.sub_le _ 1) h.module }

theorem downKey_inRange (h : s.InRange) : s.downKey.InRange := by
  unfold downKey
  split
  · split
    · rename_i hlt
      exact { h with source := hlt }
    · exact h
  · split
    · rename_i hlt
      exact { h with target := hlt }
    · exact h
  · split
    · rename_i hlt
      exact { h with module := hlt }
    · exact h

theorem position_lt {devices : List BlockDevice} {path : Text} {pos : Nat}
    (h : position devices path = some pos) : pos < devices.length := by
  obtain ⟨d, hd, -⟩ := position_eq_some h
  exact (List.getElem?_eq_some_iff.mp hd).1

/-- A path that is looked up and not found leaves the index where it was. -/
theorem position_getD_lt {devices : List BlockDevice} {path : Text} {idx : Nat}
    (h : idx < devices.length) : (position devices path).getD idx < devices.length := by
  cases hpos : position devices path with
  | none => exact h
  | some pos => exact position_lt hpos

theorem applyPreset_inRange (preset : Nat) (h : s.InRange) : (s.applyPreset preset).InRange := by
  have hone : ['1', 'M'] ∈ offeredSizes := by decide
  have hfour : ['4', 'M'] ∈ offeredSizes := by decide
  have hsingle : 1 ∈ offeredThreads := by decide
  have hsharded : 4 ∈ offeredThreads := by decide
  have hdepth : some 32 ∈ offeredDepths := by decide
  unfold applyPreset
  split
  · exact { h with blockSize := hone, threads := hsharded }
  · exact { h with blockSize := hone, threads := hsingle, queueDepth := hdepth }
  · exact { h with blockSize := hone, threads := hsingle }
  · exact { h with blockSize := hfour, threads := hsingle }
  · exact
      { h with
        source := position_getD_lt h.source, target := position_getD_lt h.target
        blockSize := hone, threads := hsharded, limit := rfl }
  · exact { h with blockSize := hone, threads := hsingle }
  · exact { h with blockSize := hone, threads := hsharded }
  · exact { h with blockSize := hone, threads := hsingle }
  · exact h

theorem autoResolveCombinations_inRange (h : s.InRange) : s.autoResolveCombinations.InRange := by
  simp only [autoResolveCombinations]
  split_ifs <;> exact { h with }

theorem keepCustom_ne_nil {devices : List BlockDevice} (cd : BlockDevice) (h : devices ≠ []) :
    keepCustom devices cd ≠ [] := by
  unfold keepCustom
  split
  · exact h
  · simp

theorem relist_ne_nil (s : TuiState) : s.relist H ≠ [] := by
  refine List.foldlRecOn (motive := (· ≠ [])) _ keepCustom ?_ ?_
  · simp [scanBlockDevicesExt]
  · intro devices h cd _
    exact keepCustom_ne_nil cd h

theorem reselect_lt {devices : List BlockDevice} (prev : Option Text) (idx : Nat)
    (h : devices ≠ []) : reselect devices prev idx < devices.length := by
  simp only [reselect]
  split
  · exact List.length_pos_iff.mpr h
  · rename_i hlt
    exact Nat.not_le.mp hlt

theorem refreshDevices_inRange (h : s.InRange) : (s.refreshDevices H).InRange :=
  { h with
    source := reselect_lt _ _ (s.relist_ne_nil H)
    target := reselect_lt _ _ (s.relist_ne_nil H) }

theorem addOrSelectCustomPath_inRange (path : Text) (forTarget : Bool) (h : s.InRange) :
    (s.addOrSelectCustomPath H path forTarget).InRange := by
  have hset (d : BlockDevice) {pos : Nat} (hpos : pos < s.devices.length) (forTarget : Bool) :
      InRange (if forTarget then { s with devices := s.devices.set pos d, targetIdx := pos }
        else { s with devices := s.devices.set pos d, sourceIdx := pos }) := by
    have hlen : (s.devices.set pos d).length = s.devices.length := List.length_set
    refine .ite ?_ ?_
    · exact { h with source := hlen ▸ h.source, target := hlen ▸ hpos }
    · exact { h with source := hlen ▸ hpos, target := hlen ▸ h.target }
  unfold addOrSelectCustomPath
  cases hpos : position s.devices path with
  | some pos => exact hset _ (position_lt hpos) forTarget
  | none =>
    have hlen (d : BlockDevice) : (s.devices ++ [d]).length = s.devices.length + 1 := by simp
    refine .ite ?_ ?_
    · exact
        { h with
          source := by rw [hlen]; exact Nat.lt_succ_of_lt h.source
          target := by rw [hlen]; exact Nat.lt_succ_self _ }
    · exact
        { h with
          source := by rw [hlen]; exact Nat.lt_succ_self _
          target := by rw [hlen]; exact Nat.lt_succ_of_lt h.target }

theorem fileBrowser_inRange (forTarget : Bool) (dir : Text) (h : s.InRange) :
    InRange { s with modal := .fileBrowser forTarget dir (listDirectoryEntries H dir) 0 } := by
  refine { h with modal := ⟨⟨H, rfl⟩, ?_⟩ }
  rw [← List.length_eq_zero_iff, and_iff_left rfl]
  exact Nat.eq_zero_or_pos _

theorem charKey_inRange (c : Char) (h : s.InRange) : (s.charKey H c).InRange := by
  have hpartitions : InRange { s with includePartitions := !s.includePartitions } := { h with }
  unfold charKey
  refine .ite { h with } (.ite (upKey_inRange h) ?_)
  refine .ite (.ite (toggleSelectedModule_inRange h) h) ?_
  refine .ite (cycleBlockSize_inRange h) (.ite { h with } (.ite { h with } ?_))
  refine .ite (cycleThreads_inRange h) (.ite (cycleQueueDepth_inRange h) ?_)
  iterate 9 refine .ite { h with } ?_
  refine .ite (refreshDevices_inRange H hpartitions) (.ite (refreshDevices_inRange H h) ?_)
  refine .ite (openLimitInput_inRange h) ?_
  refine .ite { h with modal := trivial } (.ite { h with modal := trivial } ?_)
  refine .ite (fileBrowser_inRange H _ _ h) (.ite (applyPreset_inRange _ h) ?_)
  exact .ite (autoResolveCombinations_inRange h) h

theorem pathInputKey_inRange (forTarget : Bool) (buffer : Text) (code : KeyCode) (h : s.InRange) :
    (s.pathInputKey H forTarget buffer code).InRange := by
  cases code with
  | enter => exact .ite (addOrSelectCustomPath_inRange H _ forTarget h.close) h.close
  | esc => exact h.close
  | char c => exact { h with modal := trivial }
  | backspace => exact { h with modal := trivial }
  | _ => exact h

theorem limitInputKey_inRange {field : Nat} {limitBuf skipBuf seekBuf : Text} (code : KeyCode)
    (hfield : field < 3) (h : s.InRange) :
    (s.limitInputKey field limitBuf skipBuf seekBuf code).InRange := by
  have hmove (n : Nat) :
      InRange { s with modal := .limitInput (n % 3) limitBuf skipBuf seekBuf } :=
    { h with modal := Nat.mod_lt n (by decide : 3 > 0) }
  have hedit (edit : Text → Text) :
      InRange { s with modal := editLimit field limitBuf skipBuf seekBuf edit } := by
    refine { h with modal := ?_ }
    dsimp only [editLimit]
    split <;> exact hfield
  cases code with
  | esc => exact h.close
  | tab | down => exact hmove (field + 1)
  | backTab | up => exact hmove (field + 2)
  | enter =>
    exact
      { h with
        limit := trim_trim limitBuf, skip := trim_trim skipBuf, seek := trim_trim seekBuf
        modal := trivial }
  | backspace => exact hedit List.dropLast
  | char c => exact hedit (· ++ [c])
  | other => exact h

theorem fileBrowserKey_inRange {forTarget : Bool} {currentDir : Text} {entries : List FileEntry}
    {selectedIdx : Nat} (code : KeyCode)
    (hmodal : ModalDialog.InRange (.fileBrowser forTarget currentDir entries selectedIdx))
    (h : s.InRange) :
    (s.fileBrowserKey H forTarget currentDir entries selectedIdx code).InRange := by
  obtain ⟨hlisted, hselected⟩ := hmodal
  have hmove {idx : Nat} (hidx : entries = [] ∧ idx = 0 ∨ idx < entries.length) :
      InRange { s with modal := .fileBrowser forTarget currentDir entries idx } :=
    { h with modal := ⟨hlisted, hidx⟩ }
  unfold fileBrowserKey
  refine .ite h.close (.ite (hmove ?_) (.ite ?_ (.ite ?_ h)))
  · rcases hselected with ⟨hnil, rfl⟩ | hlt
    · exact .inl ⟨hnil, rfl⟩
    · exact .inr (Nat.lt_of_le_of_lt (Nat.sub_le _ 1) hlt)
  · split
    · rename_i hlt
      exact hmove (.inr hlt)
    · exact h
  · split
    · exact .ite (fileBrowser_inRange H _ _ h) (addOrSelectCustomPath_inRange H _ _ h.close)
    · exact h

theorem new_inRange : (TuiState.new H).InRange := by
  have hne : 0 < (scanBlockDevicesExt H false).length := by simp [scanBlockDevicesExt]
  have hsize : ['1', 'M'] ∈ offeredSizes := by decide
  have hthreads : 1 ∈ offeredThreads := by decide
  have hdepth : none ∈ offeredDepths := by decide
  exact
    { source := position_getD_lt hne, target := position_getD_lt hne
      module := Nat.succ_pos 15, blockSize := hsize, threads := hthreads, queueDepth := hdepth
      limit := rfl, skip := rfl, seek := rfl, modal := trivial }

end TuiState

end Range

/-- What a transfer of the interface can be started with. -/
structure Config.Offered (cfg : Config) : Prop where
  input : cfg.input.isSome
  output : cfg.output.isSome
  blockSize : cfg.blockSize ∈
    [4 * 1024, 64 * 1024, 256 * 1024, 1024 * 1024, 4 * 1024 * 1024, 16 * 1024 * 1024]
  autotune : cfg.autotune → cfg.blockSize = 64 * 1024
  threads : cfg.threads ∈ offeredThreads
  queueDepth : cfg.queueDepth ∈ offeredDepths
  oneSync : ¬(cfg.fdatasync ∧ cfg.fsync)

namespace TuiState

variable {s : TuiState} {cfg : Config}

/-- Each size that is offered is read. -/
theorem blockSizeField_offered {str : Text} (h : str ∈ offeredSizes) :
    ∃ autotune n, blockSizeField str = some (autotune, n) ∧
      n ∈ [4 * 1024, 64 * 1024, 256 * 1024, 1024 * 1024, 4 * 1024 * 1024, 16 * 1024 * 1024] ∧
      (autotune → n = 64 * 1024) := by
  simp only [offeredSizes, List.mem_cons, List.not_mem_nil, or_false] at h
  rcases h with rfl | rfl | rfl | rfl | rfl | rfl | rfl
  · exact ⟨false, 4 * 1024, by decide⟩
  · exact ⟨false, 64 * 1024, by decide⟩
  · exact ⟨false, 256 * 1024, by decide⟩
  · exact ⟨false, 1024 * 1024, by decide⟩
  · exact ⟨false, 4 * 1024 * 1024, by decide⟩
  · exact ⟨false, 16 * 1024 * 1024, by decide⟩
  · exact ⟨true, 64 * 1024, by decide⟩

theorem buildConfig_offered (h : s.InRange) (hc : s.buildConfig = some cfg) : cfg.Offered := by
  obtain ⟨autotune, n, hblock, hsize, hauto⟩ := blockSizeField_offered h.blockSize
  simp only [buildConfig, hblock, Option.bind_eq_bind, Option.bind_some,
    Option.bind_eq_some_iff] at hc
  obtain ⟨limit, -, skip, -, seek, -, hc⟩ := hc
  obtain rfl := Option.some.inj hc
  have hsource : s.source.isSome := by simpa [TuiState.source] using h.source
  have htarget : s.target.isSome := by simpa [TuiState.target] using h.target
  have honce : ¬((s.syncMode == .fdatasync) = true ∧ (s.syncMode == .fsync) = true) := by
    cases s.syncMode <;> decide
  exact
    { input := by simpa using hsource, output := by simpa using htarget
      blockSize := hsize, autotune := hauto, threads := h.threads, queueDepth := h.queueDepth
      oneSync := honce }

end TuiState

namespace Tui

/-- The interface is in range, and so is every transfer that it has started. -/
structure InRange (p : Tui) : Prop where
  state : p.state.InRange
  threads : ∀ t ∈ p.threads, t.cfg.Offered ∧ t.cfg.dryRun = false

variable {p : Tui}

theorem InRange.ite {P : Prop} [Decidable P] {q : Tui} (hp : p.InRange) (hq : q.InRange) :
    InRange (if P then p else q) := by
  split
  · exact hp
  · exact hq

theorem InRange.set {s : TuiState} (h : p.InRange) (hs : s.InRange) :
    InRange { p with state := s } := { h with state := hs }

/-- The flags of a thread do not matter. -/
theorem InRange.modify {f : Transfer → Transfer} (thread : Nat) (hf : ∀ t, (f t).cfg = t.cfg)
    (h : p.InRange) : InRange { p with threads := p.threads.modify thread f } := by
  refine { h with threads := ?_ }
  intro t ht
  obtain ⟨i, hi⟩ := List.mem_iff_getElem?.mp ht
  rw [List.getElem?_modify, Option.map_eq_map, Option.map_eq_some_iff] at hi
  obtain ⟨t', ht', rfl⟩ := hi
  have hcfg : (if thread = i then f t' else t').cfg = t'.cfg := by
    split
    · exact hf t'
    · rfl
  rw [hcfg]
  exact h.threads t' (List.mem_of_getElem? ht')

theorem startTransfer_inRange (h : p.InRange) : p.startTransfer.InRange := by
  unfold startTransfer
  cases hcfg : p.state.buildConfig with
  | none => exact h
  | some cfg =>
    dsimp only
    split
    · exact h
    · rename_i hdry
      refine ⟨{ h.state with }, ?_⟩
      intro t ht
      rcases List.mem_append.mp ht with ht | ht
      · exact h.threads t ht
      · rw [List.mem_singleton.mp ht]
        exact ⟨TuiState.buildConfig_offered h.state hcfg, Bool.eq_false_iff.mpr hdry⟩

theorem enterKey_inRange (h : p.InRange) : p.enterKey.InRange := by
  unfold enterKey
  refine .ite (startTransfer_inRange h) ?_
  split
  · exact .ite h (.ite (startTransfer_inRange h) (h.set { h.state with modal := trivial }))
  · exact h

theorem safetyConfirmKey_inRange (code : KeyCode) (h : p.InRange) :
    (p.safetyConfirmKey code).InRange := by
  have hclosed : InRange { p with state := { p.state with modal := .none } } := h.set h.state.close
  exact .ite (startTransfer_inRange hclosed) (.ite hclosed h)

theorem normalKey_inRange (code : KeyCode) (h : p.InRange) : (p.normalKey code).InRange := by
  cases code with
  | char c => exact h.set (TuiState.charKey_inRange p.host c h.state)
  | enter => exact enterKey_inRange h
  | esc => exact h.set { h.state with }
  | tab => exact h.set { h.state with }
  | backTab => exact h.set { h.state with }
  | up => exact h.set (TuiState.upKey_inRange h.state)
  | down => exact h.set (TuiState.downKey_inRange h.state)
  | backspace => exact h
  | other => exact h

theorem handleKeyEvent_inRange (code : KeyCode) (h : p.InRange) :
    (p.handleKeyEvent code).InRange := by
  unfold handleKeyEvent
  cases p.state.activeJob with
  | some job => exact .ite (h.modify job.handle fun t => rfl) h
  | none =>
    have hmodal := h.state.modal
    dsimp only
    cases hopen : p.state.modal with
    | none => exact normalKey_inRange code h
    | safetyConfirm => exact safetyConfirmKey_inRange code h
    | pathInput forTarget buffer =>
      exact h.set (TuiState.pathInputKey_inRange p.host forTarget buffer code h.state)
    | limitInput field limitBuf skipBuf seekBuf =>
      rw [hopen] at hmodal
      exact h.set (TuiState.limitInputKey_inRange code hmodal h.state)
    | fileBrowser forTarget currentDir entries selectedIdx =>
      rw [hopen] at hmodal
      exact h.set (TuiState.fileBrowserKey_inRange p.host code hmodal h.state)

theorem next_inRange (ev : Event) (h : p.InRange) : (p.next ev).InRange := by
  cases ev with
  | key code => exact handleKeyEvent_inRange code h
  | finish thread => exact h.modify thread fun t => rfl
  | change host => exact { h with }
  | poll =>
    simp only [next, pollActiveJob]
    split
    · exact .ite (h.set { h.state with }) h
    · exact h

theorem reachable_inRange (h : tui.Reachable p) : p.InRange := by
  refine h.invariant ?_ ?_
  · rintro p ⟨hnew, hthreads⟩
    refine ⟨hnew ▸ TuiState.new_inRange p.host, ?_⟩
    intro t ht
    rw [hthreads] at ht
    cases ht
  · rintro p ev q hp ⟨-, rfl⟩
    exact next_inRange ev hp

theorem offered_blockSize_le {cfg : Config} (h : cfg.Offered) :
    cfg.blockSize ≤ 16 * 1024 * 1024 := by
  have hsize := h.blockSize
  simp only [List.mem_cons, List.not_mem_nil, or_false] at hsize
  omega

/-- Whatever keys are pressed and whatever the host does, a source and a target are selected, the
settings are those that the interface offers, and no transfer starts with anything else, so that the
buffers of its blocks are as large as they are used. -/
theorem reachable_offered (alloc : Layout → Option Nat) (h : tui.Reachable p) :
    p.InRange ∧ ∀ t ∈ p.threads, ∀ b,
      AlignedBuffer.new alloc t.cfg.blockSize 4096 = .returned b → b.Covers := by
  have hrange := reachable_inRange h
  refine ⟨hrange, ?_⟩
  intro t ht b hb
  have hle := offered_blockSize_le (hrange.threads t ht).1
  exact AlignedBuffer.new_covers alloc (by omega) hb

section Example

/-- The transfer to the disk has been started. -/
def diskStarted : Tui := diskChosen.next (.key (.char 'y'))

theorem reachable_diskStarted : tui.Reachable diskStarted :=
  reachable_diskChosen.step (a := .key (.char 'y')) ⟨rfl, rfl⟩

theorem reachable_offered_diskStarted : diskStarted.threads.length = 1 ∧ diskStarted.InRange ∧
    ∀ t ∈ diskStarted.threads, ∀ b,
      AlignedBuffer.new (fun _ => some 4096) t.cfg.blockSize 4096 = .returned b → b.Covers :=
  ⟨rfl, reachable_offered _ reachable_diskStarted⟩

end Example

end Tui

end Blkcp.Rust
