import Blkcp.Rust.TuiRefresh
import Mathlib.Tactic.IntervalCases
set_option autoImplicit false

/-! What is left of the settings before a preset once it is loaded: two runs of the interface that
agree on the selection and on the texts. -/

namespace Blkcp.Rust
open Blkcp.Lib

namespace TuiState

/-- An endpoint with the path is listed. -/
def Lists (s : TuiState) (path : Text) : Prop := ∃ d ∈ s.devices, samePath d.path path

/-- No path of the endpoints that every scan lists is lost. -/
structure KeepsEndpoints (s t : TuiState) : Prop where
  zero : s.Lists devZero → t.Lists devZero
  null : s.Lists devNull → t.Lists devNull

theorem KeepsEndpoints.refl (s : TuiState) : KeepsEndpoints s s := ⟨id, id⟩

theorem KeepsEndpoints.trans {s t u : TuiState} (hst : KeepsEndpoints s t)
    (htu : KeepsEndpoints t u) : KeepsEndpoints s u :=
  ⟨htu.zero ∘ hst.zero, htu.null ∘ hst.null⟩

theorem KeepsEndpoints.ite {P : Prop} [Decidable P] {s t u : TuiState} (ht : KeepsEndpoints s t)
    (hu : KeepsEndpoints s u) : KeepsEndpoints s (if P then t else u) := by
  split
  · exact ht
  · exact hu

theorem keepsEndpoints_of_eq {s t : TuiState} (hdevices : t.devices = s.devices) :
    KeepsEndpoints s t := by
  constructor
  all_goals
    unfold Lists
    rw [hdevices]
    exact id

section Keys

variable (H : Host) (s : TuiState)

theorem scan_endpoints (includePartitions : Bool) :
    (∃ d ∈ scanBlockDevicesExt H includePartitions, samePath d.path devZero) ∧
      ∃ d ∈ scanBlockDevicesExt H includePartitions, samePath d.path devNull := by
  unfold scanBlockDevicesExt
  exact ⟨⟨virtualEndpoint H zeroName, by simp, rfl⟩, ⟨virtualEndpoint H nullName, by simp, rfl⟩⟩

theorem refreshDevices_endpoints : KeepsEndpoints s (s.refreshDevices H) where
  zero _ := (s.relist_lists H devZero).mpr (.inl (scan_endpoints H s.includePartitions).1)
  null _ := (s.relist_lists H devNull).mpr (.inl (scan_endpoints H s.includePartitions).2)

/-- An entry is replaced by one with the same path. -/
theorem addOrSelectCustomPath_lists {path : Text} {forTarget : Bool} {endpoint : Text}
    (h : s.Lists endpoint) : (s.addOrSelectCustomPath H path forTarget).Lists endpoint := by
  obtain ⟨d, hd, hsame⟩ := h
  unfold addOrSelectCustomPath Lists
  cases hpos : position s.devices path with
  | none =>
    have hmem : d ∈ s.devices ++ [BlockDevice.fromCustomPath H path] :=
      List.mem_append.mpr (.inl hd)
    cases forTarget <;> exact ⟨d, hmem, hsame⟩
  | some pos =>
    obtain ⟨old, hold, holdpath⟩ := position_eq_some hpos
    have hset : ∃ e ∈ s.devices.set pos (BlockDevice.fromCustomPath H path),
        samePath e.path endpoint := by
      obtain ⟨i, hi⟩ := List.mem_iff_getElem?.mp hd
      by_cases hip : pos = i
      · -- the entry itself is replaced
        subst hip
        obtain rfl := Option.some.inj (hold.symm.trans hi)
        have hlt := (List.getElem?_eq_some_iff.mp hold).1
        exact ⟨_, List.mem_of_getElem? (List.getElem?_set_self hlt),
          (samePath_congr holdpath _).mp hsame⟩
      · refine ⟨d, List.mem_of_getElem? (i := i) ?_, hsame⟩
        rw [List.getElem?_set_ne hip]
        exact hi
    cases forTarget <;> exact hset

theorem addOrSelectCustomPath_endpoints (path : Text) (forTarget : Bool) :
    KeepsEndpoints s (s.addOrSelectCustomPath H path forTarget) :=
  ⟨addOrSelectCustomPath_lists H s, addOrSelectCustomPath_lists H s⟩

theorem applyPreset_devices (preset : Nat) : (s.applyPreset preset).devices = s.devices := by
  unfold applyPreset
  split <;> rfl

theorem autoResolveCombinations_devices : s.autoResolveCombinations.devices = s.devices := by
  simp only [autoResolveCombinations]
  split_ifs <;> rfl

theorem toggleSelectedModule_devices : s.toggleSelectedModule.devices = s.devices := by
  unfold toggleSelectedModule
  split <;> rfl

theorem upKey_devices : s.upKey.devices = s.devices := by
  unfold upKey
  split <;> rfl

theorem downKey_devices : s.downKey.devices = s.devices := by
  unfold downKey
  split <;> split <;> rfl

theorem charKey_endpoints (c : Char) : KeepsEndpoints s (s.charKey H c) := by
  have hpartitions : KeepsEndpoints s { s with includePartitions := !s.includePartitions } :=
    keepsEndpoints_of_eq rfl
  unfold charKey
  refine .ite (keepsEndpoints_of_eq rfl) (.ite (keepsEndpoints_of_eq s.upKey_devices) ?_)
  refine .ite (.ite (keepsEndpoints_of_eq s.toggleSelectedModule_devices) (.refl s)) ?_
  iterate 14 refine .ite (keepsEndpoints_of_eq rfl) ?_
  refine .ite (hpartitions.trans (refreshDevices_endpoints H _)) ?_
  refine .ite (refreshDevices_endpoints H s) ?_
  iterate 4 refine .ite (keepsEndpoints_of_eq rfl) ?_
  refine .ite (keepsEndpoints_of_eq (s.applyPreset_devices _)) ?_
  exact .ite (keepsEndpoints_of_eq s.autoResolveCombinations_devices) (.refl s)

theorem pathInputKey_endpoints (forTarget : Bool) (buffer : Text) (code : KeyCode) :
    KeepsEndpoints s (s.pathInputKey H forTarget buffer code) := by
  have hclosed : KeepsEndpoints s { s with modal := .none } := keepsEndpoints_of_eq rfl
  cases code with
  | enter =>
    simp only [pathInputKey]
    exact .ite (hclosed.trans (addOrSelectCustomPath_endpoints H _ _ forTarget)) hclosed
  | _ => exact keepsEndpoints_of_eq rfl

theorem limitInputKey_devices (field : Nat) (limitBuf skipBuf seekBuf : Text) (code : KeyCode) :
    (s.limitInputKey field limitBuf skipBuf seekBuf code).devices = s.devices := by
  cases code <;> rfl

theorem fileBrowserKey_endpoints (forTarget : Bool) (currentDir : Text) (entries : List FileEntry)
    (selectedIdx : Nat) (code : KeyCode) :
    KeepsEndpoints s (s.fileBrowserKey H forTarget currentDir entries selectedIdx code) := by
  have hclosed : KeepsEndpoints s { s with modal := .none } := keepsEndpoints_of_eq rfl
  unfold fileBrowserKey
  refine .ite hclosed (.ite (keepsEndpoints_of_eq rfl) ?_)
  refine .ite (.ite (keepsEndpoints_of_eq rfl) (.refl s)) (.ite ?_ (.refl s))
  split
  · exact .ite (keepsEndpoints_of_eq rfl)
      (hclosed.trans (addOrSelectCustomPath_endpoints H _ _ forTarget))
  · exact .refl s

end Keys

end TuiState

namespace Tui

variable {p : Tui}

theorem startTransfer_devices (p : Tui) : p.startTransfer.state.devices = p.state.devices := by
  rcases startTransfer_cases p with h | ⟨cfg, expectedBytes, h, -⟩
  · rw [h]
  · rw [h]
    rfl

theorem enterKey_devices (p : Tui) : p.enterKey.state.devices = p.state.devices := by
  unfold enterKey
  split
  · exact startTransfer_devices p
  split
  · split
    · rfl
    split
    · exact startTransfer_devices p
    · rfl
  · rfl

theorem safetyConfirmKey_devices (p : Tui) (code : KeyCode) :
    (p.safetyConfirmKey code).state.devices = p.state.devices := by
  unfold safetyConfirmKey
  simp only
  split
  · exact startTransfer_devices _
  split <;> rfl

theorem handleKeyEvent_endpoints (p : Tui) (code : KeyCode) :
    p.state.KeepsEndpoints (p.handleKeyEvent code).state := by
  unfold handleKeyEvent
  cases p.state.activeJob with
  | some job =>
    simp only [cancelKey]
    split <;> exact .refl p.state
  | none =>
    simp only
    cases p.state.modal with
    | none =>
      cases code with
      | char c => exact TuiState.charKey_endpoints p.host p.state c
      | enter => exact TuiState.keepsEndpoints_of_eq p.enterKey_devices
      | up => exact TuiState.keepsEndpoints_of_eq p.state.upKey_devices
      | down => exact TuiState.keepsEndpoints_of_eq p.state.downKey_devices
      | _ => exact TuiState.keepsEndpoints_of_eq rfl
    | safetyConfirm => exact TuiState.keepsEndpoints_of_eq (p.safetyConfirmKey_devices code)
    | pathInput forTarget buffer => exact TuiState.pathInputKey_endpoints _ _ _ _ code
    | limitInput field limitBuf skipBuf seekBuf =>
      exact TuiState.keepsEndpoints_of_eq (TuiState.limitInputKey_devices _ _ _ _ _ code)
    | fileBrowser forTarget currentDir entries selectedIdx =>
      exact TuiState.fileBrowserKey_endpoints _ _ _ _ _ _ code

/-- The zero and the null device can always be selected. -/
theorem reachable_endpoints (h : tui.Reachable p) :
    p.state.Lists devZero ∧ p.state.Lists devNull := by
  refine h.invariant (I := fun p => p.state.Lists devZero ∧ p.state.Lists devNull) ?_ ?_
  · rintro p ⟨hnew, -⟩
    rw [hnew]
    exact TuiState.scan_endpoints p.host false
  · rintro p ev q hp ⟨-, rfl⟩
    have hkeeps : p.state.KeepsEndpoints (p.next ev).state := by
      cases ev with
      | key code => exact handleKeyEvent_endpoints p code
      | poll =>
        refine TuiState.keepsEndpoints_of_eq ?_
        simp only [next, pollActiveJob]
        split
        · split <;> rfl
        · rfl
      | _ => exact .refl p.state
    exact ⟨hkeeps.zero hp.1, hkeeps.null hp.2⟩

end Tui

/-- The same values in every field; `Path` compares by components. -/
structure Config.Same (c d : Config) : Prop where
  input : c.input.map (fun p => components p.toList) = d.input.map fun p => components p.toList
  output : c.output.map (fun p => components p.toList) = d.output.map fun p => components p.toList
  rest : { c with input := none, output := none } = { d with input := none, output := none }

/-- Two errors, or two configurations with the same values. -/
def SameResult : Option Config → Option Config → Prop
  | some c, some d => c.Same d
  | none, none => True
  | _, _ => False

namespace TuiState

variable {s t : TuiState}

/-- The same source and target. -/
structure SameSelection (s t : TuiState) : Prop where
  source : s.source.map (components ·.path) = t.source.map (components ·.path)
  target : s.target.map (components ·.path) = t.target.map (components ·.path)

/-- The settings of a configuration that are not texts. -/
@[mk_iff]
structure SameSettings (s t : TuiState) : Prop where
  engine : s.engine = t.engine
  hashAlgo : s.hashAlgo = t.hashAlgo
  threads : s.threads = t.threads
  queueDepthOpt : s.queueDepthOpt = t.queueDepthOpt
  directIo : s.directIo = t.directIo
  nocache : s.nocache = t.nocache
  sparse : s.sparse = t.sparse
  swab : s.swab = t.swab
  syncPad : s.syncPad = t.syncPad
  notrunc : s.notrunc = t.notrunc
  noerror : s.noerror = t.noerror
  dryRun : s.dryRun = t.dryRun
  forceOverride : s.forceOverride = t.forceOverride
  syncMode : s.syncMode = t.syncMode

structure SameTexts (s t : TuiState) : Prop where
  blockSizeStr : s.blockSizeStr = t.blockSizeStr
  limitStr : s.limitStr = t.limitStr
  skipStr : s.skipStr = t.skipStr
  seekStr : s.seekStr = t.seekStr

/-- A text that is no size. -/
def Unparsed (s : TuiState) : Prop :=
  blockSizeField s.blockSizeStr = none ∨ limitField s.limitStr = none ∨
    offsetField s.skipStr = none ∨ offsetField s.seekStr = none

/-- The two flags tell the modes apart. -/
theorem syncMode_eq_iff {m n : SyncMode} :
    m = n ↔ (m == .fdatasync) = (n == .fdatasync) ∧ (m == .fsync) = (n == .fsync) := by
  cases m <;> cases n <;> decide

theorem sameResult_iff (htexts : SameTexts s t) (hselection : SameSelection s t) :
    SameResult s.buildConfig t.buildConfig ↔ s.Unparsed ∨ SameSettings s t := by
  obtain ⟨hblock, hlimit, hskip, hseek⟩ := htexts
  unfold buildConfig Unparsed
  rw [← hblock, ← hlimit, ← hskip, ← hseek]
  rcases blockSizeField s.blockSizeStr with _ | ⟨autotune, blockSize⟩
  · exact iff_of_true trivial (.inl (.inl rfl))
  rcases limitField s.limitStr with _ | limit
  · exact iff_of_true trivial (.inl (.inr (.inl rfl)))
  rcases offsetField s.skipStr with _ | skip
  · exact iff_of_true trivial (.inl (.inr (.inr (.inl rfl))))
  rcases offsetField s.seekStr with _ | seek
  · exact iff_of_true trivial (.inl (.inr (.inr (.inr rfl))))
  have hinput : (s.source.map fun d => String.ofList d.path).map (fun p => components p.toList) =
      (t.source.map fun d => String.ofList d.path).map fun p => components p.toList := by
    simpa [Function.comp_def] using hselection.source
  have houtput : (s.target.map fun d => String.ofList d.path).map (fun p => components p.toList) =
      (t.target.map fun d => String.ofList d.path).map fun p => components p.toList := by
    simpa [Function.comp_def] using hselection.target
  simp only [reduceCtorEq, false_or]
  constructor
  · rintro ⟨-, -, hrest⟩
    simp only [Config.mk.injEq, true_and] at hrest
    obtain ⟨hengine, hthreads, hqueue, hforce, hdry, hdirect, hnocache, hsparse, hsync, hswab, hdata,
      hfsync, hnotrunc, hnoerror, hhash⟩ := hrest
    exact ⟨hengine, hhash, hthreads, hqueue, hdirect, hnocache, hsparse, hswab, hsync, hnotrunc,
      hnoerror, hdry, hforce, syncMode_eq_iff.mpr ⟨hdata, hfsync⟩⟩
  · intro h
    refine ⟨hinput, houtput, ?_⟩
    obtain ⟨hengine, hhash, hthreads, hqueue, hdirect, hnocache, hsparse, hswab, hsync, hnotrunc,
      hnoerror, hdry, hforce, hmode⟩ := h
    simp only [hengine, hhash, hthreads, hqueue, hdirect, hnocache, hsparse, hswab, hsync, hnotrunc,
      hnoerror, hdry, hforce, hmode]

/-- What the preset is loaded on: the same selection, texts and switches. -/
structure Alike (s t : TuiState) : Prop extends SameSelection s t where
  limitStr : s.limitStr = t.limitStr
  skipStr : s.skipStr = t.skipStr
  seekStr : s.seekStr = t.seekStr
  dryRun : s.dryRun = t.dryRun
  notrunc : s.notrunc = t.notrunc
  forceOverride : s.forceOverride = t.forceOverride

/-- The settings that a preset leaves as they are do not differ. Only the second one sets the queue
depth and what a read error does; the second, the third and the fifth pass over the cache, the fifth
over the padding and the sync mode. -/
@[mk_iff]
structure LeftAlike (preset : Nat) (s t : TuiState) : Prop where
  queueDepthOpt : preset ≠ 2 → s.queueDepthOpt = t.queueDepthOpt
  noerror : preset ≠ 2 → s.noerror = t.noerror
  nocache : preset = 2 ∨ preset = 3 ∨ preset = 5 → s.nocache = t.nocache
  syncPad : preset = 5 → s.syncPad = t.syncPad
  syncMode : preset = 5 → s.syncMode = t.syncMode

/-- A text in use with a preset that is no size. The fifth preset brings its own limit. -/
def UnparsedUnder (preset : Nat) (s : TuiState) : Prop :=
  (preset ≠ 5 ∧ limitField s.limitStr = none) ∨ offsetField s.skipStr = none ∨
    offsetField s.seekStr = none

variable {preset : Nat}

theorem applyPreset_sameSettings_iff (hpreset : 1 ≤ preset ∧ preset ≤ 8) (h : Alike s t) :
    SameSettings (s.applyPreset preset) (t.applyPreset preset) ↔ LeftAlike preset s t := by
  rw [sameSettings_iff, leftAlike_iff]
  obtain ⟨hlow, hhigh⟩ := hpreset
  interval_cases preset <;> simp [applyPreset, h.dryRun, h.notrunc, h.forceOverride] <;> tauto

theorem applyPreset_unparsed_iff (hpreset : 1 ≤ preset ∧ preset ≤ 8) :
    (s.applyPreset preset).Unparsed ↔ s.UnparsedUnder preset := by
  have hone : blockSizeField ['1', 'M'] ≠ none := by decide
  have hfour : blockSizeField ['4', 'M'] ≠ none := by decide
  have hlimit : limitField ['2', 'G'] ≠ none := by decide
  unfold Unparsed UnparsedUnder
  obtain ⟨hlow, hhigh⟩ := hpreset
  interval_cases preset <;> simp [applyPreset, hone, hfour, hlimit]

theorem applyPreset_sameTexts (hpreset : 1 ≤ preset ∧ preset ≤ 8) (h : Alike s t) :
    SameTexts (s.applyPreset preset) (t.applyPreset preset) := by
  obtain ⟨hlow, hhigh⟩ := hpreset
  interval_cases preset
  case «5» => exact ⟨rfl, rfl, h.skipStr, h.seekStr⟩
  all_goals exact ⟨rfl, h.limitStr, h.skipStr, h.seekStr⟩

/-- The first endpoint with a listed path has that path. -/
theorem position_selects {path : Text} (h : s.Lists path) (idx : Nat) :
    (s.devices[(position s.devices path).getD idx]?).map (components ·.path) =
      some (components path) := by
  cases hpos : position s.devices path with
  | none => exact absurd h (position_eq_none.mp hpos)
  | some pos =>
    obtain ⟨d, hd, hsame⟩ := position_eq_some hpos
    rw [Option.getD_some, hd, Option.map_some, samePath_iff.mp hsame]

/-- The fifth preset selects its own endpoints. -/
theorem applyPreset_sameSelection (hpreset : 1 ≤ preset ∧ preset ≤ 8) (h : SameSelection s t)
    (hs : s.Lists devZero ∧ s.Lists devNull) (ht : t.Lists devZero ∧ t.Lists devNull) :
    SameSelection (s.applyPreset preset) (t.applyPreset preset) := by
  obtain ⟨hlow, hhigh⟩ := hpreset
  interval_cases preset
  case «5» =>
    constructor
    · exact (position_selects hs.1 _).trans (position_selects ht.1 _).symm
    · exact (position_selects hs.2 _).trans (position_selects ht.2 _).symm
  all_goals exact ⟨h.source, h.target⟩

end TuiState

namespace Tui

/-- A preset loaded in two runs gives the same configuration exactly if a text is no size, or the
settings that it leaves were the same. -/
theorem preset_determines_iff {p q : Tui} (hp : tui.Reachable p) (hq : tui.Reachable q)
    (halike : p.state.Alike q.state) {preset : Nat} (hpreset : 1 ≤ preset ∧ preset ≤ 8) :
    SameResult (p.state.applyPreset preset).buildConfig (q.state.applyPreset preset).buildConfig ↔
      p.state.UnparsedUnder preset ∨ TuiState.LeftAlike preset p.state q.state := by
  rw [TuiState.sameResult_iff (TuiState.applyPreset_sameTexts hpreset halike)
    (TuiState.applyPreset_sameSelection hpreset halike.toSameSelection (reachable_endpoints hp)
      (reachable_endpoints hq))]
  exact or_congr (TuiState.applyPreset_unparsed_iff hpreset)
    (TuiState.applyPreset_sameSettings_iff hpreset halike)

section Example

def afterKey (c : Char) : Tui := (atDesk []).next (.key (.char c))

theorem reachable_afterKey (c : Char) : tui.Reachable (afterKey c) :=
  .step (a := .key (.char c)) (.init ⟨rfl, rfl⟩) ⟨rfl, rfl⟩

theorem afterKey_alike {c : Char} (h : c = '2' ∨ c = 'd') :
    (atDesk []).state.Alike (afterKey c).state := by
  rcases h with rfl | rfl
  · exact ⟨⟨rfl, rfl⟩, rfl, rfl, rfl, rfl, rfl, rfl⟩
  · exact ⟨⟨rfl, rfl⟩, rfl, rfl, rfl, rfl, rfl, rfl⟩

/-- The first preset does not unset what the second one sets. -/
theorem preset_leaks : ¬ ∀ (p q : Tui) (preset : Nat), tui.Reachable p → tui.Reachable q →
    p.state.Alike q.state → 1 ≤ preset ∧ preset ≤ 8 →
      SameResult (p.state.applyPreset preset).buildConfig
        (q.state.applyPreset preset).buildConfig := by
  intro h
  have halike := afterKey_alike (.inl rfl)
  have hsame := h (atDesk []) (afterKey '2') 1 (.init ⟨rfl, rfl⟩) (reachable_afterKey '2') halike
    (by decide)
  have htexts : TuiState.SameTexts ((atDesk []).state.applyPreset 1) _ :=
    TuiState.applyPreset_sameTexts (by decide) halike
  rw [TuiState.sameResult_iff htexts ⟨rfl, rfl⟩] at hsame
  rcases hsame with hparse | hsettings
  · revert hparse
    unfold TuiState.Unparsed
    decide
  · cases hsettings.queueDepthOpt

/-- A setting that it does set does not matter. -/
theorem preset_determines_direct :
    SameResult ((atDesk []).state.applyPreset 1).buildConfig
      ((afterKey 'd').state.applyPreset 1).buildConfig := by
  have hleft : TuiState.LeftAlike 1 (atDesk []).state (afterKey 'd').state := by
    constructor <;> exact fun _ => rfl
  exact (preset_determines_iff (.init ⟨rfl, rfl⟩) (reachable_afterKey 'd')
    (afterKey_alike (.inr rfl)) ⟨Nat.le_refl 1, by decide⟩).mpr (.inr hleft)

end Example

end Tui

end Blkcp.Rust
