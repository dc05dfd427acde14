import Blkcp.Rust.SafetyGuard
import Blkcp.Rust.Tui
set_option autoImplicit false

/-! What the interface does before it starts a transfer: the confirmation dialog, what stays as it
is while it is open, and that one transfer at a time is running. -/

namespace Blkcp.Rust
open Blkcp.Lib

/-- What the guard said of an entry's path when the entry was made. The virtual endpoints are listed
as unused without asking it. -/
def BlockDevice.recorded (d : BlockDevice) : Option String :=
  if d.kind = .virtualDevice then none else d.listedOn.detectMountedViolation d.path

/-- An entry without a flag was made when the guard had nothing to say. -/
def BlockDevice.FlagKept (d : BlockDevice) : Prop := d.isSystemRoot = false → d.recorded = none

namespace TuiState

/-- What no key but Enter in normal navigation goes against: the job stays, the confirmation dialog
does not open, flags are what the guard said. -/
structure Tame (s t : TuiState) : Prop where
  activeJob : t.activeJob = s.activeJob
  modal : t.modal = .safetyConfirm → s.modal = .safetyConfirm
  flags : (∀ d ∈ s.devices, d.FlagKept) → ∀ d ∈ t.devices, d.FlagKept

theorem Tame.refl (s : TuiState) : Tame s s := ⟨rfl, id, id⟩

theorem Tame.trans {s t u : TuiState} (hst : Tame s t) (htu : Tame t u) : Tame s u where
  activeJob := htu.activeJob.trans hst.activeJob
  modal := hst.modal ∘ htu.modal
  flags := htu.flags ∘ hst.flags

theorem Tame.ite {P : Prop} [Decidable P] {s t u : TuiState} (ht : Tame s t) (hu : Tame s u) :
    Tame s (if P then t else u) := by
  split
  · exact ht
  · exact hu

/-- Settings, indices and what the interface shows do not matter. -/
theorem tame_of_eq {s t : TuiState} (hjob : t.activeJob = s.activeJob) (hmodal : t.modal = s.modal)
    (hdevices : t.devices = s.devices) : Tame s t where
  activeJob := hjob
  modal h := hmodal.symm.trans h
  flags h := by
    rw [hdevices]
    exact h

end TuiState

section Devices

variable (H : Host)

theorem fromCustomPath_flagKept (path : Text) : (BlockDevice.fromCustomPath H path).FlagKept := by
  intro hroot
  exact Option.isSome_eq_false_iff.mp hroot |> Option.isNone_iff_eq_none.mp

theorem scannedDevice_flagKept {includePartitions : Bool} {entry : BlockEntry} {d : BlockDevice}
    (h : scannedDevice H includePartitions entry = some d) : d.FlagKept := by
  simp only [scannedDevice] at h
  split at h
  · cases h
  split at h
  · cases h
  split at h
  · cases h
  split at h
  · cases h
  cases h
  intro hroot
  have hnone := (Bool.or_eq_false_iff.mp hroot).2
  rw [BlockDevice.recorded, if_neg (by dsimp only; split <;> exact nofun)]
  exact Option.isNone_iff_eq_none.mp (Option.isSome_eq_false_iff.mp hnone)

theorem virtualEndpoint_flagKept (name : Text) : (virtualEndpoint H name).FlagKept := fun _ => rfl

theorem scanBlockDevicesExt_flagKept (includePartitions : Bool) :
    ∀ d ∈ scanBlockDevicesExt H includePartitions, d.FlagKept := by
  intro d hd
  rw [scanBlockDevicesExt, List.mem_append] at hd
  rcases hd with hd | hd
  · rw [List.mem_insertionSort, List.mem_filterMap] at hd
    obtain ⟨entry, -, hentry⟩ := hd
    exact scannedDevice_flagKept H hentry
  · simp only [List.mem_cons, List.not_mem_nil, or_false] at hd
    rcases hd with rfl | rfl | rfl <;> exact virtualEndpoint_flagKept H _

end Devices

namespace TuiState

variable (H : Host) (s : TuiState)

theorem mem_keepCustom {devices : List BlockDevice} {cd d : BlockDevice}
    (h : d ∈ keepCustom devices cd) : d ∈ devices ∨ d = cd := by
  rw [keepCustom] at h
  split at h
  · exact .inl h
  · simpa using h

theorem mem_foldl_keepCustom {customDevs devices : List BlockDevice} {d : BlockDevice}
    (h : d ∈ customDevs.foldl keepCustom devices) : d ∈ devices ∨ d ∈ customDevs := by
  induction customDevs generalizing devices with
  | nil => exact .inl h
  | cons cd rest ih =>
    rcases ih h with h | h
    · rcases mem_keepCustom h with h | rfl
      · exact .inl h
      · exact .inr List.mem_cons_self
    · exact .inr (List.mem_cons_of_mem cd h)

theorem refreshDevices_tame : Tame s (s.refreshDevices H) where
  activeJob := rfl
  modal := id
  flags h d hd := by
    rcases mem_foldl_keepCustom hd with hd | hd
    · exact scanBlockDevicesExt_flagKept H _ d hd
    · exact h d (List.mem_of_mem_filter hd)

theorem addOrSelectCustomPath_tame (path : Text) (forTarget : Bool) :
    Tame s (s.addOrSelectCustomPath H path forTarget) := by
  have hflags : (∀ d ∈ s.devices, d.FlagKept) →
      ∀ d ∈ (s.addOrSelectCustomPath H path forTarget).devices, d.FlagKept := by
    intro h d hd
    have hmem : d ∈ s.devices ∨ d = BlockDevice.fromCustomPath H path := by
      simp only [addOrSelectCustomPath] at hd
      cases hpos : position s.devices path with
      | none =>
        rw [hpos] at hd
        cases forTarget <;> simpa using hd
      | some pos =>
        rw [hpos] at hd
        have hset : d ∈ s.devices.set pos (BlockDevice.fromCustomPath H path) := by
          cases forTarget <;> exact hd
        exact List.mem_or_eq_of_mem_set hset
    rcases hmem with hmem | rfl
    · exact h d hmem
    · exact fromCustomPath_flagKept H path
  rw [addOrSelectCustomPath] at hflags ⊢
  cases forTarget
  · exact ⟨rfl, id, hflags⟩
  · exact ⟨rfl, id, hflags⟩

theorem applyPreset_tame (preset : Nat) : Tame s (s.applyPreset preset) := by
  unfold applyPreset
  split <;> exact ⟨rfl, id, id⟩

theorem autoResolveCombinations_tame : Tame s s.autoResolveCombinations := by
  simp only [autoResolveCombinations]
  split_ifs <;> exact ⟨rfl, id, id⟩

theorem toggleSelectedModule_tame : Tame s s.toggleSelectedModule := by
  unfold toggleSelectedModule
  split
  case h_15 => exact ⟨rfl, nofun, id⟩
  all_goals exact ⟨rfl, id, id⟩

theorem upKey_tame : Tame s s.upKey := by
  unfold upKey
  split <;> exact ⟨rfl, id, id⟩

theorem downKey_tame : Tame s s.downKey := by
  unfold downKey
  split <;> split <;> exact ⟨rfl, id, id⟩

theorem charKey_tame (c : Char) : Tame s (s.charKey H c) := by
  have hpartitions : Tame s { s with includePartitions := !s.includePartitions } :=
    tame_of_eq rfl rfl rfl
  unfold charKey
  refine .ite (tame_of_eq rfl rfl rfl) (.ite (upKey_tame s) ?_)
  refine .ite (.ite (toggleSelectedModule_tame s) (.refl s)) ?_
  iterate 14 refine .ite (tame_of_eq rfl rfl rfl) ?_
  refine .ite (hpartitions.trans (refreshDevices_tame H _)) ?_
  refine .ite (refreshDevices_tame H s) ?_
  iterate 4 refine .ite ⟨rfl, nofun, id⟩ ?_
  exact .ite (applyPreset_tame s _) (.ite (autoResolveCombinations_tame s) (.refl s))

theorem pathInputKey_tame (forTarget : Bool) (buffer : Text) (code : KeyCode) :
    Tame s (s.pathInputKey H forTarget buffer code) := by
  have hclosed : Tame s { s with modal := .none } := ⟨rfl, nofun, id⟩
  cases code with
  | enter =>
    simp only [pathInputKey]
    split
    · exact hclosed.trans (addOrSelectCustomPath_tame H _ _ forTarget)
    · exact hclosed
  | esc => exact hclosed
  | char c => exact ⟨rfl, nofun, id⟩
  | backspace => exact ⟨rfl, nofun, id⟩
  | _ => exact .refl s

theorem limitInputKey_tame (field : Nat) (limitBuf skipBuf seekBuf : Text) (code : KeyCode) :
    Tame s (s.limitInputKey field limitBuf skipBuf seekBuf code) := by
  have hedit (edit : Text → Text) :
      editLimit field limitBuf skipBuf seekBuf edit ≠ .safetyConfirm := by
    unfold editLimit
    split <;> exact nofun
  cases code with
  | char c => exact ⟨rfl, fun h => absurd h (hedit (· ++ [c])), id⟩
  | backspace => exact ⟨rfl, fun h => absurd h (hedit List.dropLast), id⟩
  | other => exact .refl s
  | _ => exact ⟨rfl, nofun, id⟩

theorem fileBrowserKey_tame (forTarget : Bool) (currentDir : Text) (entries : List FileEntry)
    (selectedIdx : Nat) (code : KeyCode) :
    Tame s (s.fileBrowserKey H forTarget currentDir entries selectedIdx code) := by
  have hclosed : Tame s { s with modal := .none } := ⟨rfl, nofun, id⟩
  unfold fileBrowserKey
  refine .ite hclosed (.ite ⟨rfl, nofun, id⟩ (.ite (.ite ⟨rfl, nofun, id⟩ (.refl s)) ?_))
  refine .ite ?_ (.refl s)
  split
  · exact .ite ⟨rfl, nofun, id⟩ (hclosed.trans (addOrSelectCustomPath_tame H _ _ forTarget))
  · exact .refl s

end TuiState

namespace Tui

/-- What a transfer started now is started with. -/
structure StartedWith (p : Tui) (cfg : Config) : Prop where
  dryRun : cfg.dryRun = false
  force : cfg.force = p.state.forceOverride
  output : cfg.output = p.state.target.map fun d => String.ofList d.path

end Tui

theorem TuiState.buildConfig_eq {s : TuiState} {cfg : Config} (h : s.buildConfig = some cfg) :
    cfg.dryRun = s.dryRun ∧ cfg.force = s.forceOverride ∧
      cfg.output = s.target.map fun d => String.ofList d.path := by
  simp only [buildConfig, Option.bind_eq_bind, Option.bind_eq_some_iff] at h
  obtain ⟨⟨_, _⟩, -, _, -, _, -, _, -, hcfg⟩ := h
  cases hcfg
  exact ⟨rfl, rfl, rfl⟩

namespace Tui

theorem startTransfer_cases (p : Tui) : p.startTransfer = p ∨
    ∃ cfg expectedBytes, p.startTransfer = p.spawn cfg expectedBytes ∧ p.StartedWith cfg := by
  unfold startTransfer
  cases hcfg : p.state.buildConfig with
  | none => exact .inl rfl
  | some cfg =>
    obtain ⟨-, hforce, houtput⟩ := TuiState.buildConfig_eq hcfg
    simp only
    split
    · exact .inl rfl
    · rename_i hdry
      exact .inr ⟨cfg, _, rfl, Bool.eq_false_iff.mpr hdry, hforce, houtput⟩

/-- With the dry run switched on, no transfer starts. -/
theorem startTransfer_dryRun {p : Tui} (h : p.state.dryRun = true) : p.startTransfer = p := by
  unfold startTransfer
  cases hcfg : p.state.buildConfig with
  | none => rfl
  | some cfg => exact if_pos ((TuiState.buildConfig_eq hcfg).1.trans h)

/-- What lets a key start a transfer: the dialog, or Enter on `/dev/null`. -/
def Cleared (p : Tui) (code : KeyCode) : Prop :=
  p.state.modal = .safetyConfirm ∧ confirms code ∨
    code = .enter ∧ p.state.modal = .none ∧ ∃ d, p.state.target = some d ∧
      samePath d.path devNull = true ∧ (d.isSystemRoot = false ∨ p.state.forceOverride = true)

/-- All that an event can do. -/
inductive Moves (p : Tui) : Event → Tui → Prop where
  | quiet {ev : Event} {s : TuiState} : p.state.Tame s →
      (s.modal = .safetyConfirm → s = p.state) → Moves p ev { p with state := s }
  | polled {job : ActiveJob} {t : Transfer} : p.state.activeJob = some job →
      p.threads[job.handle]? = some t → t.finished = true →
      Moves p .poll { p with state := { p.state with activeJob := none } }
  | cancelled {code : KeyCode} (thread : Nat) : Moves p (.key code)
      { p with threads := p.threads.modify thread ({ · with cancelFlag := true }) }
  | finished (thread : Nat) : Moves p (.finish thread)
      { p with threads := p.threads.modify thread ({ · with finished := true }) }
  | changed (host : Host) : Moves p (.change host) { p with host := host }
  | opened {d : BlockDevice} : p.state.activeJob = none → p.state.modal = .none →
      p.state.target = some d → (d.isSystemRoot = false ∨ p.state.forceOverride = true) →
      Moves p (.key .enter) { p with state := { p.state with modal := .safetyConfirm } }
  | launched {code : KeyCode} {cfg : Config} (expectedBytes : Option Nat) :
      p.state.activeJob = none → p.Cleared code → p.StartedWith cfg →
      Moves p (.key code)
        ({ p with state := { p.state with modal := .none } }.spawn cfg expectedBytes)

variable {p : Tui}

theorem Moves.same {ev : Event} : p.Moves ev p := .quiet (.refl p.state) fun _ => rfl

/-- Without the dialog open, a tame key does not show it. -/
theorem Moves.tame {ev : Event} {s : TuiState} (h : p.state.Tame s)
    (hmodal : p.state.modal ≠ .safetyConfirm) : p.Moves ev { p with state := s } :=
  .quiet h fun hs => absurd (h.modal hs) hmodal

theorem pollActiveJob_moves : p.Moves .poll p.pollActiveJob := by
  unfold pollActiveJob
  cases hjob : p.state.activeJob with
  | none => exact .same
  | some job =>
    simp only
    split
    · rename_i hdone
      obtain ⟨t, ht, hfin⟩ := (Option.any_eq_true _ _).mp hdone
      exact .polled hjob ht hfin
    · exact .same

theorem enterKey_moves (hjob : p.state.activeJob = none) (hmodal : p.state.modal = .none) :
    p.Moves (.key .enter) p.enterKey := by
  unfold enterKey
  split
  · rename_i hdry
    rw [startTransfer_dryRun hdry]
    exact .same
  cases htarget : p.state.target with
  | none => exact .same
  | some d =>
    simp only
    split
    · exact .same
    rename_i hflag
    have hflag : d.isSystemRoot = false ∨ p.state.forceOverride = true := by
      simpa [Classical.or_iff_not_imp_left] using hflag
    split
    · rename_i hnull
      rcases startTransfer_cases p with h | ⟨cfg, expectedBytes, h, hcfg⟩
      · rw [h]
        exact .same
      · have hclosed : ({ p with state := { p.state with modal := .none } } : Tui) = p := by
          rw [← hmodal]
        rw [h]
        nth_rewrite 2 [← hclosed]
        exact .launched expectedBytes hjob (.inr ⟨rfl, hmodal, d, htarget, hnull, hflag⟩) hcfg
    · exact .opened hjob hmodal htarget hflag

theorem safetyConfirmKey_moves (hjob : p.state.activeJob = none)
    (hmodal : p.state.modal = .safetyConfirm) (code : KeyCode) :
    p.Moves (.key code) (p.safetyConfirmKey code) := by
  have hclosed {ev : Event} : p.Moves ev { p with state := { p.state with modal := .none } } :=
    .quiet ⟨rfl, nofun, id⟩ nofun
  unfold safetyConfirmKey
  simp only
  split
  · rename_i hcode
    rcases startTransfer_cases { p with state := { p.state with modal := .none } } with
      h | ⟨cfg, expectedBytes, h, hcfg⟩
    · rw [h]
      exact hclosed
    · rw [h]
      exact .launched expectedBytes hjob (.inl ⟨hmodal, hcode⟩)
        ⟨hcfg.dryRun, hcfg.force, hcfg.output⟩
  · split
    · exact hclosed
    · exact .same

theorem normalKey_moves (hjob : p.state.activeJob = none) (hmodal : p.state.modal = .none)
    (code : KeyCode) : p.Moves (.key code) (p.normalKey code) := by
  have htame {s : TuiState} (h : p.state.Tame s) : p.Moves (.key code) { p with state := s } :=
    .tame h (hmodal ▸ nofun)
  cases code with
  | char c => exact htame (TuiState.charKey_tame p.host p.state c)
  | enter => exact enterKey_moves hjob hmodal
  | esc => exact htame ⟨rfl, id, id⟩
  | tab => exact htame ⟨rfl, id, id⟩
  | backTab => exact htame ⟨rfl, id, id⟩
  | up => exact htame (TuiState.upKey_tame p.state)
  | down => exact htame (TuiState.downKey_tame p.state)
  | backspace => exact .same
  | other => exact .same

theorem handleKeyEvent_moves (code : KeyCode) : p.Moves (.key code) (p.handleKeyEvent code) := by
  unfold handleKeyEvent
  cases hjob : p.state.activeJob with
  | some job =>
    simp only [cancelKey]
    split
    · exact .cancelled job.handle
    · exact .same
  | none =>
    simp only
    cases hmodal : p.state.modal with
    | none => exact normalKey_moves hjob hmodal code
    | safetyConfirm => exact safetyConfirmKey_moves hjob hmodal code
    | pathInput forTarget buffer =>
      exact .tame (TuiState.pathInputKey_tame _ _ _ _ code) (hmodal ▸ nofun)
    | limitInput field limitBuf skipBuf seekBuf =>
      exact .tame (TuiState.limitInputKey_tame _ _ _ _ _ code) (hmodal ▸ nofun)
    | fileBrowser forTarget currentDir entries selectedIdx =>
      exact .tame (TuiState.fileBrowserKey_tame _ _ _ _ _ _ code) (hmodal ▸ nofun)

theorem next_moves (ev : Event) : p.Moves ev (p.next ev) := by
  cases ev with
  | poll => exact pollActiveJob_moves
  | key code => exact handleKeyEvent_moves code
  | finish thread => exact .finished thread
  | change host => exact .changed host

/-- A thread that has not ended is the one of the active job. -/
def JobKnown (p : Tui) : Prop :=
  ∀ i t, p.threads[i]? = some t → t.finished = false →
    ∃ job, p.state.activeJob = some job ∧ job.handle = i

/-- Changing the flags of a thread neither starts one nor lets an ended one go on. -/
theorem jobKnown_modify {p : Tui} {f : Transfer → Transfer} (thread : Nat)
    (hf : ∀ t, (f t).finished = false → t.finished = false) (h : p.JobKnown) :
    JobKnown { p with threads := p.threads.modify thread f } := by
  intro i t ht hrunning
  rw [List.getElem?_modify, Option.map_eq_map, Option.map_eq_some_iff] at ht
  obtain ⟨t', ht', rfl⟩ := ht
  refine h i t' ht' ?_
  split at hrunning
  · exact hf t' hrunning
  · exact hrunning

theorem Moves.jobKnown {ev : Event} {q : Tui} (hmoves : p.Moves ev q) (h : p.JobKnown) :
    q.JobKnown := by
  cases hmoves with
  | quiet htame _ =>
    intro i t ht hrunning
    obtain ⟨job, hjob, hhandle⟩ := h i t ht hrunning
    exact ⟨job, htame.activeJob.trans hjob, hhandle⟩
  | polled hjob hdone hfinished =>
    -- the thread of the job has ended, and no other was running
    intro i t ht hrunning
    obtain ⟨job, hjob', rfl⟩ := h i t ht hrunning
    cases hjob.symm.trans hjob'
    cases hdone.symm.trans ht
    rw [hfinished] at hrunning
    cases hrunning
  | cancelled thread => exact jobKnown_modify thread (fun t => id) h
  | finished thread => exact jobKnown_modify thread (fun t => nofun) h
  | changed host => exact h
  | opened => exact h
  | launched expectedBytes hnone _ _ =>
    intro i t ht hrunning
    rcases Nat.lt_trichotomy i p.threads.length with hi | rfl | hi
    · rw [spawn, List.getElem?_append_left hi] at ht
      obtain ⟨job, hjob, -⟩ := h i t ht hrunning
      rw [hnone] at hjob
      cases hjob
    · exact ⟨_, rfl, rfl⟩
    · rw [spawn, List.getElem?_eq_none (by simpa using Nat.succ_le_of_lt hi)] at ht
      cases ht

theorem reachable_jobKnown (h : tui.Reachable p) : p.JobKnown := by
  refine h.invariant ?_ ?_
  · rintro p ⟨-, hthreads⟩ i t ht
    rw [hthreads] at ht
    cases ht
  · rintro p ev q hp ⟨-, rfl⟩
    exact (next_moves ev).jobKnown hp

/-- The dialog is open, with the target and the force flag of the state it was opened in. -/
structure Confirming (opened p : Tui) : Prop where
  modal : p.state.modal = .safetyConfirm
  target : p.state.target = opened.state.target
  force : p.state.forceOverride = opened.state.forceOverride

/-- Enter opened the dialog on a target that is not flagged, or with the force flag on, and since
then it has been open without a change of either. -/
def OpenedByEnter (p : Tui) : Prop :=
  ∃ opened, tui.Reachable opened ∧ opened.state.running = true ∧ opened.state.modal = .none ∧
    (∃ d, opened.state.target = some d ∧
      (d.isSystemRoot = false ∨ opened.state.forceOverride = true)) ∧
    (tui.restrict fun q _ => Confirming opened q).Leads (opened.next (.key .enter)) p ∧
    Confirming opened p

theorem OpenedByEnter.step {ev : Event} {q : Tui} (h : p.OpenedByEnter) (hstep : tui.step p ev q)
    (hmodal : q.state.modal = .safetyConfirm) (htarget : q.state.target = p.state.target)
    (hforce : q.state.forceOverride = p.state.forceOverride) : q.OpenedByEnter := by
  obtain ⟨opened, hreach, hrunning, hnone, hflag, hleads, hp⟩ := h
  exact ⟨opened, hreach, hrunning, hnone, hflag, hleads.step ⟨hstep, hp⟩,
    hmodal, htarget.trans hp.target, hforce.trans hp.force⟩

theorem Moves.openedByEnter {ev : Event} {q : Tui} (hmoves : p.Moves ev q)
    (hreach : tui.Reachable p) (hstep : tui.step p ev q)
    (h : p.state.modal = .safetyConfirm → p.OpenedByEnter)
    (hmodal : q.state.modal = .safetyConfirm) : q.OpenedByEnter := by
  cases hmoves with
  | quiet htame hopen =>
    obtain rfl := hopen hmodal
    exact (h hmodal).step hstep hmodal rfl rfl
  | polled => exact (h hmodal).step hstep hmodal rfl rfl
  | cancelled => exact (h hmodal).step hstep hmodal rfl rfl
  | finished => exact (h hmodal).step hstep hmodal rfl rfl
  | changed => exact (h hmodal).step hstep hmodal rfl rfl
  | opened hjob hnone htarget hflag =>
    refine ⟨p, hreach, hstep.1, hnone, ⟨_, htarget, hflag⟩, ?_, rfl, rfl, rfl⟩
    rw [← hstep.2]
    exact .refl _
  | launched => cases hmodal

theorem reachable_openedByEnter (h : tui.Reachable p) (hmodal : p.state.modal = .safetyConfirm) :
    p.OpenedByEnter := by
  induction h with
  | init hinit =>
    rw [hinit.1] at hmodal
    cases hmodal
  | @step p q ev hreach hstep ih =>
    have hmoves : p.Moves ev q := by
      rw [hstep.2]
      exact next_moves ev
    exact hmoves.openedByEnter hreach hstep ih hmodal

/-- A transfer that an event starts. -/
def Starts (p : Tui) (ev : Event) (t : Transfer) : Prop :=
  t ∈ (p.next ev).threads.drop p.threads.length

theorem Starts.cases {ev : Event} {t : Transfer} (h : p.Starts ev t) :
    ∃ code, ev = .key code ∧ p.Cleared code ∧ p.StartedWith t.cfg := by
  rw [Starts] at h
  have hmoves := next_moves (p := p) ev
  generalize p.next ev = q at h hmoves
  cases hmoves with
  | launched expectedBytes hjob hcleared hcfg =>
    rw [spawn, List.drop_left, List.mem_singleton] at h
    rw [h]
    exact ⟨_, rfl, hcleared, hcfg⟩
  | cancelled => simp [List.drop_eq_nil_of_le] at h
  | finished => simp [List.drop_eq_nil_of_le] at h
  | _ => simp at h

/-- One transfer runs at a time. It starts with the dialog that Enter opened on its target, unless
it writes to `/dev/null`, and never with the dry run switched on. -/
theorem starts_confirmed (h : tui.Reachable p) :
    (∀ (i j : Nat) (t u : Transfer), p.threads[i]? = some t → p.threads[j]? = some u →
      t.finished = false → u.finished = false → i = j) ∧
    ∀ ev t, p.Starts ev t → t.cfg.dryRun = false ∧
      ∃ d, p.state.target = some d ∧ t.cfg.output = some (String.ofList d.path) ∧
        (samePath d.path devNull = true ∨
          (∃ code, ev = .key code ∧ confirms code) ∧ p.OpenedByEnter) := by
  constructor
  · intro i j t u ht hu htrunning hurunning
    obtain ⟨job, hjob, rfl⟩ := reachable_jobKnown h i t ht htrunning
    obtain ⟨job', hjob', rfl⟩ := reachable_jobKnown h j u hu hurunning
    cases hjob.symm.trans hjob'
    rfl
  · intro ev t hstarts
    obtain ⟨code, rfl, hcleared, hcfg⟩ := hstarts.cases
    refine ⟨hcfg.dryRun, ?_⟩
    rcases hcleared with ⟨hmodal, hcode⟩ | ⟨-, -, d, htarget, hnull, -⟩
    · have hopened := reachable_openedByEnter h hmodal
      obtain ⟨opened, -, -, -, ⟨d, htarget, -⟩, -, hconfirming⟩ := hopened
      have htarget := hconfirming.target.trans htarget
      exact ⟨d, htarget, by rw [hcfg.output, htarget]; rfl,
        .inr ⟨⟨code, rfl, hcode⟩, reachable_openedByEnter h hmodal⟩⟩
    · exact ⟨d, htarget, by rw [hcfg.output, htarget]; rfl, .inl hnull⟩

end Tui

section Example

theorem deskMachine_collects (mounts : List Line) (path : Text) :
    ((⟨some, ⟨fun _ => [], fun _ => []⟩, some mounts, none⟩ : Machine).detectMountedViolation 3
      path).isSome := by
  have hrun (d : Text) : collectAllHolders ⟨fun _ => [], fun _ => []⟩ 3 d = some [] := rfl
  simp only [Machine.detectMountedViolation, hrun]
  split
  · rfl
  · split <;> rfl

/-- A host with one disk and no files. -/
def desk (mounts : List Line) : Host where
  machine := ⟨some, ⟨fun _ => [], fun _ => []⟩, some mounts, none⟩
  fuel _ := 3
  collects := deskMachine_collects mounts
  blocks := some [⟨sda, false, some 8⟩]
  fileLen _ := none
  currentDir := none
  readDir _ := none

namespace Tui

def atDesk (mounts : List Line) : Tui := ⟨TuiState.new (desk mounts), [], desk mounts⟩

/-- The disk is selected as the target and Enter is pressed. -/
def diskChosen : Tui :=
  [Event.key .backTab, .key .up, .key .up, .key .up, .key .enter].foldl next (atDesk [])

theorem reachable_diskChosen : tui.Reachable diskChosen := by
  have hstart : tui.Reachable (atDesk []) := .init ⟨rfl, rfl⟩
  have hfocus : tui.Reachable ((atDesk []).next (.key .backTab)) := hstart.step ⟨rfl, rfl⟩
  have hup := hfocus.step (a := .key .up) (t := _) ⟨rfl, rfl⟩
  have hup := hup.step (a := .key .up) (t := _) ⟨rfl, rfl⟩
  have hup := hup.step (a := .key .up) (t := _) ⟨rfl, rfl⟩
  exact hup.step (a := .key .enter) ⟨rfl, rfl⟩

/-- The transfer started by `y` in the dialog. -/
def toDisk : Transfer := (diskChosen.next (.key (.char 'y'))).threads.head (by exact nofun)

theorem starts_confirmed_diskChosen : diskChosen.Starts (.key (.char 'y')) toDisk ∧
    toDisk.cfg.dryRun = false ∧ ∃ d, diskChosen.state.target = some d ∧
      toDisk.cfg.output = some (String.ofList d.path) ∧
      (samePath d.path devNull = true ∨
        (∃ code, Event.key (.char 'y') = .key code ∧ confirms code) ∧
        diskChosen.OpenedByEnter) := by
  have hstarts : diskChosen.Starts (.key (.char 'y')) toDisk := List.mem_singleton.mpr rfl
  exact ⟨hstarts, (starts_confirmed reachable_diskChosen).2 _ _ hstarts⟩

end Tui

end Example

end Blkcp.Rust
