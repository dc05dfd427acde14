import Blkcp.Rust.Presets
set_option autoImplicit false

/-! On a host that lists its block devices as a kernel does, the interface lists no path twice, and
an endpoint that is looked up by its path is the one with that path. -/

namespace Blkcp.Rust
open Blkcp.Lib

/-- The names of the block devices are different, they are names of one part, and none is that of a
virtual endpoint. -/
structure Host.Plain (H : Host) : Prop where
  nodup : ((H.blocks.getD []).map (·.name)).Nodup
  single : ∀ e ∈ H.blocks.getD [], '/' ∉ e.name ∧ isSkipped e.name = false
  notVirtual : ∀ e ∈ H.blocks.getD [], e.name ∉ [zeroName, urandomName, nullName]

/-- No two endpoints have the same path. -/
def DistinctPaths (devices : List BlockDevice) : Prop := (devices.map (components ·.path)).Nodup

section Paths

variable {devices : List BlockDevice}

theorem components_devDir {name : Text} (h : '/' ∉ name) (hname : isSkipped name = false) :
    components (devDir ++ name) = (true, [['d', 'e', 'v'], name]) := by
  have hsplit : (['d', 'e', 'v'] ++ '/' :: name).splitOn '/' = [['d', 'e', 'v'], name] := by
    rw [List.splitOn_append_cons_self_of_not_mem (by decide), List.splitOn_eq_singleton h]
  have hpath : splitPath (devDir ++ name) = (true, [['d', 'e', 'v'], name]) :=
    congrArg (Prod.mk true) hsplit
  have hdev : isSkipped ['d', 'e', 'v'] = false := by decide
  simp only [components, hpath]
  rw [List.filter_cons_of_pos (by simp [hdev]), List.filter_cons_of_pos (by simp [hname]),
    List.filter_nil]

/-- In such a list an endpoint is found where it stands. -/
theorem DistinctPaths.position_eq (h : DistinctPaths devices) {i : Nat} {d : BlockDevice}
    (hd : devices[i]? = some d) : position devices d.path = some i := by
  cases hpos : position devices d.path with
  | none => exact absurd ⟨d, List.mem_of_getElem? hd, by simp [samePath]⟩ (position_eq_none.mp hpos)
  | some j =>
    obtain ⟨e, he, hsame⟩ := position_eq_some hpos
    have hkey : (devices.map (components ·.path))[j]? = (devices.map (components ·.path))[i]? := by
      rw [List.getElem?_map, List.getElem?_map, he, hd, Option.map_some, Option.map_some,
        samePath_iff.mp hsame]
    have hlt : j < (devices.map (components ·.path)).length := by
      rw [List.length_map]
      exact (List.getElem?_eq_some_iff.mp he).1
    rw [(List.getElem?_inj hlt h).mp hkey]

/-- An entry gives way to one with its path. -/
theorem DistinctPaths.set {pos : Nat} {d e : BlockDevice} (h : DistinctPaths devices)
    (hd : devices[pos]? = some d) (hsame : samePath d.path e.path) :
    DistinctPaths (devices.set pos e) := by
  obtain ⟨hlt, rfl⟩ := List.getElem?_eq_some_iff.mp hd
  have hlt' : pos < (devices.map (components ·.path)).length := by rwa [List.length_map]
  have hkey : (devices.map (components ·.path))[pos] = components devices[pos].path :=
    List.getElem_map _
  unfold DistinctPaths
  rw [List.map_set, ← samePath_iff.mp hsame, ← hkey, List.set_getElem_self]
  exact h

theorem DistinctPaths.concat {d : BlockDevice} (h : DistinctPaths devices)
    (hnew : ¬ ∃ e ∈ devices, samePath e.path d.path) : DistinctPaths (devices ++ [d]) := by
  unfold DistinctPaths
  rw [List.map_append, List.map_singleton, ← List.concat_eq_append, List.nodup_concat]
  refine ⟨?_, h⟩
  intro hmem
  obtain ⟨e, he, hsame⟩ := List.mem_map.mp hmem
  exact hnew ⟨e, he, samePath_iff.mpr hsame⟩

theorem keepCustom_distinct (cd : BlockDevice) (h : DistinctPaths devices) :
    DistinctPaths (TuiState.keepCustom devices cd) := by
  unfold TuiState.keepCustom
  split
  · exact h
  · rename_i hnew
    exact h.concat fun hlisted => hnew (List.any_eq_true.mpr hlisted)

theorem foldl_keepCustom_distinct (customDevs : List BlockDevice) (h : DistinctPaths devices) :
    DistinctPaths (customDevs.foldl TuiState.keepCustom devices) := by
  induction customDevs generalizing devices with
  | nil => exact h
  | cons cd rest ih => exact ih (keepCustom_distinct cd h)

end Paths

section Scan

variable {H : Host}

theorem scannedDevice_path {includePartitions : Bool} {entry : BlockEntry} {d : BlockDevice}
    (h : scannedDevice H includePartitions entry = some d) : d.path = devDir ++ entry.name := by
  simp only [scannedDevice] at h
  split at h
  · cases h
  split at h
  · cases h
  split at h
  · cases h
  split at h
  · cases h
  cases h
  rfl

theorem Host.Plain.components_path (h : H.Plain) {includePartitions : Bool} {entry : BlockEntry}
    {d : BlockDevice} (hmem : entry ∈ H.blocks.getD [])
    (hd : scannedDevice H includePartitions entry = some d) :
    components d.path = (true, [['d', 'e', 'v'], entry.name]) := by
  obtain ⟨hslash, hskip⟩ := h.single entry hmem
  rw [scannedDevice_path hd, components_devDir hslash hskip]

theorem Host.Plain.scan_distinct (h : H.Plain) (includePartitions : Bool) :
    DistinctPaths (scanBlockDevicesExt H includePartitions) := by
  let scanned := (H.blocks.getD []).filterMap (scannedDevice H includePartitions)
  have hnames : (H.blocks.getD []).Pairwise fun a b => a.name ≠ b.name :=
    List.pairwise_map.mp h.nodup
  have hscanned : DistinctPaths scanned := by
    refine List.pairwise_map.mpr (List.pairwise_filterMap.mpr (hnames.imp_of_mem ?_))
    intro a b ha hb hne d hd e he hsame
    rw [h.components_path ha hd, h.components_path hb he] at hsame
    simp only [Prod.mk.injEq, List.cons.injEq, true_and, and_true] at hsame
    exact hne hsame
  have hsorted : DistinctPaths (scanned.insertionSort fun a b => a.name ≤ b.name) :=
    ((List.perm_insertionSort _ scanned).map _).nodup_iff.mpr hscanned
  have hvirtual : [virtualEndpoint H zeroName, virtualEndpoint H urandomName,
      virtualEndpoint H nullName].map (components ·.path) =
        [zeroName, urandomName, nullName].map fun name => (true, [['d', 'e', 'v'], name]) := rfl
  unfold DistinctPaths scanBlockDevicesExt
  rw [List.map_append, List.nodup_append, hvirtual]
  refine ⟨hsorted, by decide, ?_⟩
  -- a scanned name is not one of the three
  intro key hkey endpoint hendpoint heq
  obtain ⟨d, hd, rfl⟩ := List.mem_map.mp hkey
  obtain ⟨name, hname, rfl⟩ := List.mem_map.mp hendpoint
  obtain ⟨entry, hentry, hd⟩ := List.mem_filterMap.mp ((List.mem_insertionSort _).mp hd)
  rw [h.components_path hentry hd] at heq
  simp only [Prod.mk.injEq, List.cons.injEq, true_and, and_true] at heq
  exact h.notVirtual entry hentry (heq ▸ hname)

end Scan

namespace TuiState

variable {H : Host} {s : TuiState}

theorem refreshDevices_distinct (hH : H.Plain) : DistinctPaths (s.refreshDevices H).devices :=
  foldl_keepCustom_distinct _ (hH.scan_distinct s.includePartitions)

theorem addOrSelectCustomPath_distinct (path : Text) (forTarget : Bool)
    (h : DistinctPaths s.devices) :
    DistinctPaths (s.addOrSelectCustomPath H path forTarget).devices := by
  unfold addOrSelectCustomPath
  cases hpos : position s.devices path with
  | some pos =>
    obtain ⟨d, hd, hsame⟩ := position_eq_some hpos
    have hset := h.set hd (e := BlockDevice.fromCustomPath H path) hsame
    cases forTarget <;> exact hset
  | none =>
    have hconcat := h.concat (d := BlockDevice.fromCustomPath H path) (position_eq_none.mp hpos)
    cases forTarget <;> exact hconcat

/-! The list changes by a rescan and by a path that is typed or picked, and by nothing else. -/

/-- The list has no path twice. -/
def Listing (s : TuiState) : Prop := DistinctPaths s.devices

theorem Listing.ite {P : Prop} [Decidable P] {s t : TuiState} (hs : s.Listing) (ht : t.Listing) :
    (if P then s else t).Listing := by
  split
  · exact hs
  · exact ht

theorem Listing.of_devices {t : TuiState} (h : s.Listing) (hdevices : t.devices = s.devices) :
    t.Listing := by
  unfold Listing
  rw [hdevices]
  exact h

theorem charKey_listing (hH : H.Plain) (c : Char) (h : s.Listing) : (s.charKey H c).Listing := by
  unfold charKey
  refine .ite h (.ite (h.of_devices s.upKey_devices) ?_)
  refine .ite (.ite (h.of_devices s.toggleSelectedModule_devices) h) ?_
  iterate 14 refine .ite h ?_
  refine .ite (refreshDevices_distinct hH) (.ite (refreshDevices_distinct hH) ?_)
  iterate 4 refine .ite h ?_
  refine .ite (h.of_devices (s.applyPreset_devices _)) ?_
  exact .ite (h.of_devices s.autoResolveCombinations_devices) h

theorem pathInputKey_listing (forTarget : Bool) (buffer : Text) (code : KeyCode) (h : s.Listing) :
    (s.pathInputKey H forTarget buffer code).Listing := by
  cases code with
  | enter => exact .ite (addOrSelectCustomPath_distinct _ forTarget h) h
  | _ => exact h

theorem fileBrowserKey_listing (forTarget : Bool) (currentDir : Text) (entries : List FileEntry)
    (selectedIdx : Nat) (code : KeyCode) (h : s.Listing) :
    (s.fileBrowserKey H forTarget currentDir entries selectedIdx code).Listing := by
  unfold fileBrowserKey
  refine .ite h (.ite h (.ite (.ite h h) (.ite ?_ h)))
  split
  · exact .ite h (addOrSelectCustomPath_distinct _ forTarget h)
  · exact h

end TuiState

namespace Tui

variable {p : Tui}

theorem handleKeyEvent_listing (hH : p.host.Plain) (code : KeyCode) (h : p.state.Listing) :
    (p.handleKeyEvent code).state.Listing := by
  unfold handleKeyEvent
  cases p.state.activeJob with
  | some job =>
    simp only [cancelKey]
    split <;> exact h
  | none =>
    dsimp only
    cases p.state.modal with
    | none =>
      cases code with
      | char c => exact TuiState.charKey_listing hH c h
      | enter => exact h.of_devices p.enterKey_devices
      | up => exact h.of_devices p.state.upKey_devices
      | down => exact h.of_devices p.state.downKey_devices
      | _ => exact h
    | safetyConfirm => exact h.of_devices (p.safetyConfirmKey_devices code)
    | pathInput forTarget buffer => exact TuiState.pathInputKey_listing forTarget buffer code h
    | limitInput field limitBuf skipBuf seekBuf =>
      exact h.of_devices (TuiState.limitInputKey_devices _ field limitBuf skipBuf seekBuf code)
    | fileBrowser forTarget currentDir entries selectedIdx =>
      exact TuiState.fileBrowserKey_listing forTarget currentDir entries selectedIdx code h

theorem next_listing (hH : p.host.Plain) (ev : Event) (h : p.state.Listing) :
    (p.next ev).state.Listing := by
  cases ev with
  | key code => exact handleKeyEvent_listing hH code h
  | poll =>
    simp only [next, pollActiveJob]
    split
    · split <;> exact h
    · exact h
  | _ => exact h

/-- As long as the host lists its block devices as a kernel does, no path is listed twice, and each
endpoint is found under its path where it stands. -/
theorem reachable_listing (h : (tui.within fun p => p.host.Plain).Reachable p) :
    DistinctPaths p.state.devices ∧ ∀ i d, p.state.devices[i]? = some d →
      position p.state.devices d.path = some i := by
  have hlisting : p.host.Plain ∧ p.state.Listing := by
    refine h.invariant (I := fun p => p.host.Plain ∧ p.state.Listing) ?_ ?_
    · rintro p ⟨⟨hnew, -⟩, hH⟩
      refine ⟨hH, ?_⟩
      rw [hnew]
      exact hH.scan_distinct false
    · rintro p ev q ⟨hH, hp⟩ ⟨⟨-, rfl⟩, hH'⟩
      exact ⟨hH', next_listing hH ev hp⟩
  exact ⟨hlisting.2, fun i d hd => DistinctPaths.position_eq hlisting.2 hd⟩

section Example

theorem desk_plain (mounts : List Line) : (desk mounts).Plain where
  nodup := List.nodup_singleton sda
  single e he := by
    rw [List.mem_singleton.mp he]
    decide
  notVirtual e he := by
    rw [List.mem_singleton.mp he]
    decide

theorem reachable_listing_atDesk : DistinctPaths (atDesk []).state.devices ∧
    ∀ i d, (atDesk []).state.devices[i]? = some d →
      position (atDesk []).state.devices d.path = some i :=
  reachable_listing (.init ⟨⟨rfl, rfl⟩, desk_plain []⟩)

end Example

end Tui

end Blkcp.Rust
