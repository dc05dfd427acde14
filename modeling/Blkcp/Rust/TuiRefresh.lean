import Blkcp.Rust.TuiGate
set_option autoImplicit false

/-! What a refresh of the list of devices does to the selections. -/

namespace Blkcp.Rust
open Blkcp.Lib

/-- The selection has the path it had, or stands at the start because that path is not listed. -/
def KeptSelection (devices : List BlockDevice) (prev : Option Text) (idx : Nat) : Prop :=
  (∃ path ∈ prev, ∃ d, devices[idx]? = some d ∧ samePath d.path path) ∨
    (∀ path ∈ prev, ¬ ∃ d ∈ devices, samePath d.path path) ∧ idx = 0

theorem samePath_iff {p q : Text} : samePath p q ↔ components p = components q := by
  unfold samePath
  exact beq_iff_eq

theorem samePath_congr {p q : Text} (h : samePath p q) (r : Text) : samePath p r ↔ samePath q r := by
  rw [samePath_iff, samePath_iff, samePath_iff.mp h]

section Merge

variable {path : Text}

/-- A custom entry brings in no path but its own. -/
theorem keepCustom_lists (devices : List BlockDevice) (cd : BlockDevice) :
    (∃ d ∈ TuiState.keepCustom devices cd, samePath d.path path) ↔
      (∃ d ∈ devices, samePath d.path path) ∨ samePath cd.path path := by
  unfold TuiState.keepCustom
  split
  · rename_i hlisted
    obtain ⟨d, hmem, hsame⟩ := List.any_eq_true.mp hlisted
    constructor
    · exact .inl
    · rintro (h | h)
      · exact h
      · exact ⟨d, hmem, (samePath_congr hsame path).mpr h⟩
  · simp only [List.mem_append, List.mem_singleton, or_and_right, exists_or, exists_eq_left]

theorem foldl_keepCustom_lists (customDevs devices : List BlockDevice) :
    (∃ d ∈ customDevs.foldl TuiState.keepCustom devices, samePath d.path path) ↔
      (∃ d ∈ devices, samePath d.path path) ∨ ∃ d ∈ customDevs, samePath d.path path := by
  induction customDevs generalizing devices with
  | nil => simp
  | cons cd customDevs ih =>
    rw [List.foldl_cons, ih, keepCustom_lists, or_assoc]
    simp only [List.mem_cons, or_and_right, exists_or, exists_eq_left]

end Merge

theorem position_eq_some {devices : List BlockDevice} {path : Text} {pos : Nat}
    (h : position devices path = some pos) : ∃ d, devices[pos]? = some d ∧ samePath d.path path := by
  obtain ⟨hpos, hsame, -⟩ := List.findIdx?_eq_some_iff_getElem.mp h
  exact ⟨devices[pos], List.getElem?_eq_getElem hpos, hsame⟩

theorem position_eq_none {devices : List BlockDevice} {path : Text} :
    position devices path = none ↔ ¬ ∃ d ∈ devices, samePath d.path path := by
  unfold position
  rw [List.findIdx?_eq_none_iff]
  simp

namespace TuiState

/-- An index is repaired when its path is still listed or it points behind the list, and else only
right if it stands at the start. -/
theorem reselect_kept_iff (devices : List BlockDevice) (prev : Option Text) (idx : Nat) :
    KeptSelection devices prev (reselect devices prev idx) ↔
      (∃ path ∈ prev, ∃ d ∈ devices, samePath d.path path) ∨ idx = 0 ∨ devices.length ≤ idx := by
  by_cases hlisted : ∃ path ∈ prev, ∃ d ∈ devices, samePath d.path path
  · refine iff_of_true (.inl ?_) (.inl hlisted)
    obtain ⟨path, rfl, hlisted⟩ := hlisted
    cases hpos : position devices path with
    | none => exact absurd hlisted (position_eq_none.mp hpos)
    | some pos =>
      obtain ⟨d, hd, hsame⟩ := position_eq_some hpos
      have hlt : ¬ devices.length ≤ pos := Nat.not_le.mpr (List.getElem?_eq_some_iff.mp hd).1
      refine ⟨path, rfl, d, ?_, hsame⟩
      simp only [reselect, Option.bind_some, hpos, Option.getD_some]
      rw [if_neg hlt]
      exact hd
  · have hnone : prev.bind (position devices) = none := by
      rw [Option.bind_eq_none_iff]
      intro path hpath
      exact position_eq_none.mpr fun h => hlisted ⟨path, hpath, h⟩
    have hunlisted : ∀ path ∈ prev, ¬ ∃ d ∈ devices, samePath d.path path :=
      fun path hpath h => hlisted ⟨path, hpath, h⟩
    have hgone : ¬ ∃ path ∈ prev, ∃ d,
        devices[reselect devices prev idx]? = some d ∧ samePath d.path path := by
      rintro ⟨path, hpath, d, hd, hsame⟩
      exact hunlisted path hpath ⟨d, List.mem_of_getElem? hd, hsame⟩
    unfold KeptSelection
    rw [or_iff_right hgone, or_iff_right hlisted, and_iff_right hunlisted]
    simp only [reselect, hnone, Option.getD_none]
    split <;> omega

variable (s : TuiState) (H : Host)

/-- The rescan with the custom entries that it does not list. -/
def relist : List BlockDevice :=
  (s.devices.filter (·.kind == .regularFile)).foldl keepCustom
    (scanBlockDevicesExt H s.includePartitions)

/-- The path is found by the rescan or is that of a custom entry. -/
def Relisted (path : Text) : Prop :=
  (∃ d ∈ scanBlockDevicesExt H s.includePartitions, samePath d.path path) ∨
    ∃ d ∈ s.devices, d.kind = .regularFile ∧ samePath d.path path

/-- A selection that a refresh can follow: its path stays listed, or it is at the start, or no
device takes its place. -/
def Followed (prev : Option Text) (idx : Nat) : Prop :=
  (∃ path ∈ prev, s.Relisted H path) ∨ idx = 0 ∨ (s.relist H).length ≤ idx

theorem relist_lists (path : Text) :
    (∃ d ∈ s.relist H, samePath d.path path) ↔ s.Relisted H path := by
  unfold relist Relisted
  rw [foldl_keepCustom_lists]
  simp only [List.mem_filter, beq_iff_eq, and_assoc]

/-- A refresh keeps both selections, or resets those whose path is gone, exactly when it can follow
them. -/
theorem refreshDevices_kept_iff :
    KeptSelection (s.refreshDevices H).devices (s.target.map (·.path))
        (s.refreshDevices H).targetIdx ∧
      KeptSelection (s.refreshDevices H).devices (s.source.map (·.path))
        (s.refreshDevices H).sourceIdx ↔
    s.Followed H (s.target.map (·.path)) s.targetIdx ∧
      s.Followed H (s.source.map (·.path)) s.sourceIdx := by
  have hiff (prev : Option Text) (idx : Nat) :
      KeptSelection (s.relist H) prev (reselect (s.relist H) prev idx) ↔ s.Followed H prev idx := by
    rw [reselect_kept_iff]
    simp only [relist_lists, Followed]
  exact and_congr (hiff _ _) (hiff _ _)

section Example

/-- A host with some disks of 4096 bytes. -/
def disksHost (names : List Text) : Host :=
  { desk [] with blocks := some (names.map fun name => ⟨name, false, some 8⟩) }

def diskName (c : Char) : Text := ['s', 'd', c]

/-- The second of three disks is the target. -/
def threeDisks : TuiState :=
  { TuiState.new (disksHost [diskName 'a', diskName 'b', diskName 'c']) with targetIdx := 1 }

/-- The disks left when it is unplugged. -/
def unplugged : Host := disksHost [diskName 'a', diskName 'c']

/-- The disk behind it becomes the target. -/
theorem refresh_retargets : ¬ ∀ (s : TuiState) (H : Host),
    KeptSelection (s.refreshDevices H).devices (s.target.map (·.path))
        (s.refreshDevices H).targetIdx ∧
      KeptSelection (s.refreshDevices H).devices (s.source.map (·.path))
        (s.refreshDevices H).sourceIdx := by
  intro h
  have hbefore : threeDisks.target.map (·.path) = some (devDir ++ diskName 'b') := by decide
  have hafter : (threeDisks.refreshDevices unplugged).target.map (·.path) =
      some (devDir ++ diskName 'c') := by decide
  rcases (h threeDisks unplugged).1 with ⟨path, hpath, d, hd, hsame⟩ | ⟨-, hidx⟩
  · have hd' : (threeDisks.refreshDevices unplugged).target = some d := hd
    rw [hbefore] at hpath
    rw [hd'] at hafter
    obtain rfl := Option.some.inj hpath
    have hpath : d.path = devDir ++ diskName 'c' := Option.some.inj hafter
    rw [hpath] at hsame
    exact absurd hsame (by decide)
  · exact absurd hidx (by decide)

end Example

end TuiState

end Blkcp.Rust
