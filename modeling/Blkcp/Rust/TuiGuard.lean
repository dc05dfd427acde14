import Blkcp.Rust.TuiGate
set_option autoImplicit false

/-! The guard at the moment a transfer starts: the interface goes by the flag of the target's entry,
which is as old as the entry. -/

namespace Blkcp.Rust
open Blkcp.Lib

namespace Tui

variable {p : Tui}

theorem Moves.flags {ev : Event} {q : Tui} (hmoves : p.Moves ev q)
    (h : ∀ d ∈ p.state.devices, d.FlagKept) : ∀ d ∈ q.state.devices, d.FlagKept := by
  cases hmoves with
  | quiet htame _ => exact htame.flags h
  | _ => exact h

theorem reachable_flags (h : tui.Reachable p) : ∀ d ∈ p.state.devices, d.FlagKept := by
  refine h.invariant (I := fun p => ∀ d ∈ p.state.devices, d.FlagKept) ?_ ?_
  · rintro p ⟨hnew, -⟩
    rw [hnew]
    exact scanBlockDevicesExt_flagKept p.host false
  · rintro p ev q hp ⟨-, rfl⟩
    exact (next_moves ev).flags hp

/-- What is cleared is not flagged, unless the force flag is on. -/
theorem Cleared.flag {code : KeyCode} (hcleared : p.Cleared code) (h : tui.Reachable p) :
    ∃ d, p.state.target = some d ∧ (d.isSystemRoot = false ∨ p.state.forceOverride = true) := by
  rcases hcleared with ⟨hmodal, -⟩ | ⟨-, -, d, htarget, -, hflag⟩
  · obtain ⟨opened, -, -, -, ⟨d, htarget, hflag⟩, -, hconfirming⟩ :=
      reachable_openedByEnter h hmodal
    refine ⟨d, hconfirming.target.trans htarget, ?_⟩
    rwa [hconfirming.force]
  · exact ⟨d, htarget, hflag⟩

section Example

/-- While the dialog is open, a partition of the disk is mounted on `/`. -/
def mountedMeanwhile : Tui :=
  diskChosen.next (.change (desk [⟨[devDir ++ sda1, ['/']], true⟩]))

end Example

end Tui

end Blkcp.Rust
