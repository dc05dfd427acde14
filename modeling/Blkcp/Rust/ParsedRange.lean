import Blkcp.Rust.Args
import Blkcp.Rust.Sizes
set_option autoImplicit false

/-! The numbers that the command line lets through. -/

namespace Blkcp.Rust
open Blkcp.Lib

theorem parseSize_le {s : Text} {n : Nat} (h : parseSize s = some n) : n ≤ u64Max := by
  unfold parseSize at h
  dsimp only at h
  split_ifs at h
  · cases h
    exact Nat.zero_le _
  · obtain ⟨m, -, rfl⟩ := Option.map_eq_some_iff.mp h
    exact Nat.le_pred_of_lt (Nat.mod_lt _ (Nat.two_pow_pos 64))

/-- The sizes of a configuration are those of `u64`, and its block size is not zero. -/
structure Config.InRange (cfg : Config) : Prop where
  blockSize_pos : 0 < cfg.blockSize
  blockSize_le : cfg.blockSize ≤ u64Max
  limit_le : ∀ n ∈ cfg.limitBytes, n ≤ u64Max

section InRange

variable {cfg cfg' c : Config} {positional ws positional' ws' : List Text}

theorem autotuned_inRange : 0 < 64 * 1024 ∧ 64 * 1024 ≤ u64Max := by decide

theorem Config.InRange.valued {o : Valued} {val : Text} (hset : o.set val cfg = some cfg')
    (h : cfg.InRange) : cfg'.InRange := by
  obtain ⟨hpos, hle, hlimit⟩ := h
  unfold Valued.set at hset
  cases o with
  | blockSize =>
    dsimp only at hset
    split_ifs at hset
    · cases hset
      exact ⟨autotuned_inRange.1, autotuned_inRange.2, hlimit⟩
    · obtain ⟨sz, hsz, hset⟩ := Option.bind_eq_some_iff.mp hset
      split_ifs at hset with hzero
      cases hset
      exact ⟨Nat.pos_of_ne_zero hzero, parseSize_le hsz, hlimit⟩
  | limit =>
    obtain ⟨n, hn, rfl⟩ := Option.map_eq_some_iff.mp hset
    refine ⟨hpos, hle, fun m hm => ?_⟩
    cases hm
    exact parseSize_le hn
  | queueDepth =>
    obtain ⟨qd, -, hset⟩ := Option.bind_eq_some_iff.mp hset
    split_ifs at hset
    cases hset
    exact ⟨hpos, hle, hlimit⟩
  | input =>
    cases hset
    exact ⟨hpos, hle, hlimit⟩
  | output =>
    cases hset
    exact ⟨hpos, hle, hlimit⟩
  | _ =>
    obtain ⟨_, -, rfl⟩ := Option.map_eq_some_iff.mp hset
    exact ⟨hpos, hle, hlimit⟩

theorem Config.InRange.switch (o : Switch) (h : cfg.InRange) : (o.set cfg).InRange := by
  obtain ⟨hpos, hle, hlimit⟩ := h
  cases o with
  | autotune =>
    have hsize : (Switch.autotune.set cfg).blockSize =
        if cfg.blockSize = 512 then 64 * 1024 else cfg.blockSize := rfl
    rcases ite_eq_or_eq (cfg.blockSize = 512) (64 * 1024) cfg.blockSize with h | h
    · rw [h] at hsize
      exact ⟨hsize ▸ autotuned_inRange.1, hsize ▸ autotuned_inRange.2, hlimit⟩
    · rw [h] at hsize
      exact ⟨hsize ▸ hpos, hsize ▸ hle, hlimit⟩
  | _ => exact ⟨hpos, hle, hlimit⟩

theorem Config.InRange.step (hstep : ParseStep cfg positional ws cfg' positional' ws')
    (h : cfg.InRange) : cfg'.InRange := by
  cases hstep with
  | valued _ hset => exact h.valued hset
  | inline _ hset => exact h.valued hset
  | switch _ => exact h.switch _
  | positional _ => exact h

theorem resolvePositional_inRange (h : cfg.InRange)
    (hresolve : resolvePositional cfg positional = .config c) : c.InRange := by
  obtain ⟨hpos, hle, hlimit⟩ := h
  unfold resolvePositional at hresolve
  dsimp only at hresolve
  split_ifs at hresolve <;>
  · cases hresolve
    exact ⟨hpos, hle, hlimit⟩

/-- Every block size that is accepted is a positive number of 64 bits. -/
theorem parseArgs_inRange (h : parseArgs ws = .config c) : c.InRange := by
  have hstart : Config.InRange {} := ⟨by decide, by decide, nofun⟩
  obtain ⟨cfg', positional', hrange, hresolve⟩ :=
    parseLoop_run (I := fun cfg _ _ => cfg.InRange) Config.InRange.step hstart h
  exact resolvePositional_inRange hrange hresolve

end InRange

end Blkcp.Rust
