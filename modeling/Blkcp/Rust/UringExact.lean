import Blkcp.Rust.Amount
set_option autoImplicit false

/-! The copy through one ring writes the bytes of the input where they belong, and hashes them
once. -/

namespace Blkcp.Rust
open Blkcp.Lib Blkcp.Blks

variable {η₂ η₃ : Type} {env : HashEnv η₂ η₃} {cfg : Config} {cancel : Nat → Bool}
  {results : Nat → RingResult} {input : List Byte} {stats : Stats}
  {s t : UringState Byte η₂ η₃} {k written : Nat} {hand : List Byte}

/-- `k` bytes are copied and counted; behind them `hand` is read, and some of it written. -/
structure RingAt (env : HashEnv η₂ η₃) (cfg : Config) (input : List Byte) (stats : Stats) (k : Nat)
    (hand : List Byte) (written : Nat) (s : UringState Byte η₂ η₃) : Prop where
  in_eq : s.inOffset = cfg.skipBytes + (k + hand.length)
  out_eq : s.outOffset = cfg.seekBytes + k
  counted : s.stats.bytesCopied = stats.bytesCopied + k
  taken : ((input.drop cfg.skipBytes).take k).length = k
  hand_eq : (input.drop cfg.skipBytes).take (k + hand.length) =
    (input.drop cfg.skipBytes).take k ++ hand
  hashed : ∃ blocks, blocks.flatten = (input.drop cfg.skipBytes).take (k + hand.length) ∧
    s.hasher = hashAll env (InFlightHasher.new env cfg.hashAlgo) blocks
  written_le : written ≤ hand.length
  log : Consecutive cfg.seekBytes s.log
    ((input.drop cfg.skipBytes).take k ++ hand.take written)
  log_nil : k + hand.length = 0 → s.log = []

/-- The copy between two steps. -/
def RingGoes (env : HashEnv η₂ η₃) (cfg : Config) (input : List Byte) (stats : Stats)
    (s : UringState Byte η₂ η₃) : Prop :=
  match s.phase with
  | .top => ∃ k, RingAt env cfg input stats k [] 0 s
  | .writing bytes written => ∃ k, RingAt env cfg input stats k bytes written s

theorem RingAt.start : RingAt env cfg input stats 0 [] 0 (UringState.start env cfg stats) where
  in_eq := rfl
  out_eq := rfl
  counted := rfl
  taken := by rw [List.take_zero, List.length_nil]
  hand_eq := rfl
  hashed := ⟨[], rfl, rfl⟩
  written_le := Nat.le_refl _
  log := .nil
  log_nil _ := rfl

/-- A block is read and hashed. -/
theorem RingAt.read (h : RingAt env cfg input stats k [] 0 s) {n : Nat} {stats' : Stats}
    {bytes : List Byte} (hbytes : (s.ahead ⟨input, false⟩).take n = bytes) (hne : bytes ≠ [])
    (hstats : stats'.bytesCopied = s.stats.bytesCopied) (calls polls taken : Nat) :
    RingAt env cfg input stats k bytes 0 { s with
      inOffset := s.inOffset + bytes.length
      taken := taken
      hasher := s.hasher.update env bytes
      stats := stats'
      phase := .writing bytes 0
      calls := calls
      polls := polls } := by
  have hin := h.in_eq
  rw [List.length_nil, Nat.add_zero] at hin
  have hahead : s.ahead ⟨input, false⟩ = (input.drop cfg.skipBytes).drop k := by
    rw [UringState.ahead, hin, List.drop_drop]
    rfl
  have hhand : (input.drop cfg.skipBytes).take (k + bytes.length) =
      (input.drop cfg.skipBytes).take k ++ bytes := by
    have htake : (s.ahead ⟨input, false⟩).take bytes.length = bytes := by
      rw [← hbytes]
      exact List.take_eq_take_iff.mpr (by rw [List.length_take]; omega)
    rw [List.take_add, ← hahead, htake]
  obtain ⟨blocks, hflat, hhasher⟩ := h.hashed
  rw [List.length_nil, Nat.add_zero] at hflat
  refine {
    in_eq := by
      show s.inOffset + bytes.length = _
      rw [hin, Nat.add_assoc]
    out_eq := h.out_eq
    counted := hstats.trans h.counted
    taken := h.taken
    hand_eq := hhand
    hashed := ⟨blocks ++ [bytes], ?_, ?_⟩
    written_le := Nat.zero_le _
    log := h.log
    log_nil := fun hzero => ?_ }
  · rw [List.flatten_append, List.flatten_singleton, hflat, hhand]
  · show s.hasher.update env bytes = _
    rw [hhasher]
    simp [hashAll]
  · have hpos := List.length_pos_of_ne_nil hne
    omega

/-- Some of the block is written. -/
theorem RingAt.write (h : RingAt env cfg input stats k hand written s) {m : Nat}
    (hlt : written < hand.length) (hm : m ≤ hand.length - written) (calls : Nat) :
    RingAt env cfg input stats k hand (written + m) { s with
      log := s.log ++ [⟨(), s.outOffset + written, (hand.drop written).take m⟩]
      phase := .writing hand (written + m)
      calls := calls } where
  in_eq := h.in_eq
  out_eq := h.out_eq
  counted := h.counted
  taken := h.taken
  hand_eq := h.hand_eq
  hashed := h.hashed
  written_le := by
    have hle := h.written_le
    omega
  log := by
    have hoff : s.outOffset + written = cfg.seekBytes +
        ((input.drop cfg.skipBytes).take k ++ hand.take written).length := by
      rw [List.length_append, h.taken, List.length_take, Nat.min_eq_left h.written_le, h.out_eq,
        Nat.add_assoc]
    rw [hoff, List.take_add, ← List.append_assoc]
    exact h.log.snoc
  log_nil hzero := by omega

/-- The block is counted. -/
theorem RingAt.count (h : RingAt env cfg input stats k hand written s)
    (hend : hand.length ≤ written) {stats' : Stats}
    (hstats : stats'.bytesCopied = s.stats.bytesCopied + hand.length) (remaining : Option Nat) :
    RingAt env cfg input stats (k + hand.length) [] 0 { s with
      outOffset := s.outOffset + hand.length
      stats := stats'
      remaining := remaining
      phase := .top } where
  in_eq := h.in_eq
  out_eq := by
    show s.outOffset + hand.length = _
    rw [h.out_eq, Nat.add_assoc]
  counted := by
    show stats'.bytesCopied = _
    rw [hstats, h.counted, Nat.add_assoc]
  taken := by rw [h.hand_eq, List.length_append, h.taken]
  hand_eq := by rw [List.length_nil, Nat.add_zero, List.append_nil]
  hashed := h.hashed
  written_le := Nat.le_refl _
  log := by
    have hlog := h.log
    rw [List.take_of_length_le hend, ← h.hand_eq] at hlog
    rwa [List.take_nil, List.append_nil]
  log_nil := h.log_nil

theorem uringBody_goes (h : RingGoes env cfg input stats s)
    (hst : uringBody env cfg cancel results ⟨input, false⟩ s = .inl t) :
    RingGoes env cfg input stats t := by
  simp only [uringBody] at hst
  split at hst
  · rename_i hphase
    simp only [RingGoes, hphase] at h
    obtain ⟨k, h⟩ := h
    split at hst
    · cases hst
    split at hst
    · cases hst
    split at hst
    · cases hst
    · split at hst
      · obtain rfl := Sum.inl.inj hst
        simp only [RingGoes, hphase]
        exact ⟨k, h.in_eq, h.out_eq, h.counted, h.taken, h.hand_eq, h.hashed, h.written_le, h.log,
          h.log_nil⟩
      · cases hst
    · split at hst
      · cases hst
      · rename_i hne
        obtain rfl := Sum.inl.inj hst
        refine ⟨k, h.read rfl hne ?_ _ _ _⟩
        split <;> rfl
  · rename_i bytes written hphase
    simp only [RingGoes, hphase] at h
    obtain ⟨k, h⟩ := h
    split at hst
    · rename_i hend
      obtain rfl := Sum.inl.inj hst
      refine ⟨_, h.count hend ?_ _⟩
      rw [addBytes_bytesCopied]
      split <;> rfl
    · rename_i hlt
      split at hst
      · cases hst
      · split at hst
        · obtain rfl := Sum.inl.inj hst
          simp only [RingGoes, hphase]
          exact ⟨k, h.in_eq, h.out_eq, h.counted, h.taken, h.hand_eq, h.hashed, h.written_le,
            h.log, h.log_nil⟩
        · cases hst
      · obtain rfl := Sum.inl.inj hst
        have hring := ringLength_le (bytes.length - written)
        exact ⟨k, h.write (by omega) (by omega) _⟩

theorem uringBody_stops (h : RingGoes env cfg input stats s)
    (hst : uringBody env cfg cancel results ⟨input, false⟩ s = .inr (.ok (), t)) :
    ∃ k, RingAt env cfg input stats k [] 0 t := by
  simp only [uringBody] at hst
  split at hst
  · rename_i hphase
    simp only [RingGoes, hphase] at h
    obtain ⟨k, h⟩ := h
    split at hst
    · simp at hst
    split at hst
    · obtain ⟨-, rfl⟩ := Prod.mk.inj (Sum.inr.inj hst)
      exact ⟨k, h⟩
    split at hst
    · simp at hst
    · split at hst
      · cases hst
      · simp at hst
    · split at hst
      · obtain ⟨-, rfl⟩ := Prod.mk.inj (Sum.inr.inj hst)
        exact ⟨k, h.in_eq, h.out_eq, h.counted, h.taken, h.hand_eq, h.hashed, h.written_le, h.log,
          h.log_nil⟩
      · cases hst
  · split at hst
    · cases hst
    · split at hst
      · simp at hst
      · split at hst
        · cases hst
        · simp at hst
      · cases hst

section Example

/-- Two bytes from the second on, behind the first byte of the output. -/
def ringOffsets : Config :=
  { blockSize := 2, skipBytes := 1, seekBytes := 1, limitBytes := some 3, count := some 1 }

end Example

end Blkcp.Rust
