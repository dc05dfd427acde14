import Blkcp.Rust.Spent
set_option autoImplicit false

/-! How much the engines copy of a regular file. -/

namespace Blkcp.Rust
open Blkcp.Lib Blkcp.Blks

/-- The paths that copy. -/
inductive CopyEngine where
  | sync | async | ring | shards | reflink | splice
  deriving DecidableEq

/-- A copy of a regular file by one of the engines that has run to completion, not cancelled: the
counters before and after. -/
inductive Completed (cfg : Config) (input : List Byte) (stats : Stats) : CopyEngine → Stats → Prop
  where
  | sync {ρ ω η₂ η₃ : Type} {I : Input Byte ρ} {O : Output Byte ω} {env : HashEnv η₂ η₃}
      {rest : ρ → List Byte} {cancel : Nat → Bool} {fuel : Nat} {source : ρ} {file : ω}
      {y : LoopState Byte ρ ω η₂ η₃} :
      ReadsFrom I rest → FullReads I rest → rest source = input.drop cfg.skipBytes →
      transferLoop I O env cfg cancel fuel (.start env cfg source file stats) = some (.ok (), y) →
      Completed cfg input stats .sync y.stats
  | async {ρ ω η₂ η₃ : Type} {I : Input Byte ρ} {O : Output Byte ω} {env : HashEnv η₂ η₃}
      {rest : ρ → List Byte} {source : ρ} {file : ω} {s : AsyncState Byte ρ ω η₂ η₃} :
      ReadsFrom I rest → FullReads I rest → rest source = input.drop cfg.skipBytes →
      (asyncSystem I O env cfg source file stats).Reachable s → s.cancelled = false →
      s.main = .returned (.ok ()) → Completed cfg input stats .async s.stats
  | ring {η₂ η₃ : Type} {env : HashEnv η₂ η₃} {ring : Option String} {cancel : Nat → Bool}
      {results : Nat → RingResult} {fuel : Nat} {s : UringState Byte η₂ η₃} :
      executeUringSingle env ring cancel results fuel cfg ⟨input, false⟩ stats =
        some (.ok (), s) → Completed cfg input stats .ring s.stats
  | shards {s : ShardState (numWorkers cfg)} {ws : List StripeLeaves} :
      (shardedSystem cfg (some input.length) input (numWorkers cfg) stats).Reachable s →
      s.cancelled = false → joinWorkers s = some (.ok ws) →
      Completed cfg input stats .shards s.stats
  | reflink {kinds : Option (FileKind × FileKind)} {cancel : Nat → Bool}
      {results : Nat → SpliceResult} {fuel pos : Nat} {output : List Byte}
      {s : ReflinkState Byte} :
      reflinkRun kinds cancel results fuel cfg (input.drop cfg.skipBytes) output pos stats =
        some (.ok true, s) → Completed cfg input stats .reflink s.stats
  | splice {pipeOk : Bool} {cancel : Nat → Bool} {results : Nat → SpliceResult} {fuel pos : Nat}
      {output : List Byte} {s : SpliceState Byte} :
      spliceRun pipeOk cancel results fuel cfg (input.drop cfg.skipBytes) output pos stats =
        some (.ok true, s) → Completed cfg input stats .splice s.stats

/-- The smallest of the limit, `count` blocks and what there is. -/
def requested (cfg : Config) (available : Nat) : Nat :=
  cap cfg.limitBytes (cap (cfg.count.map (· * cfg.blockSize)) available)

/-- With a limit and a count the count makes no difference. -/
def CountIdle (cfg : Config) (available : Nat) : Prop :=
  ∀ l c, cfg.limitBytes = some l → cfg.count = some c → min l available ≤ c * cfg.blockSize

variable {cfg : Config} {available : Nat}

theorem effectiveBlockSize_eq (hpos : 0 < cfg.blockSize) : effectiveBlockSize cfg = cfg.blockSize :=
  Nat.max_eq_left hpos

/-- A product that does not fit is more than there is. -/
theorem cap_saturatingMul (c bs : Nat) (h : available ≤ u64Max) :
    cap (some (saturatingMul c bs)) available = cap (some (c * bs)) available := by
  simp only [cap, saturatingMul]
  omega

theorem cap_remainingTotal (hpos : 0 < cfg.blockSize) (h : available ≤ u64Max) :
    cap (remainingTotal cfg) available = requested cfg available := by
  rw [remainingTotal, requested, effectiveBlockSize_eq hpos]
  cases cfg.count with
  | none => rfl
  | some c =>
    rw [Option.map_some, ← cap_saturatingMul c cfg.blockSize h]
    cases cfg.limitBytes with
    | none => rfl
    | some l => exact cap_min _ _ _

/-- Block by block: whole blocks up to the limit or the end. -/
theorem requested_of_taken {stats stats' : Stats} {k b : Nat} (hpos : 0 < cfg.blockSize)
    (h : Taken cfg available stats stats' k b) (hwhole : k ≤ b * effectiveBlockSize cfg ∧
      (k = b * effectiveBlockSize cfg ∨ cfg.limitBytes = some k ∨ k = available)) :
    k = requested cfg available := by
  rw [effectiveBlockSize_eq hpos] at hwhole
  obtain ⟨hle, hwhole⟩ := hwhole
  have hsupply := h.le_supply
  have hcount : ∀ c, cfg.count = some c → k ≤ c * cfg.blockSize := fun c hc =>
    Nat.le_trans hle (Nat.mul_le_mul_right _ (h.le_count c hc))
  -- the bound that the copy stopped at is one of the three
  have hmeets : cfg.limitBytes = some k ∨ (∃ c, cfg.count = some c ∧ k = c * cfg.blockSize) ∨
      k = available := by
    rcases h.done with hl | hc | ha
    · exact .inl hl
    · rcases hwhole with hb | hl | ha
      · exact .inr (.inl ⟨b, hc, hb⟩)
      · exact .inl hl
      · exact .inr (.inr ha)
    · exact .inr (.inr ha)
  have hlimit := h.le_limit
  rw [requested]
  cases hl : cfg.limitBytes with
  | none =>
    cases hc : cfg.count with
    | none => simp_all [cap]
    | some c =>
      have hc' := hcount c hc
      simp only [hl, hc, reduceCtorEq, false_or, Option.some.injEq, exists_eq_left'] at hmeets
      simp only [cap, Option.map_some]
      omega
  | some l =>
    have hl' := hlimit l hl
    cases hc : cfg.count with
    | none =>
      simp only [hl, hc, Option.some.injEq, reduceCtorEq, false_and, exists_const, false_or]
        at hmeets
      simp only [cap, Option.map_none]
      omega
    | some c =>
      have hc' := hcount c hc
      simp only [hl, hc, Option.some.injEq, exists_eq_left'] at hmeets
      simp only [cap, Option.map_some]
      omega

/-- The metadata gives the length of the input, or none that is used. -/
def MetaHonest (input : List Byte) (metaLen : Option Nat) : Prop :=
  metaLen = some input.length ∨ metaLen = some 0 ∨ metaLen = none

theorem copyLength_of_honest (cfg : Config) {input : List Byte} {metaLen : Option Nat}
    (hmeta : MetaHonest input metaLen) :
    copyLength cfg metaLen input = cap (explicitLimit cfg) (input.length - cfg.skipBytes) := by
  rw [copyLength, totalBytesToCopy]
  cases explicitLimit cfg with
  | some l => rfl
  | none =>
    rw [Option.none_or, cap_none]
    rcases hmeta with rfl | rfl | rfl
    · rw [Option.map_some, Option.filter_some]
      split
      · rename_i total htotal
        split at htotal
        · rw [← Option.some.inj htotal, Nat.min_self]
        · cases htotal
      · rfl
    · rw [Option.map_some, Nat.zero_sub]
      rfl
    · rfl

/-- The stripes stop at the limit, and at the count only where there is no limit. -/
theorem copyLength_eq_iff (hpos : 0 < cfg.blockSize) {input : List Byte}
    (hlen : input.length ≤ u64Max) :
    copyLength cfg (some input.length) input = requested cfg (input.length - cfg.skipBytes) ↔
      CountIdle cfg (input.length - cfg.skipBytes) := by
  have hle : input.length - cfg.skipBytes ≤ u64Max := by omega
  rw [copyLength_of_honest cfg (.inl rfl), explicitLimit, requested, effectiveBlockSize_eq hpos]
  cases hl : cfg.limitBytes with
  | none =>
    cases hc : cfg.count with
    | none => simp [CountIdle, hl]
    | some c => simpa [CountIdle, hl] using cap_saturatingMul c cfg.blockSize hle
  | some l =>
    cases hc : cfg.count with
    | none => simp [CountIdle, hc]
    | some c =>
      have hidle : CountIdle cfg (input.length - cfg.skipBytes) ↔
          min l (input.length - cfg.skipBytes) ≤ c * cfg.blockSize := by
        simp [CountIdle, hl, hc]
      rw [hidle, Option.some_or, Option.map_some, cap_some, cap_some, cap_some]
      omega

section Example

/-- Two workers, at most two bytes and at most one block of one byte. -/
def limitAndCount : Config :=
  { output := some "out", engine := .uring, threads := 2, blockSize := 1, limitBytes := some 2,
    count := some 1 }

/-- One worker copies both bytes. -/
theorem limitAndCount_run : ∃ s : ShardState 2,
    (shardedSystem limitAndCount (some 2) [7, 8] 2 {}).Reachable s ∧ s.cancelled = false ∧
      joinWorkers s = some (.ok []) ∧ s.stats.bytesCopied = 2 := by
  have h0 : (shardedSystem limitAndCount (some 2) [7, 8] 2 {}).Reachable (.start 2 {}) := .init rfl
  have h1 := h0.step (.starts _ 0 rfl)
  have h2 := h1.step (.passes _ 0 rfl)
  have h3 := h2.step (.claims _ 0 rfl (by decide))
  have h4 := h3.step (.submits _ 0 _ _ _ rfl (by decide))
  have h5 := h4.step (.reads _ 0 1 _ _ _ [7] rfl (by decide) (by decide) (by decide) rfl)
  have h6 := h5.step (.writes _ 0 1 _ _ _ _ _ rfl (by decide) (by decide))
  have h7 := h6.step (.counts _ 0 _ _ _ _ _ rfl (by decide))
  have h8 := h7.step (.submits _ 0 _ _ _ rfl (by decide))
  have h9 := h8.step (.reads _ 0 1 _ _ _ [8] rfl (by decide) (by decide) (by decide) rfl)
  have h10 := h9.step (.writes _ 0 1 _ _ _ _ _ rfl (by decide) (by decide))
  have h11 := h10.step (.counts _ 0 _ _ _ _ _ rfl (by decide))
  have h12 := h11.step (.finishes _ 0 _ _ _ rfl (by decide))
  have h13 := h12.step (.passes _ 0 rfl)
  have h14 := h13.step (.exhausts _ 0 2 rfl rfl (by decide))
  have h15 := h14.step (.starts _ 1 rfl)
  have h16 := h15.step (.passes _ 1 rfl)
  have h17 := h16.step (.exhausts _ 1 2 rfl rfl (by decide))
  exact ⟨_, h17, rfl, by decide, rfl⟩

theorem limitAndCount_completed :
    ∃ stats, Completed limitAndCount [7, 8] {} .shards stats ∧ stats.bytesCopied = 2 := by
  obtain ⟨s, hreach, hc, hok, hbytes⟩ := limitAndCount_run
  exact ⟨_, .shards hreach hc hok, hbytes⟩

end Example

end Blkcp.Rust
