import Blkcp.Rust.Delivered
import Blkcp.Rust.Reflink
import Blkcp.Rust.ShardedCopy
import Blkcp.Rust.Uring
set_option autoImplicit false

/-! How much of its input each copy takes before it returns without an error. -/

namespace Blkcp.Rust
open Blkcp.Lib

variable {α ρ ω η₂ η₃ : Type} [Octet α]

/-- An input that hands out a byte string in order; `rest` is what it has not handed out. -/
structure ReadsFrom (I : Input α ρ) (rest : ρ → List α) : Prop where
  data : ∀ {s n bytes t}, I.read s n = (.data bytes, t) →
    rest s = bytes ++ rest t ∧ (bytes = [] → n = 0 ∨ rest s = [])
  interrupted : ∀ {s n t}, I.read s n = (.interrupted, t) → rest t = rest s
  failed : ∀ {s n e t}, I.read s n = (.failed e, t) → rest t = rest s

/-- Every read returns the full request except at the end. -/
def FullReads (I : Input α ρ) (rest : ρ → List α) : Prop :=
  ∀ {s n bytes t}, I.read s n = (.data bytes, t) → bytes.length = min n (rest s).length

/-- The records read. -/
def Stats.recordsIn (stats : Stats) : Nat := stats.recordsInFull + stats.recordsInPart

section Loop

variable {I : Input α ρ} {O : Output α ω} {env : HashEnv η₂ η₃} {cfg : Config}
  {cancel : Nat → Bool} {rest : ρ → List α} {u v : LoopState α ρ ω η₂ η₃}

/-- What an iteration that goes on does to the counters: nothing, or one block is read. -/
theorem transferBody_counts (h : transferBody I O env cfg cancel u = .inl v) :
    u.remainingBytes ≠ some 0 ∧ u.remainingBlocks ≠ some 0 ∧
    ((v.remainingBytes = u.remainingBytes ∧ v.remainingBlocks = u.remainingBlocks ∧
        v.stats = u.stats ∧ ∃ r, I.read u.input (toRead cfg u.remainingBytes) = (r, v.input) ∧
          (r = .interrupted ∨ ∃ e, r = .failed e)) ∨
      ∃ bytes, I.read u.input (toRead cfg u.remainingBytes) = (.data bytes, v.input) ∧
        bytes ≠ [] ∧ v.remainingBytes = u.remainingBytes.map (· - bytes.length) ∧
        v.remainingBlocks = u.remainingBlocks.map (· - 1) ∧
        v.stats = countBlock cfg u.stats bytes.length) := by
  simp only [transferBody] at h
  split at h
  · cases h
  split at h
  · cases h
  rename_i hbytes
  split at h
  · cases h
  rename_i hblocks
  refine ⟨hbytes, hblocks, ?_⟩
  split at h
  · cases h
  · rename_i hread
    obtain rfl := Sum.inl.inj h
    exact .inl ⟨rfl, rfl, rfl, _, hread, .inl rfl⟩
  · rename_i e _ hread
    split at h
    · obtain rfl := Sum.inl.inj h
      exact .inl ⟨rfl, rfl, rfl, _, hread, .inr ⟨e, rfl⟩⟩
    · cases h
  · rename_i bytes input hne hread
    split at h
    · cases h
    · rename_i out' stats' buf' hdel
      obtain rfl := Sum.inl.inj h
      obtain ⟨-, hstats⟩ := (deliverBlock_ok_iff "Write error: " (Message.ofRead u.buffer bytes)
        u.out u.stats).mp ⟨_, hdel⟩
      refine .inr ⟨bytes, hread, ?_, rfl, rfl, hstats⟩
      rintro rfl
      exact hne rfl

/-- Why the loop is left without an error. -/
theorem transferBody_done (h : transferBody I O env cfg cancel u = .inr (.ok (), v)) :
    v.stats = u.stats ∧ (u.remainingBytes = some 0 ∨ u.remainingBlocks = some 0 ∨
      u.remainingBytes ≠ some 0 ∧
        ∃ input, I.read u.input (toRead cfg u.remainingBytes) = (.data [], input)) := by
  simp only [transferBody] at h
  split at h
  · simp at h
  split at h
  · rename_i hzero
    obtain ⟨-, rfl⟩ := Prod.mk.inj (Sum.inr.inj h)
    exact ⟨rfl, .inl hzero⟩
  rename_i hbytes
  split at h
  · rename_i hzero
    obtain ⟨-, rfl⟩ := Prod.mk.inj (Sum.inr.inj h)
    exact ⟨rfl, .inr (.inl hzero)⟩
  split at h
  · rename_i hread
    obtain ⟨-, rfl⟩ := Prod.mk.inj (Sum.inr.inj h)
    exact ⟨rfl, .inr (.inr ⟨hbytes, _, hread⟩)⟩
  · cases h
  · split at h
    · cases h
    · simp at h
  · split at h
    · simp at h
    · cases h

/-- After `b` blocks with `k` bytes of `supply`. -/
structure LoopSpent (cfg : Config) (rest : ρ → List α) (supply : Nat) (stats : Stats) (k b : Nat)
    (s : LoopState α ρ ω η₂ η₃) : Prop where
  budget : Budget cfg.limitBytes supply k s.remainingBytes
  blocks : s.remainingBlocks = cfg.count.map (· - b)
  blocks_le : ∀ c, cfg.count = some c → b ≤ c
  rest_eq : (rest s.input).length = supply - k
  counted : s.stats.bytesCopied = stats.bytesCopied + k
  records : s.stats.recordsIn = stats.recordsIn + b

theorem countBlock_bytesCopied (cfg : Config) (stats : Stats) (n : Nat) :
    (countBlock cfg stats n).bytesCopied = stats.bytesCopied + n := by
  simp only [countBlock]
  repeat' split
  all_goals rfl

theorem countBlock_recordsIn (cfg : Config) (stats : Stats) (n : Nat) :
    (countBlock cfg stats n).recordsIn = stats.recordsIn + 1 := by
  simp only [countBlock, Stats.recordsIn, Stats.addBytes]
  repeat' split
  all_goals
    simp only [Stats.incInFull, Stats.incInPart, Stats.incOutFull, Stats.incOutPart]
    omega

theorem toRead_pos {remaining : Option Nat} (h : remaining ≠ some 0) :
    0 < toRead cfg remaining := by
  simp only [toRead, effectiveBlockSize]
  split
  · rename_i r
    have hr : r ≠ 0 := fun hr => h (congrArg some hr)
    omega
  · omega

variable {supply k b : Nat} {stats : Stats}

theorem toRead_le (cfg : Config) (remaining : Option Nat) :
    toRead cfg remaining ≤ effectiveBlockSize cfg := by
  simp only [toRead]
  split
  · exact Nat.min_le_right _ _
  · exact Nat.le_refl _

theorem toRead_le_remaining {remaining : Option Nat} {r : Nat} (h : remaining = some r) :
    toRead cfg remaining ≤ r := by
  rw [h]
  exact Nat.min_le_left _ _

/-- An iteration reads nothing, or a block of `n` bytes. -/
theorem LoopSpent.next (law : ReadsFrom I rest) (h : LoopSpent cfg rest supply stats k b u)
    (hst : transferBody I O env cfg cancel u = .inl v) :
    (LoopSpent cfg rest supply stats k b v ∧ v.remainingBytes = u.remainingBytes) ∨
    ∃ n, 0 < n ∧ n ≤ toRead cfg u.remainingBytes ∧
      LoopSpent cfg rest supply stats (k + n) (b + 1) v ∧ u.remainingBytes ≠ some 0 ∧
      v.remainingBytes = u.remainingBytes.map (· - n) ∧
      (FullReads I rest → n = min (toRead cfg u.remainingBytes) (supply - k)) := by
  obtain ⟨hbytes, hblocks, hcase⟩ := transferBody_counts hst
  rcases hcase with ⟨hb, hk, hs, r, hread, hr⟩ | ⟨bytes, hread, hne, hb, hk, hs⟩
  · refine .inl ⟨⟨?_, ?_, h.blocks_le, ?_, ?_, ?_⟩, hb⟩
    · rw [hb]
      exact h.budget
    · rw [hk]
      exact h.blocks
    · rw [← h.rest_eq]
      rcases hr with rfl | ⟨e, rfl⟩
      · rw [law.interrupted hread]
      · rw [law.failed hread]
    · rw [hs]
      exact h.counted
    · rw [hs]
      exact h.records
  · obtain ⟨hrest, -⟩ := law.data hread
    have hlen := h.rest_eq
    rw [hrest, List.length_append] at hlen
    have hpos := List.length_pos_of_ne_nil hne
    have hsupply := h.budget.le_supply
    have hle : bytes.length ≤ toRead cfg u.remainingBytes := I.read_le hread
    refine .inr ⟨bytes.length, hpos, hle, ⟨?_, ?_, ?_, by omega, ?_, ?_⟩, hbytes, hb, ?_⟩
    · rw [hb]
      exact h.budget.take (by omega) fun r hr => Nat.le_trans hle (toRead_le_remaining hr)
    · rw [hk, h.blocks]
      cases cfg.count with
      | none => rfl
      | some c => exact congrArg some (Nat.sub_sub c b 1)
    · intro c hc
      have hle := h.blocks_le c hc
      have hne : c - b ≠ 0 := by
        intro hzero
        refine hblocks ?_
        rw [h.blocks, hc]
        exact congrArg some hzero
      omega
    · rw [hs, countBlock_bytesCopied, h.counted, Nat.add_assoc]
    · rw [hs, countBlock_recordsIn, h.records, Nat.add_assoc]
    · intro hfull
      rw [hfull hread, h.rest_eq]

theorem LoopSpent.start {input : ρ} {file : ω} :
    LoopSpent cfg rest (rest input).length stats 0 0
      (LoopState.start (ω := ω) env cfg input file stats) where
  budget := .start _ _
  blocks := by
    rw [LoopState.start]
    cases cfg.count <;> rfl
  blocks_le _ _ := Nat.zero_le _
  rest_eq := rfl
  counted := rfl
  records := rfl

/-- Up to now all blocks are whole, or the limit or the supply is used up. -/
def Whole (cfg : Config) (supply k b : Nat) (remaining : Option Nat) : Prop :=
  k ≤ b * effectiveBlockSize cfg ∧
    (k = b * effectiveBlockSize cfg ∨ remaining = some 0 ∨ k = supply)

theorem Whole.next {remaining : Option Nat} {n : Nat} (h : Whole cfg supply k b remaining)
    (hrem : remaining ≠ some 0) (hpos : 0 < n) (hsupply : k + n ≤ supply)
    (hn : n = min (toRead cfg remaining) (supply - k)) :
    Whole cfg supply (k + n) (b + 1) (remaining.map (· - n)) := by
  obtain ⟨hle, hwhole⟩ := h
  have hread : n ≤ effectiveBlockSize cfg := by
    have := toRead_le cfg remaining
    omega
  have hbs : k = b * effectiveBlockSize cfg := by
    rcases hwhole with hk | hz | hk
    · exact hk
    · exact absurd hz hrem
    · omega
  refine ⟨by rw [Nat.add_mul]; omega, ?_⟩
  by_cases hend : k + n = supply
  · exact .inr (.inr hend)
  · have hfull : n = toRead cfg remaining := by omega
    cases remaining with
    | none =>
      refine .inl ?_
      rw [hfull, hbs, Nat.add_mul, Nat.one_mul]
      rfl
    | some r =>
      by_cases hr : n = r
      · refine .inr (.inl ?_)
        rw [Option.map_some, hr, Nat.sub_self]
      · refine .inl ?_
        have hmin : n = min r (effectiveBlockSize cfg) := hfull
        rw [hbs, Nat.add_mul, Nat.one_mul]
        omega

/-- What a copy block by block has taken when it returns without an error: `k` bytes in `b`
blocks. -/
structure Taken (cfg : Config) (supply : Nat) (stats stats' : Stats) (k b : Nat) : Prop where
  counted : stats'.bytesCopied = stats.bytesCopied + k
  records : stats'.recordsIn = stats.recordsIn + b
  le_supply : k ≤ supply
  le_limit : ∀ l, cfg.limitBytes = some l → k ≤ l
  le_count : ∀ c, cfg.count = some c → b ≤ c
  done : cfg.limitBytes = some k ∨ cfg.count = some b ∨ k = supply

omit [Octet α] in
theorem Taken.of_stats {stats₁ stats₂ : Stats} (h : Taken cfg supply stats stats₁ k b)
    (hbytes : stats₂.bytesCopied = stats₁.bytesCopied)
    (hrecords : stats₂.recordsIn = stats₁.recordsIn) : Taken cfg supply stats stats₂ k b :=
  ⟨hbytes.trans h.counted, hrecords.trans h.records, h.le_supply, h.le_limit, h.le_count, h.done⟩

theorem transferLoop_taken (law : ReadsFrom I rest) {fuel : Nat} {input : ρ} {file : ω}
    {y : LoopState α ρ ω η₂ η₃}
    (h : transferLoop I O env cfg cancel fuel (.start env cfg input file stats) =
      some (.ok (), y)) :
    ∃ k b, Taken cfg (rest input).length stats y.stats k b ∧
      (FullReads I rest → k ≤ b * effectiveBlockSize cfg ∧
        (k = b * effectiveBlockSize cfg ∨ cfg.limitBytes = some k ∨ k = (rest input).length)) := by
  simp only [transferLoop, Option.map_eq_some_iff] at h
  obtain ⟨⟨r, v⟩, hrun, he⟩ := h
  obtain ⟨u, ⟨k, b, hu, hwhole⟩, hleave⟩ := runLoop_invariant
    (I := fun s => ∃ k b, LoopSpent cfg rest (rest input).length stats k b s ∧
      (FullReads I rest → Whole cfg (rest input).length k b s.remainingBytes))
    (fun s t hs hst => by
      obtain ⟨k, b, hs, hwhole⟩ := hs
      rcases hs.next law hst with ⟨ht, hrem⟩ | ⟨n, hpos, hle, ht, hne, hrem, hfull⟩
      · exact ⟨k, b, ht, fun hf => by rw [hrem]; exact hwhole hf⟩
      · refine ⟨k + n, b + 1, ht, fun hf => ?_⟩
        rw [hrem]
        exact (hwhole hf).next hne hpos ht.budget.le_supply (hfull hf))
    hrun ⟨0, 0, .start, fun _ => ⟨Nat.zero_le _, .inl (Nat.zero_mul _).symm⟩⟩
  cases r with
  | error e => cases he
  | ok _ =>
    obtain ⟨hstats, hdone⟩ := transferBody_done hleave
    obtain ⟨-, rfl⟩ := Prod.mk.inj he
    have hlimit : u.remainingBytes = some 0 → cfg.limitBytes = some k := fun hz =>
      eq_some_of_left hu.budget.le_total (hu.budget.remaining_eq ▸ hz)
    refine ⟨k, b, ⟨?_, ?_, hu.budget.le_supply, hu.budget.le_total, hu.blocks_le, ?_⟩, ?_⟩
    · rw [hstats]
      exact hu.counted
    · rw [hstats]
      exact hu.records
    · rcases hdone with hz | hz | ⟨hne, input', hread⟩
      · exact .inl (hlimit hz)
      · exact .inr (.inl (eq_some_of_left hu.blocks_le (hu.blocks ▸ hz)))
      · have hend := ((law.data hread).2 rfl).resolve_left (Nat.ne_of_gt (toRead_pos hne))
        have hlen := hu.rest_eq
        have hle := hu.budget.le_supply
        rw [hend, List.length_nil] at hlen
        exact .inr (.inr (by omega))
    · intro hf
      obtain ⟨hle, hor⟩ := hwhole hf
      exact ⟨hle, hor.imp_right (Or.imp_left hlimit)⟩

end Loop

section Kernel

variable {cfg : Config} {cancel : Nat → Bool} {results : Nat → SpliceResult} {supply : Nat}
  {stats : Stats}

/-- `k` bytes of `supply` are copied and counted, `left` are still in the input. -/
structure Moved (cfg : Config) (supply : Nat) (stats : Stats) (k left : Nat)
    (remaining : Option Nat) (stats' : Stats) : Prop where
  budget : Budget (remainingTotal cfg) supply k remaining
  left_eq : left = supply - k
  counted : stats'.bytesCopied = stats.bytesCopied + k

theorem Moved.start (cfg : Config) (supply : Nat) (stats : Stats) :
    Moved cfg supply stats 0 supply (remainingTotal cfg) stats where
  budget := .start _ _
  left_eq := rfl
  counted := rfl

theorem Moved.next {k left n : Nat} {remaining : Option Nat} {stats₁ : Stats}
    (h : Moved cfg supply stats k left remaining stats₁) (stats₂ : Stats) (hn : n ≤ left)
    (hr : ∀ r, remaining = some r → n ≤ r) (hs : stats₂.bytesCopied = stats₁.bytesCopied + n) :
    Moved cfg supply stats (k + n) (left - n) (remaining.map (· - n)) stats₂ where
  budget := by
    have hle := h.budget.le_supply
    have hleft := h.left_eq
    exact h.budget.take (by omega) hr
  left_eq := by
    rw [h.left_eq]
    exact Nat.sub_sub supply k n
  counted := by rw [hs, h.counted, Nat.add_assoc]

theorem Moved.of_counted {k left : Nat} {remaining : Option Nat} {stats₁ stats₂ : Stats}
    (h : Moved cfg supply stats k left remaining stats₁)
    (hs : stats₂.bytesCopied = stats₁.bytesCopied) :
    Moved cfg supply stats k left remaining stats₂ :=
  ⟨h.budget, h.left_eq, by rw [hs, h.counted]⟩

/-- What a copy of a byte total has counted when it returns without an error. -/
def Counts (cfg : Config) (supply : Nat) (stats stats' : Stats) : Prop :=
  stats'.bytesCopied = stats.bytesCopied + cap (remainingTotal cfg) supply

theorem Moved.counts_of_zero {k left : Nat} {remaining : Option Nat} {stats₁ : Stats}
    (h : Moved cfg supply stats k left remaining stats₁) (hz : remaining = some 0) :
    Counts cfg supply stats stats₁ := by
  rw [Counts, h.counted, h.budget.eq_of_zero hz]

theorem Moved.counts_of_end {k left : Nat} {remaining : Option Nat} {stats₁ : Stats}
    (h : Moved cfg supply stats k left remaining stats₁) (he : left = 0) :
    Counts cfg supply stats stats₁ := by
  have hle := h.budget.le_supply
  have hleft := h.left_eq
  rw [Counts, h.counted, ← h.budget.eq_of_supply (by omega)]

theorem addRecords_bytesCopied (stats : Stats) (n bs : Nat) :
    (stats.addRecords n bs).bytesCopied = stats.bytesCopied := by
  simp only [Stats.addRecords]
  repeat' split
  all_goals rfl

theorem addBytes_bytesCopied (stats : Stats) (n : Nat) :
    (stats.addBytes n).bytesCopied = stats.bytesCopied + n := rfl

section Reflink

variable {s t : ReflinkState α}

theorem reflinkRequest_pos (cfg : Config) {remaining : Option Nat} (h : remaining ≠ some 0) :
    0 < reflinkRequest cfg remaining := by
  simp only [reflinkRequest, reflinkChunkSize]
  split
  · rename_i r
    have hr : r ≠ 0 := fun hr => h (congrArg some hr)
    omega
  · omega

theorem reflinkRequest_le (cfg : Config) {remaining : Option Nat} {r : Nat} (h : remaining = some r) :
    reflinkRequest cfg remaining ≤ r := by
  rw [h]
  exact Nat.min_le_left _ _

theorem reflinkBody_moved {k : Nat}
    (h : Moved cfg supply stats k s.input.length s.remaining s.stats)
    (hst : reflinkBody cfg cancel results s = .inl t) :
    ∃ k', Moved cfg supply stats k' t.input.length t.remaining t.stats := by
  simp only [reflinkBody] at hst
  split at hst
  · cases hst
  split at hst
  · cases hst
  split at hst
  · rename_i n _
    split at hst
    · cases hst
    · obtain rfl := Sum.inl.inj hst
      simp only [List.length_drop, List.length_take]
      refine ⟨_, h.next _ (by omega) (fun r hr => ?_) ?_⟩
      · have := reflinkRequest_le cfg hr
        omega
      · rw [addRecords_bytesCopied, addBytes_bytesCopied]
  · split at hst
    · obtain rfl := Sum.inl.inj hst
      exact ⟨k, h⟩
    split at hst
    · split at hst <;> cases hst
    · cases hst

theorem reflinkBody_done {k : Nat}
    (h : Moved cfg supply stats k s.input.length s.remaining s.stats)
    (hst : reflinkBody cfg cancel results s = .inr (.ok true, t)) :
    Counts cfg supply stats t.stats := by
  simp only [reflinkBody] at hst
  split at hst
  · simp at hst
  split at hst
  · rename_i hzero
    obtain ⟨-, rfl⟩ := Prod.mk.inj (Sum.inr.inj hst)
    exact h.counts_of_zero hzero
  rename_i hrem
  split at hst
  · split at hst
    · rename_i hnil
      obtain ⟨-, rfl⟩ := Prod.mk.inj (Sum.inr.inj hst)
      have hpos := reflinkRequest_pos cfg hrem
      refine h.counts_of_end ?_
      rcases List.take_eq_nil_iff.mp hnil with hzero | hend
      · omega
      · rw [hend, List.length_nil]
    · cases hst
  · split at hst
    · cases hst
    split at hst
    · split at hst <;> simp at hst
    · simp at hst

theorem reflinkRun_counts {kinds : Option (FileKind × FileKind)} {fuel pos : Nat}
    {input output : List α} (h : reflinkRun kinds cancel results fuel cfg input output pos stats =
      some (.ok true, t)) : Counts cfg input.length stats t.stats := by
  simp only [reflinkRun] at h
  split at h
  · simp at h
  split at h
  · split at h <;> simp at h
  · obtain ⟨u, ⟨k, hu⟩, hleave⟩ := runLoop_invariant
      (I := fun s : ReflinkState α =>
        ∃ k, Moved cfg input.length stats k s.input.length s.remaining s.stats)
      (fun s t ⟨k, hs⟩ hst => reflinkBody_moved hs hst) h ⟨0, .start cfg _ stats⟩
    exact reflinkBody_done hu hleave

end Reflink

section Splice

variable {s t : SpliceState α}

theorem spliceRequest_pos (cfg : Config) {remaining : Option Nat} (h : remaining ≠ some 0) :
    0 < spliceRequest cfg remaining := by
  simp only [spliceRequest, spliceChunkSize]
  split
  · rename_i r
    have hr : r ≠ 0 := fun hr => h (congrArg some hr)
    omega
  · omega

theorem spliceRequest_le (cfg : Config) {remaining : Option Nat} {r : Nat} (h : remaining = some r) :
    spliceRequest cfg remaining ≤ r := by
  rw [h]
  exact Nat.min_le_left _ _

/-- While the pipe is drained its bytes are neither in the input nor counted. -/
def SpliceMoved (cfg : Config) (supply : Nat) (stats : Stats) (s : SpliceState α) : Prop :=
  match s.phase with
  | .top => ∃ k, Moved cfg supply stats k s.input.length s.remaining s.stats
  | .draining nIn _ => (∀ r, s.remaining = some r → nIn ≤ r) ∧
      ∃ k, Moved cfg supply stats k (s.input.length + nIn) s.remaining s.stats

theorem spliceBody_moved (h : SpliceMoved cfg supply stats s)
    (hst : spliceBody cfg cancel results s = .inl t) : SpliceMoved cfg supply stats t := by
  simp only [spliceBody] at hst
  split at hst
  · rename_i hphase
    simp only [SpliceMoved, hphase] at h
    obtain ⟨k, h⟩ := h
    split at hst
    · cases hst
    split at hst
    · cases hst
    split at hst
    · split at hst
      · obtain rfl := Sum.inl.inj hst
        simp only [SpliceMoved, hphase]
        exact ⟨k, h⟩
      split at hst <;> cases hst
    · split at hst
      · cases hst
      · obtain rfl := Sum.inl.inj hst
        simp only [SpliceMoved, List.length_drop, List.length_take]
        refine ⟨fun r hr => ?_, k, ?_⟩
        · have := spliceRequest_le cfg hr
          omega
        · rw [Nat.sub_add_cancel (Nat.min_le_right _ _)]
          exact h
  · rename_i nIn inPipe hphase
    simp only [SpliceMoved, hphase] at h
    obtain ⟨hr, k, h⟩ := h
    split at hst
    · obtain rfl := Sum.inl.inj hst
      have hnext := h.next ((s.stats.addBytes nIn).addRecords nIn (effectiveBlockSize cfg))
        (Nat.le_add_left _ _) hr
        (by rw [addRecords_bytesCopied, addBytes_bytesCopied])
      rw [Nat.add_sub_cancel] at hnext
      exact ⟨_, hnext⟩
    · split at hst
      · split at hst
        · obtain rfl := Sum.inl.inj hst
          simp only [SpliceMoved, hphase]
          exact ⟨hr, k, h⟩
        · cases hst
      · obtain rfl := Sum.inl.inj hst
        exact ⟨hr, k, h⟩

theorem spliceBody_done (h : SpliceMoved cfg supply stats s)
    (hst : spliceBody cfg cancel results s = .inr (.ok true, t)) :
    Counts cfg supply stats t.stats := by
  simp only [spliceBody] at hst
  split at hst
  · rename_i hphase
    simp only [SpliceMoved, hphase] at h
    obtain ⟨k, h⟩ := h
    split at hst
    · simp at hst
    split at hst
    · rename_i hzero
      obtain ⟨-, rfl⟩ := Prod.mk.inj (Sum.inr.inj hst)
      exact h.counts_of_zero hzero
    rename_i hrem
    split at hst
    · split at hst
      · cases hst
      split at hst <;> simp at hst
    · split at hst
      · rename_i hnil
        obtain ⟨-, rfl⟩ := Prod.mk.inj (Sum.inr.inj hst)
        have hpos := spliceRequest_pos cfg hrem
        refine h.counts_of_end ?_
        rcases List.take_eq_nil_iff.mp hnil with hzero | hend
        · omega
        · rw [hend, List.length_nil]
      · cases hst
  · split at hst
    · cases hst
    · split at hst
      · split at hst <;> simp at hst
      · cases hst

theorem spliceRun_counts {pipeOk : Bool} {fuel pos : Nat} {input output : List α}
    (h : spliceRun pipeOk cancel results fuel cfg input output pos stats = some (.ok true, t)) :
    Counts cfg input.length stats t.stats := by
  simp only [spliceRun] at h
  split at h
  · obtain ⟨u, hu, hleave⟩ := runLoop_invariant (I := SpliceMoved cfg input.length stats)
      (fun s t hs hst => spliceBody_moved hs hst) h ⟨0, .start cfg _ stats⟩
    exact spliceBody_done hu hleave
  · simp at h

end Splice

end Kernel

section Ring

variable {env : HashEnv η₂ η₃} {cfg : Config} {cancel : Nat → Bool}
  {results : Nat → RingResult} {input : RingInput α} {supply : Nat} {stats : Stats}
  {s t : UringState α η₂ η₃}

/-- While a block is written it is neither ahead nor counted. -/
def RingMoved (cfg : Config) (input : RingInput α) (supply : Nat) (stats : Stats)
    (s : UringState α η₂ η₃) : Prop :=
  match s.phase with
  | .top => ∃ k, Moved cfg supply stats k (s.ahead input).length s.remaining s.stats
  | .writing bytes _ => (∀ r, s.remaining = some r → bytes.length ≤ r) ∧
      ∃ k, Moved cfg supply stats k ((s.ahead input).length + bytes.length) s.remaining s.stats

/-- A read request is not cut to nothing where something is left to copy. -/
def RequestFits (cfg : Config) (s : UringState α η₂ η₃) : Prop :=
  s.phase = .top → s.remaining ≠ some 0 → 0 < ringLength (toRead cfg s.remaining)

theorem ringLength_le (n : Nat) : ringLength n ≤ n := Nat.mod_le _ _

omit [Octet α] in
theorem requestFits_of_lt (hbs : effectiveBlockSize cfg < 2 ^ 32) (s : UringState α η₂ η₃) :
    RequestFits cfg s := by
  intro _ hrem
  have hle := toRead_le cfg s.remaining
  rw [ringLength, Nat.mod_eq_of_lt (Nat.lt_of_le_of_lt hle hbs)]
  exact toRead_pos hrem

omit [Octet α] in
theorem ahead_drop (s : UringState α η₂ η₃) (n : Nat) :
    input.content.drop (if input.stream then s.taken + n else s.inOffset + n) =
      (s.ahead input).drop n := by
  rw [UringState.ahead, List.drop_drop]
  split <;> rfl

theorem uringBody_moved (h : RingMoved cfg input supply stats s)
    (hst : uringBody env cfg cancel results input s = .inl t) :
    RingMoved cfg input supply stats t := by
  simp only [uringBody] at hst
  split at hst
  · rename_i hphase
    simp only [RingMoved, hphase] at h
    obtain ⟨k, h⟩ := h
    split at hst
    · cases hst
    split at hst
    · cases hst
    split at hst
    · cases hst
    · split at hst
      · obtain rfl := Sum.inl.inj hst
        simp only [RingMoved, hphase]
        exact ⟨k, h⟩
      · cases hst
    · split at hst
      · cases hst
      · rename_i n _ _
        generalize hb : (UringState.ahead input { s with
          polls := s.polls + 1, calls := s.calls + 1 }).take
            (min (ringLength (toRead cfg s.remaining)) (max n 1)) = bytes at hst
        have hle : bytes.length ≤ (s.ahead input).length := by
          rw [← hb]
          exact List.length_take_le' _ _
        have hrequest : bytes.length ≤ toRead cfg s.remaining := by
          have hring := ringLength_le (toRead cfg s.remaining)
          rw [← hb, List.length_take]
          omega
        obtain rfl := Sum.inl.inj hst
        have hlen : ((s.ahead input).drop bytes.length).length + bytes.length =
            (s.ahead input).length := by
          rw [List.length_drop, Nat.sub_add_cancel hle]
        rw [← hlen, ← ahead_drop] at h
        refine ⟨fun r hr => Nat.le_trans hrequest (toRead_le_remaining hr), k, h.of_counted ?_⟩
        simp only
        split <;> rfl
  · rename_i bytes written hphase
    simp only [RingMoved, hphase] at h
    obtain ⟨hr, k, h⟩ := h
    split at hst
    · obtain rfl := Sum.inl.inj hst
      have hnext := h.next (s.stats.addBytes bytes.length) (Nat.le_add_left _ _) hr rfl
      rw [Nat.add_sub_cancel] at hnext
      refine ⟨_, hnext.of_counted ?_⟩
      rw [addBytes_bytesCopied, addBytes_bytesCopied]
      split <;> rfl
    · split at hst
      · cases hst
      · split at hst
        · obtain rfl := Sum.inl.inj hst
          simp only [RingMoved, hphase]
          exact ⟨hr, k, h⟩
        · cases hst
      · obtain rfl := Sum.inl.inj hst
        exact ⟨hr, k, h⟩

theorem uringBody_done (h : RingMoved cfg input supply stats s) (hfits : RequestFits cfg s)
    (hst : uringBody env cfg cancel results input s = .inr (.ok (), t)) :
    Counts cfg supply stats t.stats := by
  simp only [uringBody] at hst
  split at hst
  · rename_i hphase
    simp only [RingMoved, hphase] at h
    obtain ⟨k, h⟩ := h
    split at hst
    · simp at hst
    split at hst
    · rename_i hzero
      obtain ⟨-, rfl⟩ := Prod.mk.inj (Sum.inr.inj hst)
      exact h.counts_of_zero hzero
    rename_i hrem
    split at hst
    · simp at hst
    · split at hst
      · cases hst
      · simp at hst
    · split at hst
      · rename_i hnil
        obtain ⟨-, rfl⟩ := Prod.mk.inj (Sum.inr.inj hst)
        have hpos := hfits hphase hrem
        refine h.counts_of_end ?_
        rcases List.take_eq_nil_iff.mp hnil with hzero | hend
        · omega
        · exact congrArg List.length hend
      · cases hst
  · split at hst
    · cases hst
    · split at hst
      · simp at hst
      · split at hst
        · cases hst
        · simp at hst
      · cases hst

/-- A copy through one ring, none of whose read requests is cut to nothing. -/
theorem executeUringSingle_counts {ring : Option String} {fuel : Nat}
    (hfits : ∀ s, Iterates (uringBody env cfg cancel results input)
      (UringState.start env cfg stats) s → RequestFits cfg s)
    (h : executeUringSingle env ring cancel results fuel cfg input stats = some (.ok (), t)) :
    Counts cfg (input.content.length - if input.stream then 0 else cfg.skipBytes) stats t.stats := by
  simp only [executeUringSingle] at h
  split at h
  · simp at h
  · obtain ⟨u, hu, hleave⟩ := iterates_of_runLoop h
    have hahead : ((UringState.start env cfg stats).ahead input).length =
        input.content.length - if input.stream then 0 else cfg.skipBytes := by
      rw [UringState.ahead, List.length_drop]
      rfl
    have hstart : RingMoved cfg input _ stats (UringState.start env cfg stats) :=
      ⟨0, .start cfg _ stats⟩
    rw [hahead] at hstart
    have hmoved := hu.invariant (fun s t hs hst => uringBody_moved hs hst) hstart
    exact uringBody_done hmoved (hfits u hu) hleave

end Ring

end Blkcp.Rust
