import Blkcp.Rust.SpliceFallback
import Blkcp.Rust.TallyThreads
set_option autoImplicit false

/-! What the counters say of a transfer that succeeds, also after attempts that were given up. -/

namespace Blkcp.Rust
open Blkcp.Lib Blkcp.Blks

/-- A copy by one of the engines that returns `Ok`: the counters before, the bytes it has copied, the
counters after. Every read returns the full request except at the end of the input. -/
inductive CopyDone (cfg : Config) : CopyEngine → Stats → Nat → Stats → Prop where
  | sync {ρ ω η₂ η₃ : Type} {I : Input Byte ρ} {O : Output Byte ω} {env : HashEnv η₂ η₃}
      {rest : ρ → List Byte} {cancel : Nat → Bool} {fuel : Nat} {source : ρ} {file : ω}
      {stats : Stats} {y : LoopState Byte ρ ω η₂ η₃} : ReadsFrom I rest → FullReads I rest →
      transferLoop I O env cfg cancel fuel (.start env cfg source file stats) = some (.ok (), y) →
      CopyDone cfg .sync stats ((rest source).length - (rest y.input).length) y.stats
  | async {ρ ω η₂ η₃ : Type} {I : Input Byte ρ} {O : Output Byte ω} {env : HashEnv η₂ η₃}
      {rest : ρ → List Byte} {source : ρ} {file : ω} {stats : Stats} {delivered : Nat}
      {s : AsyncState Byte ρ ω η₂ η₃} : ReadsFrom I rest → FullReads I rest →
      ((asyncSystem I O env cfg source file stats).traced 0 trackDelivered).Reachable
        (s, delivered) →
      s.main = .returned (.ok ()) → CopyDone cfg .async stats delivered s.stats
  | ring {η₂ η₃ : Type} {env : HashEnv η₂ η₃} {ring : Option String} {cancel : Nat → Bool}
      {results : Nat → RingResult} {fuel : Nat} {input : RingInput Byte} {stats : Stats}
      {t : UringState Byte η₂ η₃} :
      RingFull env cfg cancel results input (.start env cfg stats) →
      executeUringSingle env ring cancel results fuel cfg input stats = some (.ok (), t) →
      CopyDone cfg .ring stats (t.outOffset - cfg.seekBytes) t.stats
  | shards {metaLen : Option Nat} {input : List Byte} {stats : Stats}
      {s : ShardState (numWorkers cfg)} {ws : List StripeLeaves} :
      ((shardedSystem cfg metaLen input (numWorkers cfg) stats).restrict
        (ShardFull cfg metaLen input)).Reachable s →
      joinWorkers s = some (.ok ws) → CopyDone cfg .shards stats s.written s.stats
  | reflink {kinds : Option (FileKind × FileKind)} {cancel : Nat → Bool}
      {results : Nat → SpliceResult} {fuel pos : Nat} {input output : List Byte} {stats : Stats}
      {t : ReflinkState Byte} :
      ReflinkFull cfg cancel results (.start cfg input output pos stats) →
      reflinkRun kinds cancel results fuel cfg input output pos stats = some (.ok true, t) →
      CopyDone cfg .reflink stats (input.length - t.input.length) t.stats
  | splice {pipeOk : Bool} {cancel : Nat → Bool} {results : Nat → SpliceResult} {fuel pos : Nat}
      {input output : List Byte} {stats : Stats} {t : SpliceState Byte} :
      SpliceFull cfg cancel results (.start cfg input output pos stats) →
      spliceRun pipeOk cancel results fuel cfg input output pos stats = some (.ok true, t) →
      CopyDone cfg .splice stats (t.delivered input) t.stats

/-- Whether a worker has copied a block. -/
def trackBegun {n : Nat} (begun : Bool) (_ : ShardState n) : ShardAct n → Bool
  | .counts _ => true
  | _ => begun

/-- An attempt that the function goes on from with the next copy: whether it had begun to copy, the
counters before and after. It begins with the first block that is read into the ring, that a worker
has copied, or that has gone through the pipe as a whole. -/
inductive GivenUp (cfg : Config) : Prop → Stats → Stats → Prop where
  | reflink {kinds : Option (FileKind × FileKind)} {cancel : Nat → Bool}
      {results : Nat → SpliceResult} {fuel pos : Nat} {input output : List Byte} {stats : Stats}
      {t : ReflinkState Byte} :
      reflinkRun kinds cancel results fuel cfg input output pos stats = some (.ok false, t) →
      GivenUp cfg False stats t.stats
  | splice {pipeOk : Bool} {cancel : Nat → Bool} {results : Nat → SpliceResult} {fuel pos : Nat}
      {input output : List Byte} {stats : Stats} {r : Except String Bool} {t : SpliceState Byte} :
      spliceRun pipeOk cancel results fuel cfg input output pos stats = some (r, t) → r ≠ .ok true →
      GivenUp cfg (pipeOk = true ∧ ∃ s n, Iterates (spliceBody cfg cancel results)
        (.start cfg input output pos stats) s ∧ s.phase = .draining n 0) stats t.stats
  | ring {η₂ η₃ : Type} {env : HashEnv η₂ η₃} {ring : Option String} {cancel : Nat → Bool}
      {results : Nat → RingResult} {fuel : Nat} {input : RingInput Byte} {stats : Stats}
      {e : String} {t : UringState Byte η₂ η₃} :
      executeUringSingle env ring cancel results fuel cfg input stats = some (.error e, t) →
      GivenUp cfg (ring = none ∧ ∃ s bytes written, Iterates (uringBody env cfg cancel results input)
        (.start env cfg stats) s ∧ s.phase = .writing bytes written) stats t.stats
  | shards {n : Nat} {metaLen : Option Nat} {input : List Byte} {stats : Stats} {s : ShardState n}
      {begun : Bool} {e : String} :
      ((shardedSystem cfg metaLen input n stats).traced false trackBegun).Reachable (s, begun) →
      joinWorkers s = some (.error e) → GivenUp cfg (begun = true) stats s.stats

/-- Attempts given up one after the other: whether one of them had begun, and the counters, which
start at zero. -/
inductive Attempts (cfg : Config) : Prop → Stats → Prop where
  | none : Attempts cfg False {}
  | next {begun begun' : Prop} {stats stats' : Stats} : Attempts cfg begun stats →
      GivenUp cfg begun' stats stats' → Attempts cfg (begun ∨ begun') stats'

/-- A transfer that succeeds: the engine that has copied, whether an attempt before it had begun, the
bytes copied, the counters at the end. -/
def Transferred (cfg : Config) (e : CopyEngine) (begun : Prop) (total : Nat) (stats : Stats) : Prop :=
  ∃ before, Attempts cfg begun before ∧ CopyDone cfg e before total stats

/-- What the counters should say of `total` bytes. -/
structure CountedOnce (b total : Nat) (stats : Stats) : Prop where
  bytesCopied : stats.bytesCopied = total
  recordsInFull : stats.recordsInFull = total / b
  recordsInPart : stats.recordsInPart = if b ∣ total then 0 else 1
  recordsOutFull : stats.recordsOutFull = total / b
  recordsOutPart : stats.recordsOutPart = if b ∣ total then 0 else 1

/-- The unit an engine counts its records in. -/
def pieceSize (cfg : Config) : CopyEngine → Nat
  | .sync | .async | .ring => effectiveBlockSize cfg
  | .shards => shardChunkSize cfg
  | .reflink => reflinkChunkSize cfg
  | .splice => spliceChunkSize cfg

variable {cfg : Config} {before stats stats' : Stats} {total : Nat} {e : CopyEngine} {begun : Prop}

theorem CopyDone.counted (hsync : cfg.sync = false) (h : CopyDone cfg e before total stats) :
    CountedIn cfg (pieceSize cfg e) before total stats := by
  cases h with
  | sync law hfull hrun => exact transferLoop_counted hsync law hfull hrun
  | async law hfull hreach hr => exact async_counted hsync law hfull hreach hr
  | ring hfull hrun => exact executeUringSingle_counted hfull hrun
  | shards hreach hok => exact shards_counted hreach hok
  | reflink hfull hrun => exact reflinkRun_counted hfull hrun
  | splice hfull hrun => exact spliceRun_counted hfull hrun

/-- All that the counters count. -/
def Stats.counted (stats : Stats) : Nat :=
  stats.bytesCopied + stats.recordsInFull + stats.recordsInPart + stats.recordsOutFull +
    stats.recordsOutPart

theorem countedOnce_iff {c : Nat} (h : CountedIn cfg c before total stats) :
    CountedOnce (effectiveBlockSize cfg) total stats ↔
      before.counted = 0 ∧ OneCut c (effectiveBlockSize cfg) total := by
  obtain ⟨pieces, heven, ⟨hbytes, hinFull, hinPart, houtFull, houtPart⟩, rfl⟩ := h
  rw [← heven.parts_le_one_iff, ← counts_iff (effectiveBlockSize_pos cfg)]
  constructor
  · rintro ⟨h1, h2, h3, h4, h5⟩
    have htail : parts (effectiveBlockSize cfg) pieces ≤ 1 := by
      have hle := part_le_one (effectiveBlockSize cfg) pieces.sum
      rw [part] at hle
      omega
    obtain ⟨hwholes, hparts⟩ := counts_of_parts (effectiveBlockSize_pos cfg) htail
    refine ⟨?_, hwholes, hparts⟩
    rw [part] at hparts
    rw [Stats.counted]
    omega
  · rintro ⟨hzero, hwholes, hparts⟩
    rw [Stats.counted] at hzero
    rw [part] at hparts
    constructor <;> omega

section GivenUp

theorem addBytes_counted (stats : Stats) (n : Nat) :
    (stats.addBytes n).counted = stats.counted + n := by
  simp only [Stats.counted, Stats.addBytes]
  omega

theorem addRecords_counted (stats : Stats) (n b : Nat) :
    stats.counted ≤ (stats.addRecords n b).counted := by
  simp only [Stats.addRecords]
  generalize n / b = k
  split
  all_goals
    simp only [Stats.counted, Stats.incInPart, Stats.incOutPart]
    omega

theorem countShardBlock_counted (cfg : Config) (stats : Stats) (n : Nat) :
    stats.counted < (countShardBlock cfg stats n).counted := by
  simp only [countShardBlock]
  split
  all_goals
    simp only [Stats.counted, Stats.addBytes, Stats.incInFull, Stats.incOutFull, Stats.incInPart,
      Stats.incOutPart]
    omega

/-- The counters stay as they are in an attempt that has not begun, and go up in one that has. -/
def Keeps (begun : Prop) (before stats : Stats) : Prop :=
  (begun → before.counted < stats.counted) ∧ (¬begun → stats.counted = before.counted)

section Reflink

variable {cancel : Nat → Bool} {results : Nat → SpliceResult} {s t : ReflinkState Byte}

theorem reflinkBody_untouched (h : s.stats.bytesCopied = 0 → s.stats = before)
    (hst : reflinkBody cfg cancel results s = .inl t) :
    t.stats.bytesCopied = 0 → t.stats = before := by
  simp only [reflinkBody] at hst
  split at hst
  · cases hst
  split at hst
  · cases hst
  split at hst
  · split at hst
    · cases hst
    · rename_i hne
      obtain rfl := Sum.inl.inj hst
      have hpos := List.length_pos_of_ne_nil hne
      intro hzero
      rw [addRecords_bytesCopied, addBytes_bytesCopied] at hzero
      omega
  · split at hst
    · obtain rfl := Sum.inl.inj hst
      exact h
    split at hst
    · split at hst <;> cases hst
    · cases hst

/-- It is only given up while nothing is counted. -/
theorem reflinkRun_untouched {kinds : Option (FileKind × FileKind)} {fuel pos : Nat}
    {input output : List Byte}
    (h : reflinkRun kinds cancel results fuel cfg input output pos before = some (.ok false, t)) :
    t.stats = before := by
  simp only [reflinkRun] at h
  split at h
  · rw [← (Prod.mk.inj (Option.some.inj h)).2]
    rfl
  split at h
  · split at h
    · simp at h
    · rw [← (Prod.mk.inj (Option.some.inj h)).2]
      rfl
  · obtain ⟨u, hu, hleave⟩ := runLoop_invariant
      (I := fun s : ReflinkState Byte => s.stats.bytesCopied = 0 → s.stats = before)
      (fun s t hs hst => reflinkBody_untouched hs hst) h fun _ => rfl
    obtain ⟨-, hstats, hzero⟩ := reflinkBody_ends hleave
    rw [hstats]
    exact hu (hzero rfl)

end Reflink

section Splice

variable {cancel : Nat → Bool} {results : Nat → SpliceResult} {s t : SpliceState Byte}

/-- A chunk in the pipe is not empty, and is counted when it has gone through. -/
theorem spliceBody_counts (h : ∀ n m, s.phase = .draining n m → 0 < n)
    (hst : spliceBody cfg cancel results s = .inl t) :
    (∀ n m, t.phase = .draining n m → 0 < n) ∧
      ((∃ n, s.phase = .draining n 0) ∧ s.stats.counted < t.stats.counted ∨
        (∀ n, s.phase ≠ .draining n 0) ∧ t.stats = s.stats) := by
  simp only [spliceBody] at hst
  split at hst
  · rename_i hphase
    split at hst
    · cases hst
    split at hst
    · cases hst
    split at hst
    · split at hst
      · obtain rfl := Sum.inl.inj hst
        exact ⟨h, .inr ⟨by simp [hphase], rfl⟩⟩
      split at hst <;> cases hst
    · split at hst
      · cases hst
      · rename_i hne
        obtain rfl := Sum.inl.inj hst
        refine ⟨fun n m hp => ?_, .inr ⟨by simp [hphase], rfl⟩⟩
        rw [← (SplicePhase.draining.inj hp).1]
        exact List.length_pos_of_ne_nil hne
  · rename_i nIn inPipe hphase
    have hpos := h nIn inPipe hphase
    split at hst
    · rename_i hzero
      obtain rfl := Sum.inl.inj hst
      refine ⟨(by simp), .inl ⟨⟨nIn, by rw [hphase, hzero]⟩, ?_⟩⟩
      have hle := addRecords_counted (s.stats.addBytes nIn) nIn (effectiveBlockSize cfg)
      rw [addBytes_counted] at hle
      change s.stats.counted < ((s.stats.addBytes nIn).addRecords nIn _).counted
      omega
    · rename_i hsome
      have hnot : ∀ n, s.phase ≠ .draining n 0 := by
        intro n hn
        rw [hphase] at hn
        exact hsome (SplicePhase.draining.inj hn).2
      split at hst
      · split at hst
        · obtain rfl := Sum.inl.inj hst
          exact ⟨h, .inr ⟨hnot, rfl⟩⟩
        · cases hst
      · obtain rfl := Sum.inl.inj hst
        refine ⟨fun n m hp => ?_, .inr ⟨hnot, rfl⟩⟩
        rw [← (SplicePhase.draining.inj hp).1]
        exact hpos

theorem spliceRun_keeps {pipeOk : Bool} {fuel pos : Nat} {input output : List Byte}
    {r : Except String Bool}
    (h : spliceRun pipeOk cancel results fuel cfg input output pos before = some (r, t)) :
    Keeps (pipeOk = true ∧ ∃ s n, Iterates (spliceBody cfg cancel results)
      (.start cfg input output pos before) s ∧ s.phase = .draining n 0) before t.stats := by
  simp only [spliceRun] at h
  split at h
  · rename_i hpipe
    obtain ⟨u, hu, hleave⟩ := iterates_of_runLoop h
    obtain ⟨-, -, hstats, -⟩ := spliceBody_ends hleave
    have hchunk : ∀ {v : SpliceState Byte}, Iterates (spliceBody cfg cancel results)
        (.start cfg input output pos before) v → ∀ n m, v.phase = .draining n m → 0 < n :=
      fun hv => hv.invariant (fun _ _ ha hb => (spliceBody_counts ha hb).1) (fun _ _ h => by cases h)
    have hmono : ∀ {v w : SpliceState Byte}, Iterates (spliceBody cfg cancel results)
        (.start cfg input output pos before) v → Iterates (spliceBody cfg cancel results) v w →
        v.stats.counted ≤ w.stats.counted := by
      intro v w hv hvw
      induction hvw with
      | refl => exact Nat.le_refl _
      | tail hab hb ih =>
        rcases (spliceBody_counts (hchunk (hv.trans hab)) hb).2 with ⟨-, hlt⟩ | ⟨-, hsame⟩
        · omega
        · rwa [hsame]
    rw [hstats]
    refine ⟨?_, fun hnot => ?_⟩
    · rintro ⟨-, v, n, hv, hphase⟩
      have hvu := hv.of_leaves hu hleave
      rcases hvu.cases_head with rfl | ⟨w, hw, hwu⟩
      · simp only [spliceBody, hphase, if_true] at hleave
        cases hleave
      · have hstart := hmono (.refl _) hv
        have hend := hmono (hv.tail hw) hwu
        rcases (spliceBody_counts (hchunk hv) hw).2 with ⟨-, hlt⟩ | ⟨hno, -⟩
        · have hbefore : (SpliceState.start cfg input output pos before).stats = before := rfl
          rw [hbefore] at hstart
          omega
        · exact absurd hphase (hno n)
    · have hsame : u.stats = before := by
        refine (hu.invariant (I := fun v => Iterates (spliceBody cfg cancel results)
          (.start cfg input output pos before) v ∧ v.stats = before) ?_ ⟨.refl _, rfl⟩).2
        rintro a b ⟨ha, hsame⟩ hb
        refine ⟨ha.tail hb, ?_⟩
        rcases (spliceBody_counts (hchunk ha) hb).2 with ⟨⟨n, hn⟩, -⟩ | ⟨-, hstay⟩
        · exact absurd ⟨hpipe, a, n, ha, hn⟩ hnot
        · rw [hstay, hsame]
      rw [hsame]
  · rename_i hpipe
    rw [← (Prod.mk.inj (Option.some.inj h)).2]
    exact ⟨fun hb => absurd hb.1 hpipe, fun _ => rfl⟩

end Splice

section Ring

variable {η₂ η₃ : Type} {env : HashEnv η₂ η₃} {cancel : Nat → Bool} {results : Nat → RingResult}
  {input : RingInput Byte} {s t : UringState Byte η₂ η₃}

theorem uringBody_counts (hst : uringBody env cfg cancel results input s = .inl t) :
    (t.stats = s.stats ∧ ((∃ bytes written, t.phase = .writing bytes written) →
      ∃ bytes written, s.phase = .writing bytes written)) ∨
    (s.stats.counted < t.stats.counted ∧ ((∃ bytes written, s.phase = .writing bytes written) ∨
      ∃ bytes written, t.phase = .writing bytes written)) := by
  simp only [uringBody] at hst
  split at hst
  · rename_i hphase
    split at hst
    · cases hst
    split at hst
    · cases hst
    split at hst
    · cases hst
    · split at hst
      · obtain rfl := Sum.inl.inj hst
        exact .inl ⟨rfl, id⟩
      · cases hst
    · split at hst
      · cases hst
      · obtain rfl := Sum.inl.inj hst
        refine .inr ⟨?_, .inr ⟨_, _, rfl⟩⟩
        dsimp only
        split
        all_goals
          simp only [Stats.counted, Stats.incInFull, Stats.incInPart]
          omega
  · rename_i bytes written hphase
    split at hst
    · obtain rfl := Sum.inl.inj hst
      refine .inr ⟨?_, .inl ⟨_, _, hphase⟩⟩
      dsimp only
      split
      all_goals
        simp only [Stats.counted, Stats.incOutFull, Stats.incOutPart, Stats.addBytes]
        omega
    · split at hst
      · cases hst
      · split at hst
        · obtain rfl := Sum.inl.inj hst
          exact .inl ⟨rfl, id⟩
        · cases hst
      · obtain rfl := Sum.inl.inj hst
        exact .inl ⟨rfl, fun _ => ⟨_, _, hphase⟩⟩

theorem executeUringSingle_keeps {ring : Option String} {fuel : Nat} {r : Except String Unit}
    (h : executeUringSingle env ring cancel results fuel cfg input before = some (r, t)) :
    Keeps (ring = none ∧ ∃ s bytes written, Iterates (uringBody env cfg cancel results input)
      (.start env cfg before) s ∧ s.phase = .writing bytes written) before t.stats := by
  simp only [executeUringSingle] at h
  split at h
  · rw [← (Prod.mk.inj (Option.some.inj h)).2]
    exact ⟨fun hb => absurd hb.1 (by simp), fun _ => rfl⟩
  · obtain ⟨u, hu, hleave⟩ := iterates_of_runLoop h
    obtain ⟨-, hstats, -⟩ := uringBody_ends hleave
    rw [hstats]
    have hmono : ∀ {v w : UringState Byte η₂ η₃},
        Iterates (uringBody env cfg cancel results input) v w →
        v.stats.counted ≤ w.stats.counted := by
      intro v w hvw
      induction hvw with
      | refl => exact Nat.le_refl _
      | tail _ hb ih =>
        rcases uringBody_counts hb with ⟨hsame, -⟩ | ⟨hlt, -⟩
        · rwa [hsame]
        · omega
    refine ⟨?_, fun hnot => ?_⟩
    · rintro ⟨-, v, bytes, written, hv, hphase⟩
      have hread : (∃ bytes written, v.phase = .writing bytes written) →
          before.counted < v.stats.counted := by
        refine (hv.invariant (I := fun v => before.counted ≤ v.stats.counted ∧
          ((∃ bytes written, v.phase = .writing bytes written) →
            before.counted < v.stats.counted)) ?_ ⟨Nat.le_refl _, fun h => ?_⟩).2
        · rintro a b ⟨hle, hlt⟩ hb
          rcases uringBody_counts hb with ⟨hsame, hback⟩ | ⟨hup, -⟩
          · rw [hsame]
            exact ⟨hle, fun hw => hlt (hback hw)⟩
          · exact ⟨by omega, fun _ => by omega⟩
        · obtain ⟨_, _, hstart⟩ := h
          cases hstart
      exact Nat.lt_of_lt_of_le (hread ⟨bytes, written, hphase⟩) (hmono (hv.of_leaves hu hleave))
    · have hsame : u.stats = before := by
        refine (hu.invariant (I := fun v => Iterates (uringBody env cfg cancel results input)
          (.start env cfg before) v ∧ v.stats = before) ?_ ⟨.refl _, rfl⟩).2
        rintro a b ⟨ha, hsame⟩ hb
        refine ⟨ha.tail hb, ?_⟩
        rcases uringBody_counts hb with ⟨hstay, -⟩ | ⟨-, ⟨bytes, written, hw⟩ | ⟨bytes, written, hw⟩⟩
        · rw [hstay, hsame]
        · exact absurd ⟨rfl, a, bytes, written, ha, hw⟩ hnot
        · exact absurd ⟨rfl, b, bytes, written, ha.tail hb, hw⟩ hnot
      rw [hsame]

end Ring

theorem shards_keep {n : Nat} {metaLen : Option Nat} {input : List Byte} {s : ShardState n}
    {begun : Bool} (h : ((shardedSystem cfg metaLen input n before).traced false trackBegun).Reachable
      (s, begun)) : Keeps (begun = true) before s.stats := by
  refine h.invariant (I := fun x => Keeps (x.2 = true) before x.1.stats) ?_ ?_
  · rintro ⟨s, begun⟩ ⟨rfl, rfl⟩
    exact ⟨nofun, fun _ => rfl⟩
  · rintro ⟨s, begun⟩ a ⟨t, begun'⟩ ⟨hup, hstay⟩ ⟨hst, rfl⟩
    cases hst
    case counts w base done leaves bytes written hp hle =>
      refine ⟨fun _ => ?_, fun hnot => absurd rfl hnot⟩
      have hlt := countShardBlock_counted cfg s.stats bytes.length
      have hle : before.counted ≤ s.stats.counted := by
        by_cases hb : begun = true
        · exact Nat.le_of_lt (hup hb)
        · exact Nat.le_of_eq (hstay hb).symm
      exact Nat.lt_of_le_of_lt hle hlt
    all_goals exact ⟨hup, hstay⟩

theorem GivenUp.keeps (h : GivenUp cfg begun before stats) : Keeps begun before stats := by
  cases h with
  | reflink hrun => exact ⟨nofun, fun _ => by rw [reflinkRun_untouched hrun]⟩
  | splice hrun hr => exact spliceRun_keeps hrun
  | ring hrun => exact executeUringSingle_keeps hrun
  | shards hreach hend => exact shards_keep hreach

/-- The counters are still at zero exactly if no attempt had begun. -/
theorem Attempts.counted_iff (h : Attempts cfg begun stats) : stats.counted = 0 ↔ ¬begun := by
  induction h with
  | none => exact ⟨fun _ => id, fun _ => rfl⟩
  | @next begun begun' stats stats' _ hup ih =>
    obtain ⟨hlt, hstay⟩ := hup.keeps
    by_cases hb : begun'
    · have := hlt hb
      exact ⟨fun hz => by omega, fun hnot => absurd (.inr hb) hnot⟩
    · rw [hstay hb, ih, or_iff_left hb]

end GivenUp

section Execute

/-- The engines of the function run as they are modelled. -/
structure EnginesRun (E : Engines Byte) (cfg : Config) : Prop where
  reflink : ∀ {input output pos stats x}, E.tryReflinkCopy cfg input output pos stats = some x →
    (x.result = .ok true → ∃ total, CopyDone cfg .reflink stats total x.stats) ∧
    (x.result = .ok false → ∃ begun, GivenUp cfg begun stats x.stats)
  splice : ∀ {input output pos stats x}, E.trySpliceCopy cfg input output pos stats = some x →
    (x.result = .ok true → ∃ total, CopyDone cfg .splice stats total x.stats) ∧
    (x.result ≠ .ok true → ∃ begun, GivenUp cfg begun stats x.stats)
  async : ∀ {input output pos stats x hash},
    E.executeAsyncTransfer cfg input output pos stats = some x → x.result = .ok hash →
    ∃ total, CopyDone cfg .async stats total x.stats
  uring : ∀ {input output pos stats x},
    E.executeUringTransfer cfg input output pos stats = some x →
    (∀ hash, x.result = .ok hash → ∃ e total, CopyDone cfg e stats total x.stats) ∧
    (∀ err, x.result = .error err → ∃ begun, GivenUp cfg begun stats x.stats)
  sync : ∀ {input output pos stats x hash},
    E.transferLoop cfg input output pos stats = some x → x.result = .ok hash →
    ∃ total, CopyDone cfg .sync stats total x.stats

/-- A path that is taken after given up attempts goes on to the next one after one more, or has
copied. -/
def Accounted (cfg : Config) (r : PathResult Byte) : Prop :=
  ∀ x w, r = some (x, w) →
    match x with
    | none => ∃ begun, Attempts cfg begun w.stats
    | some (.ok _) => ∃ e begun total, Transferred cfg e begun total w.stats
    | some (.error _) => True

variable {E : Engines Byte} {w w' : World Byte}

theorem Accounted.orElse {r : PathResult Byte} {next : World Byte → PathResult Byte}
    (h : Accounted cfg r)
    (hnext : ∀ w begun, Attempts cfg begun w.stats → Accounted cfg (next w)) :
    Accounted cfg (r.orElse next) := by
  rcases r with _ | ⟨_ | x, w⟩
  · exact h
  · obtain ⟨begun, hw⟩ := h none w rfl
    exact hnext w begun hw
  · exact h

theorem Accounted.skip (hw : Attempts cfg begun w.stats) : Accounted cfg (some (none, w)) := by
  rintro x v hv
  obtain ⟨rfl, rfl⟩ := Prod.mk.inj (Option.some.inj hv)
  exact ⟨begun, hw⟩

theorem Accounted.fail (err : String) (w : World Byte) :
    Accounted cfg (some (some (.error err), w)) := by
  rintro x v hv
  obtain ⟨rfl, rfl⟩ := Prod.mk.inj (Option.some.inj hv)
  trivial

theorem Accounted.done {hash : HashInfo} (h : Transferred cfg e begun total w.stats) :
    Accounted cfg (some (some (.ok hash), w)) := by
  rintro x v hv
  obtain ⟨rfl, rfl⟩ := Prod.mk.inj (Option.some.inj hv)
  exact ⟨e, begun, total, h⟩

theorem syncFile_stats (cfg : Config) (o : OpenOutput) (w : World Byte) :
    (syncFile cfg o w).stats = w.stats := by
  simp only [syncFile]
  repeat' split
  all_goals rfl

theorem openSink_stats {r : Except String OpenOutput} (h : openSink w cfg = (r, w')) :
    w'.stats = w.stats := by
  simp only [openSink] at h
  split at h
  · split at h
    all_goals
      obtain ⟨-, rfl⟩ := Prod.mk.inj h
      rfl
  · obtain ⟨-, rfl⟩ := Prod.mk.inj h
    rfl

theorem Accounted.synced {hash : HashInfo} (o : OpenOutput)
    (h : Transferred cfg e begun total w.stats) :
    Accounted cfg (some (some (.ok hash), syncFile cfg o w)) := by
  rw [← syncFile_stats cfg o] at h
  exact .done h

/-- What a copy does to the counters of the world it runs in. -/
theorem runCopy_effect {β : Type} {i : OpenInput} {o : OpenOutput} {copy : CopyPath Byte β} {r : β}
    (h : w.runCopy i o copy = some (r, w')) :
    ∃ x, copy (w.inputBytes i) (w.outputContent o) (w.outputPos o) w.stats = some x ∧
      x.result = r ∧ x.stats = w'.stats := by
  simp only [World.runCopy] at h
  split at h
  · cases h
  · rename_i x hx
    obtain ⟨rfl, rfl⟩ := Prod.mk.inj (Option.some.inj h)
    exact ⟨x, hx, rfl, rfl⟩

theorem reflinkPath_accounted (hE : EnginesRun E cfg) (hw : Attempts cfg begun w.stats) :
    Accounted cfg (reflinkPath E cfg w) := by
  simp only [reflinkPath]
  split
  · split
    · rename_i inPath outPath _ _
      split
      · split
        · intro x v hv
          cases hv
        · rename_i v hrun
          obtain ⟨x, hx, hres, hstats⟩ := runCopy_effect hrun
          obtain ⟨total, hdone⟩ := (hE.reflink hx).1 hres
          have htransferred : Transferred cfg .reflink begun total v.stats :=
            ⟨_, hw, hstats ▸ hdone⟩
          split
          · exact .done htransferred
          · exact .done htransferred
        · rename_i v hrun
          obtain ⟨x, hx, hres, hstats⟩ := runCopy_effect hrun
          obtain ⟨begun', hup⟩ := (hE.reflink hx).2 hres
          rw [hstats] at hup
          exact .skip (Attempts.next hw hup)
        · exact .fail _ _
      · exact .skip (w := { w with fs := _ }) hw
    · exact .skip hw
  · exact .skip hw

theorem splicePath_accounted (hE : EnginesRun E cfg) (hw : Attempts cfg begun w.stats) :
    Accounted cfg (splicePath E cfg w) := by
  simp only [splicePath]
  split
  · split
    · exact .fail _ _
    · split
      · exact .fail _ _
      · rename_i o v ho
        rw [← openSink_stats ho] at hw
        split
        · intro x u hu
          cases hu
        · rename_i u hrun
          obtain ⟨x, hx, hres, hstats⟩ := runCopy_effect hrun
          obtain ⟨total, hdone⟩ := (hE.splice hx).1 hres
          rw [hstats] at hdone
          exact .synced _ ⟨_, hw, hdone⟩
        · rename_i r u hne hrun
          obtain ⟨x, hx, hres, hstats⟩ := runCopy_effect hrun
          obtain ⟨begun', hup⟩ := (hE.splice hx).2 fun hok => hne (hres ▸ hok)
          rw [hstats] at hup
          exact .skip (Attempts.next hw hup)
  · exact .skip hw

theorem openAndCopy_accounted (copy : CopyPath Byte (Except String HashInfo))
    (hcopy : ∀ {input output pos stats x hash}, copy input output pos stats = some x →
      x.result = .ok hash → ∃ total, CopyDone cfg e stats total x.stats)
    (hw : Attempts cfg begun w.stats) : Accounted cfg (openAndCopy cfg w copy) := by
  simp only [openAndCopy]
  split
  · exact .fail _ _
  · split
    · exact .fail _ _
    · split
      · exact .fail _ _
      · rename_i o v ho
        rw [← openSink_stats ho] at hw
        split
        · exact .fail _ _
        · split
          · intro x u hu
            cases hu
          · exact .fail _ _
          · rename_i hash u hrun
            obtain ⟨x, hx, hres, hstats⟩ := runCopy_effect hrun
            obtain ⟨total, hdone⟩ := hcopy hx hres
            rw [hstats] at hdone
            exact .synced _ ⟨_, hw, hdone⟩

theorem uringPath_accounted (hE : EnginesRun E cfg) (hw : Attempts cfg begun w.stats) :
    Accounted cfg (uringPath E cfg w) := by
  simp only [uringPath]
  split
  · split
    · split
      · split
        · exact .fail _ _
        · split
          · exact .fail _ _
          · rename_i outF fs ho
            split
            · intro x u hu
              cases hu
            · rename_i hash u hrun
              obtain ⟨x, hx, hres, hstats⟩ := runCopy_effect hrun
              obtain ⟨e, total, hdone⟩ := (hE.uring hx).1 hash hres
              rw [hstats] at hdone
              exact .synced _ ⟨_, hw, hdone⟩
            · rename_i err u hrun
              obtain ⟨x, hx, hres, hstats⟩ := runCopy_effect hrun
              obtain ⟨begun', hup⟩ := (hE.uring hx).2 err hres
              rw [hstats] at hup
              exact .skip (Attempts.next hw hup)
      · exact .skip hw
    · exact .skip hw
  · exact .skip hw

theorem syncPath_accounted (hE : EnginesRun E cfg) (hw : Attempts cfg begun w.stats) :
    Accounted cfg (syncPath E cfg w) := by
  have hcopy := openAndCopy_accounted (E.transferLoop cfg) (fun hx hres => hE.sync hx hres) hw
  simp only [syncPath]
  split
  · rename_i hash v hrun
    obtain ⟨e, begun, total, hdone⟩ := hcopy _ v hrun
    have htransferred : Transferred cfg e begun total v.stats := hdone
    split
    · exact .done htransferred
    · exact .done htransferred
  · exact hcopy

/-- Every success of the function is a copy by one engine after attempts that were given up. -/
theorem executeTransferWithControl_transferred (hE : EnginesRun E cfg) (hfresh : w.stats = {})
    {hash : HashInfo} (h : executeTransferWithControl E cfg w = some (some (.ok hash), w')) :
    ∃ e begun total, Transferred cfg e begun total w'.stats := by
  have hstart : Attempts cfg False w.stats := hfresh ▸ .none
  have haccount : Accounted cfg (executeTransferWithControl E cfg w) := by
    refine (reflinkPath_accounted hE hstart).orElse fun w _ hw => ?_
    refine (splicePath_accounted hE hw).orElse fun w _ hw => ?_
    refine Accounted.orElse ?_ fun w _ hw => ?_
    · rw [asyncPath]
      split
      · exact openAndCopy_accounted _ (fun hx hres => hE.async hx hres) hw
      · exact .skip hw
    · exact (uringPath_accounted hE hw).orElse fun w _ hw => syncPath_accounted hE hw
  exact haccount _ w' h

end Execute

section Example

/-- A file read as it is asked for. -/
def wholeInput : Input Byte (Stream Byte) where
  read s n := (.data (s.rest.take n), ⟨s.rest.drop n, s.reads + 1⟩)
  read_le := by
    intro s n bytes t h
    simp only [Prod.mk.injEq, ReadResult.data.injEq] at h
    rw [← h.1]
    exact List.length_take_le n s.rest

theorem wholeInput_readsFrom : ReadsFrom wholeInput Stream.rest where
  data := by
    intro s n bytes t h
    obtain ⟨hb, rfl⟩ := Prod.mk.inj h
    obtain rfl := ReadResult.data.inj hb
    exact ⟨(List.take_append_drop n s.rest).symm, fun hnil => List.take_eq_nil_iff.mp hnil⟩
  interrupted h := by cases h
  failed h := by cases h

theorem wholeInput_fullReads : FullReads wholeInput Stream.rest := by
  intro s n bytes t h
  obtain ⟨hb, -⟩ := Prod.mk.inj h
  obtain rfl := ReadResult.data.inj hb
  exact List.length_take

/-- Two bytes are copied, one at a time. -/
def byteByByte : Config :=
  { input := some "in", output := some "out", engine := .uring, blockSize := 1 }

/-- The ring reads and writes one byte, then a read fails. -/
def brokenDisk (i : Nat) : RingResult := if i < 2 then .done 1 else .failed 5

/-- Copies through a ring that breaks, and by the loop. -/
def breakingEngines : Engines Byte where
  tryReflinkCopy _ _ _ _ _ := none
  trySpliceCopy _ _ _ _ _ := none
  executeAsyncTransfer _ _ _ _ _ := none
  executeUringTransfer cfg input output _ stats :=
    (executeUringSingle noCrates none (fun _ => false) brokenDisk 8 cfg ⟨input, false⟩ stats).map
      fun
      | (.ok _, s) => ⟨.ok none, input, contentAfter 0 output s.log, s.stats⟩
      | (.error e, s) => ⟨.error e, input, contentAfter 0 output s.log, s.stats⟩
  transferLoop cfg input output pos stats :=
    (transferLoop wholeInput contentOutput noCrates cfg (fun _ => false) 4
      (.start noCrates cfg ⟨input, 0⟩ (output, pos) stats)).map fun
      | (.ok _, s) => ⟨.ok none, s.input.rest, s.out.file.1, s.stats⟩
      | (.error e, s) => ⟨.error e, s.input.rest, s.out.file.1, s.stats⟩

theorem brokenDisk_full (input : RingInput Byte) (start : UringState Byte Unit Unit) :
    RingFull noCrates byteByByte (fun _ => false) brokenDisk input start := by
  intro s n _ _ hres
  have hread : toRead byteByByte s.remaining ≤ 1 := toRead_le byteByByte s.remaining
  have hring : ringLength (toRead byteByByte s.remaining) = toRead byteByByte s.remaining :=
    Nat.mod_eq_of_lt (by omega)
  have hn : n = 1 := by
    rw [brokenDisk] at hres
    split at hres
    · exact (RingResult.done.inj hres).symm
    · cases hres
  rw [hring, hn]
  omega

theorem breakingEngines_run : EnginesRun breakingEngines byteByByte where
  reflink h := by cases h
  splice h := by cases h
  async h := by cases h
  uring {input output pos stats x} h := by
    simp only [breakingEngines, Option.map_eq_some_iff] at h
    obtain ⟨⟨r, t⟩, hrun, rfl⟩ := h
    cases r with
    | ok u => exact ⟨fun _ _ => ⟨.ring, _, .ring (brokenDisk_full _ _) hrun⟩, nofun⟩
    | error e => exact ⟨nofun, fun _ _ => ⟨_, .ring hrun⟩⟩
  sync {input output pos stats x hash} h hres := by
    simp only [breakingEngines, Option.map_eq_some_iff] at h
    obtain ⟨⟨r, t⟩, hrun, rfl⟩ := h
    cases r with
    | ok u => exact ⟨_, .sync wholeInput_readsFrom wholeInput_fullReads hrun⟩
    | error e => cases hres

def twoByteFile : World Byte where
  fs :=
    { locate := fun path => if path = "in" then 0 else 1
      node := fun id => if id = 0 then some ⟨.regular, [7, 8], true, true⟩ else none
      creatable := fun _ => true
      directSupported := fun _ => true }
  stdin := []
  stdout := []
  stats := {}
  syncs := []

/-- The attempt that begins, and the copy of both bytes after it. -/
theorem brokenDisk_transferred : ∃ begun stats,
    Transferred byteByByte .sync begun 2 stats ∧ stats.bytesCopied = 3 := by
  have hattempt : ∃ t : UringState Byte Unit Unit, executeUringSingle noCrates none (fun _ => false)
      brokenDisk 8 byteByByte ⟨[7, 8], false⟩ {} =
        some (.error ("io_uring read error: errno " ++ toString 5), t) ∧
      t.stats = { recordsInFull := 1, recordsOutFull := 1, bytesCopied := 1 } := ⟨_, rfl, rfl⟩
  obtain ⟨t, ht, hstats⟩ := hattempt
  have hup : GivenUp byteByByte _ {} t.stats := .ring ht
  rw [hstats] at hup
  have hloop : ∃ y, transferLoop wholeInput contentOutput noCrates byteByByte (fun _ => false) 4
      (.start noCrates byteByByte ⟨[7, 8], 0⟩ ([], 0)
        { recordsInFull := 1, recordsOutFull := 1, bytesCopied := 1 }) = some (.ok (), y) ∧
      y.input.rest = [] ∧ y.stats.bytesCopied = 3 := ⟨_, rfl, rfl, rfl⟩
  obtain ⟨y, hy, hrest, hbytes⟩ := hloop
  have hdone := CopyDone.sync wholeInput_readsFrom wholeInput_fullReads hy
  rw [hrest] at hdone
  exact ⟨_, y.stats, ⟨_, .next .none hup, hdone⟩, hbytes⟩

end Example

end Blkcp.Rust
