import Blkcp.C.Iwrite
import Blkcp.Rust.ShardedCopy
import Blkcp.Rust.SpliceFallback
import Blkcp.Rust.Uring
set_option autoImplicit false

/-! The loops that write a block until none of it is left, in both programs: when they end. -/

namespace Blkcp
open Blkcp.Lib

section Ring
open Rust

variable {α η₂ η₃ : Type}

def ringCount : RingResult → Nat
  | .done n => n
  | .failed _ | .broken _ => 0

def RingFails : RingResult → Prop
  | .done _ => False
  | .failed errno => errno ≠ Rust.Errno.eintr.code
  | .broken _ => True

def atTop (s : UringState α η₂ η₃) : Bool :=
  match s.phase with
  | .top => true
  | .writing _ _ => false

/-- The loop is left with the block written or with an error. -/
def UringWritten (s : UringState α η₂ η₃) (bytes : List α) :
    UringState α η₂ η₃ ⊕ (Except String Unit × UringState α η₂ η₃) → Prop
  | .inl t => (t.log.drop s.log.length).flatMap (·.bytes) = bytes
  | .inr (result, _) => ∃ e, result = .error e

/-- It is left after finitely many calls. -/
def UringWriteEnds [Octet α] (env : HashEnv η₂ η₃) (cfg : Config) (cancel : Nat → Bool)
    (results : Nat → RingResult) (input : RingInput α) (s : UringState α η₂ η₃)
    (bytes : List α) : Prop :=
  ∃ fuel r, runLoop (upTo atTop (uringBody env cfg cancel results input)) fuel s = some r ∧
    UringWritten s bytes r

variable [Octet α] {env : HashEnv η₂ η₃} {cfg : Config} {cancel : Nat → Bool}
  {results : Nat → RingResult} {input : RingInput α} {s t : UringState α η₂ η₃} {bytes : List α}

/-- A block is as long as one request at most. -/
theorem uring_block_lt {stats : Stats} (h : Iterates (uringBody env cfg cancel results input)
    (.start env cfg stats) s) : ∀ b w, s.phase = .writing b w → b.length < 2 ^ 32 := by
  refine h.invariant (I := fun u => ∀ b w, u.phase = .writing b w → b.length < 2 ^ 32) ?_
    (by intro b w hw; cases hw)
  intro u v hu hb b w hw
  simp only [uringBody] at hb
  split at hb
  · rename_i hphase
    split at hb
    · cases hb
    split at hb
    · cases hb
    split at hb
    · cases hb
    · split at hb
      · obtain rfl := Sum.inl.inj hb
        rw [hphase] at hw
        cases hw
      · cases hb
    · split at hb
      · cases hb
      · obtain rfl := Sum.inl.inj hb
        obtain ⟨rfl, -⟩ := UringPhase.writing.inj hw
        refine (List.length_take_le _ _).trans_lt ((Nat.min_le_left _ _).trans_lt ?_)
        exact Nat.mod_lt _ (by decide)
  · rename_i b' w' hphase
    split at hb
    · obtain rfl := Sum.inl.inj hb
      cases hw
    · split at hb
      · cases hb
      · split at hb
        · obtain rfl := Sum.inl.inj hb
          exact hu b w hw
        · cases hb
      · obtain rfl := Sum.inl.inj hb
        obtain ⟨rfl, -⟩ := UringPhase.writing.inj hw
        exact hu b' w' hphase

/-- The calls from the one before which the loop is entered. -/
def ringCounts (results : Nat → RingResult) (c i : Nat) : Nat := ringCount (results (c + i))

def ringFails (results : Nat → RingResult) (c i : Nat) : Prop := RingFails (results (c + i))

/-- Between two calls of the loop that is entered in `s`. -/
structure UringWriting (results : Nat → RingResult) (s : UringState α η₂ η₃) (bytes : List α)
    (k : Nat) (t : UringState α η₂ η₃) : Prop where
  calls : t.calls = s.calls + k
  phase : t.phase =
    .writing bytes (min bytes.length (given (ringCounts results s.calls) k))
  log : ∃ pieces, t.log = s.log ++ pieces ∧ pieces.flatMap (·.bytes) =
    bytes.take (min bytes.length (given (ringCounts results s.calls) k))

/-- One round of the loop. -/
theorem UringWriting.round (env : HashEnv η₂ η₃) (cfg : Config) (cancel : Nat → Bool)
    (input : RingInput α) {k : Nat} (hlen : bytes.length < 2 ^ 32)
    (h : UringWriting results s bytes k t) :
    Round (UringWriting results s bytes) (UringWritten s bytes)
      (Settled (ringCounts results s.calls) (ringFails results s.calls) bytes.length) k
      (upTo atTop (uringBody env cfg cancel results input) t) := by
  obtain ⟨pieces, hlog, hpieces⟩ := h.log
  have hcall : results t.calls = results (s.calls + k) := by rw [h.calls]
  rw [upTo, uringBody, h.phase]
  dsimp only
  by_cases hdone : bytes.length ≤ min bytes.length (given (ringCounts results s.calls) k)
  · rw [if_pos hdone]
    refine ⟨.of_done hdone, ?_⟩
    rw [List.take_of_length_le hdone] at hpieces
    simp only [UringWritten, hlog, List.drop_left, hpieces]
  · rw [if_neg hdone, Nat.add_sub_cancel, hcall]
    have hlt : min bytes.length (given (ringCounts results s.calls) k) < bytes.length := by omega
    cases hres : results (s.calls + k) with
    | broken e => exact ⟨.inr (by simp [ringFails, RingFails, hres]), e, rfl⟩
    | failed errno =>
      dsimp only
      by_cases he : errno = Rust.Errno.eintr.code
      · rw [if_pos he]
        have hcount : ringCounts results s.calls k = 0 := by simp [ringCounts, ringCount, hres]
        refine ⟨⟨by rw [h.calls, Nat.add_assoc], ?_, pieces, hlog, ?_⟩, not_settled hlt ?_⟩
        · rw [min_given_succ_of_zero hcount]
        · rw [min_given_succ_of_zero hcount]
          exact hpieces
        · simp [ringFails, RingFails, hres, he]
      · rw [if_neg he]
        exact ⟨.inr (by simpa [ringFails, RingFails, hres] using he), _, rfl⟩
    | done m =>
      have hcount : ringCounts results s.calls k = m := by simp [ringCounts, ringCount, hres]
      have hroom : ringLength (bytes.length - min bytes.length
          (given (ringCounts results s.calls) k)) =
          bytes.length - min bytes.length (given (ringCounts results s.calls) k) :=
        Nat.mod_eq_of_lt (by omega)
      refine ⟨⟨by rw [h.calls, Nat.add_assoc], ?_, ?_⟩, not_settled hlt ?_⟩
      · rw [min_given_succ, hcount, hroom]
      · refine ⟨_, by rw [hlog, List.append_assoc], ?_⟩
        rw [List.flatMap_append, hpieces, min_given_succ, hcount, hroom, List.take_add]
        simp
      · simp [ringFails, RingFails, hres]

/-- The loop over a block that was just read ends when some call fails or the calls give the length
of the block. -/
theorem uringWrite_ends_iff {stats : Stats} (h : Iterates (uringBody env cfg cancel results input)
    (.start env cfg stats) s) (hphase : s.phase = .writing bytes 0) :
    UringWriteEnds env cfg cancel results input s bytes ↔
      ∃ k, Settled (ringCounts results s.calls) (ringFails results s.calls) bytes.length k := by
  have hlen := uring_block_lt h bytes 0 hphase
  have hstart : UringWriting results s bytes 0 s :=
    ⟨rfl, by simpa using hphase, [], by simp⟩
  exact runLoop_leaves_iff_round (fun _ _ ht => ht.round env cfg cancel input hlen) hstart

end Ring

section Sharded
open Rust

variable {n : Nat}

/-- The worker whose step it is. -/
def shardWorker : ShardAct n → Option (Fin n)
  | .setCancel => none
  | .starts w | .startFails w | .stops w | .passes w | .exhausts w | .claims w | .finishes w
  | .cancels w | .submits w | .reads w _ | .readsEof w | .readInterrupted w | .readFails w
  | .writes w _ | .writeInterrupted w | .writeFails w | .counts w | .breaks w => some w

/-- What a step writes for the worker `w`. -/
def shardCount (w : Fin n) : ShardAct n → Nat
  | .writes v m => if v = w then m else 0
  | _ => 0

def ShardFails (w : Fin n) (a : ShardAct n) : Prop := a = .writeFails w ∨ a = .breaks w

variable {cfg : Config} {metaLen : Option Nat} {input : List Blks.Byte} {s t u : ShardState n}
  {a : ShardAct n} {w : Fin n} {base done written : Nat} {leaves : List Blks.Digest}
  {bytes : List Blks.Byte}

/-- A step of another worker leaves this one where it is. -/
theorem shardStep_of_other (hst : ShardStep cfg metaLen input t a u)
    (hw : shardWorker a ≠ some w) : u.phase w = t.phase w ∧ shardCount w a = 0 ∧ ¬ShardFails w a ∧
      ∃ pieces, u.log = t.log ++ pieces ∧ ∀ p ∈ pieces, p.who ≠ w := by
  have hself : ∀ v, shardWorker a = some v → w ≠ v := by
    rintro v hv rfl
    exact hw hv
  have hfails : ¬ShardFails w a := by
    rintro (rfl | rfl)
    · exact hw rfl
    · exact hw rfl
  have hcount : shardCount w a = 0 := by
    cases a with
    | writes v m => exact if_neg (hself v rfl).symm
    | _ => rfl
  have hquiet : ∀ v : ShardState n, v.log = t.log → ∃ pieces, v.log = t.log ++ pieces ∧
      ∀ p ∈ pieces, p.who ≠ w := fun v hv => ⟨[], by rw [hv, List.append_nil], by simp⟩
  cases hst with
  | setCancel => exact ⟨rfl, hcount, hfails, hquiet _ rfl⟩
  | writes v m =>
    have hv : w ≠ v := hself v rfl
    refine ⟨t.phase_goto_of_ne _ hv, hcount, hfails, _, rfl, fun p hp => ?_⟩
    rw [List.mem_singleton.mp hp]
    exact hv.symm
  | writeInterrupted => exact ⟨rfl, hcount, hfails, hquiet _ rfl⟩
  | finishes v =>
    exact ⟨t.phase_update_of_ne _ (hself v rfl), hcount, hfails, hquiet _ rfl⟩
  | readsEof v =>
    exact ⟨t.phase_update_of_ne _ (hself v rfl), hcount, hfails, hquiet _ rfl⟩
  | starts v | startFails v | stops v | passes v | exhausts v | claims v | cancels v | submits v
  | reads v | readInterrupted v | readFails v | writeFails v | counts v | breaks v =>
    exact ⟨t.phase_goto_of_ne _ (hself v rfl), hcount, hfails, hquiet _ rfl⟩

/-- What a worker does in its write loop. -/
theorem shardStep_of_own (hst : ShardStep cfg metaLen input t a u) (hw : shardWorker a = some w)
    (hphase : t.phase w = .writing base done leaves bytes written) :
    (written < bytes.length ∧ ¬ShardFails w a ∧ shardCount w a ≤ bytes.length - written ∧
      u.phase w = .writing base done leaves bytes (written + shardCount w a) ∧
      ∃ pieces, u.log = t.log ++ pieces ∧ (pieces.filter (·.who = w)).flatMap (·.bytes) =
        (bytes.drop written).take (shardCount w a)) ∨
    (ShardFails w a ∧ ∃ e, u.phase w = .done (.error e)) ∨
    (bytes.length ≤ written ∧ u.phase w = .stripe base (done + bytes.length) leaves ∧
      u.log = t.log) := by
  cases hst with
  | setCancel => cases hw
  | writes v m base' done' leaves' bytes' written' hp hlt hm =>
    obtain rfl := Option.some.inj hw
    rw [hphase] at hp
    obtain ⟨rfl, rfl, rfl, rfl, rfl⟩ := ShardPhase.writing.inj hp
    have hcount : shardCount v (.writes v m) = m := if_pos rfl
    rw [hcount]
    refine .inl ⟨hlt, ?_, hm.trans (Nat.mod_le _ _), t.phase_goto_self v _, _, rfl, ?_⟩
    · rintro (h | h) <;> cases h
    · simp
  | writeInterrupted v base' done' leaves' bytes' written' hp hlt =>
    obtain rfl := Option.some.inj hw
    rw [hphase] at hp
    obtain ⟨rfl, rfl, rfl, rfl, rfl⟩ := ShardPhase.writing.inj hp
    refine .inl ⟨hlt, ?_, Nat.zero_le _, hphase, [], (List.append_nil _).symm, rfl⟩
    rintro (h | h) <;> cases h
  | writeFails v base' done' leaves' bytes' written' err hp hlt =>
    obtain rfl := Option.some.inj hw
    exact .inr (.inl ⟨.inl rfl, _, t.phase_goto_self v _⟩)
  | breaks v e hring =>
    obtain rfl := Option.some.inj hw
    exact .inr (.inl ⟨.inr rfl, _, t.phase_goto_self v _⟩)
  | counts v base' done' leaves' bytes' written' hp hle =>
    obtain rfl := Option.some.inj hw
    rw [hphase] at hp
    obtain ⟨rfl, rfl, rfl, rfl, rfl⟩ := ShardPhase.writing.inj hp
    exact .inr (.inr ⟨hle, t.phase_goto_self v _, rfl⟩)
  | starts | startFails | stops | passes | exhausts | claims | finishes | cancels | submits
  | reads | readsEof | readInterrupted | readFails => simp_all [shardWorker]

/-- The worker `w` between two steps of the pool, in the write loop it entered in `s`. -/
structure ShardWriting (s : ShardState n) (w : Fin n) (base done : Nat)
    (leaves : List Blks.Digest) (bytes : List Blks.Byte) (written : Nat) (t : ShardState n) :
    Prop where
  phase : t.phase w = .writing base done leaves bytes written
  written_le : written ≤ bytes.length
  log : ∃ pieces, t.log = s.log ++ pieces ∧
    (pieces.filter (·.who = w)).flatMap (·.bytes) = bytes.take written

/-- It is out of the loop, with the block written or with an error. -/
def ShardWritten (s : ShardState n) (w : Fin n) (base done : Nat) (leaves : List Blks.Digest)
    (bytes : List Blks.Byte) (t : ShardState n) : Prop :=
  t.phase w = .stripe base (done + bytes.length) leaves ∧
      ((t.log.drop s.log.length).filter (·.who = w)).flatMap (·.bytes) = bytes ∨
    ∃ e, t.phase w = .done (.error e)

theorem ShardWriting.step (h : ShardWriting s w base done leaves bytes written t)
    (hst : ShardStep cfg metaLen input t a u) :
    ShardWriting s w base done leaves bytes (written + shardCount w a) u ∧ ¬ShardFails w a ∧
        (shardWorker a = some w → written < bytes.length) ∨
      ShardWritten s w base done leaves bytes u ∧
        (ShardFails w a ∨ shardWorker a = some w ∧ bytes.length ≤ written) := by
  obtain ⟨pieces, hlog, hpieces⟩ := h.log
  by_cases hw : shardWorker a = some w
  · rcases shardStep_of_own hst hw h.phase with
      ⟨hlt, hok, hcount, hphase, more, hmore, hbytes⟩ | ⟨hfails, hended⟩ | ⟨hle, hphase, hsame⟩
    · refine .inl ⟨⟨hphase, by omega, pieces ++ more, ?_, ?_⟩, hok, fun _ => hlt⟩
      · rw [hmore, hlog, List.append_assoc]
      · rw [List.filter_append, List.flatMap_append, hpieces, hbytes, List.take_add]
    · exact .inr ⟨.inr hended, .inl hfails⟩
    · refine .inr ⟨.inl ⟨hphase, ?_⟩, .inr ⟨hw, hle⟩⟩
      rw [hsame, hlog, List.drop_left, hpieces, List.take_of_length_le hle]
  · obtain ⟨hphase, hcount, hok, more, hmore, hothers⟩ := shardStep_of_other hst hw
    rw [hcount]
    refine .inl ⟨⟨hphase.trans h.phase, h.written_le, pieces ++ more, ?_, ?_⟩, hok,
      fun hv => absurd hv hw⟩
    · rw [hmore, hlog, List.append_assoc]
    · have hnone : more.filter (·.who = w) = [] :=
        List.filter_eq_nil_iff.mpr fun p hp => by simpa using hothers p hp
      rw [List.filter_append, hnone, List.append_nil, hpieces, Nat.add_zero]

/-- Until it is out of the loop it has written what its calls gave, and none of them failed. -/
theorem shardWriting_run {states : Nat → ShardState n} {acts : Nat → ShardAct n}
    (hrun : ∀ k, ShardStep cfg metaLen input (states k) (acts k) (states (k + 1)))
    (hphase : (states 0).phase w = .writing base done leaves bytes 0) (k : Nat) :
    ShardWriting (states 0) w base done leaves bytes (given (fun i => shardCount w (acts i)) k)
        (states k) ∧ (∀ i, i < k → ¬ShardFails w (acts i)) ∨
      (∃ j, ShardWritten (states 0) w base done leaves bytes (states j)) ∧
        ∃ i, Settled (fun i => shardCount w (acts i)) (fun i => ShardFails w (acts i))
          bytes.length i := by
  induction k with
  | zero =>
    exact .inl ⟨⟨hphase, Nat.zero_le _, [], by simp⟩, fun i hi => absurd hi (Nat.not_lt_zero i)⟩
  | succ k ih =>
    rcases ih with ⟨hin, hok⟩ | hout
    · rcases hin.step (hrun k) with ⟨hin', hok', -⟩ | ⟨hout, hfails | ⟨-, hle⟩⟩
      · refine .inl ⟨by rwa [given_succ], fun i hi => ?_⟩
        rcases Nat.lt_succ_iff_lt_or_eq.mp hi with hlt | rfl
        · exact hok i hlt
        · exact hok'
      · exact .inr ⟨⟨k + 1, hout⟩, k, .inr hfails⟩
      · exact .inr ⟨⟨k + 1, hout⟩, k, .inl hle⟩
    · exact .inr hout

/-- In a run of the pool that never leaves out the worker for good, its loop over a block ends when
some call of it fails or its calls give the length of the block. -/
theorem shardWrite_ends_iff {states : Nat → ShardState n} {acts : Nat → ShardAct n}
    (hrun : ∀ k, ShardStep cfg metaLen input (states k) (acts k) (states (k + 1)))
    (hfair : ∀ k, ∃ j, k ≤ j ∧ shardWorker (acts j) = some w)
    (hphase : (states 0).phase w = .writing base done leaves bytes 0) :
    (∃ k, ShardWritten (states 0) w base done leaves bytes (states k)) ↔
      ∃ k, Settled (fun i => shardCount w (acts i)) (fun i => ShardFails w (acts i))
        bytes.length k := by
  have hdich := shardWriting_run hrun hphase
  constructor
  · rintro ⟨k, hout⟩
    rcases hdich k with ⟨hin, -⟩ | ⟨-, hsettled⟩
    · rcases hout with ⟨hphase', -⟩ | ⟨e, hphase'⟩
      · rw [hin.phase] at hphase'
        cases hphase'
      · rw [hin.phase] at hphase'
        cases hphase'
    · exact hsettled
  · rintro ⟨k, hgiven | hfails⟩
    · -- the block is written at `k`, and the worker takes a later step
      obtain ⟨j, hkj, hj⟩ := hfair k
      rcases hdich j with ⟨hin, -⟩ | ⟨hout, -⟩
      · rcases hin.step (hrun j) with ⟨-, -, hlt⟩ | ⟨hout, -⟩
        · have hmono : given (fun i => shardCount w (acts i)) k ≤
              given (fun i => shardCount w (acts i)) j := given_mono hkj
          have := hlt hj
          omega
        · exact ⟨j + 1, hout⟩
      · exact hout
    · rcases hdich (k + 1) with ⟨-, hok⟩ | ⟨hout, -⟩
      · exact absurd hfails (hok k k.lt_succ_self)
      · exact hout

end Sharded

section Splice
open Rust

variable {α : Type}

def spliceCount : SpliceResult → Nat
  | .moved n => n
  | .failed _ => 0

def SpliceFails : SpliceResult → Prop
  | .moved _ => False
  | .failed e => e.code ≠ Rust.Errno.eintr.code

def spliceCounts (results : Nat → SpliceResult) (c i : Nat) : Nat := spliceCount (results (c + i))

def spliceFails (results : Nat → SpliceResult) (c i : Nat) : Prop := SpliceFails (results (c + i))

def spliceAtTop (s : SpliceState α) : Bool :=
  match s.phase with
  | .top => true
  | .draining _ _ => false

/-- The pipe is drained to the output, or there is an error. -/
def Drained (s : SpliceState α) (n : Nat) :
    SpliceState α ⊕ (Except String Bool × SpliceState α) → Prop
  | .inl t => t.pipe = [] ∧ t.pos = s.pos + n
  | .inr (result, _) => ∃ e, result = .error e

def DrainEnds [Octet α] (cfg : Config) (cancel : Nat → Bool) (results : Nat → SpliceResult)
    (s : SpliceState α) (n : Nat) : Prop :=
  ∃ fuel r, runLoop (upTo spliceAtTop (spliceBody cfg cancel results)) fuel s = some r ∧
    Drained s n r

variable [Octet α] {cfg : Config} {cancel : Nat → Bool} {results : Nat → SpliceResult}
  {s t : SpliceState α} {n : Nat}

/-- Between two calls of the loop that is entered in `s` with `n` bytes in the pipe. -/
structure Draining (results : Nat → SpliceResult) (s : SpliceState α) (n k : Nat)
    (t : SpliceState α) : Prop where
  calls : t.calls = s.calls + k
  phase : t.phase = .draining n (n - min n (given (spliceCounts results s.calls) k))
  pipe : t.pipe.length = n - min n (given (spliceCounts results s.calls) k)
  pos : t.pos = s.pos + min n (given (spliceCounts results s.calls) k)

theorem Draining.round (cfg : Config) (cancel : Nat → Bool) {k : Nat}
    (h : Draining results s n k t) :
    Round (Draining results s n) (Drained s n)
      (Settled (spliceCounts results s.calls) (spliceFails results s.calls) n) k
      (upTo spliceAtTop (spliceBody cfg cancel results) t) := by
  have hcall : results t.calls = results (s.calls + k) := by rw [h.calls]
  have hpipe := h.pipe
  have hpos := h.pos
  rw [upTo, spliceBody, h.phase]
  dsimp only
  by_cases hdone : n - min n (given (spliceCounts results s.calls) k) = 0
  · rw [if_pos hdone]
    refine ⟨.of_done (by omega), List.eq_nil_of_length_eq_zero (hpipe.trans hdone), ?_⟩
    exact hpos.trans (by omega)
  · rw [if_neg hdone, Nat.add_sub_cancel, hcall]
    have hlt : min n (given (spliceCounts results s.calls) k) < n := by omega
    cases hres : results (s.calls + k) with
    | failed e =>
      dsimp only
      by_cases he : e.code = Rust.Errno.eintr.code
      · rw [if_pos he]
        have hcount : spliceCounts results s.calls k = 0 := by
          simp [spliceCounts, spliceCount, hres]
        refine ⟨⟨by rw [h.calls, Nat.add_assoc], ?_, ?_, ?_⟩, not_settled hlt ?_⟩
        · rw [min_given_succ_of_zero hcount]
        · rw [min_given_succ_of_zero hcount]
          exact hpipe
        · rw [min_given_succ_of_zero hcount]
          exact hpos
        · simp [spliceFails, SpliceFails, hres, he]
      · rw [if_neg he]
        exact ⟨.inr (by simpa [spliceFails, SpliceFails, hres] using he), _, rfl⟩
    | moved m =>
      have hcount : spliceCounts results s.calls k = m := by
        simp [spliceCounts, spliceCount, hres]
      have hmoved :
          (t.pipe.take (min m (n - min n (given (spliceCounts results s.calls) k)))).length =
            min m (n - min n (given (spliceCounts results s.calls) k)) := by
        rw [List.length_take]
        omega
      refine ⟨⟨by rw [h.calls, Nat.add_assoc], ?_, ?_, ?_⟩, not_settled hlt ?_⟩
      · dsimp only
        rw [min_given_succ, hcount, hmoved, Nat.sub_sub]
      · dsimp only
        rw [min_given_succ, hcount, hmoved, List.length_drop, hpipe, Nat.sub_sub]
      · dsimp only
        rw [min_given_succ, hcount, hmoved, hpos, Nat.add_assoc]
      · simp [spliceFails, SpliceFails, hres]

theorem drain_ends_iff {input output : List α} {pos : Nat} {stats : Stats}
    (h : Iterates (spliceBody cfg cancel results) (.start cfg input output pos stats) s)
    (hphase : s.phase = .draining n n) :
    DrainEnds cfg cancel results s n ↔
      ∃ k, Settled (spliceCounts results s.calls) (spliceFails results s.calls) n k := by
  have hpipe := splice_pipe_length h
  rw [hphase] at hpipe
  have hstart : Draining results s n 0 s :=
    ⟨rfl, by simpa using hphase, by simpa using hpipe, by simp⟩
  exact runLoop_leaves_iff_round (fun _ _ ht => ht.round cfg cancel) hstart

end Splice

open Rust in
/-- Each of the four loops ends exactly when some call of it fails or its calls give the whole
block. -/
theorem write_loops_end_iff {η₂ η₃ : Type} {n : Nat} :
    (∀ (env : HashEnv η₂ η₃) (cfg : Config) (cancel : Nat → Bool) (results : Nat → RingResult)
      (input : RingInput Blks.Byte) (stats : Stats) (s : UringState Blks.Byte η₂ η₃)
      (bytes : List Blks.Byte),
      Iterates (uringBody env cfg cancel results input) (.start env cfg stats) s →
      s.phase = .writing bytes 0 →
      (UringWriteEnds env cfg cancel results input s bytes ↔
        ∃ k, Settled (ringCounts results s.calls) (ringFails results s.calls) bytes.length k)) ∧
    (∀ (cfg : Config) (metaLen : Option Nat) (input : List Blks.Byte)
      (states : Nat → ShardState n) (acts : Nat → ShardAct n) (w : Fin n) (base done : Nat)
      (leaves : List Blks.Digest) (bytes : List Blks.Byte),
      (∀ k, ShardStep cfg metaLen input (states k) (acts k) (states (k + 1))) →
      (∀ k, ∃ j, k ≤ j ∧ shardWorker (acts j) = some w) →
      (states 0).phase w = .writing base done leaves bytes 0 →
      ((∃ k, ShardWritten (states 0) w base done leaves bytes (states k)) ↔
        ∃ k, Settled (fun i => shardCount w (acts i)) (fun i => ShardFails w (acts i))
          bytes.length k)) ∧
    (∀ (cfg : Config) (cancel : Nat → Bool) (results : Nat → SpliceResult)
      (input output : List Blks.Byte) (pos : Nat) (stats : Stats) (s : SpliceState Blks.Byte)
      (len : Nat),
      Iterates (spliceBody cfg cancel results) (.start cfg input output pos stats) s →
      s.phase = .draining len len →
      (DrainEnds cfg cancel results s len ↔
        ∃ k, Settled (spliceCounts results s.calls) (spliceFails results s.calls) len k)) ∧
    ∀ (direct : Bool) (results : Nat → Except C.Errno Nat) (buf : List C.Byte),
      C.IwriteEnds direct results buf ↔
        ∃ k, Settled (C.iwriteCounts results) (C.IwriteFails direct results) buf.length k := by
  refine ⟨?_, ?_, ?_, ?_⟩
  · intro env cfg cancel results input stats s bytes h hphase
    exact uringWrite_ends_iff h hphase
  · intro cfg metaLen input states acts w base done leaves bytes hrun hfair hphase
    exact shardWrite_ends_iff hrun hfair hphase
  · intro cfg cancel results input output pos stats s len h hphase
    exact drain_ends_iff h hphase
  · intro direct results buf
    exact C.iwrite_ends_iff

section Example
open Rust

/-- A worker with one byte to write. -/
def oneToWrite : ShardState 1 :=
  { ShardState.start 1 {} with workers := fun _ => ⟨.writing 0 0 [] [7] 0, []⟩ }

/-- One byte is read; then, in the pool, every write is interrupted. -/
theorem write_loops_end_iff_oneByte :
    (∃ s : UringState Blks.Byte Unit Unit, s.phase = .writing [7] 0 ∧
      (UringWriteEnds noCrates {} (fun _ => false) (fun _ => .done 1) ⟨[7], false⟩ s [7] ↔
        ∃ k, Settled (ringCounts (fun _ => .done 1) s.calls)
          (ringFails (fun _ => .done 1) s.calls) 1 k)) ∧
    ((∃ k : Nat, ShardWritten oneToWrite 0 0 0 [] [7] ((fun _ => oneToWrite) k)) ↔
      ∃ k, Settled (fun _ => shardCount 0 (.writeInterrupted (0 : Fin 1)))
        (fun _ => ShardFails 0 (.writeInterrupted (0 : Fin 1))) 1 k) ∧
    ∃ s : SpliceState Blks.Byte, s.phase = .draining 1 1 ∧
      (DrainEnds {} (fun _ => false) (fun _ => .moved 1) s 1 ↔
        ∃ k, Settled (spliceCounts (fun _ => .moved 1) s.calls)
          (spliceFails (fun _ => .moved 1) s.calls) 1 k) := by
  obtain ⟨huring, hsharded, hsplice, -⟩ := @write_loops_end_iff Unit Unit 1
  refine ⟨⟨_, rfl, huring noCrates {} (fun _ => false) (fun _ => .done 1) ⟨[7], false⟩ {} _ [7]
    (.tail (.refl _) rfl) rfl⟩, ?_, ⟨_, rfl, hsplice {} (fun _ => false) (fun _ => .moved 1) [7] []
    0 {} _ 1 (.tail (.refl _) rfl) rfl⟩⟩
  exact hsharded {} none [] (fun _ => oneToWrite) (fun _ => .writeInterrupted 0) 0 0 0 [] [7]
    (fun _ => .writeInterrupted oneToWrite 0 0 0 [] [7] 0 rfl (by decide))
    (fun k => ⟨k, Nat.le_refl k, rfl⟩) rfl

end Example

end Blkcp
