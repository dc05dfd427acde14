import Blkcp.Rust.Amount
set_option autoImplicit false

/-! What a copy that is cancelled may return. -/

namespace Blkcp.Rust
open Blkcp.Lib Blkcp.Blks

section Async

variable {α ρ ω η₂ η₃ : Type} [Octet α] {I : Input α ρ} {O : Output α ω} {env : HashEnv η₂ η₃}
  {cfg : Config} {input : ρ} {file : ω} {stats : Stats} {s t : AsyncState α ρ ω η₂ η₃}

/-- Neither the reader nor the writer leaves its loop for the flag. -/
def AsyncLoyal (a : AsyncAct) : Prop := a ≠ .readerSeesCancel ∧ a ≠ .mainCancels

namespace AsyncState

/-- The state as it would be if the flag had not been set. -/
def uncancelled (s : AsyncState α ρ ω η₂ η₃) : AsyncState α ρ ω η₂ η₃ :=
  { s with cancelled := false }

omit [Octet α] in
theorem recycle_uncancelled {buf : List α} (h : s.recycle cfg buf = some t) :
    s.uncancelled.recycle cfg buf = some t.uncancelled := by
  rw [AsyncState.recycle] at h ⊢
  rw [show s.uncancelled.readerDone = s.readerDone from rfl]
  split at h
  · rename_i hdone
    rw [if_pos hdone, ← Option.some.inj h]
  · rename_i hdone
    rw [if_neg hdone]
    split at h
    · rename_i hroom
      rw [← Option.some.inj h]
      exact if_pos hroom
    · cases h

omit [Octet α] in
theorem afterRead_uncancelled (cfg : Config) (s : AsyncState α ρ ω η₂ η₃) (buf : List α)
    (r : ReadResult α × ρ) :
    (afterRead cfg s buf r).uncancelled = afterRead cfg s.uncancelled buf r := by
  obtain ⟨res, input⟩ := r
  cases res with
  | data bytes => cases bytes <;> rfl
  | interrupted => rfl
  | failed e =>
    simp only [afterRead]
    split <;> rfl

end AsyncState

theorem asyncStep_uncancelled {a : AsyncAct} (hloyal : AsyncLoyal a)
    (hst : AsyncStep I O env cfg s a t) :
    t.uncancelled = s.uncancelled ∨ AsyncStep I O env cfg s.uncancelled a t.uncancelled := by
  cases hst
  case setCancel => exact .inl rfl
  case readerSeesCancel => exact absurd rfl hloyal.1
  case mainCancels => exact absurd rfl hloyal.2
  case readerReads k buf hr =>
    rw [AsyncState.afterRead_uncancelled]
    exact .inr (.readerReads _ k buf hr)
  case mainRecycles t m hm ha hr =>
    exact .inr (.mainRecycles _ t.uncancelled m hm ha (AsyncState.recycle_uncancelled hr))
  case hasherRecycles t buf hh hr =>
    exact .inr (.hasherRecycles _ t.uncancelled buf hh (AsyncState.recycle_uncancelled hr))
  case readerStops hr hlimit => exact .inr (.readerStops _ hr hlimit)
  case readerPasses hr hb hk => exact .inr (.readerPasses _ hr hb hk)
  case readerTakes k buf q hr hq => exact .inr (.readerTakes _ k buf q hr hq)
  case readerRecycles buf hr hroom => exact .inr (.readerRecycles _ buf hr hroom)
  case readerSends m hr hret hroom => exact .inr (.readerSends _ m hr hret hroom)
  case readerSendFails m hr hret => exact .inr (.readerSendFails _ m hr hret)
  case mainReceives m q hm hq => exact .inr (.mainReceives _ m q hm hq)
  case mainDisconnects hm hq hd => exact .inr (.mainDisconnects _ hm hq hd)
  case mainDelivers m m' out stats hm hdel hn =>
    exact .inr (.mainDelivers _ m m' out stats hm hdel hn)
  case mainFails m e out stats buf hm hdel =>
    exact .inr (.mainFails _ m e out stats buf hm hdel)
  case mainHashes m hm ha hroom => exact .inr (.mainHashes _ m hm ha hroom)
  case mainJoinsHasher hm hh => exact .inr (.mainJoinsHasher _ hm hh)
  case mainJoinsReader r hm hr => exact .inr (.mainJoinsReader _ r hm hr)
  case hasherReceives m q hh hq => exact .inr (.hasherReceives _ m q hh hq)
  case hasherEnds hh hq hl => exact .inr (.hasherEnds _ hh hq hl)
  case hasherUpdates m hh => exact .inr (.hasherUpdates _ m hh)

/-- A run that does not look at the flag is one in which it is not set. -/
theorem asyncSystem_uncancelled
    (h : ((asyncSystem I O env cfg input file stats).restrict fun _ a => AsyncLoyal a).Reachable s) :
    (asyncSystem I O env cfg input file stats).Reachable s.uncancelled := by
  refine h.map AsyncState.uncancelled (fun _ => True) ?_ ?_ trivial
  · rintro s rfl
    rfl
  · rintro s a t - ⟨hst, hloyal⟩
    refine ⟨trivial, ?_⟩
    rcases asyncStep_uncancelled hloyal hst with hsame | hst'
    · exact .inl hsame
    · exact .inr ⟨a, hst'⟩

end Async

section Sharded

variable {n : Nat} {cfg : Config} {metaLen : Option Nat} {input : List Byte} {stats : Stats}
  {s t : ShardState n} {a : ShardAct n}

/-- No worker leaves its loop for the flag alone, nor at an end before the end. -/
def ShardLoyal (cfg : Config) (input : List Byte) (s : ShardState n) (a : ShardAct n) : Prop :=
  EofHonest cfg input s a ∧ ∀ w, a = .stops w → s.abortFlag = true

/-- The state as it would be if the flag had not been set. -/
def ShardState.uncancelled (s : ShardState n) : ShardState n := { s with cancelled := false }

theorem shardStep_uncancelled (hloyal : ∀ w, a = .stops w → s.abortFlag = true)
    (hst : ShardStep cfg metaLen input s a t) (ht : ¬t.Failed) :
    t.uncancelled = s.uncancelled ∨ ShardStep cfg metaLen input s.uncancelled a t.uncancelled := by
  cases hst
  case setCancel => exact .inl rfl
  case cancels w base done leaves hp hlen hc =>
    exact absurd ⟨w, _, s.phase_goto_self w _⟩ ht
  case stops w hp hflag => exact .inr (.stops _ w hp (.inl (hloyal w rfl)))
  case starts w hp => exact .inr (.starts _ w hp)
  case startFails w e hp => exact .inr (.startFails _ w e hp)
  case passes w hp => exact .inr (.passes _ w hp)
  case exhausts w total hp htotal hle => exact .inr (.exhausts _ w total hp htotal hle)
  case claims w hp hlt => exact .inr (.claims _ w hp hlt)
  case finishes w base done leaves hp hle => exact .inr (.finishes _ w base done leaves hp hle)
  case submits w base done leaves hp hlt => exact .inr (.submits _ w base done leaves hp hlt)
  case reads w m base done leaves bytes hp hm hle hb hlen =>
    exact .inr (.reads _ w m base done leaves bytes hp hm hle hb hlen)
  case readsEof w base done leaves hp hend => exact .inr (.readsEof _ w base done leaves hp hend)
  case readInterrupted w base done leaves hp =>
    exact .inr (.readInterrupted _ w base done leaves hp)
  case readFails w base done leaves err hp => exact .inr (.readFails _ w base done leaves err hp)
  case writes w m base done leaves bytes written hp hlt hm =>
    exact .inr (.writes _ w m base done leaves bytes written hp hlt hm)
  case writeInterrupted w base done leaves bytes written hp hlt =>
    exact .inr (.writeInterrupted _ w base done leaves bytes written hp hlt)
  case writeFails w base done leaves bytes written err hp hlt =>
    exact .inr (.writeFails _ w base done leaves bytes written err hp hlt)
  case counts w base done leaves bytes written hp hle =>
    exact .inr (.counts _ w base done leaves bytes written hp hle)
  case breaks w e hr => exact .inr (.breaks _ w e hr)

/-- A run without a worker that fails or leaves for the flag is one in which it is not set. -/
theorem shardedSystem_uncancelled
    (h : ((shardedSystem cfg metaLen input n stats).restrict (ShardLoyal cfg input)).Reachable s)
    (hf : ¬s.Failed) :
    ((shardedSystem cfg metaLen input n stats).restrict (EofHonest cfg input)).Reachable
      s.uncancelled := by
  refine h.map ShardState.uncancelled (fun s => ¬s.Failed) ?_ ?_ hf
  · rintro s rfl
    rfl
  · rintro s a t ht ⟨hst, heof, hloyal⟩
    refine ⟨fun hs => ht (failed_of_step hst hs), ?_⟩
    rcases shardStep_uncancelled hloyal hst ht with hsame | hst'
    · exact .inl hsame
    · exact .inr ⟨a, hst', by cases a <;> exact heof⟩

end Sharded

/-- A copy by one of the engines that has returned `Ok`, whenever the flag was set: what there was to
copy and the counters. In no step did the reader or the writer of the pipeline or a worker between
its stripes leave its loop for the flag, and no request to a ring was cut to nothing. -/
inductive LoyalOk (cfg : Config) (stats : Stats) : CopyEngine → Nat → Stats → Prop where
  | sync {ρ ω η₂ η₃ : Type} {I : Input Byte ρ} {O : Output Byte ω} {env : HashEnv η₂ η₃}
      {rest : ρ → List Byte} {cancel : Nat → Bool} {fuel : Nat} {source : ρ} {file : ω}
      {y : LoopState Byte ρ ω η₂ η₃} : ReadsFrom I rest →
      transferLoop I O env cfg cancel fuel (.start env cfg source file stats) = some (.ok (), y) →
      LoyalOk cfg stats .sync (rest source).length y.stats
  | async {ρ ω η₂ η₃ : Type} {I : Input Byte ρ} {O : Output Byte ω} {env : HashEnv η₂ η₃}
      {rest : ρ → List Byte} {source : ρ} {file : ω} {s : AsyncState Byte ρ ω η₂ η₃} :
      ReadsFrom I rest →
      ((asyncSystem I O env cfg source file stats).restrict fun _ a => AsyncLoyal a).Reachable s →
      s.main = .returned (.ok ()) → LoyalOk cfg stats .async (rest source).length s.stats
  | ring {η₂ η₃ : Type} {env : HashEnv η₂ η₃} {ring : Option String} {cancel : Nat → Bool}
      {results : Nat → RingResult} {fuel : Nat} {input : RingInput Byte}
      {t : UringState Byte η₂ η₃} :
      (∀ s, Iterates (uringBody env cfg cancel results input) (.start env cfg stats) s →
        RequestFits cfg s) →
      executeUringSingle env ring cancel results fuel cfg input stats = some (.ok (), t) →
      LoyalOk cfg stats .ring
        (input.content.length - if input.stream then 0 else cfg.skipBytes) t.stats
  | shards {metaLen : Option Nat} {input : List Byte} {s : ShardState (numWorkers cfg)}
      {ws : List StripeLeaves} : MetaHonest input metaLen →
      ((shardedSystem cfg metaLen input (numWorkers cfg) stats).restrict
        (ShardLoyal cfg input)).Reachable s →
      joinWorkers s = some (.ok ws) →
      LoyalOk cfg stats .shards (input.length - cfg.skipBytes) s.stats
  | reflink {kinds : Option (FileKind × FileKind)} {cancel : Nat → Bool}
      {results : Nat → SpliceResult} {fuel pos : Nat} {input output : List Byte}
      {t : ReflinkState Byte} :
      reflinkRun kinds cancel results fuel cfg input output pos stats = some (.ok true, t) →
      LoyalOk cfg stats .reflink input.length t.stats
  | splice {pipeOk : Bool} {cancel : Nat → Bool} {results : Nat → SpliceResult} {fuel pos : Nat}
      {input output : List Byte} {t : SpliceState Byte} :
      spliceRun pipeOk cancel results fuel cfg input output pos stats = some (.ok true, t) →
      LoyalOk cfg stats .splice input.length t.stats

/-- All of the requested range up to the end of the input is copied: block by block until a limit
or the end, or as many bytes as there are to copy. -/
def RangeCopied (cfg : Config) (stats : Stats) (e : CopyEngine) (available : Nat)
    (stats' : Stats) : Prop :=
  match e with
  | .sync | .async => ∃ k b, Taken cfg available stats stats' k b
  | .shards => stats'.bytesCopied = stats.bytesCopied + cap (explicitLimit cfg) available
  | .ring | .reflink | .splice => Counts cfg available stats stats'

section Example

/-- The flag is set before the first read. -/
theorem oneBuffer_cancelled : ∃ s, (asyncSystem (streamInput fun _ => some 2) contentOutput noCrates
    oneBuffer (⟨[(7 : Byte)], 0⟩ : Stream Byte) ([], 0) {}).Reachable s ∧
      s.main = .returned (.ok ()) ∧ s.stats.bytesCopied = 0 ∧ s.stats.recordsIn = 0 := by
  have h0 : (asyncSystem (streamInput fun _ => some 2) contentOutput noCrates oneBuffer
      ⟨[(7 : Byte)], 0⟩ ([], 0) {}).Reachable
    (AsyncState.start noCrates oneBuffer ⟨[7], 0⟩ ([], 0) {}) := .init rfl
  have h1 := h0.step (.setCancel _)
  have h2 := h1.step (.readerSeesCancel _ rfl rfl)
  have h3 := h2.step (.mainDisconnects _ rfl rfl rfl)
  have h4 := h3.step (.hasherEnds _ rfl rfl rfl)
  have h5 := h4.step (.mainJoinsHasher _ rfl rfl)
  have h6 := h5.step (.mainJoinsReader _ _ rfl rfl)
  exact ⟨_, h6, rfl, rfl, rfl⟩

theorem twoWorkers_cancelled : ∃ s : ShardState 2,
    (shardedSystem twoWorkers (some 1) [7] 2 {}).Reachable s ∧
      joinWorkers s = some (.ok []) ∧ s.stats.bytesCopied = 0 := by
  have h0 : (shardedSystem twoWorkers (some 1) [7] 2 {}).Reachable (.start 2 {}) := .init rfl
  have h1 := h0.step (.setCancel _)
  have h2 := h1.step (.starts _ 0 rfl)
  have h3 := h2.step (.stops _ 0 rfl (.inr rfl))
  have h4 := h3.step (.starts _ 1 rfl)
  have h5 := h4.step (.stops _ 1 rfl (.inr rfl))
  exact ⟨_, h5, by decide, rfl⟩

end Example

end Blkcp.Rust
