import Blkcp.Rust.Async
import Blkcp.Rust.SpliceFallback
set_option autoImplicit false

/-! When the asynchronous pipeline gets stuck after a cancellation. -/

namespace Blkcp.Rust
open Blkcp.Lib

variable {α ρ ω η₂ η₃ : Type}

namespace AsyncState

/-- The writer has left its loop and joins the other threads. -/
def joining (s : AsyncState α ρ ω η₂ η₃) : Bool :=
  match s.main with
  | .joinHasher | .joinReader => true
  | _ => false

def waiting (s : AsyncState α ρ ω η₂ η₃) : Bool :=
  match s.reader with
  | .waitBuf _ => true
  | _ => false

def hasherIdle (s : AsyncState α ρ ω η₂ η₃) : Bool :=
  match s.hashing with
  | .recv | .done => true
  | _ => false

/-- No buffer is in the recycle channel or on its way there once the writer has left. -/
def starved (s : AsyncState α ρ ω η₂ η₃) : Bool :=
  s.recycleQ.isEmpty && s.hashQ.isEmpty && s.hasherIdle

/-- The caller joins a reader that waits for a buffer nobody will send. -/
def Stuck (s : AsyncState α ρ ω η₂ η₃) : Prop :=
  s.main = .joinReader ∧ s.waiting = true ∧ s.recycleQ = [] ∧ s.hashing = .done

/-- A step that does not leave the reader without a buffer: not the writer leaving its loop on the
cancel flag while the reader waits and no buffer is on its way, nor the reader going on to wait
after that because it still loads the flag as unset. -/
def keepsBuffer (s : AsyncState α ρ ω η₂ η₃) (a : AsyncAct) : Prop :=
  match a with
  | .mainCancels => s.waiting = true → s.starved = false
  | .readerPasses => s.joining = true → s.starved = false
  | _ => True

end AsyncState

variable {cfg : Config} {s t : AsyncState α ρ ω η₂ η₃}

theorem recycle_eq {buf : List α} (h : s.recycle cfg buf = some t) :
    (s.readerDone = true ∧ t = s) ∨
      (s.readerDone = false ∧ t = { s with recycleQ := s.recycleQ ++ [buf] }) := by
  simp only [AsyncState.recycle] at h
  split at h
  · rename_i hd
    exact .inl ⟨hd, (Option.some.inj h).symm⟩
  · rename_i hd
    split at h
    · exact .inr ⟨by simpa using hd, (Option.some.inj h).symm⟩
    · simp at h

/-- The hasher ends only when its channel is empty and closed. -/
def HasherEnded (s : AsyncState α ρ ω η₂ η₃) : Prop :=
  s.hashing = .done → s.hashQ = [] ∧ s.mainLeft = true

theorem afterRead_eq (cfg : Config) (s : AsyncState α ρ ω η₂ η₃) (buf : List α) (r : ReadResult α × ρ) :
    (afterRead cfg s buf r).main = s.main ∧ (afterRead cfg s buf r).hashing = s.hashing ∧
      (afterRead cfg s buf r).hashQ = s.hashQ ∧ (afterRead cfg s buf r).recycleQ = s.recycleQ ∧
      (afterRead cfg s buf r).waiting = false := by
  simp only [afterRead]
  repeat' split
  all_goals exact ⟨rfl, rfl, rfl, rfl, rfl⟩

theorem not_waiting_of_done (h : s.readerDone = true) : s.waiting = false := by
  simp only [AsyncState.readerDone] at h
  simp only [AsyncState.waiting]
  split at h <;> simp_all

/-- While the caller joins and the reader waits, a buffer is left for the reader. -/
def BufferLeft (s : AsyncState α ρ ω η₂ η₃) : Prop :=
  s.joining = true → s.waiting = true → s.starved = false

section Steps

variable [Octet α] {I : Input α ρ} {O : Output α ω} {env : HashEnv η₂ η₃} {a : AsyncAct}

theorem step_hasherEnded (hi : HasherEnded s) (h : AsyncStep I O env cfg s a t) :
    HasherEnded t := by
  cases h
  case readerReads k buf hr =>
    obtain ⟨hm, hh, hq, -, -⟩ := afterRead_eq cfg s buf (I.read s.input k)
    simpa only [HasherEnded, AsyncState.mainLeft, hm, hh, hq] using hi
  case hasherEnds hh hq hl => exact fun _ => ⟨hq, hl⟩
  case mainRecycles t m hm ha hr =>
    rcases recycle_eq hr with ⟨-, rfl⟩ | ⟨-, rfl⟩ <;>
      · intro hd
        have := hi hd
        simp [AsyncState.mainLeft, hm] at this
  all_goals
    intro hd
    simp_all [HasherEnded, AsyncState.mainLeft]

/-- The hasher's last buffer goes to the recycle channel, and only the reader takes from there. -/
theorem step_bufferLeft (hd : HasherEnded s) (hi : BufferLeft s) (hgood : s.keepsBuffer a)
    (h : AsyncStep I O env cfg s a t) : BufferLeft t := by
  cases h
  case readerReads k buf hr =>
    obtain ⟨-, -, -, -, hw⟩ := afterRead_eq cfg s buf (I.read s.input k)
    intro _ hw'
    rw [hw] at hw'
    cases hw'
  case mainRecycles t m hm ha hr =>
    intro hj
    simp [AsyncState.joining] at hj
  case hasherRecycles t buf hh hr =>
    rcases recycle_eq hr with ⟨hdone, rfl⟩ | ⟨-, rfl⟩
    · intro _ hw
      have := not_waiting_of_done hdone
      simp_all [AsyncState.waiting]
    · intro _ _
      simp [AsyncState.starved]
  case mainCancels m hm hc =>
    intro _ hw
    exact hgood hw
  case readerPasses hr h1 h2 =>
    intro hj _
    exact hgood hj
  case mainDisconnects hm hq hdone =>
    intro _ hw
    have := not_waiting_of_done hdone
    simp_all [AsyncState.waiting]
  case mainJoinsHasher hm hh =>
    intro _ hw
    exact hi (by simp [AsyncState.joining, hm]) hw
  case hasherReceives m q hh hq =>
    intro hj hw
    simp [AsyncState.starved, AsyncState.hasherIdle]
  case hasherEnds hh hq hl =>
    intro hj hw
    have := hi hj hw
    simpa [AsyncState.starved, AsyncState.hasherIdle, hh] using this
  all_goals
    intro hj hw
    simp_all [BufferLeft, AsyncState.joining, AsyncState.waiting, AsyncState.starved,
      AsyncState.hasherIdle]

end Steps

section Runs

variable [Octet α] (I : Input α ρ) (O : Output α ω) (env : HashEnv η₂ η₃) (cfg)
variable (input : ρ) (file : ω) (stats : Stats)

/-- In a run of steps that leave the reader a buffer, the caller never joins a reader that waits for
one in vain. -/
theorem async_not_stuck
    (h : ((asyncSystem I O env cfg input file stats).restrict AsyncState.keepsBuffer).Reachable s) :
    ¬ s.Stuck := by
  have hleft : HasherEnded s ∧ BufferLeft s := by
    refine h.invariant (I := fun s => HasherEnded s ∧ BufferLeft s) ?_ (fun s a t hi hst => ?_)
    · rintro s rfl
      refine ⟨fun hd => ?_, fun hj => ?_⟩
      · simp [AsyncState.start] at hd
      · simp [AsyncState.start, AsyncState.joining] at hj
    · exact ⟨step_hasherEnded hi.1 hst.1, step_bufferLeft hi.1 hi.2 hst.2 hst.1⟩
  rintro ⟨hmain, hwait, hq, hdone⟩
  have hbuf := hleft.2 (by simp [AsyncState.joining, hmain]) hwait
  simp [AsyncState.starved, AsyncState.hasherIdle, hq, hdone, (hleft.1 hdone).1] at hbuf

end Runs

section Example
open Blks

def oneBuffer : Config :=
  { output := some "out", engine := .async, blockSize := 2, queueDepth := some 1 }

/-- Two bytes or more, a queue of one buffer, no hash. -/
def oneBufferSystem : System (AsyncState Byte (Stream Byte) (List Byte × Nat) Unit Unit) AsyncAct :=
  asyncSystem (streamInput fun _ => some 2) contentOutput noCrates oneBuffer ⟨[1, 2, 3], 0⟩
    ([], 0) {}

/-- The writer drops the only buffer on the cancel flag while the reader waits for it. -/
theorem oneBuffer_stuck : ¬ ∀ s, oneBufferSystem.Reachable s → ¬ s.Stuck := by
  intro h
  have start : oneBufferSystem.Reachable (AsyncState.start noCrates oneBuffer ⟨[1, 2, 3], 0⟩
    ([], 0) {}) := .init rfl
  have passes := start.step (.readerPasses _ rfl (by decide) (by decide))
  have takes := passes.step (.readerTakes _ _ _ [] rfl rfl)
  have reads := takes.step (.readerReads _ _ _ rfl)
  have sends := reads.step (.readerSends _ _ rfl rfl (by decide))
  have waits := sends.step (.readerPasses _ rfl (by decide) (by decide))
  have receives := waits.step (.mainReceives _ _ [] rfl rfl)
  have cancelled := receives.step (.setCancel _)
  have leaves := cancelled.step (.mainCancels _ _ rfl rfl)
  have ends := leaves.step (.hasherEnds _ rfl rfl rfl)
  have joins := ends.step (.mainJoinsHasher _ rfl rfl)
  exact h _ joins ⟨rfl, rfl, rfl, rfl⟩

/-- The same up to the cancellation, which the writer sees before the reader waits again. -/
theorem async_not_stuck_oneBuffer : ∃ s, (oneBufferSystem.restrict
    AsyncState.keepsBuffer).Reachable s ∧ s.joining = true ∧ ¬ s.Stuck := by
  have start : (oneBufferSystem.restrict AsyncState.keepsBuffer).Reachable
    (AsyncState.start noCrates oneBuffer ⟨[1, 2, 3], 0⟩ ([], 0) {}) := .init rfl
  have passes := start.step ⟨.readerPasses _ rfl (by decide) (by decide), by intro h; cases h⟩
  have takes := passes.step ⟨.readerTakes _ _ _ [] rfl rfl, trivial⟩
  have reads := takes.step ⟨.readerReads _ _ _ rfl, trivial⟩
  have sends := reads.step ⟨.readerSends _ _ rfl rfl (by decide), trivial⟩
  have receives := sends.step ⟨.mainReceives _ _ [] rfl rfl, trivial⟩
  have cancelled := receives.step ⟨.setCancel _, trivial⟩
  have leaves := cancelled.step ⟨.mainCancels _ _ rfl rfl, by intro h; cases h⟩
  exact ⟨_, leaves, rfl, async_not_stuck _ _ _ _ _ _ _ leaves⟩

end Example

end Blkcp.Rust
