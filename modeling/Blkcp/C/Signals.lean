import Blkcp.Lib.Transition
import Blkcp.C.Config
set_option autoImplicit false

/-! Signals (`signals.c`) and the end of a run (`dd_synchronize_output`, `dd_engine_cleanup` and
`dd_execute` of `io_engine.c`): the steps of the main thread, between which a handler may run. -/

namespace Blkcp.C
open Blkcp.Lib

/-- From where the signals are looked at: the head of the central loop, or a try of a sync call
(`RETRY_ON_EINTR`), with the status of `dd_copy` and that of `dd_synchronize_output` so far. -/
inductive Site where
  | loop
  | fdatasync (status : ExitStatus)
  | fsync (status syncStatus : ExitStatus)
  deriving DecidableEq

/-- What a sync call comes to: 0, `EINTR`, `ENOSYS` or `EINVAL`, or another error. -/
inductive SyncResult where
  | ok | interrupted | unsupported | failed
  deriving DecidableEq

/-- Where the main thread is. In `dd_process_signals` it keeps what it has loaded, and then whether a
request was taken off the count. -/
inductive Pc where
  | check (site : Site)
  | block (site : Site)
  | load (site : Site)
  | store (site : Site) (interrupt : Bool) (infos : Nat)
  | unblock (site : Site) (interrupt asked : Bool)
  | abandon (site : Site) (asked : Bool)
  | print (site : Site) (interrupt asked : Bool)
  | raise (site : Site) (asked : Bool)
  | step
  | cleanup (status : ExitStatus)
  | fdatasync (status : ExitStatus)
  | fsync (status syncStatus : ExitStatus)
  | settled (status syncStatus : ExitStatus)
  | closing (status : ExitStatus)
  | stats (status : ExitStatus)
  | returned (status : ExitStatus)
  | exited
  | killed
  deriving DecidableEq

/-- What `dd_check_signals` stands in front of. -/
def Site.next : Site → Pc
  | .loop => .step
  | .fdatasync status => .fdatasync status
  | .fsync status syncStatus => .fsync status syncStatus

/-- The process has not come to an end. -/
def Pc.Runs : Pc → Prop
  | .returned _ | .exited | .killed => False
  | _ => True

/-- The process. `blocked` is the signal mask of the main thread, `sigDfl` whether SIGINT has its
default action again. The last five are what has happened: how often a request was caught and
statistics were printed for the signals, whether a sync call has succeeded since the last write, and
whether the streams have been closed. -/
structure Proc where
  pc : Pc := .check .loop
  interruptSignal : Bool := false
  infoCount : Nat := 0
  blocked : Bool := false
  sigDfl : Bool := false
  caught : Nat := 0
  printed : Nat := 0
  datasynced : Bool := false
  synced : Bool := false
  closed : Bool := false

/-- A signal, caught by the main thread or by another one, or a step of the main thread. -/
inductive SignalAct where
  | info | infoElsewhere
  | interrupt | interruptElsewhere
  | go
  | syncs (r : SyncResult)
  deriving DecidableEq

namespace Proc

variable (p : Proc)

/-- `siginfo_handler`. -/
def siginfoHandler : Proc := { p with infoCount := p.infoCount + 1, caught := p.caught + 1 }

/-- `interrupt_handler`, which is called once (`SA_RESETHAND`). -/
def interruptHandler : Proc :=
  if p.sigDfl then { p with pc := .killed } else { p with interruptSignal := true, sigDfl := true }

/-- The first step of `dd_synchronize_output`, if there is something to do. -/
def synchronize (cfg : Config) (status : ExitStatus) : Pc :=
  if cfg.conversions.fdatasync then .check (.fdatasync status)
  else if cfg.conversions.fsync then .check (.fsync status .success)
  else .settled status .success

/-- What follows a call of `fdatasync`. One that fails brings `fsync` in. -/
def afterFdatasync (cfg : Config) (status : ExitStatus) : SyncResult → Proc
  | .ok =>
    { p with
      datasynced := true
      pc := if cfg.conversions.fsync then .check (.fsync status .success)
        else .settled status .success }
  | .interrupted => { p with pc := .check (.fdatasync status) }
  | .unsupported => { p with pc := .check (.fsync status .success) }
  | .failed => { p with pc := .check (.fsync status .failure) }

def afterFsync (status syncStatus : ExitStatus) : SyncResult → Proc
  | .ok => { p with synced := true, pc := .settled status syncStatus }
  | .interrupted => { p with pc := .check (.fsync status syncStatus) }
  | .unsupported | .failed => { p with pc := .settled status .failure }

end Proc

/-- One step. The mask is the main thread's, so another thread catches a signal at any time. -/
inductive SignalStep (cfg : Config) : Proc → SignalAct → Proc → Prop where
  | info (p : Proc) : p.pc.Runs → p.blocked = false → SignalStep cfg p .info p.siginfoHandler
  | infoElsewhere (p : Proc) : p.pc.Runs → SignalStep cfg p .infoElsewhere p.siginfoHandler
  | interrupt (p : Proc) : p.pc.Runs → p.blocked = false →
      SignalStep cfg p .interrupt p.interruptHandler
  | interruptElsewhere (p : Proc) : p.pc.Runs →
      SignalStep cfg p .interruptElsewhere p.interruptHandler
  | passes (p : Proc) (site : Site) : p.pc = .check site → p.interruptSignal = false →
      p.infoCount = 0 → SignalStep cfg p .go { p with pc := site.next }
  | stops (p : Proc) (site : Site) : p.pc = .check site →
      p.interruptSignal = true ∨ p.infoCount ≠ 0 →
      SignalStep cfg p .go { p with pc := .block site }
  | blocks (p : Proc) (site : Site) : p.pc = .block site →
      SignalStep cfg p .go { p with pc := .load site, blocked := true }
  | loads (p : Proc) (site : Site) : p.pc = .load site →
      SignalStep cfg p .go { p with pc := .store site p.interruptSignal p.infoCount }
  | stores (p : Proc) (site : Site) (interrupt : Bool) (infos : Nat) :
      p.pc = .store site interrupt infos →
      SignalStep cfg p .go
        { p with
          pc := .unblock site interrupt (infos != 0)
          infoCount := if infos ≠ 0 then infos - 1 else p.infoCount }
  | unblocks (p : Proc) (site : Site) (interrupt asked : Bool) :
      p.pc = .unblock site interrupt asked →
      SignalStep cfg p .go
        { p with
          pc := if interrupt then .abandon site asked else .print site false asked
          blocked := false }
  -- the flag is set and stays so, and `dd_engine_cleanup` does not sync
  | abandons (p : Proc) (site : Site) (asked : Bool) : p.pc = .abandon site asked →
      SignalStep cfg p .go { p with pc := .print site true asked, closed := true }
  | abandonsFailing (p : Proc) (site : Site) (asked : Bool) : p.pc = .abandon site asked →
      SignalStep cfg p .go { p with pc := .exited }
  | prints (p : Proc) (site : Site) (interrupt asked : Bool) : p.pc = .print site interrupt asked →
      SignalStep cfg p .go
        { p with
          pc := if interrupt then .raise site asked else .check site
          printed := p.printed + 1 }
  | raises (p : Proc) (site : Site) (asked : Bool) : p.pc = .raise site asked →
      SignalStep cfg p .go (Proc.interruptHandler { p with pc := .check site })
  | writes (p : Proc) : p.pc = .step →
      SignalStep cfg p .go { p with pc := .check .loop, datasynced := false, synced := false }
  | ends (p : Proc) (status : ExitStatus) : p.pc = .step →
      SignalStep cfg p .go { p with pc := .cleanup status, datasynced := false, synced := false }
  | cleansUp (p : Proc) (status : ExitStatus) : p.pc = .cleanup status →
      SignalStep cfg p .go
        { p with
          pc := if p.interruptSignal then .closing status else Proc.synchronize cfg status }
  | fdatasyncs (p : Proc) (status : ExitStatus) (r : SyncResult) : p.pc = .fdatasync status →
      SignalStep cfg p (.syncs r) (p.afterFdatasync cfg status r)
  | fsyncs (p : Proc) (status syncStatus : ExitStatus) (r : SyncResult) :
      p.pc = .fsync status syncStatus →
      SignalStep cfg p (.syncs r) (p.afterFsync status syncStatus r)
  | settles (p : Proc) (status syncStatus : ExitStatus) : p.pc = .settled status syncStatus →
      SignalStep cfg p .go
        { p with pc := if syncStatus = .success then .closing status else .exited }
  | closes (p : Proc) (status : ExitStatus) : p.pc = .closing status →
      SignalStep cfg p .go { p with pc := .stats status, closed := true }
  | closesFailing (p : Proc) (status : ExitStatus) : p.pc = .closing status →
      SignalStep cfg p .go { p with pc := .exited }
  | finishes (p : Proc) (status : ExitStatus) : p.pc = .stats status →
      SignalStep cfg p .go { p with pc := .returned status }

/-- A run of `dd_execute` from its central loop on. -/
def signals (cfg : Config) : System Proc SignalAct where
  init p := p = {}
  step := SignalStep cfg

section Invariants

variable {cfg : Config} {p q : Proc} {a : SignalAct}

/-- Where the main thread holds the signals back. -/
def Pc.critical : Pc → Bool
  | .load _ | .store _ _ _ | .unblock _ _ _ => true
  | _ => false

/-- An interrupt has been seen, or has ended the process. -/
def Pc.interrupted : Pc → Bool
  | .store _ interrupt _ | .unblock _ interrupt _ | .print _ interrupt _ => interrupt
  | .abandon _ _ | .raise _ _ | .killed => true
  | _ => false

/-- The mask and the disposition are those that the place in the code and the flag go with. -/
structure Proc.Sane (p : Proc) : Prop where
  blocked : p.pc.Runs → p.blocked = p.pc.critical
  sigDfl : p.sigDfl = p.interruptSignal
  interrupted : p.pc.interrupted = true → p.interruptSignal = true

/-- Outside of the part of `dd_process_signals` that an interrupt goes through, and of that which
holds signals back. -/
def Pc.Calm (pc : Pc) : Prop := pc.critical = false ∧ pc.interrupted = false

theorem Site.calm_next (site : Site) : site.next.Calm := by cases site <;> exact ⟨rfl, rfl⟩

theorem calm_synchronize (status : ExitStatus) : (Proc.synchronize cfg status).Calm := by
  unfold Proc.synchronize
  split_ifs <;> exact ⟨rfl, rfl⟩

theorem Proc.Sane.interruptHandler (h : p.Sane) : p.interruptHandler.Sane := by
  obtain ⟨hblocked, hdfl, hinterrupted⟩ := h
  unfold Proc.interruptHandler
  split
  · rename_i hsig
    exact ⟨False.elim, hdfl, fun _ => hdfl.symm.trans hsig⟩
  · exact ⟨hblocked, rfl, fun _ => rfl⟩

theorem Proc.Sane.calm (h : p.Sane) (hruns : p.pc.Runs) (hp : p.pc.critical = false)
    (hq : q.pc.Calm) (hblocked : q.blocked = p.blocked)
    (hflags : q.sigDfl = p.sigDfl ∧ q.interruptSignal = p.interruptSignal) : q.Sane where
  blocked _ := by rw [hblocked, h.blocked hruns, hp, hq.1]
  sigDfl := by rw [hflags.1, hflags.2, h.sigDfl]
  interrupted hinterrupted := by
    rw [hq.2] at hinterrupted
    cases hinterrupted

theorem Proc.Sane.fdatasync {status : ExitStatus} (h : p.Sane) (hpc : p.pc = .fdatasync status)
    (r : SyncResult) : (p.afterFdatasync cfg status r).Sane := by
  have hruns : p.pc.Runs := hpc ▸ trivial
  have hcritical : p.pc.critical = false := hpc ▸ rfl
  cases r with
  | ok =>
    refine h.calm hruns hcritical ?_ rfl ⟨rfl, rfl⟩
    dsimp only [Proc.afterFdatasync]
    split <;> exact ⟨rfl, rfl⟩
  | _ => exact h.calm hruns hcritical ⟨rfl, rfl⟩ rfl ⟨rfl, rfl⟩

theorem Proc.Sane.step (h : p.Sane) (hstep : SignalStep cfg p a q) : q.Sane := by
  have ⟨hblocked, hdfl, hinterrupted⟩ := h
  cases hstep with
  | info _ _ => exact ⟨hblocked, hdfl, hinterrupted⟩
  | infoElsewhere _ => exact ⟨hblocked, hdfl, hinterrupted⟩
  | interrupt _ _ => exact h.interruptHandler
  | interruptElsewhere _ => exact h.interruptHandler
  | passes site hpc => exact h.calm (hpc ▸ trivial) (hpc ▸ rfl) site.calm_next rfl ⟨rfl, rfl⟩
  | stops site hpc => exact h.calm (hpc ▸ trivial) (hpc ▸ rfl) ⟨rfl, rfl⟩ rfl ⟨rfl, rfl⟩
  | blocks site hpc => exact ⟨fun _ => rfl, hdfl, by simp [Pc.interrupted]⟩
  | loads site hpc =>
    rw [hpc] at hblocked
    exact ⟨fun _ => hblocked trivial, hdfl, id⟩
  | stores site interrupt infos hpc =>
    rw [hpc] at hblocked hinterrupted
    exact ⟨fun _ => hblocked trivial, hdfl, hinterrupted⟩
  | unblocks site interrupt asked hpc =>
    rw [hpc] at hinterrupted
    cases interrupt with
    | false => exact ⟨fun _ => rfl, hdfl, by simp [Pc.interrupted]⟩
    | true => exact ⟨fun _ => rfl, hdfl, hinterrupted⟩
  | abandons site asked hpc =>
    rw [hpc] at hblocked hinterrupted
    exact ⟨fun _ => hblocked trivial, hdfl, fun _ => hinterrupted rfl⟩
  | prints site interrupt asked hpc =>
    rw [hpc] at hblocked hinterrupted
    cases interrupt with
    | false => exact ⟨fun _ => hblocked trivial, hdfl, by simp [Pc.interrupted]⟩
    | true => exact ⟨fun _ => hblocked trivial, hdfl, hinterrupted⟩
  | raises site asked hpc =>
    rw [hpc] at hblocked
    exact Sane.interruptHandler ⟨fun _ => hblocked trivial, hdfl, by simp [Pc.interrupted]⟩
  | fdatasyncs status r hpc => exact h.fdatasync hpc r
  | fsyncs status syncStatus r hpc =>
    cases r <;> exact h.calm (hpc ▸ trivial) (hpc ▸ rfl) ⟨rfl, rfl⟩ rfl ⟨rfl, rfl⟩
  | cleansUp status hpc =>
    refine h.calm (hpc ▸ trivial) (hpc ▸ rfl) ?_ rfl ⟨rfl, rfl⟩
    dsimp only
    split
    · exact ⟨rfl, rfl⟩
    · exact calm_synchronize status
  | settles status syncStatus hpc =>
    refine h.calm (hpc ▸ trivial) (hpc ▸ rfl) ?_ rfl ⟨rfl, rfl⟩
    dsimp only
    split <;> exact ⟨rfl, rfl⟩
  | abandonsFailing _ _ hpc => exact h.calm (hpc ▸ trivial) (hpc ▸ rfl) ⟨rfl, rfl⟩ rfl ⟨rfl, rfl⟩
  | writes hpc => exact h.calm (hpc ▸ trivial) (hpc ▸ rfl) ⟨rfl, rfl⟩ rfl ⟨rfl, rfl⟩
  | ends _ hpc => exact h.calm (hpc ▸ trivial) (hpc ▸ rfl) ⟨rfl, rfl⟩ rfl ⟨rfl, rfl⟩
  | closes _ hpc => exact h.calm (hpc ▸ trivial) (hpc ▸ rfl) ⟨rfl, rfl⟩ rfl ⟨rfl, rfl⟩
  | closesFailing _ hpc => exact h.calm (hpc ▸ trivial) (hpc ▸ rfl) ⟨rfl, rfl⟩ rfl ⟨rfl, rfl⟩
  | finishes _ hpc => exact h.calm (hpc ▸ trivial) (hpc ▸ rfl) ⟨rfl, rfl⟩ rfl ⟨rfl, rfl⟩

/-- Whether a request has been taken off the count and not been answered. -/
def Pc.owed : Pc → Nat
  | .unblock _ _ asked | .abandon _ asked | .print _ _ asked => asked.toNat
  | _ => 0

/-- Whether statistics have been printed for the interrupt alone. -/
def Pc.extra : Pc → Nat
  | .raise _ asked => (!asked).toNat
  | _ => 0

/-- What has brought the main thread here, with the flag and the count as they are now. -/
def Pc.Called (pc : Pc) (interruptSignal : Bool) (infoCount : Nat) : Prop :=
  match pc with
  | .block _ | .load _ => interruptSignal = true ∨ infoCount ≠ 0
  | .store _ interrupt infos => infos = infoCount ∧ (interrupt = true ∨ infos ≠ 0)
  | .unblock _ interrupt asked | .print _ interrupt asked => interrupt = true ∨ asked = true
  | _ => True

/-- Each request that was caught is still counted, about to be answered, or has been answered once. -/
structure Proc.Counted (p : Proc) : Prop where
  counted : p.pc = .killed ∨ p.pc = .exited ∧ p.interruptSignal = true ∨
    p.printed + p.infoCount + p.pc.owed = p.caught + p.pc.extra
  bound : p.printed ≤ p.caught + 1
  called : p.pc.Called p.interruptSignal p.infoCount

theorem Proc.Counted.balance (h : p.Counted) (hruns : p.pc.Runs) :
    p.printed + p.infoCount + p.pc.owed = p.caught + p.pc.extra := by
  rcases h.counted with hpc | ⟨hpc, -⟩ | hcounted
  · rw [hpc] at hruns
    cases hruns
  · rw [hpc] at hruns
    cases hruns
  · exact hcounted

/-- Nothing is owed, nothing was printed too much, and nothing called for the place. -/
def Pc.Even (pc : Pc) : Prop := pc.owed = 0 ∧ pc.extra = 0 ∧ ∀ flag n, pc.Called flag n

theorem Site.even_next (site : Site) : site.next.Even := by
  cases site <;> exact ⟨rfl, rfl, fun _ _ => trivial⟩

theorem even_synchronize (status : ExitStatus) : (Proc.synchronize cfg status).Even := by
  unfold Proc.synchronize
  split_ifs <;> exact ⟨rfl, rfl, fun _ _ => trivial⟩

theorem Proc.Counted.even (h : p.Counted) (hruns : p.pc.Runs) (hp : p.pc.owed = 0 ∧ p.pc.extra = 0)
    (hq : q.pc.Even) (hprinted : q.printed = p.printed)
    (hcounts : q.infoCount = p.infoCount ∧ q.caught = p.caught) : q.Counted := by
  have hbalance := h.balance hruns
  obtain ⟨howed, hextra, hcalled⟩ := hq
  refine ⟨.inr (.inr ?_), ?_, hcalled _ _⟩
  · omega
  · have hbound := h.bound
    omega

/-- A request is counted where no count has been loaded. -/
theorem Proc.Counted.info (h : p.Counted) (hruns : p.pc.Runs)
    (hstore : ∀ site interrupt infos, p.pc ≠ .store site interrupt infos) :
    p.siginfoHandler.Counted := by
  have hbalance := h.balance hruns
  have hbound := h.bound
  have hcalled := h.called
  refine ⟨.inr (.inr ?_), ?_, ?_⟩
  · simp only [Proc.siginfoHandler]
    omega
  · simp only [Proc.siginfoHandler]
    omega
  · simp only [Proc.siginfoHandler]
    cases hpc : p.pc with
    | store site interrupt infos => exact absurd hpc (hstore site interrupt infos)
    | block site => exact .inr (Nat.succ_ne_zero _)
    | load site => exact .inr (Nat.succ_ne_zero _)
    | _ =>
      rw [hpc] at hcalled
      exact hcalled

theorem Proc.Counted.interruptHandler (h : p.Counted) : p.interruptHandler.Counted := by
  obtain ⟨hcounted, hbound, hcalled⟩ := h
  unfold Proc.interruptHandler
  split
  · exact ⟨.inl rfl, hbound, trivial⟩
  · refine ⟨?_, hbound, ?_⟩
    · rcases hcounted with hpc | ⟨hpc, -⟩ | hcounted
      · exact .inl hpc
      · exact .inr (.inl ⟨hpc, rfl⟩)
      · exact .inr (.inr hcounted)
    · dsimp only
      cases hpc : p.pc with
      | block site => exact .inl rfl
      | load site => exact .inl rfl
      | _ =>
        rw [hpc] at hcalled
        exact hcalled

theorem Proc.Counted.fdatasync {status : ExitStatus} (h : p.Counted)
    (hpc : p.pc = .fdatasync status) (r : SyncResult) :
    (p.afterFdatasync cfg status r).Counted := by
  have hp : p.pc.owed = 0 ∧ p.pc.extra = 0 := hpc ▸ ⟨rfl, rfl⟩
  cases r with
  | ok =>
    refine h.even (hpc ▸ trivial) hp ?_ rfl ⟨rfl, rfl⟩
    dsimp only [Proc.afterFdatasync]
    split <;> exact ⟨rfl, rfl, fun _ _ => trivial⟩
  | _ => exact h.even (hpc ▸ trivial) hp ⟨rfl, rfl, fun _ _ => trivial⟩ rfl ⟨rfl, rfl⟩

theorem Proc.Counted.step (h : p.Counted) (hsane : p.Sane) (hstep : SignalStep cfg p a q)
    (hgood : a = .infoElsewhere → p.blocked = false) : q.Counted := by
  have hcritical (hruns : p.pc.Runs) (hfree : p.blocked = false) (site : Site) (interrupt : Bool)
      (infos : Nat) : p.pc ≠ .store site interrupt infos := by
    intro hpc
    have hblocked := hsane.blocked hruns
    rw [hfree, hpc] at hblocked
    cases hblocked
  cases hstep with
  | info hruns hfree => exact h.info hruns (hcritical hruns hfree)
  | infoElsewhere hruns => exact h.info hruns (hcritical hruns (hgood rfl))
  | interrupt _ _ => exact h.interruptHandler
  | interruptElsewhere _ => exact h.interruptHandler
  | passes site hpc =>
    exact h.even (hpc ▸ trivial) (hpc ▸ ⟨rfl, rfl⟩) site.even_next rfl ⟨rfl, rfl⟩
  | stops site hpc hpending =>
    have hbalance := h.balance (hpc ▸ trivial)
    rw [hpc] at hbalance
    exact ⟨.inr (.inr hbalance), h.bound, hpending⟩
  | blocks site hpc =>
    have hbalance := h.balance (hpc ▸ trivial)
    have hcalled := h.called
    rw [hpc] at hbalance hcalled
    exact ⟨.inr (.inr hbalance), h.bound, hcalled⟩
  | loads site hpc =>
    have hbalance := h.balance (hpc ▸ trivial)
    have hcalled := h.called
    rw [hpc] at hbalance hcalled
    exact ⟨.inr (.inr hbalance), h.bound, rfl, hcalled⟩
  | stores site interrupt infos hpc =>
    have hbalance := h.balance (hpc ▸ trivial)
    have hcalled := h.called
    rw [hpc] at hbalance hcalled
    obtain ⟨rfl, hwhy⟩ := hcalled
    refine ⟨.inr (.inr ?_), h.bound, ?_⟩
    · -- what is taken off the count is owed
      dsimp only [Pc.owed, Pc.extra] at hbalance ⊢
      by_cases hinfos : p.infoCount = 0
      · simpa [hinfos] using hbalance
      · rw [if_pos hinfos, bne_iff_ne.mpr hinfos, Bool.toNat_true]
        omega
    · exact hwhy.imp_right bne_iff_ne.mpr
  | unblocks site interrupt asked hpc =>
    have hbalance := h.balance (hpc ▸ trivial)
    have hcalled := h.called
    rw [hpc] at hbalance hcalled
    cases interrupt with
    | false => exact ⟨.inr (.inr hbalance), h.bound, hcalled⟩
    | true => exact ⟨.inr (.inr hbalance), h.bound, trivial⟩
  | abandons site asked hpc =>
    have hbalance := h.balance (hpc ▸ trivial)
    rw [hpc] at hbalance
    exact ⟨.inr (.inr hbalance), h.bound, .inl rfl⟩
  | abandonsFailing site asked hpc =>
    have hflag := hsane.interrupted (hpc ▸ rfl)
    exact ⟨.inr (.inl ⟨rfl, hflag⟩), h.bound, trivial⟩
  | prints site interrupt asked hpc =>
    have hbalance := h.balance (hpc ▸ trivial)
    have hcalled := h.called
    rw [hpc] at hbalance hcalled
    dsimp only [Pc.owed, Pc.extra] at hbalance
    have hone : asked.toNat ≤ 1 := Bool.toNat_le asked
    refine ⟨.inr (.inr ?_), ?_, ?_⟩
    · cases interrupt with
      | true =>
        dsimp only [if_pos, Pc.owed, Pc.extra]
        cases asked <;> simp at hbalance ⊢ <;> omega
      | false =>
        obtain rfl : asked = true := hcalled.resolve_left (by decide)
        simp [Pc.owed, Pc.extra] at hbalance ⊢
        omega
    · dsimp only
      omega
    · dsimp only
      split <;> trivial
  | raises site asked hpc =>
    have hdfl : p.sigDfl = true := hsane.sigDfl.trans (hsane.interrupted (hpc ▸ rfl))
    rw [Proc.interruptHandler, if_pos hdfl]
    exact ⟨.inl rfl, h.bound, trivial⟩
  | fdatasyncs status r hpc => exact h.fdatasync hpc r
  | fsyncs status syncStatus r hpc =>
    cases r <;> exact h.even (hpc ▸ trivial) (hpc ▸ ⟨rfl, rfl⟩) ⟨rfl, rfl, fun _ _ => trivial⟩ rfl
      ⟨rfl, rfl⟩
  | cleansUp status hpc =>
    refine h.even (hpc ▸ trivial) (hpc ▸ ⟨rfl, rfl⟩) ?_ rfl ⟨rfl, rfl⟩
    dsimp only
    split
    · exact ⟨rfl, rfl, fun _ _ => trivial⟩
    · exact even_synchronize status
  | settles status syncStatus hpc =>
    refine h.even (hpc ▸ trivial) (hpc ▸ ⟨rfl, rfl⟩) ?_ rfl ⟨rfl, rfl⟩
    dsimp only
    split <;> exact ⟨rfl, rfl, fun _ _ => trivial⟩
  | writes hpc =>
    exact h.even (hpc ▸ trivial) (hpc ▸ ⟨rfl, rfl⟩) ⟨rfl, rfl, fun _ _ => trivial⟩ rfl ⟨rfl, rfl⟩
  | ends _ hpc =>
    exact h.even (hpc ▸ trivial) (hpc ▸ ⟨rfl, rfl⟩) ⟨rfl, rfl, fun _ _ => trivial⟩ rfl ⟨rfl, rfl⟩
  | closes _ hpc =>
    exact h.even (hpc ▸ trivial) (hpc ▸ ⟨rfl, rfl⟩) ⟨rfl, rfl, fun _ _ => trivial⟩ rfl ⟨rfl, rfl⟩
  | closesFailing _ hpc =>
    exact h.even (hpc ▸ trivial) (hpc ▸ ⟨rfl, rfl⟩) ⟨rfl, rfl, fun _ _ => trivial⟩ rfl ⟨rfl, rfl⟩
  | finishes _ hpc =>
    exact h.even (hpc ▸ trivial) (hpc ▸ ⟨rfl, rfl⟩) ⟨rfl, rfl, fun _ _ => trivial⟩ rfl ⟨rfl, rfl⟩

/-- The syncs that are asked for have succeeded since the last write; `fsync` does for both. -/
def Proc.Durable (cfg : Config) (p : Proc) : Prop :=
  (cfg.conversions.fdatasync = true → p.datasynced = true ∨ p.synced = true) ∧
    (cfg.conversions.fsync = true → p.synced = true)

/-- Behind a sync that has not failed. -/
def Pc.past : Pc → Bool
  | .settled _ .success | .closing _ | .stats _ | .returned _ => true
  | _ => false

/-- Behind the closing of the streams. -/
def Pc.shut : Pc → Bool
  | .print _ true _ | .raise _ _ | .stats _ | .returned _ => true
  | _ => false

/-- What has been done on the way to the end. -/
structure Proc.Orderly (cfg : Config) (p : Proc) : Prop where
  durable : p.pc.past = true → p.interruptSignal = true ∨ p.Durable cfg
  closed : p.pc.shut = true → p.closed = true
  printed : ∀ site asked, p.pc = .raise site asked → 0 < p.printed

theorem Proc.Orderly.early (hpast : p.pc.past = false) (hshut : p.pc.shut = false) :
    p.Orderly cfg where
  durable h := by
    rw [hpast] at h
    cases h
  closed h := by
    rw [hshut] at h
    cases h
  printed site asked h := by
    rw [h] at hshut
    cases hshut

/-- Neither handler goes on to another place, unless the process ends. -/
theorem Proc.Orderly.interruptHandler (h : p.Orderly cfg) : p.interruptHandler.Orderly cfg := by
  unfold Proc.interruptHandler
  split
  · exact .early rfl rfl
  · exact ⟨fun _ => .inl rfl, h.closed, h.printed⟩

theorem Proc.Orderly.synchronized {status : ExitStatus} (hpc : p.pc = Proc.synchronize cfg status) :
    p.Orderly cfg := by
  unfold Proc.synchronize at hpc
  split_ifs at hpc with hdata hsync
  · exact .early (hpc ▸ rfl) (hpc ▸ rfl)
  · exact .early (hpc ▸ rfl) (hpc ▸ rfl)
  · exact
      { durable := fun _ => .inr ⟨fun h => absurd h hdata, fun h => absurd h hsync⟩
        closed := by simp [hpc, Pc.shut], printed := by simp [hpc] }

theorem Proc.Orderly.fdatasync (status : ExitStatus) (r : SyncResult) :
    (p.afterFdatasync cfg status r).Orderly cfg := by
  cases r with
  | ok =>
    unfold Proc.afterFdatasync
    dsimp only
    split
    · exact .early rfl rfl
    · rename_i hsync
      exact
        { durable := fun _ => .inr ⟨fun _ => .inl rfl, fun h => absurd h hsync⟩
          closed := by simp [Pc.shut], printed := by simp }
  | _ => exact .early rfl rfl

theorem Proc.Orderly.fsync (status syncStatus : ExitStatus) (r : SyncResult) :
    (p.afterFsync status syncStatus r).Orderly cfg := by
  cases r with
  | ok =>
    exact
      { durable := fun _ => .inr ⟨fun _ => .inr rfl, fun _ => rfl⟩
        closed := by simp [Proc.afterFsync, Pc.shut], printed := by simp [Proc.afterFsync] }
  | _ => exact .early rfl rfl

theorem Proc.Orderly.step (h : p.Orderly cfg) (hstep : SignalStep cfg p a q) : q.Orderly cfg := by
  cases hstep with
  | info _ _ => exact ⟨h.durable, h.closed, h.printed⟩
  | infoElsewhere _ => exact ⟨h.durable, h.closed, h.printed⟩
  | interrupt _ _ => exact h.interruptHandler
  | interruptElsewhere _ => exact h.interruptHandler
  | passes site _ => cases site <;> exact .early rfl rfl
  | unblocks site interrupt asked _ => cases interrupt <;> exact .early rfl rfl
  | abandons site asked _ =>
    exact { durable := by simp [Pc.past], closed := fun _ => rfl, printed := by simp }
  | prints site interrupt asked hpc =>
    cases interrupt with
    | false => exact .early rfl rfl
    | true =>
      have hclosed : p.closed = true := h.closed (hpc ▸ rfl)
      exact { durable := by simp [Pc.past], closed := fun _ => hclosed, printed := by simp }
  | raises site asked _ => exact Orderly.interruptHandler (.early rfl rfl)
  | fdatasyncs status r _ => exact .fdatasync status r
  | fsyncs status syncStatus r _ => exact .fsync status syncStatus r
  | cleansUp status _ =>
    cases hflag : p.interruptSignal with
    | true =>
      exact { durable := fun _ => .inl rfl, closed := by simp [Pc.shut], printed := by simp }
    | false => exact .synchronized rfl
  | settles status syncStatus hpc =>
    cases syncStatus with
    | success =>
      have hdurable := h.durable (hpc ▸ rfl)
      exact { durable := fun _ => hdurable, closed := by simp [Pc.shut], printed := by simp }
    | failure => exact .early rfl rfl
  | closes status hpc =>
    have hdurable := h.durable (hpc ▸ rfl)
    exact { durable := fun _ => hdurable, closed := fun _ => rfl, printed := by simp }
  | finishes status hpc =>
    have hdurable := h.durable (hpc ▸ rfl)
    have hclosed := h.closed (hpc ▸ rfl)
    exact { durable := fun _ => hdurable, closed := fun _ => hclosed, printed := by simp }
  | _ => exact .early rfl rfl

end Invariants

section Runs

variable {cfg : Config} {p q : Proc}

/-- A request that another thread catches finds the main thread with its signals not held back. -/
def Proc.Steady (p : Proc) (a : SignalAct) : Prop := a = .infoElsewhere → p.blocked = false

theorem reachable_sane (h : (signals cfg).Reachable p) : p.Sane := by
  refine h.invariant ?_ fun s a t hs hstep => hs.step hstep
  rintro s rfl
  exact ⟨fun _ => rfl, rfl, by simp [Pc.interrupted]⟩

theorem reachable_counted (h : ((signals cfg).restrict Proc.Steady).Reachable p) : p.Counted := by
  have hboth : p.Sane ∧ p.Counted := by
    refine h.invariant (I := fun s => s.Sane ∧ s.Counted) ?_ ?_
    · rintro s rfl
      exact ⟨⟨fun _ => rfl, rfl, by simp [Pc.interrupted]⟩, .inr (.inr rfl), Nat.zero_le _, trivial⟩
    · rintro s a t ⟨hsane, hs⟩ ⟨hstep, hgood⟩
      exact ⟨hsane.step hstep, hs.step hsane hstep hgood⟩
  exact hboth.2

theorem reachable_orderly (h : (signals cfg).Reachable p) : p.Orderly cfg := by
  refine h.invariant ?_ fun s a t hs hstep => hs.step hstep
  rintro s rfl
  exact .early rfl rfl

/-- Without a further signal each request that is counted is answered by one round. -/
theorem answers_leads {site : Site} (hpc : p.pc = .check site) (hflag : p.interruptSignal = false)
    (hblocked : p.blocked = false) :
    ((signals cfg).restrict fun _ a => a = .go).Leads p
      { p with pc := site.next, infoCount := 0, printed := p.printed + p.infoCount } := by
  obtain ⟨pc, interruptSignal, infoCount, blocked, sigDfl, caught, printed, datasynced, synced,
    closed⟩ := p
  subst hpc hflag hblocked
  induction infoCount generalizing printed with
  | zero => exact (System.Leads.refl _).step ⟨.passes _ site rfl rfl rfl, rfl⟩
  | succ n ih =>
    have hround := (System.Leads.refl (S := (signals cfg).restrict fun _ a => a = .go)
      ⟨.check site, false, n + 1, false, sigDfl, caught, printed, datasynced, synced, closed⟩)
    have hround := hround.step ⟨.stops _ site rfl (.inr (Nat.succ_ne_zero n)), rfl⟩
    have hround := hround.step ⟨.blocks _ site rfl, rfl⟩
    have hround := hround.step ⟨.loads _ site rfl, rfl⟩
    have hround := hround.step ⟨.stores _ site _ _ rfl, rfl⟩
    have hround := hround.step ⟨.unblocks _ site _ _ rfl, rfl⟩
    have hround := hround.step ⟨.prints _ site _ _ rfl, rfl⟩
    have hrest := ih (printed + 1)
    rw [Nat.add_right_comm] at hrest
    exact hround.trans hrest

/-- Each request for statistics that is caught is answered once, or still counted or about to be
answered; only an interrupt prints once more. Where the signals are looked at, the main thread goes
on after it has answered all of them. -/
theorem requests_answered (h : ((signals cfg).restrict Proc.Steady).Reachable p) :
    p.printed ≤ p.caught + 1 ∧
    (p.interruptSignal = false → p.printed + p.infoCount + p.pc.owed = p.caught) ∧
    ∀ site, p.pc = .check site → p.interruptSignal = false →
      ((signals cfg).restrict fun _ a => a = .go).Leads p
        { p with pc := site.next, infoCount := 0, printed := p.caught } := by
  have hsane := reachable_sane h.of_restrict
  have hcounted := reachable_counted h
  have hbalance (hflag : p.interruptSignal = false) :
      p.printed + p.infoCount + p.pc.owed = p.caught := by
    have hcalm : p.pc.interrupted = false := by
      rw [Bool.eq_false_iff]
      intro hint
      rw [hsane.interrupted hint] at hflag
      cases hflag
    rcases hcounted.counted with hpc | ⟨-, hset⟩ | hcounted
    · rw [hpc] at hcalm
      cases hcalm
    · rw [hset] at hflag
      cases hflag
    · have hextra : p.pc.extra = 0 := by
        unfold Pc.extra
        split
        · rename_i hpc
          rw [hpc] at hcalm
          cases hcalm
        · rfl
      omega
  refine ⟨hcounted.bound, hbalance, ?_⟩
  intro site hpc hflag
  have hblocked : p.blocked = false := by
    rw [hsane.blocked (hpc ▸ trivial), hpc]
    rfl
  have hcaught := hbalance hflag
  rw [hpc] at hcaught
  have hleads : ((signals cfg).restrict fun _ a => a = .go).Leads p _ :=
    answers_leads hpc hflag hblocked
  have hall : p.printed + p.infoCount = p.caught := hcaught
  rwa [hall] at hleads

/-- A run of `dd_execute` that returns has closed its streams, and has synced what it was asked to
unless it caught an interrupt; one that was caught behind the last look at the signals passes the
sync by. A process that ends itself by the signal has closed its streams and printed its
statistics. -/
theorem returned_synced (cfg : Config) :
    (∀ p, (signals cfg).Reachable p →
      (∀ status, p.pc = .returned status →
        p.closed = true ∧ (p.interruptSignal = true ∨ p.Durable cfg)) ∧
      ∀ site asked, p.pc = .raise site asked → p.closed = true ∧ 0 < p.printed ∧
        ∀ q, SignalStep cfg p .go q → q.pc = .killed) ∧
    (cfg.conversions.fdatasync = true ∨ cfg.conversions.fsync = true →
      ∀ status, ∃ p, (signals cfg).Reachable p ∧ p.pc = .returned status ∧ ¬ p.Durable cfg) := by
  constructor
  · intro p h
    have horderly := reachable_orderly h
    have hsane := reachable_sane h
    constructor
    · intro status hpc
      exact ⟨horderly.closed (hpc ▸ rfl), horderly.durable (hpc ▸ rfl)⟩
    · intro site asked hpc
      refine ⟨horderly.closed (hpc ▸ rfl), horderly.printed site asked hpc, ?_⟩
      have hdfl : p.sigDfl = true := hsane.sigDfl.trans (hsane.interrupted (hpc ▸ rfl))
      intro q hstep
      cases hstep with
      | raises => exact congrArg Proc.pc (if_pos hdfl)
      | _ => simp_all
  · intro hasked status
    -- the interrupt comes between the last look and the test in `dd_engine_cleanup`
    have hstart : (signals cfg).Reachable {} := .init rfl
    have hended := (hstart.step (.passes _ .loop rfl rfl rfl)).step (.ends _ status rfl)
    have hcaught : (signals cfg).Reachable
        { pc := .cleanup status, interruptSignal := true, sigDfl := true } :=
      hended.step (.interrupt _ trivial rfl)
    have hclosing : (signals cfg).Reachable
        { pc := .closing status, interruptSignal := true, sigDfl := true } :=
      hcaught.step (.cleansUp _ status rfl)
    have hreturned := (hclosing.step (.closes _ status rfl)).step (.finishes _ status rfl)
    refine ⟨_, hreturned, rfl, ?_⟩
    rintro ⟨hdata, hsync⟩
    rcases hasked with hasked | hasked
    · rcases hdata hasked with hdone | hdone
      · exact Bool.false_ne_true hdone
      · exact Bool.false_ne_true hdone
    · exact Bool.false_ne_true (hsync hasked)

end Runs

section Example

/-- A request is caught before the first look at the signals. -/
theorem requests_answered_one : ((signals {}).restrict fun _ a => a = .go).Leads
    ({} : Proc).siginfoHandler
    { ({} : Proc).siginfoHandler with pc := .step, infoCount := 0, printed := 1 } := by
  have hreach : ((signals {}).restrict Proc.Steady).Reachable ({} : Proc).siginfoHandler :=
    (System.Reachable.init rfl).step ⟨.info _ trivial rfl, by simp [Proc.Steady]⟩
  exact (requests_answered hreach).2.2 .loop rfl rfl

end Example

end Blkcp.C
