import Blkcp.Rust.AsyncStuck
set_option autoImplicit false

/-! Read errors that are passed over (`noerror`): when the synchronous loop and the reader of the
pipeline end. -/

namespace Blkcp.Rust
open Blkcp.Lib

variable {α ρ ω η₂ η₃ : Type}

/-- An input of `len` bytes that reads from everywhere but some offsets: there each read fails, and
does not move. -/
structure Unreadable (I : Input α ρ) (pos : ρ → Nat) (len : Nat) (bad : Nat → Prop) : Prop where
  fails : ∀ s n, bad (pos s) → ∃ e t, I.read s n = (.failed e, t) ∧ pos t = pos s
  reads : ∀ s n, ¬bad (pos s) → ∃ bytes t, I.read s n = (.data bytes, t) ∧
    pos t = pos s + bytes.length ∧ (bytes ≠ [] → pos t ≤ len)

variable {pos : ρ → Nat} {len : Nat} {bad : Nat → Prop} {cfg : Config}

/-- No limit is used up. -/
def Wants (remBytes remBlocks : Option Nat) : Prop := remBytes ≠ some 0 ∧ remBlocks ≠ some 0

variable [Octet α] {I : Input α ρ} {O : Output α ω} {env : HashEnv η₂ η₃}

section Loop

/-- The loop is about to read at an unreadable offset. -/
def LoopStuck (pos : ρ → Nat) (bad : Nat → Prop) (s : LoopState α ρ ω η₂ η₃) : Prop :=
  Wants s.remainingBytes s.remainingBlocks ∧ bad (pos s.input)

variable {s t : LoopState α ρ ω η₂ η₃}

theorem LoopStuck.falls (law : Unreadable I pos len bad) (hnoerror : cfg.noerror = true)
    (h : LoopStuck pos bad s) :
    ∃ t, transferBody I O env cfg (fun _ => false) s = .inl t ∧ LoopStuck pos bad t := by
  obtain ⟨⟨hbytes, hblocks⟩, hbad⟩ := h
  obtain ⟨e, input, hread, hpos⟩ := law.fails s.input (toRead cfg s.remainingBytes) hbad
  refine ⟨{ s with input := input, polls := s.polls + 1 }, ?_, ⟨hbytes, hblocks⟩, ?_⟩
  · simp only [transferBody, hbytes, hblocks, hread, hnoerror, Bool.false_eq_true, if_false,
      if_true]
  · rw [hpos]
    exact hbad

/-- Elsewhere an iteration that goes on has read towards the end of the input. -/
theorem transferBody_nearer (law : Unreadable I pos len bad) (hstuck : ¬LoopStuck pos bad s)
    (h : transferBody I O env cfg (fun _ => false) s = .inl t) :
    len - pos t.input < len - pos s.input := by
  simp only [transferBody, Bool.false_eq_true, if_false] at h
  split at h
  · cases h
  rename_i hbytes
  split at h
  · cases h
  rename_i hblocks
  have hgood : ¬bad (pos s.input) := fun hbad => hstuck ⟨⟨hbytes, hblocks⟩, hbad⟩
  obtain ⟨bytes, input, hread, hpos, hle⟩ :=
    law.reads s.input (toRead cfg s.remainingBytes) hgood
  rw [hread] at h
  split at h
  · cases h
  · rename_i heq
    cases (Prod.mk.inj heq).1
  · rename_i heq
    cases (Prod.mk.inj heq).1
  · rename_i bytes' input' hne heq
    obtain ⟨hb, rfl⟩ := Prod.mk.inj heq
    obtain rfl := ReadResult.data.inj hb
    have hne' : bytes ≠ [] := fun hnil => hne hnil
    have hend := hle hne'
    have hlen := List.length_pos_iff.mpr hne'
    have hnext : len - pos input < len - pos s.input := by omega
    split at h
    · cases h
    · rw [← Sum.inl.inj h]
      exact hnext

end Loop

section Pipeline

/-- The reader is about to read at an unreadable offset. -/
def ReaderStuck (pos : ρ → Nat) (bad : Nat → Prop) (s : AsyncState α ρ ω η₂ η₃) : Prop :=
  (∃ buf k, s.reader = .reading buf k) ∧ bad (pos s.input)

def ReaderPhase.held : ReaderPhase α → Nat
  | .reading _ _ | .recycling _ | .sending _ => 1
  | .check | .waitBuf _ | .done _ => 0

def MainPhase.held : MainPhase α → Nat
  | .got _ | .handing _ => 1
  | .recv | .joinHasher | .joinReader | .returned _ => 0

def HasherPhase.held : HasherPhase α → Nat
  | .got _ | .recycling _ => 1
  | .recv | .done => 0

/-- The buffers in the channels and in the hands of the threads. -/
def AsyncState.buffers (s : AsyncState α ρ ω η₂ η₃) : Nat :=
  s.recycleQ.length + s.dataQ.length + s.hashQ.length + s.reader.held + s.main.held +
    s.hashing.held

/-- A reader that has passed its checks still wants bytes. -/
def AsyncState.Passed (s : AsyncState α ρ ω η₂ η₃) : Prop :=
  match s.reader with
  | .waitBuf _ | .reading _ _ => Wants s.remBytes s.remBlocks
  | _ => True

structure ReaderFit (cfg : Config) (s : AsyncState α ρ ω η₂ η₃) : Prop where
  buffers_le : s.buffers ≤ queueDepth cfg
  passed : s.Passed

variable {s t : AsyncState α ρ ω η₂ η₃} {a : AsyncAct}

theorem ReaderFit.start (input : ρ) (file : ω) (stats : Stats) :
    ReaderFit cfg (AsyncState.start env cfg input file stats : AsyncState α ρ ω η₂ η₃) where
  buffers_le := by
    simp [AsyncState.buffers, AsyncState.start, ReaderPhase.held, MainPhase.held, HasherPhase.held]
  passed := trivial

omit [Octet α] in
/-- What a read leaves of the buffers: the one it was made into, at most. -/
theorem afterRead_fit (hr : ∃ buf k, s.reader = .reading buf k) (buf : List α)
    (r : ReadResult α × ρ) (h : ReaderFit cfg s) : ReaderFit cfg (afterRead cfg s buf r) := by
  obtain ⟨buf', k, hr⟩ := hr
  have hle := h.buffers_le
  simp only [AsyncState.buffers, hr, ReaderPhase.held] at hle
  simp only [afterRead]
  repeat' split
  all_goals
    refine ⟨?_, trivial⟩
    simp only [AsyncState.buffers, ReaderPhase.held]
    omega

theorem ReaderFit.step (h : ReaderFit cfg s) (hst : AsyncStep I O env cfg s a t) :
    ReaderFit cfg t := by
  have hle := h.buffers_le
  have hpassed := h.passed
  cases hst with
  | readerReads k buf hr => exact afterRead_fit ⟨buf, k, hr⟩ buf _ h
  | readerPasses hr hbytes hblocks =>
    refine ⟨?_, hbytes, hblocks⟩
    simp only [AsyncState.buffers, hr, ReaderPhase.held] at hle ⊢
    omega
  | readerTakes k buf q hr hq =>
    refine ⟨?_, by simpa only [AsyncState.Passed, hr] using hpassed⟩
    simp only [AsyncState.buffers, hr, hq, ReaderPhase.held, List.length_cons] at hle ⊢
    omega
  | mainRecycles u m hm ha hr =>
    rcases recycle_eq hr with ⟨-, rfl⟩ | ⟨-, rfl⟩
    all_goals
      refine ⟨?_, hpassed⟩
      simp only [AsyncState.buffers, hm, MainPhase.held, List.length_append,
        List.length_singleton] at hle ⊢
      omega
  | hasherRecycles u buf hh hr =>
    rcases recycle_eq hr with ⟨-, rfl⟩ | ⟨-, rfl⟩
    all_goals
      refine ⟨?_, hpassed⟩
      simp only [AsyncState.buffers, hh, HasherPhase.held, List.length_append,
        List.length_singleton] at hle ⊢
      omega
  | setCancel | readerSeesCancel | readerStops | readerRecycles | readerSends | readerSendFails
  | mainReceives | mainDisconnects | mainCancels | mainDelivers | mainFails | mainHashes
  | mainJoinsHasher | mainJoinsReader | hasherReceives | hasherEnds | hasherUpdates =>
    constructor
    · simp_all only [AsyncState.buffers, ReaderPhase.held, MainPhase.held, HasherPhase.held,
        List.length_append, List.length_cons, List.length_nil]
      all_goals omega
    · simp_all [AsyncState.Passed]

/-- Runs without a cancellation, with the number of reads that the reader has made. -/
def readsSystem (I : Input α ρ) (O : Output α ω) (env : HashEnv η₂ η₃) (cfg : Config) (input : ρ)
    (file : ω) (stats : Stats) : System (AsyncState α ρ ω η₂ η₃ × Nat) AsyncAct :=
  ((asyncSystem I O env cfg input file stats).restrict fun _ a => a ≠ .setCancel).traced 0
    fun k _ a => if a = .readerReads then k + 1 else k

/-- The reader ends: there is a bound on the reads that it makes, whatever the threads do. -/
def ReaderEnds (I : Input α ρ) (O : Output α ω) (env : HashEnv η₂ η₃) (cfg : Config) (input : ρ)
    (file : ω) (stats : Stats) : Prop :=
  ∃ n, ∀ s k, (readsSystem I O env cfg input file stats).Reachable (s, k) → k ≤ n

variable {input : ρ} {file : ω} {stats : Stats} {k : Nat}

theorem reads_step (h : (readsSystem I O env cfg input file stats).Reachable (s, k))
    (hne : a ≠ .setCancel) (hst : AsyncStep I O env cfg s a t) :
    (readsSystem I O env cfg input file stats).Reachable
      (t, if a = .readerReads then k + 1 else k) := h.step ⟨⟨hst, hne⟩, rfl⟩

theorem readerFit_of_reachable (h : (readsSystem I O env cfg input file stats).Reachable (s, k)) :
    ReaderFit cfg s := by
  have hfit : ∀ x, (readsSystem I O env cfg input file stats).Reachable x → ReaderFit cfg x.1 := by
    intro x hx
    induction hx with
    | init hinit =>
      rw [hinit.1]
      exact .start input file stats
    | step _ hst ih => exact ih.step hst.1.1
  exact hfit _ h

/-- The reader reads again from where it failed to. -/
theorem ReaderStuck.again (law : Unreadable I pos len bad) (hnoerror : cfg.noerror = true)
    (hstuck : ReaderStuck pos bad s)
    (h : (readsSystem I O env cfg input file stats).Reachable (s, k)) :
    ∃ t, ReaderStuck pos bad t ∧
      (readsSystem I O env cfg input file stats).Reachable (t, k + 1) := by
  have hfit := readerFit_of_reachable h
  obtain ⟨⟨buf, n, hr⟩, hbad⟩ := hstuck
  obtain ⟨e, input', hread, hpos⟩ := law.fails s.input n hbad
  have hroom := hfit.buffers_le
  have hwants := hfit.passed
  simp only [AsyncState.buffers, hr, ReaderPhase.held] at hroom
  simp only [AsyncState.Passed, hr] at hwants
  have hafter : afterRead cfg s buf (I.read s.input n) =
      { s with input := input', reader := .recycling buf } := by
    simp only [hread, afterRead, hnoerror, if_true]
  have reads := reads_step h (by decide) (.readerReads s n buf hr)
  rw [hafter] at reads
  have recycles := reads_step reads (by decide) (.readerRecycles _ buf rfl (by dsimp only; omega))
  have passes := reads_step recycles (by decide) (.readerPasses _ rfl hwants.1 hwants.2)
  obtain ⟨buf', q, hq⟩ : ∃ buf' q, s.recycleQ ++ [buf] = buf' :: q :=
    List.exists_cons_of_ne_nil (by simp)
  have takes := reads_step passes (by decide) (.readerTakes _ _ buf' q rfl hq)
  refine ⟨_, ⟨⟨_, _, rfl⟩, ?_⟩, takes⟩
  dsimp only
  rw [hpos]
  exact hbad

/-- Without such a reader every read that gives bytes moves on, and one that gives none is the
last. -/
structure ReaderMoves (pos : ρ → Nat) (len first : Nat) (s : AsyncState α ρ ω η₂ η₃) (k : Nat) :
    Prop where
  reads_le : k + first ≤ pos s.input + if s.readerDone then 1 else 0
  pos_le : pos s.input ≤ max first len

theorem input_of_step (ha : a ≠ .readerReads) (hst : AsyncStep I O env cfg s a t) :
    t.input = s.input ∧ (s.readerDone = true → t.readerDone = true) := by
  cases hst with
  | readerReads => exact absurd rfl ha
  | mainRecycles u m hm halgo hr =>
    rcases recycle_eq hr with ⟨-, rfl⟩ | ⟨-, rfl⟩
    all_goals exact ⟨rfl, id⟩
  | hasherRecycles u buf hh hr =>
    rcases recycle_eq hr with ⟨-, rfl⟩ | ⟨-, rfl⟩
    all_goals exact ⟨rfl, id⟩
  | readerSeesCancel hr | readerStops hr | readerPasses hr | readerTakes _ _ _ hr
  | readerRecycles _ hr | readerSends _ hr | readerSendFails _ hr =>
    exact ⟨rfl, fun h => by simp [AsyncState.readerDone, hr] at h⟩
  | setCancel | mainReceives | mainDisconnects | mainCancels | mainDelivers | mainFails
  | mainHashes | mainJoinsHasher | mainJoinsReader | hasherReceives | hasherEnds
  | hasherUpdates => exact ⟨rfl, id⟩

theorem ReaderMoves.step {first : Nat} (law : Unreadable I pos len bad)
    (h : ReaderMoves pos len first s k) (hfree : ¬ReaderStuck pos bad s)
    (hst : AsyncStep I O env cfg s a t) :
    ReaderMoves pos len first t (if a = .readerReads then k + 1 else k) := by
  obtain ⟨hreads, hpos⟩ := h
  by_cases ha : a = .readerReads
  · rw [if_pos ha]
    subst ha
    cases hst with
    | readerReads n buf hr =>
      have hgood : ¬bad (pos s.input) := fun hbad => hfree ⟨⟨buf, n, hr⟩, hbad⟩
      obtain ⟨bytes, input, hread, hnext, hle⟩ := law.reads s.input n hgood
      have hgoes : s.readerDone = false := by simp [AsyncState.readerDone, hr]
      rw [hgoes] at hreads
      rw [hread]
      cases bytes with
      | nil =>
        rw [List.length_nil, Nat.add_zero] at hnext
        refine ⟨?_, hnext.trans_le hpos⟩
        simp only [afterRead, AsyncState.readerDone, if_true, hnext]
        simp only [Bool.false_eq_true, if_false] at hreads
        omega
      | cons b bs =>
        have hend := hle (List.cons_ne_nil b bs)
        rw [List.length_cons] at hnext
        refine ⟨?_, hend.trans (Nat.le_max_right _ _)⟩
        simp only [afterRead, AsyncState.readerDone, Bool.false_eq_true, if_false] at hreads ⊢
        omega
  · rw [if_neg ha]
    obtain ⟨hinput, hdone⟩ := input_of_step ha hst
    refine ⟨?_, by rwa [hinput]⟩
    rw [hinput]
    refine hreads.trans (Nat.add_le_add_left ?_ _)
    by_cases hd : s.readerDone = true
    · rw [if_pos hd, if_pos (hdone hd)]
    · rw [if_neg hd]
      exact Nat.zero_le _

/-- The reader ends exactly if it never comes to read at an unreadable offset. -/
theorem readerEnds_iff (law : Unreadable I pos len bad) (hnoerror : cfg.noerror = true) :
    ReaderEnds I O env cfg input file stats ↔
      ∀ s k, (readsSystem I O env cfg input file stats).Reachable (s, k) →
        ¬ReaderStuck pos bad s := by
  constructor
  · rintro ⟨n, hn⟩ s k h hstuck
    have hmore : ∀ m, ∃ t, ReaderStuck pos bad t ∧
        (readsSystem I O env cfg input file stats).Reachable (t, k + m) := by
      intro m
      induction m with
      | zero => exact ⟨s, hstuck, h⟩
      | succ m ih =>
        obtain ⟨t, ht, hreach⟩ := ih
        exact ht.again law hnoerror hreach
    obtain ⟨t, -, hreach⟩ := hmore (n + 1)
    have hle := hn t _ hreach
    omega
  · intro hfree
    have hmoves : ∀ x, (readsSystem I O env cfg input file stats).Reachable x →
        ReaderMoves pos len (pos input) x.1 x.2 := by
      intro x hx
      induction hx with
      | @init x hinit =>
        obtain ⟨hstart, hzero⟩ := hinit
        rw [show x.1 = AsyncState.start env cfg input file stats from hstart, hzero]
        exact ⟨by simp [AsyncState.start], Nat.le_max_left _ _⟩
      | @step x y a hx hst ih =>
        rw [hst.2]
        exact ih.step law (hfree x.1 x.2 hx) hst.1.1
    refine ⟨max (pos input) len + 1, fun s k h => ?_⟩
    obtain ⟨hreads, hle⟩ := hmoves (s, k) h
    dsimp only at hreads hle
    split at hreads <;> omega

end Pipeline

theorem transferLoop_ends_iff (law : Unreadable I pos len bad) (hnoerror : cfg.noerror = true)
    (s : LoopState α ρ ω η₂ η₃) :
    (∃ fuel r, transferLoop I O env cfg (fun _ => false) fuel s = some r) ↔
      ∀ t, Iterates (transferBody I O env cfg fun _ => false) s t → ¬LoopStuck pos bad t := by
  rw [← runLoop_leaves_iff_trap (fun s => len - pos s.input)
    (fun _ hs => LoopStuck.falls law hnoerror hs) fun _ _ => transferBody_nearer law]
  simp only [transferLoop, Option.map_eq_some_iff]
  constructor
  · rintro ⟨fuel, r, x, hrun, -⟩
    exact ⟨fuel, x, hrun⟩
  · rintro ⟨fuel, x, hrun⟩
    exact ⟨fuel, _, x, hrun, rfl⟩

/-- Over an input with unreadable offsets, with errors passed over and no cancellation, the
synchronous loop and the reader of the pipeline end exactly if they never come to read at one. -/
theorem noerror_loops_end_iff (law : Unreadable I pos len bad) (hnoerror : cfg.noerror = true)
    (input : ρ) (file : ω) (stats : Stats) :
    ((∃ fuel r, transferLoop I O env cfg (fun _ => false) fuel (.start env cfg input file stats) =
        some r) ↔
      ∀ s, Iterates (transferBody I O env cfg fun _ => false)
        (.start env cfg input file stats) s → ¬LoopStuck pos bad s) ∧
    (ReaderEnds I O env cfg input file stats ↔
      ∀ s k, (readsSystem I O env cfg input file stats).Reachable (s, k) →
        ¬ReaderStuck pos bad s) :=
  ⟨transferLoop_ends_iff law hnoerror _, readerEnds_iff law hnoerror⟩

section Example
open Blks

/-- A file at a position, with offsets that cannot be read; other reads give a byte each. -/
def holedInput (content : List Byte) (bad : Nat → Bool) : Input Byte Nat where
  read pos n :=
    if bad pos then (.failed "Input/output error (os error 5)", pos)
    else
      let bytes := ((content.drop pos).take n).take 1
      (.data bytes, pos + bytes.length)
  read_le := by
    intro pos n bytes t h
    split at h
    · cases h
    · rw [← ReadResult.data.inj (Prod.mk.inj h).1, List.length_take, List.length_take]
      omega

theorem holedInput_unreadable (content : List Byte) (bad : Nat → Bool) :
    Unreadable (holedInput content bad) id content.length fun p => bad p = true where
  fails s _ h := ⟨_, s, if_pos h, rfl⟩
  reads s n h := by
    refine ⟨_, _, if_neg h, rfl, fun hne => ?_⟩
    have hlen := List.length_pos_iff.mpr hne
    simp only [List.length_take, List.length_drop, id] at hlen ⊢
    omega

def passOver : Config := { engine := .async, noerror := true }

/-- The first byte cannot be read: both ask for it again, and again. -/
theorem noerror_loops_endless :
    (¬∃ fuel r, transferLoop (holedInput [7] (· == 0)) contentOutput noCrates passOver
      (fun _ => false) fuel (.start noCrates passOver 0 ([], 0) {}) = some r) ∧
    ¬ReaderEnds (holedInput [7] (· == 0)) contentOutput noCrates passOver 0 ([], 0) {} := by
  have law := holedInput_unreadable [7] (· == 0)
  rw [transferLoop_ends_iff law rfl, readerEnds_iff law rfl]
  constructor
  · intro hfree
    exact hfree _ (.refl _) ⟨⟨by decide, by decide⟩, rfl⟩
  · intro hfree
    have start : (readsSystem (holedInput [7] (· == 0)) contentOutput noCrates passOver 0
      ([], 0) {}).Reachable (.start noCrates passOver 0 ([], 0) {}, 0) := .init ⟨rfl, rfl⟩
    have passes := reads_step start (by decide) (.readerPasses _ rfl (by decide) (by decide))
    have takes := reads_step passes (by decide) (.readerTakes _ _ _ _ rfl rfl)
    exact hfree _ _ takes ⟨⟨_, _, rfl⟩, rfl⟩

theorem noerror_loops_end_iff_passOver :
    ((∃ fuel r, transferLoop (holedInput [7, 8] (· == 1)) contentOutput noCrates passOver
      (fun _ => false) fuel (.start noCrates passOver 0 ([], 0) {}) = some r) ↔
      ∀ s, Iterates (transferBody (holedInput [7, 8] (· == 1)) contentOutput noCrates passOver
        fun _ => false) (.start noCrates passOver 0 ([], 0) {}) s →
        ¬LoopStuck id (fun p => (p == 1) = true) s) :=
  (noerror_loops_end_iff (holedInput_unreadable [7, 8] (· == 1)) rfl 0 ([], 0) {}).1

end Example

end Blkcp.Rust
