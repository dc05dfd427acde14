import Blkcp.Rust.AsyncStuck
set_option autoImplicit false

/-! The asynchronous pipeline refines the synchronous loop. The loop stands where the pipeline will
be when the writer and the hasher have worked off what the reader has read. -/

namespace Blkcp.Rust
open Blkcp.Lib

variable {α ρ ω η₂ η₃ : Type} [Octet α]

section Blocks

variable (O : Output α ω) (cfg : Config)

def swabbed (bytes : List α) : List α := if cfg.swab then swabBuffer bytes else bytes

/-- What is written of the bytes of one read. -/
def outBlock (bytes : List α) : List α :=
  if cfg.sync && bytes.length < effectiveBlockSize cfg then
    swabbed cfg bytes ++ List.replicate (effectiveBlockSize cfg - bytes.length) Octet.zero
  else swabbed cfg bytes

def countBlock (stats : Stats) (n : Nat) : Stats :=
  let blockSize := effectiveBlockSize cfg
  let stats := if n = blockSize then stats.incInFull else stats.incInPart
  let writeLen := if cfg.sync && n < blockSize then blockSize else n
  let stats := if writeLen = blockSize then stats.incOutFull else stats.incOutPart
  stats.addBytes n

/-- The output after a write that succeeds. -/
def writeOk (block : List α) (out : OutState α ω) : Option (OutState α ω) :=
  match writeBlock O cfg "" block out with
  | (.ok _, out) => some out
  | (.error _, _) => none

variable {O cfg}

theorem writeBlock_ok_iff (context : String) {block : List α} {out out' : OutState α ω} :
    writeBlock O cfg context block out = (.ok (), out') ↔ writeOk O cfg block out = some out' := by
  simp only [writeOk, writeBlock]
  repeat' split
  all_goals simp_all

omit [Octet α] in
theorem length_swabbed (bytes : List α) : (swabbed cfg bytes).length = bytes.length := by
  simp only [swabbed]
  split <;> simp

omit [Octet α] in
theorem take_swabPrefix (buf : List α) (n : Nat) (h : n ≤ buf.length) :
    (swabPrefix cfg buf n).take n = swabbed cfg (buf.take n) := by
  simp only [swabPrefix, swabbed]
  split
  · rw [List.take_left']
    rw [length_swabBuffer, List.length_take, Nat.min_eq_left h]
  · rfl

/-- The buffer that comes back still starts with the bytes of the read, swabbed. -/
theorem take_padBlock (cfg : Config) (buf : List α) (n : Nat) (h : n ≤ buf.length) :
    (padBlock cfg buf n).1.take n = buf.take n ∧
      (padBlock cfg buf n).1.take (padBlock cfg buf n).2 =
        (if cfg.sync && n < effectiveBlockSize cfg then
          buf.take n ++ List.replicate (effectiveBlockSize cfg - n) Octet.zero
        else buf.take n) ∧
      (padBlock cfg buf n).2 = if cfg.sync && n < effectiveBlockSize cfg then
        effectiveBlockSize cfg else n := by
  have hn : (buf.take n).length = n := by rw [List.length_take, Nat.min_eq_left h]
  simp only [padBlock]
  split
  · rename_i hpad
    refine ⟨?_, ?_, rfl⟩
    · rw [List.take_left' hn]
    · simp only [Bool.and_eq_true, decide_eq_true_eq] at hpad
      rw [List.take_of_length_le]
      rw [List.length_append, hn, List.length_replicate]
      omega
  · exact ⟨rfl, rfl, rfl⟩

omit [Octet α] in
theorem length_swabPrefix (buf : List α) (n : Nat) :
    (swabPrefix cfg buf n).length = buf.length := by
  simp only [swabPrefix]
  split
  · rw [List.length_append, length_swabBuffer, ← List.length_append, List.take_append_drop]
  · rfl

/-- Delivering a message depends on its bytes only, not on the rest of its buffer. -/
theorem deliverBlock_ok_iff (context : String) (m : Message α) (out : OutState α ω)
    (stats : Stats) {out' : OutState α ω} {stats' : Stats} :
    (∃ buf', deliverBlock O cfg context m.buf m.n out stats = (.ok (), out', stats', buf')) ↔
      writeOk O cfg (outBlock cfg m.bytes) out = some out' ∧
        stats' = countBlock cfg stats m.n := by
  have hle : m.n ≤ (swabPrefix cfg m.buf m.n).length := by
    rw [length_swabPrefix]
    exact m.n_le
  obtain ⟨-, hblock, hlen⟩ := take_padBlock cfg _ _ hle
  rw [take_swabPrefix _ _ m.n_le] at hblock
  simp only [deliverBlock]
  generalize padBlock cfg (swabPrefix cfg m.buf m.n) m.n = p at hblock hlen ⊢
  have hout : p.1.take p.2 = outBlock cfg m.bytes := by
    rw [hblock, outBlock, m.length_bytes, Message.bytes]
  rw [hout, ← writeBlock_ok_iff context]
  rcases writeBlock O cfg context (outBlock cfg m.bytes) out with ⟨r, o⟩
  cases r with
  | error e => simp
  | ok u =>
    simp only [Prod.mk.injEq, true_and, exists_and_left, exists_eq', and_true, countBlock, hlen]
    exact and_congr Iff.rfl eq_comm

theorem deliverBlock_bytes {context : String} (m : Message α) {out out' : OutState α ω}
    {stats stats' : Stats} {buf' : List α} {r : Except String Unit}
    (h : deliverBlock O cfg context m.buf m.n out stats = (r, out', stats', buf')) :
    buf'.take m.n = swabbed cfg m.bytes := by
  have hle : m.n ≤ (swabPrefix cfg m.buf m.n).length := by
    rw [length_swabPrefix]
    exact m.n_le
  obtain ⟨htake, -, -⟩ := take_padBlock cfg _ _ hle
  have hbuf : buf' = (padBlock cfg (swabPrefix cfg m.buf m.n) m.n).1 := by
    simp only [deliverBlock] at h
    split at h
    · exact (Prod.mk.inj (Prod.mk.inj (Prod.mk.inj h).2).2).2.symm
    · exact (Prod.mk.inj (Prod.mk.inj (Prod.mk.inj h).2).2).2.symm
  rw [hbuf, htake, take_swabPrefix _ _ m.n_le, Message.bytes]

end Blocks

section Body

variable {I : Input α ρ} {O : Output α ω} {env : HashEnv η₂ η₃} {cfg : Config}

/-- The loop without a cancellation. -/
abbrev syncBody (I : Input α ρ) (O : Output α ω) (env : HashEnv η₂ η₃) (cfg : Config) :
    LoopState α ρ ω η₂ η₃ →
      LoopState α ρ ω η₂ η₃ ⊕ (Except String Unit × LoopState α ρ ω η₂ η₃) :=
  transferBody I O env cfg fun _ => false

/-- The loop is left here, having delivered what `y` has. -/
def Halts (I : Input α ρ) (O : Output α ω) (env : HashEnv η₂ η₃) (cfg : Config)
    (y : LoopState α ρ ω η₂ η₃) : Prop :=
  ∃ y', syncBody I O env cfg y = .inr (.ok (), y') ∧ y'.out = y.out ∧ y'.stats = y.stats ∧
    y'.hasher = y.hasher

variable {y : LoopState α ρ ω η₂ η₃}

theorem halts_of_limit (h : y.remainingBytes = some 0 ∨ y.remainingBlocks = some 0) :
    Halts I O env cfg y := by
  refine ⟨{ y with polls := y.polls + 1 }, ?_, rfl, rfl, rfl⟩
  simp only [syncBody, transferBody, Bool.false_eq_true, if_false]
  rcases h with h | h
  · rw [if_pos h]
  · by_cases hb : y.remainingBytes = some 0
    · rw [if_pos hb]
    · rw [if_neg hb, if_pos h]

variable {k : Nat} {input : ρ}

theorem halts_of_eof (hb : y.remainingBytes ≠ some 0) (hk : y.remainingBlocks ≠ some 0)
    (h : I.read y.input (toRead cfg y.remainingBytes) = (.data [], input)) :
    Halts I O env cfg y := by
  refine ⟨{ y with polls := y.polls + 1, input := input }, ?_, rfl, rfl, rfl⟩
  simp only [syncBody, transferBody, Bool.false_eq_true, if_false, if_neg hb, if_neg hk, h]

/-- An interrupted read, or a failed one that is passed over. -/
theorem syncBody_skip (hb : y.remainingBytes ≠ some 0) (hk : y.remainingBlocks ≠ some 0)
    (h : I.read y.input (toRead cfg y.remainingBytes) = (.interrupted, input) ∨
      cfg.noerror = true ∧ ∃ e, I.read y.input (toRead cfg y.remainingBytes) =
        (.failed e, input)) :
    syncBody I O env cfg y = .inl { y with polls := y.polls + 1, input := input } := by
  simp only [syncBody, transferBody, Bool.false_eq_true, if_false, if_neg hb, if_neg hk]
  rcases h with h | ⟨hn, e, h⟩
  · rw [h]
  · rw [h]
    simp only [hn, if_true]

theorem syncBody_block (env : HashEnv η₂ η₃) (hb : y.remainingBytes ≠ some 0)
    (hk : y.remainingBlocks ≠ some 0) {bytes : List α} {out : OutState α ω} (hne : bytes ≠ [])
    (h : I.read y.input (toRead cfg y.remainingBytes) = (.data bytes, input))
    (hw : writeOk O cfg (outBlock cfg bytes) y.out = some out) :
    ∃ y', syncBody I O env cfg y = .inl y' ∧ y'.input = input ∧ y'.out = out ∧
      y'.remainingBytes = y.remainingBytes.map (· - bytes.length) ∧
      y'.remainingBlocks = y.remainingBlocks.map (· - 1) ∧
      y'.stats = countBlock cfg y.stats bytes.length ∧
      y'.hasher = y.hasher.update env (swabbed cfg bytes) := by
  obtain ⟨b, bs, rfl⟩ := List.exists_cons_of_ne_nil hne
  obtain ⟨buf', hdel⟩ := (deliverBlock_ok_iff "Write error: "
    (Message.ofRead y.buffer (b :: bs)) y.out y.stats).mpr
    ⟨by rw [Message.bytes_ofRead]; exact hw, rfl⟩
  have hbuf := deliverBlock_bytes _ hdel
  rw [Message.bytes_ofRead] at hbuf
  simp only [Message.ofRead] at hdel hbuf
  refine ⟨{ y with
      polls := y.polls + 1, input := input, buffer := buf', out := out
      stats := countBlock cfg y.stats (b :: bs).length
      hasher := y.hasher.update env (swabbed cfg (b :: bs))
      remainingBytes := y.remainingBytes.map (· - (b :: bs).length)
      remainingBlocks := y.remainingBlocks.map (· - 1) }, ?_, rfl, rfl, rfl, rfl, rfl, rfl⟩
  simp only [syncBody, transferBody, Bool.false_eq_true, if_false, if_neg hb, if_neg hk, h, hdel,
    hbuf]

end Body

section Pending

def MainPhase.unwritten : MainPhase α → List (List α)
  | .got m => [m.bytes]
  | _ => []

def MainPhase.unhashed : MainPhase α → List (List α)
  | .handing m => [m.bytes]
  | _ => []

def ReaderPhase.unsent : ReaderPhase α → List (List α)
  | .sending m => [m.bytes]
  | _ => []

def HasherPhase.unhashed : HasherPhase α → List (List α)
  | .got m => [m.bytes]
  | _ => []

/-- The blocks read and not yet written, oldest first. -/
def unwritten (s : AsyncState α ρ ω η₂ η₃) : List (List α) :=
  s.main.unwritten ++ s.dataQ.map Message.bytes ++ s.reader.unsent

/-- The blocks read and not yet hashed, oldest first. -/
def unhashed (cfg : Config) (s : AsyncState α ρ ω η₂ η₃) : List (List α) :=
  s.hashing.unhashed ++ s.hashQ.map Message.bytes ++ s.main.unhashed ++
    (unwritten s).map (swabbed cfg)

/-- The output after writing some blocks, unless a write fails. -/
def writeAllOk (O : Output α ω) (cfg : Config) (out : OutState α ω) (blocks : List (List α)) :
    Option (OutState α ω) :=
  blocks.foldlM (fun out b => writeOk O cfg (outBlock cfg b) out) out

def countAll (cfg : Config) (stats : Stats) (blocks : List (List α)) : Stats :=
  blocks.foldl (fun stats b => countBlock cfg stats b.length) stats

def hashAll (env : HashEnv η₂ η₃) (h : InFlightHasher η₂ η₃) (blocks : List (List α)) :
    InFlightHasher η₂ η₃ :=
  blocks.foldl (fun h b => h.update env b) h

variable {O : Output α ω} {env : HashEnv η₂ η₃} {cfg : Config}

theorem writeAllOk_snoc (out : OutState α ω) (blocks : List (List α)) (b : List α) :
    writeAllOk O cfg out (blocks ++ [b]) =
      (writeAllOk O cfg out blocks).bind fun out => writeOk O cfg (outBlock cfg b) out := by
  simp only [writeAllOk, List.foldlM_append, List.foldlM_cons, List.foldlM_nil]
  cases List.foldlM (fun out b => writeOk O cfg (outBlock cfg b) out) out blocks with
  | none => rfl
  | some o => cases h : writeOk O cfg (outBlock cfg b) o <;> simp [h]

theorem writeAllOk_cons {out out' : OutState α ω} {blocks : List (List α)} {b : List α}
    (h : writeOk O cfg (outBlock cfg b) out = some out') :
    writeAllOk O cfg out (b :: blocks) = writeAllOk O cfg out' blocks := by
  simp [writeAllOk, h]

omit [Octet α] in
theorem countBlock_capacity (stats : Stats) (k n : Nat) :
    countBlock cfg { stats with asyncCapacity := k } n =
      { countBlock cfg stats n with asyncCapacity := k } := by
  simp only [countBlock]
  repeat' split
  all_goals rfl

omit [Octet α] in
theorem countBlock_asyncCapacity (stats : Stats) (n : Nat) :
    (countBlock cfg stats n).asyncCapacity = stats.asyncCapacity := by
  simp only [countBlock]
  repeat' split
  all_goals rfl

omit [Octet α] in
theorem countAll_cons (stats : Stats) (b : List α) (bs : List (List α)) :
    countAll cfg stats (b :: bs) = countAll cfg (countBlock cfg stats b.length) bs := rfl

theorem hashAll_none (blocks : List (List α)) :
    hashAll env (.none : InFlightHasher η₂ η₃) blocks = .none := by
  induction blocks with
  | nil => rfl
  | cons b bs ih => exact ih

end Pending

section Steps

variable {I : Input α ρ} {O : Output α ω} {env : HashEnv η₂ η₃} {cfg : Config}
variable {s t : AsyncState α ρ ω η₂ η₃} {a : AsyncAct}

def Failed (s : AsyncState α ρ ω η₂ η₃) : Prop := ∃ e, s.main = .returned (.error e)

/-- Some block read will not be written: the loop would have stopped there. -/
def Poisoned (O : Output α ω) (cfg : Config) (s : AsyncState α ρ ω η₂ η₃) : Prop :=
  s.mainLeft = false ∧ writeAllOk O cfg s.out (unwritten s) = none

omit [Octet α] in
theorem mainLeft_of_mainReturned (h : s.mainReturned = true) : s.mainLeft = true := by
  simp only [AsyncState.mainReturned] at h
  simp only [AsyncState.mainLeft]
  split at h <;> simp_all

omit [Octet α] in
/-- A read adds at most one block to what is not written. -/
theorem unwritten_afterRead (buf : List α) (k : Nat) (hr : s.reader = .reading buf k)
    (r : ReadResult α × ρ) :
    unwritten (afterRead cfg s buf r) = unwritten s ∨
      ∃ bytes, unwritten (afterRead cfg s buf r) = unwritten s ++ [bytes] := by
  have hs : unwritten s = s.main.unwritten ++ s.dataQ.map Message.bytes ++ [] := by
    rw [unwritten, hr]
    rfl
  rw [hs]
  obtain ⟨res, input⟩ := r
  cases res with
  | data bytes =>
    cases bytes with
    | nil => exact .inl rfl
    | cons b bs => exact .inr ⟨b :: bs, by simp [afterRead, unwritten, ReaderPhase.unsent]⟩
  | interrupted => exact .inl rfl
  | failed e =>
    left
    simp only [afterRead]
    split <;> rfl

omit [Octet α] in
theorem afterRead_out (s : AsyncState α ρ ω η₂ η₃) (buf : List α) (r : ReadResult α × ρ) :
    (afterRead cfg s buf r).out = s.out := by
  simp only [afterRead]
  repeat' split
  all_goals rfl

theorem step_failed (hf : Failed s) (h : AsyncStep I O env cfg s a t) : Failed t := by
  obtain ⟨e, he⟩ := hf
  refine ⟨e, ?_⟩
  cases h
  case readerReads k buf hr =>
    rw [(afterRead_eq cfg s buf _).1, he]
  case mainRecycles hm _ _ => simp [he] at hm
  case hasherRecycles hr =>
    rcases recycle_eq hr with ⟨-, rfl⟩ | ⟨-, rfl⟩ <;> exact he
  all_goals simp_all

theorem step_poisoned (hc : s.cancelled = false) (hp : Poisoned O cfg s)
    (h : AsyncStep I O env cfg s a t) : Failed t ∨ Poisoned O cfg t := by
  obtain ⟨hl, hw⟩ := hp
  cases h
  case readerReads k buf hr =>
    refine .inr ⟨?_, ?_⟩
    · simpa [AsyncState.mainLeft, (afterRead_eq cfg s buf _).1] using hl
    · rw [afterRead_out]
      rcases unwritten_afterRead buf k hr (I.read s.input k) with h | ⟨bytes, h⟩
      · rw [h, hw]
      · rw [h, writeAllOk_snoc, hw]
        rfl
  case mainDisconnects hm hq hd =>
    have hempty : unwritten s = [] := by
      cases hreader : s.reader <;>
        simp_all [unwritten, MainPhase.unwritten, ReaderPhase.unsent, AsyncState.readerDone]
    simp [hempty, writeAllOk] at hw
  case mainDelivers m m' out stats hm hdel hn =>
    obtain ⟨hok, -⟩ := (deliverBlock_ok_iff asyncContext m s.out s.stats).mp ⟨_, hdel⟩
    refine .inr ⟨rfl, ?_⟩
    simp only [unwritten, hm, MainPhase.unwritten, List.cons_append, List.nil_append] at hw ⊢
    rw [writeAllOk_cons hok] at hw
    exact hw
  case mainFails m e out stats buf hm hdel => exact .inl ⟨e, rfl⟩
  case readerSendFails m hr hret =>
    rw [mainLeft_of_mainReturned hret] at hl
    cases hl
  case mainRecycles hm _ hr =>
    right
    rcases recycle_eq hr with ⟨-, rfl⟩ | ⟨-, rfl⟩ <;>
      exact ⟨rfl, by simpa [unwritten, hm, MainPhase.unwritten] using hw⟩
  case hasherRecycles hr =>
    right
    rcases recycle_eq hr with ⟨-, rfl⟩ | ⟨-, rfl⟩ <;> exact ⟨hl, hw⟩
  all_goals
    simp_all [Poisoned, unwritten, MainPhase.unwritten, ReaderPhase.unsent, AsyncState.mainLeft,
      AsyncState.mainReturned]

def Synced (s : AsyncState α ρ ω η₂ η₃) (y : LoopState α ρ ω η₂ η₃) : Prop :=
  y.input = s.input ∧ y.remainingBytes = s.remBytes ∧ y.remainingBlocks = s.remBlocks

/-- The reader is where the loop would read next, or the loop ends where the reader did. -/
def ReaderSim (I : Input α ρ) (O : Output α ω) (env : HashEnv η₂ η₃) (cfg : Config)
    (s : AsyncState α ρ ω η₂ η₃) (y : LoopState α ρ ω η₂ η₃) : Prop :=
  match s.reader with
  | .done (.ok _) => Halts I O env cfg y
  | .done (.error _) => True
  | .waitBuf k | .reading _ k => Synced s y ∧ k = toRead cfg s.remBytes ∧
      s.remBytes ≠ some 0 ∧ s.remBlocks ≠ some 0
  | .check | .recycling _ | .sending _ => Synced s y

def Joined (s : AsyncState α ρ ω η₂ η₃) : Prop :=
  match s.main with
  | .joinReader => s.hashing = .done
  | .returned (.ok _) => s.hashing = .done ∧ ∃ n, s.reader = .done (.ok n)
  | _ => True

/-- The loop state `y` is what the pipeline in state `s` comes to once what has been read is written
and hashed. -/
structure Sim (I : Input α ρ) (O : Output α ω) (env : HashEnv η₂ η₃) (cfg : Config)
    (s : AsyncState α ρ ω η₂ η₃) (y : LoopState α ρ ω η₂ η₃) : Prop where
  writing : s.mainLeft = false → writeAllOk O cfg s.out (unwritten s) = some y.out
  finished : s.mainLeft = true →
    unwritten s = [] ∧ s.out = finishOut O cfg y.out ∧ s.readerDone = true
  counts : countAll cfg s.stats (unwritten s) =
    { y.stats with asyncCapacity := s.stats.asyncCapacity }
  hashes : hashAll env s.hasher (unhashed cfg s) = y.hasher
  noHash : cfg.hashAlgo = .none → s.hasher = .none
  reading : ReaderSim I O env cfg s y
  joined : Joined s

variable {y : LoopState α ρ ω η₂ η₃}

/-- Steps that only move what is pending along. -/
theorem Sim.of_eq (h : Sim I O env cfg s y) (hleft : t.mainLeft = s.mainLeft) (hout : t.out = s.out)
    (hstats : t.stats = s.stats) (hhasher : t.hasher = s.hasher) (hw : unwritten t = unwritten s)
    (hh : unhashed cfg t = unhashed cfg s) (hdone : s.readerDone = true → t.readerDone = true)
    (hr : ReaderSim I O env cfg t y) (hj : Joined t) : Sim I O env cfg t y := by
  refine ⟨?_, ?_, ?_, ?_, ?_, hr, hj⟩
  · rw [hleft, hout, hw]
    exact h.writing
  · rw [hleft, hout, hw]
    intro hl
    obtain ⟨h1, h2, h3⟩ := h.finished hl
    exact ⟨h1, h2, hdone h3⟩
  · rw [hstats, hw]
    exact h.counts
  · rw [hhasher, hh]
    exact h.hashes
  · rw [hhasher]
    exact h.noHash

theorem Sim.mainLeft_of_reader (h : Sim I O env cfg s y) (hr : s.readerDone = false) :
    s.mainLeft = false := by
  by_contra hl
  rw [Bool.not_eq_false] at hl
  rw [(h.finished hl).2.2] at hr
  cases hr

omit [Octet α] in
theorem joined_of_not_left (h : s.mainLeft = false) : Joined s := by
  simp only [AsyncState.mainLeft] at h
  simp only [Joined]
  split at h <;> simp_all

omit [Octet α] in
theorem unwritten_reading {k : Nat} {buf : List α} (hr : s.reader = .reading buf k) :
    unwritten s = s.main.unwritten ++ s.dataQ.map Message.bytes := by
  rw [unwritten, hr]
  exact List.append_nil _

/-- A read that gave nothing, to be made again. -/
theorem Sim.skip (h : Sim I O env cfg s y) {k : Nat} {buf : List α}
    (hr : s.reader = .reading buf k) (input : ρ) :
    Sim I O env cfg { s with input := input, reader := .recycling buf }
      { y with polls := y.polls + 1, input := input } := by
  have hreading := h.reading
  simp only [ReaderSim, hr] at hreading
  have hleft := h.mainLeft_of_reader (by simp [AsyncState.readerDone, hr])
  have hw : unwritten { s with input := input, reader := .recycling buf } = unwritten s := by
    rw [unwritten_reading hr]
    exact List.append_nil _
  have hh : unhashed cfg { s with input := input, reader := .recycling buf } = unhashed cfg s := by
    rw [unhashed, hw, unhashed]
  refine ⟨?_, ?_, ?_, ?_, h.noHash, ⟨rfl, hreading.1.2.1, hreading.1.2.2⟩,
    joined_of_not_left hleft⟩
  · rw [hw]
    exact h.writing
  · intro hl
    rw [show AsyncState.mainLeft { s with input := input, reader := .recycling buf } =
      s.mainLeft from rfl, hleft] at hl
    cases hl
  · rw [hw]
    exact h.counts
  · rw [hh]
    exact h.hashes

/-- What a read does: the loop goes on in step with the reader, or it would fail where the writer
will. -/
theorem step_sim_read (h : Sim I O env cfg s y) {k : Nat} {buf : List α}
    (hr : s.reader = .reading buf k) :
    Poisoned O cfg (afterRead cfg s buf (I.read s.input k)) ∨
      ∃ y', Iterates (syncBody I O env cfg) y y' ∧
        Sim I O env cfg (afterRead cfg s buf (I.read s.input k)) y' := by
  have hreading := h.reading
  simp only [ReaderSim, hr] at hreading
  obtain ⟨⟨hin, hbytes, hblocks⟩, rfl, hb, hk⟩ := hreading
  rw [← hbytes] at hb
  rw [← hblocks] at hk
  have hleft := h.mainLeft_of_reader (by simp [AsyncState.readerDone, hr])
  have hs := unwritten_reading hr
  rcases hread : I.read s.input (toRead cfg s.remBytes) with ⟨res, input⟩
  have hread' := hread
  rw [← hin, ← hbytes] at hread'
  cases res with
  | data bytes =>
    cases bytes with
    | nil =>
      refine .inr ⟨y, .refl y, h.of_eq rfl rfl rfl rfl ?_ ?_ (fun _ => rfl) ?_ ?_⟩
      · rw [hs]
        exact List.append_nil _
      · rw [unhashed, unhashed, hs, ← List.append_nil (_ ++ s.dataQ.map _)]
        rfl
      · exact halts_of_eof hb hk hread'
      · exact joined_of_not_left hleft
    | cons b bs =>
      have hw := h.writing hleft
      have hsnoc : unwritten (afterRead cfg s buf (.data (b :: bs), input)) =
          unwritten s ++ [b :: bs] := by
        rw [hs]
        exact congrArg (fun b => s.main.unwritten ++ s.dataQ.map Message.bytes ++ [b])
          (Message.bytes_ofRead buf (b :: bs))
      have hunh : unhashed cfg (afterRead cfg s buf (.data (b :: bs), input)) =
          unhashed cfg s ++ [swabbed cfg (b :: bs)] := by
        rw [unhashed, hsnoc, unhashed, List.map_append, ← List.append_assoc]
        rfl
      cases hnext : writeOk O cfg (outBlock cfg (b :: bs)) y.out with
      | none =>
        refine .inl ⟨hleft, ?_⟩
        rw [hsnoc, writeAllOk_snoc, afterRead_out, hw]
        exact hnext
      | some out =>
        obtain ⟨y', hstep, h1, h2, h3, h4, h5, h6⟩ :=
          syncBody_block env hb hk (List.cons_ne_nil b bs) hread' hnext
        refine .inr ⟨y', .tail (.refl y) hstep, ?_, ?_, ?_, ?_, h.noHash, ?_, ?_⟩
        · intro _
          rw [hsnoc, writeAllOk_snoc, afterRead_out, hw, h2]
          exact hnext
        · intro hl
          rw [show (afterRead cfg s buf (.data (b :: bs), input)).mainLeft = s.mainLeft from rfl,
            hleft] at hl
          cases hl
        · rw [hsnoc]
          have hc := h.counts
          simp only [countAll, List.foldl_append, List.foldl_cons, List.foldl_nil] at hc ⊢
          rw [h5, ← countBlock_capacity]
          exact congrArg (fun st => countBlock cfg st (b :: bs).length) hc
        · rw [hunh, h6]
          have hh := h.hashes
          simp only [hashAll, List.foldl_append, List.foldl_cons, List.foldl_nil] at hh ⊢
          exact congrArg (fun e => InFlightHasher.update env e (swabbed cfg (b :: bs))) hh
        · refine ⟨h1, ?_, ?_⟩
          · rw [h3, hbytes]
            rfl
          · rw [h4, hblocks]
            rfl
        · exact joined_of_not_left hleft
  | interrupted =>
    exact .inr ⟨_, .tail (.refl y) (syncBody_skip hb hk (.inl hread')), h.skip hr input⟩
  | failed e =>
    simp only [afterRead]
    split
    · rename_i hn
      exact .inr ⟨_, .tail (.refl y) (syncBody_skip hb hk (.inr ⟨hn, e, hread'⟩)),
        h.skip hr input⟩
    · refine .inr ⟨y, .refl y, h.of_eq rfl rfl rfl rfl ?_ ?_ (fun _ => rfl) trivial ?_⟩
      · rw [hs]
        exact List.append_nil _
      · rw [unhashed, unhashed, hs, ← List.append_nil (_ ++ s.dataQ.map _)]
        rfl
      · exact joined_of_not_left hleft

/-- A reader step other than a read: what it holds may move to the data queue. -/
theorem Sim.readerStep (h : Sim I O env cfg s y) {r : ReaderPhase α} {recycleQ : List (List α)}
    {dataQ : List (Message α)} (hr : s.readerDone = false)
    (hunsent : dataQ.map Message.bytes ++ r.unsent =
      s.dataQ.map Message.bytes ++ s.reader.unsent)
    (hread : ReaderSim I O env cfg { s with reader := r, recycleQ := recycleQ, dataQ := dataQ } y) :
    Sim I O env cfg { s with reader := r, recycleQ := recycleQ, dataQ := dataQ } y := by
  have hleft := h.mainLeft_of_reader hr
  have hw : unwritten { s with reader := r, recycleQ := recycleQ, dataQ := dataQ } =
      unwritten s := by
    rw [unwritten, unwritten, List.append_assoc, List.append_assoc, hunsent]
  refine h.of_eq rfl rfl rfl rfl hw ?_ ?_ hread (joined_of_not_left hleft)
  · rw [unhashed, unhashed, hw]
  · intro hd
    rw [hr] at hd
    cases hd

omit [Octet α] in
/-- While the hasher runs it has not been joined. -/
theorem Joined.of_hashing (h : Joined s) (hh : s.hashing ≠ .done) (hm : t.main = s.main) :
    Joined t := by
  simp only [Joined, hm] at h ⊢
  split at h
  · exact absurd h hh
  · exact absurd h.1 hh
  · trivial

theorem ReaderSim.of_eq (h : ReaderSim I O env cfg s y) (hr : t.reader = s.reader)
    (hin : t.input = s.input) (hb : t.remBytes = s.remBytes) (hk : t.remBlocks = s.remBlocks) :
    ReaderSim I O env cfg t y := by
  simp only [ReaderSim, Synced, hr, hin, hb, hk] at h ⊢
  exact h

omit [Octet α] in
theorem unwritten_recv_done (hm : s.main = .recv) (hq : s.dataQ = []) (hd : s.readerDone = true) :
    unwritten s = [] := by
  cases hr : s.reader <;>
    simp_all [unwritten, MainPhase.unwritten, ReaderPhase.unsent, AsyncState.readerDone]

/-- Writing one block off. -/
theorem Sim.deliver (h : Sim I O env cfg s y) {m m' : Message α} {out : OutState α ω}
    {stats : Stats} (hm : s.main = .got m)
    (hdel : deliverBlock O cfg asyncContext m.buf m.n s.out s.stats = (.ok (), out, stats, m'.buf))
    (hn : m'.n = m.n) :
    Sim I O env cfg { s with main := .handing m', out := out, stats := stats } y := by
  obtain ⟨hok, hstats⟩ := (deliverBlock_ok_iff asyncContext m s.out s.stats).mp ⟨_, hdel⟩
  have hbytes : m'.bytes = swabbed cfg m.bytes := by
    rw [Message.bytes, hn]
    exact deliverBlock_bytes m hdel
  have hleft : s.mainLeft = false := by simp [AsyncState.mainLeft, hm]
  have hw : unwritten s =
      m.bytes :: unwritten { s with main := .handing m', out := out, stats := stats } := by
    simp [unwritten, hm, MainPhase.unwritten]
  have hcap : stats.asyncCapacity = s.stats.asyncCapacity := by
    rw [hstats, countBlock_asyncCapacity]
  have hwriting := h.writing hleft
  have hcounts := h.counts
  have hhashes := h.hashes
  rw [hw] at hwriting hcounts
  refine ⟨fun _ => ?_, fun hl => ?_, ?_, ?_, h.noHash, h.reading.of_eq rfl rfl rfl rfl, trivial⟩
  · rwa [writeAllOk_cons hok] at hwriting
  · simp [AsyncState.mainLeft] at hl
  · rw [hcap, ← hcounts, countAll_cons, m.length_bytes, ← hstats]
  · rw [← hhashes]
    congr 1
    simp only [unhashed, hw, hm, MainPhase.unhashed, List.map_cons, ← hbytes]
    simp

theorem step_sim (hc : t.cancelled = false) (h : Sim I O env cfg s y)
    (hst : AsyncStep I O env cfg s a t) :
    Failed t ∨ Poisoned O cfg t ∨
      ∃ y', Iterates (syncBody I O env cfg) y y' ∧ Sim I O env cfg t y' := by
  have same : ∀ {t}, Sim I O env cfg t y → Failed t ∨ Poisoned O cfg t ∨
      ∃ y', Iterates (syncBody I O env cfg) y y' ∧ Sim I O env cfg t y' :=
    fun ht => .inr (.inr ⟨y, .refl y, ht⟩)
  have hread := h.reading
  cases hst
  case setCancel => cases hc
  case readerSeesCancel hcancel => rw [hcancel] at hc; cases hc
  case mainCancels hcancel => rw [hcancel] at hc; cases hc
  case readerStops hr hlimit =>
    simp only [ReaderSim, hr] at hread
    have hhalt : Halts I O env cfg y := halts_of_limit (hread.2.1 ▸ hread.2.2 ▸ hlimit)
    exact same (h.readerStep (by simp [AsyncState.readerDone, hr]) (by simp [hr, ReaderPhase.unsent])
      hhalt)
  case readerPasses hr hb hk =>
    simp only [ReaderSim, hr] at hread
    exact same (h.readerStep (by simp [AsyncState.readerDone, hr]) (by simp [hr, ReaderPhase.unsent])
      ⟨hread, rfl, hb, hk⟩)
  case readerTakes k buf q hr hq =>
    simp only [ReaderSim, hr] at hread
    exact same (h.readerStep (by simp [AsyncState.readerDone, hr]) (by simp [hr, ReaderPhase.unsent])
      hread)
  case readerReads k buf hr => exact .inr (step_sim_read h hr)
  case readerRecycles buf hr hroom =>
    simp only [ReaderSim, hr] at hread
    exact same (h.readerStep (by simp [AsyncState.readerDone, hr]) (by simp [hr, ReaderPhase.unsent])
      hread)
  case readerSends m hr hret hroom =>
    simp only [ReaderSim, hr] at hread
    exact same (h.readerStep (by simp [AsyncState.readerDone, hr]) (by simp [hr, ReaderPhase.unsent])
      hread)
  case readerSendFails m hr hret =>
    have hleft := h.mainLeft_of_reader (by simp [AsyncState.readerDone, hr])
    rw [mainLeft_of_mainReturned hret] at hleft
    cases hleft
  case mainReceives m q hm hq =>
    refine same (h.of_eq ?_ rfl rfl rfl ?_ ?_ id (hread.of_eq rfl rfl rfl rfl) trivial)
    · simp [AsyncState.mainLeft, hm]
    · simp [unwritten, hm, hq, MainPhase.unwritten]
    · simp [unhashed, unwritten, hm, hq, MainPhase.unwritten, MainPhase.unhashed]
  case mainDisconnects hm hq hd =>
    have hempty := unwritten_recv_done hm hq hd
    have hleft : s.mainLeft = false := by simp [AsyncState.mainLeft, hm]
    have hw := h.writing hleft
    have hempty' : unwritten { s with main := .joinHasher, out := finishOut O cfg s.out } = [] := by
      rw [← hempty]
      simp [unwritten, hm, MainPhase.unwritten]
    have hout : s.out = y.out := by
      rw [hempty] at hw
      exact Option.some.inj hw
    refine same ⟨?_, fun _ => ⟨hempty', by rw [hout], hd⟩, ?_, ?_, h.noHash,
      hread.of_eq rfl rfl rfl rfl, trivial⟩
    · intro hl
      simp [AsyncState.mainLeft] at hl
    · rw [hempty', ← hempty]
      exact h.counts
    · rw [← h.hashes]
      congr 1
      simp [unhashed, hempty, hempty', hm, MainPhase.unhashed]
  case mainDelivers m m' out stats hm hdel hn => exact same (h.deliver hm hdel hn)
  case mainFails m e out stats buf hm hdel => exact .inl ⟨e, rfl⟩
  case mainHashes m hm ha hroom =>
    refine same (h.of_eq ?_ rfl rfl rfl ?_ ?_ id (hread.of_eq rfl rfl rfl rfl) trivial)
    · simp [AsyncState.mainLeft, hm]
    · simp [unwritten, hm, MainPhase.unwritten]
    · simp [unhashed, unwritten, hm, MainPhase.unwritten, MainPhase.unhashed]
  case mainRecycles t m hm ha hrec =>
    have hnone := h.noHash ha
    have hy : y.hasher = .none := by
      rw [← h.hashes, hnone, hashAll_none]
    have hleft : s.mainLeft = false := by simp [AsyncState.mainLeft, hm]
    have hsim : ∀ q, Sim I O env cfg { s with recycleQ := q, main := .recv } y := by
      intro q
      have hw : unwritten { s with recycleQ := q, main := .recv } = unwritten s := by
        simp [unwritten, hm, MainPhase.unwritten]
      refine ⟨fun _ => ?_, fun hl => ?_, ?_, ?_, h.noHash, hread.of_eq rfl rfl rfl rfl, trivial⟩
      · rw [hw]
        exact h.writing hleft
      · simp [AsyncState.mainLeft] at hl
      · rw [hw]
        exact h.counts
      · rw [hy, hnone]
        exact hashAll_none _
    rcases recycle_eq hrec with ⟨-, rfl⟩ | ⟨-, rfl⟩
    · exact same (hsim _)
    · exact same (hsim _)
  case mainJoinsHasher hm hh =>
    refine same (h.of_eq ?_ rfl rfl rfl ?_ ?_ id (hread.of_eq rfl rfl rfl rfl) hh)
    · simp [AsyncState.mainLeft, hm]
    · simp [unwritten, hm, MainPhase.unwritten]
    · simp [unhashed, unwritten, hm, MainPhase.unwritten, MainPhase.unhashed]
  case mainJoinsReader r hm hr =>
    cases r with
    | error e => exact .inl ⟨e, rfl⟩
    | ok n =>
      have hj := h.joined
      simp only [Joined, hm] at hj
      refine same (h.of_eq ?_ rfl rfl rfl ?_ ?_ id (hread.of_eq rfl rfl rfl rfl) ⟨hj, n, hr⟩)
      · simp [AsyncState.mainLeft, hm]
      · simp [unwritten, hm, MainPhase.unwritten]
      · simp [unhashed, unwritten, hm, MainPhase.unwritten, MainPhase.unhashed]
  case hasherReceives m q hh hq =>
    refine same (h.of_eq rfl rfl rfl rfl rfl ?_ id (hread.of_eq rfl rfl rfl rfl)
      (h.joined.of_hashing (by simp [hh]) rfl))
    simp [unhashed, unwritten, hh, hq, HasherPhase.unhashed]
  case hasherEnds hh hq hl =>
    refine same (h.of_eq rfl rfl rfl rfl rfl ?_ id (hread.of_eq rfl rfl rfl rfl)
      (h.joined.of_hashing (by simp [hh]) rfl))
    simp [unhashed, unwritten, hh, hq, HasherPhase.unhashed]
  case hasherUpdates m hh =>
    have hun : unhashed cfg s = m.bytes :: unhashed cfg { s with
        hashing := .recycling m.buf, hasher := s.hasher.update env m.bytes } := by
      simp [unhashed, unwritten, hh, HasherPhase.unhashed]
    refine same ⟨h.writing, h.finished, h.counts, ?_, fun ha => ?_, hread.of_eq rfl rfl rfl rfl,
      h.joined.of_hashing (by simp [hh]) rfl⟩
    · rw [← h.hashes, hun]
      rfl
    · rw [h.noHash ha]
      rfl
  case hasherRecycles t buf hh hrec =>
    have hsim : ∀ q, Sim I O env cfg { s with recycleQ := q, hashing := .recv } y := by
      intro q
      refine h.of_eq rfl rfl rfl rfl rfl ?_ id (hread.of_eq rfl rfl rfl rfl)
        (h.joined.of_hashing (by simp [hh]) rfl)
      simp [unhashed, unwritten, hh, HasherPhase.unhashed]
    rcases recycle_eq hrec with ⟨-, rfl⟩ | ⟨-, rfl⟩
    · exact same (hsim _)
    · exact same (hsim _)

omit [Octet α] in
theorem afterRead_cancelled (s : AsyncState α ρ ω η₂ η₃) (buf : List α) (r : ReadResult α × ρ) :
    (afterRead cfg s buf r).cancelled = s.cancelled := by
  simp only [afterRead]
  repeat' split
  all_goals rfl

/-- The cancel flag is never reset. -/
theorem step_cancelled (h : AsyncStep I O env cfg s a t) (hc : t.cancelled = false) :
    s.cancelled = false := by
  cases h
  case setCancel => cases hc
  case readerReads k buf hr => rwa [afterRead_cancelled] at hc
  case mainRecycles t m hm ha hr =>
    rcases recycle_eq hr with ⟨-, rfl⟩ | ⟨-, rfl⟩ <;> exact hc
  case hasherRecycles t buf hh hr =>
    rcases recycle_eq hr with ⟨-, rfl⟩ | ⟨-, rfl⟩ <;> exact hc
  all_goals exact hc

end Steps

section Runs

variable {I : Input α ρ} {O : Output α ω} {env : HashEnv η₂ η₃} {cfg : Config}
variable {s : AsyncState α ρ ω η₂ η₃} {input : ρ} {file : ω} {stats : Stats}

theorem sim_start : Sim I O env cfg (AsyncState.start env cfg input file stats)
    (LoopState.start env cfg input file stats) := by
  refine ⟨fun _ => rfl, fun hl => ?_, rfl, rfl, fun ha => ?_, ⟨rfl, rfl, rfl⟩, trivial⟩
  · cases hl
  · simp [AsyncState.start, InFlightHasher.new, ha]

/-- The pipeline as it is followed by the loop, until a write fails. -/
def Followed (I : Input α ρ) (O : Output α ω) (env : HashEnv η₂ η₃) (cfg : Config)
    (y₀ : LoopState α ρ ω η₂ η₃) (s : AsyncState α ρ ω η₂ η₃) : Prop :=
  s.cancelled = false → Failed s ∨ Poisoned O cfg s ∨
    ∃ y, Iterates (syncBody I O env cfg) y₀ y ∧ Sim I O env cfg s y

theorem followed_of_reachable (h : (asyncSystem I O env cfg input file stats).Reachable s) :
    Followed I O env cfg (LoopState.start env cfg input file stats) s := by
  refine h.invariant ?_ (fun s a t hi hst hc => ?_)
  · rintro s rfl _
    exact .inr (.inr ⟨_, .refl _, sim_start⟩)
  · rcases hi (step_cancelled hst hc) with hf | hp | ⟨y, hy, hsim⟩
    · exact .inl (step_failed hf hst)
    · rcases step_poisoned (step_cancelled hst hc) hp hst with hf | hp
      · exact .inl hf
      · exact .inr (.inl hp)
    · rcases step_sim hc hsim hst with hf | hp | ⟨y', hy', hsim'⟩
      · exact .inl hf
      · exact .inr (.inl hp)
      · exact .inr (.inr ⟨y', hy.trans hy', hsim'⟩)

theorem hasherEnded_of_reachable (h : (asyncSystem I O env cfg input file stats).Reachable s) :
    HasherEnded s := by
  refine h.invariant (I := HasherEnded) ?_ (fun s a t hi hst => step_hasherEnded hi hst)
  rintro s rfl hd
  cases hd

/-- A run that has returned is followed by the loop to its end. -/
theorem asyncSystem_refines (h : (asyncSystem I O env cfg input file stats).Reachable s)
    (hc : s.cancelled = false) (hr : s.main = .returned (.ok ())) :
    ∃ fuel y, transferLoop I O env cfg (fun _ => false) fuel
        (LoopState.start env cfg input file stats) = some (.ok (), y) ∧
      s.out = y.out ∧ s.stats = { y.stats with asyncCapacity := s.stats.asyncCapacity } ∧
      s.hasher.finalizeString env = y.hasher.finalizeString env := by
  have hleft : s.mainLeft = true := by simp [AsyncState.mainLeft, hr]
  rcases followed_of_reachable h hc with ⟨e, he⟩ | ⟨hl, -⟩ | ⟨y, hy, hsim⟩
  · rw [hr] at he
    cases he
  · rw [hleft] at hl
    cases hl
  · obtain ⟨hw, hout, -⟩ := hsim.finished hleft
    have hj := hsim.joined
    simp only [Joined, hr] at hj
    obtain ⟨hdone, n, hreader⟩ := hj
    have hhalt := hsim.reading
    simp only [ReaderSim, hreader] at hhalt
    obtain ⟨y', hleaves, h1, h2, h3⟩ := hhalt
    obtain ⟨fuel, hfuel⟩ := runLoop_of_leaves hy hleaves
    have hhash : s.hasher = y.hasher := by
      rw [← hsim.hashes]
      simp [unhashed, hw, hdone, (hasherEnded_of_reachable h hdone).1, hr, HasherPhase.unhashed,
        MainPhase.unhashed, hashAll]
    have hcounts := hsim.counts
    rw [hw] at hcounts
    refine ⟨fuel, { y' with out := finishOut O cfg y'.out }, ?_, ?_, ?_, ?_⟩
    · rw [transferLoop, hfuel]
      rfl
    · rw [hout, ← h1]
    · rw [h2]
      exact hcounts
    · rw [hhash, ← h3]

/-- A completed run of the pipeline, without a cancellation and without an error, leaves what the
synchronous loop leaves on the same input: the output with the calls made on it, the counters, and
the digest. -/
theorem async_refines_sync (h : (asyncSystem I O env cfg input file stats).Reachable s)
    (hc : s.cancelled = false) (hr : s.main = .returned (.ok ())) :
    ∃ fuel y, transferLoop I O env cfg (fun _ => false) fuel
        (LoopState.start env cfg input file stats) = some (.ok (), y) ∧
      s.out = y.out ∧ s.stats = { y.stats with asyncCapacity := s.stats.asyncCapacity } ∧
      s.hasher.finalizeString env = y.hasher.finalizeString env :=
  asyncSystem_refines h hc hr

end Runs

section Example
open Blks

/-- One byte through the pipeline of one buffer. -/
theorem async_refines_sync_oneBuffer : ∃ s fuel y,
    (asyncSystem (streamInput fun _ => some 2) contentOutput noCrates oneBuffer ⟨[7], 0⟩ ([], 0)
      {}).Reachable s ∧ s.out.file.1 = [7] ∧
      transferLoop (streamInput fun _ => some 2) contentOutput noCrates oneBuffer (fun _ => false)
        fuel (LoopState.start noCrates oneBuffer (⟨[7], 0⟩ : Stream Byte) ([], 0) {}) =
          some (.ok (), y) ∧ s.out = y.out := by
  have start : (asyncSystem (streamInput fun _ => some 2) contentOutput noCrates oneBuffer
      ⟨[(7 : Byte)], 0⟩ ([], 0) {}).Reachable
    (AsyncState.start noCrates oneBuffer ⟨[7], 0⟩ ([], 0) {}) := .init rfl
  have passes := start.step (.readerPasses _ rfl (by decide) (by decide))
  have takes := passes.step (.readerTakes _ _ _ [] rfl rfl)
  have reads := takes.step (.readerReads _ _ _ rfl)
  have sends := reads.step (.readerSends _ _ rfl rfl (by decide))
  have receives := sends.step (.mainReceives _ _ [] rfl rfl)
  have delivers := receives.step (.mainDelivers _ _ ⟨[7, 0], 1, by decide⟩ _ _ rfl rfl rfl)
  have hands := delivers.step (.mainRecycles _ _ _ rfl rfl rfl)
  have passes' := hands.step (.readerPasses _ rfl (by decide) (by decide))
  have takes' := passes'.step (.readerTakes _ _ _ [] rfl rfl)
  have ends := takes'.step (.readerReads _ _ _ rfl)
  have disconnects := ends.step (.mainDisconnects _ rfl rfl rfl)
  have hashed := disconnects.step (.hasherEnds _ rfl rfl rfl)
  have joins := hashed.step (.mainJoinsHasher _ rfl rfl)
  have returns := joins.step (.mainJoinsReader _ _ rfl rfl)
  obtain ⟨fuel, y, hloop, hout, -, -⟩ := async_refines_sync returns rfl rfl
  exact ⟨_, fuel, y, returns, rfl, hloop, hout⟩

end Example

end Blkcp.Rust
