import Blkcp.Rust.Cancelled
import Blkcp.Rust.Tally
set_option autoImplicit false

/-! What the copies that run in several threads add to the counters. -/

namespace Blkcp.Rust
open Blkcp.Lib Blkcp.Blks

variable {cfg : Config} {before : Stats}

section Async

variable {α ρ ω η₂ η₃ : Type} [Octet α] {I : Input α ρ} {O : Output α ω} {env : HashEnv η₂ η₃}
  {rest : ρ → List α} {s t : AsyncState α ρ ω η₂ η₃} {a : AsyncAct} {delivered : Nat}
  {pieces : List Nat}

/-- How the bytes that the writer has delivered follow the steps. -/
def trackDelivered (delivered : Nat) (s : AsyncState α ρ ω η₂ η₃) : AsyncAct → Nat
  | .mainDelivers =>
    match s.main with
    | .got m => delivered + m.n
    | _ => delivered
  | _ => delivered

def ReaderPhase.Asks (cfg : Config) (remaining : Option Nat) : ReaderPhase α → Prop
  | .waitBuf k | .reading _ k => k = toRead cfg remaining
  | _ => True

/-- The blocks delivered are counted. As long as the writer is in its loop they are followed by those
that are on their way, and by what the reader will read. -/
structure AsyncTally (cfg : Config) (rest : ρ → List α) (before : Stats) (pieces : List Nat)
    (s : AsyncState α ρ ω η₂ η₃) : Prop where
  tally : Tally (effectiveBlockSize cfg) before pieces s.stats
  even : Evenly (effectiveBlockSize cfg) pieces
  ahead : s.mainLeft = false →
    Cutting (effectiveBlockSize cfg) (pieces ++ (unwritten s).map List.length) s.remBytes
      (rest s.input).length ∧ s.reader.Asks cfg s.remBytes

omit [Octet α] in
/-- Steps that only move blocks along. -/
theorem AsyncTally.of_eq (h : AsyncTally cfg rest before pieces s)
    (hleft : t.mainLeft = s.mainLeft) (hstats : t.stats = s.stats)
    (hw : unwritten t = unwritten s) (hrem : t.remBytes = s.remBytes)
    (hinput : rest t.input = rest s.input)
    (hasks : s.reader.Asks cfg s.remBytes → t.reader.Asks cfg t.remBytes) :
    AsyncTally cfg rest before pieces t where
  tally := hstats ▸ h.tally
  even := h.even
  ahead hl := by
    obtain ⟨hcut, hreader⟩ := h.ahead (hleft ▸ hl)
    rw [hw, hrem, hinput]
    exact ⟨hcut, hrem ▸ hasks hreader⟩

omit [Octet α] in
/-- The writer leaves its loop, or has left it. -/
theorem AsyncTally.left (h : AsyncTally cfg rest before pieces s) (hstats : t.stats = s.stats)
    (hleft : t.mainLeft = true) : AsyncTally cfg rest before pieces t where
  tally := hstats ▸ h.tally
  even := h.even
  ahead hl := by
    rw [hleft] at hl
    cases hl

omit [Octet α] in
theorem AsyncTally.read (law : ReadsFrom I rest) (hfull : FullReads I rest)
    (h : AsyncTally cfg rest before pieces s) {k : Nat} {buf : List α}
    (hr : s.reader = .reading buf k) :
    AsyncTally cfg rest before pieces (afterRead cfg s buf (I.read s.input k)) := by
  have hunsent : unwritten s = s.main.unwritten ++ s.dataQ.map Message.bytes := by
    rw [unwritten, hr]
    exact List.append_nil _
  generalize hread : I.read s.input k = r
  obtain ⟨res, input⟩ := r
  cases res with
  | interrupted =>
    exact h.of_eq rfl rfl (by rw [hunsent]; exact List.append_nil _) rfl (law.interrupted hread)
      fun _ => trivial
  | failed e =>
    simp only [afterRead]
    split
    all_goals
      exact h.of_eq rfl rfl (by rw [hunsent]; exact List.append_nil _) rfl (law.failed hread)
        fun _ => trivial
  | data bytes =>
    cases bytes with
    | nil =>
      refine h.of_eq rfl rfl (by rw [hunsent]; exact List.append_nil _) rfl ?_ fun _ => trivial
      exact (law.data hread).1.symm
    | cons b bytes =>
      refine ⟨h.tally, h.even, fun hl => ⟨?_, trivial⟩⟩
      obtain ⟨hcut, hasks⟩ := h.ahead hl
      rw [hr] at hasks
      obtain rfl : k = toRead cfg s.remBytes := hasks
      have hnext := hcut.next (hfull hread) (Nat.succ_pos _)
      have hleft : (rest input).length = (rest s.input).length - (b :: bytes).length := by
        rw [(law.data hread).1, List.length_append, Nat.add_sub_cancel_left]
      have hsent : (unwritten (afterRead cfg s buf (.data (b :: bytes), input))).map List.length =
          (unwritten s).map List.length ++ [(b :: bytes).length] := by
        rw [hunsent]
        simp [afterRead, unwritten, ReaderPhase.unsent]
      rw [← hleft, List.append_assoc, ← hsent] at hnext
      exact hnext

theorem asyncStep_tally (hsync : cfg.sync = false) (law : ReadsFrom I rest)
    (hfull : FullReads I rest) (h : AsyncTally cfg rest before pieces s) (hsum : pieces.sum = delivered)
    (hst : AsyncStep I O env cfg s a t) :
    Failed t ∨ ∃ pieces, AsyncTally cfg rest before pieces t ∧
      pieces.sum = trackDelivered delivered s a := by
  cases hst
  case readerReads k buf hr => exact .inr ⟨pieces, h.read law hfull hr, hsum⟩
  case mainFails m e out stats buf hm hdel => exact .inl ⟨e, rfl⟩
  case mainDelivers m m' out stats hm hdel hn =>
    obtain ⟨-, hstats⟩ := (deliverBlock_ok_iff asyncContext m s.out s.stats).mp ⟨_, hdel⟩
    have hleft : s.mainLeft = false := by rw [AsyncState.mainLeft, hm]
    obtain ⟨hcut, hasks⟩ := h.ahead hleft
    have hahead : pieces ++ (unwritten s).map List.length = (pieces ++ [m.n]) ++
        (unwritten { s with main := .handing m', out := out, stats := stats }).map List.length := by
      simp [unwritten, hm, MainPhase.unwritten, m.length_bytes]
    rw [hahead] at hcut
    have heven := hcut.even.of_append
    refine .inr ⟨pieces ++ [m.n], ⟨?_, heven, fun _ => ⟨hcut, hasks⟩⟩, ?_⟩
    · rw [hstats, countBlock_eq hsync]
      exact h.tally.block (heven.pos m.n (by simp)) (heven.le m.n (by simp))
    · simp only [trackDelivered, hm, List.sum_append, List.sum_singleton, hsum]
  case mainDisconnects hm hq hd => exact .inr ⟨pieces, h.left rfl rfl, hsum⟩
  case mainCancels m hm hc => exact .inr ⟨pieces, h.left rfl rfl, hsum⟩
  case mainJoinsHasher hm hh => exact .inr ⟨pieces, h.left rfl rfl, hsum⟩
  case mainJoinsReader r hm hr => exact .inr ⟨pieces, h.left rfl rfl, hsum⟩
  case readerSendFails m hr hret =>
    exact .inr ⟨pieces, h.left rfl (mainLeft_of_mainReturned hret), hsum⟩
  case mainRecycles m hm ha hr =>
    refine .inr ⟨pieces, ?_, hsum⟩
    rcases recycle_eq hr with ⟨-, rfl⟩ | ⟨-, rfl⟩
    all_goals
      exact h.of_eq (by simp [AsyncState.mainLeft, hm]) rfl
        (by simp [unwritten, hm, MainPhase.unwritten]) rfl rfl id
  case hasherRecycles buf hh hr =>
    refine .inr ⟨pieces, ?_, hsum⟩
    rcases recycle_eq hr with ⟨-, rfl⟩ | ⟨-, rfl⟩ <;> exact h.of_eq rfl rfl rfl rfl rfl id
  all_goals
    refine .inr ⟨pieces, h.of_eq ?_ rfl ?_ rfl rfl ?_, hsum⟩
    all_goals
      simp_all [AsyncState.mainLeft, unwritten, MainPhase.unwritten, ReaderPhase.unsent,
        ReaderPhase.Asks]

/-- A copy that returns, also one that is cancelled, has counted what it has delivered. -/
theorem async_counted (hsync : cfg.sync = false) (law : ReadsFrom I rest) (hfull : FullReads I rest)
    {source : ρ} {file : ω}
    (h : ((asyncSystem I O env cfg source file before).traced 0 trackDelivered).Reachable
      (s, delivered)) (hr : s.main = .returned (.ok ())) :
    CountedIn cfg (effectiveBlockSize cfg) before delivered s.stats := by
  have hinv := h.invariant (I := fun x => Failed x.1 ∨ ∃ pieces,
      AsyncTally cfg rest before pieces x.1 ∧ pieces.sum = x.2) ?_ ?_
  · rcases hinv with ⟨e, he⟩ | ⟨pieces, htally, hsum⟩
    · rw [hr] at he
      cases he
    · exact ⟨pieces, htally.even, htally.tally, hsum⟩
  · rintro ⟨s, N⟩ ⟨rfl, rfl⟩
    exact .inr ⟨[], ⟨⟨rfl, rfl, rfl, rfl, rfl⟩, .nil _, fun _ => ⟨.start _ _ _, trivial⟩⟩, rfl⟩
  · rintro ⟨s, N⟩ a ⟨t, N'⟩ (hf | ⟨pieces, htally, hsum⟩) ⟨hst, rfl⟩
    · exact .inl (step_failed hf hst)
    · exact asyncStep_tally hsync law hfull htally hsum hst

end Async

section Shards

variable {n : Nat} {metaLen : Option Nat} {input : List Byte} {s t : ShardState n}
  {T T' : Stripes (Fin n)} {D : Nat → Nat} {a : ShardAct n}

/-- Every read gives a whole block, or what the stripe or the input leaves of it. -/
def ShardFull (cfg : Config) (metaLen : Option Nat) (input : List Byte) (s : ShardState n) :
    ShardAct n → Prop
  | .reads w m => ∀ base done leaves, s.phase w = .reading base done leaves →
      m = min (min (thisChunkLen cfg metaLen base - done) (effectiveBlockSize cfg))
        (input.length - (cfg.skipBytes + base + done))
  | a => EofHonest cfg input s a

theorem ShardFull.eofHonest (h : ShardFull cfg metaLen input s a) : EofHonest cfg input s a := by
  cases a with
  | readsEof w => exact h
  | _ => trivial

/-- The bytes put on the output. -/
def ShardState.written (s : ShardState n) : Nat := (s.log.map fun x => x.bytes.length).sum

/-- What a worker has counted of the stripe it holds open. -/
def BlockOk (cfg : Config) (metaLen : Option Nat) (input : List Byte) (T : Stripes (Fin n))
    (D : Nat → Nat) (w : Fin n) : ShardPhase → Prop
  | .stripe _ done _ | .reading _ done _ =>
    ∃ j, T.opened w = some j ∧ D j = done ∧ (effectiveBlockSize cfg ∣ done ∨
      done = stripeLen (shardChunkSize cfg) (copyLength cfg metaLen input) j)
  | .writing _ done _ bytes _ =>
    ∃ j, T.opened w = some j ∧ D j = done ∧ effectiveBlockSize cfg ∣ done ∧ 0 < bytes.length ∧
      bytes.length ≤ effectiveBlockSize cfg ∧ (bytes.length = effectiveBlockSize cfg ∨
        done + bytes.length = stripeLen (shardChunkSize cfg) (copyLength cfg metaLen input) j)
  | _ => True

/-- The counters after `D j` bytes of every stripe `j` claimed. -/
structure StripeTally (b : Nat) (before : Stats) (claimed : Nat) (D : Nat → Nat) (stats : Stats) :
    Prop where
  bytes : stats.bytesCopied = before.bytesCopied + ∑ j ∈ Finset.range claimed, D j
  inFull : stats.recordsInFull = before.recordsInFull + ∑ j ∈ Finset.range claimed, D j / b
  inPart : stats.recordsInPart = before.recordsInPart + ∑ j ∈ Finset.range claimed, part b (D j)
  outFull : stats.recordsOutFull = before.recordsOutFull + ∑ j ∈ Finset.range claimed, D j / b
  outPart : stats.recordsOutPart = before.recordsOutPart + ∑ j ∈ Finset.range claimed, part b (D j)

/-- `D j` bytes of stripe `j` are counted: all that are written of it when nobody holds it open. -/
structure ShardTally (cfg : Config) (metaLen : Option Nat) (input : List Byte) (before : Stats)
    (s : ShardState n) (T : Stripes (Fin n)) (D : Nat → Nat) : Prop where
  tally : StripeTally (effectiveBlockSize cfg) before T.claimed D s.stats
  unclaimed : ∀ j, T.claimed ≤ j → D j = 0
  closed : ∀ j, (∀ w, T.opened w ≠ some j) → D j = T.filled j
  blocks : ∀ w, BlockOk cfg metaLen input T D w (s.phase w)

theorem StripeTally.claim {b claimed : Nat} {stats : Stats} (h : StripeTally b before claimed D stats)
    (hzero : D claimed = 0) : StripeTally b before (claimed + 1) D stats := by
  have hpart : part b 0 = 0 := part_of_dvd (Nat.dvd_zero b)
  constructor
  all_goals rw [Finset.sum_range_succ, hzero]
  · exact h.bytes
  · rw [Nat.zero_div]
    exact h.inFull
  · rw [hpart]
    exact h.inPart
  · rw [Nat.zero_div]
    exact h.outFull
  · rw [hpart]
    exact h.outPart

/-- A block behind whole ones is counted. -/
theorem StripeTally.count {claimed j len : Nat} {stats : Stats}
    (h : StripeTally (effectiveBlockSize cfg) before claimed D stats) (hj : j < claimed)
    (hdvd : effectiveBlockSize cfg ∣ D j) (hpos : 0 < len) (hle : len ≤ effectiveBlockSize cfg) :
    StripeTally (effectiveBlockSize cfg) before claimed (Function.update D j (D j + len))
      (countShardBlock cfg stats len) := by
  have hmem := Finset.mem_range.mpr hj
  obtain ⟨hdiv, hpart⟩ := add_of_dvd (Nat.lt_of_lt_of_le hpos hle) len hdvd
  obtain ⟨hwhole, htail⟩ := count_of_le hpos hle
  have hsum := sum_update (Finset.range claimed) D hmem (D j + len)
  -- what the counts of the stripes come to follows from the stripe that changes
  have hcomp : ∀ f : Nat → Nat, ∑ i ∈ Finset.range claimed, f (Function.update D j (D j + len) i) +
      f (D j) = ∑ i ∈ Finset.range claimed, f (D i) + f (D j + len) := by
    intro f
    have := sum_update (Finset.range claimed) (f ∘ D) hmem (f (D j + len))
    rwa [← Function.comp_update] at this
  have hfull := hcomp (· / effectiveBlockSize cfg)
  have hparts := hcomp (part (effectiveBlockSize cfg))
  simp only [hdiv, hwhole] at hfull
  rw [hpart, htail, part_of_dvd hdvd] at hparts
  obtain ⟨hbytes, hinFull, hinPart, houtFull, houtPart⟩ := h
  by_cases hlen : len = effectiveBlockSize cfg
  · rw [if_pos hlen] at hfull hparts
    constructor
    all_goals
      simp only [countShardBlock, if_pos hlen, Stats.addBytes, Stats.incInFull, Stats.incOutFull]
      omega
  · rw [if_neg hlen] at hfull hparts
    constructor
    all_goals
      simp only [countShardBlock, if_neg hlen, Stats.addBytes, Stats.incInPart, Stats.incOutPart]
      omega

theorem BlockOk.mono {w : Fin n} {p : ShardPhase} {D' : Nat → Nat}
    (h : BlockOk cfg metaLen input T D w p) (ho : T'.opened w = T.opened w)
    (hd : ∀ j, T.opened w = some j → D' j = D j) : BlockOk cfg metaLen input T' D' w p := by
  cases p with
  | starting | check | claiming | done => trivial
  | stripe base done leaves | reading base done leaves =>
    obtain ⟨j, hj, h⟩ := h
    exact ⟨j, ho.trans hj, by rwa [hd j hj]⟩
  | writing base done leaves bytes written =>
    obtain ⟨j, hj, h⟩ := h
    exact ⟨j, ho.trans hj, by rwa [hd j hj]⟩

theorem ShardTally.block (h : ShardTally cfg metaLen input before s T D) {w : Fin n}
    {p : ShardPhase} (hp : s.phase w = p) : BlockOk cfg metaLen input T D w p := by
  rw [← hp]
  exact h.blocks w

/-- A step of worker `w` that counts nothing. -/
theorem ShardTally.move (h : ShardTally cfg metaLen input before s T D) {w : Fin n} {p : ShardPhase}
    (hothers : Others s t w) (hp : t.phase w = p) (hstats : t.stats = s.stats)
    (hw : BlockOk cfg metaLen input T D w p) : ShardTally cfg metaLen input before t T D where
  tally := hstats ▸ h.tally
  unclaimed := h.unclaimed
  closed := h.closed
  blocks v := by
    by_cases hv : v = w
    · rw [hv, hp]
      exact hw
    · rw [hothers v hv]
      exact h.blocks v

/-- Worker `w` leaves a stripe that is counted as it is filled. -/
theorem ShardTally.close (h : ShardTally cfg metaLen input before s T D) {w : Fin n} {p : ShardPhase}
    (hothers : Others s t w) (hp : t.phase w = p) (hstats : t.stats = s.stats) {j : Nat}
    (hj : T.opened w = some j) (hd : D j = T.filled j)
    (hw : BlockOk cfg metaLen input (T.close w) D w p) :
    ShardTally cfg metaLen input before t (T.close w) D where
  tally := hstats ▸ h.tally
  unclaimed := h.unclaimed
  closed i hi := by
    by_cases hij : i = j
    · rw [hij]
      exact hd
    · refine h.closed i (fun v hv => ?_)
      by_cases hvw : v = w
      · rw [hvw, hj] at hv
        exact hij (Option.some.inj hv).symm
      · exact hi v (by simp [Stripes.close, hvw, hv])
  blocks v := by
    by_cases hv : v = w
    · rw [hv, hp]
      exact hw
    · rw [hothers v hv]
      exact (h.blocks v).mono (Function.update_of_ne hv _ _) fun _ _ => rfl

/-- Worker `w` opens the next stripe. -/
theorem ShardTally.claim (h : ShardTally cfg metaLen input before s T D)
    {w : Fin n} {p : ShardPhase} (hothers : Others s t w) (hp : t.phase w = p)
    (hstats : t.stats = s.stats) (hopen : T.opened w = none)
    (hw : BlockOk cfg metaLen input (T.claim w) D w p) :
    ShardTally cfg metaLen input before t (T.claim w) D where
  tally := hstats ▸ h.tally.claim (h.unclaimed _ (Nat.le_refl _))
  unclaimed j hj := h.unclaimed j (Nat.le_of_succ_le hj)
  closed j hj := by
    refine h.closed j (fun v hv => ?_)
    by_cases hvw : v = w
    · rw [hvw, hopen] at hv
      cases hv
    · exact hj v (by simp [Stripes.claim, hvw, hv])
  blocks v := by
    by_cases hv : v = w
    · rw [hv, hp]
      exact hw
    · rw [hothers v hv]
      exact (h.blocks v).mono (Function.update_of_ne hv _ _) fun _ _ => rfl

theorem shardStep_tally (h : Sharded cfg metaLen input s T)
    (hc : ShardTally cfg metaLen input before s T D) (hfull : ShardFull cfg metaLen input s a)
    (hst : ShardStep cfg metaLen input s a t) (hf : ¬t.Failed) :
    ∃ D, ShardTally cfg metaLen input before t (trackStripes T s a) D := by
  cases hst
  case setCancel => exact ⟨D, hc.tally, hc.unclaimed, hc.closed, hc.blocks⟩
  case writeInterrupted => exact ⟨D, hc⟩
  case startFails w e hp => exact absurd ⟨w, _, s.phase_goto_self w _⟩ hf
  case cancels w base done leaves hp hlen hcancel => exact absurd ⟨w, _, s.phase_goto_self w _⟩ hf
  case readFails w base done leaves err hp => exact absurd ⟨w, _, s.phase_goto_self w _⟩ hf
  case writeFails w base done leaves bytes written err hp hlt =>
    exact absurd ⟨w, _, s.phase_goto_self w _⟩ hf
  case breaks w e hring => exact absurd ⟨w, _, s.phase_goto_self w _⟩ hf
  case starts w hp =>
    exact ⟨D, hc.move (fun v hv => s.phase_goto_of_ne _ hv) (s.phase_goto_self w _) rfl trivial⟩
  case stops w hp hflag =>
    exact ⟨D, hc.move (fun v hv => s.phase_goto_of_ne _ hv) (s.phase_goto_self w _) rfl trivial⟩
  case passes w hp =>
    exact ⟨D, hc.move (fun v hv => s.phase_goto_of_ne _ hv) (s.phase_goto_self w _) rfl trivial⟩
  case exhausts w total hp ht hle =>
    have hopen : T.opened w = none := h.phase hp
    have hclaim := hc.claim (fun v hv => s.phase_goto_of_ne _ hv)
      (s.phase_goto_self w (.done (.ok (s.workers w).stripes))) rfl hopen trivial
    refine ⟨D, ShardTally.close (j := T.claimed) hclaim (fun _ _ => rfl) (s.phase_goto_self w _) rfl
      ?_ ?_ trivial⟩
    · exact Function.update_self _ _ _
    · rw [hc.unclaimed _ (Nat.le_refl _)]
      exact (h.striped.unclaimed _ (Nat.le_refl _)).symm
  case claims w hp ht =>
    have hopen : T.opened w = none := h.phase hp
    refine ⟨D, hc.claim (fun v hv => s.phase_goto_of_ne _ hv) (s.phase_goto_self w _) rfl hopen
      ⟨T.claimed, Function.update_self _ _ _, hc.unclaimed _ (Nat.le_refl _), .inl ?_⟩⟩
    exact Nat.dvd_zero _
  case finishes w base done leaves hp hlen =>
    obtain ⟨j, hj, -, hfilled⟩ := h.phase hp
    obtain ⟨i, hi, hd, -⟩ := hc.block hp
    obtain rfl := Option.some.inj (hi.symm.trans hj)
    exact ⟨D, hc.close (fun v hv => s.phase_update_of_ne _ hv) (s.phase_update_self w _) rfl hj
      (hd.trans hfilled.symm) trivial⟩
  case readsEof w base done leaves hp hend =>
    obtain ⟨j, hj, -, hfilled, -⟩ := h.phase hp
    obtain ⟨i, hi, hd, -⟩ := hc.block hp
    obtain rfl := Option.some.inj (hi.symm.trans hj)
    exact ⟨D, hc.close (fun v hv => s.phase_update_of_ne _ hv) (s.phase_update_self w _) rfl hj
      (hd.trans hfilled.symm) trivial⟩
  case submits w base done leaves hp hlen =>
    have hblock := hc.block hp
    exact ⟨D, hc.move (fun v hv => s.phase_goto_of_ne _ hv) (s.phase_goto_self w _) rfl hblock⟩
  case readInterrupted w base done leaves hp =>
    have hblock := hc.block hp
    exact ⟨D, hc.move (fun v hv => s.phase_goto_of_ne _ hv) (s.phase_goto_self w _) rfl hblock⟩
  case reads w m base done leaves bytes hp hpos hm hb hlen =>
    obtain ⟨j, hj, rfl, -, -⟩ := h.phase hp
    obtain ⟨i, hi, hd, haligned⟩ := hc.block hp
    obtain rfl := Option.some.inj (hi.symm.trans hj)
    have hm' := hfull _ _ _ hp
    have hstripe := @stripeLen_eq cfg metaLen input i
    refine ⟨D, hc.move (fun v hv => s.phase_goto_of_ne _ hv) (s.phase_goto_self w _) rfl
      ⟨i, hj, hd, ?_, by omega, by omega, by omega⟩⟩
    rcases haligned with hdvd | hend
    · exact hdvd
    · omega
  case writes w m base done leaves bytes written hp hlt hm =>
    obtain ⟨j, hj, -⟩ := h.phase hp
    have hblock := hc.block hp
    refine ⟨D, ?_, ?_, fun i hi => ?_, fun v => ?_⟩
    · rw [trackStripes, Stripes.fill_claimed]
      exact hc.tally
    · rw [trackStripes, Stripes.fill_claimed]
      exact hc.unclaimed
    · have hi' : ∀ v, T.opened v ≠ some i := by simpa [trackStripes] using hi
      have hij : i ≠ j := by
        rintro rfl
        exact hi' w hj
      rw [trackStripes, Stripes.fill_eq hj, hc.closed i hi']
      simp [hij]
    · refine BlockOk.mono (T := T) (D := D) ?_ (by simp [trackStripes]) fun _ _ => rfl
      by_cases hv : v = w
      · rw [hv]
        exact (s.phase_goto_self w _).symm ▸ hblock
      · exact (s.phase_goto_of_ne _ hv).symm ▸ hc.blocks v
  case counts w base done leaves bytes written hp hle =>
    obtain ⟨j, hj, hd, hdvd, hpos, hlen, hend⟩ := hc.block hp
    obtain ⟨hlt, hhold⟩ := h.striped.opened_lt w j hj
    refine ⟨Function.update D j (D j + bytes.length), ?_, fun i hi => ?_, fun i hi => ?_, fun v => ?_⟩
    · exact hc.tally.count hlt (hd ▸ hdvd) hpos hlen
    · have hi' : T.claimed ≤ i := hi
      rw [Function.update_of_ne (by omega)]
      exact hc.unclaimed i hi
    · have hij : i ≠ j := by
        rintro rfl
        exact hi w hj
      rw [Function.update_of_ne hij]
      exact hc.closed i hi
    · by_cases hv : v = w
      · rw [hv]
        refine (s.phase_goto_self w _).symm ▸ ⟨j, hj, ?_, ?_⟩
        · rw [Function.update_self, hd]
        · rcases hend with hfull' | hend
          · rw [hfull']
            exact .inl (Nat.dvd_add hdvd (Nat.dvd_refl _))
          · exact .inr hend
      · refine (s.phase_goto_of_ne _ hv).symm ▸ (hc.blocks v).mono rfl fun i hi => ?_
        have hij : i ≠ j := by
          rintro rfl
          have hv' := (h.striped.opened_lt v i hi).2
          rw [hhold] at hv'
          exact hv (Option.some.inj hv').symm
        exact Function.update_of_ne hij _ _

theorem shardStep_written (h : Sharded cfg metaLen input s T) (hw : s.written = T.total)
    (hst : ShardStep cfg metaLen input s a t) : t.written = (trackStripes T s a).total := by
  cases hst
  case writes w m base done leaves bytes written hp hlt hm =>
    obtain ⟨j, hj, -⟩ := h.phase hp
    have hmod := Nat.mod_le (bytes.length - written) (2 ^ 32)
    have hlen : ((bytes.drop written).take m).length = m := by
      rw [List.length_take, List.length_drop]
      omega
    rw [trackStripes, h.striped.total_fill hj, ← hw]
    simp only [ShardState.written, List.map_append, List.sum_append, List.map_singleton,
      List.sum_singleton, hlen]
  case exhausts w total hp ht hle => exact hw.trans (h.striped.total_claim (w := w)).symm
  case claims w hp ht => exact hw.trans (h.striped.total_claim (w := w)).symm
  all_goals exact hw

/-- A copy whose workers all end well, also one that is cancelled, has counted what it has put on
the output, stripe by stripe. -/
theorem shards_counted {ws : List StripeLeaves}
    (h : ((shardedSystem cfg metaLen input n before).restrict
      (ShardFull cfg metaLen input)).Reachable s) (hok : joinWorkers s = some (.ok ws)) :
    CountedIn cfg (shardChunkSize cfg) before s.written s.stats := by
  obtain ⟨T, hT⟩ := h.traced .start trackStripes
  obtain ⟨hs, hcounts, hwritten⟩ := hT.invariant
    (I := fun x => Sharded cfg metaLen input x.1 x.2 ∧
      (¬x.1.Failed → ∃ D, ShardTally cfg metaLen input before x.1 x.2 D) ∧
      x.1.written = x.2.total)
    (by
      rintro ⟨s, T⟩ ⟨rfl, rfl⟩
      refine ⟨sharded_start, fun _ => ⟨fun _ => 0, ⟨rfl, rfl, rfl, rfl, rfl⟩, fun _ _ => rfl,
        fun _ _ => rfl, fun _ => trivial⟩, rfl⟩)
    (by
      rintro ⟨s, T⟩ a ⟨t, T'⟩ ⟨hs, hcounts, hwritten⟩ ⟨⟨hst, hfull⟩, rfl⟩
      refine ⟨sharded_step hs hfull.eofHonest hst, fun hf => ?_, shardStep_written hs hwritten hst⟩
      obtain ⟨D, hD⟩ := hcounts fun hfs => hf (failed_of_step hst hfs)
      exact shardStep_tally hs hD hfull hst hf)
  dsimp only at hs hcounts hwritten
  obtain ⟨hall, -⟩ := joinWorkers_ok hok
  have hf : ¬s.Failed := by
    rintro ⟨w, e, hw⟩
    obtain ⟨own, hown⟩ := hall w
    rw [hown] at hw
    cases hw
  have hopen : ∀ j w, T.opened w ≠ some j := by
    intro j w
    obtain ⟨own, hown⟩ := hall w
    have hnone : T.opened w = none := hs.phase hown
    rw [hnone]
    nofun
  obtain ⟨D, hD⟩ := hcounts hf
  have hfilled : ∀ j, j < T.claimed → T.filled j =
      stripeLen (shardChunkSize cfg) (copyLength cfg metaLen input) j := by
    intro j hj
    rw [← length_copyRange]
    exact hs.striped.closed j hj fun w => hopen j w
  obtain ⟨pieces, heven, hsum, hwholes, hparts, -⟩ := exists_evenly_stripes
    (effectiveBlockSize cfg) (copyLength cfg metaLen input) shardChunkSize_pos T.claimed
  have hsame : ∀ f : Nat → Nat, ∑ j ∈ Finset.range T.claimed, f (D j) = ∑ j ∈ Finset.range T.claimed,
      f (stripeLen (shardChunkSize cfg) (copyLength cfg metaLen input) j) := by
    intro f
    refine Finset.sum_congr rfl fun j hj => ?_
    rw [hD.closed j (hopen j), hfilled j (Finset.mem_range.mp hj)]
  obtain ⟨hbytes, hinFull, hinPart, houtFull, houtPart⟩ := hD.tally
  refine ⟨pieces, heven, ⟨?_, ?_, ?_, ?_, ?_⟩, ?_⟩
  · rw [hbytes, hsum]
    exact congrArg _ (hsame id)
  · rw [hinFull, hwholes]
    exact congrArg _ (hsame (· / effectiveBlockSize cfg))
  · rw [hinPart, hparts, hsame]
  · rw [houtFull, hwholes]
    exact congrArg _ (hsame (· / effectiveBlockSize cfg))
  · rw [houtPart, hparts, hsame]
  · rw [hwritten, hsum, Stripes.total]
    exact (Finset.sum_congr rfl fun j hj => hfilled j (Finset.mem_range.mp hj)).symm

end Shards

end Blkcp.Rust
