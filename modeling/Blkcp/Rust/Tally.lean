import Blkcp.Lib.Records
import Blkcp.Rust.Amount
import Blkcp.Rust.SpliceSpec
set_option autoImplicit false

/-! What the copies that run in one thread add to the counters. -/

namespace Blkcp.Rust
open Blkcp.Lib

variable {α ρ ω η₂ η₃ : Type} [Octet α] {cfg : Config} {before stats stats' : Stats}
  {pieces : List Nat} {b c n supply left : Nat} {remaining : Option Nat}

/-- The counters have gone up by what the pieces count. -/
structure Tally (b : Nat) (before : Stats) (pieces : List Nat) (stats : Stats) : Prop where
  bytes : stats.bytesCopied = before.bytesCopied + pieces.sum
  inFull : stats.recordsInFull = before.recordsInFull + wholes b pieces
  inPart : stats.recordsInPart = before.recordsInPart + parts b pieces
  outFull : stats.recordsOutFull = before.recordsOutFull + wholes b pieces
  outPart : stats.recordsOutPart = before.recordsOutPart + parts b pieces

namespace Tally

omit [Octet α] in
theorem nil (b : Nat) (stats : Stats) : Tally b stats [] stats := ⟨rfl, rfl, rfl, rfl, rfl⟩

/-- A piece of several records. -/
theorem snoc (h : Tally b before pieces stats) (n : Nat) :
    Tally b before (pieces ++ [n]) ((stats.addBytes n).addRecords n b) := by
  obtain ⟨hbytes, hinFull, hinPart, houtFull, houtPart⟩ := h
  have hsum : (pieces ++ [n]).sum = pieces.sum + n := by simp
  by_cases hn : b ∣ n
  · have hmod : n % b = 0 := Nat.mod_eq_zero_of_dvd hn
    constructor
    all_goals
      simp only [Stats.addRecords, Stats.addBytes, hmod, ne_eq, not_true, if_false, hsum,
        wholes_snoc, parts_snoc, part_of_dvd hn]
      omega
  · have hmod : n % b ≠ 0 := fun hz => hn (Nat.dvd_of_mod_eq_zero hz)
    constructor
    all_goals
      simp only [Stats.addRecords, Stats.addBytes, if_pos hmod, Stats.incInPart, Stats.incOutPart,
        hsum, wholes_snoc, parts_snoc, part_of_not_dvd hn]
      omega

end Tally

/-- Counting a piece of at most one record. -/
def countPiece (b : Nat) (stats : Stats) (n : Nat) : Stats :=
  (if n = b then stats.incInFull.incOutFull else stats.incInPart.incOutPart).addBytes n

theorem Tally.block (h : Tally b before pieces stats) (hpos : 0 < n) (hle : n ≤ b) :
    Tally b before (pieces ++ [n]) (countPiece b stats n) := by
  obtain ⟨hbytes, hinFull, hinPart, houtFull, houtPart⟩ := h
  obtain ⟨hdiv, hpart⟩ := count_of_le hpos hle
  have hsum : (pieces ++ [n]).sum = pieces.sum + n := by simp
  by_cases hn : n = b
  · rw [if_pos hn] at hdiv hpart
    constructor
    all_goals
      simp only [countPiece, if_pos hn, Stats.incInFull, Stats.incOutFull, Stats.addBytes, hsum,
        wholes_snoc, parts_snoc, hdiv, hpart]
      omega
  · rw [if_neg hn] at hdiv hpart
    constructor
    all_goals
      simp only [countPiece, if_neg hn, Stats.incInPart, Stats.incOutPart, Stats.addBytes, hsum,
        wholes_snoc, parts_snoc, hdiv, hpart]
      omega

theorem countBlock_eq (hsync : cfg.sync = false) (stats : Stats) (n : Nat) :
    countBlock cfg stats n = countPiece (effectiveBlockSize cfg) stats n := by
  simp only [countBlock, countPiece, hsync, Bool.false_and, Bool.false_eq_true, if_false]
  split <;> rfl

/-- The copy of `supply` bytes between two pieces, `left` of them still to come. -/
structure Copying (cfg : Config) (c supply : Nat) (before : Stats) (pieces : List Nat)
    (remaining : Option Nat) (left : Nat) (stats : Stats) : Prop where
  cutting : Cutting c pieces remaining left
  tally : Tally (effectiveBlockSize cfg) before pieces stats
  sum_eq : pieces.sum + left = supply

namespace Copying

theorem start (cfg : Config) (c supply : Nat) (before : Stats) (remaining : Option Nat) :
    Copying cfg c supply before [] remaining supply before :=
  ⟨.start c remaining supply, .nil _ before, Nat.zero_add _⟩

theorem next (h : Copying cfg c supply before pieces remaining left stats)
    (hn : n = min (ask c remaining) left) (hpos : 0 < n)
    (htally : Tally (effectiveBlockSize cfg) before (pieces ++ [n]) stats') :
    Copying cfg c supply before (pieces ++ [n]) (remaining.map (· - n)) (left - n) stats' where
  cutting := h.cutting.next hn hpos
  tally := htally
  sum_eq := by
    have hsum := h.sum_eq
    rw [List.sum_append, List.sum_singleton]
    omega

end Copying

/-- A copy of `total` bytes in pieces of `c`, each of which is counted. -/
def CountedIn (cfg : Config) (c : Nat) (before : Stats) (total : Nat) (stats : Stats) : Prop :=
  ∃ pieces, Evenly c pieces ∧ Tally (effectiveBlockSize cfg) before pieces stats ∧
    pieces.sum = total

theorem Copying.counted (h : Copying cfg c supply before pieces remaining left stats) :
    CountedIn cfg c before (supply - left) stats :=
  ⟨pieces, h.cutting.even, h.tally, Nat.eq_sub_of_add_eq h.sum_eq⟩

section Loop

variable {I : Input α ρ} {O : Output α ω} {env : HashEnv η₂ η₃} {cancel : Nat → Bool}
  {rest : ρ → List α} {u v : LoopState α ρ ω η₂ η₃}

theorem transferBody_copying (hsync : cfg.sync = false) (law : ReadsFrom I rest)
    (hfull : FullReads I rest)
    (h : Copying cfg (effectiveBlockSize cfg) supply before pieces u.remainingBytes
      (rest u.input).length u.stats) (hst : transferBody I O env cfg cancel u = .inl v) :
    ∃ pieces, Copying cfg (effectiveBlockSize cfg) supply before pieces v.remainingBytes
      (rest v.input).length v.stats := by
  obtain ⟨-, -, ⟨hb, -, hs, r, hread, hr⟩ | ⟨bytes, hread, hne, hb, -, hs⟩⟩ :=
    transferBody_counts hst
  · have hrest : rest v.input = rest u.input := by
      rcases hr with rfl | ⟨e, rfl⟩
      · exact law.interrupted hread
      · exact law.failed hread
    exact ⟨pieces, by rwa [hb, hs, hrest]⟩
  · obtain ⟨hrest, -⟩ := law.data hread
    have hpos := List.length_pos_of_ne_nil hne
    have hlen := hfull hread
    have hleft : (rest v.input).length = (rest u.input).length - bytes.length := by
      rw [hrest, List.length_append, Nat.add_sub_cancel_left]
    refine ⟨pieces ++ [bytes.length], ?_⟩
    rw [hb, hs, hleft, countBlock_eq hsync]
    exact h.next hlen hpos
      (h.tally.block hpos (Nat.le_trans (I.read_le hread) (toRead_le cfg u.remainingBytes)))

theorem transferLoop_counted (hsync : cfg.sync = false) (law : ReadsFrom I rest)
    (hfull : FullReads I rest) {fuel : Nat} {source : ρ} {file : ω} {y : LoopState α ρ ω η₂ η₃}
    (h : transferLoop I O env cfg cancel fuel (.start env cfg source file before) =
      some (.ok (), y)) :
    CountedIn cfg (effectiveBlockSize cfg) before ((rest source).length - (rest y.input).length)
      y.stats := by
  simp only [transferLoop, Option.map_eq_some_iff] at h
  obtain ⟨⟨r, v⟩, hrun, he⟩ := h
  obtain ⟨u, ⟨pieces, hu⟩, hleave⟩ := runLoop_invariant
    (I := fun u => ∃ pieces, Copying cfg (effectiveBlockSize cfg) (rest source).length before pieces
      u.remainingBytes (rest u.input).length u.stats)
    (fun u v hu hst => transferBody_copying hsync law hfull hu.choose_spec hst) hrun
    ⟨[], .start cfg _ _ before cfg.limitBytes⟩
  cases r with
  | error e => cases he
  | ok _ =>
    obtain ⟨-, rfl⟩ := Prod.mk.inj he
    have hend : (rest v.input).length = (rest u.input).length ∧ v.stats = u.stats := by
      refine ⟨?_, (transferBody_done hleave).1⟩
      simp only [transferBody] at hleave
      split at hleave
      · simp at hleave
      split at hleave
      · rw [← (Prod.mk.inj (Sum.inr.inj hleave)).2]
      split at hleave
      · rw [← (Prod.mk.inj (Sum.inr.inj hleave)).2]
      split at hleave
      · rename_i hread
        rw [← (Prod.mk.inj (Sum.inr.inj hleave)).2, (law.data hread).1, List.nil_append]
      · cases hleave
      · split at hleave
        · cases hleave
        · simp at hleave
      · split at hleave
        · simp at hleave
        · cases hleave
    simp only [hend.1, hend.2]
    exact hu.counted

end Loop

section Kernel

variable {cancel : Nat → Bool} {results : Nat → SpliceResult} {pos : Nat} {input output : List α}

theorem Copying.records (h : Copying cfg c supply before pieces remaining left stats)
    (hn : n = min (ask c remaining) left) (hpos : 0 < n) :
    Copying cfg c supply before (pieces ++ [n]) (remaining.map (· - n)) (left - n)
      ((stats.addBytes n).addRecords n (effectiveBlockSize cfg)) :=
  h.next hn hpos (h.tally.snoc n)

section Reflink

variable {s t : ReflinkState α}

/-- Every call gives all that it was asked for except at the end. -/
def ReflinkFull (cfg : Config) (cancel : Nat → Bool) (results : Nat → SpliceResult)
    (start : ReflinkState α) : Prop :=
  ∀ s n, Iterates (reflinkBody cfg cancel results) start s → results s.calls = .moved n →
    min (reflinkRequest cfg s.remaining) s.input.length ≤ n

theorem reflinkBody_copying
    (h : Copying cfg (reflinkChunkSize cfg) supply before pieces s.remaining s.input.length s.stats)
    (hfull : ∀ n, results s.calls = .moved n →
      min (reflinkRequest cfg s.remaining) s.input.length ≤ n)
    (hst : reflinkBody cfg cancel results s = .inl t) :
    ∃ pieces, Copying cfg (reflinkChunkSize cfg) supply before pieces t.remaining t.input.length
      t.stats := by
  simp only [reflinkBody] at hst
  split at hst
  · cases hst
  split at hst
  · cases hst
  split at hst
  · rename_i n hres
    have hlen : (s.input.take (min (reflinkRequest cfg s.remaining) (max n 1))).length =
        min (ask (reflinkChunkSize cfg) s.remaining) s.input.length := by
      have hn := hfull n hres
      change min (ask (reflinkChunkSize cfg) s.remaining) s.input.length ≤ n at hn
      change (s.input.take (min (ask (reflinkChunkSize cfg) s.remaining) (max n 1))).length = _
      rw [List.length_take]
      omega
    split at hst
    · cases hst
    · rename_i hne
      obtain rfl := Sum.inl.inj hst
      have hnext := h.records hlen (List.length_pos_of_ne_nil hne)
      rw [← List.length_drop] at hnext
      exact ⟨_, hnext⟩
  · split at hst
    · obtain rfl := Sum.inl.inj hst
      exact ⟨pieces, h⟩
    split at hst
    · split at hst <;> cases hst
    · cases hst

theorem reflinkBody_ends {r : Except String Bool}
    (hst : reflinkBody cfg cancel results s = .inr (r, t)) :
    t.input = s.input ∧ t.stats = s.stats ∧ (r = .ok false → s.stats.bytesCopied = 0) := by
  simp only [reflinkBody] at hst
  split at hst
  · obtain ⟨rfl, rfl⟩ := Prod.mk.inj (Sum.inr.inj hst)
    exact ⟨rfl, rfl, by simp⟩
  split at hst
  · obtain ⟨rfl, rfl⟩ := Prod.mk.inj (Sum.inr.inj hst)
    exact ⟨rfl, rfl, by simp⟩
  split at hst
  · split at hst
    · obtain ⟨rfl, rfl⟩ := Prod.mk.inj (Sum.inr.inj hst)
      exact ⟨rfl, rfl, by simp⟩
    · cases hst
  · split at hst
    · cases hst
    split at hst
    · rename_i hzero
      split at hst
      · obtain ⟨rfl, rfl⟩ := Prod.mk.inj (Sum.inr.inj hst)
        exact ⟨rfl, rfl, by simp⟩
      · obtain ⟨rfl, rfl⟩ := Prod.mk.inj (Sum.inr.inj hst)
        exact ⟨rfl, rfl, fun _ => hzero.1⟩
    · obtain ⟨rfl, rfl⟩ := Prod.mk.inj (Sum.inr.inj hst)
      exact ⟨rfl, rfl, by simp⟩

theorem reflinkRun_counted {kinds : Option (FileKind × FileKind)} {fuel : Nat}
    (hfull : ReflinkFull cfg cancel results (.start cfg input output pos before))
    (h : reflinkRun kinds cancel results fuel cfg input output pos before = some (.ok true, t)) :
    CountedIn cfg (reflinkChunkSize cfg) before (input.length - t.input.length) t.stats := by
  simp only [reflinkRun] at h
  split at h
  · simp at h
  split at h
  · split at h <;> simp at h
  · obtain ⟨u, ⟨-, pieces, hu⟩, hleave⟩ := runLoop_invariant
      (I := fun s : ReflinkState α =>
        Iterates (reflinkBody cfg cancel results) (.start cfg input output pos before) s ∧
        ∃ pieces, Copying cfg (reflinkChunkSize cfg) input.length before pieces s.remaining
          s.input.length s.stats)
      (fun s t hs hst =>
        ⟨hs.1.tail hst, reflinkBody_copying hs.2.choose_spec (fun n => hfull s n hs.1) hst⟩)
      h ⟨.refl _, [], .start cfg _ _ before _⟩
    obtain ⟨hinput, hstats, -⟩ := reflinkBody_ends hleave
    rw [hinput, hstats]
    exact hu.counted

end Reflink

section Splice

variable {s t : SpliceState α}

/-- Every call that reads gives all that it was asked for except at the end. -/
def SpliceFull (cfg : Config) (cancel : Nat → Bool) (results : Nat → SpliceResult)
    (start : SpliceState α) : Prop :=
  ∀ s n, Iterates (spliceBody cfg cancel results) start s → s.phase = .top →
    results s.calls = .moved n → min (spliceRequest cfg s.remaining) s.input.length ≤ n

/-- While the pipe is drained its bytes are not counted. -/
def SpliceCopying (cfg : Config) (supply : Nat) (before : Stats) (s : SpliceState α) : Prop :=
  match s.phase with
  | .top => ∃ pieces, Copying cfg (spliceChunkSize cfg) supply before pieces s.remaining
      s.input.length s.stats
  | .draining nIn _ => 0 < nIn ∧
      nIn = min (ask (spliceChunkSize cfg) s.remaining) (s.input.length + nIn) ∧
      ∃ pieces, Copying cfg (spliceChunkSize cfg) supply before pieces s.remaining
        (s.input.length + nIn) s.stats

theorem spliceBody_copying (h : SpliceCopying cfg supply before s)
    (hfull : ∀ n, s.phase = .top → results s.calls = .moved n →
      min (spliceRequest cfg s.remaining) s.input.length ≤ n)
    (hst : spliceBody cfg cancel results s = .inl t) : SpliceCopying cfg supply before t := by
  simp only [spliceBody] at hst
  split at hst
  · rename_i hphase
    simp only [SpliceCopying, hphase] at h
    obtain ⟨pieces, h⟩ := h
    split at hst
    · cases hst
    split at hst
    · cases hst
    split at hst
    · split at hst
      · obtain rfl := Sum.inl.inj hst
        simp only [SpliceCopying, hphase]
        exact ⟨pieces, h⟩
      split at hst <;> cases hst
    · rename_i n hres
      split at hst
      · cases hst
      · rename_i hne
        obtain rfl := Sum.inl.inj hst
        have hpos := List.length_pos_of_ne_nil hne
        have hn := hfull n hphase hres
        change min (ask (spliceChunkSize cfg) s.remaining) s.input.length ≤ n at hn
        change 0 < (s.input.take (min (ask (spliceChunkSize cfg) s.remaining) (max n 1))).length
          at hpos
        have hlen : (s.input.take (min (ask (spliceChunkSize cfg) s.remaining) (max n 1))).length =
            min (ask (spliceChunkSize cfg) s.remaining) s.input.length := by
          rw [List.length_take]
          omega
        have hleft : (s.input.drop (s.input.take (min (ask (spliceChunkSize cfg) s.remaining)
            (max n 1))).length).length + (s.input.take (min (ask (spliceChunkSize cfg) s.remaining)
            (max n 1))).length = s.input.length := by
          rw [List.length_drop, hlen]
          omega
        refine ⟨hpos, ?_, pieces, ?_⟩
        · exact hlen.trans (congrArg (min _) hleft.symm)
        · exact hleft.symm ▸ h
  · rename_i nIn inPipe hphase
    simp only [SpliceCopying, hphase] at h
    obtain ⟨hpos, hn, pieces, h⟩ := h
    split at hst
    · obtain rfl := Sum.inl.inj hst
      have hnext := h.records hn hpos
      rw [Nat.add_sub_cancel] at hnext
      exact ⟨_, hnext⟩
    · split at hst
      · split at hst
        · obtain rfl := Sum.inl.inj hst
          simp only [SpliceCopying, hphase]
          exact ⟨hpos, hn, pieces, h⟩
        · cases hst
      · obtain rfl := Sum.inl.inj hst
        exact ⟨hpos, hn, pieces, h⟩

theorem spliceBody_ends {r : Except String Bool}
    (hst : spliceBody cfg cancel results s = .inr (r, t)) :
    t.input = s.input ∧ t.pipe = s.pipe ∧ t.stats = s.stats ∧
      (r = .ok true → s.phase = .top) := by
  simp only [spliceBody] at hst
  split at hst
  · rename_i hphase
    split at hst
    · obtain ⟨rfl, rfl⟩ := Prod.mk.inj (Sum.inr.inj hst)
      exact ⟨rfl, rfl, rfl, fun _ => hphase⟩
    split at hst
    · obtain ⟨rfl, rfl⟩ := Prod.mk.inj (Sum.inr.inj hst)
      exact ⟨rfl, rfl, rfl, fun _ => hphase⟩
    split at hst
    · split at hst
      · cases hst
      split at hst
      all_goals
        obtain ⟨rfl, rfl⟩ := Prod.mk.inj (Sum.inr.inj hst)
        exact ⟨rfl, rfl, rfl, fun _ => hphase⟩
    · split at hst
      · obtain ⟨rfl, rfl⟩ := Prod.mk.inj (Sum.inr.inj hst)
        exact ⟨rfl, rfl, rfl, fun _ => hphase⟩
      · cases hst
  · split at hst
    · cases hst
    · split at hst
      · split at hst
        · cases hst
        · obtain ⟨rfl, rfl⟩ := Prod.mk.inj (Sum.inr.inj hst)
          exact ⟨rfl, rfl, rfl, by simp⟩
      · cases hst

/-- What has reached the output is what is counted. -/
theorem spliceRun_counted {pipeOk : Bool} {fuel : Nat}
    (hfull : SpliceFull cfg cancel results (.start cfg input output pos before))
    (h : spliceRun pipeOk cancel results fuel cfg input output pos before = some (.ok true, t)) :
    CountedIn cfg (spliceChunkSize cfg) before (t.delivered input) t.stats := by
  simp only [spliceRun] at h
  split at h
  · obtain ⟨u, ⟨hiter, hu⟩, hleave⟩ := runLoop_invariant
      (I := fun s : SpliceState α =>
        Iterates (spliceBody cfg cancel results) (.start cfg input output pos before) s ∧
          SpliceCopying cfg input.length before s)
      (fun s t hs hst =>
        ⟨hs.1.tail hst, spliceBody_copying hs.2 (fun n => hfull s n hs.1) hst⟩)
      h ⟨.refl _, [], .start cfg _ _ before _⟩
    obtain ⟨hinput, hpipe, hstats, htop⟩ := spliceBody_ends hleave
    have hphase := htop rfl
    have hempty := splice_pipe_length hiter
    simp only [SpliceCopying, hphase] at hu hempty
    obtain ⟨pieces, hu⟩ := hu
    rw [SpliceState.delivered, hinput, hpipe, hempty, hstats, Nat.add_zero]
    exact hu.counted
  · simp at h

end Splice

end Kernel

section Ring

variable {env : HashEnv η₂ η₃} {cancel : Nat → Bool} {results : Nat → RingResult}
  {input : RingInput α} {s t : UringState α η₂ η₃}

/-- Every read of the ring gives a whole block, or what a limit or the end leaves of it. -/
def RingFull (env : HashEnv η₂ η₃) (cfg : Config) (cancel : Nat → Bool)
    (results : Nat → RingResult) (input : RingInput α) (start : UringState α η₂ η₃) : Prop :=
  ∀ s n, Iterates (uringBody env cfg cancel results input) start s → s.phase = .top →
    results s.calls = .done n → min (toRead cfg s.remaining) (s.ahead input).length ≤
      min (ringLength (toRead cfg s.remaining)) n

/-- The counters of a block that is read and not yet written. -/
def countRead (b : Nat) (stats : Stats) (n : Nat) : Stats :=
  if n = b then stats.incInFull else stats.incInPart

def countWritten (b : Nat) (stats : Stats) (n : Nat) : Stats :=
  (if n = b then stats.incOutFull else stats.incOutPart).addBytes n

omit [Octet α] in
theorem countWritten_countRead (b : Nat) (stats : Stats) (n : Nat) :
    countWritten b (countRead b stats n) n = countPiece b stats n := by
  simp only [countWritten, countRead, countPiece]
  split <;> rfl

def RingCopying (cfg : Config) (input : RingInput α) (supply : Nat) (before : Stats)
    (s : UringState α η₂ η₃) : Prop :=
  match s.phase with
  | .top => ∃ pieces, Copying cfg (effectiveBlockSize cfg) supply before pieces s.remaining
      (s.ahead input).length s.stats ∧ s.outOffset = cfg.seekBytes + pieces.sum
  | .writing bytes _ => 0 < bytes.length ∧
      bytes.length = min (toRead cfg s.remaining) ((s.ahead input).length + bytes.length) ∧
      ∃ pieces stats, Copying cfg (effectiveBlockSize cfg) supply before pieces s.remaining
        ((s.ahead input).length + bytes.length) stats ∧
        s.stats = countRead (effectiveBlockSize cfg) stats bytes.length ∧
        s.outOffset = cfg.seekBytes + pieces.sum

theorem uringBody_copying (h : RingCopying cfg input supply before s)
    (hfull : ∀ n, s.phase = .top → results s.calls = .done n →
      min (toRead cfg s.remaining) (s.ahead input).length ≤
        min (ringLength (toRead cfg s.remaining)) n)
    (hst : uringBody env cfg cancel results input s = .inl t) :
    RingCopying cfg input supply before t := by
  simp only [uringBody] at hst
  split at hst
  · rename_i hphase
    simp only [RingCopying, hphase] at h
    obtain ⟨pieces, h, hout⟩ := h
    split at hst
    · cases hst
    split at hst
    · cases hst
    split at hst
    · cases hst
    · split at hst
      · obtain rfl := Sum.inl.inj hst
        simp only [RingCopying, hphase]
        exact ⟨pieces, h, hout⟩
      · cases hst
    · rename_i n hres
      split at hst
      · cases hst
      · rename_i hne
        generalize hb : (UringState.ahead input { s with
          polls := s.polls + 1, calls := s.calls + 1 }).take
            (min (ringLength (toRead cfg s.remaining)) (max n 1)) = bytes at hst hne
        have hpos := List.length_pos_of_ne_nil hne
        have hlen : bytes.length = min (toRead cfg s.remaining) (s.ahead input).length := by
          have hn := hfull n hphase hres
          have hring := ringLength_le (toRead cfg s.remaining)
          have htake : bytes.length =
              min (min (ringLength (toRead cfg s.remaining)) (max n 1)) (s.ahead input).length := by
            rw [← hb, List.length_take]
            rfl
          omega
        obtain rfl := Sum.inl.inj hst
        have hleft : ((s.ahead input).drop bytes.length).length + bytes.length =
            (s.ahead input).length := by
          rw [List.length_drop]
          omega
        rw [← ahead_drop] at hleft
        refine ⟨hpos, ?_, pieces, s.stats, ?_, rfl, hout⟩
        · exact hlen.trans (congrArg (min _) hleft.symm)
        · exact hleft.symm ▸ h
  · rename_i bytes written hphase
    simp only [RingCopying, hphase] at h
    obtain ⟨hpos, hn, pieces, stats, h, hstats, hout⟩ := h
    split at hst
    · obtain rfl := Sum.inl.inj hst
      have hle : bytes.length ≤ effectiveBlockSize cfg := by
        have := toRead_le cfg s.remaining
        omega
      have hnext := h.next hn hpos (h.tally.block hpos hle)
      rw [Nat.add_sub_cancel, ← countWritten_countRead, ← hstats] at hnext
      refine ⟨_, hnext, ?_⟩
      rw [List.sum_append, List.sum_singleton, ← Nat.add_assoc, ← hout]
    · split at hst
      · cases hst
      · split at hst
        · obtain rfl := Sum.inl.inj hst
          simp only [RingCopying, hphase]
          exact ⟨hpos, hn, pieces, stats, h, hstats, hout⟩
        · cases hst
      · obtain rfl := Sum.inl.inj hst
        exact ⟨hpos, hn, pieces, stats, h, hstats, hout⟩

theorem uringBody_ends {r : Except String Unit}
    (hst : uringBody env cfg cancel results input s = .inr (r, t)) :
    t.outOffset = s.outOffset ∧ t.stats = s.stats ∧ (r = .ok () → s.phase = .top) := by
  simp only [uringBody] at hst
  split at hst
  · rename_i hphase
    split at hst
    · obtain ⟨rfl, rfl⟩ := Prod.mk.inj (Sum.inr.inj hst)
      exact ⟨rfl, rfl, fun _ => hphase⟩
    split at hst
    · obtain ⟨rfl, rfl⟩ := Prod.mk.inj (Sum.inr.inj hst)
      exact ⟨rfl, rfl, fun _ => hphase⟩
    split at hst
    · obtain ⟨rfl, rfl⟩ := Prod.mk.inj (Sum.inr.inj hst)
      exact ⟨rfl, rfl, fun _ => hphase⟩
    · split at hst
      · cases hst
      · obtain ⟨rfl, rfl⟩ := Prod.mk.inj (Sum.inr.inj hst)
        exact ⟨rfl, rfl, fun _ => hphase⟩
    · split at hst
      · obtain ⟨rfl, rfl⟩ := Prod.mk.inj (Sum.inr.inj hst)
        exact ⟨rfl, rfl, fun _ => hphase⟩
      · cases hst
  · split at hst
    · cases hst
    · split at hst
      · obtain ⟨rfl, rfl⟩ := Prod.mk.inj (Sum.inr.inj hst)
        exact ⟨rfl, rfl, by simp⟩
      · split at hst
        · cases hst
        · obtain ⟨rfl, rfl⟩ := Prod.mk.inj (Sum.inr.inj hst)
          exact ⟨rfl, rfl, by simp⟩
      · cases hst

theorem executeUringSingle_counted {ring : Option String} {fuel : Nat}
    (hfull : RingFull env cfg cancel results input (.start env cfg before))
    (h : executeUringSingle env ring cancel results fuel cfg input before = some (.ok (), t)) :
    CountedIn cfg (effectiveBlockSize cfg) before (t.outOffset - cfg.seekBytes) t.stats := by
  simp only [executeUringSingle] at h
  split at h
  · simp at h
  · have hstart : RingCopying cfg input ((UringState.start env cfg before).ahead input).length before
        (UringState.start env cfg before) := ⟨[], .start cfg _ _ before _, rfl⟩
    obtain ⟨u, ⟨-, hu⟩, hleave⟩ := runLoop_invariant
      (I := fun s => Iterates (uringBody env cfg cancel results input) (.start env cfg before) s ∧
        RingCopying cfg input ((UringState.start env cfg before).ahead input).length before s)
      (fun s t hs hst =>
        ⟨hs.1.tail hst, uringBody_copying hs.2 (fun n => hfull s n hs.1) hst⟩)
      h ⟨.refl _, hstart⟩
    obtain ⟨hout, hstats, htop⟩ := uringBody_ends hleave
    simp only [RingCopying, htop rfl] at hu
    obtain ⟨pieces, hu, hoffset⟩ := hu
    rw [hout, hstats, hoffset, Nat.add_sub_cancel_left]
    exact ⟨pieces, hu.cutting.even, hu.tally, rfl⟩

end Ring

end Blkcp.Rust
