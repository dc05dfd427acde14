import Blkcp.Rust.Splice
set_option autoImplicit false

/-! What the splice loop has moved when it is left, and what the synchronous loop copies. -/

namespace Blkcp.Rust
open Blkcp.Lib

variable {α : Type} [Octet α]

/-- How much of `x` has left the input, and how much of it has reached the output. -/
def SpliceState.taken (x : List α) (s : SpliceState α) : Nat := x.length - s.input.length

def SpliceState.delivered (x : List α) (s : SpliceState α) : Nat :=
  x.length - (s.input.length + s.pipe.length)

/-- What splicing `x` onto `content` at `pos` keeps. -/
structure SpliceInv (x content : List α) (pos : Nat) (s : SpliceState α) : Prop where
  length_le : s.input.length + s.pipe.length ≤ x.length
  rest_eq : s.pipe ++ s.input = x.drop (s.delivered x)
  output_eq : s.output = placeAt Octet.zero content pos (x.take (s.delivered x))
  pos_eq : s.pos = pos + s.delivered x
  inPipe_eq : s.pipe.length = match s.phase with
    | .top => 0
    | .draining _ inPipe => inPipe

namespace SpliceInv

variable {x content : List α} {pos : Nat} {s t : SpliceState α}

theorem start (cfg : Config) (stats : Stats) (hpos : pos ≤ content.length) :
    SpliceInv x content pos (SpliceState.start cfg x content pos stats) := by
  refine ⟨?_, ?_, ?_, ?_, rfl⟩
  all_goals simp [SpliceState.start, SpliceState.delivered, placeAt_nil, hpos]

/-- Steps that move nothing. -/
theorem of_eq (h : SpliceInv x content pos s) (hi : t.input = s.input) (hp : t.pipe = s.pipe)
    (ho : t.output = s.output) (hpos : t.pos = s.pos)
    (hphase : s.pipe.length = match t.phase with
      | .top => 0
      | .draining _ inPipe => inPipe) : SpliceInv x content pos t := by
  have hd : t.delivered x = s.delivered x := by
    simp only [SpliceState.delivered, hi, hp]
  refine ⟨?_, ?_, ?_, ?_, ?_⟩
  · rw [hi, hp]; exact h.length_le
  · rw [hi, hp, hd]; exact h.rest_eq
  · rw [ho, hd]; exact h.output_eq
  · rw [hpos, hd]; exact h.pos_eq
  · rw [hp]; exact hphase

/-- A call that moves bytes from the input into the empty pipe. -/
theorem fill (h : SpliceInv x content pos s) (hpipe : s.pipe = []) (k : Nat)
    (hi : t.input = s.input.drop (s.input.take k).length) (hp : t.pipe = s.pipe ++ s.input.take k)
    (ho : t.output = s.output) (hpos : t.pos = s.pos)
    (hphase : t.pipe.length = match t.phase with
      | .top => 0
      | .draining _ inPipe => inPipe) : SpliceInv x content pos t := by
  have happ : t.pipe ++ t.input = s.pipe ++ s.input := by
    rw [hi, hp, hpipe, List.nil_append, List.nil_append, take_append_drop_length]
  have hlen : t.input.length + t.pipe.length = s.input.length + s.pipe.length := by
    have := congrArg List.length happ
    simp only [List.length_append] at this
    omega
  have hd : t.delivered x = s.delivered x := by
    simp only [SpliceState.delivered, hlen]
  refine ⟨?_, ?_, ?_, ?_, hphase⟩
  · rw [hlen]; exact h.length_le
  · rw [happ, hd]; exact h.rest_eq
  · rw [ho, hd]; exact h.output_eq
  · rw [hpos, hd]; exact h.pos_eq

/-- A call that moves bytes from the pipe to the output. -/
theorem drain (h : SpliceInv x content pos s) (k : Nat)
    (hi : t.input = s.input) (hp : t.pipe = s.pipe.drop (s.pipe.take k).length)
    (ho : t.output = placeAt Octet.zero s.output s.pos (s.pipe.take k))
    (hpos : t.pos = s.pos + (s.pipe.take k).length)
    (hphase : t.pipe.length = match t.phase with
      | .top => 0
      | .draining _ inPipe => inPipe) : SpliceInv x content pos t := by
  have hle := h.length_le
  have hk : (s.pipe.take k).length ≤ s.pipe.length := List.length_take_le' k s.pipe
  have hd : t.delivered x = s.delivered x + (s.pipe.take k).length := by
    simp only [SpliceState.delivered, hi, hp, List.length_drop]
    omega
  have hmoved : x.take (t.delivered x) = x.take (s.delivered x) ++ s.pipe.take k := by
    rw [hd, List.take_add, ← h.rest_eq, List.take_append_of_le_length hk]
    congr 1
    rw [List.length_take, List.take_eq_take_iff]
    omega
  have hdl : (x.take (s.delivered x)).length = s.delivered x := by
    rw [List.length_take, SpliceState.delivered]
    omega
  refine ⟨?_, ?_, ?_, ?_, hphase⟩
  · rw [hi, hp, List.length_drop]; omega
  · rw [hd, ← List.drop_drop, ← h.rest_eq, hi, hp, List.drop_append_of_le_length hk]
  · rw [ho, h.output_eq, h.pos_eq, hmoved, ← placeAt_append, hdl]
  · rw [hpos, h.pos_eq, hd]; omega

end SpliceInv

variable {x content : List α} {pos : Nat} {s t : SpliceState α}
variable {cfg : Config} {cancel : Nat → Bool} {results : Nat → SpliceResult}

theorem spliceBody_inv (h : SpliceInv x content pos s)
    (hstep : spliceBody cfg cancel results s = .inl t) : SpliceInv x content pos t := by
  have hphase := h.inPipe_eq
  simp only [spliceBody] at hstep
  split at hstep
  · rename_i htop
    rw [htop] at hphase
    have hempty : s.pipe = [] := List.length_eq_zero_iff.mp hphase
    split at hstep
    · simp at hstep
    · split at hstep
      · simp at hstep
      · split at hstep
        · split at hstep
          · obtain rfl := Sum.inl.inj hstep
            exact h.of_eq rfl rfl rfl rfl (by simpa [htop] using hphase)
          · split at hstep <;> simp at hstep
        · split at hstep
          · simp at hstep
          · obtain rfl := Sum.inl.inj hstep
            refine h.fill hempty _ rfl rfl rfl rfl ?_
            simp [hempty]
  · rename_i nIn inPipe hdrain
    rw [hdrain] at hphase
    simp only at hphase
    split at hstep
    · rename_i hzero
      obtain rfl := Sum.inl.inj hstep
      exact h.of_eq rfl rfl rfl rfl (by simpa [hzero] using hphase)
    · split at hstep
      · split at hstep
        · obtain rfl := Sum.inl.inj hstep
          exact h.of_eq rfl rfl rfl rfl (by simpa [hdrain] using hphase)
        · simp at hstep
      · obtain rfl := Sum.inl.inj hstep
        refine h.drain _ rfl rfl rfl rfl ?_
        simp [hphase]

/-- Leaving the loop moves nothing, and without a limit `Ok(true)` is end of input. -/
theorem spliceBody_leaves {r : Except String Bool} (h : SpliceInv x content pos s)
    (hlimit : s.remaining = none) (hstep : spliceBody cfg cancel results s = .inr (r, t)) :
    SpliceInv x content pos t ∧ (r = .ok true → t.input = [] ∧ t.pipe = []) := by
  have hphase := h.inPipe_eq
  simp only [spliceBody] at hstep
  split at hstep
  · rename_i htop
    rw [htop] at hphase
    have hempty : s.pipe = [] := List.length_eq_zero_iff.mp hphase
    split at hstep
    · obtain ⟨rfl, rfl⟩ := Prod.mk.inj (Sum.inr.inj hstep)
      exact ⟨h, by simp⟩
    · split at hstep
      · simp_all
      · split at hstep
        · split at hstep
          · simp at hstep
          · split at hstep
            · obtain ⟨rfl, rfl⟩ := Prod.mk.inj (Sum.inr.inj hstep)
              exact ⟨h.of_eq rfl rfl rfl rfl (by simpa [htop] using hphase), by simp⟩
            · obtain ⟨rfl, rfl⟩ := Prod.mk.inj (Sum.inr.inj hstep)
              exact ⟨h.of_eq rfl rfl rfl rfl (by simpa [htop] using hphase), by simp⟩
        · split at hstep
          · rename_i heof
            obtain ⟨rfl, rfl⟩ := Prod.mk.inj (Sum.inr.inj hstep)
            refine ⟨h.of_eq rfl rfl rfl rfl (by simpa [htop] using hphase), fun _ => ⟨?_, hempty⟩⟩
            rw [hlimit] at heof
            simp only [List.take_eq_nil_iff, spliceRequest, spliceChunkSize] at heof
            exact heof.resolve_left (by omega)
          · simp at hstep
  · split at hstep
    · simp at hstep
    · split at hstep
      · split at hstep
        · simp at hstep
        · rename_i nIn inPipe hdrain _ _ _ _
          obtain ⟨rfl, rfl⟩ := Prod.mk.inj (Sum.inr.inj hstep)
          exact ⟨h.of_eq rfl rfl rfl rfl h.inPipe_eq, by simp⟩
      · simp at hstep

theorem spliceBody_noLimit (hlimit : s.remaining = none)
    (hstep : spliceBody cfg cancel results s = .inl t) : t.remaining = none := by
  simp only [spliceBody] at hstep
  repeat' split at hstep
  all_goals first
    | (obtain rfl := Sum.inl.inj hstep; simp [hlimit])
    | simp at hstep

theorem spliceRun_spec {pipeOk : Bool} {fuel : Nat} {stats : Stats} {r : Except String Bool}
    (hlimit : cfg.limitBytes = none) (hcount : cfg.count = none) (hpos : pos ≤ content.length)
    (h : spliceRun pipeOk cancel results fuel cfg x content pos stats = some (r, t)) :
    SpliceInv x content pos t ∧ (r = .ok true → t.input = [] ∧ t.pipe = []) := by
  have hstart := SpliceInv.start (x := x) cfg stats hpos
  simp only [spliceRun] at h
  split at h
  · have hnone : (SpliceState.start cfg x content pos stats).remaining = none := by
      simp [SpliceState.start, remainingTotal, hlimit, hcount]
    obtain ⟨u, ⟨hu, hun⟩, hleave⟩ := runLoop_invariant
      (I := fun s => SpliceInv x content pos s ∧ s.remaining = none)
      (fun s t hs hst => ⟨spliceBody_inv hs.1 hst, spliceBody_noLimit hs.2 hst⟩) h
      ⟨hstart, hnone⟩
    exact spliceBody_leaves hu hun hleave
  · obtain ⟨rfl, rfl⟩ := Prod.mk.inj (Option.some.inj h)
    exact ⟨hstart, by simp⟩

/-- The pipe holds what is counted of it. -/
theorem splice_pipe_length {input output : List α} {stats : Stats}
    (h : Iterates (spliceBody cfg cancel results) (.start cfg input output pos stats) s) :
    s.pipe.length = match s.phase with
      | .top => 0
      | .draining _ inPipe => inPipe := by
  refine h.invariant (I := fun u => u.pipe.length = match u.phase with
      | .top => 0
      | .draining _ inPipe => inPipe) (fun u v hu hb => ?_) rfl
  simp only [spliceBody] at hb
  split at hb
  · rename_i hphase
    rw [hphase] at hu
    split at hb
    · cases hb
    split at hb
    · cases hb
    split at hb
    · split at hb
      · obtain rfl := Sum.inl.inj hb
        rwa [hphase]
      · split at hb <;> cases hb
    · split at hb
      · cases hb
      · obtain rfl := Sum.inl.inj hb
        simp only [List.length_append, hu, Nat.zero_add]
  · rename_i nIn inPipe hphase
    rw [hphase] at hu
    split at hb
    · rename_i hzero
      obtain rfl := Sum.inl.inj hb
      exact hu.trans hzero
    · split at hb
      · split at hb
        · obtain rfl := Sum.inl.inj hb
          rwa [hphase]
        · cases hb
      · obtain rfl := Sum.inl.inj hb
        simp only [List.length_drop, hu]

section SyncLoop

variable {η₂ η₃ : Type} {env : HashEnv η₂ η₃} {lens : Nat → Option Nat}

theorem writeBlock_plain (cfg : Config) (context : String) (block : List α)
    (out : OutState α (List α × Nat)) (hsparse : cfg.sparse = false)
    (hhole : out.lastWasSparseHole = false) :
    ∃ out', writeBlock contentOutput cfg context block out = (.ok (), out') ∧
      out'.file = (placeAt Octet.zero out.file.1 out.file.2 block, out.file.2 + block.length) ∧
      out'.lastWasSparseHole = false := by
  simp only [writeBlock, hsparse, OutState.writeAll, OutState.call, contentOutput]
  split
  · exact ⟨_, rfl, rfl, rfl⟩
  · exact ⟨_, rfl, rfl, hhole⟩

theorem deliverBlock_plain (cfg : Config) (context : String) (buffer bytes : List α)
    (out : OutState α (List α × Nat)) (stats : Stats) (hswab : cfg.swab = false)
    (hsync : cfg.sync = false) (hsparse : cfg.sparse = false)
    (hhole : out.lastWasSparseHole = false) :
    ∃ out' stats' buffer', deliverBlock contentOutput cfg context (readInto buffer bytes)
        bytes.length out stats = (.ok (), out', stats', buffer') ∧
      out'.file = (placeAt Octet.zero out.file.1 out.file.2 bytes, out.file.2 + bytes.length) ∧
      out'.lastWasSparseHole = false := by
  obtain ⟨out', hw, hfile, hhole'⟩ := writeBlock_plain cfg context bytes out hsparse hhole
  have htake : (readInto buffer bytes).take bytes.length = bytes := by
    rw [readInto, List.take_left']
    rfl
  have hd : (deliverBlock contentOutput cfg context (readInto buffer bytes) bytes.length out
        stats).1 = .ok () ∧
      (deliverBlock contentOutput cfg context (readInto buffer bytes) bytes.length out
        stats).2.1 = out' := by
    simp only [deliverBlock, swabPrefix, padBlock, hswab, hsync, Bool.false_and,
      Bool.false_eq_true, if_false, htake, hw]
    simp
  exact ⟨out', _, _, Prod.ext hd.1 (Prod.ext hd.2 rfl), hfile, hhole'⟩

/-- What the loop keeps when nothing transforms or limits the copy of `x`. -/
structure LoopInv (x content : List α) (pos : Nat)
    (s : LoopState α (Stream α) (List α × Nat) η₂ η₃) : Prop where
  noByteLimit : s.remainingBytes = none
  noBlockLimit : s.remainingBlocks = none
  noHole : s.out.lastWasSparseHole = false
  copied : ∃ done, done ++ s.input.rest = x ∧
    s.out.file = (placeAt Octet.zero content pos done, pos + done.length)

variable {u v : LoopState α (Stream α) (List α × Nat) η₂ η₃}

theorem toRead_none (cfg : Config) : 0 < toRead cfg none := by
  simp only [toRead, effectiveBlockSize]
  omega

theorem transferBody_inv (hswab : cfg.swab = false) (hsync : cfg.sync = false)
    (hsparse : cfg.sparse = false) (h : LoopInv x content pos u)
    (hstep : transferBody (streamInput lens) contentOutput env cfg cancel u = .inl v) :
    LoopInv x content pos v := by
  obtain ⟨done, hdone, hfile⟩ := h.copied
  simp only [transferBody, h.noByteLimit, h.noBlockLimit, reduceCtorEq, if_false] at hstep
  split at hstep
  · simp at hstep
  · split at hstep
    · simp at hstep
    · rename_i input hread
      obtain rfl := Sum.inl.inj hstep
      refine ⟨rfl, rfl, h.noHole, done, ?_, hfile⟩
      rw [← hdone]
      simp only [streamInput] at hread
      split at hread
      · obtain ⟨-, rfl⟩ := Prod.mk.inj hread
        rfl
      · simp at hread
    · rename_i e input hread
      simp only [streamInput] at hread
      split at hread <;> simp at hread
    · rename_i bytes input _ hread
      obtain ⟨hrest, -⟩ := streamInput_data hread
      obtain ⟨out', stats', buffer', hdel, hout, hhole⟩ := deliverBlock_plain cfg
        "Write error: " u.buffer bytes u.out u.stats hswab hsync hsparse h.noHole
      rw [hdel] at hstep
      obtain rfl := Sum.inl.inj hstep
      refine ⟨rfl, rfl, hhole, done ++ bytes, ?_, ?_⟩
      · rw [List.append_assoc, hrest, hdone]
      · rw [hout, hfile, placeAt_append, List.length_append, Nat.add_assoc]

theorem transferBody_leaves (hswab : cfg.swab = false) (hsync : cfg.sync = false)
    (hsparse : cfg.sparse = false) (h : LoopInv x content pos u)
    (hstep : transferBody (streamInput lens) contentOutput env cfg cancel u = .inr (.ok (), v)) :
    v.out = u.out ∧ v.out.file.1 = placeAt Octet.zero content pos x ∧ v.input.rest = [] := by
  obtain ⟨done, hdone, hfile⟩ := h.copied
  simp only [transferBody, h.noByteLimit, h.noBlockLimit, reduceCtorEq, if_false] at hstep
  split at hstep
  · simp at hstep
  · split at hstep
    · rename_i input hread
      obtain ⟨hrest, heof⟩ := streamInput_data hread
      have hnil := heof (toRead_none cfg) rfl
      obtain ⟨-, rfl⟩ := Prod.mk.inj (Sum.inr.inj hstep)
      rw [hnil, List.append_nil] at hdone
      rw [hnil, List.nil_append] at hrest
      exact ⟨rfl, by rw [hfile, hdone], hrest⟩
    · simp at hstep
    · rename_i e input hread
      simp only [streamInput] at hread
      split at hread <;> simp at hread
    · rename_i bytes input _ hread
      obtain ⟨out', stats', buffer', hdel, -, -⟩ := deliverBlock_plain cfg
        "Write error: " u.buffer bytes u.out u.stats hswab hsync hsparse h.noHole
      rw [hdel] at hstep
      simp at hstep

/-- A synchronous copy that succeeds has written all of its input where it started. -/
theorem transferCopy_spec {fuel : Nat} {stats : Stats} {e : Effect α (Except String HashInfo)}
    {hash : HashInfo} (hswab : cfg.swab = false) (hsync : cfg.sync = false)
    (hsparse : cfg.sparse = false) (hlimit : cfg.limitBytes = none) (hcount : cfg.count = none)
    (hpos : pos ≤ content.length)
    (h : transferCopy env lens cancel fuel cfg x content pos stats = some e)
    (hok : e.result = .ok hash) : e.output = placeAt Octet.zero content pos x := by
  have hstart : LoopInv x content pos
      (LoopState.start env cfg (⟨x, 0⟩ : Stream α) (content, pos) stats) := by
    refine ⟨hlimit, hcount, rfl, [], rfl, ?_⟩
    rw [placeAt_nil _ _ hpos]
    rfl
  simp only [transferCopy, transferLoop, Option.map_map, Option.map_eq_some_iff] at h
  obtain ⟨⟨r, v⟩, hrun, he⟩ := h
  obtain ⟨u, hu, hleave⟩ := runLoop_invariant (I := LoopInv x content pos)
    (fun s t hs hst => transferBody_inv hswab hsync hsparse hs hst) hrun hstart
  cases r with
  | error msg =>
    subst he
    simp at hok
  | ok _ =>
    obtain ⟨hout, hfile, -⟩ := transferBody_leaves hswab hsync hsparse hu hleave
    subst he
    have hhole : v.out.lastWasSparseHole = false := by rw [hout]; exact hu.noHole
    simp only [Function.comp_apply, finishOut, hhole, Bool.and_false, Bool.false_eq_true, if_false]
    exact hfile

end SyncLoop

end Blkcp.Rust
