import Blkcp.Rust.DigestOnTarget
set_option autoImplicit false

/-! Passing over zero blocks in a file that was empty leaves what writing them leaves. -/

namespace Blkcp.Rust
open Blkcp.Lib Blkcp.Blks

variable {ρ ω η₂ η₃ : Type} {I : Input Byte ρ} {O : Output Byte ω} {env : HashEnv η₂ η₃}
  {cfg : Config}

section Reads

variable {α : Type} {I : Input α ρ}

/-- What the reads of a copy depend on, and the blocks they gave. -/
structure ReadState (α ρ : Type) where
  input : ρ
  remainingBytes : Option Nat
  remainingBlocks : Option Nat
  blocks : List (List α)

/-- The loop of a copy without what it does to its output. -/
def readBody (I : Input α ρ) (cfg : Config) (s : ReadState α ρ) :
    ReadState α ρ ⊕ Option (List (List α)) :=
  if s.remainingBytes = some 0 then .inr (some s.blocks)
  else if s.remainingBlocks = some 0 then .inr (some s.blocks)
  else
    match I.read s.input (toRead cfg s.remainingBytes) with
    | (.data [], _) => .inr (some s.blocks)
    | (.interrupted, input) => .inl { s with input := input }
    | (.failed _, input) => if cfg.noerror then .inl { s with input := input } else .inr none
    | (.data bytes, input) => .inl {
        input := input
        remainingBytes := s.remainingBytes.map (· - bytes.length)
        remainingBlocks := s.remainingBlocks.map (· - 1)
        blocks := s.blocks ++ [bytes] }

end Reads

variable {file : ω} {cancel : Nat → Bool}

/-- The copy has made these reads and written their blocks. -/
structure Reading (O : Output Byte ω) (cfg : Config) (file : ω)
    (u : LoopState Byte ρ ω η₂ η₃) (s : ReadState Byte ρ) : Prop where
  input_eq : s.input = u.input
  bytes_eq : s.remainingBytes = u.remainingBytes
  blocks_eq : s.remainingBlocks = u.remainingBlocks
  written : writeAllOk O cfg ⟨file, [], false⟩ s.blocks = some u.out

theorem Reading.step {u v : LoopState Byte ρ ω η₂ η₃} {s : ReadState Byte ρ}
    (h : Reading O cfg file u s) (hst : transferBody I O env cfg cancel u = .inl v) :
    ∃ t, readBody I cfg s = .inl t ∧ Reading O cfg file v t := by
  obtain ⟨input, remBytes, remBlocks, blocks⟩ := s
  obtain ⟨rfl, rfl, rfl, hwritten⟩ := h
  simp only [transferBody] at hst
  simp only [readBody]
  split at hst
  · cases hst
  split at hst
  · cases hst
  rename_i hbytes
  rw [if_neg hbytes]
  split at hst
  · cases hst
  rename_i hblocks
  rw [if_neg hblocks]
  split at hst
  · cases hst
  · rename_i hread
    obtain rfl := Sum.inl.inj hst
    simp only [hread]
    exact ⟨_, rfl, rfl, rfl, rfl, hwritten⟩
  · rename_i hread
    split at hst
    · rename_i hnoerror
      obtain rfl := Sum.inl.inj hst
      simp only [hread, if_pos hnoerror]
      exact ⟨_, rfl, rfl, rfl, rfl, hwritten⟩
    · cases hst
  · rename_i bytes input hne hread
    split at hst
    · cases hst
    · rename_i out stats buf hdel
      obtain rfl := Sum.inl.inj hst
      obtain ⟨hok, -⟩ := (deliverBlock_ok_iff "Write error: " (Message.ofRead u.buffer bytes) u.out
        u.stats).mp ⟨_, hdel⟩
      rw [Message.bytes_ofRead] at hok
      obtain ⟨b, bs, rfl⟩ := List.exists_cons_of_ne_nil fun hnil : bytes = [] => hne (by rw [hnil])
      simp only [hread]
      refine ⟨_, rfl, rfl, rfl, rfl, ?_⟩
      rw [writeAllOk_snoc, hwritten]
      exact hok

theorem Reading.leave {u v : LoopState Byte ρ ω η₂ η₃} {s : ReadState Byte ρ}
    (h : Reading O cfg file u s) (hst : transferBody I O env cfg cancel u = .inr (.ok (), v)) :
    ∃ r, readBody I cfg s = .inr r ∧ ∃ blocks, r = some blocks ∧
      writeAllOk O cfg ⟨file, [], false⟩ blocks = some v.out := by
  have hout := (transferBody_stops hst).1
  obtain ⟨input, remBytes, remBlocks, blocks⟩ := s
  obtain ⟨rfl, rfl, rfl, hwritten⟩ := h
  rw [← hout] at hwritten
  simp only [transferBody] at hst
  simp only [readBody]
  split at hst
  · cases hst
  split at hst
  · rename_i hbytes
    rw [if_pos hbytes]
    exact ⟨_, rfl, _, rfl, hwritten⟩
  rename_i hbytes
  rw [if_neg hbytes]
  split at hst
  · rename_i hblocks
    rw [if_pos hblocks]
    exact ⟨_, rfl, _, rfl, hwritten⟩
  rename_i hblocks
  rw [if_neg hblocks]
  split at hst
  · rename_i hread
    simp only [hread]
    exact ⟨_, rfl, _, rfl, hwritten⟩
  · cases hst
  · split at hst <;> cases hst
  · split at hst <;> cases hst

/-- A copy that succeeds has written the blocks that the reads alone determine. -/
theorem transferLoop_reads {fuel : Nat} {input : ρ} {stats : Stats} {y : LoopState Byte ρ ω η₂ η₃}
    (h : transferLoop I O env cfg cancel fuel (.start env cfg input file stats) =
      some (.ok (), y)) :
    ∃ blocks out, runLoop (readBody I cfg) fuel ⟨input, cfg.limitBytes, cfg.count, []⟩ =
        some (some blocks) ∧
      writeAllOk O cfg ⟨file, [], false⟩ blocks = some out ∧ y.out = finishOut O cfg out := by
  simp only [transferLoop, Option.map_eq_some_iff] at h
  obtain ⟨⟨_ | _, v⟩, hrun, he⟩ := h
  · cases he
  · obtain ⟨-, rfl⟩ := Prod.mk.inj he
    have hstart : Reading O cfg file (LoopState.start env cfg input file stats)
        ⟨input, cfg.limitBytes, cfg.count, []⟩ := ⟨rfl, rfl, rfl, rfl⟩
    obtain ⟨r, hr, blocks, rfl, hwritten⟩ := runLoop_simulates
      (Q := fun x r => ∃ blocks, r = some blocks ∧
        writeAllOk O cfg ⟨file, [], false⟩ blocks = some x.2.out)
      (fun u s v h hst => Reading.step h hst) (fun u s h hst => Reading.leave h hst) hrun hstart
    exact ⟨blocks, v.out, hr, hwritten, rfl⟩

/-- A copy by the synchronous loop or the asynchronous pipeline that has succeeded and was not
cancelled, with the output it leaves. -/
inductive Succeeded (I : Input Byte ρ) (O : Output Byte ω) (env : HashEnv η₂ η₃) (cfg : Config)
    (input : ρ) (file : ω) : OutState Byte ω → Prop where
  | sync {cancel : Nat → Bool} {fuel : Nat} {stats : Stats} {y : LoopState Byte ρ ω η₂ η₃} :
      transferLoop I O env cfg cancel fuel (.start env cfg input file stats) = some (.ok (), y) →
      Succeeded I O env cfg input file y.out
  | async {stats : Stats} {s : AsyncState Byte ρ ω η₂ η₃} :
      (asyncSystem I O env cfg input file stats).Reachable s → s.cancelled = false →
      s.main = .returned (.ok ()) → Succeeded I O env cfg input file s.out

variable {input : ρ} {out : OutState Byte ω} {view : ω → List Byte × Nat}

theorem Succeeded.reads (h : Succeeded I O env cfg input file out) :
    ∃ fuel blocks out', runLoop (readBody I cfg) fuel ⟨input, cfg.limitBytes, cfg.count, []⟩ =
        some (some blocks) ∧
      writeAllOk O cfg ⟨file, [], false⟩ blocks = some out' ∧ out = finishOut O cfg out' := by
  cases h with
  | sync hrun => exact ⟨_, transferLoop_reads hrun⟩
  | async hreach hc hr =>
    obtain ⟨fuel, y, hrun, hout, -⟩ := asyncSystem_refines hreach hc hr
    rw [hout]
    exact ⟨fuel, transferLoop_reads hrun⟩

/-- No block is empty. -/
theorem readBody_ne_nil {fuel : Nat} {s : ReadState Byte ρ} {blocks : List (List Byte)}
    (h : runLoop (readBody I cfg) fuel s = some (some blocks)) (hs : ∀ b ∈ s.blocks, b ≠ []) :
    ∀ b ∈ blocks, b ≠ [] := by
  obtain ⟨t, ht, hleave⟩ := runLoop_invariant (I := fun s => ∀ b ∈ s.blocks, b ≠ [])
    (fun s t hs hst => by
      simp only [readBody] at hst
      split at hst
      · cases hst
      split at hst
      · cases hst
      split at hst
      · cases hst
      · obtain rfl := Sum.inl.inj hst
        exact hs
      · split at hst
        · obtain rfl := Sum.inl.inj hst
          exact hs
        · cases hst
      · rename_i bytes input hne _
        obtain rfl := Sum.inl.inj hst
        intro b hb
        rcases List.mem_append.mp hb with hb | hb
        · exact hs b hb
        · rw [List.mem_singleton.mp hb]
          exact fun hnil => hne (by rw [hnil])) h hs
  simp only [readBody] at hleave
  split at hleave
  · obtain rfl := Option.some.inj (Sum.inr.inj hleave)
    exact ht
  split at hleave
  · obtain rfl := Option.some.inj (Sum.inr.inj hleave)
    exact ht
  split at hleave
  · obtain rfl := Option.some.inj (Sum.inr.inj hleave)
    exact ht
  · cases hleave
  · split at hleave <;> cases hleave
  · cases hleave

/-- What a copy into an empty file leaves there, holes or not. -/
theorem view_fresh (law : RegularFile O cfg.direct view) (hfresh : (view file).1 = [])
    {blocks : List (List Byte)} (hne : ∀ b ∈ blocks, b ≠ []) {out : OutState Byte ω}
    (h : writeAllOk O cfg ⟨file, [], false⟩ blocks = some out) :
    (view (finishOut O cfg out).file).1 =
      if blocks = [] then [] else List.replicate (view file).2 0 ++ emitted cfg blocks := by
  rw [view_finishOut law hne h, hfresh]
  split
  · rename_i hnil
    rw [hnil]
    rfl
  · rename_i hsome
    have hpieces : pieces cfg blocks ≠ [] := fun h => hsome (List.map_eq_nil_iff.mp h)
    rw [← map_allCells_pieces]
    exact sealed_fresh _ (pieces_proper hne) hpieces

/-- A file that is empty at the start holds the same after a copy with `sparse` and without. -/
theorem sparse_fresh (law : RegularFile O cfg.direct view) (hfresh : (view file).1 = [])
    {out out' : OutState Byte ω}
    (h : Succeeded I O env { cfg with sparse := true } input file out)
    (h' : Succeeded I O env { cfg with sparse := false } input file out') :
    (view out.file).1 = (view out'.file).1 := by
  obtain ⟨fuel, blocks, mid, hread, hwritten, rfl⟩ := h.reads
  obtain ⟨fuel', blocks', mid', hread', hwritten', rfl⟩ := h'.reads
  have hsame : some blocks = some blocks' := runLoop_unique hread hread'
  obtain rfl := Option.some.inj hsame
  have hne := readBody_ne_nil hread nofun
  have hon : RegularFile O ({ cfg with sparse := true } : Config).direct view := law
  have hoff : RegularFile O ({ cfg with sparse := false } : Config).direct view := law
  rw [view_fresh hon hfresh hne hwritten, view_fresh hoff hfresh hne hwritten']
  rfl

section Example

/-- A zero, a one and a zero, each a block, from the second byte of the file on. -/
def zeroEnds : Config := { output := some "out", blockSize := 1 }

theorem sparse_fresh_zeroEnds : ∃ out out' : OutState Byte (List Byte × Nat),
    out.file.1 = [0, 0, 1, 0] ∧ out.file.1 = out'.file.1 := by
  obtain ⟨y, hrun, hview⟩ : ∃ y, transferLoop (streamInput fun _ => some 1) contentOutput noCrates
      { zeroEnds with sparse := true } (fun _ => false) 4
      (.start noCrates { zeroEnds with sparse := true } (⟨[0, 1, 0], 0⟩ : Stream Byte) ([], 1) {}) =
        some (.ok (), y) ∧ y.out.file.1 = [0, 0, 1, 0] := ⟨_, rfl, rfl⟩
  obtain ⟨y', hrun'⟩ : ∃ y', transferLoop (streamInput fun _ => some 1) contentOutput noCrates
      { zeroEnds with sparse := false } (fun _ => false) 4
      (.start noCrates { zeroEnds with sparse := false } (⟨[0, 1, 0], 0⟩ : Stream Byte) ([], 1) {}) =
        some (.ok (), y') := ⟨_, rfl⟩
  have hlaw : RegularFile contentOutput zeroEnds.direct (id : List Byte × Nat → _) :=
    contentOutput_regular _
  exact ⟨y.out, y'.out, hview, sparse_fresh hlaw rfl (.sync hrun) (.sync hrun')⟩

end Example

end Blkcp.Rust
