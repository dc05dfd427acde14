import Blkcp.Lib.Pairs
import Blkcp.Rust.Cancelled
import Blkcp.Rust.FileEffect
set_option autoImplicit false

/-! What `--swab` makes of a stream that arrives in reads of any length. -/

namespace Blkcp.Rust
open Blkcp.Blks Blkcp.Lib

variable {α ρ ω η₂ η₃ : Type} [Octet α]
variable {I : Input α ρ} {O : Output α ω} {env : HashEnv η₂ η₃} {cfg : Config}
variable {rest : ρ → List α} {input : ρ} {file : ω} {out : OutState α ω}

omit [Octet α] in
theorem swabBuffer_eq (buf : List α) : swabBuffer buf = swapPairs buf := by
  induction buf using swabBuffer.induct with
  | case1 a b rest ih => rw [swabBuffer, swapPairs, ih]
  | case2 short h =>
    rcases short with _ | ⟨a, _ | ⟨b, rest⟩⟩
    · rfl
    · rfl
    · exact absurd rfl (h a b rest)

omit [Octet α] in
/-- The blocks read are a first part of the input. -/
theorem ReadFrom.rest_eq (law : ReadsFrom I rest) {blocks : List (List α)} {input' : ρ}
    (h : ReadFrom I input blocks input') : rest input = blocks.flatten ++ rest input' := by
  induction h with
  | start => rfl
  | block _ hread _ ih =>
    rw [ih, (law.data hread).1, List.flatten_append, List.flatten_singleton, List.append_assoc]
  | skip _ hskip ih =>
    rw [ih]
    rcases hskip with hi | ⟨e, he⟩ | hd
    · rw [law.interrupted hi]
    · rw [law.failed he]
    · rw [(law.data hd).1, List.nil_append]

/-- A copy by the synchronous loop, or by a pipeline that was not cancelled half way, that has
returned `Ok`. -/
inductive StreamCopied (I : Input α ρ) (O : Output α ω) (env : HashEnv η₂ η₃) (cfg : Config)
    (input : ρ) (file : ω) : OutState α ω → Prop where
  | sync {cancel : Nat → Bool} {fuel : Nat} {stats : Stats} {y : LoopState α ρ ω η₂ η₃} :
      transferLoop I O env cfg cancel fuel (.start env cfg input file stats) = some (.ok (), y) →
      StreamCopied I O env cfg input file y.out
  | async {stats : Stats} {s : AsyncState α ρ ω η₂ η₃} :
      ((asyncSystem I O env cfg input file stats).restrict fun _ a => AsyncLoyal a).Reachable s →
      s.main = .returned (.ok ()) → StreamCopied I O env cfg input file s.out

/-- The blocks of a copy: read one after another, each written, up to a limit or the end. -/
structure Blockwise (I : Input α ρ) (O : Output α ω) (cfg : Config) (rest : ρ → List α)
    (input : ρ) (file : ω) (blocks : List (List α)) (out : OutState α ω) : Prop where
  read : ∃ input', ReadFrom I input blocks input'
  written : ∃ out', writeAllOk O cfg ⟨file, [], false⟩ blocks = some out' ∧
    out = finishOut O cfg out'
  isPrefix : blocks.flatten <+: rest input
  whole : cfg.limitBytes = none → cfg.count = none → blocks.flatten = rest input

theorem transferLoop_blockwise (law : ReadsFrom I rest) {cancel : Nat → Bool} {fuel : Nat}
    {stats : Stats} {y : LoopState α ρ ω η₂ η₃}
    (h : transferLoop I O env cfg cancel fuel (.start env cfg input file stats) =
      some (.ok (), y)) : ∃ blocks, Blockwise I O cfg rest input file blocks y.out := by
  simp only [transferLoop, Option.map_eq_some_iff] at h
  obtain ⟨⟨r, v⟩, hrun, he⟩ := h
  obtain ⟨u, ⟨⟨blocks, hread, hu⟩, k, b, hspent⟩, hleave⟩ := runLoop_invariant
    (I := fun s => (∃ blocks, ReadFrom I input blocks s.input ∧
        Delivered O env cfg file blocks s.out s.hasher) ∧
      ∃ k b, LoopSpent cfg rest (rest input).length stats k b s)
    (fun s t hs hst => by
      obtain ⟨⟨blocks, hread, hs⟩, k, b, hspent⟩ := hs
      refine ⟨?_, ?_⟩
      · rcases transferBody_continues hst with ⟨ho, hh, n, hskip⟩ | ⟨n, bytes, hdata, hne, hw, hh⟩
        · exact ⟨blocks, hread.skip hskip, by rw [ho, hh]; exact hs⟩
        · exact ⟨blocks ++ [bytes], hread.block hdata hne, by rw [hh]; exact hs.snoc hw⟩
      · rcases hspent.next law hst with ⟨ht, -⟩ | ⟨n, -, -, ht, -⟩
        · exact ⟨k, b, ht⟩
        · exact ⟨k + n, b + 1, ht⟩)
    hrun ⟨⟨[], .start, ⟨rfl, rfl⟩⟩, 0, 0, .start⟩
  cases r with
  | error e => cases he
  | ok _ =>
    obtain ⟨ho, -⟩ := transferBody_stops hleave
    obtain ⟨-, hdone⟩ := transferBody_done hleave
    obtain ⟨-, rfl⟩ := Prod.mk.inj he
    have hrest := hread.rest_eq law
    refine ⟨blocks, ⟨u.input, hread⟩, ⟨v.out, by rw [ho]; exact hu.written, rfl⟩, ?_, ?_⟩
    · exact ⟨_, hrest.symm⟩
    · intro hlimit hcount
      rcases hdone with hz | hz | ⟨hne, input', hr⟩
      · rw [hspent.budget.remaining_eq, hlimit] at hz
        cases hz
      · rw [hspent.blocks, hcount] at hz
        cases hz
      · have hend := ((law.data hr).2 rfl).resolve_left (Nat.ne_of_gt (toRead_pos hne))
        rw [hrest, hend, List.append_nil]

theorem StreamCopied.blockwise (law : ReadsFrom I rest)
    (h : StreamCopied I O env cfg input file out) :
    ∃ blocks, Blockwise I O cfg rest input file blocks out := by
  cases h with
  | sync h => exact transferLoop_blockwise law h
  | async h hr =>
    obtain ⟨fuel, y, hrun, hout, -⟩ := asyncSystem_refines (asyncSystem_uncancelled h) rfl hr
    obtain ⟨blocks, hblocks⟩ := transferLoop_blockwise law hrun
    rw [← hout] at hblocks
    exact ⟨blocks, hblocks⟩

theorem emitted_of_swab (hswab : cfg.swab = true) (hsync : cfg.sync = false)
    (blocks : List (List α)) : emitted cfg blocks = blocks.flatMap swapPairs := by
  refine congrArg (fun f => blocks.flatMap f) (funext fun b => ?_)
  rw [outBlock, hsync, Bool.false_and, if_neg Bool.false_ne_true, swabbed, if_pos hswab,
    swabBuffer_eq]

/-- A swapped copy has the pairs of its stream exchanged exactly if no read of an odd length cuts a
pair, except where the bytes repeat. -/
theorem swab_stream_iff (law : ReadsFrom I rest) (hswab : cfg.swab = true)
    (hsync : cfg.sync = false) (h : StreamCopied I O env cfg input file out) :
    ∃ blocks, Blockwise I O cfg rest input file blocks out ∧
      (PairsSwapped blocks.flatten (emitted cfg blocks) ↔ Unbroken none blocks) := by
  obtain ⟨blocks, hblocks⟩ := h.blockwise law
  refine ⟨blocks, hblocks, ?_⟩
  rw [emitted_of_swab hswab hsync]
  exact flatMap_swapPairs_iff blocks

section Example

omit [Octet α] in
theorem streamInput_readsFrom (lens : Nat → Option Nat) :
    ReadsFrom (streamInput lens : Input α (Stream α)) Stream.rest := by
  constructor
  · intro s n bytes t h
    simp only [streamInput] at h
    split at h
    · cases h
    · rename_i k _
      simp only [Prod.mk.injEq, ReadResult.data.injEq] at h
      obtain ⟨rfl, rfl⟩ := h
      refine ⟨?_, fun hnil => ?_⟩
      · simp only [List.length_take]
        by_cases hle : min n (max k 1) ≤ s.rest.length
        · rw [Nat.min_eq_left hle, List.take_append_drop]
        · have hrest := Nat.le_of_not_le hle
          rw [Nat.min_eq_right hrest, List.take_of_length_le hrest, List.drop_length,
            List.append_nil]
      · rcases List.take_eq_nil_iff.mp hnil with hzero | hrest
        · exact .inl (by omega)
        · exact .inr hrest
  · intro s n t h
    simp only [streamInput] at h
    split at h
    · obtain ⟨-, rfl⟩ := Prod.mk.inj h
      rfl
    · cases h
  · intro s n e t h
    simp only [streamInput] at h
    split at h <;> cases h

/-- Blocks of an odd size. -/
def swabThree : Config := { output := some "out", blockSize := 3, swab := true }

theorem swabThree_run : ∃ y, transferLoop (streamInput fun _ => some 3) contentOutput noCrates
    swabThree (fun _ => false) 3
    (.start noCrates swabThree (⟨[1, 2, 3, 4, 5, 6], 0⟩ : Stream Byte) ([], 0) {}) =
      some (.ok (), y) ∧ y.out.file = ([2, 1, 3, 5, 4, 6], 6) := ⟨_, rfl, rfl⟩

/-- Two whole blocks of three bytes come out as `2 1 3 5 4 6`. -/
theorem swab_stream_cut : ∃ out, StreamCopied (streamInput fun _ => some 3) contentOutput noCrates
    swabThree (⟨[1, 2, 3, 4, 5, 6], 0⟩ : Stream Byte) ([], 0) out ∧
      ¬PairsSwapped [1, 2, 3, 4, 5, 6] out.file.1 := by
  obtain ⟨y, hy, hfile⟩ := swabThree_run
  refine ⟨_, .sync hy, fun h => ?_⟩
  rw [hfile] at h
  exact absurd (h.even 1 (by decide)) (by decide)

theorem swab_stream_iff_swabThree : ∃ (out : OutState Byte (List Byte × Nat)) (blocks : _),
    Blockwise (streamInput fun _ => some 3) contentOutput swabThree Stream.rest
      ⟨[1, 2, 3, 4, 5, 6], 0⟩ ([], 0) blocks out ∧
    (PairsSwapped blocks.flatten (emitted swabThree blocks) ↔ Unbroken none blocks) := by
  obtain ⟨y, hy, -⟩ := swabThree_run
  obtain ⟨blocks, hblocks⟩ :=
    swab_stream_iff (streamInput_readsFrom fun _ => some 3) rfl rfl (.sync hy)
  exact ⟨y.out, blocks, hblocks⟩

end Example

end Blkcp.Rust
