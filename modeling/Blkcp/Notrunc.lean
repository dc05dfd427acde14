import Blkcp.C.FileEffect
import Blkcp.Rust.DigestOnTarget
import Blkcp.Rust.OpenedOutput
set_option autoImplicit false

/-! What `notrunc` keeps of an existing output, in both programs. -/

namespace Blkcp
open Blkcp.Lib

/-- The output is no shorter, and unchanged outside the `W` bytes from `seek` on. -/
def Framed (old new : List Blks.Byte) (seek W : Nat) : Prop :=
  old.length ≤ new.length ∧ ∀ p < old.length, p < seek ∨ seek + W ≤ p → new[p]? = old[p]?

/-- The last block is written, or nothing of the output lies behind it. -/
def EndWritten (old : List Blks.Byte) (seek W : Nat) (ps : List (Piece Blks.Byte)) : Prop :=
  endsInGap ps = false ∨ old.length ≤ seek + W

theorem framed_sealed_iff (old : List Blks.Byte) (seek : Nat) {ps : List (Piece Blks.Byte)}
    {W : Nat} (hW : (allCells ps).length = W) :
    Framed old (sealed 0 old seek ps) seek W ↔ EndWritten old seek W ps := by
  rw [← hW]
  exact frame_sealed_iff old seek ps

namespace Rust
open Blkcp.Blks

variable {ρ ω η₂ η₃ : Type} {I : Input Byte ρ} {O : Output Byte ω} {env : HashEnv η₂ η₃}
  {cfg : Config} {view : ω → List Byte × Nat} {old content : List Byte} {pos : Nat} {input : ρ}
  {file : ω} {out : OutState Byte ω} {hasher : InFlightHasher η₂ η₃}

theorem notrunc_frame (law : RegularFile O cfg.direct view) (hnotrunc : cfg.notrunc = true)
    (hopen : OpenedAt cfg old content pos) (hview : view file = (content, pos))
    (h : Finished I O env cfg input file out hasher) :
    ∃ blocks rest input' out', ReadFrom I input (blocks ++ rest) input' ∧
      Delivered O env cfg file blocks out' hasher ∧ out = finishOut O cfg out' ∧
      let W := (emitted cfg blocks).length
      (Framed old (view out.file).1 cfg.seekBytes W ↔
        EndWritten old cfg.seekBytes W (pieces cfg blocks)) := by
  obtain ⟨blocks, rest, input', out', hread, hdel, hout⟩ := h.delivered
  refine ⟨blocks, rest, input', out', hread, hdel, hout, ?_⟩
  obtain ⟨hcontent, hpos⟩ := openedAt_eq hopen
  rw [if_pos hnotrunc] at hcontent
  have hne : ∀ b ∈ blocks, b ≠ [] := fun b hb => hread.ne_nil b (List.mem_append_left _ hb)
  rw [hout, view_finishOut law hne hdel.written, hview, hcontent, hpos]
  exact framed_sealed_iff old cfg.seekBytes (length_allCells_pieces blocks)

end Rust

namespace C

variable {ρ ω : Type} {I : Input ρ} {O : Output ω} {env : Env} {cfg : Config}
  {view : ω → List Byte × Nat} {old : List Byte} {input : ρ} {file : ω} {ctx : Ctx ρ ω}

theorem notrunc_frame (law : RegularFile O view) (hpos : 0 < cfg.blocksize)
    (hnotrunc : cfg.conversions.notrunc = true)
    (hview : view file = (setupOutputStream cfg old, 0))
    (h : ddCopySync I O env (Ctx.start cfg input file) = .ok (.success, ctx)) :
    let W := ctx.out.delivered.length
    (Framed old (view ctx.out.file).1 (seekStart cfg) W ↔
      EndWritten old (seekStart cfg) W (callPieces cfg ctx.out.calls)) := by
  have hcontent : setupOutputStream cfg old = old := if_pos (.inr (.inr hnotrunc))
  rw [hcontent] at hview
  obtain ⟨hnew, hsound⟩ := ddCopySync_regular law hpos hview h
  rw [hnew]
  exact framed_sealed_iff old (seekStart cfg) (length_allCells_callPieces hsound)

end C

/-- In both programs the rest of the output is kept exactly unless a hole ends inside it. -/
theorem notrunc_frame_iff (old : List Blks.Byte) :
    (∀ {ρ ω η₂ η₃ : Type} {I : Rust.Input Blks.Byte ρ} {O : Rust.Output Blks.Byte ω}
      {env : Rust.HashEnv η₂ η₃} {cfg : Rust.Config} {view : ω → List Blks.Byte × Nat}
      {content : List Blks.Byte} {pos : Nat} {input : ρ} {file : ω}
      {out : Rust.OutState Blks.Byte ω} {hasher : Rust.InFlightHasher η₂ η₃},
      Rust.RegularFile O cfg.direct view → cfg.notrunc = true →
      Rust.OpenedAt cfg old content pos → view file = (content, pos) →
      Rust.Finished I O env cfg input file out hasher →
      ∃ blocks rest input' out', Rust.ReadFrom I input (blocks ++ rest) input' ∧
        Rust.Delivered O env cfg file blocks out' hasher ∧ out = Rust.finishOut O cfg out' ∧
        let W := (Rust.emitted cfg blocks).length
        (Framed old (view out.file).1 cfg.seekBytes W ↔
          EndWritten old cfg.seekBytes W (Rust.pieces cfg blocks))) ∧
    ∀ {ρ ω : Type} {I : C.Input ρ} {O : C.Output ω} {env : C.Env} {cfg : C.Config}
      {view : ω → List Blks.Byte × Nat} {input : ρ} {file : ω} {ctx : C.Ctx ρ ω},
      C.RegularFile O view → 0 < cfg.blocksize → cfg.conversions.notrunc = true →
      view file = (C.setupOutputStream cfg old, 0) →
      C.ddCopySync I O env (C.Ctx.start cfg input file) = .ok (.success, ctx) →
      let W := ctx.out.delivered.length
      (Framed old (view ctx.out.file).1 (C.seekStart cfg) W ↔
        EndWritten old (C.seekStart cfg) W (C.callPieces cfg ctx.out.calls)) :=
  ⟨Rust.notrunc_frame, C.notrunc_frame⟩

section Example

def holeWorld : Rust.World Blks.Byte where
  fs := ⟨fun _ => 0, fun _ => some ⟨.regular, [1, 2, 3], true, true⟩, fun _ => true, fun _ => true⟩
  stdin := []
  stdout := []
  stats := {}
  syncs := []

/-- One byte at the start of three, holes passed over. -/
def holeRust : Rust.Config :=
  { output := some "out", blockSize := 1, notrunc := true, sparse := true }

def holeC : C.Config := { blocksize := 1, conversions := { notrunc := true, sparse := true } }

theorem holeWorld_opened : Rust.OpenedAt holeRust [(1 : Blks.Byte), 2, 3] [1, 2, 3] 0 :=
  have hopen : Rust.openSink holeWorld holeRust = (.ok (.file 0 0), holeWorld) := rfl
  have hseek : Rust.seekOutputOrFail holeWorld.fs (.file 0 0) 0 = .ok (.file 0 0) := rfl
  .intro rfl (w := holeWorld) rfl rfl rfl hopen hseek

theorem holeRust_run : ∃ y, Rust.transferLoop (Rust.streamInput fun _ => some 1) Rust.contentOutput
    Rust.noCrates holeRust (fun _ => false) 2 (.start Rust.noCrates holeRust
      (⟨[(0 : Blks.Byte)], 0⟩ : Rust.Stream Blks.Byte) ([1, 2, 3], 0) {}) =
        some (.ok (), y) ∧ y.out.file.1 = [1] :=
  ⟨_, rfl, rfl⟩

theorem holeC_run : ∃ ctx, C.ddCopySync C.contentInput C.contentOutput (C.plainEnv 3)
    (.start holeC [0] ([1, 2, 3], 0)) = .ok (.success, ctx) ∧ ctx.out.file.1 = [1] :=
  ⟨_, rfl, rfl⟩

/-- A trailing hole inside a longer file cuts it. -/
theorem trailingHole_cuts :
    (∃ out hasher, Rust.OpenedAt holeRust [(1 : Blks.Byte), 2, 3] [1, 2, 3] 0 ∧
      Rust.Finished (Rust.streamInput fun _ => some 1) Rust.contentOutput Rust.noCrates holeRust
        ⟨[0], 0⟩ ([1, 2, 3], 0) out hasher ∧ ¬Framed [1, 2, 3] out.file.1 0 1) ∧
    ∃ ctx, C.ddCopySync C.contentInput C.contentOutput (C.plainEnv 3)
      (.start holeC [0] (C.setupOutputStream holeC [1, 2, 3], 0)) = .ok (.success, ctx) ∧
      ¬Framed [1, 2, 3] ctx.out.file.1 0 1 := by
  have hshort : ∀ new : List Blks.Byte, new = [1] → ¬Framed [1, 2, 3] new 0 1 := by
    rintro new rfl ⟨hlen, -⟩
    exact absurd hlen (by decide)
  obtain ⟨y, hy, hfile⟩ := holeRust_run
  obtain ⟨ctx, hctx, hcut⟩ := holeC_run
  exact ⟨⟨y.out, y.hasher, holeWorld_opened, .sync hy, hshort _ hfile⟩, ctx, hctx, hshort _ hcut⟩

theorem notrunc_frame_trailingHole :
    (∃ (out : Rust.OutState Blks.Byte (List Blks.Byte × Nat)) (blocks : List (List Blks.Byte)),
      let W := (Rust.emitted holeRust blocks).length
      (Framed [1, 2, 3] out.file.1 0 W ↔
        EndWritten [1, 2, 3] 0 W (Rust.pieces holeRust blocks))) ∧
    ∃ ctx : C.Ctx (List Blks.Byte) (List Blks.Byte × Nat),
      let W := ctx.out.delivered.length
      (Framed [1, 2, 3] ctx.out.file.1 0 W ↔
        EndWritten [1, 2, 3] 0 W (C.callPieces holeC ctx.out.calls)) := by
  obtain ⟨y, hy, -⟩ := holeRust_run
  obtain ⟨ctx, hctx, -⟩ := holeC_run
  obtain ⟨hrust, hc⟩ := notrunc_frame_iff [1, 2, 3]
  obtain ⟨blocks, -, -, -, -, -, -, hiff⟩ := hrust (Rust.contentOutput_regular _) rfl
    holeWorld_opened (show id ([1, 2, 3], 0) = _ from rfl) (.sync hy)
  exact ⟨⟨y.out, blocks, hiff⟩, ctx, hc C.contentOutput_regular (by decide) rfl rfl hctx⟩

end Example

end Blkcp
