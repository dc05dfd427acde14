import Blkcp.Lib.Sparse
import Blkcp.Rust.Splice
import Blkcp.Rust.Delivered
set_option autoImplicit false

/-! What the calls of a copy leave in a regular file. -/

namespace Blkcp.Rust
open Blkcp.Lib

variable {α ρ ω η₂ η₃ : Type} [Octet α]

/-- A regular file, seen as its content and the position in it. With `O_DIRECT` a refused write
leaves it as it is. -/
structure RegularFile (O : Output α ω) (direct : Bool) (view : ω → List α × Nat) : Prop where
  writeAll_ok : ∀ {f f' bytes}, bytes ≠ [] → O.writeAll f bytes = (.ok (), f') →
    view f' = (placeAt Octet.zero (view f).1 (view f).2 bytes, (view f).2 + bytes.length)
  writeAll_refused : ∀ {f f' bytes e}, direct = true → O.writeAll f bytes = (.error e, f') →
    view f' = view f
  seekCurrent_eq : ∀ f n, ∃ f', O.seekCurrent f n = (.ok (), f') ∧
    view f' = ((view f).1, (view f).2 + n)
  streamPosition_eq : ∀ f, O.streamPosition f = .ok (view f).2
  setLen_eq : ∀ f n, view (O.setLen f n) = (resize Octet.zero (view f).1 n, (view f).2)
  reopen_ok : ∀ {f f'}, O.reopen f = (.ok (), f') → (view f').1 = (view f).1
  seekStart_ok : ∀ {f f' pos}, O.seekStart f pos = (.ok (), f') → view f' = ((view f).1, pos)

theorem contentOutput_regular (direct : Bool) :
    RegularFile (contentOutput : Output α (List α × Nat)) direct id where
  writeAll_ok _ h := by
    obtain ⟨-, rfl⟩ := Prod.mk.inj h
    rfl
  writeAll_refused _ h := by
    obtain ⟨h, -⟩ := Prod.mk.inj h
    cases h
  seekCurrent_eq f n := ⟨_, rfl, rfl⟩
  streamPosition_eq _ := rfl
  setLen_eq _ _ := rfl
  reopen_ok h := by
    obtain ⟨-, rfl⟩ := Prod.mk.inj h
    rfl
  seekStart_ok h := by
    obtain ⟨-, rfl⟩ := Prod.mk.inj h
    rfl

section Blocks

variable (cfg : Config)

/-- A block that is passed over instead of written. -/
def isHole (block : List α) : Bool :=
  cfg.output.isSome && (cfg.sparse && block.all fun b => Octet.toByte b == 0)

def piece (block : List α) : Piece α :=
  if isHole cfg block then .gap block.length else .data block

def pieces (blocks : List (List α)) : List (Piece α) :=
  blocks.map fun b => piece cfg (outBlock cfg b)

/-- The bytes a copy of these blocks emits. -/
def emitted (blocks : List (List α)) : List α := blocks.flatMap (outBlock cfg)

end Blocks

variable {O : Output α ω} {env : HashEnv η₂ η₃} {cfg : Config} {view : ω → List α × Nat}

theorem cells_piece (block : List α) : (piece cfg block).cells =
    if isHole cfg block then List.replicate block.length none else block.map some := by
  rw [piece]
  split <;> rfl

theorem length_cells_piece (block : List α) : (piece cfg block).cells.length = block.length := by
  rw [cells_piece]
  split <;> simp

theorem length_allCells_pieces (blocks : List (List α)) :
    (allCells (pieces cfg blocks)).length = (emitted cfg blocks).length := by
  induction blocks with
  | nil => rfl
  | cons b bs ih =>
    simp only [pieces, emitted, allCells, List.map_cons, List.flatMap_cons, List.length_append,
      length_cells_piece] at ih ⊢
    rw [ih]

omit [Octet α] in
/-- Only reads that give something make a block. -/
theorem ReadFrom.ne_nil {I : Input α ρ} {start input : ρ} {blocks : List (List α)}
    (h : ReadFrom I start blocks input) : ∀ b ∈ blocks, b ≠ [] := by
  induction h with
  | start => nofun
  | block _ _ hne ih =>
    intro b hb
    rcases List.mem_append.mp hb with hb | hb
    · exact ih b hb
    · rwa [List.mem_singleton.mp hb]
  | skip _ _ ih => exact ih

/-- An output and the pieces it shows. -/
def Shows (view : ω → List α × Nat) (f : List α × Nat) (ps : List (Piece α))
    (out : OutState α ω) : Prop :=
  view out.file = layAll Octet.zero f ps ∧ out.lastWasSparseHole = endsInGap ps

theorem Shows.gap {f : List α × Nat} {ps : List (Piece α)} {out : OutState α ω}
    (h : Shows view f ps out) {n : Nat} {file : ω}
    (hview : view file = ((view out.file).1, (view out.file).2 + n)) (ops : List (Op α)) :
    Shows view f (ps ++ [.gap n]) ⟨file, ops, true⟩ := by
  refine ⟨?_, ?_⟩
  · rw [layAll_snoc, hview, h.1]
    rfl
  · rw [endsInGap_snoc]
    rfl

theorem Shows.data {f : List α × Nat} {ps : List (Piece α)} {out : OutState α ω}
    (h : Shows view f ps out) {bytes : List α} (hne : bytes ≠ []) {file : ω}
    (hview : view file = (placeAt Octet.zero (view out.file).1 (view out.file).2 bytes,
      (view out.file).2 + bytes.length)) (ops : List (Op α)) :
    Shows view f (ps ++ [.data bytes]) ⟨file, ops, false⟩ := by
  refine ⟨?_, ?_⟩
  · rw [layAll_snoc, hview, h.1, lay_data _ hne]
  · rw [endsInGap_snoc]
    rfl

/-- Reopening and writing again has the effect of the write that was refused. -/
theorem reopenAndWrite_view (law : RegularFile O cfg.direct view) {block : List α}
    (hne : block ≠ []) {out out' : OutState α ω} (h : reopenAndWrite O block out = (.ok (), out')) :
    view out'.file = (placeAt Octet.zero (view out.file).1 (view out.file).2 block,
      (view out.file).2 + block.length) ∧ out'.lastWasSparseHole = false := by
  simp only [reopenAndWrite, law.streamPosition_eq] at h
  split at h
  · simp at h
  · rename_i u s1 hreopen
    obtain ⟨hr, rfl⟩ := Prod.mk.inj hreopen
    have hcontent := law.reopen_ok (Prod.ext hr rfl)
    split at h
    · simp at h
    · rename_i u s2 hseek
      obtain ⟨hs, rfl⟩ := Prod.mk.inj hseek
      have hpos := law.seekStart_ok (Prod.ext hs rfl)
      split at h
      · simp at h
      · rename_i u s3 hwrite
        obtain ⟨hw, rfl⟩ := Prod.mk.inj hwrite
        have hview := law.writeAll_ok hne (Prod.ext hw rfl)
        obtain ⟨-, rfl⟩ := Prod.mk.inj h
        refine ⟨?_, rfl⟩
        rw [hpos, hcontent] at hview
        exact hview

/-- A block written is one more piece. -/
theorem Shows.block (law : RegularFile O cfg.direct view) {f : List α × Nat}
    {ps : List (Piece α)} {block : List α} (hne : block ≠ []) {out out' : OutState α ω}
    (h : Shows view f ps out) (hnone : cfg.output = none → endsInGap ps = false)
    (hw : writeOk O cfg block out = some out') :
    Shows view f (ps ++ [piece cfg block]) out' := by
  rw [← writeBlock_ok_iff ""] at hw
  simp only [writeBlock] at hw
  cases hout : cfg.output with
  | none =>
    -- stdout: nothing is passed over
    simp only [hout, Option.isSome_none, Bool.false_eq_true, if_false] at hw
    rw [piece, if_neg (by simp [isHole, hout])]
    split at hw
    · simp at hw
    · rename_i u s hwrite
      obtain ⟨hr, rfl⟩ := Prod.mk.inj hwrite
      obtain ⟨-, rfl⟩ := Prod.mk.inj hw
      have hdata := h.data hne (law.writeAll_ok hne (Prod.ext hr rfl)) []
      exact ⟨hdata.1, h.2.trans ((hnone hout).trans hdata.2)⟩
  | some outPath =>
    simp only [hout, Option.isSome_some, if_true] at hw
    split at hw
    · rename_i hzero
      rw [piece, if_pos (by simpa [isHole, hout] using hzero)]
      obtain ⟨file, hseek, hview⟩ := law.seekCurrent_eq out.file block.length
      simp only [OutState.seekCurrent, OutState.call, hseek] at hw
      obtain ⟨-, rfl⟩ := Prod.mk.inj hw
      exact h.gap hview _
    · rename_i hzero
      rw [piece, if_neg (by simpa [isHole, hout] using hzero)]
      split at hw
      · rename_i e s hwrite
        split at hw
        · rename_i hdirect
          obtain ⟨hr, rfl⟩ := Prod.mk.inj hwrite
          have hsame := law.writeAll_refused hdirect (Prod.ext hr rfl)
          obtain ⟨hview, hlast⟩ := reopenAndWrite_view law hne hw
          rw [hsame] at hview
          exact ⟨(h.data hne hview []).1, hlast.trans (h.data hne hview []).2⟩
        · simp at hw
      · rename_i u s hwrite
        obtain ⟨hr, rfl⟩ := Prod.mk.inj hwrite
        obtain ⟨-, rfl⟩ := Prod.mk.inj hw
        exact h.data hne (law.writeAll_ok hne (Prod.ext hr rfl)) _

theorem endsInGap_pieces (hnone : cfg.output = none) (blocks : List (List α)) :
    endsInGap (pieces cfg blocks) = false := by
  cases blocks using List.reverseRecOn with
  | nil => rfl
  | append_singleton bs b =>
    rw [pieces, List.map_append, List.map_singleton, endsInGap_snoc, piece,
      if_neg (by simp [isHole, hnone])]
    rfl

theorem outBlock_ne_nil {b : List α} (h : b ≠ []) : outBlock cfg b ≠ [] := by
  have hpos := List.length_pos_of_ne_nil h
  refine List.ne_nil_of_length_pos ?_
  rw [outBlock]
  split
  · rw [List.length_append, length_swabbed]
    omega
  · rwa [length_swabbed]

theorem pieces_proper {blocks : List (List α)} (h : ∀ b ∈ blocks, b ≠ []) :
    Proper (pieces cfg blocks) := by
  intro p hp
  obtain ⟨b, hb, rfl⟩ := List.mem_map.mp hp
  rw [piece]
  split
  · nofun
  · intro hnil
    exact outBlock_ne_nil (h b hb) (Piece.data.inj hnil)

theorem shows_writeAllOk (law : RegularFile O cfg.direct view) {file : ω}
    {blocks : List (List α)} {out : OutState α ω} (hne : ∀ b ∈ blocks, b ≠ [])
    (h : writeAllOk O cfg ⟨file, [], false⟩ blocks = some out) :
    Shows view (view file) (pieces cfg blocks) out := by
  induction blocks using List.reverseRecOn generalizing out with
  | nil =>
    obtain rfl := Option.some.inj h
    exact ⟨rfl, rfl⟩
  | append_singleton bs b ih =>
    rw [writeAllOk_snoc, Option.bind_eq_some_iff] at h
    obtain ⟨mid, hmid, hlast⟩ := h
    rw [pieces, List.map_append, List.map_singleton]
    exact (ih (fun b hb => hne b (List.mem_append_left _ hb)) hmid).block law
      (outBlock_ne_nil (hne b (by simp))) (fun hnone => endsInGap_pieces hnone bs) hlast

/-- The content of the output after a copy of some blocks. -/
theorem view_finishOut (law : RegularFile O cfg.direct view) {file : ω} {blocks : List (List α)}
    {out : OutState α ω} (hne : ∀ b ∈ blocks, b ≠ [])
    (h : writeAllOk O cfg ⟨file, [], false⟩ blocks = some out) :
    (view (finishOut O cfg out).file).1 =
      sealed Octet.zero (view file).1 (view file).2 (pieces cfg blocks) := by
  obtain ⟨hview, hlast⟩ := shows_writeAllOk law hne h
  rw [finishOut, sealed, ← hlast, ← hview]
  cases hout : cfg.output with
  | none =>
    rw [hlast, endsInGap_pieces hout]
    rfl
  | some outPath =>
    simp only [Option.isSome_some, Bool.true_and]
    split
    · simp only [law.streamPosition_eq, OutState.setLen, law.setLen_eq]
    · rfl

end Blkcp.Rust
