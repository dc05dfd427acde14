import Blkcp.Lib.Batch
import Blkcp.C.FileEffect
import Blkcp.C.SyncFlow
set_option autoImplicit false

/-! What `--nocache` takes out of the page cache (`io_engine.c`): the bytes written are counted, and
given up in batches behind the position. -/

namespace Blkcp.C
open Blkcp.Lib

variable {ρ ω : Type} (I : Input ρ) (O : Output ω) (env : Env)

def nocacheChunkThreshold : Nat := 32 * 1024 * 1024

/-- `o_nocache_pending`, and the ranges that were given up for it. What `dd_iwrite` gives up at once
behind the unaligned tail of a direct write does not touch the count and is not among them. -/
structure Cache where
  pending : Nat := 0
  advised : List (Nat × Nat) := []
  deriving DecidableEq, Repr

/-- `pos` is what `lseek` says, if the file has a position. -/
def ddInvalidateCacheChunked (pos : Option Nat) (bytes : Nat) (forceFlush : Bool) (c : Cache) :
    Cache :=
  let toEvict := c.pending + bytes
  if nocacheChunkThreshold ≤ toEvict ∨ forceFlush = true ∧ 0 < toEvict then
    { pending := 0
      advised := match pos with
        | some pos => c.advised ++ [(if toEvict < pos then pos - toEvict else 0, toEvict)]
        | none => c.advised }
  else { c with pending := toEvict }

/-- The end of `dd_iwrite`, which is not reached when the buffer is passed over. -/
def evictWritten (cfg : Config) (n : Nat) (out : OutState ω) (c : Cache) : Cache :=
  if out.finalOpWasSeek = false ∧ cfg.oNocache = true ∧ 0 < n then
    ddInvalidateCacheChunked (some (O.position out.file)) n false c
  else c

/-- `dd_iwrite` with the cache. -/
def ddIwriteEvicting (cfg : Config) (buf : List Byte) (out : OutState ω) (c : Cache) :
    Run (Nat × OutState ω × Cache) := do
  let (n, out) ← ddIwrite O env cfg buf out
  return (n, out, evictWritten O cfg n out c)

/-- What `dd_execute` does to the output's cache after the copy; `eof` is `o_nocache_eof`. -/
def evictRest (cfg : Config) (eof : Bool) (out : OutState ω) (c : Cache) : Cache :=
  if cfg.oNocache = true ∨ eof = true then
    ddInvalidateCacheChunked (some (O.position out.file)) 0 true c
  else c

/-- The output and the cache after some calls of `dd_iwrite`. -/
inductive Evicts (cfg : Config) : OutState ω → Cache → OutState ω → Cache → Prop where
  | refl (out : OutState ω) (c : Cache) : Evicts cfg out c out c
  | call {start out out' : OutState ω} {c₀ c c' : Cache} {buf : List Byte} {n : Nat} :
      Evicts cfg start c₀ out c → buf ≠ [] →
      ddIwriteEvicting O env cfg buf out c = .ok (n, out', c') → Evicts cfg start c₀ out' c'

variable {I O env} {cfg : Config} {view : ω → List Byte × Nat} {start out out' : OutState ω}
  {c c' : Cache}

/-- Every run of calls goes with one of the cache. -/
theorem Issued.evicts (h : Issued O env cfg start out) (c₀ : Cache) :
    ∃ c, Evicts O env cfg start c₀ out c := by
  induction h with
  | refl => exact ⟨c₀, .refl _ _⟩
  | @call out out' buf n _ hne hw ih =>
    obtain ⟨c, hc⟩ := ih
    have hcall : ddIwriteEvicting O env cfg buf out c =
        .ok (n, out', evictWritten O cfg n out' c) := by
      rw [ddIwriteEvicting, hw]
      rfl
    exact ⟨_, hc.call hne hcall⟩

/-- What a piece of the output is to the batches. -/
def advance : Piece Byte → Advance
  | .data bytes => .mark bytes.length
  | .gap n => .pass n

/-- The counter and the ranges, at the position of the file. -/
def Cache.batch (c : Cache) (pos : Nat) : Batch := ⟨pos, c.pending, c.advised⟩

section Batches

theorem chunked_batch (c : Cache) (pos n : Nat) :
    (ddInvalidateCacheChunked (some (pos + n)) n false c).batch (pos + n) =
      (c.batch pos).step nocacheChunkThreshold (.mark n) := by
  unfold ddInvalidateCacheChunked Batch.step Cache.batch Batch.settle
  simp only [Bool.false_eq_true, false_and, or_false]
  split
  · have hoff : (if c.pending + n < pos + n then pos + n - (c.pending + n) else 0) =
        pos + n - (c.pending + n) := by
      split <;> omega
    rw [hoff]
  · rfl

theorem evictRest_batch (hno : cfg.oNocache = true) (eof : Bool)
    (hpending : c.pending < nocacheChunkThreshold) :
    (evictRest O cfg eof out c).batch (O.position out.file) =
      (c.batch (O.position out.file)).finish := by
  unfold evictRest ddInvalidateCacheChunked Batch.finish Cache.batch Batch.settle
  rw [if_pos (.inl hno)]
  simp only [Nat.add_zero, true_and]
  by_cases hsome : 0 < c.pending
  · rw [if_pos (.inr hsome), if_pos hsome]
    have hoff : (if c.pending < O.position out.file then O.position out.file - c.pending else 0) =
        O.position out.file - c.pending := by
      split <;> omega
    rw [hoff]
  · rw [if_neg (by omega), if_neg hsome]

/-- The pieces laid down so far, and the cache as the batches that they make. -/
structure Batched (cfg : Config) (view : ω → List Byte × Nat) (f : List Byte × Nat)
    (out : OutState ω) (c : Cache) : Prop where
  shows : Shows cfg view f out
  batch : c.batch (view out.file).2 =
    Batch.run nocacheChunkThreshold ⟨f.2, 0, []⟩ ((callPieces cfg out.calls).map advance)

theorem Batched.pending_lt {f : List Byte × Nat} (h : Batched cfg view f out c) :
    c.pending < nocacheChunkThreshold := by
  have hzero : (⟨f.2, 0, []⟩ : Batch).pending < nocacheChunkThreshold := by
    simp [nocacheChunkThreshold]
  have hlt := Batch.pending_lt ((callPieces cfg out.calls).map advance) hzero
  rw [← h.batch] at hlt
  exact hlt

theorem Batched.call (law : RegularFile O view) (hno : cfg.oNocache = true) {f : List Byte × Nat}
    {buf : List Byte} {n : Nat} (h : Batched cfg view f out c) (hne : buf ≠ [])
    (hw : ddIwriteEvicting O env cfg buf out c = .ok (n, out', c')) :
    Batched cfg view f out' c' := by
  have hpending := h.pending_lt
  rw [ddIwriteEvicting] at hw
  obtain ⟨⟨n', out₁⟩, hcall, hw⟩ := bind_ok.mp hw
  simp only [pure_ok, Prod.mk.injEq] at hw
  obtain ⟨rfl, rfl, rfl⟩ := hw
  have hshows := h.shows.call law hne hcall
  obtain ⟨hcalls, hn⟩ := ddIwrite_records hcall
  refine ⟨hshows, ?_⟩
  have hsnoc :
      callPieces cfg out₁.calls = callPieces cfg out.calls ++ [callPiece cfg ⟨buf, n'⟩] := by
    rw [hcalls, callPieces_snoc]
  have hpos : (view out₁.file).2 =
      (view out.file).2 + (callPiece cfg ⟨buf, n'⟩).cells.length := by
    rw [hshows.1, h.shows.1, layAll_pos, layAll_pos, hsnoc, allCells_snoc, List.length_append,
      Nat.add_assoc]
  have hseek : out₁.finalOpWasSeek = (callPiece cfg ⟨buf, n'⟩).isGap := by
    rw [hshows.2.1, hsnoc, endsInGap_snoc]
  rw [hsnoc, List.map_append, List.map_singleton, Batch.run, List.foldl_concat, ← Batch.run,
    ← h.batch, hpos, evictWritten, law.position_eq, hpos, hseek]
  cases hpiece : callPiece cfg ⟨buf, n'⟩ with
  | gap m =>
    rw [length_cells_gap, Piece.isGap, if_neg (by simp)]
    rfl
  | data bytes =>
    have hbytes : bytes.length = n' := by
      unfold callPiece at hpiece
      split at hpiece
      · cases hpiece
      · rw [← Piece.data.inj hpiece, List.length_take, Nat.min_eq_left hn]
    rw [length_cells_data, hbytes, Piece.isGap, advance, hbytes]
    by_cases hzero : 0 < n'
    · rw [if_pos ⟨rfl, hno, hzero⟩, chunked_batch]
    · obtain rfl : n' = 0 := Nat.eq_zero_of_not_pos hzero
      have hfew : ¬ nocacheChunkThreshold ≤ (c.batch (view out.file).2).pending :=
        Nat.not_le.mpr hpending
      rw [if_neg (by simp)]
      unfold Batch.step
      simp only [Nat.add_zero]
      rw [if_neg hfew]

theorem Evicts.batched (law : RegularFile O view) (hno : cfg.oNocache = true)
    {f : List Byte × Nat} {c₀ : Cache} (h : Evicts O env cfg start c₀ out c)
    (hstart : Batched cfg view f start c₀) : Batched cfg view f out c := by
  induction h with
  | refl => exact hstart
  | call _ hne hw ih => exact (ih hstart).call law hno hne hw

end Batches

/-- A position is in one of the ranges. -/
def Cache.Advised (c : Cache) (x : Nat) : Prop := ∃ r ∈ c.advised, r.1 ≤ x ∧ x < r.1 + r.2

/-- A byte is written at the position. -/
def WrittenAt (cfg : Config) (start : Nat) (calls : List Call) (x : Nat) : Prop :=
  Batch.Marked start ((callPieces cfg calls).map advance) x

/-- No buffer is passed over while bytes wait for their batch. -/
def HolesApart (cfg : Config) (start : Nat) (calls : List Call) : Prop :=
  Batch.Tight nocacheChunkThreshold ⟨start, 0, []⟩ ((callPieces cfg calls).map advance)

/-- Without `--sparse` there is nothing to pass over. -/
theorem holesApart_of_dense (hdense : cfg.conversions.sparse = false) (b : Batch)
    (calls : List Call) :
    Batch.Tight nocacheChunkThreshold b ((callPieces cfg calls).map advance) := by
  induction calls generalizing b with
  | nil => trivial
  | cons call rest ih =>
    have hpiece : callPiece cfg call = .data (call.buf.take call.count) :=
      callPiece_of_data (by simp [isHole, hdense]) _
    rw [callPieces, List.map_cons, List.map_cons, hpiece]
    exact ih _

theorem writtenAt_of_dense (hdense : cfg.conversions.sparse = false) (start : Nat)
    (calls : List Call) (x : Nat) : WrittenAt cfg start calls x ↔
      start ≤ x ∧ x < start + (allCells (callPieces cfg calls)).length := by
  induction calls generalizing start with
  | nil => exact iff_of_false id fun h => absurd h.2 (Nat.not_lt.mpr h.1)
  | cons call rest ih =>
    have hpiece : callPiece cfg call = .data (call.buf.take call.count) :=
      callPiece_of_data (by simp [isHole, hdense]) _
    have hrest := ih (start + (call.buf.take call.count).length)
    have hlen : (allCells (callPieces cfg (call :: rest))).length =
        (call.buf.take call.count).length + (allCells (callPieces cfg rest)).length := by
      rw [callPieces, List.map_cons, hpiece, allCells, List.flatMap_cons, List.length_append,
        length_cells_data]
      rfl
    unfold WrittenAt at hrest ⊢
    rw [hlen, callPieces, List.map_cons, List.map_cons, hpiece, ← callPieces, advance, Batch.Marked,
      hrest]
    omega

section Example

def plainNocache : Config := { oNocache := true }

end Example

end Blkcp.C
