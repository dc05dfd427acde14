import Blkcp.Blks.Stream
set_option autoImplicit false

/-! Evaluating the hash of a chunk of `0` bytes. -/

namespace Blkcp.Blks

variable {β : Type}

section Chunks

/-- The words of a chunk of `0` bytes. -/
theorem messageWords_zeros (len : Nat) (isRoot : Bool) (cv : Cv) (i : Nat) :
    messageWords (chunkCall (List.replicate len 0) isRoot cv i).block =
      #v[0, 0, 0, 0, 0, 0, 0, 0, 0, 0, 0, 0, 0, 0, 0, 0] := by
  refine Vector.ext fun i hi => ?_
  rw [show #v[0, 0, 0, 0, 0, 0, 0, 0, 0, 0, 0, 0, 0, 0, 0, 0] = Vector.replicate 16 (0 : Word) from rfl,
    Vector.getElem_replicate]
  refine getElem_messageWords hi (fun j hj => ?_)
  simp only [chunkCall, List.getD_eq_getElem?_getD, List.getElem?_replicate, Vector.getElem_ofFn]
  split
  · split <;> simp [toLeByte]
  · simp [toLeByte]

/-- The block loop on a chunk of `0` bytes. -/
def zerosE (len : Nat) (isRoot : Bool) (blocks : Nat) : Nat → Nat → Cv → (Cv → β) → β
  | 0, _, cv, k => k cv
  | n + 1, i, cv, k =>
    compressE cv #v[0, 0, 0, 0, 0, 0, 0, 0, 0, 0, 0, 0, 0, 0, 0, 0]
      (BitVec.ofNat 64 (min (i * blockBytes + blockBytes) len))
      ((if i = 0 then flagChunkStart else 0) |||
        (if i = blocks - 1 then flagChunkEnd ||| (if isRoot then flagRoot else 0) else 0))
      fun cv => zerosE len isRoot blocks n (i + 1) cv k

theorem zerosE_eq (len : Nat) (isRoot : Bool) {blocks : Nat}
    (hblocks : blocks = numBlocks (List.replicate len 0)) (n i : Nat) (k : Cv → β) :
    zerosE len isRoot blocks n i (chunkCv (List.replicate len 0) isRoot i) k =
      k (chunkCv (List.replicate len 0) isRoot (i + n)) := by
  induction n generalizing i with
  | zero => rfl
  | succ n ih =>
    rw [zerosE, compressE_eq (messageWords_zeros len isRoot _ i), hblocks]
    have hcall : compress (chunkCv (List.replicate len 0) isRoot i)
        (chunkCall (List.replicate len 0) isRoot (chunkCv (List.replicate len 0) isRoot i) i).block
        (BitVec.ofNat 64 (min (i * blockBytes + blockBytes) len))
        ((if i = 0 then flagChunkStart else 0) |||
          (if i = numBlocks (List.replicate len (0 : Byte)) - 1 then
            flagChunkEnd ||| (if isRoot then flagRoot else 0) else 0)) =
        chunkCv (List.replicate len 0) isRoot (i + 1) := by
      simp only [chunkCv, Call.run, chunkCall, List.length_replicate]
    rw [hcall, ← hblocks, ih, Nat.add_right_comm, Nat.add_assoc]

end Chunks

end Blkcp.Blks
