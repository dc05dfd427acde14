import Blkcp.Lib.Pairing
import Blkcp.Blks.Compress
set_option autoImplicit false

/-! The Merkle tree engine (`tree.rs`): chunk hashing, level reduction, the one-shot hash and the
streaming hasher. A panic of `assert!` is `none`. -/

namespace Blkcp.Blks
open Blkcp.Lib

abbrev chunkSize : Nat := 4096
abbrev subtreeChunks : Nat := 64
abbrev subtreeBytes : Nat := chunkSize * subtreeChunks

def numBlocks (chunk : List Byte) : Nat :=
  if chunk.length = 0 then 1 else (chunk.length + blockBytes - 1) / blockBytes

/-- The input of the `i`-th `compress` call of `hash_chunk`: the zero-filled block, the end offset
as byte counter and the flags. -/
def chunkCall (chunk : List Byte) (isRoot : Bool) (cv : Cv) (i : Nat) : Call :=
  let start := i * blockBytes
  let stop := min (start + blockBytes) chunk.length
  { cv := cv
    block := Vector.ofFn fun j : Fin 128 =>
      if start + j.val < stop then chunk.getD (start + j.val) 0 else 0
    byteOffset := BitVec.ofNat 64 stop
    flags := (if i = 0 then flagChunkStart else 0) |||
      (if i = numBlocks chunk - 1 then flagChunkEnd ||| (if isRoot then flagRoot else 0) else 0) }

/-- The chaining value after `n` iterations of the block loop. -/
def chunkCv (chunk : List Byte) (isRoot : Bool) : Nat → Cv
  | 0 => initialCv
  | n + 1 => (chunkCall chunk isRoot (chunkCv chunk isRoot n) n).run

def hashChunk (chunk : List Byte) (isRoot : Bool) : Digest :=
  truncate (chunkCv chunk isRoot (numBlocks chunk))

/-- The four-chunk loop of `hash_chunks_accelerated` from full chunk `i` on. -/
def avx2Leaves (slice : List Byte) (numFullChunks i : Nat) (leaves : List Digest) :
    Nat × List Digest :=
  if i + 4 ≤ numFullChunks then
    let offset := i * chunkSize
    let c (k : Nat) := (slice.drop (offset + k * 4096)).take 4096
    let fourHashes := hash4ChunksAvx2 (c 0) (c 1) (c 2) (c 3)
    avx2Leaves slice numFullChunks (i + 4) (leaves ++ fourHashes.toList)
  else (i, leaves)
termination_by numFullChunks - i

def scalarLeaves (slice : List Byte) (numFullChunks i : Nat) (leaves : List Digest) :
    List Digest :=
  if i < numFullChunks then
    let offset := i * chunkSize
    scalarLeaves slice numFullChunks (i + 1)
      (leaves ++ [hashChunk ((slice.drop offset).take chunkSize) false])
  else leaves
termination_by numFullChunks - i

/-- `avx2` is the answer of `is_x86_feature_detected!`. -/
def hashChunksAccelerated (avx2 : Bool) (slice : List Byte) : List Digest :=
  let numFullChunks := slice.length / chunkSize
  let (i, leaves) := if avx2 then avx2Leaves slice numFullChunks 0 [] else (0, [])
  let leaves := scalarLeaves slice numFullChunks i leaves
  let tailOffset := numFullChunks * chunkSize
  if tailOffset < slice.length then leaves ++ [hashChunk (slice.drop tailOffset) false] else leaves

/-- The pairs of `par_chunks_exact(2)` and of `as_chunks::<2>()`. -/
def exactPairs : List Digest → List (Digest × Digest)
  | a :: b :: rest => (a, b) :: exactPairs rest
  | _ => []

/-- One iteration of the level loop of `reduce_nodes`. Rayon's `collect` keeps the order of the
pairs, so both branches build the same level. -/
def reduceLevel (currentLevel : List Digest) (isEntireTreeRoot : Bool) : List Digest :=
  let isRootLevel := isEntireTreeRoot && currentLevel.length == 2
  let hasOrphan := currentLevel.length % 2 == 1
  let orphan := if hasOrphan then currentLevel.getLast? else none
  let paired := if hasOrphan then currentLevel.dropLast else currentLevel
  let nextLevel :=
    if paired.length ≥ 512 then
      (exactPairs paired).map fun pair => compressParent pair.1 pair.2 isRootLevel
    else
      (exactPairs paired).map fun pair => compressParent pair.1 pair.2 isRootLevel
  nextLevel ++ orphan.toList

theorem exactPairs_map (f : Digest → Digest → Digest) (xs : List Digest) (h : xs.length % 2 = 0) :
    (exactPairs xs).map (fun p => f p.1 p.2) = pairUp f xs := by
  induction xs using exactPairs.induct with
  | case1 a b rest ih =>
    simp only [List.length_cons] at h
    simp only [exactPairs, List.map_cons, pairUp, ih (by omega)]
  | case2 xs hx =>
    rcases xs with _ | ⟨a, _ | ⟨b, rest⟩⟩
    · rfl
    · simp at h
    · exact absurd rfl (hx a b rest)

/-- A level is the pairs combined, the odd last node promoted. -/
theorem reduceLevel_eq (level : List Digest) (root : Bool) :
    reduceLevel level root =
      pairUp (fun l r => compressParent l r (root && level.length == 2)) level := by
  simp only [reduceLevel, ite_self]
  generalize (root && level.length == 2) = isRootLevel
  by_cases h : level.length % 2 = 1
  · have hne : level ≠ [] := by rintro rfl; simp at h
    have hd : level.dropLast.length % 2 = 0 := by rw [List.length_dropLast]; omega
    simp only [h, beq_self_eq_true, if_true, List.getLast?_eq_some_getLast hne, Option.toList_some]
    rw [exactPairs_map (fun l r => compressParent l r isRootLevel) _ hd]
    conv_rhs => rw [← List.dropLast_append_getLast hne, pairUp_append _ _ _ hd]
    simp [pairUp]
  · simp only [h, beq_iff_eq, if_false, Option.toList_none, List.append_nil]
    exact exactPairs_map (fun l r => compressParent l r isRootLevel) _ (by omega)

def reduceNodes (currentLevel : List Digest) (isEntireTreeRoot : Bool) : Option Digest :=
  if currentLevel.length ≤ 1 then currentLevel.head?
  else reduceNodes (reduceLevel currentLevel isEntireTreeRoot) isEntireTreeRoot
termination_by currentLevel.length
decreasing_by
  rw [reduceLevel_eq, length_pairUp]
  omega

def hashSliceParallel (avx2 : Bool) (data : List Byte) : Option Digest :=
  if data.length ≤ chunkSize then some (hashChunk data true)
  else if data.length ≥ subtreeBytes * 2 then
    ((cut subtreeBytes data).mapM fun slice =>
      reduceNodes (hashChunksAccelerated avx2 slice) false).bind fun subroots =>
        reduceNodes subroots true
  else reduceNodes (hashChunksAccelerated avx2 data) true

structure BlksHasher where
  buffer : List Byte
  leafHashes : List Digest
  totalBytes : Word

namespace BlksHasher

def new : BlksHasher := ⟨[], [], 0⟩

def flushLeaf (h : BlksHasher) : BlksHasher :=
  { h with leafHashes := h.leafHashes ++ [hashChunk h.buffer false], buffer := [] }

/-- Stages 3 and 4 of `update`, on an empty buffer. -/
def updateBulk (avx2 : Bool) (h : BlksHasher) (input : List Byte) : BlksHasher :=
  let hashableLen :=
    if input.length > chunkSize then
      if input.length % chunkSize = 0 then input.length - chunkSize
      else input.length / chunkSize * chunkSize
    else 0
  let h :=
    if hashableLen > 0 then
      { h with leafHashes :=
          h.leafHashes ++ hashChunksAccelerated avx2 (input.take hashableLen) }
    else h
  let input := input.drop hashableLen
  if input ≠ [] then { h with buffer := h.buffer ++ input } else h

def update (avx2 : Bool) (h : BlksHasher) (input : List Byte) : BlksHasher :=
  let h := { h with totalBytes := h.totalBytes + BitVec.ofNat 64 input.length }
  let h := if h.buffer.length = chunkSize ∧ input ≠ [] then h.flushLeaf else h
  if h.buffer ≠ [] then
    let available := chunkSize - h.buffer.length
    let toTake := min available input.length
    let h := { h with buffer := h.buffer ++ input.take toTake }
    let input := input.drop toTake
    if h.buffer.length = chunkSize ∧ input ≠ [] then updateBulk avx2 h.flushLeaf input else h
  else updateBulk avx2 h input

def finalize (h : BlksHasher) : Option Digest :=
  if h.leafHashes = [] then some (hashChunk h.buffer true)
  else
    let h := if h.buffer ≠ [] then
      { h with leafHashes := h.leafHashes ++ [hashChunk h.buffer false] } else h
    reduceNodes h.leafHashes true

end BlksHasher

end Blkcp.Blks
