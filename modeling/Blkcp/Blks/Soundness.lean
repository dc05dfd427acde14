import Blkcp.Lib.LeftFull
import Blkcp.Blks.Stream
set_option autoImplicit false

/-! Tree-mode soundness: two byte strings with one digest show a collision of the truncated
compression function among the calls that hash them. -/

namespace Blkcp.Blks
open Blkcp.Lib

/-- The `compress` calls of `hash_chunk`. The AVX2 path makes them four lanes at a time. -/
def hashChunkCalls (chunk : List Byte) (isRoot : Bool) : List Call :=
  (List.range (numBlocks chunk)).map fun i => chunkCall chunk isRoot (chunkCv chunk isRoot i) i

def hashChunksCalls (slice : List Byte) : List Call :=
  (cut chunkSize slice).flatMap fun chunk => hashChunkCalls chunk false

def reduceLevelCalls (currentLevel : List Digest) (isEntireTreeRoot : Bool) : List Call :=
  let isRootLevel := isEntireTreeRoot && currentLevel.length == 2
  let paired := if currentLevel.length % 2 == 1 then currentLevel.dropLast else currentLevel
  (exactPairs paired).map fun pair => parentCall pair.1 pair.2 isRootLevel

def reduceNodesCalls (currentLevel : List Digest) (isEntireTreeRoot : Bool) : List Call :=
  if currentLevel.length ≤ 1 then []
  else reduceLevelCalls currentLevel isEntireTreeRoot ++
    reduceNodesCalls (reduceLevel currentLevel isEntireTreeRoot) isEntireTreeRoot
termination_by currentLevel.length
decreasing_by
  rw [reduceLevel_eq, length_pairUp]
  omega

/-- The `compress` calls of `hash_slice_parallel`, regime by regime. -/
def hashSliceParallelCalls (data : List Byte) : List Call :=
  if data.length ≤ chunkSize then hashChunkCalls data true
  else if data.length ≥ subtreeBytes * 2 then
    ((cut subtreeBytes data).flatMap fun slice =>
        hashChunksCalls slice ++ reduceNodesCalls (leaves slice) false) ++
      reduceNodesCalls ((cut subtreeBytes data).filterMap fun slice =>
        reduceNodes (leaves slice) false) true
  else hashChunksCalls data ++ reduceNodesCalls (leaves data) true

def lastCall (chunk : List Byte) (isRoot : Bool) : Call :=
  let i := numBlocks chunk - 1
  chunkCall chunk isRoot (chunkCv chunk isRoot i) i

theorem numBlocks_pos (chunk : List Byte) : 0 < numBlocks chunk := by
  simp only [numBlocks, blockBytes]
  split <;> omega

theorem length_le_numBlocks (chunk : List Byte) : chunk.length ≤ numBlocks chunk * blockBytes := by
  simp only [numBlocks, blockBytes]
  split <;> omega

theorem lastCall_mem (chunk : List Byte) (isRoot : Bool) :
    lastCall chunk isRoot ∈ hashChunkCalls chunk isRoot := by
  have hpos := numBlocks_pos chunk
  exact List.mem_map.mpr ⟨numBlocks chunk - 1, List.mem_range.mpr (by omega), rfl⟩

theorem hashChunk_eq (chunk : List Byte) (isRoot : Bool) :
    hashChunk chunk isRoot = truncate (lastCall chunk isRoot).run := by
  have hpos := numBlocks_pos chunk
  rw [hashChunk, lastCall]
  conv_lhs => rw [show numBlocks chunk = numBlocks chunk - 1 + 1 by omega]
  rfl

theorem lastCall_byteOffset (chunk : List Byte) (isRoot : Bool) :
    (lastCall chunk isRoot).byteOffset = BitVec.ofNat 64 chunk.length := by
  have hpos := numBlocks_pos chunk
  have hle := length_le_numBlocks chunk
  simp only [lastCall, chunkCall]
  rw [Nat.min_eq_right]
  rw [← Nat.succ_mul, Nat.succ_eq_add_one, Nat.sub_add_cancel hpos]
  exact hle

/-- CHUNK_END is set in the last call of a chunk and in no parent call. -/
theorem lastCall_ne_parentCall (chunk : List Byte) (isRoot isRoot' : Bool) (l r : Digest) :
    lastCall chunk isRoot ≠ parentCall l r isRoot' := by
  intro h
  have hf := congrArg (fun c : Call => c.flags.getLsbD 1) h
  simp only [lastCall, chunkCall, parentCall, if_true] at hf
  by_cases h0 : numBlocks chunk - 1 = 0
  · simp only [h0, if_true] at hf
    revert hf
    cases isRoot <;> cases isRoot' <;> decide
  · simp only [h0, if_false] at hf
    revert hf
    cases isRoot <;> cases isRoot' <;> decide

theorem getElem_chunkCall_block {chunk : List Byte} (isRoot : Bool) (cv : Cv) {j : Nat}
    (hj : j < chunk.length) :
    (chunkCall chunk isRoot cv (j / 128)).block[j % 128] = chunk[j] := by
  have hd := Nat.div_add_mod' j 128
  have hlt : j < min (j / 128 * 128 + 128) chunk.length := by
    have := Nat.mod_lt j (show 0 < 128 by decide)
    omega
  simp only [chunkCall, blockBytes, Vector.getElem_ofFn, hd, hlt, if_true]
  rw [List.getD_eq_getElem?_getD, List.getElem?_eq_getElem hj, Option.getD_some]

/-- Equal last calls mean, without a collision, equal calls all along the block chain. -/
theorem chunkCall_chain {x y : List Byte} {b b' : Bool} {n : Nat} (hx : n = numBlocks x)
    (hy : n = numBlocks y)
    (hc : ¬ Collision (fun c : Call => truncate c.run) (hashChunkCalls x b ++ hashChunkCalls y b'))
    (k : Nat) (hk : k ≤ n) (h : chunkCv x b k = chunkCv y b' k) (i : Nat) (hi : i < k) :
    chunkCall x b (chunkCv x b i) i = chunkCall y b' (chunkCv y b' i) i := by
  induction k with
  | zero => omega
  | succ k ih =>
    have hcall : chunkCall x b (chunkCv x b k) k = chunkCall y b' (chunkCv y b' k) k := by
      refine eq_of_not_collision hc ?_ ?_ (congrArg truncate h)
      · exact List.mem_append_left _ (List.mem_map.mpr ⟨k, List.mem_range.mpr (by omega), rfl⟩)
      · exact List.mem_append_right _ (List.mem_map.mpr ⟨k, List.mem_range.mpr (by omega), rfl⟩)
    by_cases hik : i = k
    · rw [hik]
      exact hcall
    · exact ih (by omega) (congrArg Call.cv hcall) (by omega)

theorem hashChunk_binding {x y : List Byte} {b b' : Bool} (hx : x.length ≤ chunkSize)
    (hy : y.length ≤ chunkSize)
    (hc : ¬ Collision (fun c : Call => truncate c.run) (hashChunkCalls x b ++ hashChunkCalls y b'))
    (h : truncate (lastCall x b).run = truncate (lastCall y b').run) : x = y := by
  have hlast : lastCall x b = lastCall y b' :=
    eq_of_not_collision hc (List.mem_append_left _ (lastCall_mem x b))
      (List.mem_append_right _ (lastCall_mem y b')) h
  have hlen : x.length = y.length := by
    have hoff := congrArg (fun c : Call => c.byteOffset.toNat) hlast
    simp only [lastCall_byteOffset, BitVec.toNat_ofNat] at hoff
    simp only [chunkSize] at hx hy
    omega
  have hn : numBlocks x = numBlocks y := by rw [numBlocks, numBlocks, hlen]
  have hcv : chunkCv x b (numBlocks x) = chunkCv y b' (numBlocks x) := by
    have hpos := numBlocks_pos x
    rw [show numBlocks x = numBlocks x - 1 + 1 by omega]
    have hrun := congrArg Call.run hlast
    simp only [lastCall, ← hn] at hrun
    exact hrun
  refine List.ext_getElem hlen (fun j hjx hjy => ?_)
  have hle := length_le_numBlocks x
  simp only [blockBytes] at hle
  have hcall := chunkCall_chain rfl hn hc _ (Nat.le_refl _) hcv (j / 128) (by omega)
  have hbyte := congrArg (fun c : Call => c.block[j % 128]) hcall
  rw [← getElem_chunkCall_block b _ hjx, ← getElem_chunkCall_block b' _ hjy]
  exact hbyte

/-- A leaf of the tree: at most one chunk of input. -/
abbrev Leaf := { chunk : List Byte // chunk.length ≤ chunkSize }

/-- blks-384 as a tree mode over `compress` truncated to 384 bits. -/
def mode : TreeHash Leaf Digest Call where
  out c := truncate c.run
  leafCalls b x := hashChunkCalls x.val b
  leafLast b x := lastCall x.val b
  parent b l r := parentCall l r b
  leafLast_mem b x := lastCall_mem x.val b
  parent_injective h := parentCall_injective h
  leaf_ne_parent b b' x l r := lastCall_ne_parentCall x.val b b' l r
  leaf_binding {_ _ x y} hc h := Subtype.ext (hashChunk_binding x.property y.property hc h)

theorem exactPairs_parentCall (b : Bool) (xs : List Digest) :
    (exactPairs xs).map (fun p => parentCall p.1 p.2 b) = mode.levelCalls b xs := by
  induction xs using exactPairs.induct with
  | case1 l r rest ih => simp only [exactPairs, List.map_cons, TreeHash.levelCalls, ih]; rfl
  | case2 xs h =>
    rcases xs with _ | ⟨a, _ | ⟨b, rest⟩⟩
    · rfl
    · rfl
    · exact absurd rfl (h a b rest)

theorem exactPairs_dropLast (xs : List Digest) (h : xs.length % 2 = 1) :
    exactPairs xs.dropLast = exactPairs xs := by
  induction xs using exactPairs.induct with
  | case1 a b rest ih =>
    simp only [List.length_cons] at h
    have hne : rest ≠ [] := by rintro rfl; simp at h
    rw [List.dropLast_cons_of_ne_nil (by simp), List.dropLast_cons_of_ne_nil hne, exactPairs,
      exactPairs, ih (by omega)]
  | case2 xs hx =>
    rcases xs with _ | ⟨a, _ | ⟨b, rest⟩⟩
    · rfl
    · rfl
    · exact absurd rfl (hx a b rest)

theorem reduceLevelCalls_eq (level : List Digest) (root : Bool) :
    reduceLevelCalls level root = mode.levelCalls (root && level.length == 2) level := by
  simp only [reduceLevelCalls]
  split
  · rename_i h
    rw [exactPairs_dropLast level (by simpa using h), exactPairs_parentCall]
  · exact exactPairs_parentCall _ level

theorem reduceNodesCalls_eq (level : List Digest) (root : Bool) :
    reduceNodesCalls level root = mode.reduceCalls root level := by
  induction level using reduceNodesCalls.induct root with
  | case1 level h =>
    rw [reduceNodesCalls, if_pos h]
    rcases level with _ | ⟨a, _ | ⟨b, rest⟩⟩
    · simp [TreeHash.reduceCalls]
    · simp [TreeHash.reduceCalls]
    · simp at h
  | case2 level h ih =>
    rw [reduceNodesCalls, if_neg h, ih, reduceLevelCalls_eq, reduceLevel_eq]
    rcases level with _ | ⟨a, _ | ⟨b, rest⟩⟩
    · simp at h
    · simp at h
    · conv_rhs => rw [TreeHash.reduceCalls]
      simp
      rfl

/-- The level loop is the tree that splits at the largest power of two below the number of nodes.
The call on the two halves alone has the flag. -/
theorem reduceNodes_leftFull (level : List Digest) (root : Bool) (h : 2 ≤ level.length) :
    IsGreatest {p | p < level.length ∧ ∃ k, p = 2 ^ k} (splitPoint level.length) ∧
    reduceNodes level root = leftFull (fun r a b => compressParent a b r) root level ∧
    ∃ left right others,
      leftFull (fun r a b => compressParent a b r) false (level.take (splitPoint level.length)) =
        some left ∧
      leftFull (fun r a b => compressParent a b r) false (level.drop (splitPoint level.length)) =
        some right ∧
      reduceNodesCalls level root = others ++ [parentCall left right root] ∧
      others.length = level.length - 2 ∧ ∀ c ∈ others, ∃ a b, c = parentCall a b false := by
  refine ⟨splitPoint_isGreatest h, ?_, ?_⟩
  · rw [reduceNodes_eq, treeReduce_eq_leftFull]
  · obtain ⟨left, right, others, hlevel, hcalls, hothers, hflag⟩ :=
      mode.reduceCalls_levels root _ level (splitPoint_lt h) (by
        have := le_two_mul_splitPoint level.length
        unfold splitPoint at this
        omega)
    have hhalves := levels_halves mode.combine level h
    rw [hlevel, treeReduce_eq_leftFull, treeReduce_eq_leftFull] at hhalves
    obtain ⟨hleft, hright⟩ := List.cons_eq_cons.mp hhalves
    exact ⟨left, right, others, hleft.symm, (List.cons_eq_cons.mp hright).1.symm,
      (reduceNodesCalls_eq level root).trans hcalls, hothers, hflag⟩

theorem reduceNodes_leftFull_three :
    reduceNodes (List.replicate 3 (Vector.replicate 48 0)) true =
      leftFull (fun r a b => compressParent a b r) true
        (List.replicate 3 (Vector.replicate 48 0)) :=
  (reduceNodes_leftFull (List.replicate 3 (Vector.replicate 48 0)) true (by decide)).2.1

/-- Total on byte strings; the pieces of `cut chunkSize` are not shortened. -/
def leafOf (chunk : List Byte) : Leaf :=
  ⟨chunk.take chunkSize, List.length_take_le _ _⟩

theorem leafOf_val {data chunk : List Byte} (h : chunk ∈ cut chunkSize data) :
    (leafOf chunk).val = chunk :=
  List.take_of_length_le (mem_cut (by decide) h).2

def chunks (data : List Byte) : List (Lib.Tree Leaf) :=
  (cut chunkSize data).map fun chunk => .leaf (leafOf chunk)

theorem digest_leaf (b : Bool) (x : Leaf) :
    mode.digest b (.leaf x) = truncate (lastCall x.val b).run := rfl

theorem digest_chunks (data : List Byte) :
    (chunks data).map (mode.digest false) = leaves data := by
  rw [chunks, List.map_map, leaves]
  refine List.map_congr_left (fun chunk hm => ?_)
  rw [Function.comp_apply, digest_leaf, leafOf_val hm, hashChunk_eq]

theorem calls_chunks {data : List Byte} {t : Lib.Tree Leaf} (ht : t ∈ chunks data) :
    mode.calls false t ⊆ hashChunksCalls data := by
  obtain ⟨chunk, hm, rfl⟩ := List.mem_map.mp ht
  intro c hc
  refine List.mem_flatMap.mpr ⟨chunk, hm, ?_⟩
  rw [← leafOf_val hm]
  exact hc

theorem frontier_chunks (data : List Byte) :
    (((chunks data).flatMap Tree.frontier).map Subtype.val).flatten = data := by
  have h : ((chunks data).flatMap Tree.frontier).map Subtype.val = cut chunkSize data := by
    simp only [chunks, List.flatMap_map, Tree.frontier, List.map_flatMap, List.map_singleton]
    rw [← List.map_eq_flatMap]
    exact (List.map_congr_left (fun chunk hm => leafOf_val hm)).trans (List.map_id' _)
  rw [h, flatten_cut (by decide)]

theorem length_chunks (data : List Byte) : (chunks data).length = (leaves data).length := by
  rw [← digest_chunks, List.length_map]

theorem cut_chunks (data : List Byte) :
    (cut subtreeBytes data).map chunks = cut (2 ^ 6) (chunks data) := by
  rw [chunks, cut_map _ (by decide), ← cut_cut (by decide) (by decide), List.map_map]
  rfl

/-- Reducing each slice below the root gives a subtree whose root and calls the second regime
computes. -/
theorem subtrees (slices : List (List Byte)) (subs : List (Lib.Tree Leaf))
    (h : (slices.map chunks).mapM (treeReduce Tree.grow false) = some subs) :
    subs.length = slices.length ∧
    subs.map (mode.digest false) =
      (slices.filterMap fun slice => reduceNodes (leaves slice) false) ∧
    ∀ t ∈ subs, mode.calls false t ⊆ slices.flatMap fun slice =>
      hashChunksCalls slice ++ reduceNodesCalls (leaves slice) false := by
  induction slices generalizing subs with
  | nil =>
    simp only [List.map_nil, List.mapM_nil, Option.pure_def, Option.some.injEq] at h
    subst h
    simp
  | cons slice slices ih =>
    rw [List.map_cons, List.mapM_cons] at h
    obtain ⟨sub, hsub, h⟩ := Option.bind_eq_some_iff.mp h
    obtain ⟨rest, hrest, h⟩ := Option.bind_eq_some_iff.mp h
    obtain rfl := Option.some.inj h
    obtain ⟨hlen, hdig, hcalls⟩ := ih rest hrest
    have hroot : reduceNodes (leaves slice) false = some (mode.digest false sub) := by
      have hd := mode.digest_treeReduce false (chunks slice) (.inr rfl)
      rw [digest_chunks, hsub] at hd
      rw [reduceNodes_eq]
      exact hd
    have hmine := mode.calls_treeReduce false (chunks slice) (.inr rfl) _
      (fun t ht => calls_chunks ht) sub hsub
    rw [digest_chunks, ← reduceNodesCalls_eq] at hmine
    refine ⟨by simp [hlen], by simp only [List.map_cons, hdig, List.filterMap_cons, hroot], ?_⟩
    intro t ht
    rw [List.flatMap_cons]
    rcases List.mem_cons.mp ht with rfl | ht
    · exact fun c hc => List.mem_append_left _ (hmine hc)
    · exact fun c hc => List.mem_append_right _ (hcalls t ht hc)

theorem calls_of_treeReduce {data : List Byte} (hlong : ¬ data.length ≤ chunkSize)
    {t : Lib.Tree Leaf} (ht : treeReduce Tree.grow true (chunks data) = some t) :
    mode.calls true t ⊆ hashSliceParallelCalls data := by
  have hlen : (chunks data).length = (data.length + chunkSize - 1) / chunkSize := by
    rw [length_chunks, length_leaves]
  rw [hashSliceParallelCalls, if_neg hlong]
  split
  · rename_i hbig
    rw [← treeReduce_cut Tree.grow true 6 (chunks data), ← cut_chunks] at ht
    · obtain ⟨subs, hsubs, ht⟩ := Option.bind_eq_some_iff.mp ht
      obtain ⟨hslices, hdig, hcalls⟩ := subtrees _ subs hsubs
      rw [reduceNodesCalls_eq, ← hdig]
      refine mode.calls_treeReduce true subs (.inl ?_) _ hcalls t ht
      rw [hslices, length_cut (by decide)]
      simp only [subtreeBytes, chunkSize, subtreeChunks] at hbig ⊢
      omega
    · rw [hlen]
      simp only [subtreeBytes, chunkSize, subtreeChunks] at hbig ⊢
      omega
  · rw [reduceNodesCalls_eq, ← digest_chunks]
    refine mode.calls_treeReduce true (chunks data) (.inl ?_) _ (fun t h => calls_chunks h) t ht
    rw [hlen]
    simp only [chunkSize] at hlong ⊢
    omega

/-- The digest is that of a tree over the chunks of the data, and every call of this tree is
made. -/
theorem exists_tree (avx2 : Bool) (data : List Byte) :
    ∃ t : Lib.Tree Leaf, hashSliceParallel avx2 data = some (mode.digest true t) ∧
      mode.calls true t ⊆ hashSliceParallelCalls data ∧
      (t.frontier.map Subtype.val).flatten = data := by
  rw [hashSliceParallel_eq]
  by_cases hle : data.length ≤ chunkSize
  · refine ⟨.leaf ⟨data, hle⟩, ?_, ?_, by simp [Tree.frontier]⟩
    · rw [if_pos hle, hashChunk_eq]
      rfl
    · rw [hashSliceParallelCalls, if_pos hle]
      exact fun c hc => hc
  · have hlen : 2 ≤ (chunks data).length := by
      rw [length_chunks, length_leaves]
      simp only [chunkSize] at hle ⊢
      omega
    have hne : chunks data ≠ [] := by
      intro h
      rw [h] at hlen
      simp at hlen
    obtain ⟨t, ht⟩ := Option.isSome_iff_exists.mp (treeReduce_isSome Tree.grow true _ hne)
    refine ⟨t, ?_, ?_, ?_⟩
    · have h := mode.digest_treeReduce true (chunks data) (.inl hlen)
      rw [digest_chunks, ht] at h
      rw [if_neg hle, reduceNodes_eq]
      exact h
    · exact calls_of_treeReduce hle ht
    · rw [Tree.frontier_treeReduce true _ t ht, frontier_chunks]

/-- Either the data or the digests differ as they should, or two different calls made for them
agree on the six words that are kept. -/
theorem hashSliceParallel_sound (avx2 avx2' : Bool) (x y : List Byte) :
    x = y ∨ hashSliceParallel avx2 x ≠ hashSliceParallel avx2' y ∨
      ∃ a ∈ hashSliceParallelCalls x ++ hashSliceParallelCalls y,
        ∃ b ∈ hashSliceParallelCalls x ++ hashSliceParallelCalls y,
          a ≠ b ∧ ∀ i : Fin 6, a.run[i.val] = b.run[i.val] := by
  by_cases hd : hashSliceParallel avx2 x = hashSliceParallel avx2' y
  · by_cases hc : Collision mode.out (hashSliceParallelCalls x ++ hashSliceParallelCalls y)
    · obtain ⟨a, ha, b, hb, hab, hout⟩ := hc
      exact .inr (.inr ⟨a, ha, b, hb, hab, fun i => (truncate_eq_iff _ _).mp hout i i.isLt⟩)
    · obtain ⟨t, ht, hct, hft⟩ := exists_tree avx2 x
      obtain ⟨u, hu, hcu, hfu⟩ := exists_tree avx2' y
      rw [ht, hu, Option.some.injEq] at hd
      have htu : t = u := by
        refine mode.binding t u (fun h => hc (h.mono ?_)) hd
        intro c hm
        rw [List.mem_append] at hm ⊢
        exact hm.imp (@hct c) (@hcu c)
      rw [← hft, ← hfu, htu]
      exact .inl rfl
  · exact .inr (.inl hd)

end Blkcp.Blks
