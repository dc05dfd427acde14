import Blkcp.Blks.Tree
set_option autoImplicit false

/-! The streaming hasher and the one-shot hash compute the same tree over the same leaves. -/

namespace Blkcp.Blks
open Blkcp.Lib

theorem messageWords_chunkCall (chunk : List Byte) (isRoot : Bool) (cv : Cv) (i : Nat)
    (h : (i + 1) * 128 ≤ chunk.length) (w : Nat) (hw : w < 16) :
    (messageWords (chunkCall chunk isRoot cv i).block)[w] = chunkWord chunk (i * 16 + w) := by
  rw [messageWords, Vector.getElem_ofFn, chunkWord]
  refine congrArg fromLeBytes (Vector.ext fun j hj => ?_)
  simp only [Vector.getElem_ofFn, chunkCall]
  rw [if_pos (by simp only [blockBytes]; omega)]
  exact congrArg (fun k => chunk.getD k 0) (by simp only [blockBytes]; omega)

/-- On a full chunk every lane of the AVX2 block loop follows the scalar block loop. -/
theorem lane_avx2Block (c : Fin 4 → List Byte) (l : Fin 4) (hl : (c l).length = 4096)
    (cv : Vector M256 8) (i : Nat) (hi : i < 32) :
    lane l (avx2Block (c 0) (c 1) (c 2) (c 3) cv i) =
      (chunkCall (c l) false (lane l cv) i).run := by
  have hm : lane l (Vector.ofFn fun w : Fin 16 =>
      mm256Set (chunkWord (c 3) (i * 16 + w.val)) (chunkWord (c 2) (i * 16 + w.val))
        (chunkWord (c 1) (i * 16 + w.val)) (chunkWord (c 0) (i * 16 + w.val))) =
      messageWords (chunkCall (c l) false (lane l cv) i).block := by
    apply Vector.ext
    intro w hw
    rw [messageWords_chunkCall _ _ _ _ (by omega) _ hw]
    simp only [lane, Vector.getElem_map, Vector.getElem_ofFn, mm256Set]
    have hl' : l = 0 ∨ l = 1 ∨ l = 2 ∨ l = 3 := by omega
    rcases hl' with rfl | rfl | rfl | rfl <;> rfl
  have hb : numBlocks (c l) = 32 := by simp [numBlocks, hl, blockBytes]
  have hstop : min (i * blockBytes + blockBytes) (c l).length = (i + 1) * blockBytes := by
    rw [hl]; simp only [blockBytes]; omega
  simp only [avx2Block, Call.run, compress]
  rw [lane_feedForward, lane_rounds, lane_initState, hm]
  simp [chunkCall, hb, hstop]

theorem lane_avx2Blocks (c : Fin 4 → List Byte) (l : Fin 4) (hl : (c l).length = 4096) (n : Nat)
    (hn : n ≤ 32) :
    lane l ((List.range n).foldl (avx2Block (c 0) (c 1) (c 2) (c 3)) (initialCv.map mm256Set1)) =
      chunkCv (c l) false n := by
  induction n with
  | zero => exact lane_set1 l initialCv
  | succ n ih =>
    rw [List.range_succ, List.foldl_append, List.foldl_cons, List.foldl_nil,
      lane_avx2Block c l hl _ _ (by omega), ih (by omega), chunkCv]

theorem hash4ChunksAvx2_eq (c : Fin 4 → List Byte) (h : ∀ l, (c l).length = 4096) :
    (hash4ChunksAvx2 (c 0) (c 1) (c 2) (c 3)).toList =
      [hashChunk (c 0) false, hashChunk (c 1) false, hashChunk (c 2) false,
        hashChunk (c 3) false] := by
  have hl : ∀ l, truncate (lane l ((List.range 32).foldl (avx2Block (c 0) (c 1) (c 2) (c 3))
      (initialCv.map mm256Set1))) = hashChunk (c l) false := by
    intro l
    rw [lane_avx2Blocks c l (h l) 32 (by omega), hashChunk, numBlocks, h l]
    rfl
  simp only [hash4ChunksAvx2, hl]
  rfl

/-- The leaves of a byte string: its 4096-byte pieces, hashed without the root flag. -/
def leaves (data : List Byte) : List Digest :=
  (cut chunkSize data).map fun chunk => hashChunk chunk false

theorem leaves_append (xs ys : List Byte) (h : chunkSize ∣ xs.length) :
    leaves (xs ++ ys) = leaves xs ++ leaves ys := by
  rw [leaves, cut_append (by decide) _ _ h, List.map_append, leaves, leaves]

theorem leaves_of_le {xs : List Byte} (hx : xs ≠ []) (h : xs.length ≤ chunkSize) :
    leaves xs = [hashChunk xs false] := by
  rw [leaves, cut_of_le hx h, List.map_singleton]

theorem leaves_take_succ (slice : List Byte) (n : Nat) (h : (n + 1) * chunkSize ≤ slice.length) :
    leaves (slice.take ((n + 1) * chunkSize)) = leaves (slice.take (n * chunkSize)) ++
      [hashChunk ((slice.drop (n * chunkSize)).take chunkSize) false] := by
  rw [leaves, cut_take_succ (by decide) n slice h, List.map_append, List.map_singleton, ← leaves]

theorem avx2Leaves_eq (slice : List Byte) (full i : Nat) (hf : full * chunkSize ≤ slice.length)
    (hi : i ≤ full) :
    ∃ j, j ≤ full ∧ avx2Leaves slice full i (leaves (slice.take (i * chunkSize))) =
      (j, leaves (slice.take (j * chunkSize))) := by
  induction h : full - i using Nat.strong_induction_on generalizing i with
  | _ k ih =>
    rw [avx2Leaves]
    by_cases hc : i + 4 ≤ full
    · obtain ⟨j, hj, he⟩ := ih (full - (i + 4)) (by omega) (i + 4) hc rfl
      refine ⟨j, hj, ?_⟩
      rw [if_pos hc]
      have hle : ∀ m, m < 4 → (i + m + 1) * chunkSize ≤ slice.length := fun m hm =>
        Nat.le_trans (Nat.mul_le_mul_right _ (by omega)) hf
      have h4 := hash4ChunksAvx2_eq
        (fun l : Fin 4 => (slice.drop (i * chunkSize + l.val * chunkSize)).take chunkSize) (by
          intro l
          have := hle l.val l.isLt
          rw [Nat.succ_mul, Nat.add_mul] at this
          rw [List.length_take, List.length_drop, Nat.min_eq_left (by omega)])
      have hstep : ∀ m, m < 4 → leaves (slice.take ((i + m + 1) * chunkSize)) =
          leaves (slice.take ((i + m) * chunkSize)) ++
            [hashChunk ((slice.drop (i * chunkSize + m * chunkSize)).take chunkSize) false] := by
        intro m hm
        rw [leaves_take_succ slice (i + m) (hle m hm), Nat.add_mul]
      have h0 := hstep 0 (by omega)
      have h1 := hstep 1 (by omega)
      have h2 := hstep 2 (by omega)
      have h3 := hstep 3 (by omega)
      simp only [Nat.add_zero, Nat.add_assoc, Nat.reduceAdd] at h0 h1 h2 h3
      rw [← he, h3, h2, h1, h0]
      simp only [List.append_assoc, List.cons_append, List.nil_append]
      exact congrArg (fun l => avx2Leaves slice full (i + 4) (leaves _ ++ l)) h4
    · exact ⟨i, hi, by rw [if_neg hc]⟩

theorem scalarLeaves_eq (slice : List Byte) (full i : Nat) (hf : full * chunkSize ≤ slice.length)
    (hi : i ≤ full) :
    scalarLeaves slice full i (leaves (slice.take (i * chunkSize))) =
      leaves (slice.take (full * chunkSize)) := by
  induction h : full - i using Nat.strong_induction_on generalizing i with
  | _ k ih =>
    rw [scalarLeaves]
    by_cases hc : i < full
    · have hle : (i + 1) * chunkSize ≤ slice.length :=
        Nat.le_trans (Nat.mul_le_mul_right _ hc) hf
      rw [if_pos hc, ← ih (full - (i + 1)) (by omega) (i + 1) hc rfl, leaves_take_succ slice i hle]
    · rw [if_neg hc, show i = full by omega]

/-- With or without AVX2 the leaves are the hashes of the 4096-byte pieces. -/
theorem hashChunksAccelerated_eq (avx2 : Bool) (slice : List Byte) :
    hashChunksAccelerated avx2 slice = leaves slice := by
  have hf : slice.length / chunkSize * chunkSize ≤ slice.length := Nat.div_mul_le_self _ _
  have hnil : leaves (slice.take (0 * chunkSize)) = [] := by
    rw [Nat.zero_mul, List.take_zero, leaves, cut_nil, List.map_nil]
  obtain ⟨j, hj, he⟩ := avx2Leaves_eq slice _ 0 hf (Nat.zero_le _)
  have hs : ∀ p, p = (if avx2 then avx2Leaves slice (slice.length / chunkSize) 0 [] else (0, [])) →
      scalarLeaves slice (slice.length / chunkSize) p.1 p.2 =
        leaves (slice.take (slice.length / chunkSize * chunkSize)) := by
    rintro p rfl
    cases avx2
    · have h := scalarLeaves_eq slice _ 0 hf (Nat.zero_le _)
      rwa [hnil] at h
    · rw [hnil] at he
      rw [if_pos rfl, he]
      exact scalarLeaves_eq slice _ j hf hj
  simp only [hashChunksAccelerated]
  rw [hs _ rfl]
  conv_rhs => rw [leaves, cut_eq_append_tail (by decide) slice, List.map_append, ← leaves]
  split <;> simp

/-- With AVX2 and without it the leaves are those of the scalar code, and each lane of the
four-chunk engine hashes its own chunk. -/
theorem accelerated_eq_scalar :
    (∀ (avx2 : Bool) (slice : List Byte), hashChunksAccelerated avx2 slice =
      (cut chunkSize slice).map fun chunk => hashChunk chunk false) ∧
    ∀ (c : Fin 4 → Vector Byte 4096) (l : Fin 4),
      (hash4ChunksAvx2 (c 0).toList (c 1).toList (c 2).toList (c 3).toList).get l =
        hashChunk (c l).toList false := by
  refine ⟨hashChunksAccelerated_eq, fun c l => ?_⟩
  have hlanes := hash4ChunksAvx2_eq (fun l => (c l).toList) fun l => (c l).length_toList
  have hl : l = 0 ∨ l = 1 ∨ l = 2 ∨ l = 3 := by omega
  have hget : (hash4ChunksAvx2 (c 0).toList (c 1).toList (c 2).toList (c 3).toList).get l =
      (hash4ChunksAvx2 (c 0).toList (c 1).toList (c 2).toList (c 3).toList).toList[l] :=
    (Vector.getElem_toList _).symm
  rw [hget]
  simp only [hlanes]
  rcases hl with rfl | rfl | rfl | rfl <;> rfl

/-- The level loop is the tree reduction with `compress_parent`, flagged at the last pair. -/
theorem reduceNodes_eq (level : List Digest) (root : Bool) :
    reduceNodes level root = treeReduce (fun r a b => compressParent a b r) root level := by
  induction level using reduceNodes.induct root with
  | case1 level h =>
    rw [reduceNodes, if_pos h]
    match level, h with
    | [], _ => simp [treeReduce]
    | [a], _ => simp
  | case2 level h ih =>
    rw [reduceNodes, if_neg h, ih, reduceLevel_eq,
      treeReduce_level _ _ level (by omega)]

theorem reduceNodes_isSome {level : List Digest} (h : level ≠ []) (root : Bool) :
    (reduceNodes level root).isSome := by
  rw [reduceNodes_eq]
  exact treeReduce_isSome _ root level h

theorem leaves_ne_nil {data : List Byte} (h : data ≠ []) : leaves data ≠ [] := by
  rw [leaves, ne_eq, List.map_eq_nil_iff, cut_eq_nil_iff (by decide)]
  exact h

theorem length_leaves (data : List Byte) :
    (leaves data).length = (data.length + chunkSize - 1) / chunkSize := by
  rw [leaves, List.length_map, length_cut (by decide)]

/-- All three regimes: one root chunk, or the tree over all leaves. -/
theorem hashSliceParallel_eq (avx2 : Bool) (data : List Byte) :
    hashSliceParallel avx2 data =
      if data.length ≤ chunkSize then some (hashChunk data true)
      else reduceNodes (leaves data) true := by
  rw [hashSliceParallel]
  split
  · rfl
  · rename_i hlong
    split
    · rename_i hbig
      have hgroups : (cut subtreeBytes data).map leaves = cut (2 ^ 6) (leaves data) := by
        rw [leaves, cut_map _ (by decide), ← cut_cut (by decide) (by decide), List.map_map]
        rfl
      have hlen : 2 ^ 6 < (leaves data).length := by
        rw [length_leaves]
        simp only [subtreeBytes, chunkSize, subtreeChunks] at hbig ⊢
        omega
      have hmap : ∀ gs : List (List Byte),
          (gs.mapM fun slice => reduceNodes (hashChunksAccelerated avx2 slice) false) =
            (gs.map leaves).mapM (treeReduce (fun r a b => compressParent a b r) false) := by
        intro gs
        simp only [List.mapM_map, hashChunksAccelerated_eq, reduceNodes_eq]
        rfl
      rw [hmap, hgroups]
      simp only [reduceNodes_eq]
      exact treeReduce_cut (fun r a b => compressParent a b r) true 6 (leaves data) hlen
    · rw [hashChunksAccelerated_eq]

theorem hashSliceParallel_isSome (avx2 : Bool) (data : List Byte) :
    (hashSliceParallel avx2 data).isSome := by
  rw [hashSliceParallel_eq]
  split
  · rfl
  · refine reduceNodes_isSome (leaves_ne_nil ?_) true
    rintro rfl
    simp at *

namespace BlksHasher

/-- What a hasher fed with `data` holds: the leaves of whole chunks and, unless nothing was fed,
a non-empty rest of at most one chunk. -/
structure Fed (h : BlksHasher) (data : List Byte) (pre : List Byte) : Prop where
  data_eq : data = pre ++ h.buffer
  aligned : chunkSize ∣ pre.length
  leaves_eq : h.leafHashes = leaves pre
  buffer_le : h.buffer.length ≤ chunkSize
  pending : h.buffer = [] → pre = []

theorem new_fed : Fed new [] [] :=
  ⟨rfl, by simp, by simp [new, leaves], by simp [new], fun _ => rfl⟩

/-- How much of an input stages 3 and 4 hash at once: whole chunks, leaving at most one. -/
theorem hashableLen_spec (input : List Byte) (n : Nat)
    (hn : n = if input.length > chunkSize then
      if input.length % chunkSize = 0 then input.length - chunkSize
      else input.length / chunkSize * chunkSize else 0) :
    chunkSize ∣ n ∧ n ≤ input.length ∧ input.length - n ≤ chunkSize ∧
      (input ≠ [] → n < input.length) := by
  have hne : input ≠ [] ↔ 0 < input.length := List.length_pos_iff.symm
  rw [hne]
  subst hn
  simp only [chunkSize]
  split
  · split <;> omega
  · omega

theorem updateBulk_fed (avx2 : Bool) {h : BlksHasher} {data : List Byte} (input : List Byte)
    (hb : h.buffer = []) (hd : chunkSize ∣ data.length) (hl : h.leafHashes = leaves data)
    (hin : input = [] → data = []) :
    ∃ pre, Fed (updateBulk avx2 h input) (data ++ input) pre := by
  simp only [updateBulk]
  generalize hn : (if input.length > chunkSize then
      if input.length % chunkSize = 0 then input.length - chunkSize
      else input.length / chunkSize * chunkSize else 0) = n
  obtain ⟨hdvd, hle, hrest, hlt⟩ := hashableLen_spec input n hn.symm
  have htake : (input.take n).length = n := by rw [List.length_take, Nat.min_eq_left hle]
  have hh : (if n > 0 then { h with leafHashes :=
      h.leafHashes ++ hashChunksAccelerated avx2 (input.take n) } else h) =
      { h with leafHashes := leaves (data ++ input.take n) } := by
    rw [leaves_append _ _ hd, ← hl, hashChunksAccelerated_eq]
    split
    · rfl
    · rw [show n = 0 by omega]
      simp [leaves]
  refine ⟨data ++ input.take n, ?_⟩
  rw [hh]
  have haligned : chunkSize ∣ (data ++ input.take n).length := by
    rw [List.length_append, htake]
    exact Nat.dvd_add hd hdvd
  by_cases he : input = []
  · subst he
    exact ⟨by simp [hb], haligned, by simp, by simp [hb], fun _ => by simp [hin rfl]⟩
  · have hdrop : input.drop n ≠ [] := by
      intro hd
      have := List.drop_eq_nil_iff.mp hd
      have := hlt he
      omega
    rw [if_pos hdrop]
    refine ⟨?_, haligned, rfl, ?_, ?_⟩
    · simp [hb]
    · simpa [hb] using hrest
    · intro h
      simp [hb, hdrop] at h

theorem flushLeaf_leaves {h : BlksHasher} {data pre : List Byte} (hf : Fed h data pre)
    (hb : h.buffer.length = chunkSize) :
    chunkSize ∣ data.length ∧ h.flushLeaf.leafHashes = leaves data := by
  have hne : h.buffer ≠ [] := by
    intro he
    rw [he] at hb
    simp at hb
  constructor
  · rw [hf.data_eq, List.length_append, hb]
    exact Nat.dvd_add hf.aligned (Nat.dvd_refl _)
  · rw [hf.data_eq, leaves_append _ _ hf.aligned, leaves_of_le hne (by omega), ← hf.leaves_eq]
    rfl

theorem update_fed (avx2 : Bool) {h : BlksHasher} {data pre : List Byte} (hf : Fed h data pre)
    (input : List Byte) : ∃ pre', Fed (update avx2 h input) (data ++ input) pre' := by
  obtain ⟨buffer, leafHashes, totalBytes⟩ := h
  simp only [update]
  by_cases hfull : buffer.length = chunkSize ∧ input ≠ []
  · -- a pending complete chunk is hashed as soon as more data arrives
    obtain ⟨hd, hl⟩ := flushLeaf_leaves hf hfull.1
    rw [if_pos hfull]
    exact updateBulk_fed avx2 _ rfl hd hl (fun he => absurd he hfull.2)
  · rw [if_neg hfull]
    by_cases hb : buffer = []
    · have hp := hf.pending hb
      have hd := hf.data_eq
      simp only [hb, hp, List.append_nil] at hd
      simp only [hb, ne_eq, not_true_eq_false, if_false]
      refine updateBulk_fed avx2 _ rfl ?_ ?_ (fun _ => hd)
      · simp [hd]
      · have hl := hf.leaves_eq
        rw [hp] at hl
        rw [hd]
        exact hl
    · simp only [ne_eq, hb, not_false_eq_true, if_true]
      have hle : buffer.length ≤ chunkSize := hf.buffer_le
      generalize htake : min (chunkSize - buffer.length) input.length = n
      have hfill : Fed ⟨buffer ++ input.take n, leafHashes, totalBytes + BitVec.ofNat 64 input.length⟩
          (data ++ input.take n) pre := by
        refine ⟨?_, hf.aligned, hf.leaves_eq, ?_, ?_⟩
        · rw [hf.data_eq, List.append_assoc]
        · rw [List.length_append, List.length_take]
          omega
        · intro he
          exact absurd (List.append_eq_nil_iff.mp he).1 hb
      split
      · rename_i hagain
        obtain ⟨hd, hl⟩ := flushLeaf_leaves hfill hagain.1
        have := updateBulk_fed avx2 (input.drop n) rfl hd hl
          (fun he => absurd he hagain.2)
        rwa [List.append_assoc, List.take_append_drop] at this
      · rename_i hagain
        -- the input fitted: nothing of it is left
        have hdrop : input.drop n = [] := by
          by_contra hne
          apply hagain
          refine ⟨?_, hne⟩
          have hlt : n < input.length := by
            by_contra hge
            exact hne (List.drop_of_length_le (by omega))
          rw [List.length_append, List.length_take]
          omega
        have hall : input.take n = input :=
          List.take_of_length_le (List.drop_eq_nil_iff.mp hdrop)
        rw [hall] at hfill ⊢
        exact ⟨pre, hfill⟩

/-- Feeding slices one after another. -/
def feed (avx2 : Bool) (h : BlksHasher) (slices : List (List Byte)) : BlksHasher :=
  slices.foldl (update avx2) h

theorem feed_fed (avx2 : Bool) (slices : List (List Byte)) {h : BlksHasher}
    {data pre : List Byte} (hf : Fed h data pre) :
    ∃ pre', Fed (feed avx2 h slices) (data ++ slices.flatten) pre' := by
  induction slices generalizing h data pre with
  | nil => exact ⟨pre, by simpa [feed] using hf⟩
  | cons slice slices ih =>
    obtain ⟨pre', hf'⟩ := update_fed avx2 hf slice
    simpa [feed, List.append_assoc] using ih hf'

theorem finalize_eq (avx2 : Bool) {h : BlksHasher} {data pre : List Byte} (hf : Fed h data pre) :
    finalize h = hashSliceParallel avx2 data := by
  rw [hashSliceParallel_eq, finalize]
  by_cases hp : pre = []
  · have hl : h.leafHashes = [] := by rw [hf.leaves_eq, hp, leaves, cut_nil, List.map_nil]
    have hd : data = h.buffer := by rw [hf.data_eq, hp, List.nil_append]
    rw [if_pos hl, hd, if_pos hf.buffer_le]
  · have hl : h.leafHashes ≠ [] := by
      rw [hf.leaves_eq]
      exact leaves_ne_nil hp
    have hb : h.buffer ≠ [] := fun he => hp (hf.pending he)
    have hpos := List.length_pos_of_ne_nil hb
    have hchunk : chunkSize ≤ pre.length :=
      Nat.le_of_dvd (List.length_pos_of_ne_nil hp) hf.aligned
    have hlong : ¬ data.length ≤ chunkSize := by
      rw [hf.data_eq, List.length_append]
      omega
    rw [if_neg hl, if_neg hlong, if_pos hb]
    conv_rhs => rw [hf.data_eq, leaves_append _ _ hf.aligned, leaves_of_le hb hf.buffer_le,
      ← hf.leaves_eq]

/-- However a byte string is cut into slices, streaming them gives its one-shot digest, and
neither panics. -/
theorem feed_finalize (avx2 avx2' : Bool) (slices : List (List Byte)) :
    finalize (feed avx2 new slices) = hashSliceParallel avx2' slices.flatten ∧
      (hashSliceParallel avx2' slices.flatten).isSome := by
  obtain ⟨pre, hf⟩ := feed_fed avx2 slices new_fed
  rw [List.nil_append] at hf
  exact ⟨finalize_eq avx2' hf, hashSliceParallel_isSome avx2' _⟩

end BlksHasher

end Blkcp.Blks
