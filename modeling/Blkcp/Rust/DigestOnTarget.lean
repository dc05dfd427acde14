import Blkcp.Blks.Eval
import Blkcp.Rust.FileEffect
set_option autoImplicit false

/-! When the digest that a copy reports is that of the bytes read back from the target. -/

namespace Blkcp.Rust
open Blkcp.Lib Blkcp.Blks

variable {ρ ω η₂ η₃ : Type}

/-- The digest of a crate depends on the bytes fed, not on how they were cut. -/
def Streaming {η : Type} (crate : DigestCrate η) : Prop :=
  ∀ slices : List (List Byte), crate.finalizeHex (slices.foldl crate.update crate.new) =
    crate.finalizeHex (crate.update crate.new slices.flatten)

/-- The hash chosen, of a byte string as a whole. -/
def chosenHash (env : HashEnv η₂ η₃) (algo : HashAlgo) (bytes : List Byte) : HashInfo :=
  match algo with
  | .none => none
  | .sha256 => some (env.sha2.finalizeHex (env.sha2.update env.sha2.new bytes), "sha256")
  | .blake3 => some (env.blake3.finalizeHex (env.blake3.update env.blake3.new bytes), "blake3")
  | .blks => (hashSliceParallel env.avx2 bytes).map fun hash => (encodeBase64 hash, "blks")

/-- Two byte strings of one digest. -/
def Collides (env : HashEnv η₂ η₃) (algo : HashAlgo) (a b : List Byte) : Prop :=
  a ≠ b ∧ chosenHash env algo a = chosenHash env algo b

variable {I : Input Byte ρ} {O : Output Byte ω} {env : HashEnv η₂ η₃} {cfg : Config}

theorem map_toByte (bytes : List Byte) : bytes.map Octet.toByte = bytes := List.map_id bytes

theorem hashAll_cons (h : InFlightHasher η₂ η₃) (b : List Byte) (bs : List (List Byte)) :
    hashAll env h (b :: bs) = hashAll env (h.update env b) bs := rfl

theorem hashAll_sha256 (h : η₂) (blocks : List (List Byte)) :
    hashAll env (.sha256 h : InFlightHasher η₂ η₃) blocks =
      .sha256 (blocks.foldl env.sha2.update h) := by
  induction blocks generalizing h with
  | nil => rfl
  | cons b bs ih =>
    rw [hashAll_cons, InFlightHasher.update, map_toByte, ih]
    rfl

theorem hashAll_blake3 (h : η₃) (blocks : List (List Byte)) :
    hashAll env (.blake3 h : InFlightHasher η₂ η₃) blocks =
      .blake3 (blocks.foldl env.blake3.update h) := by
  induction blocks generalizing h with
  | nil => rfl
  | cons b bs ih =>
    rw [hashAll_cons, InFlightHasher.update, map_toByte, ih]
    rfl

theorem hashAll_blks (h : BlksHasher) (blocks : List (List Byte)) :
    hashAll env (.blks h : InFlightHasher η₂ η₃) blocks =
      .blks (BlksHasher.feed env.avx2 h blocks) := by
  induction blocks generalizing h with
  | nil => rfl
  | cons b bs ih =>
    rw [hashAll_cons, InFlightHasher.update, map_toByte, ih]
    rfl

/-- Hashing block by block gives the digest of the whole. -/
theorem finalizeString_hashAll (hsha : Streaming env.sha2) (hblake : Streaming env.blake3)
    (algo : HashAlgo) (blocks : List (List Byte)) :
    (hashAll env (InFlightHasher.new env algo) blocks).finalizeString env =
      chosenHash env algo blocks.flatten := by
  cases algo with
  | none =>
    rw [InFlightHasher.new, hashAll_none]
    rfl
  | sha256 =>
    rw [InFlightHasher.new, hashAll_sha256, InFlightHasher.finalizeString, hsha]
    rfl
  | blake3 =>
    rw [InFlightHasher.new, hashAll_blake3, InFlightHasher.finalizeString, hblake]
    rfl
  | blks =>
    obtain ⟨pre, hfed⟩ := BlksHasher.feed_fed env.avx2 blocks BlksHasher.new_fed
    rw [InFlightHasher.new, hashAll_blks, InFlightHasher.finalizeString,
      BlksHasher.finalize_eq env.avx2 hfed]
    rfl

section Target

variable (cfg)

/-- No block is padded, and whatever is passed over lies over zeros or beyond the end. -/
structure TargetHolds (old : List Byte) (start : Nat) (blocks : List (List Byte)) : Prop where
  full : cfg.sync = true → ∀ b ∈ blocks, effectiveBlockSize cfg ≤ b.length
  overZeros : ∀ i, (allCells (pieces cfg blocks))[i]? = some none → old.getD (start + i) 0 = 0

/-- The bytes that are hashed. -/
def hashed (blocks : List (List Byte)) : List Byte := (blocks.map (swabbed cfg)).flatten

variable {cfg}

theorem map_cells_piece (block : List Byte) :
    (piece cfg block).cells.map (·.getD 0) = block := by
  rw [cells_piece]
  split
  · rename_i hhole
    have hzero : ∀ b ∈ block, b = 0 := by
      simp only [isHole, Bool.and_eq_true, List.all_eq_true, beq_iff_eq] at hhole
      exact hhole.2.2
    rw [List.map_replicate]
    exact (List.eq_replicate_of_mem hzero).symm
  · simp

/-- What is emitted is what the pieces show where there are no gaps. -/
theorem map_allCells_pieces (blocks : List (List Byte)) :
    (allCells (pieces cfg blocks)).map (·.getD 0) = emitted cfg blocks := by
  induction blocks with
  | nil => rfl
  | cons b bs ih =>
    simp only [pieces, emitted, allCells, List.map_cons, List.flatMap_cons, List.map_append,
      map_cells_piece] at ih ⊢
    rw [ih]

theorem length_outBlock (b : List Byte) : (outBlock cfg b).length =
    if cfg.sync = true ∧ b.length < effectiveBlockSize cfg then effectiveBlockSize cfg
    else b.length := by
  rw [outBlock]
  by_cases h : cfg.sync = true ∧ b.length < effectiveBlockSize cfg
  · rw [if_pos (by simpa using h), if_pos h, List.length_append, length_swabbed,
      List.length_replicate]
    omega
  · rw [if_neg (by simpa using h), if_neg h, length_swabbed]

theorem outBlock_of_full {b : List Byte} (h : cfg.sync = true → effectiveBlockSize cfg ≤ b.length) :
    outBlock cfg b = swabbed cfg b := by
  rw [outBlock, if_neg]
  intro hs
  simp only [Bool.and_eq_true, decide_eq_true_eq] at hs
  exact absurd (h hs.1) (Nat.not_le_of_lt hs.2)

theorem hashed_cons (b : List Byte) (bs : List (List Byte)) :
    hashed cfg (b :: bs) = swabbed cfg b ++ hashed cfg bs := rfl

theorem emitted_cons (b : List Byte) (bs : List (List Byte)) :
    emitted cfg (b :: bs) = outBlock cfg b ++ emitted cfg bs := List.flatMap_cons

/-- Padding makes more bytes than are hashed. -/
theorem length_hashed (blocks : List (List Byte)) :
    (hashed cfg blocks).length ≤ (emitted cfg blocks).length ∧
      ((hashed cfg blocks).length = (emitted cfg blocks).length →
        cfg.sync = true → ∀ b ∈ blocks, effectiveBlockSize cfg ≤ b.length) := by
  induction blocks with
  | nil => exact ⟨Nat.le_refl _, fun _ _ _ => nofun⟩
  | cons b bs ih =>
    rw [hashed_cons, emitted_cons, List.length_append, List.length_append, length_swabbed,
      length_outBlock]
    refine ⟨by split <;> omega, fun heq hs => ?_⟩
    by_cases hshort : b.length < effectiveBlockSize cfg
    · rw [if_pos ⟨hs, hshort⟩] at heq
      omega
    · rw [if_neg (fun h => hshort h.2)] at heq
      refine List.forall_mem_cons.mpr ⟨Nat.le_of_not_lt hshort, ?_⟩
      exact ih.2 (by omega) hs

theorem emitted_of_full {blocks : List (List Byte)}
    (h : cfg.sync = true → ∀ b ∈ blocks, effectiveBlockSize cfg ≤ b.length) :
    emitted cfg blocks = hashed cfg blocks := by
  induction blocks with
  | nil => rfl
  | cons b bs ih =>
    rw [emitted_cons, hashed_cons, ih fun hs c hc => h hs c (List.mem_cons_of_mem b hc),
      outBlock_of_full fun hs => h hs b List.mem_cons_self]

/-- The bytes read back from where the copy started. -/
def readBack (new : List Byte) (start W : Nat) : List Byte := (new.drop start).take W

/-- Reading back gives the bytes hashed exactly under the condition. -/
theorem readBack_eq_hashed_iff (cfg : Config) (old : List Byte) (start : Nat)
    {blocks : List (List Byte)} (hne : ∀ b ∈ blocks, b ≠ []) :
    readBack (sealed 0 old start (pieces cfg blocks)) start (emitted cfg blocks).length =
      hashed cfg blocks ↔ TargetHolds cfg old start blocks := by
  have hunder : ∀ i, (old.drop start).getD i 0 = old.getD (start + i) 0 := by
    intro i
    rw [List.getD_eq_getElem?_getD, List.getElem?_drop, List.getD_eq_getElem?_getD]
  rw [readBack, ← length_allCells_pieces, readBack_sealed _ _ (pieces_proper hne)]
  constructor
  · intro h
    have hlen : (hashed cfg blocks).length = (emitted cfg blocks).length := by
      rw [← h, length_seeThrough, length_allCells_pieces]
    have hfull := (length_hashed blocks).2 hlen
    refine ⟨hfull, fun i hi => ?_⟩
    rw [← emitted_of_full hfull, ← map_allCells_pieces, seeThrough_eq_iff] at h
    rw [← hunder]
    exact h i hi
  · intro h
    rw [← emitted_of_full h.full, ← map_allCells_pieces, seeThrough_eq_iff]
    intro i hi
    rw [hunder]
    exact h.overZeros i hi

end Target

/-- A copy by the synchronous loop or the asynchronous pipeline that has returned `Ok`, with the
output and the hasher it leaves. -/
inductive Finished (I : Input Byte ρ) (O : Output Byte ω) (env : HashEnv η₂ η₃) (cfg : Config)
    (input : ρ) (file : ω) : OutState Byte ω → InFlightHasher η₂ η₃ → Prop where
  | sync {cancel : Nat → Bool} {fuel : Nat} {stats : Stats} {y : LoopState Byte ρ ω η₂ η₃} :
      transferLoop I O env cfg cancel fuel (.start env cfg input file stats) = some (.ok (), y) →
      Finished I O env cfg input file y.out y.hasher
  | async {stats : Stats} {s : AsyncState Byte ρ ω η₂ η₃} :
      (asyncSystem I O env cfg input file stats).Reachable s → s.main = .returned (.ok ()) →
      Finished I O env cfg input file s.out s.hasher

variable {view : ω → List Byte × Nat} {input : ρ} {file : ω} {out : OutState Byte ω}
  {hasher : InFlightHasher η₂ η₃}

theorem Finished.delivered (h : Finished I O env cfg input file out hasher) :
    ∃ blocks rest input' out', ReadFrom I input (blocks ++ rest) input' ∧
      Delivered O env cfg file blocks out' hasher ∧ out = finishOut O cfg out' := by
  cases h with
  | sync h =>
    obtain ⟨blocks, rest, input', out', hread, hdel, hout⟩ := transferLoop_delivered h
    exact ⟨blocks, rest, input', out', hread, hdel, hout⟩
  | async h hr =>
    obtain ⟨blocks, rest, out', hread, hdel, hout⟩ := asyncSystem_delivered h hr
    exact ⟨blocks, rest, _, out', hread, hdel, hout⟩

/-- The digest reported is that of what is on the target exactly under the condition, or else two
different byte strings have one digest. -/
theorem digest_on_target_iff (law : RegularFile O cfg.direct view) (hsha : Streaming env.sha2)
    (hblake : Streaming env.blake3) (h : Finished I O env cfg input file out hasher) :
    ∃ blocks rest input' out', ReadFrom I input (blocks ++ rest) input' ∧
      Delivered O env cfg file blocks out' hasher ∧ out = finishOut O cfg out' ∧
      let target := readBack (view out.file).1 (view file).2 (emitted cfg blocks).length
      (hasher.finalizeString env = chosenHash env cfg.hashAlgo target ↔
        TargetHolds cfg (view file).1 (view file).2 blocks ∨
          Collides env cfg.hashAlgo (hashed cfg blocks) target) := by
  obtain ⟨blocks, rest, input', out', hread, hdel, hout⟩ := h.delivered
  refine ⟨blocks, rest, input', out', hread, hdel, hout, ?_⟩
  have hdigest : hasher.finalizeString env = chosenHash env cfg.hashAlgo (hashed cfg blocks) := by
    rw [hdel.hashed, finalizeString_hashAll hsha hblake]
    rfl
  have hne : ∀ b ∈ blocks, b ≠ [] := fun b hb => hread.ne_nil b (List.mem_append_left _ hb)
  have hcontent := view_finishOut law hne hdel.written
  rw [← hout] at hcontent
  have htarget := readBack_eq_hashed_iff cfg (view file).1 (view file).2 hne
  rw [← show (view out.file).1 = sealed 0 _ _ _ from hcontent] at htarget
  simp only
  rw [hdigest, ← htarget]
  constructor
  · intro heq
    by_cases hsame : readBack (view out.file).1 (view file).2 (emitted cfg blocks).length =
        hashed cfg blocks
    · exact .inl hsame
    · exact .inr ⟨fun h => hsame h.symm, heq⟩
  · rintro (hsame | hcollide)
    · rw [hsame]
    · exact hcollide.2

section Example

/-- Blocks of two bytes, padded, hashed with BLKS. -/
def paddedBlks : Config :=
  { output := some "out", blockSize := 2, sync := true, hashAlgo := .blks }

/-- One and two `0` bytes have different digests. -/
theorem hashChunk_zeros_ne : encodeBase64 (hashChunk (List.replicate 1 0) true) ≠
    encodeBase64 (hashChunk (List.replicate 2 0) true) := by
  have heval : zerosE 1 true 1 1 0 initialCv (fun a => zerosE 2 true 1 1 0 initialCv fun b =>
      decide ((encodeBase64 (truncate a)).toList.head? ≠
        (encodeBase64 (truncate b)).toList.head?)) = true := by decide +kernel
  have hcv : ∀ len, chunkCv (List.replicate len 0) true 0 = initialCv := fun _ => rfl
  have hone : 1 = numBlocks (List.replicate 1 0) := rfl
  have htwo : 1 = numBlocks (List.replicate 2 0) := rfl
  rw [← hcv 1, zerosE_eq 1 true hone, hcv 1, ← hcv 2, zerosE_eq 2 true htwo,
    decide_eq_true_eq] at heval
  intro h
  exact heval (congrArg (·.toList.head?) h)

/-- The byte `0` through a loop of padded blocks. -/
theorem paddedBlks_run : ∃ y, transferLoop (streamInput fun _ => some 1) contentOutput noCrates
    paddedBlks (fun _ => false) 2
    (.start noCrates paddedBlks (⟨[(0 : Byte)], 0⟩ : Stream Byte) ([], 0) {}) =
      some (.ok (), y) ∧ y.out.file = ([0, 0], 2) ∧ y.hasher.finalizeString noCrates =
        some (encodeBase64 (hashChunk (List.replicate 1 0) true), "blks") :=
  ⟨_, rfl, rfl, rfl⟩

/-- One byte is read and hashed, two are written. -/
theorem paddedBlock_digest : ∃ out hasher,
    Finished (streamInput fun _ => some 1) contentOutput noCrates paddedBlks ⟨[0], 0⟩ ([], 0)
      out hasher ∧ out.file = ([0, 0], 2) ∧
    hasher.finalizeString noCrates ≠
      chosenHash noCrates paddedBlks.hashAlgo (readBack out.file.1 0 2) := by
  obtain ⟨y, hy, hfile, hdigest⟩ := paddedBlks_run
  refine ⟨_, _, .sync hy, hfile, ?_⟩
  rw [hdigest, hfile]
  intro h
  exact hashChunk_zeros_ne (Prod.mk.inj (Option.some.inj h)).1

theorem digest_on_target_paddedBlock :
    ∃ (out : OutState Byte (List Byte × Nat)) (hasher : InFlightHasher Unit Unit) (blocks : _),
      out.file = ([0, 0], 2) ∧
      let target := readBack out.file.1 0 (emitted paddedBlks blocks).length
      (hasher.finalizeString noCrates = chosenHash noCrates .blks target ↔
        TargetHolds paddedBlks [] 0 blocks ∨
          Collides noCrates .blks (hashed paddedBlks blocks) target) := by
  obtain ⟨y, hy, hfile, -⟩ := paddedBlks_run
  obtain ⟨blocks, -, -, -, -, -, -, hiff⟩ := digest_on_target_iff (contentOutput_regular _)
    (fun _ => rfl) (fun _ => rfl) (.sync hy)
  exact ⟨y.out, y.hasher, blocks, hfile, hiff⟩

end Example

end Blkcp.Rust
