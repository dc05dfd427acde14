import Mathlib.Data.List.Basic
import Mathlib.Tactic.IntervalCases
set_option autoImplicit false

/-! The compression function of blks-384 (`compress.rs`), its four-lane AVX2 engine
(`simd_avx2.rs`), and its evaluation on fixed inputs. -/

namespace Blkcp.Blks

abbrev Byte := BitVec 8
abbrev Word := BitVec 64

abbrev Digest := Vector Byte 48
abbrev Block := Vector Byte 128
abbrev Cv := Vector Word 8

abbrev blockBytes : Nat := 128

def flagChunkStart : Word := 1 <<< 0
def flagChunkEnd : Word := 1 <<< 1
def flagParent : Word := 1 <<< 2
def flagRoot : Word := 1 <<< 3

def iv : Cv := #v[
  0x6a09e667f3bcc908, 0xbb67ae8584caa73b, 0x3c6ef372fe94f82b, 0xa54ff53a5f1d36f1,
  0x510e527fade682d1, 0x9b05688c2b3e6c1f, 0x1f83d9abfb41bd6b, 0x5be0cd19137e2179]

/-- The bytes of `"BLKS_384"`. -/
def personalization : Vector Byte 8 := #v[0x42, 0x4c, 0x4b, 0x53, 0x5f, 0x33, 0x38, 0x34]

def fromLeBytes (b : Vector Byte 8) : Word :=
  b[7] ++ b[6] ++ b[5] ++ b[4] ++ b[3] ++ b[2] ++ b[1] ++ b[0]

def toLeByte (w : Word) (i : Nat) : Byte := w.extractLsb' (8 * i) 8

def initialCv : Cv :=
  let p0 : Word := 0x30 ||| (2 <<< 16) ||| (255 <<< 24)
  let cv := iv.set 0 (iv[0] ^^^ p0)
  cv.set 6 (cv[6] ^^^ fromLeBytes personalization)

def sigma : Vector (Vector (Fin 16) 16) 12 := #v[
  #v[0, 1, 2, 3, 4, 5, 6, 7, 8, 9, 10, 11, 12, 13, 14, 15],
  #v[14, 10, 4, 8, 9, 15, 13, 6, 1, 12, 0, 2, 11, 7, 5, 3],
  #v[11, 8, 12, 0, 5, 2, 15, 13, 10, 14, 3, 6, 7, 1, 9, 4],
  #v[7, 9, 3, 1, 13, 12, 11, 14, 2, 6, 5, 10, 4, 0, 15, 8],
  #v[9, 0, 5, 7, 2, 4, 10, 15, 14, 1, 11, 12, 6, 8, 3, 13],
  #v[2, 12, 6, 10, 0, 11, 8, 3, 4, 13, 7, 5, 15, 14, 1, 9],
  #v[12, 5, 1, 15, 14, 13, 4, 10, 0, 7, 6, 3, 9, 2, 8, 11],
  #v[13, 11, 7, 14, 12, 1, 3, 9, 5, 0, 15, 4, 8, 6, 2, 10],
  #v[6, 15, 14, 9, 11, 3, 0, 8, 12, 2, 13, 7, 1, 4, 10, 5],
  #v[10, 2, 8, 4, 7, 6, 1, 5, 15, 11, 9, 14, 3, 12, 13, 0],
  #v[0, 1, 2, 3, 4, 5, 6, 7, 8, 9, 10, 11, 12, 13, 14, 15],
  #v[14, 10, 4, 8, 9, 15, 13, 6, 1, 12, 0, 2, 11, 7, 5, 3]]

def g (v : Vector Word 16) (a b c d : Fin 16) (x y : Word) : Vector Word 16 :=
  let v := v.set a (v[a] + v[b] + x)
  let v := v.set d ((v[d] ^^^ v[a]).rotateRight 32)
  let v := v.set c (v[c] + v[d])
  let v := v.set b ((v[b] ^^^ v[c]).rotateRight 24)
  let v := v.set a (v[a] + v[b] + y)
  let v := v.set d ((v[d] ^^^ v[a]).rotateRight 16)
  let v := v.set c (v[c] + v[d])
  v.set b ((v[b] ^^^ v[c]).rotateRight 63)

def round (m v : Vector Word 16) (r : Fin 12) : Vector Word 16 :=
  let s := sigma[r]
  let v := g v 0 4 8 12 m[s[0]] m[s[1]]
  let v := g v 1 5 9 13 m[s[2]] m[s[3]]
  let v := g v 2 6 10 14 m[s[4]] m[s[5]]
  let v := g v 3 7 11 15 m[s[6]] m[s[7]]
  let v := g v 0 5 10 15 m[s[8]] m[s[9]]
  let v := g v 1 6 11 12 m[s[10]] m[s[11]]
  let v := g v 2 7 8 13 m[s[12]] m[s[13]]
  g v 3 4 9 14 m[s[14]] m[s[15]]

def messageWords (block : Block) : Vector Word 16 :=
  Vector.ofFn fun i : Fin 16 => fromLeBytes (Vector.ofFn fun j : Fin 8 => block[8 * i.val + j.val])

/-- The working state before the rounds: chaining value, IV, counter and domain flags. -/
def initState (cv : Cv) (byteOffset flags : Word) : Vector Word 16 :=
  let v : Vector Word 16 := cv ++ iv
  let v := v.set 12 (v[12] ^^^ byteOffset)
  let v := v.set 13 (v[13] ^^^ 0)
  v.set 14 (v[14] ^^^ flags)

def compress (cv : Cv) (block : Block) (byteOffset flags : Word) : Cv :=
  let m := messageWords block
  let v := (List.finRange 12).foldl (round m) (initState cv byteOffset flags)
  Vector.ofFn fun i : Fin 8 => cv[i] ^^^ v[i.val] ^^^ v[i.val + 8]

/-- The first six words of a chaining value, little endian. -/
def truncate (cv : Cv) : Digest :=
  Vector.ofFn fun i : Fin 48 => toLeByte (cv[i.val / 8]) (i.val % 8)

theorem eq_of_toLeByte {a b : Word} (h : ∀ j < 8, toLeByte a j = toLeByte b j) : a = b := by
  apply BitVec.eq_of_getLsbD_eq
  intro i hi
  have hj := congrArg (fun w : Byte => w.getLsbD (i % 8)) (h (i / 8) (by omega))
  simp only [toLeByte, BitVec.getLsbD_extractLsb', Nat.div_add_mod,
    Nat.mod_lt i (show 0 < 8 by decide), decide_true, Bool.true_and] at hj
  exact hj

theorem truncate_eq_iff (a b : Cv) :
    truncate a = truncate b ↔ ∀ i (h : i < 6), a[i] = b[i] := by
  constructor
  · intro h i hi
    apply eq_of_toLeByte
    intro j hj
    have hb := congrArg (fun d : Digest => d[8 * i + j]) h
    simp only [truncate, Vector.getElem_ofFn] at hb
    have hd : (8 * i + j) / 8 = i := by omega
    have hm : (8 * i + j) % 8 = j := by omega
    simpa only [hd, hm] using hb
  · intro h
    apply Vector.ext
    intro i hi
    simp only [truncate, Vector.getElem_ofFn]
    rw [h (i / 8) (by omega)]

/-- The input of one call of `compress`. -/
structure Call where
  cv : Cv
  block : Block
  byteOffset : Word
  flags : Word
  deriving DecidableEq

def Call.run (c : Call) : Cv := compress c.cv c.block c.byteOffset c.flags

def parentCall (left right : Digest) (isRoot : Bool) : Call where
  cv := initialCv
  block := left ++ right ++ (Vector.replicate 32 0 : Vector Byte 32)
  byteOffset := 96
  flags := flagParent ||| if isRoot then flagRoot else 0

def compressParent (left right : Digest) (isRoot : Bool) : Digest :=
  truncate (parentCall left right isRoot).run

theorem parentCall_injective {l r l' r' : Digest} {b b' : Bool}
    (h : parentCall l r b = parentCall l' r' b') : l = l' ∧ r = r' := by
  have hb := congrArg (fun c : Call => c.block.toList) h
  simp only [parentCall, Vector.toList_append, List.append_assoc] at hb
  obtain ⟨hl, hb⟩ := List.append_inj hb (by simp)
  obtain ⟨hr, -⟩ := List.append_inj hb (by simp)
  exact ⟨Vector.toList_inj.mp hl, Vector.toList_inj.mp hr⟩

/-! ### The AVX2 engine

A register is its four 64-bit lanes; the intrinsics are the documented lane operations and in-half
byte shuffles. -/

abbrev M256 := Vector Word 4

def mm256Set1 (w : Word) : M256 := Vector.replicate 4 w
def mm256Set (e3 e2 e1 e0 : Word) : M256 := #v[e0, e1, e2, e3]
def mm256Add (x y : M256) : M256 := Vector.zipWith (· + ·) x y
def mm256Xor (x y : M256) : M256 := Vector.zipWith (· ^^^ ·) x y
def mm256Or (x y : M256) : M256 := Vector.zipWith (· ||| ·) x y
def mm256Slli (x : M256) (n : Nat) : M256 := x.map fun w : Word => w <<< n
def mm256Srli (x : M256) (n : Nat) : M256 := x.map fun w : Word => w >>> n

def M256.byte (x : M256) (j : Fin 32) : Byte := toLeByte x[j.val / 8] (j.val % 8)
def M256.dword (x : M256) (j : Fin 8) : BitVec 32 := x[j.val / 2].extractLsb' (32 * (j.val % 2)) 32

def M256.ofBytes (b : Fin 32 → Byte) : M256 :=
  Vector.ofFn fun i : Fin 4 => fromLeBytes (Vector.ofFn fun j : Fin 8 => b ⟨8 * i.val + j.val, by omega⟩)

def mm256SetrEpi8 (b : Vector Byte 32) : M256 := M256.ofBytes fun j => b[j]

/-- Each half of the register shuffles its own sixteen bytes by the low four bits of the mask; a
mask byte with its top bit set clears. -/
def mm256ShuffleEpi8 (x mask : M256) : M256 :=
  M256.ofBytes fun j =>
    if (mask.byte j).msb then 0
    else x.byte ⟨16 * (j.val / 16) + (mask.byte j).toNat % 16, by omega⟩

/-- Each half of the register selects its four dwords by the two-bit fields of `imm`. -/
def mm256ShuffleEpi32 (x : M256) (imm : BitVec 8) : M256 :=
  let sel (half k : Fin 4) : BitVec 32 :=
    x.dword ⟨4 * (half.val / 2) + (imm >>> (2 * k.val)).toNat % 4, by omega⟩
  Vector.ofFn fun i : Fin 4 =>
    sel i ⟨2 * (i.val % 2) + 1, by omega⟩ ++ sel i ⟨2 * (i.val % 2), by omega⟩

def rotr64_32 (x : M256) : M256 := mm256ShuffleEpi32 x 0xB1

def rotr64_24 (x : M256) : M256 :=
  mm256ShuffleEpi8 x (mm256SetrEpi8 #v[
    3, 4, 5, 6, 7, 0, 1, 2, 11, 12, 13, 14, 15, 8, 9, 10,
    3, 4, 5, 6, 7, 0, 1, 2, 11, 12, 13, 14, 15, 8, 9, 10])

def rotr64_16 (x : M256) : M256 :=
  mm256ShuffleEpi8 x (mm256SetrEpi8 #v[
    2, 3, 4, 5, 6, 7, 0, 1, 10, 11, 12, 13, 14, 15, 8, 9,
    2, 3, 4, 5, 6, 7, 0, 1, 10, 11, 12, 13, 14, 15, 8, 9])

def rotr64_63 (x : M256) : M256 := mm256Or (mm256Slli x 1) (mm256Srli x 63)

def gAvx2 (v : Vector M256 16) (a b c d : Fin 16) (x y : M256) : Vector M256 16 :=
  let v := v.set a (mm256Add (mm256Add v[a] v[b]) x)
  let v := v.set d (rotr64_32 (mm256Xor v[d] v[a]))
  let v := v.set c (mm256Add v[c] v[d])
  let v := v.set b (rotr64_24 (mm256Xor v[b] v[c]))
  let v := v.set a (mm256Add (mm256Add v[a] v[b]) y)
  let v := v.set d (rotr64_16 (mm256Xor v[d] v[a]))
  let v := v.set c (mm256Add v[c] v[d])
  v.set b (rotr64_63 (mm256Xor v[b] v[c]))

def roundAvx2 (m v : Vector M256 16) (r : Fin 12) : Vector M256 16 :=
  let s := sigma[r]
  let v := gAvx2 v 0 4 8 12 m[s[0]] m[s[1]]
  let v := gAvx2 v 1 5 9 13 m[s[2]] m[s[3]]
  let v := gAvx2 v 2 6 10 14 m[s[4]] m[s[5]]
  let v := gAvx2 v 3 7 11 15 m[s[6]] m[s[7]]
  let v := gAvx2 v 0 5 10 15 m[s[8]] m[s[9]]
  let v := gAvx2 v 1 6 11 12 m[s[10]] m[s[11]]
  let v := gAvx2 v 2 7 8 13 m[s[12]] m[s[13]]
  gAvx2 v 3 4 9 14 m[s[14]] m[s[15]]

/-- The word `c_words[idx]` of a chunk. -/
def chunkWord (c : List Byte) (idx : Nat) : Word :=
  fromLeBytes (Vector.ofFn fun j : Fin 8 => c.getD (8 * idx + j.val) 0)

def initStateAvx2 (cv : Vector M256 8) (endBytes flags : Word) : Vector M256 16 :=
  let v : Vector M256 16 := cv ++ iv.map mm256Set1
  let v := v.set 12 (mm256Xor v[12] (mm256Set1 endBytes))
  v.set 14 (mm256Xor v[14] (mm256Set1 flags))

/-- One of the 32 blocks of `hash_4_chunks_avx2`. -/
def avx2Block (c0 c1 c2 c3 : List Byte) (cv : Vector M256 8) (blkIdx : Nat) : Vector M256 8 :=
  let wordBase := blkIdx * 16
  let m : Vector M256 16 := Vector.ofFn fun w : Fin 16 =>
    mm256Set (chunkWord c3 (wordBase + w.val)) (chunkWord c2 (wordBase + w.val))
      (chunkWord c1 (wordBase + w.val)) (chunkWord c0 (wordBase + w.val))
  let flags : Word := (if blkIdx = 0 then flagChunkStart else 0) |||
    (if blkIdx = 31 then flagChunkEnd else 0)
  let endBytes := (blkIdx + 1) * blockBytes
  let v := (List.finRange 12).foldl (roundAvx2 m)
    (initStateAvx2 cv (BitVec.ofNat 64 endBytes) flags)
  Vector.ofFn fun i : Fin 8 => mm256Xor cv[i] (mm256Xor v[i.val] v[i.val + 8])

/-- The lane of every register of a register file. -/
def lane {n : Nat} (l : Fin 4) (v : Vector M256 n) : Vector Word n := v.map fun x => x[l]

/-- `c0` to `c3` are 4096-byte slices. -/
def hash4ChunksAvx2 (c0 c1 c2 c3 : List Byte) : Vector Digest 4 :=
  let cv := (List.range 32).foldl (avx2Block c0 c1 c2 c3) (initialCv.map mm256Set1)
  Vector.ofFn fun l : Fin 4 => truncate (lane l cv)

theorem toLeByte_fromLeBytes (b : Vector Byte 8) (j : Nat) (hj : j < 8) :
    toLeByte (fromLeBytes b) j = b[j] := by
  apply BitVec.eq_of_getLsbD_eq
  intro i hi
  have hj' : j = 0 ∨ j = 1 ∨ j = 2 ∨ j = 3 ∨ j = 4 ∨ j = 5 ∨ j = 6 ∨ j = 7 := by omega
  simp only [toLeByte, fromLeBytes, BitVec.getLsbD_extractLsb', hi, decide_true, Bool.true_and,
    BitVec.getLsbD_append]
  rcases hj' with rfl | rfl | rfl | rfl | rfl | rfl | rfl | rfl <;>
    simp (disch := omega) only [if_pos, if_neg] <;> congr 1 <;> omega

theorem toLeByte_rotateRight (w : Word) (k j : Nat) (hk : k < 8) (hj : j < 8) :
    toLeByte (w.rotateRight (8 * k)) j = toLeByte w ((j + k) % 8) := by
  apply BitVec.eq_of_getLsbD_eq
  intro i hi
  simp only [toLeByte, BitVec.getLsbD_extractLsb', hi, decide_true, Bool.true_and,
    BitVec.getLsbD_rotateRight, Nat.mod_eq_of_lt (show 8 * k < 64 by omega), cond_eq_ite,
    decide_eq_true_eq]
  split
  · congr 1; omega
  · rw [decide_eq_true (show 8 * j + i < 64 by omega), Bool.true_and]
    congr 1; omega

theorem M256.byte_ofBytes (b : Fin 32 → Byte) (j : Fin 32) : (M256.ofBytes b).byte j = b j := by
  simp only [M256.byte, M256.ofBytes, Vector.getElem_ofFn]
  rw [toLeByte_fromLeBytes _ _ (by omega), Vector.getElem_ofFn]
  congr 1
  exact Fin.ext (by simp; omega)

theorem M256.byte_setrEpi8 (b : Vector Byte 32) (j : Fin 32) : (mm256SetrEpi8 b).byte j = b[j] :=
  M256.byte_ofBytes (fun j => b[j]) j

/-- A byte shuffle whose mask rotates each eight-byte group by `k` rotates each lane. -/
theorem shuffleEpi8_rotates (x : M256) (mask : Vector Byte 32) (k : Nat) (hk : k < 8)
    (hmask : ∀ j : Fin 32, (mask[j]).msb = false ∧
      (mask[j]).toNat % 16 = 8 * (j.val / 8 % 2) + (j.val + k) % 8)
    (i : Nat) (hi : i < 4) :
    (mm256ShuffleEpi8 x (mm256SetrEpi8 mask))[i] = (x[i]).rotateRight (8 * k) := by
  apply eq_of_toLeByte
  intro j hj
  rw [toLeByte_rotateRight _ _ _ hk hj]
  obtain ⟨hm, hn⟩ := hmask ⟨8 * i + j, by omega⟩
  have hb : (mm256ShuffleEpi8 x (mm256SetrEpi8 mask)).byte ⟨8 * i + j, by omega⟩ =
      x.byte ⟨8 * i + (j + k) % 8, by omega⟩ := by
    rw [mm256ShuffleEpi8, M256.byte_ofBytes]
    simp only [M256.byte_setrEpi8, hm, hn, Bool.false_eq_true, if_false]
    congr 2
    omega
  simp only [M256.byte] at hb
  have hd : ∀ j < 8, (8 * i + j) / 8 = i := by omega
  have hr : ∀ j < 8, (8 * i + j) % 8 = j := by omega
  simpa only [hd j hj, hr j hj, hd _ (Nat.mod_lt _ (by decide : 0 < 8)),
    hr _ (Nat.mod_lt _ (by decide : 0 < 8))] using hb

@[simp] theorem rotr64_24_lane (x : M256) (i : Nat) (hi : i < 4) :
    (rotr64_24 x)[i] = (x[i]).rotateRight 24 :=
  shuffleEpi8_rotates x _ 3 (by decide) (by decide) i hi

@[simp] theorem rotr64_16_lane (x : M256) (i : Nat) (hi : i < 4) :
    (rotr64_16 x)[i] = (x[i]).rotateRight 16 :=
  shuffleEpi8_rotates x _ 2 (by decide) (by decide) i hi

theorem rotateRight_32 (w : Word) :
    w.extractLsb' 0 32 ++ w.extractLsb' 32 32 = w.rotateRight 32 := by
  apply BitVec.eq_of_getLsbD_eq
  intro i hi
  simp only [BitVec.getLsbD_append, BitVec.getLsbD_extractLsb', BitVec.getLsbD_rotateRight]
  grind

@[simp] theorem rotr64_32_lane (x : M256) (i : Nat) (hi : i < 4) :
    (rotr64_32 x)[i] = (x[i]).rotateRight 32 := by
  rw [← rotateRight_32]
  have hi' : i = 0 ∨ i = 1 ∨ i = 2 ∨ i = 3 := by omega
  rcases hi' with rfl | rfl | rfl | rfl <;> rfl

@[simp] theorem rotr64_63_lane (x : M256) (i : Nat) (hi : i < 4) :
    (rotr64_63 x)[i] = (x[i]).rotateRight 63 := by
  simp [rotr64_63, mm256Or, mm256Slli, mm256Srli, BitVec.rotateRight_def, BitVec.or_comm]

@[simp] theorem mm256Add_lane (x y : M256) (i : Nat) (hi : i < 4) :
    (mm256Add x y)[i] = x[i] + y[i] := by
  simp [mm256Add]

@[simp] theorem mm256Xor_lane (x y : M256) (i : Nat) (hi : i < 4) :
    (mm256Xor x y)[i] = x[i] ^^^ y[i] := by
  simp [mm256Xor]

@[simp] theorem mm256Set1_lane (w : Word) (i : Nat) (hi : i < 4) : (mm256Set1 w)[i] = w := by
  simp [mm256Set1]

theorem lane_set {n : Nat} (l : Fin 4) (v : Vector M256 n) (i : Nat) (x : M256) (hi : i < n) :
    lane l (v.set i x hi) = (lane l v).set i x[l] hi := Vector.map_set

theorem lane_getElem {n : Nat} (l : Fin 4) (v : Vector M256 n) (i : Nat) (hi : i < n) :
    (v[i])[l.val] = (lane l v)[i] := by simp [lane]

theorem lane_append {n m : Nat} (l : Fin 4) (v : Vector M256 n) (w : Vector M256 m) :
    lane l (v ++ w) = lane l v ++ lane l w := Vector.map_append

theorem lane_set1 {n : Nat} (l : Fin 4) (v : Vector Word n) : lane l (v.map mm256Set1) = v := by
  apply Vector.ext
  intro i hi
  simp [lane]

theorem lane_initState (l : Fin 4) (cv : Vector M256 8) (endBytes flags : Word) :
    lane l (initStateAvx2 cv endBytes flags) = initState (lane l cv) endBytes flags := by
  have hv : lane l ((cv ++ iv.map mm256Set1 : Vector M256 (8 + 8))) = lane l cv ++ iv := by
    rw [lane_append, lane_set1]
  have h0 : ∀ w : Word, w ^^^ 0 = w := fun w => BitVec.xor_zero
  simp only [initStateAvx2, initState, h0, Vector.set_getElem_self]
  generalize cv ++ iv.map mm256Set1 = v at hv ⊢
  rw [← hv]
  simp only [lane_set, mm256Xor_lane, mm256Set1_lane, lane_getElem, Fin.getElem_fin]

theorem lane_feedForward (l : Fin 4) (cv : Vector M256 8) (v : Vector M256 16) :
    lane l (Vector.ofFn fun i : Fin 8 => mm256Xor cv[i] (mm256Xor v[i.val] v[i.val + 8])) =
      Vector.ofFn fun i : Fin 8 => (lane l cv)[i] ^^^ (lane l v)[i.val] ^^^ (lane l v)[i.val + 8] := by
  apply Vector.ext
  intro k hk
  simp [lane, BitVec.xor_assoc]

theorem lane_gAvx2 (l : Fin 4) (v : Vector M256 16) (a b c d : Fin 16) (x y : M256) :
    lane l (gAvx2 v a b c d x y) = g (lane l v) a b c d x[l] y[l] := by
  simp only [gAvx2, g, Fin.getElem_fin, lane_set, mm256Add_lane, mm256Xor_lane, rotr64_16_lane,
    rotr64_24_lane, rotr64_32_lane, rotr64_63_lane, lane_getElem]

theorem lane_roundAvx2 (l : Fin 4) (m v : Vector M256 16) (r : Fin 12) :
    lane l (roundAvx2 m v r) = round (lane l m) (lane l v) r := by
  simp only [roundAvx2, round, lane_gAvx2]
  simp [lane]

theorem lane_rounds (l : Fin 4) (m v : Vector M256 16) (rs : List (Fin 12)) :
    lane l (rs.foldl (roundAvx2 m) v) = rs.foldl (round (lane l m)) (lane l v) := by
  induction rs generalizing v with
  | nil => rfl
  | cons r rs ih => rw [List.foldl_cons, List.foldl_cons, ih, lane_roundAvx2]

/-! ### Evaluation

The same function with every word computed before it is used, so that digests of fixed inputs can be
decided. -/

variable {β : Type}

section Force

/-- `k n`, with `n` computed first. -/
def force : Nat → (Nat → β) → β
  | 0, k => k 0
  | n + 1, k => k (n + 1)

theorem force_eq (n : Nat) (k : Nat → β) : force n k = k n := by
  cases n <;> rfl

def forceWord (w : Word) (k : Word → β) : β := force w.toNat fun n => k (BitVec.ofNat 64 n)

theorem forceWord_eq (w : Word) (k : Word → β) : forceWord w k = k w := by
  rw [forceWord, force_eq, BitVec.ofNat_toNat, BitVec.setWidth_eq]

end Force

section Mix

/-- Half of `g` on the four words it works on. -/
def halfMix (a b c d x : Word) (r s : Nat) : Word × Word × Word × Word :=
  let a := a + b + x
  let d := (d ^^^ a).rotateRight r
  let c := c + d
  (a, (b ^^^ c).rotateRight s, c, d)

def mix (a b c d x y : Word) : Word × Word × Word × Word :=
  let q := halfMix a b c d x 32 24
  halfMix q.1 q.2.1 q.2.2.1 q.2.2.2 y 16 63

def halfMixE (a b c d x : Word) (r s : Nat) (k : Word → Word → Word → Word → β) : β :=
  forceWord (a + b + x) fun a =>
    forceWord ((d ^^^ a).rotateRight r) fun d =>
      forceWord (c + d) fun c =>
        forceWord ((b ^^^ c).rotateRight s) fun b => k a b c d

def mixE (a b c d x y : Word) (k : Word → Word → Word → Word → β) : β :=
  halfMixE a b c d x 32 24 fun a b c d => halfMixE a b c d y 16 63 k

theorem mixE_eq (a b c d x y : Word) (k : Word → Word → Word → Word → β) :
    mixE a b c d x y k = k (mix a b c d x y).1 (mix a b c d x y).2.1 (mix a b c d x y).2.2.1
      (mix a b c d x y).2.2.2 := by
  simp only [mixE, halfMixE, forceWord_eq, mix, halfMix]

/-- Four words put back where `g` takes them from. -/
def put (v : Vector Word 16) (a b c d : Fin 16) (q : Word × Word × Word × Word) :
    Vector Word 16 :=
  (((v.set a q.1).set b q.2.1).set c q.2.2.1).set d q.2.2.2

theorem getElem_put (v : Vector Word 16) (a b c d : Fin 16) (q : Word × Word × Word × Word)
    (i : Nat) (hi : i < 16) :
    (put v a b c d q)[i] = if d.val = i then q.2.2.2 else if c.val = i then q.2.2.1 else
      if b.val = i then q.2.1 else if a.val = i then q.1 else v[i] := by
  simp only [put, Vector.getElem_set]

/-- Half of `g`. -/
def halfG (v : Vector Word 16) (a b c d : Fin 16) (x : Word) (r s : Nat) : Vector Word 16 :=
  let v := v.set a (v[a] + v[b] + x)
  let v := v.set d ((v[d] ^^^ v[a]).rotateRight r)
  let v := v.set c (v[c] + v[d])
  v.set b ((v[b] ^^^ v[c]).rotateRight s)

theorem g_eq_halves (v : Vector Word 16) (a b c d : Fin 16) (x y : Word) :
    g v a b c d x y = halfG (halfG v a b c d x 32 24) a b c d y 16 63 := rfl

/-- Four different places. -/
structure Apart (a b c d : Fin 16) : Prop where
  ab : a.val ≠ b.val
  ac : a.val ≠ c.val
  ad : a.val ≠ d.val
  bc : b.val ≠ c.val
  bd : b.val ≠ d.val
  cd : c.val ≠ d.val

variable {a b c d : Fin 16}

theorem halfG_eq (h : Apart a b c d) (v : Vector Word 16) (x : Word) (r s : Nat) :
    halfG v a b c d x r s = put v a b c d (halfMix v[a] v[b] v[c] v[d] x r s) := by
  obtain ⟨hab, hac, had, hbc, hbd, hcd⟩ := h
  refine Vector.ext fun i hi => ?_
  rw [getElem_put]
  simp only [halfG, halfMix, Vector.getElem_set, Fin.getElem_fin, hab, hac, had, hbc.symm, hbd.symm,
    hcd.symm, if_true, if_false]
  by_cases hb : b.val = i
  · subst hb
    simp [hbc.symm, hbd.symm]
  · by_cases hc : c.val = i
    · subst hc
      simp [hb, hcd.symm]
    · by_cases hd : d.val = i <;> simp [hb, hc, hd]

theorem g_eq (h : Apart a b c d) {v : Vector Word 16} {wa wb wc wd : Word} (x y : Word)
    (ha : v[a] = wa) (hb : v[b] = wb) (hc : v[c] = wc) (hd : v[d] = wd) :
    g v a b c d x y = put v a b c d (mix wa wb wc wd x y) := by
  rw [g_eq_halves, halfG_eq h, halfG_eq h, ha, hb, hc, hd]
  obtain ⟨hab, hac, had, hbc, hbd, hcd⟩ := h
  simp only [mix]
  generalize halfMix wa wb wc wd x 32 24 = q
  have ha' : (put v a b c d q)[a] = q.1 := by
    simp [getElem_put, hab.symm, hac.symm, had.symm]
  have hb' : (put v a b c d q)[b] = q.2.1 := by
    simp [getElem_put, hbc.symm, hbd.symm]
  have hc' : (put v a b c d q)[c] = q.2.2.1 := by
    simp [getElem_put, hcd.symm]
  have hd' : (put v a b c d q)[d] = q.2.2.2 := by
    simp [getElem_put]
  rw [ha', hb', hc', hd']
  refine Vector.ext fun i hi => ?_
  simp only [getElem_put]
  split_ifs <;> rfl

/-! `g` on sixteen words, at each of the places where a round calls it. -/

variable (a0 a1 a2 a3 a4 a5 a6 a7 a8 a9 a10 a11 a12 a13 a14 a15 x y : Word)

theorem g_0_4_8_12 :
    g #v[a0, a1, a2, a3, a4, a5, a6, a7, a8, a9, a10, a11, a12, a13, a14, a15] 0 4 8 12 x y =
      let q := mix a0 a4 a8 a12 x y
      #v[q.1, a1, a2, a3, q.2.1, a5, a6, a7, q.2.2.1, a9, a10, a11, q.2.2.2, a13, a14, a15] :=
  g_eq (by constructor <;> decide) x y rfl rfl rfl rfl

theorem g_1_5_9_13 :
    g #v[a0, a1, a2, a3, a4, a5, a6, a7, a8, a9, a10, a11, a12, a13, a14, a15] 1 5 9 13 x y =
      let q := mix a1 a5 a9 a13 x y
      #v[a0, q.1, a2, a3, a4, q.2.1, a6, a7, a8, q.2.2.1, a10, a11, a12, q.2.2.2, a14, a15] :=
  g_eq (by constructor <;> decide) x y rfl rfl rfl rfl

theorem g_2_6_10_14 :
    g #v[a0, a1, a2, a3, a4, a5, a6, a7, a8, a9, a10, a11, a12, a13, a14, a15] 2 6 10 14 x y =
      let q := mix a2 a6 a10 a14 x y
      #v[a0, a1, q.1, a3, a4, a5, q.2.1, a7, a8, a9, q.2.2.1, a11, a12, a13, q.2.2.2, a15] :=
  g_eq (by constructor <;> decide) x y rfl rfl rfl rfl

theorem g_3_7_11_15 :
    g #v[a0, a1, a2, a3, a4, a5, a6, a7, a8, a9, a10, a11, a12, a13, a14, a15] 3 7 11 15 x y =
      let q := mix a3 a7 a11 a15 x y
      #v[a0, a1, a2, q.1, a4, a5, a6, q.2.1, a8, a9, a10, q.2.2.1, a12, a13, a14, q.2.2.2] :=
  g_eq (by constructor <;> decide) x y rfl rfl rfl rfl

theorem g_0_5_10_15 :
    g #v[a0, a1, a2, a3, a4, a5, a6, a7, a8, a9, a10, a11, a12, a13, a14, a15] 0 5 10 15 x y =
      let q := mix a0 a5 a10 a15 x y
      #v[q.1, a1, a2, a3, a4, q.2.1, a6, a7, a8, a9, q.2.2.1, a11, a12, a13, a14, q.2.2.2] :=
  g_eq (by constructor <;> decide) x y rfl rfl rfl rfl

theorem g_1_6_11_12 :
    g #v[a0, a1, a2, a3, a4, a5, a6, a7, a8, a9, a10, a11, a12, a13, a14, a15] 1 6 11 12 x y =
      let q := mix a1 a6 a11 a12 x y
      #v[a0, q.1, a2, a3, a4, a5, q.2.1, a7, a8, a9, a10, q.2.2.1, q.2.2.2, a13, a14, a15] :=
  g_eq (by constructor <;> decide) x y rfl rfl rfl rfl

theorem g_2_7_8_13 :
    g #v[a0, a1, a2, a3, a4, a5, a6, a7, a8, a9, a10, a11, a12, a13, a14, a15] 2 7 8 13 x y =
      let q := mix a2 a7 a8 a13 x y
      #v[a0, a1, q.1, a3, a4, a5, a6, q.2.1, q.2.2.1, a9, a10, a11, a12, q.2.2.2, a14, a15] :=
  g_eq (by constructor <;> decide) x y rfl rfl rfl rfl

theorem g_3_4_9_14 :
    g #v[a0, a1, a2, a3, a4, a5, a6, a7, a8, a9, a10, a11, a12, a13, a14, a15] 3 4 9 14 x y =
      let q := mix a3 a4 a9 a14 x y
      #v[a0, a1, a2, q.1, q.2.1, a5, a6, a7, a8, q.2.2.1, a10, a11, a12, a13, q.2.2.2, a15] :=
  g_eq (by constructor <;> decide) x y rfl rfl rfl rfl

end Mix

section Rounds

/-- A round on a state of evaluated words. -/
def roundE (m v : Vector Word 16) (r : Fin 12) (k : Vector Word 16 → β) : β :=
  let s := sigma[r]
  mixE v[0] v[4] v[8] v[12] m[s[0]] m[s[1]] fun v0 v4 v8 v12 =>
    mixE v[1] v[5] v[9] v[13] m[s[2]] m[s[3]] fun v1 v5 v9 v13 =>
      mixE v[2] v[6] v[10] v[14] m[s[4]] m[s[5]] fun v2 v6 v10 v14 =>
        mixE v[3] v[7] v[11] v[15] m[s[6]] m[s[7]] fun v3 v7 v11 v15 =>
          mixE v0 v5 v10 v15 m[s[8]] m[s[9]] fun v0 v5 v10 v15 =>
            mixE v1 v6 v11 v12 m[s[10]] m[s[11]] fun v1 v6 v11 v12 =>
              mixE v2 v7 v8 v13 m[s[12]] m[s[13]] fun v2 v7 v8 v13 =>
                mixE v3 v4 v9 v14 m[s[14]] m[s[15]] fun v3 v4 v9 v14 =>
                  k #v[v0, v1, v2, v3, v4, v5, v6, v7, v8, v9, v10, v11, v12, v13, v14, v15]

theorem vector_words (v : Vector Word 16) :
    v = #v[v[0], v[1], v[2], v[3], v[4], v[5], v[6], v[7], v[8], v[9], v[10], v[11], v[12], v[13],
      v[14], v[15]] := by
  refine Vector.ext fun i hi => ?_
  interval_cases i <;> rfl

theorem roundE_eq (m v : Vector Word 16) (r : Fin 12) (k : Vector Word 16 → β) :
    roundE m v r k = k (round m v r) := by
  simp only [roundE, mixE_eq]
  refine congrArg k ?_
  rw [congrArg (round m · r) (vector_words v)]
  simp only [round, g_0_4_8_12, g_1_5_9_13, g_2_6_10_14, g_3_7_11_15, g_0_5_10_15, g_1_6_11_12,
    g_2_7_8_13, g_3_4_9_14]

def roundsE (m : Vector Word 16) : List (Fin 12) → Vector Word 16 → (Vector Word 16 → β) → β
  | [], v, k => k v
  | r :: rs, v, k => roundE m v r fun v => roundsE m rs v k

theorem roundsE_eq (m : Vector Word 16) (rs : List (Fin 12)) (v : Vector Word 16)
    (k : Vector Word 16 → β) : roundsE m rs v k = k (rs.foldl (round m) v) := by
  induction rs generalizing v with
  | nil => rfl
  | cons r rs ih => rw [roundsE, roundE_eq, ih, List.foldl_cons]

def forceCv (cv : Cv) (k : Cv → β) : β :=
  forceWord cv[0] fun w0 => forceWord cv[1] fun w1 => forceWord cv[2] fun w2 =>
    forceWord cv[3] fun w3 => forceWord cv[4] fun w4 => forceWord cv[5] fun w5 =>
      forceWord cv[6] fun w6 => forceWord cv[7] fun w7 => k #v[w0, w1, w2, w3, w4, w5, w6, w7]

theorem forceCv_eq (cv : Cv) (k : Cv → β) : forceCv cv k = k cv := by
  simp only [forceCv, forceWord_eq]
  refine congrArg k (Vector.ext fun i hi => ?_)
  interval_cases i <;> rfl

/-- `compress` on the words of a block. -/
def compressE (cv : Cv) (m : Vector Word 16) (byteOffset flags : Word) (k : Cv → β) : β :=
  roundsE m (List.finRange 12)
    #v[cv[0], cv[1], cv[2], cv[3], cv[4], cv[5], cv[6], cv[7], iv[0], iv[1], iv[2], iv[3],
      iv[4] ^^^ byteOffset, iv[5], iv[6] ^^^ flags, iv[7]] fun v =>
    forceCv (Vector.ofFn fun i : Fin 8 => cv[i] ^^^ v[i.val] ^^^ v[i.val + 8]) k

theorem compressE_eq {cv : Cv} {block : Block} {m : Vector Word 16} (h : messageWords block = m)
    (byteOffset flags : Word) (k : Cv → β) :
    compressE cv m byteOffset flags k = k (compress cv block byteOffset flags) := by
  have hinit : initState cv byteOffset flags =
      #v[cv[0], cv[1], cv[2], cv[3], cv[4], cv[5], cv[6], cv[7], iv[0], iv[1], iv[2], iv[3],
        iv[4] ^^^ byteOffset, iv[5], iv[6] ^^^ flags, iv[7]] := by
    refine Vector.ext fun i hi => ?_
    have happend : ∀ (i : Nat) (hi : i < 8 + 8), (cv ++ iv)[i] =
        if h : i < 8 then cv[i] else iv[i - 8] := fun i hi => Vector.getElem_append hi
    simp only [initState, Vector.getElem_set]
    interval_cases i <;> simp [happend]
  rw [compressE, roundsE_eq, forceCv_eq, compress, h, hinit]

end Rounds

section Parents

theorem fromLeBytes_toLeByte (w : Word) :
    fromLeBytes (Vector.ofFn fun j : Fin 8 => toLeByte w j) = w := by
  refine eq_of_toLeByte (fun j hj => ?_)
  rw [toLeByte_fromLeBytes _ _ hj, Vector.getElem_ofFn]

theorem getElem_messageWords {block : Block} {w : Word} {i : Nat} (hi : i < 16)
    (h : ∀ j (hj : j < 8), block[8 * i + j] = toLeByte w j) : (messageWords block)[i] = w := by
  rw [messageWords, Vector.getElem_ofFn, ← fromLeBytes_toLeByte w]
  refine congrArg fromLeBytes (Vector.ext fun j hj => ?_)
  simp only [Vector.getElem_ofFn]
  exact h j hj

theorem getElem_truncate (cv : Cv) {i j : Nat} (hi : i < 6) (hj : j < 8) :
    (truncate cv)[8 * i + j] = toLeByte cv[i] j := by
  simp only [truncate, Vector.getElem_ofFn, show (8 * i + j) / 8 = i by omega,
    show (8 * i + j) % 8 = j by omega]

/-- The words of a parent's block are those of its children. -/
theorem messageWords_parent (a b : Cv) (isRoot : Bool) :
    messageWords (parentCall (truncate a) (truncate b) isRoot).block =
      #v[a[0], a[1], a[2], a[3], a[4], a[5], b[0], b[1], b[2], b[3], b[4], b[5], 0, 0, 0, 0] := by
  generalize hblock : (parentCall (truncate a) (truncate b) isRoot).block = block
  have hget : ∀ (p : Nat) (hp : p < 48 + 48 + 32), block[p] =
      if h : p < 48 + 48 then if h' : p < 48 then (truncate a)[p] else (truncate b)[p - 48]
      else 0 := by
    intro p hp
    subst hblock
    refine (Vector.getElem_append hp).trans ?_
    split
    · exact Vector.getElem_append _
    · exact Vector.getElem_replicate _
  have hleft : ∀ i (hi : i < 6), (messageWords block)[i] = a[i] := fun i hi =>
    getElem_messageWords (by omega) fun j hj => by
      rw [hget _ (by omega), dif_pos (by omega), dif_pos (by omega), getElem_truncate a hi hj]
  have hright : ∀ i (hi : i < 6), (messageWords block)[6 + i] = b[i] := fun i hi =>
    getElem_messageWords (by omega) fun j hj => by
      rw [hget _ (by omega), dif_pos (by omega), dif_neg (by omega)]
      simp only [show 8 * (6 + i) + j - 48 = 8 * i + j by omega]
      exact getElem_truncate b hi hj
  have hpad : ∀ i (hi : i < 4), (messageWords block)[12 + i] = 0 := fun i hi =>
    getElem_messageWords (by omega) fun j hj => by
      rw [hget _ (by omega), dif_neg (by omega), toLeByte]
      simp
  refine Vector.ext fun i hi => ?_
  interval_cases i
  exacts [hleft 0 (by decide), hleft 1 (by decide), hleft 2 (by decide), hleft 3 (by decide),
    hleft 4 (by decide), hleft 5 (by decide), hright 0 (by decide), hright 1 (by decide),
    hright 2 (by decide), hright 3 (by decide), hright 4 (by decide), hright 5 (by decide),
    hpad 0 (by decide), hpad 1 (by decide), hpad 2 (by decide), hpad 3 (by decide)]

def parentE (a b : Cv) (isRoot : Bool) (k : Cv → β) : β :=
  compressE initialCv
    #v[a[0], a[1], a[2], a[3], a[4], a[5], b[0], b[1], b[2], b[3], b[4], b[5], 0, 0, 0, 0] 96
    (flagParent ||| if isRoot then flagRoot else 0) k

theorem parentE_eq (a b : Cv) (isRoot : Bool) (k : Cv → β) :
    parentE a b isRoot k = k (parentCall (truncate a) (truncate b) isRoot).run :=
  compressE_eq (messageWords_parent a b isRoot) _ _ _

end Parents

end Blkcp.Blks
