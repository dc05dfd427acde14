import Blkcp.Blks.Encoding
set_option autoImplicit false

/-! Base64 of digests both ways: what is written is read back, and what is read is written again up
to the two signs that the alphabets differ in. -/

namespace Blkcp.Blks
open Blkcp.Lib

/-! ### Four characters and three bytes -/

section Group

theorem or_of_shiftLeft {a b k : Nat} (h : b < 2 ^ k) : a <<< k ||| b = a * 2 ^ k + b := by
  rw [← Nat.shiftLeft_add_eq_or_of_lt h, Nat.shiftLeft_eq]

theorem encodeB64Group_eq (table : List Char) {b0 b1 b2 : Nat} (h1 : b1 < 256) (h2 : b2 < 256) :
    encodeB64Group table b0 b1 b2 =
      (groupIndices b0 b1 b2).map fun i => table.getD i 'A' := by
  have hand (b k : Nat) : b &&& (2 ^ k - 1) = b % 2 ^ k := Nat.and_two_pow_sub_one_eq_mod b k
  have h3 := hand b0 2
  have h15 := hand b1 4
  have h63 := hand b2 6
  simp only [Nat.reducePow, Nat.reduceSub] at h3 h15 h63
  unfold encodeB64Group groupIndices
  simp only [h3, h15, h63, Nat.shiftRight_eq_div_pow]
  rw [or_of_shiftLeft (by omega), or_of_shiftLeft (by omega)]
  rfl

theorem groupIndices_lt {b0 b1 b2 : Nat} (h0 : b0 < 256) (h1 : b1 < 256) (h2 : b2 < 256) :
    ∀ i ∈ groupIndices b0 b1 b2, i < 64 := by
  simp only [groupIndices, List.forall_mem_cons]
  refine ⟨?_, ?_, ?_, ?_, nofun⟩ <;> omega

theorem byte_or {x y : Byte} {k : Nat} (hk : k ≤ 8) (hx : x.toNat * 2 ^ k < 2 ^ 8)
    (hy : y.toNat < 2 ^ k) : x <<< k ||| y = BitVec.ofNat 8 (x.toNat * 2 ^ k + y.toNat) := by
  have hsum : x.toNat * 2 ^ k + y.toNat < 2 ^ 8 := by
    have hsplit : 2 ^ 8 = 2 ^ (8 - k) * 2 ^ k := by rw [← Nat.pow_add, Nat.sub_add_cancel hk]
    have hlt : x.toNat < 2 ^ (8 - k) := Nat.lt_of_mul_lt_mul_right (hsplit ▸ hx)
    calc x.toNat * 2 ^ k + y.toNat < (x.toNat + 1) * 2 ^ k := by
          rw [Nat.succ_mul]
          omega
      _ ≤ 2 ^ (8 - k) * 2 ^ k := Nat.mul_le_mul_right _ hlt
      _ = 2 ^ 8 := hsplit.symm
  apply BitVec.eq_of_toNat_eq
  rw [BitVec.toNat_or, BitVec.toNat_shiftLeft, BitVec.toNat_ofNat, Nat.mod_eq_of_lt hsum,
    Nat.shiftLeft_eq, Nat.mod_eq_of_lt hx, ← Nat.shiftLeft_eq, or_of_shiftLeft hy,
    Nat.shiftLeft_eq]

/-- The three bytes of four values below 64. -/
theorem decodeB64Group_eq {c0 c1 c2 c3 : Byte} (h0 : c0.toNat < 64) (h1 : c1.toNat < 64)
    (h2 : c2.toNat < 64) (h3 : c3.toNat < 64) :
    decodeB64Group c0 c1 c2 c3 = .ok ([c0.toNat * 4 + c1.toNat / 16,
      c1.toNat % 16 * 16 + c2.toNat / 4, c2.toNat % 4 * 64 + c3.toNat].map (BitVec.ofNat 8)) := by
  have hne {c : Byte} (h : c.toNat < 64) : c ≠ 255 := by
    rintro rfl
    exact absurd h (by decide)
  have hlow : (c1 &&& 0x0F).toNat = c1.toNat % 16 := Nat.and_two_pow_sub_one_eq_mod _ 4
  have hlow2 : (c2 &&& 0x03).toNat = c2.toNat % 4 := Nat.and_two_pow_sub_one_eq_mod _ 2
  have hhigh (c : Byte) (k : Nat) : (c >>> k).toNat = c.toNat / 2 ^ k := by
    rw [BitVec.toNat_ushiftRight, Nat.shiftRight_eq_div_pow]
  unfold decodeB64Group
  rw [if_neg (by
    rintro (h | h | h | h)
    · exact hne h0 h
    · exact hne h1 h
    · exact hne h2 h
    · exact hne h3 h)]
  rw [byte_or (by decide) (by omega) (by rw [hhigh]; omega),
    byte_or (by decide) (by rw [hlow]; omega) (by rw [hhigh]; omega),
    byte_or (by decide) (by rw [hlow2]; omega) h3, hlow, hlow2, hhigh, hhigh]
  rfl

theorem decodeB64Group_indices (b0 b1 b2 : Byte) {c0 c1 c2 c3 : Byte}
    (h : [c0, c1, c2, c3].map BitVec.toNat = groupIndices b0.toNat b1.toNat b2.toNat) :
    decodeB64Group c0 c1 c2 c3 = .ok [b0, b1, b2] := by
  have hb0 := b0.isLt
  have hb1 := b1.isLt
  have hb2 := b2.isLt
  obtain ⟨h0, h1, h2, h3⟩ : c0.toNat = b0.toNat / 4 ∧
      c1.toNat = b0.toNat % 4 * 16 + b1.toNat / 16 ∧
      c2.toNat = b1.toNat % 16 * 4 + b2.toNat / 64 ∧ c3.toNat = b2.toNat % 64 := by
    simpa [groupIndices] using h
  have hbyte {n : Nat} {b : Byte} (h : n = b.toNat) : BitVec.ofNat 8 n = b := by
    rw [h, BitVec.ofNat_toNat, BitVec.setWidth_eq]
  rw [decodeB64Group_eq (by omega) (by omega) (by omega) (by omega)]
  simp only [List.map_cons, List.map_nil]
  rw [hbyte (b := b0) (by omega), hbyte (b := b1) (by omega), hbyte (b := b2) (by omega)]

/-- Values below 64 are the places of the characters of three bytes. -/
theorem exists_groupIndices {c0 c1 c2 c3 : Byte} (h0 : c0.toNat < 64) (h1 : c1.toNat < 64)
    (h2 : c2.toNat < 64) (h3 : c3.toNat < 64) :
    ∃ b0 b1 b2 : Byte,
      [c0, c1, c2, c3].map BitVec.toNat = groupIndices b0.toNat b1.toNat b2.toNat := by
  refine ⟨BitVec.ofNat 8 (c0.toNat * 4 + c1.toNat / 16),
    BitVec.ofNat 8 (c1.toNat % 16 * 16 + c2.toNat / 4),
    BitVec.ofNat 8 (c2.toNat % 4 * 64 + c3.toNat), ?_⟩
  simp only [BitVec.toNat_ofNat, Nat.reducePow, groupIndices, List.map_cons, List.map_nil,
    List.cons.injEq, and_true]
  refine ⟨?_, ?_, ?_, ?_⟩ <;> omega

end Group

/-! ### The tables -/

section Tables

/-- A letter, a digit or a sign of one of the alphabets. -/
def Base64Char (c : Char) : Prop :=
  ('A' ≤ c ∧ c ≤ 'Z') ∨ ('a' ≤ c ∧ c ≤ 'z') ∨ ('0' ≤ c ∧ c ≤ '9') ∨ c ∈ ['+', '/', '-', '_']

instance : DecidablePred Base64Char := fun c => by
  unfold Base64Char
  infer_instance

/-- The sign of the standard alphabet. -/
def toStandard (c : Char) : Char := if c = '-' then '+' else if c = '_' then '/' else c

/-- What the reverse table holds, by the ranges of the characters. -/
def placeOf (b : Nat) : Nat :=
  if 65 ≤ b ∧ b ≤ 90 then b - 65
  else if 97 ≤ b ∧ b ≤ 122 then b - 71
  else if 48 ≤ b ∧ b ≤ 57 then b + 4
  else if b = 43 ∨ b = 45 then 62
  else if b = 47 ∨ b = 95 then 63
  else 255

theorem buildRevTable_eq :
    buildRevTable.toList = (List.range 256).map fun b => BitVec.ofNat 8 (placeOf b) := by
  decide +kernel

theorem get_of_toList {α : Type} {n : Nat} {v : Vector α n} {f : Nat → α}
    (h : v.toList = (List.range n).map f) (i : Fin n) : v.get i = f i.val := by
  have hget := congrArg (fun l => l[i.val]?) h
  simp only [List.getElem?_map, List.getElem?_range i.isLt, Option.map_some] at hget
  rw [Vector.getElem?_toList, Vector.getElem?_eq_getElem i.isLt] at hget
  exact Option.some.inj hget

theorem revTable_eq (b : UInt8) : revTable b = BitVec.ofNat 8 (placeOf b.toNat) :=
  get_of_toList buildRevTable_eq ⟨b.toNat, b.toNat_lt⟩

/-- The reverse table finds the places of the characters of a table. -/
structure Inverted (table : List Char) : Prop where
  ascii : ∀ i : Fin 64, (table.getD i.val 'A').toNat < 0x80
  place : ∀ i : Fin 64, placeOf (table.getD i.val 'A').toNat = i.val

theorem inverted_standard : Inverted base64Standard where
  ascii := by decide +kernel
  place := by decide +kernel

theorem inverted_urlSafe : Inverted base64UrlSafe where
  ascii := by decide +kernel
  place := by decide +kernel

/-- A byte with a place in the table is a character of one of the alphabets, and stands for its sign
of the standard one. -/
theorem placeOf_spec : ∀ b : Fin 256,
    (if Base64Char (Char.ofNat b.val) then placeOf b.val < 64 ∧
      base64Standard.getD (placeOf b.val) 'A' = toStandard (Char.ofNat b.val)
    else placeOf b.val = 255) := by
  decide +kernel

variable {b : UInt8}

theorem revTable_of_base64Char (h : Base64Char (Char.ofNat b.toNat)) :
    (revTable b).toNat < 64 ∧
      base64Standard.getD (revTable b).toNat 'A' = toStandard (Char.ofNat b.toNat) := by
  have hspec := placeOf_spec ⟨b.toNat, b.toNat_lt⟩
  dsimp only at hspec
  rw [if_pos h] at hspec
  rwa [revTable_eq, BitVec.toNat_ofNat, Nat.mod_eq_of_lt (by omega)]

theorem revTable_of_not_base64Char (h : ¬ Base64Char (Char.ofNat b.toNat)) : revTable b = 255 := by
  have hspec := placeOf_spec ⟨b.toNat, b.toNat_lt⟩
  dsimp only at hspec
  rw [if_neg h] at hspec
  rw [revTable_eq, hspec]
  rfl

end Tables

/-! ### Sixteen groups -/

section Groups

theorem getElem?_flatMap {α β : Type} {k : Nat} {f : α → List β} (hf : ∀ a, (f a).length = k)
    (xs : List α) (i : Nat) {j : Nat} (hj : j < k) :
    (xs.flatMap f)[i * k + j]? = xs[i]?.bind fun a => (f a)[j]? := by
  induction xs generalizing i with
  | nil => rfl
  | cons a xs ih =>
    rw [List.flatMap_cons]
    cases i with
    | zero =>
      rw [Nat.zero_mul, Nat.zero_add, List.getElem?_append_left (by rw [hf]; exact hj)]
      rfl
    | succ i =>
      have hle : k ≤ (i + 1) * k + j := by
        rw [Nat.succ_mul]
        omega
      rw [List.getElem?_append_right (by rw [hf]; exact hle), hf, List.getElem?_cons_succ, ← ih]
      congr 1
      rw [Nat.succ_mul]
      omega

theorem getElem?_flatMap_finRange {β : Type} {n k : Nat} {f : Fin n → List β}
    (hf : ∀ i, (f i).length = k) (hk : 0 < k) {p : Nat} (hp : p / k < n) :
    ((List.finRange n).flatMap f)[p]? = (f ⟨p / k, hp⟩)[p % k]? := by
  have hget := getElem?_flatMap hf (List.finRange n) (p / k) (Nat.mod_lt p hk)
  rw [Nat.div_add_mod'] at hget
  rw [hget, List.getElem?_eq_getElem (by rwa [List.length_finRange]), List.getElem_finRange]
  rfl

theorem getD_eq {α : Type} {xs : List α} {k : Nat} (hk : k < xs.length) (a : α) :
    xs.getD k a = xs[k] := by
  rw [List.getD_eq_getElem?_getD, List.getElem?_eq_getElem hk, Option.getD_some]

theorem length_flatMap {α β : Type} {k : Nat} {f : α → List β} (hf : ∀ a, (f a).length = k)
    (xs : List α) : (xs.flatMap f).length = xs.length * k := by
  rw [List.length_flatMap, List.map_congr_left fun a _ => hf a, List.map_const',
    List.sum_replicate_nat]

/-- The places in a table of all characters of a digest. -/
def indices (d : Digest) : List Nat := (List.finRange 16).flatMap (groupAt d)

theorem length_indices (d : Digest) : (indices d).length = 64 := by
  unfold indices
  rw [length_flatMap (k := 4) fun i => rfl, List.length_finRange]

theorem indices_lt (d : Digest) : ∀ i ∈ indices d, i < 64 := by
  intro i hi
  obtain ⟨k, -, hk⟩ := List.mem_flatMap.mp hi
  exact groupIndices_lt (BitVec.isLt _) (BitVec.isLt _) (BitVec.isLt _) i hk

theorem toList_encodeB64Table (d : Digest) (table : List Char) :
    (encodeB64Table d table).toList = (indices d).map fun i => table.getD i 'A' := by
  unfold encodeB64Table indices groupAt
  rw [String.toList_ofList, List.map_flatMap]
  refine List.flatMap_congr fun i _ => ?_
  exact encodeB64Group_eq table (BitVec.isLt _) (BitVec.isLt _)

/-- The values that the decoder looks up. -/
def values (s : String) : List Byte := (Utf8.encode s.toList).map revTable

theorem mapM_ok {α β : Type} {f : α → Except String β} {g : α → β} {xs : List α}
    (h : ∀ a ∈ xs, f a = .ok (g a)) : xs.mapM f = .ok (xs.map g) := by
  induction xs with
  | nil => rfl
  | cons a xs ih =>
    rw [List.mapM_cons, h a List.mem_cons_self, ih fun b hb => h b (List.mem_cons_of_mem a hb)]
    rfl

theorem exists_ok_of_mapM {α β : Type} {f : α → Except String β} {xs : List α} {ys : List β}
    (h : xs.mapM f = .ok ys) : ∀ a ∈ xs, ∃ b, f a = .ok b := by
  induction xs generalizing ys with
  | nil => nofun
  | cons a xs ih =>
    rw [List.mapM_cons] at h
    cases ha : f a with
    | error e =>
      rw [ha] at h
      cases h
    | ok b =>
      cases hxs : xs.mapM f with
      | error e =>
        rw [ha, hxs] at h
        cases h
      | ok bs => exact List.forall_mem_cons.mpr ⟨⟨b, ha⟩, ih hxs⟩

variable {s : String} {d : Digest}

theorem getElem?_values {k : Nat} (hk : k < (values s).length) :
    (values s)[k]? = some (revTable ((Utf8.encode s.toList).getD k 0)) := by
  have hlen : k < (Utf8.encode s.toList).length := by simpa [values] using hk
  rw [values, List.getElem?_map, List.getElem?_eq_getElem hlen, getD_eq hlen]
  rfl

/-- What is looked up are the places of the characters of the digest. -/
theorem decodeBase64_of_values (h : (values s).map BitVec.toNat = indices d) :
    decodeBase64 s = .ok d := by
  have hlen : (values s).length = 64 := by
    rw [← List.length_map (f := BitVec.toNat), h, length_indices]
  have hbytes : (Utf8.encode s.toList).length = 64 := by
    rwa [values, List.length_map] at hlen
  have hgroup (i : Fin 16) {j : Nat} (hj : j < 4) :
      (groupAt d i)[j]? = some (revTable ((Utf8.encode s.toList).getD (i.val * 4 + j) 0)).toNat := by
    have hget := congrArg (fun l => l[i.val * 4 + j]?) h
    simp only [List.getElem?_map, getElem?_values (s := s) (k := i.val * 4 + j) (by omega)] at hget
    rw [indices, getElem?_flatMap (k := 4) (fun i => rfl) _ _ hj] at hget
    simpa using hget.symm
  have hturn (i : Fin 16) : decodeB64Group (revTable ((Utf8.encode s.toList).getD (i.val * 4) 0))
      (revTable ((Utf8.encode s.toList).getD (i.val * 4 + 1) 0))
      (revTable ((Utf8.encode s.toList).getD (i.val * 4 + 2) 0))
      (revTable ((Utf8.encode s.toList).getD (i.val * 4 + 3) 0)) =
        .ok [d[i.val * 3], d[i.val * 3 + 1], d[i.val * 3 + 2]] := by
    refine decodeB64Group_indices _ _ _ ?_
    have h0 := hgroup i (j := 0) (by decide)
    have h1 := hgroup i (j := 1) (by decide)
    have h2 := hgroup i (j := 2) (by decide)
    have h3 := hgroup i (j := 3) (by decide)
    simp only [groupAt, groupIndices, List.getElem?_cons_zero, List.getElem?_cons_succ,
      Option.some.injEq] at h0 h1 h2 h3
    simp only [List.map_cons, List.map_nil, groupIndices, h0, h1, h2, h3]
    rfl
  unfold decodeBase64
  dsimp only
  rw [if_neg (not_not.mpr hbytes), mapM_ok fun i _ => hturn i]
  refine congrArg Except.ok (Vector.ext fun j hj => ?_)
  have hget := getElem?_flatMap_finRange (k := 3)
    (f := fun i : Fin 16 => [d[i.val * 3], d[i.val * 3 + 1], d[i.val * 3 + 2]]) (fun i => rfl)
    (by decide) (p := j) (by omega)
  rw [Vector.getElem_ofFn, ← List.flatMap_def, List.getD_eq_getElem?_getD, hget]
  have hj3 : j % 3 = 0 ∨ j % 3 = 1 ∨ j % 3 = 2 := by omega
  rcases hj3 with h3 | h3 | h3
  all_goals
    rw [h3]
    exact getElem_congr_idx (by dsimp only; omega)

/-- Sixty-four places below 64 are those of a digest. -/
theorem exists_indices (hlen : (values s).length = 64) (hlt : ∀ v ∈ values s, v.toNat < 64) :
    ∃ d : Digest, (values s).map BitVec.toNat = indices d := by
  have hv (k : Nat) (hk : k < 64) : ((values s).getD k 0).toNat < 64 := by
    rw [getD_eq (by omega)]
    exact hlt _ (List.getElem_mem _)
  choose b0 b1 b2 hb using fun i : Fin 16 => exists_groupIndices
    (hv (i.val * 4) (by omega)) (hv (i.val * 4 + 1) (by omega)) (hv (i.val * 4 + 2) (by omega))
    (hv (i.val * 4 + 3) (by omega))
  let d : Digest := Vector.ofFn fun j : Fin 48 =>
    [b0 ⟨j.val / 3, by omega⟩, b1 ⟨j.val / 3, by omega⟩, b2 ⟨j.val / 3, by omega⟩].getD (j.val % 3) 0
  have hgroup (i : Fin 16) :
      groupAt d i = groupIndices (b0 i).toNat (b1 i).toNat (b2 i).toNat := by
    have hdiv0 : i.val * 3 / 3 = i.val := by omega
    have hdiv1 : (i.val * 3 + 1) / 3 = i.val := by omega
    have hdiv2 : (i.val * 3 + 2) / 3 = i.val := by omega
    have hmod0 : i.val * 3 % 3 = 0 := by omega
    have hmod1 : (i.val * 3 + 1) % 3 = 1 := by omega
    have hmod2 : (i.val * 3 + 2) % 3 = 2 := by omega
    simp only [groupAt, d, Vector.getElem_ofFn, hdiv0, hdiv1, hdiv2, hmod0, hmod1, hmod2]
    rfl
  refine ⟨d, List.ext_getElem? fun k => ?_⟩
  rcases Nat.lt_or_ge k 64 with hk | hk
  · have hget := getElem?_flatMap_finRange (k := 4) (f := groupAt d) (fun i => rfl) (by decide)
      (p := k) (by omega)
    rw [hgroup, ← hb] at hget
    rw [indices, hget, List.getElem?_map, List.getElem?_eq_getElem (by omega)]
    have hkk (j : Nat) (hj : k % 4 = j) : (values s).getD (k / 4 * 4 + j) 0 = (values s)[k] := by
      rw [getD_eq (by omega)]
      exact getElem_congr_idx (by omega)
    have hj4 : k % 4 = 0 ∨ k % 4 = 1 ∨ k % 4 = 2 ∨ k % 4 = 3 := by omega
    rcases hj4 with h4 | h4 | h4 | h4
    all_goals
      rw [h4, ← hkk _ h4]
      rfl
  · rw [List.getElem?_eq_none (by rw [List.length_map]; omega),
      List.getElem?_eq_none (by rw [length_indices]; omega)]

/-- Every byte that is looked up in a successful run is a character of one of the alphabets. -/
theorem values_of_decodeBase64 (h : decodeBase64 s = .ok d) :
    (values s).length = 64 ∧ ∀ b ∈ Utf8.encode s.toList, Base64Char (Char.ofNat b.toNat) := by
  unfold decodeBase64 at h
  dsimp only at h
  split_ifs at h with hlen
  rw [not_not] at hlen
  refine ⟨by rw [values, List.length_map, hlen], fun b hb => ?_⟩
  obtain ⟨k, hk, rfl⟩ := List.getElem_of_mem hb
  cases hout : (List.finRange 16).mapM fun i : Fin 16 =>
      decodeB64Group (revTable ((Utf8.encode s.toList).getD (i.val * 4) 0))
        (revTable ((Utf8.encode s.toList).getD (i.val * 4 + 1) 0))
        (revTable ((Utf8.encode s.toList).getD (i.val * 4 + 2) 0))
        (revTable ((Utf8.encode s.toList).getD (i.val * 4 + 3) 0)) with
  | error e =>
    rw [hout] at h
    cases h
  | ok out =>
    obtain ⟨bytes, hturn⟩ := exists_ok_of_mapM hout ⟨k / 4, by omega⟩ (List.mem_finRange _)
    unfold decodeB64Group at hturn
    split_ifs at hturn with hbad
    by_contra hchar
    apply hbad
    have hrev (j : Nat) (hj : k % 4 = j) :
        revTable ((Utf8.encode s.toList).getD (k / 4 * 4 + j) 0) = 255 := by
      have hsplit : k / 4 * 4 + k % 4 = k := by omega
      rw [← hj, hsplit, getD_eq hk]
      exact revTable_of_not_base64Char hchar
    have hj4 : k % 4 = 0 ∨ k % 4 = 1 ∨ k % 4 = 2 ∨ k % 4 = 3 := by omega
    rcases hj4 with h4 | h4 | h4 | h4
    · exact .inl (hrev 0 h4)
    · exact .inr (.inl (hrev 1 h4))
    · exact .inr (.inr (.inl (hrev 2 h4)))
    · exact .inr (.inr (.inr (hrev 3 h4)))

end Groups

/-- What is written with an inverted table is read back. -/
theorem decodeBase64_encodeB64Table {table : List Char} (ht : Inverted table) (d : Digest) :
    decodeBase64 (encodeB64Table d table) = .ok d := by
  refine decodeBase64_of_values ?_
  have hlt := indices_lt d
  have hascii : ∀ c ∈ (encodeB64Table d table).toList, c.toNat < 0x80 := by
    rw [toList_encodeB64Table, List.forall_mem_map]
    exact fun i hi => ht.ascii ⟨i, hlt i hi⟩
  rw [values, Utf8.encode_ascii hascii, toList_encodeB64Table, Utf8.bytes, List.map_map,
    List.map_map, List.map_map]
  conv_rhs => rw [← List.map_id (indices d)]
  refine List.map_congr_left fun i hi => ?_
  have hplace := ht.place ⟨i, hlt i hi⟩
  have hsmall := ht.ascii ⟨i, hlt i hi⟩
  have hi64 := hlt i hi
  dsimp only at hplace hsmall
  -- by name: unfolding a composition would make the kernel evaluate the table
  rw [Function.comp_apply, Function.comp_apply, Function.comp_apply, revTable_eq,
    UInt8.toNat_ofNat_of_lt' (Nat.lt_trans hsmall (by decide)), hplace, BitVec.toNat_ofNat,
    Nat.mod_eq_of_lt (by omega), id]

theorem lt_of_base64Char {c : Char} (h : Base64Char c) : c.toNat < 0x80 := by
  rcases h with ⟨-, h⟩ | ⟨-, h⟩ | ⟨-, h⟩ | h
  · exact Nat.lt_of_le_of_lt h (by decide)
  · exact Nat.lt_of_le_of_lt h (by decide)
  · exact Nat.lt_of_le_of_lt h (by decide)
  · simp only [List.mem_cons, List.not_mem_nil, or_false] at h
    rcases h with rfl | rfl | rfl | rfl <;> decide

/-- Characters of the alphabets are their bytes. -/
theorem ascii_of_bytes {t : List Char}
    (h : ∀ b ∈ Utf8.encode t, Base64Char (Char.ofNat b.toNat)) : ∀ c ∈ t, c.toNat < 0x80 := by
  intro c hc
  have hne : String.utf8EncodeChar c ≠ [] := List.ne_nil_of_length_pos (by
    rw [String.length_utf8EncodeChar]
    exact c.utf8Size_pos)
  obtain ⟨b, hb⟩ := List.exists_mem_of_ne_nil _ hne
  have hchar := lt_of_base64Char (h b (List.mem_flatMap.mpr ⟨c, hc, hb⟩))
  have hbyte := hchar
  rw [Utf8.toNat_ofNat_toNat] at hbyte
  rwa [← (Utf8.encodeChar_of_mem hb hbyte).2]

/-- Every digest comes back from both of its texts, and a text is read exactly where it is 64 bytes
of the two alphabets. It is the text of its digest then, but for the signs. -/
theorem decodeBase64_exact :
    (∀ d : Digest, decodeBase64 (encodeBase64 d) = .ok d ∧
      decodeBase64 (encodeBase64Url d) = .ok d) ∧
    ∀ s : String,
      ((∃ d, decodeBase64 s = .ok d) ↔ (Utf8.encode s.toList).length = 64 ∧
        ∀ b ∈ Utf8.encode s.toList, Base64Char (Char.ofNat b.toNat)) ∧
      ∀ d, decodeBase64 s = .ok d → (encodeBase64 d).toList = s.toList.map toStandard := by
  refine ⟨fun d => ⟨decodeBase64_encodeB64Table inverted_standard d,
    decodeBase64_encodeB64Table inverted_urlSafe d⟩, fun s => ?_⟩
  have hdigest (hlen : (values s).length = 64)
      (hchars : ∀ b ∈ Utf8.encode s.toList, Base64Char (Char.ofNat b.toNat)) :
      ∃ d : Digest, (values s).map BitVec.toNat = indices d :=
    exists_indices hlen fun v hv => by
      obtain ⟨b, hb, rfl⟩ := List.mem_map.mp hv
      exact (revTable_of_base64Char (hchars b hb)).1
  refine ⟨⟨?_, ?_⟩, ?_⟩
  · rintro ⟨d, hd⟩
    obtain ⟨hlen, hchars⟩ := values_of_decodeBase64 hd
    exact ⟨by rwa [values, List.length_map] at hlen, hchars⟩
  · rintro ⟨hlen, hchars⟩
    obtain ⟨d, hd⟩ := hdigest (by rwa [values, List.length_map]) hchars
    exact ⟨d, decodeBase64_of_values hd⟩
  · intro d hd
    obtain ⟨hlen, hchars⟩ := values_of_decodeBase64 hd
    obtain ⟨d', hd'⟩ := hdigest hlen hchars
    obtain rfl : d = d' := Except.ok.inj (hd.symm.trans (decodeBase64_of_values hd'))
    have hascii := ascii_of_bytes hchars
    rw [encodeBase64, toList_encodeB64Table, ← hd', values, List.map_map, List.map_map]
    rw [Utf8.encode_ascii hascii] at hchars ⊢
    rw [Utf8.bytes, List.map_map]
    refine List.map_congr_left fun c hc => ?_
    have hbyte := (revTable_of_base64Char (hchars _ (List.mem_map_of_mem hc))).2
    rw [Function.comp_apply, Function.comp_apply, Function.comp_apply, hbyte, UInt8.toNat_ofNat_of_lt' (Nat.lt_trans (hascii c hc) (by decide)), Char.ofNat_toNat]

end Blkcp.Blks
