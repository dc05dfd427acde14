import Blkcp.C.Swab
set_option autoImplicit false

/-! Byte swapping as the loops of `conversions.c` do it in place, each access of the buffer checked,
and what becomes of a stream that is swapped block by block. -/

namespace Blkcp.C
open Blkcp.Lib

variable {α : Type}

section Checked

/-- `n` bytes from `i` on; none beyond the end of the buffer. -/
def load (buf : List α) (i n : Nat) : Option (List α) :=
  if i + n ≤ buf.length then some ((buf.drop i).take n) else none

def store (buf : List α) (i : Nat) (v : List α) : Option (List α) :=
  if i + v.length ≤ buf.length then some (buf.take i ++ v ++ buf.drop (i + v.length)) else none

/-- `for (; i + width <= len; i += width)`: where it ends, and the buffer. -/
def forStride (width len : Nat) (body : Nat → List α → Option (List α)) (i : Nat)
    (buf : List α) : Option (Nat × List α) :=
  if 0 < width ∧ i + width ≤ len then do
    let buf ← body i buf
    forStride width len body (i + width) buf
  else some (i, buf)
termination_by len - i

def swapAt (i : Nat) (buf : List α) : Option (List α) := do
  let tmp ← load buf i 1
  let next ← load buf (i + 1) 1
  let buf ← store buf i next
  store buf (i + 1) tmp

/-- `swab_scalar (buf + base, len)`. -/
def swabScalarAt (base len : Nat) (buf : List α) : Option (List α) := do
  let (_, buf) ← forStride 2 len (fun i => swapAt (base + i)) 0 buf
  return buf

/-- One vector or lane, shuffled in place. -/
def shuffleAt (shuffle : List α → List α) (width i : Nat) (buf : List α) : Option (List α) := do
  let v ← load buf i width
  store buf i (shuffle v)

def shuffleFour (i : Nat) (buf : List α) : Option (List α) := do
  let v0 ← load buf i 32
  let v1 ← load buf (i + 32) 32
  let v2 ← load buf (i + 64) 32
  let v3 ← load buf (i + 96) 32
  let buf ← store buf i (shuffleVector v0)
  let buf ← store buf (i + 32) (shuffleVector v1)
  let buf ← store buf (i + 64) (shuffleVector v2)
  store buf (i + 96) (shuffleVector v3)

def swabAvx2At (len : Nat) (buf : List α) : Option (List α) := do
  let (i, buf) ← forStride 128 len shuffleFour 0 buf
  let (i, buf) ← forStride 32 len (shuffleAt shuffleVector 32) i buf
  if i + 16 ≤ len then do
    let buf ← shuffleAt shuffleEpi8 16 i buf
    swabScalarAt (i + 16) (len - (i + 16)) buf
  else swabScalarAt i (len - i) buf

/-- The loop that the processor supports. -/
def swabAt (avx2 : Bool) (len : Nat) (buf : List α) : Option (List α) :=
  if avx2 then swabAvx2At len buf else swabScalarAt 0 len buf

def shiftOddAt : Nat → List α → Option (List α)
  | i + 2, buf => do
    let b ← load buf i 1
    let buf ← store buf (i + 2) b
    shiftOddAt i buf
  | _, buf => some buf

/-- `dd_swab_buffer`; none if it touches a byte that is not in the buffer. -/
def ddSwabChecked (avx2 : Bool) (buf : List α) (nread : Nat) (saved : Option α) :
    Option (List α × Nat × Option α) :=
  if nread = 0 then some (buf, 0, saved)
  else
    match saved with
    | none =>
      if nread % 2 = 1 then do
        let c ← buf[nread - 1]?
        let buf ← swabAt avx2 (nread - 1) buf
        return (buf, nread - 1, some c)
      else do
        let buf ← swabAt avx2 nread buf
        return (buf, nread, none)
    | some prev =>
      if nread % 2 = 1 then do
        let buf ← shiftOddAt nread buf
        let buf ← store buf 1 [prev]
        return (buf, nread + 1, none)
      else do
        let c ← buf[nread - 1]?
        let buf ← shiftOddAt (nread - 1) buf
        let buf ← store buf 1 [prev]
        return (buf, nread - 1 + 1, some c)

end Checked

section InPlace

/-- The pairs of `n` bytes from `i` on exchanged. -/
def exchanged (i n : Nat) (buf : List α) : List α :=
  buf.take i ++ swabScalar ((buf.drop i).take n) ++ buf.drop (i + n)

theorem exists_parts {buf : List α} {i n : Nat} (h : i + n ≤ buf.length) :
    ∃ a v c, buf = a ++ (v ++ c) ∧ a.length = i ∧ v.length = n := by
  refine ⟨buf.take i, (buf.drop i).take n, (buf.drop i).drop n, ?_, ?_, ?_⟩
  · rw [List.take_append_drop, List.take_append_drop]
  · rw [List.length_take]
    omega
  · rw [List.length_take, List.length_drop]
    omega

theorem load_eq {buf a v c : List α} {i n : Nat} (h : buf = a ++ (v ++ c)) (hi : a.length = i)
    (hn : v.length = n) : load buf i n = some v := by
  subst h hi hn
  have hle : a.length + v.length ≤ (a ++ (v ++ c)).length := by
    simp only [List.length_append]
    omega
  rw [load, if_pos hle, List.drop_left, List.take_left]

theorem store_eq {buf a v c w : List α} {i : Nat} (h : buf = a ++ (v ++ c)) (hi : a.length = i)
    (hw : w.length = v.length) : store buf i w = some (a ++ (w ++ c)) := by
  subst h hi
  have hle : a.length + w.length ≤ (a ++ (v ++ c)).length := by
    simp only [List.length_append]
    omega
  rw [store, if_pos hle, List.take_left, ← List.drop_drop, List.drop_left, hw, List.drop_left,
    List.append_assoc]

theorem exchanged_parts (a v c : List α) :
    exchanged a.length v.length (a ++ (v ++ c)) = a ++ (swabScalar v ++ c) := by
  rw [exchanged, List.take_left, ← List.drop_drop, List.drop_left, List.take_left, List.drop_left,
    List.append_assoc]

@[simp] theorem length_exchanged (i n : Nat) (buf : List α) :
    (exchanged i n buf).length = buf.length := by
  simp only [exchanged, List.length_append, length_swabScalar, List.length_take, List.length_drop]
  omega

theorem exchanged_zero (i : Nat) (buf : List α) : exchanged i 0 buf = buf := by
  rw [exchanged, List.take_zero, Nat.add_zero]
  exact (congrArg (· ++ buf.drop i) (List.append_nil _)).trans (List.take_append_drop i buf)

/-- Two stretches one behind the other, the first of even length. -/
theorem exchanged_exchanged {buf : List α} {i m n : Nat} (hm : m % 2 = 0)
    (h : i + m + n ≤ buf.length) :
    exchanged (i + m) n (exchanged i m buf) = exchanged i (m + n) buf := by
  obtain ⟨a, u, rfl, hu⟩ : ∃ a u, buf = a ++ u ∧ a.length = i :=
    ⟨_, _, (List.take_append_drop i buf).symm, List.length_take_of_le (by omega)⟩
  rw [List.length_append, hu, Nat.add_assoc, Nat.add_le_add_iff_left] at h
  obtain ⟨v, w, c, rfl, hv, hw⟩ := exists_parts h
  have hleft := exchanged_parts a v (w ++ c)
  have hboth := exchanged_parts a (v ++ w) c
  have hright := exchanged_parts (a ++ swabScalar v) w c
  simp only [List.length_append, length_swabScalar, List.append_assoc, hu, hv, hw]
    at hleft hboth hright
  rw [hleft, hboth, hright, swabScalar_append _ (by omega), List.append_assoc]

theorem swapAt_eq {i : Nat} {buf : List α} (h : i + 2 ≤ buf.length) :
    swapAt i buf = some (exchanged i 2 buf) := by
  obtain ⟨a, v, c, rfl, rfl, hv⟩ := exists_parts h
  obtain ⟨x, y, rfl⟩ : ∃ x y, v = [x, y] := List.length_eq_two.mp hv
  have hmid : ∀ z w : α, a ++ ([z, w] ++ c) = (a ++ [z]) ++ ([w] ++ c) := fun z w => by simp
  have hlen : ∀ z : α, (a ++ [z]).length = a.length + 1 := fun z => List.length_append
  have hx : load (a ++ ([x, y] ++ c)) a.length 1 = some [x] := load_eq (v := [x]) rfl rfl rfl
  have hy : load (a ++ ([x, y] ++ c)) (a.length + 1) 1 = some [y] := load_eq (hmid x y) (hlen x) rfl
  have hfirst : store (a ++ ([x, y] ++ c)) a.length [y] = some (a ++ ([y] ++ ([y] ++ c))) :=
    store_eq (v := [x]) rfl rfl rfl
  have hsecond : store (a ++ ([y] ++ ([y] ++ c))) (a.length + 1) [x] =
      some (a ++ [y] ++ ([x] ++ c)) := store_eq (hmid y y) (hlen y) rfl
  have hboth : exchanged a.length 2 (a ++ ([x, y] ++ c)) = a ++ ([y, x] ++ c) :=
    exchanged_parts a [x, y] c
  simp only [swapAt, hx, hy, hfirst, hsecond, hboth, hmid y x, Option.bind_eq_bind,
    Option.bind_some]

theorem shuffleAt_eq {shuffle : List α → List α} {width i : Nat} {buf : List α}
    (hs : ∀ v, v.length = width → shuffle v = swabScalar v) (h : i + width ≤ buf.length) :
    shuffleAt shuffle width i buf = some (exchanged i width buf) := by
  obtain ⟨a, v, c, rfl, rfl, rfl⟩ := exists_parts h
  rw [shuffleAt, load_eq rfl rfl rfl, Option.bind_eq_bind, Option.bind_some, hs v rfl,
    store_eq rfl rfl (length_swabScalar v), exchanged_parts]

theorem exists_quarters {v : List α} (h : v.length = 128) :
    ∃ v0 v1 v2 v3, v = v0 ++ (v1 ++ (v2 ++ v3)) ∧
      v0.length = 32 ∧ v1.length = 32 ∧ v2.length = 32 ∧ v3.length = 32 := by
  have hdrop : ∀ m n, ((v.drop m).take n).length = min n (128 - m) := by
    intro m n
    rw [List.length_take, List.length_drop, h]
  have hnext : ∀ m, v.drop m = (v.drop m).take 32 ++ v.drop (m + 32) := by
    intro m
    rw [← List.drop_drop, List.take_append_drop]
  refine ⟨(v.drop 0).take 32, (v.drop 32).take 32, (v.drop 64).take 32, v.drop 96, ?_,
    hdrop _ _, hdrop _ _, hdrop _ _, ?_⟩
  · rw [← hnext 64, ← hnext 32, ← hnext 0, List.drop_zero]
  · rw [List.length_drop, h]

/-- All four vectors are read before the first is written, each at its own place. -/
theorem shuffleFour_eq {i : Nat} {buf : List α} (h : i + 128 ≤ buf.length) :
    shuffleFour i buf = some (exchanged i 128 buf) := by
  obtain ⟨a, v, c, rfl, rfl, hv⟩ := exists_parts h
  have hwhole := exchanged_parts a v c
  obtain ⟨v0, v1, v2, v3, rfl, h0, h1, h2, h3⟩ := exists_quarters hv
  have hs : ∀ w : List α, w.length = 32 → (shuffleVector w).length = w.length := by
    intro w hw
    rw [shuffleVector_eq w hw, length_swabScalar]
  have hload : ∀ (p w q : List α) (i : Nat), a.length + p.length = i → w.length = 32 →
      load (a ++ (p ++ (w ++ q))) i 32 = some w := by
    intro p w q i hi hw
    exact load_eq (a := a ++ p) (List.append_assoc _ _ _).symm (by rw [List.length_append, hi]) hw
  have hstore : ∀ (p w q : List α) (i : Nat), a.length + p.length = i → w.length = 32 →
      store (a ++ (p ++ (w ++ q))) i (shuffleVector w) =
        some (a ++ (p ++ (shuffleVector w ++ q))) := by
    intro p w q i hi hw
    rw [store_eq (a := a ++ p) (List.append_assoc _ _ _).symm (by rw [List.length_append, hi])
      (hs w hw), List.append_assoc]
  have l0 := hload [] v0 (v1 ++ (v2 ++ (v3 ++ c))) a.length rfl h0
  have l1 := hload v0 v1 (v2 ++ (v3 ++ c)) (a.length + 32) (by omega) h1
  have l2 := hload (v0 ++ v1) v2 (v3 ++ c) (a.length + 64) (by rw [List.length_append]; omega) h2
  have l3 := hload (v0 ++ (v1 ++ v2)) v3 c (a.length + 96)
    (by simp only [List.length_append]; omega) h3
  have s0 := hstore [] v0 (v1 ++ (v2 ++ (v3 ++ c))) a.length rfl h0
  have s1 := hstore (shuffleVector v0) v1 (v2 ++ (v3 ++ c)) (a.length + 32)
    (by rw [hs v0 h0, h0]) h1
  have s2 := hstore (shuffleVector v0 ++ shuffleVector v1) v2 (v3 ++ c) (a.length + 64)
    (by rw [List.length_append, hs v0 h0, hs v1 h1]; omega) h2
  have s3 := hstore (shuffleVector v0 ++ (shuffleVector v1 ++ shuffleVector v2)) v3 c
    (a.length + 96)
    (by simp only [List.length_append, hs v0 h0, hs v1 h1, hs v2 h2]; omega) h3
  have hswab : swabScalar (v0 ++ (v1 ++ (v2 ++ v3))) =
      shuffleVector v0 ++ (shuffleVector v1 ++ (shuffleVector v2 ++ shuffleVector v3)) := by
    rw [swabScalar_append _ (by omega), swabScalar_append _ (by omega),
      swabScalar_append _ (by omega), shuffleVector_eq v0 h0, shuffleVector_eq v1 h1,
      shuffleVector_eq v2 h2, shuffleVector_eq v3 h3]
  rw [hv, hswab] at hwhole
  simp only [List.append_assoc, List.nil_append] at l0 l1 l2 l3 s0 s1 s2 s3 hwhole ⊢
  simp only [shuffleFour, l0, l1, l2, l3, s0, s1, s2, s3, hwhole, Option.bind_eq_bind,
    Option.bind_some]

theorem forStride_eq {width len : Nat} {body : Nat → List α → Option (List α)} (base : Nat)
    (hpos : 0 < width) (heven : width % 2 = 0)
    (hbody : ∀ i buf, base + i + width ≤ buf.length →
      body i buf = some (exchanged (base + i) width buf))
    (i : Nat) (buf : List α) (h : base + len ≤ buf.length) (hi : i ≤ len) :
    forStride width len body i buf =
      some (i + (len - i) / width * width,
        exchanged (base + i) ((len - i) / width * width) buf) := by
  induction hk : (len - i) / width generalizing i buf with
  | zero =>
    have hshort : ¬(0 < width ∧ i + width ≤ len) := by
      rintro ⟨-, hle⟩
      have := Nat.div_pos (show width ≤ len - i by omega) hpos
      omega
    rw [forStride, if_neg hshort, Nat.zero_mul, exchanged_zero, Nat.add_zero]
  | succ k ih =>
    have hle : width ≤ len - i := by
      by_contra hlt
      rw [Nat.div_eq_of_lt (by omega)] at hk
      omega
    have hnext : (len - (i + width)) / width = k := by
      rw [Nat.div_eq_sub_div hpos hle] at hk
      rw [Nat.sub_add_eq]
      exact Nat.succ_injective hk
    have hfits : (k + 1) * width ≤ len - i := by
      rw [← hk]
      exact Nat.div_mul_le_self _ _
    have hsum : width + k * width = (k + 1) * width := by ring
    rw [forStride, if_pos ⟨hpos, by omega⟩, hbody i buf (by omega), Option.bind_eq_bind,
      Option.bind_some, ih (i + width) _ (by rwa [length_exchanged]) (by omega) hnext,
      ← Nat.add_assoc base, exchanged_exchanged heven (by omega), hsum, Nat.add_assoc, hsum]

/-- The scalar loop on an even stretch of the buffer. -/
theorem swabScalarAt_eq {base len : Nat} {buf : List α} (heven : len % 2 = 0)
    (h : base + len ≤ buf.length) : swabScalarAt base len buf = some (exchanged base len buf) := by
  have hwhole : (len - 0) / 2 * 2 = len := by omega
  rw [swabScalarAt, forStride_eq base (by decide) rfl (fun i buf hi => swapAt_eq hi) 0 buf h
    (Nat.zero_le _), hwhole]
  rfl

/-- The vector loop, each part going on where the one before it ends. -/
theorem swabAvx2At_eq {len : Nat} {buf : List α} (heven : len % 2 = 0) (h : len ≤ buf.length) :
    swabAvx2At len buf = some (exchanged 0 len buf) := by
  have hfour : forStride 128 len shuffleFour 0 buf =
      some (0 + (len - 0) / 128 * 128, exchanged (0 + 0) ((len - 0) / 128 * 128) buf) :=
    forStride_eq 0 (by decide) rfl
      (fun i buf hi => by rw [Nat.zero_add] at hi ⊢; exact shuffleFour_eq hi)
      0 buf (by rwa [Nat.zero_add]) (Nat.zero_le len)
  rw [Nat.zero_add, Nat.sub_zero] at hfour
  generalize hi : len / 128 * 128 = i at hfour
  have hone : forStride 32 len (shuffleAt shuffleVector 32) i (exchanged 0 i buf) =
      some (i + (len - i) / 32 * 32, exchanged (0 + i) ((len - i) / 32 * 32) (exchanged 0 i buf)) :=
    forStride_eq 0 (by decide) rfl
      (fun i buf hi => by rw [Nat.zero_add] at hi ⊢; exact shuffleAt_eq shuffleVector_eq hi)
      i _ (by rwa [Nat.zero_add, length_exchanged]) (by omega)
  generalize hj : (len - i) / 32 * 32 = j at hone
  have hjoin : exchanged (0 + i) j (exchanged 0 i buf) = exchanged 0 (i + j) buf :=
    exchanged_exchanged (by omega) (by omega)
  rw [hjoin] at hone
  simp only [swabAvx2At, hfour, hone, Option.bind_eq_bind, Option.bind_some]
  have hlen : ∀ m, (exchanged 0 m buf).length = buf.length := fun m => length_exchanged 0 m buf
  have hgo : ∀ m n, m % 2 = 0 → m + n ≤ len →
      exchanged m n (exchanged 0 m buf) = exchanged 0 (m + n) buf := by
    intro m n hm hn
    have hjoin : exchanged (0 + m) n (exchanged 0 m buf) = exchanged 0 (m + n) buf :=
      exchanged_exchanged hm (by omega)
    rwa [Nat.zero_add] at hjoin
  split
  · rename_i hlane
    have hrest : i + j + 16 + (len - (i + j + 16)) = len := by omega
    rw [shuffleAt_eq shuffleEpi8_eq (by rw [hlen]; omega), Option.bind_some,
      hgo _ _ (by omega) hlane, swabScalarAt_eq (by omega) (by rw [hlen]; omega),
      hgo _ _ (by omega) (by omega), hrest]
  · have hrest : i + j + (len - (i + j)) = len := by omega
    rw [swabScalarAt_eq (by omega) (by rw [hlen]; omega), hgo _ _ (by omega) (by omega), hrest]

theorem store_single {buf : List α} {i : Nat} (b : α) (h : i < buf.length) :
    store buf i [b] = some (buf.set i b) := by
  rw [store, if_pos (show i + [b].length ≤ buf.length from h),
    List.set_eq_take_append_cons_drop, if_pos h, List.append_assoc]
  rfl

theorem load_single {buf : List α} {i : Nat} (h : i < buf.length) :
    load buf i 1 = some [buf[i]] := by
  rw [load, if_pos (by omega), List.drop_eq_getElem_cons h]
  rfl

theorem shiftOddAt_eq (n : Nat) (buf : List α) (h : n < buf.length) :
    shiftOddAt n buf = some (shiftOdd n buf) := by
  induction n using Nat.twoStepInduction generalizing buf with
  | zero => rfl
  | one => rfl
  | more n ih _ =>
    have hn : n < buf.length := by omega
    rw [shiftOddAt, load_single hn, Option.bind_eq_bind, Option.bind_some, store_single _ h,
      Option.bind_some, ih _ (by rw [List.length_set]; omega), shiftOdd,
      List.getElem?_eq_getElem hn]

/-- No byte is touched beyond the one behind the block. -/
theorem ddSwabChecked_eq (avx2 : Bool) {buf : List α} {nread : Nat} (saved : Option α)
    (h : nread < buf.length) :
    ddSwabChecked avx2 buf nread saved = some (ddSwabBuffer avx2 buf nread saved) := by
  have hloop : ∀ n, n % 2 = 0 → n < buf.length →
      swabAt avx2 n buf =
        some ((if avx2 then swabAvx2 (buf.take n) else swabScalar (buf.take n)) ++
          buf.drop n) := by
    intro n heven hn
    rw [swabAt, swabAvx2_eq, ite_self, swabAvx2At_eq heven hn.le,
      swabScalarAt_eq heven (by rw [Nat.zero_add]; exact hn.le), ite_self, exchanged,
      List.take_zero, List.drop_zero, Nat.zero_add]
    rfl
  have hlast : 0 < nread → buf[nread - 1]? = some buf[nread - 1] :=
    fun _ => List.getElem?_eq_getElem (by omega)
  have hcarry : ∀ n prev, n < buf.length → 1 < buf.length →
      (shiftOddAt n buf).bind (fun buf => store buf 1 [prev]) =
        some ((shiftOdd n buf).set 1 prev) := by
    intro n prev hn hone
    rw [shiftOddAt_eq n buf hn, Option.bind_some,
      store_single prev (by rw [length_shiftOdd]; exact hone)]
  simp only [ddSwabChecked, ddSwabBuffer]
  split
  · rfl
  · rename_i hpos
    cases saved with
    | none =>
      by_cases hodd : nread % 2 = 1
      · simp only [if_pos hodd, hlast (by omega), Option.bind_eq_bind, Option.bind_some,
          hloop _ (show (nread - 1) % 2 = 0 by omega) (by omega)]
        rfl
      · simp only [if_neg hodd, Option.bind_eq_bind, hloop _ (show nread % 2 = 0 by omega) h]
        rfl
    | some prev =>
      by_cases hodd : nread % 2 = 1
      · simp only [if_pos hodd, Option.bind_eq_bind, ← Option.bind_assoc,
          hcarry nread prev h (by omega)]
        rfl
      · simp only [if_neg hodd, hlast (by omega), Option.bind_eq_bind, Option.bind_some,
          ← Option.bind_assoc, hcarry (nread - 1) prev (by omega) (by omega)]
        rfl

end InPlace

section Stream

/-- Blocks one after another through `dd_swab_buffer`, each with what the buffer holds behind it:
what comes out, and the byte saved at the end. -/
def swabStream (avx2 : Bool) : Option α → List (List α × List α) → Option (List α × Option α)
  | saved, [] => some ([], saved)
  | saved, (block, behind) :: blocks => do
    let (buf, n, saved) ← ddSwabChecked avx2 (block ++ behind) block.length saved
    let (out, saved) ← swabStream avx2 saved blocks
    return (buf.take n ++ out, saved)

theorem swabStream_carry (avx2 : Bool) (saved : Option α) (blocks : List (List α × List α))
    (h : ∀ p ∈ blocks, p.2 ≠ []) : ∃ out saved', swabStream avx2 saved blocks = some (out, saved') ∧
      out ++ saved'.toList = swapPairs (saved.toList ++ blocks.flatMap Prod.fst) := by
  induction blocks generalizing saved with
  | nil =>
    refine ⟨[], saved, rfl, ?_⟩
    cases saved <;> rfl
  | cons p blocks ih =>
    obtain ⟨block, behind⟩ := p
    have hlt : block.length < (block ++ behind).length := by
      have hbehind : behind ≠ [] := h _ List.mem_cons_self
      have := List.length_pos_of_ne_nil hbehind
      rw [List.length_append]
      omega
    rcases hswab : ddSwabBuffer avx2 (block ++ behind) block.length saved with ⟨buf', n', saved₁⟩
    obtain ⟨even, heven, hsplit, htake, -⟩ := ddSwabBuffer_spec avx2 hlt hswab
    rw [List.take_left] at hsplit
    obtain ⟨out, saved', hrun, hout⟩ := ih saved₁ fun q hq => h q (List.mem_cons_of_mem _ hq)
    refine ⟨buf'.take n' ++ out, saved', ?_, ?_⟩
    · rw [swabStream, ddSwabChecked_eq avx2 saved hlt, hswab]
      simp only [Option.bind_eq_bind, Option.bind_some, hrun]
      rfl
    · rw [List.append_assoc, hout, htake, List.flatMap_cons, ← List.append_assoc, hsplit,
        swabScalar_eq, List.append_assoc, ← swapPairs_append _ heven]

/-- However a stream is cut into blocks, it comes out with its pairs exchanged, and with a buffer
that has one byte behind each block no access is out of bounds. -/
theorem swabStream_pairsSwapped (avx2 : Bool) (blocks : List (List α × List α))
    (h : ∀ p ∈ blocks, p.2 ≠ []) : ∃ out saved, swabStream avx2 none blocks = some (out, saved) ∧
      PairsSwapped (blocks.flatMap Prod.fst) (out ++ saved.toList) := by
  obtain ⟨out, saved, hrun, hout⟩ := swabStream_carry avx2 none blocks h
  exact ⟨out, saved, hrun, pairsSwapped_iff.mpr hout⟩

theorem swabStream_pairsSwapped_oddBlocks : ∃ out saved,
    swabStream true none [([1], [0]), ([2, 3], [0]), ([4, 5], [0])] = some (out, saved) ∧
      PairsSwapped [1, 2, 3, 4, 5] (out ++ saved.toList) :=
  swabStream_pairsSwapped true [([1], [0]), ([2, 3], [0]), ([4, 5], [0])] (by decide)

end Stream

end Blkcp.C
