import Blkcp.Lib.Cut
import Blkcp.Lib.Pairs
set_option autoImplicit false

/-! Byte swapping of the C program (`conversions.c`): the scalar and the vector loop, and the buffer
that carries an odd byte over to the next read. -/

namespace Blkcp.C
open Blkcp.Lib

variable {α : Type}

def swabScalar : List α → List α
  | a :: b :: rest => b :: a :: swabScalar rest
  | short => short

/-- The shuffle mask of one 16-byte lane. -/
def swabMask : List Nat := [1, 0, 3, 2, 5, 4, 7, 6, 9, 8, 11, 10, 13, 12, 15, 14]

def shuffleEpi8 (lane : List α) : List α := swabMask.filterMap fun i => lane[i]?

/-- Both lanes of a 32-byte vector. -/
def shuffleVector (v : List α) : List α := shuffleEpi8 (v.take 16) ++ shuffleEpi8 (v.drop 16)

/-- Four vectors at a time, then one, then a lane, then pairs. -/
def swabAvx2 (buf : List α) : List α :=
  let len := buf.length
  let i := len / 128 * 128
  let j := i + (len - i) / 32 * 32
  let k := if j + 16 ≤ len then j + 16 else j
  ((cut 128 (buf.take i)).flatMap fun v => (cut 32 v).flatMap shuffleVector) ++
    (cut 32 ((buf.drop i).take (j - i))).flatMap shuffleVector ++
    shuffleEpi8 ((buf.drop j).take (k - j)) ++ swabScalar (buf.drop k)

/-- `for (i = n; 1 < i; i -= 2) buf[i] = buf[i - 2]`. -/
def shiftOdd : Nat → List α → List α
  | i + 2, buf =>
    shiftOdd i (match buf[i]? with
      | some b => buf.set (i + 2) b
      | none => buf)
  | _, buf => buf

/-- The buffer afterwards, how much of it counts, and the byte saved. -/
def ddSwabBuffer (avx2 : Bool) (buf : List α) (nread : Nat) (saved : Option α) :
    List α × Nat × Option α :=
  if nread = 0 then (buf, 0, saved)
  else
    match saved with
    | none =>
      let n := if nread % 2 = 1 then nread - 1 else nread
      let saved := if nread % 2 = 1 then buf[nread - 1]? else none
      let swapped := if avx2 then swabAvx2 (buf.take n) else swabScalar (buf.take n)
      (swapped ++ buf.drop n, n, saved)
    | some prev =>
      let n := if nread % 2 = 1 then nread else nread - 1
      let saved := if nread % 2 = 1 then none else buf[nread - 1]?
      ((shiftOdd n buf).set 1 prev, n + 1, saved)

section Scalar

theorem swabScalar_eq (buf : List α) : swabScalar buf = swapPairs buf := by
  induction buf using swabScalar.induct with
  | case1 a b rest ih => rw [swabScalar, swapPairs, ih]
  | case2 short h =>
    rcases short with _ | ⟨a, _ | ⟨b, rest⟩⟩
    · rfl
    · rfl
    · exact absurd rfl (h a b rest)

@[simp] theorem length_swabScalar (buf : List α) : (swabScalar buf).length = buf.length := by
  rw [swabScalar_eq, length_swapPairs]

theorem swabScalar_append {a : List α} (b : List α) (h : a.length % 2 = 0) :
    swabScalar (a ++ b) = swabScalar a ++ swabScalar b := by
  simp only [swabScalar_eq, swapPairs_append b h]

theorem swabScalar_split (buf : List α) {m : Nat} (h : m % 2 = 0) :
    swabScalar buf = swabScalar (buf.take m) ++ swabScalar (buf.drop m) := by
  by_cases hm : m ≤ buf.length
  · rw [← swabScalar_append _ (by rwa [List.length_take, Nat.min_eq_left hm]),
      List.take_append_drop]
  · rw [List.take_of_length_le (by omega), List.drop_of_length_le (by omega)]
    exact (List.append_nil _).symm

theorem getElem?_swabScalar (buf : List α) {k : Nat} (h : 2 * k + 1 < buf.length) :
    (swabScalar buf)[2 * k]? = buf[2 * k + 1]? ∧ (swabScalar buf)[2 * k + 1]? = buf[2 * k]? := by
  rw [swabScalar_eq]
  exact getElem?_swapPairs buf h

/-- Pieces of even length are swapped one by one. -/
theorem flatMap_swabScalar {f : List α → List α} (xs : List (List α))
    (h : ∀ x ∈ xs, x.length % 2 = 0 ∧ f x = swabScalar x) :
    xs.flatMap f = swabScalar xs.flatten := by
  induction xs with
  | nil => rfl
  | cons x xs ih =>
    obtain ⟨heven, hf⟩ := h x List.mem_cons_self
    rw [List.flatMap_cons, List.flatten_cons, swabScalar_append _ heven, hf,
      ih fun y hy => h y (List.mem_cons_of_mem x hy)]

end Scalar

section Vector

theorem shuffleEpi8_eq (lane : List α) (h : lane.length = 16) :
    shuffleEpi8 lane = swabScalar lane := by
  match lane, h with
  | [_, _, _, _, _, _, _, _, _, _, _, _, _, _, _, _], _ => rfl

theorem shuffleVector_eq (v : List α) (h : v.length = 32) : shuffleVector v = swabScalar v := by
  have htake : (v.take 16).length = 16 := by rw [List.length_take]; omega
  have hdrop : (v.drop 16).length = 16 := by rw [List.length_drop]; omega
  rw [shuffleVector, shuffleEpi8_eq _ htake, shuffleEpi8_eq _ hdrop,
    ← swabScalar_append _ (by omega), List.take_append_drop]

theorem flatMap_shuffleVector (buf : List α) (h : 32 ∣ buf.length) :
    (cut 32 buf).flatMap shuffleVector = swabScalar buf := by
  rw [flatMap_swabScalar (f := shuffleVector) _ fun v hv => ?_, flatten_cut (by decide)]
  have hv := length_of_mem_cut (by decide) h hv
  exact ⟨by omega, shuffleVector_eq v hv⟩

/-- The vector loop exchanges the pairs that the scalar loop does. -/
theorem swabAvx2_eq (buf : List α) : swabAvx2 buf = swabScalar buf := by
  simp only [swabAvx2]
  generalize hi : buf.length / 128 * 128 = i
  generalize hj : i + (buf.length - i) / 32 * 32 = j
  generalize hk : (if j + 16 ≤ buf.length then j + 16 else j) = k
  have hile : i ≤ buf.length := by omega
  have hjle : j ≤ buf.length := by omega
  have hjk : k = j ∨ k = j + 16 ∧ k ≤ buf.length := by
    rw [← hk]
    split <;> omega
  have hfour : (cut 128 (buf.take i)).flatMap (fun v => (cut 32 v).flatMap shuffleVector) =
      swabScalar (buf.take i) := by
    rw [flatMap_swabScalar (f := fun v => (cut 32 v).flatMap shuffleVector) _ fun v hv => ?_,
      flatten_cut (by decide)]
    have hdvd : 128 ∣ (buf.take i).length := by
      rw [List.length_take, Nat.min_eq_left hile]
      omega
    have hv := length_of_mem_cut (by decide) hdvd hv
    exact ⟨by omega, flatMap_shuffleVector v (by omega)⟩
  have hone : (cut 32 ((buf.drop i).take (j - i))).flatMap shuffleVector =
      swabScalar ((buf.drop i).take (j - i)) := by
    refine flatMap_shuffleVector _ ?_
    rw [List.length_take, List.length_drop]
    omega
  have hlane : shuffleEpi8 ((buf.drop j).take (k - j)) =
      swabScalar ((buf.drop j).take (k - j)) := by
    rcases hjk with hjk | ⟨hjk, hkle⟩
    · rw [hjk, Nat.sub_self, List.take_zero]
      rfl
    · refine shuffleEpi8_eq _ ?_
      rw [List.length_take, List.length_drop]
      omega
  have hij : i + (j - i) = j := by omega
  have hjk' : j + (k - j) = k := by omega
  rw [hfour, hone, hlane, swabScalar_split buf (show i % 2 = 0 by omega),
    swabScalar_split (buf.drop i) (show (j - i) % 2 = 0 by omega), List.drop_drop, hij,
    swabScalar_split (buf.drop j) (show (k - j) % 2 = 0 by omega), List.drop_drop, hjk']
  simp only [List.append_assoc]

end Vector

section Carry

/-- An odd number of bytes, each second one moved up by two. -/
theorem getElem?_shiftOdd (n : Nat) (buf : List α) (h : n < buf.length) (j : Nat) :
    (shiftOdd n buf)[j]? =
      if 2 ≤ j ∧ j ≤ n ∧ j % 2 = n % 2 then buf[j - 2]? else buf[j]? := by
  induction n using Nat.twoStepInduction generalizing buf with
  | zero =>
    rw [if_neg (by omega)]
    rfl
  | one =>
    rw [if_neg (by omega)]
    rfl
  | more n ih _ =>
    have hn : n < buf.length := by omega
    rw [shiftOdd, List.getElem?_eq_getElem hn, ih _ (by rw [List.length_set]; omega)]
    by_cases hin : 2 ≤ j ∧ j ≤ n ∧ j % 2 = n % 2
    · rw [if_pos hin, if_pos (by omega), List.getElem?_set_ne (by omega)]
    · rw [if_neg hin]
      by_cases hj : j = n + 2
      · rw [if_pos (by omega), hj, List.getElem?_set_self h, Nat.add_sub_cancel,
          List.getElem?_eq_getElem hn]
      · rw [if_neg (by omega), List.getElem?_set_ne (by omega)]

theorem length_shiftOdd (n : Nat) (buf : List α) : (shiftOdd n buf).length = buf.length := by
  induction n using Nat.twoStepInduction generalizing buf with
  | zero => rfl
  | one => rfl
  | more n ih _ =>
    rw [shiftOdd, ih]
    split <;> simp

/-- The carried byte and an odd number of bytes behind it, swapped. -/
theorem take_carry {buf : List α} {n : Nat} (prev : α) (hn : n % 2 = 1) (h : n < buf.length) :
    ((shiftOdd n buf).set 1 prev).take (n + 1) = swabScalar (prev :: buf.take n) := by
  refine List.ext_getElem? fun j => ?_
  by_cases hj : j < n + 1
  · rw [List.getElem?_take_of_lt hj]
    have hlen : (prev :: buf.take n).length = n + 1 := by
      rw [List.length_cons, List.length_take, Nat.min_eq_left (by omega)]
    by_cases hodd : j % 2 = 1
    · obtain ⟨k, rfl⟩ : ∃ k, j = 2 * k + 1 := ⟨j / 2, by omega⟩
      rw [(getElem?_swabScalar (prev :: buf.take n) (by omega)).2]
      cases k with
      | zero => rw [List.getElem?_set_self (by rw [length_shiftOdd]; omega)]; rfl
      | succ k =>
        rw [List.getElem?_set_ne (by omega), getElem?_shiftOdd n buf h, if_pos (by omega),
          Nat.mul_succ, List.getElem?_cons_succ, List.getElem?_take_of_lt (by omega)]
        rfl
    · obtain ⟨k, rfl⟩ : ∃ k, j = 2 * k := ⟨j / 2, by omega⟩
      rw [(getElem?_swabScalar (prev :: buf.take n) (by omega)).1,
        List.getElem?_set_ne (by omega), getElem?_shiftOdd n buf h, if_neg (by omega),
        List.getElem?_cons_succ, List.getElem?_take_of_lt (by omega)]
  · rw [List.getElem?_eq_none (by rw [List.length_take]; omega),
      List.getElem?_eq_none (by
        rw [length_swabScalar, List.length_cons, List.length_take]; omega)]

theorem length_swabLoop (avx2 : Bool) (buf : List α) :
    (if avx2 then swabAvx2 buf else swabScalar buf).length = buf.length := by
  split
  · rw [swabAvx2_eq, length_swabScalar]
  · exact length_swabScalar buf

/-- The buffer keeps its size. -/
theorem length_ddSwabBuffer (avx2 : Bool) (buf : List α) (nread : Nat) (saved : Option α) :
    (ddSwabBuffer avx2 buf nread saved).1.length = buf.length := by
  simp only [ddSwabBuffer]
  split
  · rfl
  · cases saved with
    | none =>
      simp only [List.length_append, length_swabLoop, List.length_take, List.length_drop]
      omega
    | some prev => simp only [List.length_set, length_shiftOdd]

/-- A block of a stream is swapped behind the byte carried over; the new byte carried is the odd one
at the end. -/
theorem ddSwabBuffer_spec (avx2 : Bool) {buf buf' : List α} {nread n' : Nat}
    {saved saved' : Option α} (h : nread < buf.length)
    (hswab : ddSwabBuffer avx2 buf nread saved = (buf', n', saved')) :
    ∃ even, even.length % 2 = 0 ∧
      saved.toList ++ buf.take nread = even ++ saved'.toList ∧ buf'.take n' = swabScalar even ∧
      n' = even.length := by
  have hloop : ∀ xs : List α, (if avx2 then swabAvx2 xs else swabScalar xs) = swabScalar xs := by
    intro xs
    rw [swabAvx2_eq, ite_self]
  have hlast : 0 < nread → buf.take nread = buf.take (nread - 1) ++ buf[nread - 1]?.toList := by
    intro hpos
    conv_lhs => rw [show nread = nread - 1 + 1 by omega]
    rw [List.take_add_one]
  simp only [ddSwabBuffer] at hswab
  split at hswab
  · rename_i hzero
    obtain ⟨rfl, rfl, rfl⟩ : buf = buf' ∧ 0 = n' ∧ saved = saved' := by simpa using hswab
    subst hzero
    exact ⟨[], rfl, by simp, rfl, rfl⟩
  · rename_i hpos
    have hlast' := hlast (by omega)
    cases saved with
    | none =>
      simp only [hloop, Prod.mk.injEq] at hswab
      obtain ⟨rfl, rfl, rfl⟩ := hswab
      have htake : ∀ m, m ≤ nread →
          (swabScalar (buf.take m) ++ buf.drop m).take m = swabScalar (buf.take m) ∧
            m = (buf.take m).length := by
        intro m hm
        have hmin : min m buf.length = m := Nat.min_eq_left (by omega)
        refine ⟨?_, by rw [List.length_take, hmin]⟩
        rw [List.take_left' (by rw [length_swabScalar, List.length_take, hmin])]
      by_cases hodd : nread % 2 = 1
      · simp only [if_pos hodd]
        obtain ⟨hswapped, hlen⟩ := htake (nread - 1) (by omega)
        refine ⟨buf.take (nread - 1), by omega, ?_, hswapped, hlen⟩
        rw [Option.toList_none, List.nil_append, hlast']
      · simp only [if_neg hodd]
        obtain ⟨hswapped, hlen⟩ := htake nread (Nat.le_refl _)
        exact ⟨buf.take nread, by omega, by simp, hswapped, hlen⟩
    | some prev =>
      simp only [Prod.mk.injEq] at hswab
      obtain ⟨rfl, rfl, rfl⟩ := hswab
      by_cases hodd : nread % 2 = 1
      · simp only [if_pos hodd]
        refine ⟨prev :: buf.take nread, ?_, by simp, take_carry prev hodd h, ?_⟩
        · rw [List.length_cons, List.length_take]
          omega
        · rw [List.length_cons, List.length_take]
          omega
      · simp only [if_neg hodd]
        refine ⟨prev :: buf.take (nread - 1), ?_, ?_, take_carry prev (by omega) (by omega), ?_⟩
        · rw [List.length_cons, List.length_take]
          omega
        · rw [Option.toList_some, List.cons_append, List.nil_append, List.cons_append, hlast']
        · rw [List.length_cons, List.length_take]
          omega

end Carry

end Blkcp.C
