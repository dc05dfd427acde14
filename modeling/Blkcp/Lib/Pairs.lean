import Mathlib.Data.List.Basic
import Mathlib.Data.Nat.Init
set_option autoImplicit false

/-! Exchanging the neighbours of a sequence pair by pair, at once or block by block. -/

namespace Blkcp.Lib

variable {α : Type}

/-- The elements `2 * k` and `2 * k + 1` are exchanged; the last of an odd number stays. -/
structure PairsSwapped (stream out : List α) : Prop where
  length_eq : out.length = stream.length
  even : ∀ k, 2 * k + 1 < stream.length → out[2 * k]? = stream[2 * k + 1]?
  odd : ∀ k, 2 * k + 1 < stream.length → out[2 * k + 1]? = stream[2 * k]?
  last : ∀ k, 2 * k + 1 = stream.length → out[2 * k]? = stream[2 * k]?

theorem PairsSwapped.unique {stream out out' : List α} (h : PairsSwapped stream out)
    (h' : PairsSwapped stream out') : out = out' := by
  refine List.ext_getElem? fun i => ?_
  by_cases hi : i < stream.length
  · obtain ⟨k, rfl | rfl⟩ : ∃ k, i = 2 * k ∨ i = 2 * k + 1 := ⟨i / 2, by omega⟩
    · by_cases hlast : 2 * k + 1 = stream.length
      · rw [h.last k hlast, h'.last k hlast]
      · rw [h.even k (by omega), h'.even k (by omega)]
    · rw [h.odd k hi, h'.odd k hi]
  · rw [List.getElem?_eq_none (by rw [h.length_eq]; omega),
      List.getElem?_eq_none (by rw [h'.length_eq]; omega)]

def swapPairs : List α → List α
  | a :: b :: rest => b :: a :: swapPairs rest
  | short => short

@[simp] theorem length_swapPairs (xs : List α) : (swapPairs xs).length = xs.length := by
  induction xs using swapPairs.induct with
  | case1 a b rest ih => simp [swapPairs, ih]
  | case2 short h =>
    match short, h with
    | [], _ => rfl
    | [a], _ => rfl
    | a :: b :: rest, h => exact absurd rfl (h a b rest)

theorem swapPairs_append {xs : List α} (ys : List α) (h : xs.length % 2 = 0) :
    swapPairs (xs ++ ys) = swapPairs xs ++ swapPairs ys := by
  induction xs using swapPairs.induct with
  | case1 a b rest ih =>
    have hrest : rest.length % 2 = 0 := by
      simp only [List.length_cons] at h
      omega
    simp only [List.cons_append, swapPairs, ih hrest]
  | case2 short hshort =>
    match short, hshort with
    | [], _ => rfl
    | [a], _ => simp at h
    | a :: b :: rest, hshort => exact absurd rfl (hshort a b rest)

theorem getElem?_swapPairs (xs : List α) {k : Nat} (h : 2 * k + 1 < xs.length) :
    (swapPairs xs)[2 * k]? = xs[2 * k + 1]? ∧ (swapPairs xs)[2 * k + 1]? = xs[2 * k]? := by
  induction xs using swapPairs.induct generalizing k with
  | case1 a b rest ih =>
    cases k with
    | zero => exact ⟨rfl, rfl⟩
    | succ k =>
      have := ih (k := k) (by simp only [List.length_cons] at h; omega)
      simpa only [swapPairs, Nat.mul_succ, List.getElem?_cons_succ] using this
  | case2 short hshort =>
    match short, hshort with
    | [], _ => simp at h
    | [a], _ => simp at h
    | a :: b :: rest, hshort => exact absurd rfl (hshort a b rest)

theorem getElem?_swapPairs_last (xs : List α) {k : Nat} (h : 2 * k + 1 = xs.length) :
    (swapPairs xs)[2 * k]? = xs[2 * k]? := by
  have hsplit : swapPairs xs = swapPairs (xs.take (2 * k)) ++ swapPairs (xs.drop (2 * k)) := by
    have heven : (xs.take (2 * k)).length % 2 = 0 := by
      rw [List.length_take]
      omega
    rw [← swapPairs_append _ heven, List.take_append_drop]
  have hone : ∃ a, xs.drop (2 * k) = [a] := List.length_eq_one_iff.mp (by
    rw [List.length_drop]
    omega)
  obtain ⟨a, ha⟩ := hone
  have hlen : (swapPairs (xs.take (2 * k))).length = 2 * k := by
    rw [length_swapPairs, List.length_take]
    omega
  have hxs : xs[2 * k]? = some a := by
    rw [← Nat.add_zero (2 * k), ← List.getElem?_drop, ha]
    rfl
  rw [hsplit, ha, List.getElem?_append_right (by omega), hlen, Nat.sub_self, hxs]
  rfl

theorem pairsSwapped_swapPairs (xs : List α) : PairsSwapped xs (swapPairs xs) where
  length_eq := length_swapPairs xs
  even _ h := (getElem?_swapPairs xs h).1
  odd _ h := (getElem?_swapPairs xs h).2
  last _ h := getElem?_swapPairs_last xs h

theorem pairsSwapped_iff {xs ys : List α} : PairsSwapped xs ys ↔ ys = swapPairs xs := by
  constructor
  · intro h
    exact h.unique (pairsSwapped_swapPairs xs)
  · rintro rfl
    exact pairsSwapped_swapPairs xs

section Blocks

/-- Blocks behind an element that lost its partner repeat it, up to the next even place. -/
def Unbroken : Option α → List (List α) → Prop
  | _, [] => True
  | none, b :: bs => Unbroken (if b.length % 2 = 1 then b.getLast? else none) bs
  | some x, b :: bs => (∀ y ∈ b, y = x) ∧ Unbroken (if b.length % 2 = 1 then none else some x) bs

theorem swapPairs_replicate (n : Nat) (x : α) :
    swapPairs (List.replicate n x) = List.replicate n x := by
  induction n using Nat.twoStepInduction with
  | zero => rfl
  | one => rfl
  | more n ih _ =>
    simp only [List.replicate_succ, swapPairs, ih]

/-- A pair cut open in front of a block can only be right if the block repeats one element. -/
theorem eq_of_swapPairs_cons {x : α} {b t u : List α}
    (h : x :: (swapPairs b ++ t) = swapPairs (x :: (b ++ u))) : ∀ y ∈ b, y = x := by
  induction b using swapPairs.induct with
  | case1 y z rest ih =>
    simp only [swapPairs, List.cons_append, List.cons.injEq] at h
    obtain ⟨rfl, rfl, h⟩ := h
    have hrest := ih h
    simpa using hrest
  | case2 short hshort =>
    match short, hshort with
    | [], _ => nofun
    | [y], _ =>
      simp only [swapPairs, List.cons_append, List.nil_append, List.cons.injEq] at h
      simpa using h.1.symm
    | y :: z :: rest, hshort => exact absurd rfl (hshort y z rest)

theorem flatMap_swapPairs_carry (carry : Option α) (blocks : List (List α)) :
    carry.toList ++ blocks.flatMap swapPairs = swapPairs (carry.toList ++ blocks.flatten) ↔
      Unbroken carry blocks := by
  induction blocks generalizing carry with
  | nil => cases carry <;> simp [Unbroken, swapPairs]
  | cons b bs ih =>
    rw [List.flatMap_cons, List.flatten_cons]
    cases carry with
    | none =>
      simp only [Option.toList_none, List.nil_append, Unbroken]
      rw [← ih]
      by_cases hodd : b.length % 2 = 1
      · obtain ⟨a, x, rfl⟩ : ∃ a x, b = a ++ [x] :=
          ⟨_, _, (List.dropLast_append_getLast (List.ne_nil_of_length_pos (by omega))).symm⟩
        have heven : a.length % 2 = 0 := by
          rw [List.length_append, List.length_singleton] at hodd
          omega
        rw [if_pos hodd, List.getLast?_concat, swapPairs_append _ heven, List.append_assoc a,
          swapPairs_append _ heven, List.append_assoc, List.append_cancel_left_eq]
        rfl
      · rw [if_neg hodd, swapPairs_append _ (by omega), List.append_cancel_left_eq]
        rfl
    | some x =>
      simp only [Option.toList_some, Unbroken, List.cons_append, List.nil_append]
      by_cases hall : ∀ y ∈ b, y = x
      · rw [and_iff_right hall]
        obtain ⟨n, rfl⟩ : ∃ n, b = List.replicate n x := ⟨_, List.eq_replicate_iff.mpr ⟨rfl, hall⟩⟩
        rw [List.length_replicate, swapPairs_replicate, ← ih, ← List.cons_append,
          ← List.cons_append, ← List.replicate_succ]
        by_cases hodd : n % 2 = 1
        · have heven : (List.replicate (n + 1) x).length % 2 = 0 := by
            rw [List.length_replicate]
            omega
          rw [if_pos hodd, swapPairs_append _ heven, swapPairs_replicate,
            List.append_cancel_left_eq]
          rfl
        · have heven : (List.replicate n x).length % 2 = 0 := by
            rw [List.length_replicate]
            omega
          rw [if_neg hodd, List.replicate_succ', List.append_assoc, List.append_assoc,
            swapPairs_append _ heven, swapPairs_replicate, List.append_cancel_left_eq]
          rfl
      · simp only [hall, false_and, iff_false]
        exact fun h => hall (eq_of_swapPairs_cons h)

/-- Blocks swapped one by one give the stream swapped exactly if no pair is cut, except where the
bytes repeat. -/
theorem flatMap_swapPairs_iff (blocks : List (List α)) :
    PairsSwapped blocks.flatten (blocks.flatMap swapPairs) ↔ Unbroken none blocks := by
  rw [pairsSwapped_iff]
  exact flatMap_swapPairs_carry none blocks

end Blocks

end Blkcp.Lib
