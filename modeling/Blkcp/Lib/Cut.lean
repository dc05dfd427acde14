import Mathlib.Data.List.Basic
import Mathlib.Data.Nat.Basic
import Mathlib.Tactic.Ring
set_option autoImplicit false

/-! Cutting a list into consecutive pieces of one length, the last one possibly shorter. -/

namespace Blkcp.Lib

variable {α β : Type}

def cut (n : Nat) (xs : List α) : List (List α) :=
  if _h : n = 0 ∨ xs = [] then [] else xs.take n :: cut n (xs.drop n)
termination_by xs.length
decreasing_by
  have hx : 0 < xs.length := List.length_pos_of_ne_nil (fun e => _h (.inr e))
  have hn : 0 < n := Nat.pos_of_ne_zero (fun e => _h (.inl e))
  rw [List.length_drop]
  omega

@[simp] theorem cut_nil (n : Nat) : cut n ([] : List α) = [] := by
  rw [cut]; simp

theorem cut_of_ne_nil {n : Nat} {xs : List α} (hn : 0 < n) (hx : xs ≠ []) :
    cut n xs = xs.take n :: cut n (xs.drop n) := by
  rw [cut]
  have h : ¬ (n = 0 ∨ xs = []) := by
    rintro (h | h)
    · omega
    · exact hx h
  simp [h]

theorem cut_of_le {n : Nat} {xs : List α} (hx : xs ≠ []) (h : xs.length ≤ n) :
    cut n xs = [xs] := by
  have hn : 0 < n := Nat.lt_of_lt_of_le (List.length_pos_of_ne_nil hx) h
  rw [cut_of_ne_nil hn hx, List.take_of_length_le h, List.drop_of_length_le h, cut_nil]

/-- The recursion of `cut`, as an induction rule on lists. -/
theorem cut_induction {n : Nat} (hn : 0 < n) {P : List α → Prop} (nil : P [])
    (piece : ∀ xs, xs ≠ [] → P (xs.drop n) → P xs) (xs : List α) : P xs := by
  induction h : xs.length using Nat.strong_induction_on generalizing xs with
  | _ len ih =>
    by_cases hx : xs = []
    · subst hx; exact nil
    · have hpos := List.length_pos_of_ne_nil hx
      refine piece xs hx (ih (xs.drop n).length ?_ (xs.drop n) rfl)
      rw [List.length_drop]; omega

theorem flatten_cut {n : Nat} (hn : 0 < n) (xs : List α) : (cut n xs).flatten = xs := by
  induction xs using cut_induction hn with
  | nil => simp
  | piece xs hx ih => rw [cut_of_ne_nil hn hx, List.flatten_cons, ih, List.take_append_drop]

theorem mem_cut {n : Nat} (hn : 0 < n) {xs p : List α} (hp : p ∈ cut n xs) :
    p ≠ [] ∧ p.length ≤ n := by
  induction xs using cut_induction hn with
  | nil => simp at hp
  | piece xs hx ih =>
    rw [cut_of_ne_nil hn hx, List.mem_cons] at hp
    rcases hp with rfl | hp
    · refine ⟨?_, List.length_take_le n xs⟩
      simp only [ne_eq, List.take_eq_nil_iff, not_or]
      exact ⟨by omega, hx⟩
    · exact ih hp

/-- A list of whole pieces. -/
theorem length_of_mem_cut {n : Nat} (hn : 0 < n) {xs p : List α} (h : n ∣ xs.length)
    (hp : p ∈ cut n xs) : p.length = n := by
  induction xs using cut_induction hn with
  | nil => simp at hp
  | piece xs hx ih =>
    have hle := Nat.le_of_dvd (List.length_pos_of_ne_nil hx) h
    rw [cut_of_ne_nil hn hx, List.mem_cons] at hp
    rcases hp with rfl | hp
    · rw [List.length_take, Nat.min_eq_left hle]
    · refine ih ?_ hp
      rw [List.length_drop]
      exact Nat.dvd_sub h (Nat.dvd_refl n)

theorem cut_eq_nil_iff {n : Nat} (hn : 0 < n) {xs : List α} : cut n xs = [] ↔ xs = [] := by
  constructor
  · intro h
    rw [← flatten_cut hn xs, h, List.flatten_nil]
  · rintro rfl
    exact cut_nil n

theorem cut_append {n : Nat} (hn : 0 < n) (xs ys : List α) (h : n ∣ xs.length) :
    cut n (xs ++ ys) = cut n xs ++ cut n ys := by
  induction xs using cut_induction hn with
  | nil => simp
  | piece xs hx ih =>
    have hlen : n ≤ xs.length := Nat.le_of_dvd (List.length_pos_of_ne_nil hx) h
    have hdvd : n ∣ (xs.drop n).length := by
      rw [List.length_drop]; exact Nat.dvd_sub h (Nat.dvd_refl n)
    rw [cut_of_ne_nil hn (by simp [hx]), cut_of_ne_nil hn hx, List.take_append_of_le_length hlen,
      List.drop_append_of_le_length hlen, ih hdvd, List.cons_append]

/-- One more full piece of `xs` adds that piece. -/
theorem cut_take_succ {n : Nat} (hn : 0 < n) (k : Nat) (xs : List α)
    (h : (k + 1) * n ≤ xs.length) :
    cut n (xs.take ((k + 1) * n)) = cut n (xs.take (k * n)) ++ [(xs.drop (k * n)).take n] := by
  rw [Nat.succ_mul] at h ⊢
  have hlen : ((xs.drop (k * n)).take n).length = n := by
    rw [List.length_take, List.length_drop]; omega
  have hne : (xs.drop (k * n)).take n ≠ [] := by
    intro he
    rw [he, List.length_nil] at hlen
    omega
  rw [List.take_add, cut_append hn, cut_of_le hne (by omega)]
  rw [List.length_take, Nat.min_eq_left (by omega)]
  exact Nat.dvd_mul_left n k

/-- The full pieces of `xs`, and what is left when its length is no multiple of `n`. -/
theorem cut_eq_append_tail {n : Nat} (hn : 0 < n) (xs : List α) :
    cut n xs = cut n (xs.take (xs.length / n * n)) ++
      if xs.length / n * n < xs.length then [xs.drop (xs.length / n * n)] else [] := by
  have hf : xs.length / n * n ≤ xs.length := Nat.div_mul_le_self _ _
  have hrest : xs.length < xs.length / n * n + n := Nat.lt_div_mul_add hn
  have hdvd : n ∣ xs.length / n * n := Nat.dvd_mul_left _ _
  generalize xs.length / n * n = tail at hf hrest hdvd ⊢
  conv_lhs => rw [← List.take_append_drop tail xs,
    cut_append hn _ _ (by rw [List.length_take, Nat.min_eq_left hf]; exact hdvd)]
  by_cases ht : tail < xs.length
  · have hne : xs.drop tail ≠ [] := by
      intro hd
      have := List.drop_eq_nil_iff.mp hd
      omega
    rw [if_pos ht, cut_of_le hne (by rw [List.length_drop]; omega)]
  · rw [if_neg ht, List.drop_of_length_le (by omega), cut_nil]

theorem cut_map (f : α → β) {n : Nat} (hn : 0 < n) (xs : List α) :
    cut n (xs.map f) = (cut n xs).map (List.map f) := by
  induction xs using cut_induction hn with
  | nil => simp
  | piece xs hx ih =>
    rw [cut_of_ne_nil hn (by simpa using hx), cut_of_ne_nil hn hx, List.map_cons, ← ih,
      List.map_take, List.map_drop]

theorem take_cut {n : Nat} (hn : 0 < n) (m : Nat) (xs : List α) :
    (cut n xs).take m = cut n (xs.take (n * m)) := by
  induction m generalizing xs with
  | zero => simp
  | succ m ih =>
    by_cases hx : xs = []
    · simp [hx]
    · have hle : n ≤ n * (m + 1) := Nat.le_mul_of_pos_right n (by omega)
      have hne : xs.take (n * (m + 1)) ≠ [] := by
        simp [hx]
        omega
      rw [cut_of_ne_nil hn hx, cut_of_ne_nil hn hne, List.take_succ_cons, ih, List.take_take,
        Nat.min_eq_left hle, List.drop_take]
      simp [Nat.mul_succ]

theorem drop_cut {n : Nat} (hn : 0 < n) (m : Nat) (xs : List α) :
    (cut n xs).drop m = cut n (xs.drop (n * m)) := by
  induction m generalizing xs with
  | zero => simp
  | succ m ih =>
    by_cases hx : xs = []
    · simp [hx]
    · rw [cut_of_ne_nil hn hx, List.drop_succ_cons, ih, List.drop_drop]
      congr 2
      ring

/-- Cutting into pieces of `n * m` and each of these into pieces of `n` groups the pieces of `n`
by `m`. -/
theorem cut_cut {n m : Nat} (hn : 0 < n) (hm : 0 < m) (xs : List α) :
    (cut (n * m) xs).map (cut n) = cut m (cut n xs) := by
  have hnm : 0 < n * m := Nat.mul_pos hn hm
  induction xs using cut_induction hnm with
  | nil => simp
  | piece xs hx ih =>
    have hc : cut n xs ≠ [] := fun h => hx ((cut_eq_nil_iff hn).mp h)
    rw [cut_of_ne_nil hnm hx, List.map_cons, ih, cut_of_ne_nil hm hc, take_cut hn, drop_cut hn]

theorem length_cut {n : Nat} (hn : 0 < n) (xs : List α) :
    (cut n xs).length = (xs.length + n - 1) / n := by
  induction xs using cut_induction hn with
  | nil => simp [Nat.div_eq_of_lt (show n - 1 < n by omega)]
  | piece xs hx ih =>
    have hpos := List.length_pos_of_ne_nil hx
    rw [cut_of_ne_nil hn hx, List.length_cons, ih, List.length_drop]
    by_cases hle : xs.length ≤ n
    · rw [Nat.sub_eq_zero_of_le hle, Nat.div_eq_of_lt (by omega)]
      rw [show xs.length + n - 1 = (xs.length - 1) + n by omega, Nat.add_div_right _ hn,
        Nat.div_eq_of_lt (by omega)]
    · rw [show xs.length + n - 1 = (xs.length - n + n - 1) + n by omega, Nat.add_div_right _ hn]

end Blkcp.Lib
