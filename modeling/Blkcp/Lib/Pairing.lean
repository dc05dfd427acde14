import Mathlib.Logic.Function.Iterate
import Blkcp.Lib.Cut
set_option autoImplicit false

/-! Level-by-level reduction of a list by adjacent pairs, an odd last element being promoted. -/

namespace Blkcp.Lib

variable {α β : Type}

def pairUp (f : α → α → α) : List α → List α
  | a :: b :: rest => f a b :: pairUp f rest
  | short => short

theorem length_pairUp (f : α → α → α) (xs : List α) :
    (pairUp f xs).length = (xs.length + 1) / 2 := by
  induction xs using pairUp.induct with
  | case1 a b rest ih => simp only [pairUp, List.length_cons, ih]; omega
  | case2 short h =>
    match short, h with
    | [], _ => simp [pairUp]
    | [a], _ => simp [pairUp]
    | a :: b :: rest, h => exact absurd rfl (h a b rest)

theorem pairUp_append (f : α → α → α) (xs ys : List α) (h : xs.length % 2 = 0) :
    pairUp f (xs ++ ys) = pairUp f xs ++ pairUp f ys := by
  induction xs using pairUp.induct with
  | case1 a b rest ih =>
    simp only [List.length_cons] at h
    simp only [List.cons_append, pairUp, ih (by omega)]
  | case2 short hs =>
    match short, hs with
    | [], _ => simp [pairUp]
    | [a], _ => simp at h
    | a :: b :: rest, hs => exact absurd rfl (hs a b rest)

theorem pairUp_map {f : α → α → α} {g : β → β → β} {h : α → β}
    (hom : ∀ a b, h (f a b) = g (h a) (h b)) (xs : List α) :
    (pairUp f xs).map h = pairUp g (xs.map h) := by
  induction xs using pairUp.induct with
  | case1 a b rest ih => simp only [pairUp, List.map_cons, hom, ih]
  | case2 short hs =>
    match short, hs with
    | [], _ => rfl
    | [a], _ => rfl
    | a :: b :: rest, hs => exact absurd rfl (hs a b rest)

/-- Reduce to one element. The flag reaches `f` only where two elements are left. -/
def treeReduce (f : Bool → α → α → α) (root : Bool) : List α → Option α
  | [] => none
  | [a] => some a
  | a :: b :: rest =>
    treeReduce f root (pairUp (f (root && rest.length == 0)) (a :: b :: rest))
termination_by xs => xs.length
decreasing_by
  simp only [length_pairUp, List.length_cons]
  omega

@[simp] theorem treeReduce_single (f : Bool → α → α → α) (root : Bool) (a : α) :
    treeReduce f root [a] = some a := by rw [treeReduce]

theorem treeReduce_pair (f : Bool → α → α → α) (root : Bool) (a b : α) :
    treeReduce f root [a, b] = some (f root a b) := by
  rw [treeReduce]; simp [pairUp]

theorem treeReduce_level (f : Bool → α → α → α) (root : Bool) (xs : List α)
    (h : 2 ≤ xs.length) :
    treeReduce f root xs = treeReduce f root (pairUp (f (root && xs.length == 2)) xs) := by
  match xs, h with
  | a :: b :: rest, _ =>
    rw [treeReduce]
    simp

theorem treeReduce_isSome (f : Bool → α → α → α) (root : Bool) (xs : List α) (h : xs ≠ []) :
    (treeReduce f root xs).isSome := by
  induction xs using treeReduce.induct f root with
  | case1 => exact absurd rfl h
  | case2 a => simp
  | case3 a b rest ih =>
    rw [treeReduce]
    exact ih (by simp [pairUp])

section Levels

variable (f : Bool → α → α → α)

theorem treeReduce_false_level (xs : List α) :
    treeReduce f false (pairUp (f false) xs) = treeReduce f false xs := by
  match xs with
  | [] => rfl
  | [a] => rfl
  | a :: b :: rest => rw [treeReduce_level f false (a :: b :: rest) (by simp)]; simp

/-- `k` levels reduce at most `2 ^ k` elements to one. -/
theorem levels_of_le (k : Nat) (xs : List α) (hx : xs ≠ []) (h : xs.length ≤ 2 ^ k) :
    ((pairUp (f false))^[k] xs).map some = [treeReduce f false xs] := by
  induction k generalizing xs with
  | zero =>
    match xs, hx, h with
    | [a], _, _ => simp
    | a :: b :: rest, _, h => simp at h
  | succ k ih =>
    rw [Function.iterate_succ_apply, ih, treeReduce_false_level]
    · intro he
      have hl := length_pairUp (f false) xs
      have hpos := List.length_pos_of_ne_nil hx
      rw [he, List.length_nil] at hl
      omega
    · rw [length_pairUp]
      rw [Nat.pow_succ] at h
      omega

/-- Below the root level the flag is off, so `k` levels of more than `2 ^ k` elements do not
depend on it. -/
theorem treeReduce_levels (root : Bool) (k : Nat) (xs : List α) (h : 2 ^ k < xs.length) :
    treeReduce f root ((pairUp (f false))^[k] xs) = treeReduce f root xs := by
  induction k generalizing xs with
  | zero => rfl
  | succ k ih =>
    have hk := Nat.one_le_two_pow (n := k)
    rw [Nat.pow_succ] at h
    have hne : (xs.length == 2) = false := by simp; omega
    rw [Function.iterate_succ_apply, ih, treeReduce_level f root xs (by omega), hne,
      Bool.and_false]
    rw [length_pairUp]
    omega

theorem levels_append (k : Nat) (xs ys : List α) (h : 2 ^ k ∣ xs.length) :
    (pairUp (f false))^[k] (xs ++ ys) =
      (pairUp (f false))^[k] xs ++ (pairUp (f false))^[k] ys := by
  induction k generalizing xs ys with
  | zero => rfl
  | succ k ih =>
    obtain ⟨q, hq⟩ := h
    rw [Nat.pow_succ, Nat.mul_right_comm] at hq
    rw [Function.iterate_succ_apply, Function.iterate_succ_apply, Function.iterate_succ_apply,
      pairUp_append _ _ _ (by omega), ih]
    rw [length_pairUp, hq]
    exact ⟨q, by omega⟩

theorem levels_cut (k : Nat) (xs : List α) :
    (pairUp (f false))^[k] xs = ((cut (2 ^ k) xs).map (pairUp (f false))^[k]).flatten := by
  have hk := Nat.two_pow_pos k
  induction xs using cut_induction hk with
  | nil =>
    have hnil : pairUp (f false) [] = [] := rfl
    simp [Function.iterate_fixed hnil]
  | piece xs hx ih =>
    by_cases hle : xs.length ≤ 2 ^ k
    · simp [cut_of_le hx hle]
    · rw [cut_of_ne_nil hk hx, List.map_cons, List.flatten_cons, ← ih, ← levels_append,
        List.take_append_drop]
      rw [List.length_take, Nat.min_eq_left (by omega)]

/-- Reducing aligned groups of `2 ^ k` elements first, without the root flag, changes nothing. -/
theorem treeReduce_cut (root : Bool) (k : Nat) (xs : List α) (h : 2 ^ k < xs.length) :
    ((cut (2 ^ k) xs).mapM (treeReduce f false)).bind (treeReduce f root) =
      treeReduce f root xs := by
  have groups : ∀ gs : List (List α), (∀ g ∈ gs, g ≠ [] ∧ g.length ≤ 2 ^ k) →
      gs.mapM (treeReduce f false) = some (gs.map (pairUp (f false))^[k]).flatten := by
    intro gs hgs
    induction gs with
    | nil => rfl
    | cons g gs ih =>
      have hg := hgs g (by simp)
      have hl := levels_of_le f k g hg.1 hg.2
      obtain ⟨a, ha⟩ := Option.isSome_iff_exists.mp (treeReduce_isSome f false g hg.1)
      rw [ha] at hl
      obtain ⟨b, hb, hab⟩ := List.map_eq_singleton_iff.mp hl
      cases hab
      have hrest := ih (fun g' h' => hgs g' (by simp [h']))
      simp [List.mapM_cons, ha, hrest, hb]
  rw [groups _ (fun g hg => mem_cut (Nat.two_pow_pos k) hg), ← levels_cut, Option.bind_some,
    treeReduce_levels f root k xs h]

end Levels

end Blkcp.Lib
