import Mathlib.Order.Bounds.Defs
import Blkcp.Lib.TreeHash
set_option autoImplicit false

/-! The tree over a list that is split at the largest power of two below its length. It is the tree
of the reduction by levels. -/

namespace Blkcp.Lib

/-- The largest power of two below `n`. -/
def splitPoint (n : Nat) : Nat := 2 ^ Nat.log2 (n - 1)

theorem splitPoint_lt {n : Nat} (h : 2 ≤ n) : splitPoint n < n := by
  have := Nat.log2_self_le (n := n - 1) (by omega)
  unfold splitPoint
  omega

theorem splitPoint_pos (n : Nat) : 0 < splitPoint n := Nat.two_pow_pos _

theorem le_two_mul_splitPoint (n : Nat) : n ≤ 2 * splitPoint n := by
  have hlt := Nat.lt_log2_self (n := n - 1)
  unfold splitPoint
  rw [Nat.pow_succ] at hlt
  omega

theorem splitPoint_isGreatest {n : Nat} (h : 2 ≤ n) :
    IsGreatest {p | p < n ∧ ∃ k, p = 2 ^ k} (splitPoint n) := by
  refine ⟨⟨splitPoint_lt h, _, rfl⟩, ?_⟩
  rintro p ⟨hlt, k, rfl⟩
  have hle := le_two_mul_splitPoint n
  unfold splitPoint at hle ⊢
  refine Nat.pow_le_pow_right (by decide) (Nat.le_of_lt_succ ?_)
  refine (Nat.pow_lt_pow_iff_right (a := 2) (by decide)).mp ?_
  rw [Nat.pow_succ]
  omega

variable {α : Type}

/-- The flag reaches the topmost use of `f` alone. -/
def leftFull (f : Bool → α → α → α) (root : Bool) (xs : List α) : Option α :=
  if xs.length ≤ 1 then xs.head?
  else (leftFull f false (xs.take (splitPoint xs.length))).bind fun l =>
    (leftFull f false (xs.drop (splitPoint xs.length))).map fun r => f root l r
termination_by xs.length
decreasing_by
  · have := splitPoint_lt (n := xs.length) (by omega)
    rw [List.length_take]
    omega
  · have := splitPoint_pos xs.length
    rw [List.length_drop]
    omega

section Levels

variable (f : Bool → α → α → α)

/-- The last level but one holds the two halves, reduced. -/
theorem levels_halves (xs : List α) (h : 2 ≤ xs.length) :
    ((pairUp (f false))^[Nat.log2 (xs.length - 1)] xs).map some =
      [treeReduce f false (xs.take (splitPoint xs.length)),
        treeReduce f false (xs.drop (splitPoint xs.length))] := by
  have hlt := splitPoint_lt h
  have hle := le_two_mul_splitPoint xs.length
  have htake : (xs.take (splitPoint xs.length)).length = splitPoint xs.length := by
    rw [List.length_take]
    omega
  have hdrop : (xs.drop (splitPoint xs.length)).length = xs.length - splitPoint xs.length :=
    List.length_drop
  have happend := levels_append f (Nat.log2 (xs.length - 1)) (xs.take (splitPoint xs.length))
    (xs.drop (splitPoint xs.length)) (Dvd.intro_left 1 (by rw [htake, Nat.one_mul]; rfl))
  rw [List.take_append_drop] at happend
  rw [happend, List.map_append, levels_of_le f _ _ (List.ne_nil_of_length_pos (by
      have := splitPoint_pos xs.length
      omega)) (Nat.le_of_eq htake),
    levels_of_le f _ _ (List.ne_nil_of_length_pos (by omega)) (by
      rw [hdrop]
      unfold splitPoint at hle ⊢
      omega)]
  rfl

theorem treeReduce_halves (root : Bool) (xs : List α) (h : 2 ≤ xs.length) :
    treeReduce f root xs = (treeReduce f false (xs.take (splitPoint xs.length))).bind fun l =>
      (treeReduce f false (xs.drop (splitPoint xs.length))).map fun r => f root l r := by
  have hhalves := levels_halves f xs h
  obtain ⟨l, r, hlevel⟩ : ∃ l r, (pairUp (f false))^[Nat.log2 (xs.length - 1)] xs = [l, r] :=
    List.length_eq_two.mp (by simpa using congrArg List.length hhalves)
  rw [hlevel] at hhalves
  obtain ⟨hl, hr⟩ : some l = treeReduce f false (xs.take (splitPoint xs.length)) ∧
      some r = treeReduce f false (xs.drop (splitPoint xs.length)) := by
    simpa using hhalves
  rw [← treeReduce_levels f root _ xs (splitPoint_lt h), hlevel, treeReduce_pair, ← hl, ← hr]
  rfl

theorem treeReduce_eq_leftFull (root : Bool) (xs : List α) :
    treeReduce f root xs = leftFull f root xs := by
  induction hn : xs.length using Nat.strongRecOn generalizing root xs with
  | ind n ih =>
    subst hn
    by_cases h : xs.length ≤ 1
    · rw [leftFull, if_pos h]
      match xs, h with
      | [], _ => rw [treeReduce]; rfl
      | [a], _ => exact treeReduce_single f root a
    · have hlt := splitPoint_lt (n := xs.length) (by omega)
      have hpos := splitPoint_pos xs.length
      rw [treeReduce_halves f root xs (by omega), leftFull, if_neg h,
        ih _ (by rw [List.length_take]; omega) false (xs.take (splitPoint xs.length)) rfl,
        ih _ (by rw [List.length_drop]; omega) false (xs.drop (splitPoint xs.length)) rfl]

end Levels

namespace TreeHash

variable {L D C : Type} (H : TreeHash L D C)

theorem length_levelCalls (b : Bool) (xs : List D) :
    (H.levelCalls b xs).length = xs.length / 2 := by
  induction xs using pairUp.induct with
  | case1 x y rest ih =>
    simp only [levelCalls, List.length_cons, ih]
    omega
  | case2 short h =>
    rcases short with _ | ⟨x, _ | ⟨y, rest⟩⟩
    · simp [levelCalls]
    · simp [levelCalls]
    · exact absurd rfl (h x y rest)

theorem mem_levelCalls {b : Bool} {xs : List D} {c : C} (h : c ∈ H.levelCalls b xs) :
    ∃ x y, c = H.parent b x y := by
  induction xs using pairUp.induct with
  | case1 x y rest ih =>
    rcases List.mem_cons.mp h with rfl | h
    · exact ⟨x, y, rfl⟩
    · exact ih h
  | case2 short hs =>
    rcases short with _ | ⟨x, _ | ⟨y, rest⟩⟩
    · cases h
    · cases h
    · exact absurd rfl (hs x y rest)

/-- What comes before the last call is not flagged, and the last call is on the level of two. -/
theorem reduceCalls_levels (root : Bool) (k : Nat) (xs : List D) (hlt : 2 ^ k < xs.length)
    (hle : xs.length ≤ 2 ^ (k + 1)) :
    ∃ l r others, (pairUp (H.combine false))^[k] xs = [l, r] ∧
      H.reduceCalls root xs = others ++ [H.parent root l r] ∧
      others.length = xs.length - 2 ∧ ∀ c ∈ others, ∃ x y, c = H.parent false x y := by
  induction k generalizing xs with
  | zero =>
    obtain ⟨l, r, rfl⟩ := List.length_eq_two.mp (show xs.length = 2 by omega)
    refine ⟨l, r, [], rfl, ?_, rfl, List.forall_mem_nil _⟩
    simp [reduceCalls, levelCalls, pairUp]
  | succ k ih =>
    have hk := Nat.one_le_two_pow (n := k)
    rw [Nat.pow_succ] at hlt hle
    rcases xs with _ | ⟨x, _ | ⟨y, _ | ⟨z, rest⟩⟩⟩
    · simp at hlt
    · simp at hlt
    · simp only [List.length_cons, List.length_nil] at hlt
      omega
    · have hlen := length_pairUp (H.combine false) (x :: y :: z :: rest)
      obtain ⟨l, r, others, hlevel, hcalls, hothers, hflag⟩ :=
        ih (pairUp (H.combine false) (x :: y :: z :: rest)) (by omega) (by omega)
      refine ⟨l, r, H.levelCalls false (x :: y :: z :: rest) ++ others, hlevel, ?_, ?_, ?_⟩
      · have hflag : (root && (z :: rest).length == 0) = false := by simp
        rw [reduceCalls, hflag, hcalls, List.append_assoc]
      · rw [List.length_append, length_levelCalls, hothers, hlen]
        simp only [List.length_cons] at hlt ⊢
        omega
      · intro c hc
        rcases List.mem_append.mp hc with hc | hc
        · exact H.mem_levelCalls hc
        · exact hflag c hc

end TreeHash

end Blkcp.Lib
