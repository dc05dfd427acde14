import Blkcp.Lib.Pairing
set_option autoImplicit false

/-! Hash trees over an arbitrary compression function: equal digests without a collision among the
calls made mean equal trees. -/

namespace Blkcp.Lib

inductive Tree (L : Type) where
  | leaf : L → Tree L
  | node : Tree L → Tree L → Tree L

namespace Tree

variable {L : Type}

def frontier : Tree L → List L
  | leaf x => [x]
  | node l r => l.frontier ++ r.frontier

/-- `node` as a combiner of `treeReduce`; the shape of a tree does not depend on the flag. -/
def grow (_ : Bool) (l r : Tree L) : Tree L := .node l r

theorem frontier_pairUp (r : Bool) (ts : List (Tree L)) :
    (pairUp (grow r) ts).flatMap frontier = ts.flatMap frontier := by
  induction ts using pairUp.induct with
  | case1 a b rest ih => simp [pairUp, grow, frontier, ih]
  | case2 short h =>
    rcases short with _ | ⟨a, _ | ⟨b, rest⟩⟩
    · simp [pairUp]
    · simp [pairUp]
    · exact absurd rfl (h a b rest)

theorem frontier_treeReduce (root : Bool) (ts : List (Tree L)) (t : Tree L)
    (h : treeReduce grow root ts = some t) : t.frontier = ts.flatMap frontier := by
  induction ts using treeReduce.induct grow root with
  | case1 => simp [treeReduce] at h
  | case2 a =>
    rw [treeReduce_single, Option.some.injEq] at h
    simp [h]
  | case3 a b rest ih =>
    rw [treeReduce] at h
    rw [ih h, frontier_pairUp]

end Tree

variable {L D C : Type}

def Collision (out : C → D) (calls : List C) : Prop :=
  ∃ a ∈ calls, ∃ b ∈ calls, a ≠ b ∧ out a = out b

theorem Collision.mono {out : C → D} {S T : List C} (hsub : S ⊆ T) (h : Collision out S) :
    Collision out T := by
  obtain ⟨a, ha, b, hb, hab⟩ := h
  exact ⟨a, hsub ha, b, hsub hb, hab⟩

theorem eq_of_not_collision {out : C → D} {S : List C} (h : ¬ Collision out S) {a b : C}
    (ha : a ∈ S) (hb : b ∈ S) (hab : out a = out b) : a = b := by
  by_contra hne
  exact h ⟨a, ha, b, hb, hne, hab⟩

/-- A tree mode: the calls that hash a leaf, the last of which gives its digest, and the call that
combines two digests. The flag marks the root. -/
structure TreeHash (L D C : Type) where
  out : C → D
  leafCalls : Bool → L → List C
  leafLast : Bool → L → C
  parent : Bool → D → D → C
  leafLast_mem : ∀ b x, leafLast b x ∈ leafCalls b x
  parent_injective : ∀ {b b' l r l' r'}, parent b l r = parent b' l' r' → l = l' ∧ r = r'
  leaf_ne_parent : ∀ b b' x l r, leafLast b x ≠ parent b' l r
  leaf_binding : ∀ {b b' x y}, ¬ Collision out (leafCalls b x ++ leafCalls b' y) →
    out (leafLast b x) = out (leafLast b' y) → x = y

namespace TreeHash

variable (H : TreeHash L D C)

def combine (b : Bool) (l r : D) : D := H.out (H.parent b l r)

def digest (b : Bool) : Tree L → D
  | .leaf x => H.out (H.leafLast b x)
  | .node l r => H.combine b (digest false l) (digest false r)

def calls (b : Bool) : Tree L → List C
  | .leaf x => H.leafCalls b x
  | .node l r => H.parent b (H.digest false l) (H.digest false r) ::
      (calls false l ++ calls false r)

theorem binding {b b' : Bool} (t t' : Tree L) (hc : ¬ Collision H.out (H.calls b t ++ H.calls b' t'))
    (h : H.digest b t = H.digest b' t') : t = t' := by
  induction t generalizing t' b b' with
  | leaf x =>
    cases t' with
    | leaf y => rw [H.leaf_binding hc h]
    | node l' r' =>
      refine absurd (eq_of_not_collision hc ?_ ?_ h) (H.leaf_ne_parent b b' x _ _)
      · exact List.mem_append_left _ (H.leafLast_mem b x)
      · exact List.mem_append_right _ List.mem_cons_self
  | node l r ihl ihr =>
    cases t' with
    | leaf y =>
      refine absurd (eq_of_not_collision hc ?_ ?_ h).symm (H.leaf_ne_parent b' b y _ _)
      · exact List.mem_append_left _ List.mem_cons_self
      · exact List.mem_append_right _ (H.leafLast_mem b' y)
    | node l' r' =>
      have hp : H.parent b (H.digest false l) (H.digest false r) =
          H.parent b' (H.digest false l') (H.digest false r') := by
        refine eq_of_not_collision hc ?_ ?_ h
        · exact List.mem_append_left _ List.mem_cons_self
        · exact List.mem_append_right _ List.mem_cons_self
      obtain ⟨hl, hr⟩ := H.parent_injective hp
      rw [ihl l' (fun hcl => hc (hcl.mono ?_)) hl, ihr r' (fun hcr => hc (hcr.mono ?_)) hr]
      all_goals
        intro c hm
        simp only [calls, List.mem_append, List.mem_cons] at hm ⊢
        tauto

/-- The calls of one level and of a whole reduction. -/
def levelCalls (b : Bool) : List D → List C
  | x :: y :: rest => H.parent b x y :: levelCalls b rest
  | _ => []

def reduceCalls (root : Bool) : List D → List C
  | x :: y :: rest =>
    H.levelCalls (root && rest.length == 0) (x :: y :: rest) ++
      reduceCalls root (pairUp (H.combine (root && rest.length == 0)) (x :: y :: rest))
  | _ => []
termination_by xs => xs.length
decreasing_by
  simp only [length_pairUp, List.length_cons]
  omega

theorem digest_pairUp (b : Bool) (ts : List (Tree L)) :
    (pairUp (Tree.grow b) ts).map (H.digest false) =
      pairUp (H.combine false) (ts.map (H.digest false)) :=
  pairUp_map (h := H.digest false) (fun _ _ => rfl) ts

/-- Reducing digests computes the digest of the tree built from the same leaves, the root flag
standing at its top node. -/
theorem digest_treeReduce (root : Bool) (ts : List (Tree L)) (h : 2 ≤ ts.length ∨ root = false) :
    treeReduce H.combine root (ts.map (H.digest false)) =
      (treeReduce Tree.grow root ts).map (H.digest root) := by
  induction ts using treeReduce.induct Tree.grow root with
  | case1 => simp [treeReduce]
  | case2 a =>
    have hr : root = false := by simpa using h
    simp [hr]
  | case3 a b rest ih =>
    conv_rhs => rw [treeReduce]
    by_cases hrest : rest = []
    · subst hrest
      simp [treeReduce_pair, pairUp, Tree.grow, digest]
    · have hpos := List.length_pos_of_ne_nil hrest
      have hflag : (root && rest.length == 0) = false := by simp [hrest]
      rw [hflag] at ih ⊢
      rw [← ih (by rw [length_pairUp]; simp only [List.length_cons]; left; omega), List.map_cons,
        List.map_cons, treeReduce, List.length_map, hflag, digest_pairUp]
      simp

theorem calls_pairUp (b : Bool) (ts : List (Tree L)) (S : List C)
    (hS : ∀ t ∈ ts, H.calls false t ⊆ S) :
    (∀ t ∈ pairUp (Tree.grow b) ts,
      H.calls false t ⊆ S ++ H.levelCalls false (ts.map (H.digest false))) := by
  induction ts using pairUp.induct with
  | case1 x y rest ih =>
    have hx := hS x (by simp)
    have hy := hS y (by simp)
    intro t ht
    rw [pairUp, List.mem_cons] at ht
    rcases ht with rfl | ht
    · intro c hc
      simp only [Tree.grow, calls, List.mem_cons, List.mem_append, List.map_cons, levelCalls] at hc ⊢
      rcases hc with rfl | hc | hc
      · simp
      · exact .inl (hx hc)
      · exact .inl (hy hc)
    · intro c hc
      have := ih (fun t h => hS t (by simp [h])) t ht hc
      simp only [List.mem_append, List.map_cons, levelCalls, List.mem_cons] at this ⊢
      tauto
  | case2 short h =>
    intro t ht c hc
    rw [pairUp] at ht
    · exact List.mem_append_left _ (hS t ht hc)
    · exact h

/-- The calls of the tree are calls of its leaves or calls of the reduction. -/
theorem calls_treeReduce (root : Bool) (ts : List (Tree L)) (h : 2 ≤ ts.length ∨ root = false)
    (S : List C) (hS : ∀ t ∈ ts, H.calls false t ⊆ S) (t : Tree L)
    (ht : treeReduce Tree.grow root ts = some t) :
    H.calls root t ⊆ S ++ H.reduceCalls root (ts.map (H.digest false)) := by
  induction ts using treeReduce.induct Tree.grow root generalizing S with
  | case1 => simp [treeReduce] at ht
  | case2 a =>
    have hr : root = false := by simpa using h
    rw [treeReduce_single, Option.some.injEq] at ht
    subst ht hr
    exact fun c hc => List.mem_append_left _ (hS a (by simp) hc)
  | case3 a b rest ih =>
    by_cases hrest : rest = []
    · subst hrest
      rw [treeReduce_pair, Option.some.injEq] at ht
      subst ht
      intro c hc
      have ha := hS a (by simp)
      have hb := hS b (by simp)
      simp only [Tree.grow, calls, List.mem_cons, List.mem_append] at hc
      rcases hc with rfl | hc | hc
      · simp [reduceCalls, levelCalls]
      · exact List.mem_append_left _ (ha hc)
      · exact List.mem_append_left _ (hb hc)
    · have hpos := List.length_pos_of_ne_nil hrest
      have hflag : (root && rest.length == 0) = false := by simp [hrest]
      rw [treeReduce] at ht
      rw [hflag] at ih ht
      have hlevel := H.calls_pairUp false (a :: b :: rest) S hS
      have hsub := ih (by rw [length_pairUp]; simp only [List.length_cons]; left; omega)
        (S ++ H.levelCalls false ((a :: b :: rest).map (H.digest false))) hlevel ht
      rw [List.map_cons, List.map_cons, reduceCalls, List.length_map, hflag]
      rw [List.append_assoc, digest_pairUp] at hsub
      simpa using hsub

end TreeHash

end Blkcp.Lib
