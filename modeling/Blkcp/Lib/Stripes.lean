import Blkcp.Lib.Place
import Mathlib.Algebra.BigOperators.Intervals
set_option autoImplicit false

/-! Copying in stripes of one size that workers claim one after the other. Each worker fills the
stripe it holds open from its start. -/

namespace Blkcp.Lib

variable {ι α : Type}

/-- Stripe `j` holds the cells `C * j + k` with `k < C`. `finished` lists what a worker has held
open before. -/
structure Stripes (ι : Type) where
  claimed : Nat
  holder : Nat → Option ι
  filled : Nat → Nat
  opened : ι → Option Nat
  finished : ι → List Nat

/-- How much of stripe `j` lies below `N`. -/
def stripeLen (C N j : Nat) : Nat := min C (N - C * j)

namespace Stripes

def start : Stripes ι := ⟨0, fun _ => none, fun _ => 0, fun _ => none, fun _ => []⟩

def claim [DecidableEq ι] (T : Stripes ι) (w : ι) : Stripes ι :=
  { T with
    claimed := T.claimed + 1
    holder := Function.update T.holder T.claimed (some w)
    opened := Function.update T.opened w (some T.claimed) }

def fill (T : Stripes ι) (w : ι) (k : Nat) : Stripes ι :=
  match T.opened w with
  | some j => { T with filled := Function.update T.filled j (T.filled j + k) }
  | none => T

def close [DecidableEq ι] (T : Stripes ι) (w : ι) : Stripes ι :=
  { T with
    opened := Function.update T.opened w none
    finished := Function.update T.finished w (T.finished w ++ (T.opened w).toList) }

theorem fill_eq {T : Stripes ι} {w : ι} {j : Nat} (h : T.opened w = some j) (k : Nat) :
    T.fill w k = { T with filled := Function.update T.filled j (T.filled j + k) } := by
  rw [fill, h]

@[simp] theorem fill_claimed (T : Stripes ι) (w : ι) (k : Nat) :
    (T.fill w k).claimed = T.claimed := by
  rw [fill]
  split <;> rfl

@[simp] theorem fill_opened (T : Stripes ι) (w : ι) (k : Nat) :
    (T.fill w k).opened = T.opened := by
  rw [fill]
  split <;> rfl

@[simp] theorem fill_holder (T : Stripes ι) (w : ι) (k : Nat) :
    (T.fill w k).holder = T.holder := by
  rw [fill]
  split <;> rfl

@[simp] theorem fill_finished (T : Stripes ι) (w : ι) (k : Nat) :
    (T.fill w k).finished = T.finished := by
  rw [fill]
  split <;> rfl

/-- The sizes of all stripes together. -/
def total (T : Stripes ι) : Nat := ∑ j ∈ Finset.range T.claimed, T.filled j

end Stripes

/-- The log holds the stripes as far as they are filled, each cell once, copied from `d` to `at_`
on; a stripe nobody holds open is as full as it gets. -/
structure Striped (C at_ : Nat) (d : List α) (T : Stripes ι) (log : List (Placed ι α)) : Prop where
  opened_lt : ∀ w j, T.opened w = some j → j < T.claimed ∧ T.holder j = some w
  held : ∀ j, j < T.claimed → ∃ w, T.holder j = some w
  mem_finished : ∀ w j, j ∈ T.finished w ↔
    j < T.claimed ∧ T.holder j = some w ∧ T.opened w ≠ some j
  nodup_finished : ∀ w, (T.finished w).Nodup
  unclaimed : ∀ j, T.claimed ≤ j → T.filled j = 0
  bound : ∀ j, T.filled j ≤ stripeLen C d.length j
  closed : ∀ j, j < T.claimed → (∀ w, T.opened w ≠ some j) →
    T.filled j = stripeLen C d.length j
  below : ∀ p, p < at_ → cellsAt log p = []
  blank : ∀ i, T.filled (i / C) ≤ i % C → cellsAt log (at_ + i) = []
  once : ∀ i, i % C < T.filled (i / C) → ∃ w b, T.holder (i / C) = some w ∧ d[i]? = some b ∧
    cellsAt log (at_ + i) = [(w, b)]

section Sums

/-- Changing one summand. -/
theorem sum_update [DecidableEq ι] (s : Finset ι) (f : ι → Nat) {i : ι} (hi : i ∈ s) (v : Nat) :
    ∑ x ∈ s, Function.update f i v x + f i = ∑ x ∈ s, f x + v := by
  rw [Finset.sum_update_of_mem hi, ← Finset.sum_sdiff (Finset.singleton_subset_iff.mpr hi),
    Finset.sum_singleton]
  omega

variable {C N : Nat}

/-- The stripes below `N` cover it. -/
theorem sum_stripeLen (n : Nat) : ∑ j ∈ Finset.range n, stripeLen C N j = min (C * n) N := by
  induction n with
  | zero => simp
  | succ n ih =>
    rw [Finset.sum_range_succ, ih, stripeLen, Nat.mul_succ]
    omega

end Sums

namespace Striped

variable {C at_ : Nat} {d : List α} {T : Stripes ι} {log : List (Placed ι α)}
variable {w : ι}

theorem start (C at_ : Nat) (d : List α) : Striped C at_ d (.start : Stripes ι) [] where
  opened_lt w j h := by cases h
  held j h := absurd h (Nat.not_lt_zero j)
  mem_finished w j := by simp [Stripes.start]
  nodup_finished w := List.nodup_nil
  unclaimed _ _ := rfl
  bound _ := Nat.zero_le _
  closed j h := absurd h (Nat.not_lt_zero j)
  below _ _ := rfl
  blank _ _ := rfl
  once i h := absurd h (Nat.not_lt_zero _)

/-- A stripe that is claimed is a new one. -/
theorem claim [DecidableEq ι] (h : Striped C at_ d T log) (hw : T.opened w = none) :
    Striped C at_ d (T.claim w) log where
  opened_lt v j hv := by
    simp only [Stripes.claim, Function.update_apply] at hv ⊢
    by_cases hvw : v = w
    · rw [if_pos hvw] at hv
      obtain rfl := Option.some.inj hv
      rw [if_pos rfl, hvw]
      exact ⟨Nat.lt_succ_self _, rfl⟩
    · rw [if_neg hvw] at hv
      obtain ⟨hlt, hh⟩ := h.opened_lt v j hv
      rw [if_neg (by omega)]
      exact ⟨by omega, hh⟩
  held j hj := by
    simp only [Stripes.claim, Function.update_apply] at hj ⊢
    split
    · exact ⟨w, rfl⟩
    · exact h.held j (by omega)
  mem_finished v j := by
    simp only [Stripes.claim, Function.update_apply]
    rw [h.mem_finished]
    by_cases hj : j = T.claimed
    · -- the new stripe is open at its worker
      subst hj
      by_cases hvw : v = w
      · simp [hvw]
      · simp [hvw, Ne.symm hvw]
    · by_cases hvw : v = w
      · simp [hvw, hw, hj, Ne.symm hj]
        omega
      · simp [hvw, hj]
        omega
  nodup_finished := h.nodup_finished
  unclaimed j hj := h.unclaimed j (Nat.le_of_succ_le hj)
  bound := h.bound
  closed j hj hopen := by
    simp only [Stripes.claim, Function.update_apply] at hj hopen
    have hne : j ≠ T.claimed := by
      rintro rfl
      exact hopen w (if_pos rfl)
    refine h.closed j (by omega) (fun v hv => hopen v ?_)
    rw [if_neg]
    · exact hv
    · rintro rfl
      rw [hw] at hv
      cases hv
  below := h.below
  blank := h.blank
  once i hi := by
    obtain ⟨v, b, hv, hb⟩ := h.once i hi
    refine ⟨v, b, ?_, hb⟩
    have hlt : i / C < T.claimed := by
      by_contra hge
      rw [Stripes.claim, h.unclaimed _ (Nat.not_lt.mp hge)] at hi
      cases hi
    simp only [Stripes.claim, Function.update_apply]
    rw [if_neg (by omega), hv]

/-- A worker may leave its stripe when that is full. -/
theorem close [DecidableEq ι] (h : Striped C at_ d T log)
    (hfull : ∀ j, T.opened w = some j → T.filled j = stripeLen C d.length j) :
    Striped C at_ d (T.close w) log where
  opened_lt v j hv := by
    simp only [Stripes.close, Function.update_apply] at hv
    split at hv
    · cases hv
    · exact h.opened_lt v j hv
  held := h.held
  mem_finished v j := by
    simp only [Stripes.close, Function.update_apply]
    by_cases hvw : v = w
    · subst hvw
      simp only [if_true, List.mem_append, h.mem_finished, Option.mem_toList]
      have := h.opened_lt v j
      by_cases hj : T.opened v = some j <;> simp_all
    · simp only [if_neg hvw, h.mem_finished]
  nodup_finished v := by
    simp only [Stripes.close, Function.update_apply]
    split
    · rename_i hvw
      refine List.nodup_append.mpr ⟨h.nodup_finished w, by cases T.opened w <;> simp, ?_⟩
      intro j hj k hk hjk
      rw [Option.mem_toList] at hk
      exact ((h.mem_finished w j).mp hj).2.2 (by rw [hjk]; exact hk)
    · exact h.nodup_finished v
  unclaimed := h.unclaimed
  bound := h.bound
  closed j hj hopen := by
    by_cases hj' : T.opened w = some j
    · exact hfull j hj'
    · refine h.closed j hj (fun v hv => hopen v ?_)
      have hvw : v ≠ w := by
        rintro rfl
        exact hj' hv
      simp only [Stripes.close, Function.update_apply, if_neg hvw, hv]
  below := h.below
  blank := h.blank
  once := h.once

theorem filled_le (h : Striped C at_ d T log) (j : Nat) :
    T.filled j ≤ C ∧ (0 < T.filled j → C * j + T.filled j ≤ d.length) := by
  have := h.bound j
  rw [stripeLen] at this
  omega

/-- Cell `i` lies in stripe `j`, at `k`. -/
theorem cell_index {i j k : Nat} (h : i = C * j + k) (hk : k < C) : i / C = j ∧ i % C = k := by
  subst h
  rw [Nat.mul_add_div (by omega), Nat.mul_add_mod, Nat.div_eq_of_lt hk, Nat.mod_eq_of_lt hk]
  exact ⟨rfl, rfl⟩

/-- The next bytes of a stripe may be written behind those that are there. -/
theorem fill [DecidableEq ι] (h : Striped C at_ d T log) {j m : Nat} (hw : T.opened w = some j)
    (hm : T.filled j + m ≤ stripeLen C d.length j) :
    Striped C at_ d (T.fill w m)
      (log ++ [⟨w, at_ + (C * j + T.filled j), (d.drop (C * j + T.filled j)).take m⟩]) := by
  obtain ⟨hlt, hhold⟩ := h.opened_lt w j hw
  have hlen : ((d.drop (C * j + T.filled j)).take m).length = m := by
    rw [List.length_take, List.length_drop]
    rw [stripeLen] at hm
    omega
  have hstripe : stripeLen C d.length j ≤ C := Nat.min_le_left _ _
  generalize hx : (⟨w, at_ + (C * j + T.filled j), (d.drop (C * j + T.filled j)).take m⟩ :
    Placed ι α) = x
  have hoff : x.off = at_ + (C * j + T.filled j) := by rw [← hx]
  have hbytes : x.bytes.length = m := by rw [← hx, hlen]
  -- outside of the piece written nothing changes
  have hout : ∀ p, p < at_ + (C * j + T.filled j) ∨ at_ + (C * j + T.filled j) + m ≤ p →
      cellsAt (log ++ [x]) p = cellsAt log p := by
    intro p hp
    rw [cellsAt_snoc, (x.cell?_eq_none_iff p).mpr (by rw [hoff, hbytes]; exact hp)]
    exact List.append_nil _
  have hother : ∀ i, i / C ≠ j ∨ i % C < T.filled j ∨ T.filled j + m ≤ i % C →
      cellsAt (log ++ [x]) (at_ + i) = cellsAt log (at_ + i) := by
    intro i hi
    refine hout _ ?_
    by_contra hin
    obtain ⟨h1, h2⟩ := cell_index (C := C) (i := i) (j := j) (k := i - C * j) (by omega) (by omega)
    omega
  rw [Stripes.fill_eq hw]
  refine ⟨h.opened_lt, h.held, h.mem_finished, h.nodup_finished, ?_, ?_, ?_, ?_, ?_, ?_⟩
  · intro k hk
    have hkj : k ≠ j := (Nat.lt_of_lt_of_le hlt hk).ne'
    simp only [Function.update_apply, if_neg hkj]
    exact h.unclaimed k hk
  · intro k
    simp only [Function.update_apply]
    split
    · rename_i hk
      rw [hk]
      exact hm
    · exact h.bound k
  · intro k hk hopen
    have hkj : k ≠ j := by
      rintro rfl
      exact hopen w hw
    simp only [Function.update_apply, if_neg hkj]
    exact h.closed k hk hopen
  · intro p hp
    rw [hout p (by omega)]
    exact h.below p hp
  · intro i hi
    simp only [Function.update_apply] at hi
    split at hi
    · rename_i hij
      rw [hother i (by omega)]
      exact h.blank i (by rw [hij]; omega)
    · rename_i hij
      rw [hother i (.inl hij)]
      exact h.blank i hi
  · intro i hi
    simp only [Function.update_apply] at hi
    split at hi
    · rename_i hij
      by_cases hold : i % C < T.filled j
      · obtain ⟨v, b, hv, hb, hc⟩ := h.once i (by rw [hij]; exact hold)
        exact ⟨v, b, hv, hb, by rw [hother i (.inr (.inl hold)), hc]⟩
      · -- a cell of the piece written
        have hi' : i = C * j + i % C := by rw [← hij, Nat.div_add_mod]
        have hid : i < d.length := by
          rw [stripeLen] at hm
          omega
        refine ⟨w, d[i], by rw [hij]; exact hhold, List.getElem?_eq_getElem hid, ?_⟩
        rw [cellsAt_snoc, h.blank i (by rw [hij]; omega), List.nil_append]
        have hcell : x.cell? (at_ + i) = some (w, d[i]) := by
          rw [Placed.cell?, if_pos (by rw [hoff]; omega), ← hx]
          simp only
          rw [List.getElem?_take_of_lt (by omega), List.getElem?_drop,
            show C * j + T.filled j + (at_ + i - (at_ + (C * j + T.filled j))) = i by omega,
            List.getElem?_eq_getElem hid]
          rfl
        rw [hcell]
        rfl
    · rename_i hij
      obtain ⟨v, b, hv, hb, hc⟩ := h.once i hi
      exact ⟨v, b, hv, hb, by rw [hother i (.inl hij), hc]⟩

theorem total_claim [DecidableEq ι] (h : Striped C at_ d T log) : (T.claim w).total = T.total := by
  rw [Stripes.total, Stripes.claim, Finset.sum_range_succ, h.unclaimed _ (Nat.le_refl _)]
  rfl

theorem total_fill (h : Striped C at_ d T log) {j : Nat} (hw : T.opened w = some j) (k : Nat) :
    (T.fill w k).total = T.total + k := by
  have hj := Finset.mem_range.mpr (h.opened_lt w j hw).1
  have := sum_update (Finset.range T.claimed) T.filled hj (T.filled j + k)
  rw [Stripes.fill_eq hw]
  simp only [Stripes.total]
  omega

/-- With no stripe open the workers' finished stripes are all the claimed ones, each once. -/
theorem perm_finished (h : Striped C at_ d T log) (hclosed : ∀ w, T.opened w = none)
    {ws : List ι} (hnodup : ws.Nodup) (hall : ∀ w, w ∈ ws) :
    (ws.flatMap T.finished).Perm (List.range T.claimed) := by
  refine (List.perm_ext_iff_of_nodup ?_ List.nodup_range).mpr (fun j => ?_)
  · refine List.nodup_flatMap.mpr ⟨fun w _ => h.nodup_finished w, ?_⟩
    refine hnodup.imp (fun {v w} hvw j hv hw => hvw ?_)
    have h1 := ((h.mem_finished v j).mp hv).2.1
    rw [((h.mem_finished w j).mp hw).2.1] at h1
    exact (Option.some.inj h1).symm
  · rw [List.mem_flatMap, List.mem_range]
    constructor
    · rintro ⟨w, -, hw⟩
      exact ((h.mem_finished w j).mp hw).1
    · intro hj
      obtain ⟨w, hw⟩ := h.held j hj
      exact ⟨w, hall w, (h.mem_finished w j).mpr ⟨hj, hw, by simp [hclosed w]⟩⟩

section Finished

variable (h : Striped C at_ d T log) (hclosed : ∀ w, T.opened w = none)
variable (hall : d.length ≤ C * T.claimed)
include h hclosed hall

/-- When all of `d` is claimed and no stripe is open, every stripe is full. -/
theorem full (j : Nat) : T.filled j = stripeLen C d.length j := by
  by_cases hj : j < T.claimed
  · refine h.closed j hj (fun w hw => ?_)
    rw [hclosed w] at hw
    cases hw
  · have hmul := Nat.mul_le_mul_left C (Nat.not_lt.mp hj)
    rw [h.unclaimed j (Nat.not_lt.mp hj), stripeLen]
    omega

theorem complete {i : Nat} (hi : i < d.length) :
    ∃ w b, T.holder (i / C) = some w ∧ d[i]? = some b ∧ cellsAt log (at_ + i) = [(w, b)] := by
  have hC : 0 < C := by
    rcases Nat.eq_zero_or_pos C with rfl | hC
    · omega
    · exact hC
  refine h.once i ?_
  rw [h.full hclosed hall, stripeLen]
  have hmod := Nat.mod_lt i hC
  have hdiv := Nat.div_add_mod i C
  omega

theorem nothing_else {p : Nat} (hp : p < at_ ∨ at_ + d.length ≤ p) : cellsAt log p = [] := by
  rcases hp with hp | hp
  · exact h.below p hp
  · obtain ⟨i, rfl⟩ := Nat.exists_eq_add_of_le (Nat.le_of_add_right_le hp)
    refine h.blank i ?_
    rw [h.full hclosed hall, stripeLen]
    have hdiv := Nat.div_add_mod i C
    omega

theorem total_eq : T.total = d.length := by
  rw [Stripes.total, Finset.sum_congr rfl fun j _ => h.full hclosed hall j, sum_stripeLen]
  omega

end Finished

end Striped

end Blkcp.Lib
