import Blkcp.Lib.Loop
import Mathlib.Data.List.Basic
import Mathlib.Logic.Relation
set_option autoImplicit false

/-! Collecting what is reachable in a finite graph with a stack of nodes still to be looked at. -/

namespace Blkcp.Lib
open Relation

variable {α : Type}

/-- `found` holds what was met as a successor; the roots themselves are not put there. -/
structure Worklist (α : Type) where
  queue : List α
  visited : List α
  found : List α

namespace Worklist

def start (roots : List α) : Worklist α := ⟨roots, [], []⟩

/-- One or more steps from a root. -/
def Reached (next : α → List α) (roots : List α) (x : α) : Prop :=
  ∃ r ∈ roots, TransGen (fun a b => b ∈ next a) r x

variable (next : α → List α) (roots : List α)

/-- Everything noted is reachable and waits or has been looked at; what has been looked at has all
its successors noted. -/
structure Inv (s : Worklist α) : Prop where
  sound : ∀ x ∈ s.found, Reached next roots x
  queued : ∀ x, x ∈ s.queue ∨ x ∈ s.visited → x ∈ roots ∨ x ∈ s.found
  pending : ∀ x, x ∈ roots ∨ x ∈ s.found → x ∈ s.queue ∨ x ∈ s.visited
  closed : ∀ x ∈ s.visited, ∀ y ∈ next x, y ∈ s.found

variable {next roots}

theorem Reached.tail {x y : α} (h : x ∈ roots ∨ Reached next roots x) (hy : y ∈ next x) :
    Reached next roots y := by
  rcases h with hx | ⟨r, hr, hx⟩
  · exact ⟨x, hx, .single hy⟩
  · exact ⟨r, hr, hx.tail hy⟩

theorem inv_start : Inv next roots (start roots) where
  sound x hx := by cases hx
  queued x hx := .inl (hx.resolve_right List.not_mem_nil)
  pending x hx := .inl (hx.resolve_right List.not_mem_nil)
  closed x hx := by cases hx

/-- With nothing left to look at, what was noted is what can be reached. -/
theorem Inv.complete {s : Worklist α} (h : Inv next roots s) (hq : s.queue = []) (x : α) :
    x ∈ s.found ↔ Reached next roots x := by
  have hvisited : ∀ x, x ∈ roots ∨ x ∈ s.found → x ∈ s.visited := by
    intro x hx
    have := h.pending x hx
    rw [hq] at this
    exact this.resolve_left List.not_mem_nil
  refine ⟨h.sound x, ?_⟩
  rintro ⟨r, hr, hx⟩
  induction hx with
  | single hy => exact h.closed r (hvisited r (.inl hr)) _ hy
  | tail _ hy ih => exact h.closed _ (hvisited _ (.inr ih)) _ hy

section Loop

variable [DecidableEq α]

/-- A successor is noted and put on the stack when it is met for the first time. -/
def note (s : Worklist α) (x : α) : Worklist α :=
  if x ∈ s.found then s else { s with found := s.found ++ [x], queue := x :: s.queue }

def body (next : α → List α) (s : Worklist α) : Worklist α ⊕ List α :=
  match s.queue with
  | [] => .inr s.found
  | curr :: queue =>
    let s := { s with queue := queue }
    if curr ∈ s.visited then .inl s
    else .inl ((next curr).foldl note { s with visited := curr :: s.visited })

section Note

variable (s : Worklist α) (x : α)

theorem visited_note : (s.note x).visited = s.visited := by
  rw [note]
  split <;> rfl

theorem mem_found_note (y : α) : y ∈ (s.note x).found ↔ y ∈ s.found ∨ y = x := by
  rw [note]
  split
  · rename_i hx
    constructor
    · exact .inl
    · rintro (hy | rfl)
      · exact hy
      · exact hx
  · simp

theorem mem_queue_note (y : α) :
    y ∈ (s.note x).queue ↔ y ∈ s.queue ∨ y = x ∧ x ∉ s.found := by
  rw [note]
  split
  · rename_i hx
    simp [hx]
  · rename_i hx
    simp [hx, or_comm]

end Note

section Foldl

variable (xs : List α) (s : Worklist α)

theorem visited_foldl : (xs.foldl note s).visited = s.visited := by
  induction xs generalizing s with
  | nil => rfl
  | cons x xs ih => rw [List.foldl_cons, ih, visited_note]

theorem mem_found_foldl (y : α) : y ∈ (xs.foldl note s).found ↔ y ∈ s.found ∨ y ∈ xs := by
  induction xs generalizing s with
  | nil => simp
  | cons x xs ih =>
    rw [List.foldl_cons, ih, mem_found_note, List.mem_cons]
    tauto

theorem mem_queue_foldl (y : α) :
    y ∈ (xs.foldl note s).queue ↔ y ∈ s.queue ∨ y ∈ xs ∧ y ∉ s.found := by
  induction xs generalizing s with
  | nil => simp
  | cons x xs ih =>
    rw [List.foldl_cons, ih, mem_queue_note, mem_found_note, List.mem_cons]
    by_cases hyx : y = x
    · subst hyx
      tauto
    · tauto

end Foldl

theorem inv_body {s t : Worklist α} (h : Inv next roots s) (hb : body next s = .inl t) :
    Inv next roots t := by
  rw [body] at hb
  cases hq : s.queue with
  | nil =>
    rw [hq] at hb
    cases hb
  | cons curr queue =>
    rw [hq] at hb
    simp only at hb
    have hcurr : curr ∈ roots ∨ curr ∈ s.found := h.queued curr (.inl (by simp [hq]))
    split at hb
    · rename_i hvisited
      obtain rfl := Sum.inl.inj hb
      refine ⟨h.sound, fun x hx => ?_, fun x hx => ?_, h.closed⟩
      · exact h.queued x (hx.imp_left fun hm => by simp [hq, hm])
      · have hx' := h.pending x hx
        rw [hq, List.mem_cons] at hx'
        rcases hx' with (rfl | hx') | hx'
        · exact .inr hvisited
        · exact .inl hx'
        · exact .inr hx'
    · obtain rfl := Sum.inl.inj hb
      refine ⟨fun x hx => ?_, fun x hx => ?_, fun x hx => ?_, fun x hx y hy => ?_⟩
      · rcases (mem_found_foldl _ _ x).mp hx with hx | hx
        · exact h.sound x hx
        · exact Reached.tail (hcurr.imp_right (h.sound curr)) hx
      · rw [mem_queue_foldl, visited_foldl] at hx
        rw [mem_found_foldl]
        rcases hx with (hx | hx) | hx
        · exact (h.queued x (.inl (by simp [hq, hx]))).imp_right .inl
        · exact .inr (.inr hx.1)
        · rcases List.mem_cons.mp hx with rfl | hx
          · exact hcurr.imp_right .inl
          · exact (h.queued x (.inr hx)).imp_right .inl
      · rw [mem_found_foldl] at hx
        rw [mem_queue_foldl, visited_foldl, List.mem_cons]
        by_cases hf : x ∈ roots ∨ x ∈ s.found
        · have hx' := h.pending x hf
          rw [hq, List.mem_cons] at hx'
          tauto
        · have hnew : x ∈ next curr ∧ x ∉ s.found := by tauto
          exact .inl (.inr hnew)
      · rw [visited_foldl, List.mem_cons] at hx
        rw [mem_found_foldl]
        rcases hx with rfl | hx
        · exact .inr hy
        · exact .inl (h.closed x hx y hy)

section Termination

variable (nodes : List α)

/-- What is on the stack and what may still come there. -/
def left (s : Worklist α) : Nat := s.queue.length + (nodes.filter (· ∉ s.found)).length

variable {nodes}

theorem left_note {s : Worklist α} {x : α} (hx : x ∈ nodes) :
    left nodes (s.note x) ≤ left nodes s := by
  rw [note]
  split
  · exact Nat.le_refl _
  · rename_i hnew
    have hlt : (nodes.filter (· ∉ s.found ++ [x])).length < (nodes.filter (· ∉ s.found)).length := by
      have heq : nodes.filter (· ∉ s.found ++ [x]) =
          (nodes.filter (· ∉ s.found)).filter (· ≠ x) := by
        rw [List.filter_filter]
        refine List.filter_congr (fun y _ => ?_)
        simp [and_comm]
      rw [heq]
      refine List.length_filter_lt_length_iff_exists.mpr ⟨x, ?_, by simp⟩
      simp [hx, hnew]
    simp only [left, List.length_cons]
    omega

theorem left_foldl {xs : List α} (hxs : ∀ x ∈ xs, x ∈ nodes) (s : Worklist α) :
    left nodes (xs.foldl note s) ≤ left nodes s := by
  induction xs generalizing s with
  | nil => exact Nat.le_refl _
  | cons x xs ih =>
    rw [List.foldl_cons]
    exact Nat.le_trans (ih (fun y hy => hxs y (List.mem_cons_of_mem x hy)) _)
      (left_note (hxs x List.mem_cons_self))

theorem left_body (hnodes : ∀ a, ∀ b ∈ next a, b ∈ nodes) {s t : Worklist α}
    (hb : body next s = .inl t) : left nodes t < left nodes s := by
  rw [body] at hb
  cases hq : s.queue with
  | nil =>
    rw [hq] at hb
    cases hb
  | cons curr queue =>
    rw [hq] at hb
    simp only at hb
    split at hb
    · obtain rfl := Sum.inl.inj hb
      simp only [left, hq, List.length_cons]
      omega
    · obtain rfl := Sum.inl.inj hb
      refine Nat.lt_of_le_of_lt (left_foldl (hnodes curr) _) ?_
      simp only [left, hq, List.length_cons]
      omega

end Termination

/-- In a finite graph the loop ends, with what can be reached. -/
theorem run_spec (roots : List α) {nodes : List α} (hnodes : ∀ a, ∀ b ∈ next a, b ∈ nodes) :
    ∃ fuel found, runLoop (body next) fuel (start roots) = some found ∧
      ∀ x, x ∈ found ↔ Reached next roots x := by
  obtain ⟨fuel, found, hrun⟩ := runLoop_of_measure (I := Inv next roots) (left nodes)
    (fun s t hs hb => ⟨inv_body hs hb, left_body hnodes hb⟩) inv_start
  obtain ⟨s, hs, hleave⟩ := runLoop_invariant (I := Inv next roots)
    (fun s t hs hb => inv_body hs hb) hrun inv_start
  refine ⟨fuel, found, hrun, fun x => ?_⟩
  rw [body] at hleave
  cases hq : s.queue with
  | nil =>
    rw [hq] at hleave
    obtain rfl := Sum.inr.inj hleave
    exact hs.complete hq x
  | cons curr queue =>
    rw [hq] at hleave
    simp only at hleave
    split at hleave <;> cases hleave

end Loop

end Worklist

end Blkcp.Lib
