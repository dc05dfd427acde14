import Mathlib.Data.List.Basic
import Mathlib.Logic.Function.Basic
set_option autoImplicit false

/-! Ring buffers: a queue in an array with a first index, a next free index and a count. -/

namespace Blkcp.Lib

/-- `count` slots from `head` on are in use, round the end of the array; `tail` is the next free
one. -/
structure RingBuffer (α : Type) where
  capacity : Nat
  slots : Nat → α
  head : Nat
  tail : Nat
  count : Nat

namespace RingBuffer

variable {α : Type} {r : RingBuffer α}

def store (r : RingBuffer α) (i : Nat) (a : α) : RingBuffer α :=
  { r with slots := Function.update r.slots i a }

def advanceTail (r : RingBuffer α) : RingBuffer α :=
  { r with tail := (r.tail + 1) % r.capacity, count := r.count + 1 }

def advanceHead (r : RingBuffer α) : RingBuffer α :=
  { r with head := (r.head + 1) % r.capacity, count := r.count - 1 }

/-- The slots in use, in order. -/
def contents (r : RingBuffer α) : List α :=
  (List.range r.count).map fun k => r.slots ((r.head + k) % r.capacity)

structure Valid (r : RingBuffer α) : Prop where
  count_le : r.count ≤ r.capacity
  head_lt : r.head < r.capacity
  tail_eq : r.tail = (r.head + r.count) % r.capacity

@[simp] theorem store_capacity (i : Nat) (a : α) : (r.store i a).capacity = r.capacity := rfl
@[simp] theorem store_head (i : Nat) (a : α) : (r.store i a).head = r.head := rfl
@[simp] theorem store_tail (i : Nat) (a : α) : (r.store i a).tail = r.tail := rfl
@[simp] theorem store_count (i : Nat) (a : α) : (r.store i a).count = r.count := rfl

@[simp] theorem advanceTail_capacity : r.advanceTail.capacity = r.capacity := rfl
@[simp] theorem advanceTail_slots : r.advanceTail.slots = r.slots := rfl
@[simp] theorem advanceTail_head : r.advanceTail.head = r.head := rfl
@[simp] theorem advanceTail_count : r.advanceTail.count = r.count + 1 := rfl

@[simp] theorem advanceHead_capacity : r.advanceHead.capacity = r.capacity := rfl
@[simp] theorem advanceHead_slots : r.advanceHead.slots = r.slots := rfl
@[simp] theorem advanceHead_tail : r.advanceHead.tail = r.tail := rfl
@[simp] theorem advanceHead_count : r.advanceHead.count = r.count - 1 := rfl

@[simp] theorem store_slots_self (i : Nat) (a : α) : (r.store i a).slots i = a :=
  Function.update_self ..

@[simp] theorem contents_length : r.contents.length = r.count := by simp [contents]

theorem contents_eq_nil : r.contents = [] ↔ r.count = 0 := by
  rw [← List.length_eq_zero_iff, contents_length]

/-- Two places less than a round apart are different slots. -/
theorem index_ne {head capacity i j : Nat} (hij : i < j) (hj : j < i + capacity) :
    (head + i) % capacity ≠ (head + j) % capacity := by
  intro h
  have hdvd : capacity ∣ (head + j) - (head + i) :=
    Nat.dvd_of_mod_eq_zero (Nat.sub_mod_eq_zero_of_mod_eq h.symm)
  have hle := Nat.le_of_dvd (by omega) hdvd
  omega

namespace Valid

theorem store (h : r.Valid) (i : Nat) (a : α) : (r.store i a).Valid :=
  ⟨h.count_le, h.head_lt, h.tail_eq⟩

theorem advanceTail (h : r.Valid) (hroom : r.count < r.capacity) : r.advanceTail.Valid where
  count_le := hroom
  head_lt := h.head_lt
  tail_eq := by
    show (r.tail + 1) % r.capacity = (r.head + (r.count + 1)) % r.capacity
    rw [h.tail_eq, Nat.mod_add_mod, Nat.add_assoc]

theorem advanceHead (h : r.Valid) (hpos : 0 < r.count) : r.advanceHead.Valid where
  count_le := Nat.le_trans (Nat.sub_le ..) h.count_le
  head_lt := Nat.mod_lt _ (Nat.zero_lt_of_lt h.head_lt)
  tail_eq := by
    show r.tail = ((r.head + 1) % r.capacity + (r.count - 1)) % r.capacity
    rw [h.tail_eq, Nat.mod_add_mod, Nat.add_assoc, Nat.add_sub_cancel' hpos]

/-- The first slot in use is not the free one. -/
theorem head_ne_tail (h : r.Valid) (hpos : 0 < r.count) (hroom : r.count < r.capacity) :
    r.head ≠ r.tail := by
  have hne : (r.head + 0) % r.capacity ≠ (r.head + r.count) % r.capacity :=
    index_ne hpos (by omega)
  rwa [Nat.add_zero, Nat.mod_eq_of_lt h.head_lt, ← h.tail_eq] at hne

/-- Writing to the free slot leaves the queue. -/
theorem contents_store (h : r.Valid) (hroom : r.count < r.capacity) (a : α) :
    (r.store r.tail a).contents = r.contents := by
  refine List.map_congr_left fun k hk => ?_
  have hlt : k < r.count := List.mem_range.mp hk
  refine Function.update_of_ne ?_ ..
  rw [store_capacity, store_head, h.tail_eq]
  exact index_ne hlt (by omega)

theorem contents_advanceTail (h : r.Valid) :
    r.advanceTail.contents = r.contents ++ [r.slots r.tail] := by
  simp only [contents, advanceTail_count, List.range_succ, List.map_append, List.map_cons,
    List.map_nil, advanceTail_slots, advanceTail_head, advanceTail_capacity]
  rw [← h.tail_eq]

theorem contents_advanceHead (h : r.Valid) (hpos : 0 < r.count) :
    r.contents = r.slots r.head :: r.advanceHead.contents := by
  obtain ⟨n, hn⟩ : ∃ n, r.count = n + 1 := ⟨r.count - 1, by omega⟩
  simp only [contents, advanceHead_count, hn, Nat.add_sub_cancel, List.range_succ_eq_map,
    List.map_cons, List.map_map, Nat.add_zero, Nat.mod_eq_of_lt h.head_lt]
  congr 1
  refine List.map_congr_left fun k _ => ?_
  show r.slots ((r.head + (k + 1)) % r.capacity) =
    r.slots (((r.head + 1) % r.capacity + k) % r.capacity)
  rw [Nat.mod_add_mod, Nat.add_assoc, Nat.add_comm 1 k]

end Valid

end RingBuffer

end Blkcp.Lib
