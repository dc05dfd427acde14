import Blkcp.Lib.Stripes
import Mathlib.Data.List.Induction
set_option autoImplicit false

/-! Counting records of one size in a copy that is made in pieces: each piece counts the whole
records in it, and one more where a part of a record is left. -/

namespace Blkcp.Lib

variable {b c n : Nat} {pieces : List Nat}

def wholes (b : Nat) (pieces : List Nat) : Nat := (pieces.map (· / b)).sum

/-- One for a length that is not a number of whole records. -/
def part (b n : Nat) : Nat := if b ∣ n then 0 else 1

def parts (b : Nat) (pieces : List Nat) : Nat := (pieces.map (part b)).sum

@[simp] theorem wholes_snoc (b : Nat) (pieces : List Nat) (n : Nat) :
    wholes b (pieces ++ [n]) = wholes b pieces + n / b := by
  simp [wholes]

@[simp] theorem parts_snoc (b : Nat) (pieces : List Nat) (n : Nat) :
    parts b (pieces ++ [n]) = parts b pieces + part b n := by
  simp [parts]

theorem part_of_dvd (h : b ∣ n) : part b n = 0 := if_pos h

theorem part_of_not_dvd (h : ¬b ∣ n) : part b n = 1 := if_neg h

theorem part_le_one (b n : Nat) : part b n ≤ 1 := by
  rw [part]
  split <;> omega

/-- Behind whole records a piece counts as it would alone. -/
theorem add_of_dvd (hb : 0 < b) (n : Nat) {m : Nat} (h : b ∣ m) :
    (m + n) / b = m / b + n / b ∧ part b (m + n) = part b n := by
  obtain ⟨k, rfl⟩ := h
  refine ⟨?_, ?_⟩
  · rw [Nat.mul_add_div hb, Nat.mul_div_cancel_left k hb]
  · simp only [part, Nat.dvd_add_right (Nat.dvd_mul_right b k)]

/-- A piece of at most one record. -/
theorem count_of_le (hpos : 0 < n) (hle : n ≤ b) :
    n / b = (if n = b then 1 else 0) ∧ part b n = if n = b then 0 else 1 := by
  by_cases hn : n = b
  · rw [if_pos hn, if_pos hn, hn, Nat.div_self (by omega)]
    exact ⟨rfl, part_of_dvd (Nat.dvd_refl b)⟩
  · rw [if_neg hn, if_neg hn, Nat.div_eq_of_lt (by omega)]
    exact ⟨rfl, part_of_not_dvd fun hd => hn (Nat.le_antisymm hle (Nat.le_of_dvd hpos hd))⟩

/-- With at most one part counted, the counts are those of all that is copied. -/
theorem counts_of_parts (hb : 0 < b) (h : parts b pieces ≤ 1) :
    wholes b pieces = pieces.sum / b ∧ parts b pieces = part b pieces.sum := by
  induction pieces using List.reverseRecOn with
  | nil => simp [wholes, parts, part]
  | append_singleton pieces n ih =>
    rw [parts_snoc] at h
    obtain ⟨hwholes, hparts⟩ := ih (by omega)
    rw [wholes_snoc, parts_snoc, List.sum_append, List.sum_singleton, hwholes, hparts]
    by_cases hn : b ∣ n
    · obtain ⟨hdiv, hpart⟩ := add_of_dvd hb pieces.sum hn
      rw [Nat.add_comm pieces.sum, hdiv, hpart, part_of_dvd hn, Nat.add_comm (n / b)]
      exact ⟨rfl, rfl⟩
    · rw [part_of_not_dvd hn] at h ⊢
      have hzero : part b pieces.sum = 0 := by omega
      have hdvd : b ∣ pieces.sum := by
        by_contra hnot
        rw [part_of_not_dvd hnot] at hzero
        cases hzero
      obtain ⟨hdiv, hpart⟩ := add_of_dvd hb n hdvd
      rw [hdiv, hpart, hzero, part_of_not_dvd hn]
      exact ⟨rfl, rfl⟩

theorem counts_iff (hb : 0 < b) :
    (wholes b pieces = pieces.sum / b ∧ parts b pieces = part b pieces.sum) ↔
      parts b pieces ≤ 1 :=
  ⟨fun h => h.2 ▸ part_le_one b _, counts_of_parts hb⟩

/-- Pieces of one size, the last one possibly shorter. -/
structure Evenly (c : Nat) (pieces : List Nat) : Prop where
  init : ∀ n ∈ pieces.dropLast, n = c
  pos : ∀ n ∈ pieces, 0 < n
  le : ∀ n ∈ pieces, n ≤ c

namespace Evenly

theorem nil (c : Nat) : Evenly c [] := ⟨by simp, by simp, by simp⟩

theorem snoc (h : Evenly c pieces) (hall : ∀ n ∈ pieces, n = c) (hpos : 0 < n) (hle : n ≤ c) :
    Evenly c (pieces ++ [n]) where
  init := by
    rw [List.dropLast_concat]
    exact hall
  pos m hm := by
    rcases List.mem_append.mp hm with hm | hm
    · exact h.pos m hm
    · rwa [List.mem_singleton.mp hm]
  le m hm := by
    rcases List.mem_append.mp hm with hm | hm
    · exact h.le m hm
    · rwa [List.mem_singleton.mp hm]

theorem of_append {more : List Nat} (h : Evenly c (pieces ++ more)) : Evenly c pieces where
  init n hn := by
    cases more with
    | nil => exact h.init n (by rwa [List.append_nil])
    | cons m more =>
      refine h.init n ?_
      rw [List.dropLast_append_of_ne_nil (List.cons_ne_nil m more)]
      exact List.mem_append_left _ (List.dropLast_subset _ hn)
  pos n hn := h.pos n (List.mem_append_left _ hn)
  le n hn := h.le n (List.mem_append_left _ hn)

end Evenly

/-- Cut every `c`, at most one piece of `total` ends within a record. -/
def OneCut (c b total : Nat) : Prop := b ∣ c ∨ total ≤ c ∨ total < 2 * c ∧ b ∣ total - c

theorem parts_replicate (b c k : Nat) : parts b (List.replicate k c) = k * part b c := by
  rw [parts, List.map_replicate, List.sum_replicate_nat]

theorem Evenly.parts_le_one_iff (h : Evenly c pieces) :
    parts b pieces ≤ 1 ↔ OneCut c b pieces.sum := by
  induction pieces using List.reverseRecOn with
  | nil => simp [parts, OneCut]
  | append_singleton front n _ =>
    have hfront : front = List.replicate front.length c :=
      List.eq_replicate_of_mem fun m hm => h.init m (by rwa [List.dropLast_concat])
    have hpos := h.pos n (by simp)
    have hle := h.le n (by simp)
    rw [parts_snoc, List.sum_append, List.sum_singleton, hfront, parts_replicate,
      List.sum_replicate_nat]
    generalize front.length = k
    have hn := part_le_one b n
    by_cases hc : b ∣ c
    · rw [part_of_dvd hc, Nat.mul_zero, Nat.zero_add]
      exact ⟨fun _ => .inl hc, fun _ => hn⟩
    · rw [part_of_not_dvd hc, Nat.mul_one, OneCut]
      rcases k with _ | _ | k
      · simp only [Nat.zero_mul, Nat.zero_add]
        exact ⟨fun _ => .inr (.inl hle), fun _ => hn⟩
      · simp only [Nat.zero_add, Nat.one_mul, Nat.add_sub_cancel_left]
        by_cases hd : b ∣ n
        · rw [part_of_dvd hd]
          have hne : n ≠ c := by
            rintro rfl
            exact hc hd
          exact ⟨fun _ => .inr (.inr ⟨by omega, hd⟩), fun _ => Nat.le_refl 1⟩
        · rw [part_of_not_dvd hd]
          refine ⟨by omega, ?_⟩
          rintro (hc' | hc' | ⟨-, hd'⟩)
          · exact absurd hc' hc
          · omega
          · exact absurd hd' hd
      · refine ⟨by omega, ?_⟩
        have hmul : (k + 1 + 1) * c = k * c + 2 * c := by rw [Nat.add_assoc, Nat.add_mul]
        rw [hmul]
        rintro (hc' | hc' | ⟨hlt, -⟩)
        · exact absurd hc' hc
        · omega
        · omega

/-- The next piece: `c`, or what a limit leaves of it. -/
def ask (c : Nat) (remaining : Option Nat) : Nat :=
  match remaining with
  | some r => min r c
  | none => c

theorem ask_le (c : Nat) (remaining : Option Nat) : ask c remaining ≤ c := by
  simp only [ask]
  split
  · exact Nat.min_le_right _ _
  · exact Nat.le_refl _

/-- A copy that takes the pieces in turn, with `left` still to come. -/
structure Cutting (c : Nat) (pieces : List Nat) (remaining : Option Nat) (left : Nat) : Prop where
  even : Evenly c pieces
  whole : (∀ n ∈ pieces, n = c) ∨ remaining = some 0 ∨ left = 0

namespace Cutting

variable {remaining : Option Nat} {left : Nat}

theorem start (c : Nat) (remaining : Option Nat) (left : Nat) : Cutting c [] remaining left :=
  ⟨.nil c, .inl (by simp)⟩

/-- A piece is as long as it can be. -/
theorem next (h : Cutting c pieces remaining left) (hn : n = min (ask c remaining) left)
    (hpos : 0 < n) : Cutting c (pieces ++ [n]) (remaining.map (· - n)) (left - n) := by
  have hask := ask_le c remaining
  have hall : ∀ m ∈ pieces, m = c := by
    rcases h.whole with hall | rfl | rfl
    · exact hall
    · simp only [hn, ask, Nat.zero_min] at hpos
      cases hpos
    · rw [hn, Nat.min_zero] at hpos
      cases hpos
  refine ⟨h.even.snoc hall hpos (by omega), ?_⟩
  by_cases hfull : n = c
  · refine .inl (fun m hm => ?_)
    rcases List.mem_append.mp hm with hm | hm
    · exact hall m hm
    · rw [List.mem_singleton.mp hm, hfull]
  · refine .inr ?_
    by_cases hend : n = left
    · exact .inr (by omega)
    · cases remaining with
      | none =>
        simp only [ask] at hn
        omega
      | some r =>
        simp only [ask] at hn
        refine .inl ?_
        rw [Option.map_some, Option.some.injEq]
        omega

end Cutting

/-- The stripes below `total`, those with nothing in them left out. -/
theorem exists_evenly_stripes (b total : Nat) (hc : 0 < c) (k : Nat) :
    ∃ pieces, Evenly c pieces ∧ pieces.sum = ∑ j ∈ Finset.range k, stripeLen c total j ∧
      wholes b pieces = ∑ j ∈ Finset.range k, stripeLen c total j / b ∧
      parts b pieces = ∑ j ∈ Finset.range k, part b (stripeLen c total j) ∧
      (c * k ≤ total → ∀ n ∈ pieces, n = c) := by
  induction k with
  | zero => exact ⟨[], .nil c, rfl, rfl, rfl, by simp⟩
  | succ k ih =>
    obtain ⟨pieces, heven, hsum, hwholes, hparts, hall⟩ := ih
    simp only [Finset.sum_range_succ]
    by_cases hlt : c * k < total
    · have hlen : stripeLen c total k = min c (total - c * k) := rfl
      refine ⟨pieces ++ [stripeLen c total k],
        heven.snoc (hall (Nat.le_of_lt hlt)) (by omega) (by omega), ?_, ?_, ?_, fun hle n hn => ?_⟩
      · rw [List.sum_append, List.sum_singleton, hsum]
      · rw [wholes_snoc, hwholes]
      · rw [parts_snoc, hparts]
      · rw [Nat.mul_succ] at hle
        rcases List.mem_append.mp hn with hn | hn
        · exact hall (Nat.le_of_lt hlt) n hn
        · rw [List.mem_singleton.mp hn]
          omega
    · have hlen : stripeLen c total k = 0 := by
        rw [stripeLen]
        omega
      rw [hlen, Nat.zero_div, part_of_dvd (Nat.dvd_zero b)]
      refine ⟨pieces, heven, hsum, hwholes, hparts, fun hle => ?_⟩
      rw [Nat.mul_succ] at hle
      omega

end Blkcp.Lib
