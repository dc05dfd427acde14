import Blkcp.Lib.Place
set_option autoImplicit false

/-! Output laid down piece by piece, where a piece may be passed over instead of written: what is
then read back, what lies outside, and how long the file is. -/

namespace Blkcp.Lib

variable {α : Type}

/-- `content` cut or extended to a length. -/
def resize (zero : α) (content : List α) (n : Nat) : List α :=
  content.take n ++ List.replicate (n - content.length) zero

/-- Bytes that are written, or a gap that is passed over. -/
inductive Piece (α : Type) where
  | data (bytes : List α)
  | gap (n : Nat)

namespace Piece

def isGap : Piece α → Bool
  | data _ => false
  | gap _ => true

/-- What the piece writes at each position it covers. -/
def cells : Piece α → List (Option α)
  | data bytes => bytes.map some
  | gap n => List.replicate n none

end Piece

def allCells (ps : List (Piece α)) : List (Option α) := ps.flatMap Piece.cells

/-- One piece at the position of a file; the position moves behind it. Writing nothing does nothing,
even behind the end. -/
def lay (zero : α) (f : List α × Nat) : Piece α → List α × Nat
  | .data bytes => if bytes = [] then f else (placeAt zero f.1 f.2 bytes, f.2 + bytes.length)
  | .gap n => (f.1, f.2 + n)

def layAll (zero : α) (f : List α × Nat) (ps : List (Piece α)) : List α × Nat :=
  ps.foldl (lay zero) f

/-- No piece writes nothing. -/
def Proper (ps : List (Piece α)) : Prop := ∀ p ∈ ps, p ≠ .data []

def endsInGap (ps : List (Piece α)) : Bool :=
  match ps.getLast? with
  | some p => p.isGap
  | none => false

/-- The content once all pieces are laid; a file that ends in a gap gets its length. -/
def sealed (zero : α) (old : List α) (start : Nat) (ps : List (Piece α)) : List α :=
  let f := layAll zero (old, start) ps
  if endsInGap ps then resize zero f.1 f.2 else f.1

/-- Cells seen over what lies beneath them. -/
def seeThrough (zero : α) : List (Option α) → List α → List α
  | [], _ => []
  | c :: cs, under => c.getD (under.headD zero) :: seeThrough zero cs under.tail

section Bytes

variable {zero : α}

theorem length_resize (content : List α) (n : Nat) : (resize zero content n).length = n := by
  rw [resize, List.length_append, List.length_take, List.length_replicate]
  omega

theorem getD_resize (content : List α) {n p : Nat} (h : p < n) :
    (resize zero content n).getD p zero = content.getD p zero := by
  simp only [List.getD_eq_getElem?_getD, resize]
  by_cases hp : p < content.length
  · rw [List.getElem?_append_left (by rw [List.length_take]; omega), List.getElem?_take_of_lt h]
  · rw [List.getElem?_append_right (by rw [List.length_take]; omega), List.getElem?_replicate,
      List.getElem?_eq_none (Nat.le_of_not_lt hp)]
    split <;> rfl

theorem getD_placeAt (content : List α) (pos : Nat) (data : List α) (p : Nat) :
    (placeAt zero content pos data).getD p zero =
      if pos ≤ p ∧ p < pos + data.length then data.getD (p - pos) zero
      else content.getD p zero := by
  simp only [List.getD_eq_getElem?_getD]
  split
  · rename_i h
    rw [getElem?_placeAt_inside content h.1 h.2]
  · rename_i h
    by_cases hp : p < content.length
    · rw [getElem?_placeAt_outside hp (by omega)]
    · have hpre := length_prefix zero content pos
      rw [List.getElem?_eq_none (Nat.le_of_not_lt hp)]
      by_cases hlt : p < pos
      · rw [placeAt, List.append_assoc, List.getElem?_append_left (by rw [hpre]; exact hlt),
          List.getElem?_append_right (by rw [List.length_take]; omega), List.getElem?_replicate]
        split <;> rfl
      · rw [List.getElem?_eq_none (by rw [length_placeAt]; omega)]

theorem length_seeThrough (cs : List (Option α)) (under : List α) :
    (seeThrough zero cs under).length = cs.length := by
  induction cs generalizing under with
  | nil => rfl
  | cons c cs ih => simp [seeThrough, ih]

theorem getElem?_seeThrough (cs : List (Option α)) (under : List α) (i : Nat) :
    (seeThrough zero cs under)[i]? = cs[i]?.map (·.getD (under.getD i zero)) := by
  induction cs generalizing under i with
  | nil => rfl
  | cons c cs ih =>
    cases i with
    | zero => cases under <;> rfl
    | succ i =>
      rw [seeThrough, List.getElem?_cons_succ, ih, List.getElem?_cons_succ]
      cases under <;> rfl

/-- Gaps read back as zeros where nothing else lies beneath them. -/
theorem seeThrough_eq_iff (cs : List (Option α)) (under : List α) :
    seeThrough zero cs under = cs.map (·.getD zero) ↔
      ∀ i, cs[i]? = some none → under.getD i zero = zero := by
  constructor
  · intro h i hi
    have hget := congrArg (·[i]?) h
    simp only [getElem?_seeThrough, List.getElem?_map, hi, Option.map_some] at hget
    exact Option.some.inj hget
  · intro h
    refine List.ext_getElem? fun i => ?_
    rw [getElem?_seeThrough, List.getElem?_map]
    rcases hi : cs[i]? with _ | c
    · rfl
    · cases c with
      | none => exact congrArg some (h i hi)
      | some b => rfl

end Bytes

section Pieces

variable {zero : α} {old : List α} {start : Nat} {ps : List (Piece α)}

theorem allCells_append (ps qs : List (Piece α)) :
    allCells (ps ++ qs) = allCells ps ++ allCells qs := List.flatMap_append

theorem length_cells_data (bytes : List α) : (Piece.data bytes).cells.length = bytes.length := by
  rw [Piece.cells, List.length_map]

theorem length_cells_gap (n : Nat) : (Piece.gap n : Piece α).cells.length = n := by
  rw [Piece.cells, List.length_replicate]

theorem layAll_snoc (f : List α × Nat) (ps : List (Piece α)) (p : Piece α) :
    layAll zero f (ps ++ [p]) = lay zero (layAll zero f ps) p := by
  rw [layAll, List.foldl_append]
  rfl

theorem endsInGap_snoc (ps : List (Piece α)) (p : Piece α) : endsInGap (ps ++ [p]) = p.isGap := by
  rw [endsInGap, List.getLast?_concat]

theorem allCells_snoc (ps : List (Piece α)) (p : Piece α) :
    allCells (ps ++ [p]) = allCells ps ++ p.cells := by
  rw [allCells_append]
  exact congrArg (allCells ps ++ ·) (List.flatMap_singleton Piece.cells p)

theorem lay_data (f : List α × Nat) {bytes : List α} (h : bytes ≠ []) :
    lay zero f (.data bytes) = (placeAt zero f.1 f.2 bytes, f.2 + bytes.length) := if_neg h

theorem lay_append (f : List α × Nat) (a b : List α) :
    lay zero (lay zero f (.data a)) (.data b) = lay zero f (.data (a ++ b)) := by
  by_cases ha : a = []
  · rw [ha, List.nil_append]
    rfl
  by_cases hb : b = []
  · rw [hb, List.append_nil]
    rfl
  rw [lay_data _ ha, lay_data _ hb, lay_data _ (by simp [ha]), placeAt_append,
    List.length_append, Nat.add_assoc]

/-- Bytes written one after the other are written as one. -/
theorem layAll_data (f : List α × Nat) (bs : List (List α)) :
    layAll zero f (bs.map .data) = lay zero f (.data bs.flatten) := by
  induction bs using List.reverseRecOn with
  | nil => rfl
  | append_singleton bs b ih =>
    rw [List.map_append, List.map_singleton, layAll_snoc, ih, lay_append, List.flatten_append,
      List.flatten_singleton]

theorem layAll_pos (f : List α × Nat) (ps : List (Piece α)) :
    (layAll zero f ps).2 = f.2 + (allCells ps).length := by
  induction ps using List.reverseRecOn with
  | nil => rfl
  | append_singleton ps p ih =>
    rw [layAll_snoc, allCells_snoc, List.length_append, ← Nat.add_assoc, ← ih]
    cases p with
    | data bytes =>
      rw [length_cells_data, lay]
      split
      · rename_i hnil
        rw [hnil]
        rfl
      · rfl
    | gap n =>
      rw [length_cells_gap]
      rfl

/-- Each position holds what was written there last, or what was there before. -/
theorem getD_layAll (old : List α) (start : Nat) (ps : List (Piece α)) (p : Nat) :
    (layAll zero (old, start) ps).1.getD p zero =
      if start ≤ p then ((allCells ps)[p - start]?.join).getD (old.getD p zero)
      else old.getD p zero := by
  induction ps using List.reverseRecOn with
  | nil => simp [layAll, allCells]
  | append_singleton ps q ih =>
    have hpos : (layAll zero (old, start) ps).2 = start + (allCells ps).length := layAll_pos _ _
    rw [layAll_snoc, allCells_snoc]
    cases q with
    | data bytes =>
      by_cases hnil : bytes = []
      · rw [hnil, lay, if_pos rfl, ih, Piece.cells, List.map_nil, List.append_nil]
      rw [lay_data _ hnil, getD_placeAt, ih, hpos]
      by_cases hs : start ≤ p
      · by_cases hin : p - start < (allCells ps).length
        · rw [if_neg (by omega), if_pos hs, if_pos hs, List.getElem?_append_left hin]
        · rw [if_pos hs, if_pos hs, List.getElem?_append_right (by omega), Piece.cells,
            List.getElem?_map, List.getElem?_eq_none (Nat.le_of_not_lt hin),
            show p - start - (allCells ps).length = p - (start + (allCells ps).length) by omega]
          split
          · rename_i hb
            rw [List.getD_eq_getElem?_getD, List.getElem?_eq_getElem (by omega)]
            rfl
          · rw [List.getElem?_eq_none (by omega)]
            rfl
      · rw [if_neg (by omega), if_neg hs, if_neg hs]
    | gap n =>
      rw [lay, ih]
      by_cases hs : start ≤ p
      · rw [if_pos hs, if_pos hs]
        by_cases hin : p - start < (allCells ps).length
        · rw [List.getElem?_append_left hin]
        · rw [List.getElem?_append_right (by omega), Piece.cells, List.getElem?_replicate,
            List.getElem?_eq_none (Nat.le_of_not_lt hin)]
          split <;> rfl
      · rw [if_neg hs, if_neg hs]

/-- Pieces only make a file longer, and no longer than they reach. -/
theorem length_layAll (zero : α) (old : List α) (start : Nat) (ps : List (Piece α)) :
    old.length ≤ (layAll zero (old, start) ps).1.length ∧
      (layAll zero (old, start) ps).1.length ≤ max old.length (start + (allCells ps).length) := by
  induction ps using List.reverseRecOn with
  | nil => exact ⟨Nat.le_refl _, Nat.le_max_left _ _⟩
  | append_singleton ps q ih =>
    have hpos : (layAll zero (old, start) ps).2 = start + (allCells ps).length := layAll_pos _ _
    rw [layAll_snoc, allCells_snoc, List.length_append]
    cases q with
    | data bytes =>
      rw [lay, length_cells_data]
      split
      · omega
      · rw [length_placeAt, hpos]
        omega
    | gap n =>
      simp only [lay]
      omega

theorem length_layAll_of_data (hp : Proper ps) (hne : ps ≠ []) (h : endsInGap ps = false) :
    (layAll zero (old, start) ps).1.length = max old.length (start + (allCells ps).length) := by
  cases ps using List.reverseRecOn with
  | nil => exact absurd rfl hne
  | append_singleton qs q =>
  have hpos : (layAll zero (old, start) qs).2 = start + (allCells qs).length := layAll_pos _ _
  have hlen := length_layAll zero old start qs
  rw [endsInGap_snoc] at h
  rw [layAll_snoc, allCells_snoc, List.length_append]
  cases q with
  | data bytes =>
    have hbytes : bytes ≠ [] := by
      rintro rfl
      exact hp _ (by simp) rfl
    rw [lay_data _ hbytes, length_placeAt, hpos, length_cells_data]
    omega
  | gap n => cases h

theorem sealed_data (old : List α) (start : Nat) {bs : List (List α)} (h : bs.flatten ≠ []) :
    sealed zero old start (bs.map .data) = placeAt zero old start bs.flatten := by
  have hend : endsInGap (bs.map .data : List (Piece α)) = false := by
    cases bs using List.reverseRecOn with
    | nil => rfl
    | append_singleton bs b =>
      rw [List.map_append, List.map_singleton, endsInGap_snoc]
      rfl
  rw [sealed, hend, layAll_data, lay_data _ h]
  rfl

theorem length_sealed_of_gap (h : endsInGap ps = true) :
    (sealed zero old start ps).length = start + (allCells ps).length := by
  rw [sealed, if_pos h, length_resize, layAll_pos]

theorem length_sealed_of_data (hp : Proper ps) (hne : ps ≠ []) (h : endsInGap ps = false) :
    (sealed zero old start ps).length = max old.length (start + (allCells ps).length) := by
  rw [sealed, if_neg (by rw [h]; exact Bool.false_ne_true), length_layAll_of_data hp hne h]

/-- The pieces cover what the file then holds. -/
theorem le_length_sealed (zero : α) (old : List α) (start : Nat) (hp : Proper ps) (hne : ps ≠ []) :
    start + (allCells ps).length ≤ (sealed zero old start ps).length := by
  cases h : endsInGap ps with
  | true => exact Nat.le_of_eq (length_sealed_of_gap h).symm
  | false =>
    rw [length_sealed_of_data hp hne h]
    exact Nat.le_max_right _ _

theorem getD_sealed (zero : α) (old : List α) {p : Nat}
    (h : p < start + (allCells ps).length ∨ endsInGap ps = false) :
    (sealed zero old start ps).getD p zero =
      if start ≤ p then ((allCells ps)[p - start]?.join).getD (old.getD p zero)
      else old.getD p zero := by
  rw [← getD_layAll, sealed]
  split
  · rename_i hgap
    rw [getD_resize]
    rw [layAll_pos]
    exact h.resolve_right (by simp [hgap])
  · rfl

/-- A file that was empty holds zeros before the pieces and in the gaps. -/
theorem sealed_fresh (start : Nat) {ps : List (Piece α)} (hp : Proper ps) (hne : ps ≠ []) :
    sealed zero [] start ps =
      List.replicate start zero ++ (allCells ps).map (·.getD zero) := by
  have hlen : (sealed zero [] start ps).length = start + (allCells ps).length := by
    cases hgap : endsInGap ps with
    | true => exact length_sealed_of_gap hgap
    | false =>
      rw [length_sealed_of_data hp hne hgap, List.length_nil]
      omega
  refine List.ext_getElem ?_ fun i hi _ => ?_
  · rw [hlen, List.length_append, List.length_replicate, List.length_map]
  rw [hlen] at hi
  have hreach : i < start + (allCells ps).length ∨ endsInGap ps = false := .inl hi
  have hget := getD_sealed zero [] hreach
  rw [List.getD_eq_getElem?_getD, List.getElem?_eq_getElem (by omega), Option.getD_some] at hget
  rw [hget]
  by_cases hi' : i < start
  · rw [if_neg (by omega), List.getElem_append_left (by rwa [List.length_replicate]),
      List.getElem_replicate]
    rfl
  · have hin : i - start < (allCells ps).length := by omega
    rw [if_pos (by omega), List.getElem_append_right (by rw [List.length_replicate]; omega),
      List.getElem_map, List.getElem?_eq_getElem hin]
    simp only [List.length_replicate, Option.join_some]
    rfl

/-- What is read back is what was written, seen over what lay beneath the gaps. -/
theorem readBack_sealed (old : List α) (start : Nat) {ps : List (Piece α)} (hp : Proper ps) :
    ((sealed zero old start ps).drop start).take (allCells ps).length =
      seeThrough zero (allCells ps) (old.drop start) := by
  by_cases hne : ps = []
  · subst hne
    simp [allCells, seeThrough]
  refine List.ext_getElem? fun i => ?_
  rw [getElem?_seeThrough]
  by_cases hi : i < (allCells ps).length
  · have hlen := le_length_sealed zero old start hp hne
    have hreach : start + i < start + (allCells ps).length ∨ endsInGap ps = false :=
      .inl (Nat.add_lt_add_left hi start)
    have hget := getD_sealed zero old hreach
    rw [if_pos (Nat.le_add_right _ _), Nat.add_sub_cancel_left, List.getElem?_eq_getElem hi,
      List.getD_eq_getElem?_getD, List.getElem?_eq_getElem (by omega)] at hget
    rw [List.getElem?_take_of_lt hi, List.getElem?_drop, List.getElem?_eq_getElem (by omega),
      List.getElem?_eq_getElem hi, List.getD_eq_getElem?_getD, List.getElem?_drop,
      ← List.getD_eq_getElem?_getD]
    exact congrArg some hget
  · rw [List.getElem?_eq_none (by rw [List.length_take]; omega),
      List.getElem?_eq_none (Nat.le_of_not_lt hi)]
    rfl

/-- A file keeps its length and all it holds outside the pieces, unless it ends in a gap inside. -/
theorem frame_sealed_iff (old : List α) (start : Nat) (ps : List (Piece α)) :
    (old.length ≤ (sealed zero old start ps).length ∧
      ∀ p < old.length, p < start ∨ start + (allCells ps).length ≤ p →
        (sealed zero old start ps)[p]? = old[p]?) ↔
    endsInGap ps = false ∨ old.length ≤ start + (allCells ps).length := by
  constructor
  · intro h
    cases hgap : endsInGap ps with
    | false => exact .inl rfl
    | true =>
      rw [length_sealed_of_gap hgap] at h
      exact .inr h.1
  · intro h
    have hlen : old.length ≤ (sealed zero old start ps).length := by
      cases hgap : endsInGap ps with
      | true =>
        rw [length_sealed_of_gap hgap]
        exact h.resolve_left (by simp [hgap])
      | false =>
        rw [sealed, if_neg (by simp [hgap])]
        exact (length_layAll zero old start ps).1
    refine ⟨hlen, fun p hp hout => ?_⟩
    have hreach : p < start + (allCells ps).length ∨ endsInGap ps = false := by
      rcases h with h | h
      · exact .inr h
      · exact .inl (Nat.lt_of_lt_of_le hp h)
    have hget := getD_sealed zero old hreach
    have hold : (if start ≤ p then ((allCells ps)[p - start]?.join).getD (old.getD p zero)
        else old.getD p zero) = old.getD p zero := by
      split
      · rw [List.getElem?_eq_none (by omega)]
        rfl
      · rfl
    rw [hold, List.getD_eq_getElem?_getD, List.getD_eq_getElem?_getD,
      List.getElem?_eq_getElem (by omega), List.getElem?_eq_getElem hp] at hget
    rw [List.getElem?_eq_getElem (by omega), List.getElem?_eq_getElem hp]
    exact congrArg some hget

end Pieces

end Blkcp.Lib
