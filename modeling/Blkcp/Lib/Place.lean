import Mathlib.Data.List.Induction
set_option autoImplicit false

/-! Positioned writes: their effect on the content of a file, and which of them reached a
position. -/

namespace Blkcp.Lib

variable {ι α : Type}

/-- `data` written at `pos` over `content`; a gap is filled with `zero`. -/
def placeAt (zero : α) (content : List α) (pos : Nat) (data : List α) : List α :=
  content.take pos ++ List.replicate (pos - content.length) zero ++ data ++
    content.drop (pos + data.length)

section PlaceAt

variable {zero : α}

@[simp] theorem placeAt_zero (content data : List α) :
    placeAt zero content 0 data = data ++ content.drop data.length := by
  simp [placeAt]

theorem placeAt_end (content data : List α) :
    placeAt zero content content.length data = content ++ data := by
  simp [placeAt]

theorem placeAt_nil (content : List α) (pos : Nat) (h : pos ≤ content.length) :
    placeAt zero content pos [] = content := by
  simp [placeAt, Nat.sub_eq_zero_of_le h]

theorem length_placeAt (content : List α) (pos : Nat) (data : List α) :
    (placeAt zero content pos data).length = max content.length (pos + data.length) := by
  simp only [placeAt, List.length_append, List.length_take, List.length_replicate,
    List.length_drop]
  omega

theorem length_prefix (zero : α) (content : List α) (pos : Nat) :
    (content.take pos ++ List.replicate (pos - content.length) zero).length = pos := by
  rw [List.length_append, List.length_take, List.length_replicate]
  omega

/-- Writing on where the last write ended. -/
theorem placeAt_append (content : List α) (pos : Nat) (a b : List α) :
    placeAt zero (placeAt zero content pos a) (pos + a.length) b =
      placeAt zero content pos (a ++ b) := by
  have hpre := length_prefix zero content pos
  have htake : (placeAt zero content pos a).take (pos + a.length) =
      content.take pos ++ List.replicate (pos - content.length) zero ++ a := by
    have hlen : (content.take pos ++ List.replicate (pos - content.length) zero ++ a).length =
        pos + a.length := by rw [List.length_append, hpre]
    rw [placeAt, List.take_append_of_le_length (Nat.le_of_eq hlen.symm),
      List.take_of_length_le (Nat.le_of_eq hlen)]
  have hdrop : (placeAt zero content pos a).drop (pos + a.length + b.length) =
      content.drop (pos + (a ++ b).length) := by
    rw [placeAt, List.drop_append,
      List.drop_of_length_le (by rw [List.length_append, hpre]; omega), List.length_append, hpre,
      List.drop_drop, List.nil_append, List.length_append]
    congr 1
    omega
  have hgap : pos + a.length - (placeAt zero content pos a).length = 0 := by
    rw [length_placeAt]
    omega
  rw [placeAt, htake, hdrop, hgap]
  simp [placeAt]

theorem getElem?_placeAt_inside (content : List α) {pos : Nat} {data : List α} {p : Nat}
    (h : pos ≤ p) (hp : p < pos + data.length) :
    (placeAt zero content pos data)[p]? = data[p - pos]? := by
  have hpre := length_prefix zero content pos
  rw [placeAt, List.getElem?_append_left (by rw [List.length_append, hpre]; exact hp),
    List.getElem?_append_right (by rw [hpre]; exact h), hpre]

theorem getElem?_placeAt_outside {content : List α} {pos : Nat} {data : List α} {p : Nat}
    (h : p < content.length) (hp : p < pos ∨ pos + data.length ≤ p) :
    (placeAt zero content pos data)[p]? = content[p]? := by
  have hpre := length_prefix zero content pos
  rcases hp with hp | hp
  · rw [placeAt, List.append_assoc, List.append_assoc,
      List.getElem?_append_left (by rw [List.length_take]; omega), List.getElem?_take_of_lt hp]
  · rw [placeAt, List.getElem?_append_right (by rw [List.length_append, hpre]; exact hp),
      List.getElem?_drop, List.length_append, hpre]
    congr 1
    omega

end PlaceAt

/-- A positioned write and who made it. -/
structure Placed (ι α : Type) where
  who : ι
  off : Nat
  bytes : List α

namespace Placed

/-- What the write puts at a position. -/
def cell? (w : Placed ι α) (p : Nat) : Option (ι × α) :=
  if w.off ≤ p then w.bytes[p - w.off]?.map (w.who, ·) else none

theorem cell?_eq_none_iff (w : Placed ι α) (p : Nat) :
    w.cell? p = none ↔ p < w.off ∨ w.off + w.bytes.length ≤ p := by
  simp only [cell?]
  split
  · rw [Option.map_eq_none_iff, List.getElem?_eq_none_iff]
    omega
  · simp
    omega

theorem cell?_eq_some {w : Placed ι α} {p : Nat} {x : ι × α} (h : w.cell? p = some x) :
    w.off ≤ p ∧ x.1 = w.who ∧ w.bytes[p - w.off]? = some x.2 := by
  simp only [cell?] at h
  split at h
  · rename_i hle
    obtain ⟨b, hb, rfl⟩ := Option.map_eq_some_iff.mp h
    exact ⟨hle, rfl, hb⟩
  · cases h

end Placed

/-- Who wrote what at a position, oldest first. -/
def cellsAt (log : List (Placed ι α)) (p : Nat) : List (ι × α) := log.filterMap (·.cell? p)

@[simp] theorem cellsAt_nil (p : Nat) : cellsAt ([] : List (Placed ι α)) p = [] := rfl

theorem cellsAt_snoc (log : List (Placed ι α)) (w : Placed ι α) (p : Nat) :
    cellsAt (log ++ [w]) p = cellsAt log p ++ (w.cell? p).toList := by
  simp only [cellsAt, List.filterMap_append]
  cases h : w.cell? p <;> simp [h]

/-- The content of a file after some writes. -/
def contentAfter (zero : α) (old : List α) (log : List (Placed ι α)) : List α :=
  log.foldl (fun content w => placeAt zero content w.off w.bytes) old

theorem contentAfter_snoc (zero : α) (old : List α) (log : List (Placed ι α)) (w : Placed ι α) :
    contentAfter zero old (log ++ [w]) =
      placeAt zero (contentAfter zero old log) w.off w.bytes := by
  simp [contentAfter]

theorem length_contentAfter (zero : α) (old : List α) (log : List (Placed ι α)) :
    old.length ≤ (contentAfter zero old log).length := by
  induction log using List.reverseRecOn with
  | nil => exact Nat.le_refl _
  | append_singleton log w ih =>
    rw [contentAfter_snoc, length_placeAt]
    omega

/-- The last write to reach a position decides what is there. -/
theorem getElem?_contentAfter (zero : α) (old : List α) {log : List (Placed ι α)} {p : Nat}
    {xs : List (ι × α)} {x : ι × α} (h : cellsAt log p = xs ++ [x]) :
    (contentAfter zero old log)[p]? = some x.2 := by
  induction log using List.reverseRecOn generalizing xs with
  | nil => simp at h
  | append_singleton log w ih =>
    rw [cellsAt_snoc] at h
    rw [contentAfter_snoc]
    cases hw : w.cell? p with
    | some y =>
      rw [hw] at h
      obtain ⟨-, rfl⟩ : cellsAt log p = xs ∧ y = x := by simpa using List.append_inj' h rfl
      obtain ⟨hle, -, hb⟩ := Placed.cell?_eq_some hw
      have hlt := (List.getElem?_eq_some_iff.mp hb).1
      rw [getElem?_placeAt_inside _ hle (by omega), hb]
    | none =>
      rw [hw] at h
      have hin := ih (by simpa using h)
      rw [getElem?_placeAt_outside (List.getElem?_eq_some_iff.mp hin).1
        ((w.cell?_eq_none_iff p).mp hw), hin]

/-- A position no write reached is as it was. -/
theorem getElem?_contentAfter_of_nil (zero : α) {old : List α} {log : List (Placed ι α)} {p : Nat}
    (h : cellsAt log p = []) (hp : p < old.length) :
    (contentAfter zero old log)[p]? = old[p]? := by
  induction log using List.reverseRecOn with
  | nil => rfl
  | append_singleton log w ih =>
    rw [cellsAt_snoc, List.append_eq_nil_iff, Option.toList_eq_nil_iff] at h
    rw [contentAfter_snoc, getElem?_placeAt_outside
      (Nat.lt_of_lt_of_le hp (length_contentAfter zero old log))
      ((w.cell?_eq_none_iff p).mp h.2), ih h.1]

/-- The writes of a log put pieces of `data` one behind the other, from `start` on. -/
inductive Consecutive (start : Nat) : List (Placed ι α) → List α → Prop where
  | nil : Consecutive start [] []
  | snoc {log : List (Placed ι α)} {data bytes : List α} {who : ι} :
      Consecutive start log data →
      Consecutive start (log ++ [⟨who, start + data.length, bytes⟩]) (data ++ bytes)

namespace Consecutive

variable {start : Nat} {log : List (Placed ι α)} {data : List α}

theorem flatMap_bytes (h : Consecutive start log data) : log.flatMap (·.bytes) = data := by
  induction h with
  | nil => rfl
  | snoc h ih => rw [List.flatMap_append, ih, List.flatMap_singleton]

/-- A log that has reached nothing yet may hold empty writes only. -/
theorem contentAfter_or (zero : α) (old : List α) (h : Consecutive start log data) :
    log = [] ∧ data = [] ∨ contentAfter zero old log = placeAt zero old start data := by
  induction h with
  | nil => exact .inl ⟨rfl, rfl⟩
  | @snoc log data bytes who h ih =>
    right
    rw [contentAfter_snoc]
    rcases ih with ⟨rfl, rfl⟩ | hdata
    · rfl
    · rw [hdata, placeAt_append]

theorem contentAfter_eq (zero : α) (old : List α) (h : Consecutive start log data)
    (hne : data ≠ []) : contentAfter zero old log = placeAt zero old start data := by
  rcases h.contentAfter_or zero old with ⟨-, hnil⟩ | hdata
  · exact absurd hnil hne
  · exact hdata

end Consecutive

end Blkcp.Lib
