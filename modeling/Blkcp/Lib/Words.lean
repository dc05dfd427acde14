import Mathlib.Data.List.DropRight
set_option autoImplicit false

/-! The words of a text: what stands between separators, where that is something. -/

namespace Blkcp.Lib

variable {α : Type} {sep : α → Bool}

def words (sep : α → Bool) (t : List α) : List (List α) :=
  (t.splitOnP sep).filter fun w => !w.isEmpty

/-- No character of the text is a separator. -/
def Unsplit (sep : α → Bool) (t : List α) : Prop := ∀ c ∈ t, sep c = false

instance (t : List α) : Decidable (Unsplit sep t) := List.decidableBAll _ t

theorem words_append_cons {c : α} (hc : sep c = true) (s t : List α) :
    words sep (s ++ c :: t) = words sep s ++ words sep t := by
  unfold words
  rw [List.splitOnP_append_cons s t hc, List.filter_append]

theorem words_nil : words sep ([] : List α) = [] := rfl

theorem words_of_unsplit {t : List α} (h : Unsplit sep t) (hne : t ≠ []) : words sep t = [t] := by
  unfold words
  rw [List.splitOnP_eq_singleton h, List.filter_cons_of_pos (by simpa using hne), List.filter_nil]

theorem words_cons {c : α} (hc : sep c = true) (t : List α) :
    words sep (c :: t) = words sep t := words_append_cons hc [] t

theorem words_concat {c : α} (hc : sep c = true) (t : List α) :
    words sep (t ++ [c]) = words sep t := by
  rw [words_append_cons hc, words_nil, List.append_nil]

/-- A text without separators, or one that is cut at its first one. -/
theorem word_induction {P : List α → Prop} (hunsplit : ∀ t, Unsplit sep t → P t)
    (hcut : ∀ s c t, Unsplit sep s → sep c = true → P t → P (s ++ c :: t)) (t : List α) : P t := by
  induction hn : t.length using Nat.strongRecOn generalizing t with
  | ind n ih =>
    by_cases h : Unsplit sep t
    · exact hunsplit t h
    · have hsplit := List.takeWhile_append_dropWhile (p := fun c => !sep c) (l := t)
      have hs : Unsplit sep (t.takeWhile fun c => !sep c) := fun c hc => by
        simpa using List.mem_takeWhile_imp hc
      cases hd : t.dropWhile fun c => !sep c with
      | nil =>
        rw [hd, List.append_nil] at hsplit
        rw [hsplit] at hs
        exact absurd hs h
      | cons c u =>
        have hc : sep c = true := by
          have := List.head_dropWhile_not (fun c => !sep c) (l := t) (by simp [hd])
          simpa [hd] using this
        have hlen : u.length < n := by
          rw [← hn, ← hsplit, hd]
          simp
          omega
        rw [← hsplit, hd]
        exact hcut _ c u hs hc (ih _ hlen u rfl)

theorem mem_words {t w : List α} (h : w ∈ words sep t) : w ≠ [] ∧ Unsplit sep w := by
  induction t using @word_induction _ sep with
  | hunsplit t ht =>
    by_cases hne : t = []
    · subst hne
      cases h
    · rw [words_of_unsplit ht hne, List.mem_singleton] at h
      subst h
      exact ⟨hne, ht⟩
  | hcut s c t hs hc ih =>
    rw [words_append_cons hc, List.mem_append] at h
    rcases h with h | h
    · by_cases hne : s = []
      · subst hne
        cases h
      · rw [words_of_unsplit hs hne, List.mem_singleton] at h
        subst h
        exact ⟨hne, hs⟩
    · exact ih h

theorem subset_of_mem_words {t w : List α} (h : w ∈ words sep t) : w ⊆ t := by
  induction t using @word_induction _ sep with
  | hunsplit t ht =>
    by_cases hne : t = []
    · subst hne
      cases h
    · rw [words_of_unsplit ht hne, List.mem_singleton] at h
      exact h ▸ List.Subset.refl t
  | hcut s c t hs hc ih =>
    rw [words_append_cons hc, List.mem_append] at h
    rcases h with h | h
    · by_cases hne : s = []
      · subst hne
        cases h
      · rw [words_of_unsplit hs hne, List.mem_singleton] at h
        exact h ▸ List.subset_append_left s (c :: t)
    · have htail : t ⊆ s ++ c :: t :=
        List.Subset.trans (List.subset_cons_self c t) (List.subset_append_right s (c :: t))
      exact List.Subset.trans (ih h) htail

theorem forall_of_words_eq_nil {t : List α} (h : words sep t = []) : ∀ c ∈ t, sep c = true := by
  induction t using @word_induction _ sep with
  | hunsplit t ht =>
    by_cases hne : t = []
    · subst hne
      nofun
    · rw [words_of_unsplit ht hne] at h
      cases h
  | hcut s c t hs hc ih =>
    rw [words_append_cons hc, List.append_eq_nil_iff] at h
    by_cases hne : s = []
    · subst hne
      exact List.forall_mem_cons.mpr ⟨hc, ih h.2⟩
    · rw [words_of_unsplit hs hne] at h
      cases h.1

theorem words_dropWhile (t : List α) : words sep (t.dropWhile sep) = words sep t := by
  induction t with
  | nil => rfl
  | cons c t ih =>
    by_cases hc : sep c = true
    · rw [List.dropWhile_cons_of_pos hc, ih, words_cons hc]
    · rw [List.dropWhile_cons_of_neg hc]

theorem words_rdropWhile (t : List α) : words sep (t.rdropWhile sep) = words sep t := by
  induction t using List.reverseRecOn with
  | nil => rfl
  | append_singleton t c ih =>
    by_cases hc : sep c = true
    · rw [List.rdropWhile_concat_pos _ _ _ hc, ih, words_concat hc]
    · rw [List.rdropWhile_concat_neg _ _ _ hc]

/-- Texts that are joined by a separator keep their words. -/
theorem words_intercalate {c : α} (hc : sep c = true) (parts : List (List α)) :
    words sep ([c].intercalate parts) = parts.flatMap (words sep) := by
  induction parts with
  | nil => rfl
  | cons p parts ih =>
    cases parts with
    | nil => simp
    | cons q parts =>
      rw [List.intercalate_cons_cons, List.append_assoc, List.singleton_append, words_append_cons hc,
        ih]
      rfl

end Blkcp.Lib
