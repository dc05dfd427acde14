import Mathlib.Data.Nat.Basic
set_option autoImplicit false

/-! A copy in blocks under a limit on the bytes and a limit on the blocks, whose writer may hold back
what is less than a block: how much it comes to. -/

namespace Blkcp.Lib

variable {apart : Bool} {b limit count avail n total : Nat}

/-- What is written of the bytes read: all, or the whole blocks. -/
def writtenOf (apart : Bool) (b total : Nat) : Nat := if apart then total / b * b else total

/-- What the next read asks for: no more than the limit leaves of what is written. -/
def ration (apart : Bool) (b limit count n total : Nat) : Nat :=
  min (limit - writtenOf apart b total) (if count ≤ n then 0 else b)

/-- What it brings. -/
def rationed (apart : Bool) (b limit count avail n total : Nat) : Nat :=
  min (ration apart b limit count n total) (avail - total)

/-- `n` reads that brought something have brought `total` bytes. -/
inductive Rations (apart : Bool) (b limit count avail : Nat) : Nat → Nat → Prop where
  | start : Rations apart b limit count avail 0 0
  | next {n total : Nat} : Rations apart b limit count avail n total →
      0 < rationed apart b limit count avail n total →
      Rations apart b limit count avail (n + 1)
        (total + rationed apart b limit count avail n total)

/-- The limit is written, or a read brings nothing. -/
def Satisfied (apart : Bool) (b limit count avail n total : Nat) : Prop :=
  limit ≤ writtenOf apart b total ∨ rationed apart b limit count avail n total = 0

/-- When a writer that holds back less than a block writes no more than the limit. -/
def NoOverrun (b limit count avail : Nat) : Prop :=
  b ∣ limit ∨ avail ≤ limit ∨ count ≤ limit / b + 1

theorem Rations.le_count (h : Rations apart b limit count avail n total) : n ≤ count := by
  cases h with
  | start => exact Nat.zero_le _
  | @next m t _ hpos =>
    rw [rationed, ration] at hpos
    split at hpos <;> omega

theorem Rations.le_avail (h : Rations apart b limit count avail n total) : total ≤ avail := by
  induction h with
  | start => exact Nat.zero_le _
  | next _ _ ih =>
    rw [rationed]
    omega

/-- When all is written that is read, the reads come up to the smaller bounds one block after the
other. -/
theorem Rations.total_eq (h : Rations false b limit count avail n total) :
    total = min (n * b) (min limit avail) := by
  induction h with
  | start => simp
  | @next n total h hpos ih =>
    have hcount := (h.next hpos).le_count
    simp only [rationed, ration, writtenOf, Bool.false_eq_true, if_false] at hpos ⊢
    rw [if_neg (by omega)] at hpos ⊢
    rw [Nat.succ_mul]
    omega

/-- A writer that holds nothing back stops at the smallest of the bounds. -/
theorem Rations.amount (hb : 0 < b) (h : Rations false b limit count avail n total)
    (hdone : Satisfied false b limit count avail n total) :
    total = min limit (min (count * b) avail) := by
  have htotal := h.total_eq
  have hcount := Nat.mul_le_mul_right b h.le_count
  have havail := h.le_avail
  simp only [Satisfied, rationed, ration, writtenOf, Bool.false_eq_true, if_false] at hdone
  by_cases hmax : count ≤ n
  · obtain rfl : n = count := Nat.le_antisymm h.le_count hmax
    omega
  · rw [if_neg hmax] at hdone
    omega

section Apart

/-- Where a writer of whole blocks is: below the limit by whole blocks, at the limit, or beyond. -/
inductive ApartAt (b limit avail : Nat) : Nat → Nat → Prop where
  | below {n total : Nat} : n ≤ limit / b → total = min (n * b) avail → ApartAt b limit avail n total
  | near {n total : Nat} : n = limit / b + 1 → limit / b * b < limit → total = min limit avail →
      ApartAt b limit avail n total
  | beyond {n total : Nat} : limit / b + 1 < n → limit / b * b < limit → limit < avail →
      limit < total → ApartAt b limit avail n total

theorem Rations.apartAt (hb : 0 < b) (h : Rations true b limit count avail n total) :
    ApartAt b limit avail n total := by
  induction h with
  | start => exact .below (Nat.zero_le _) (by simp)
  | @next n total h hpos ih =>
    have hcount := (h.next hpos).le_count
    have hle := h.le_avail
    have hfloor : limit / b * b ≤ limit := Nat.div_mul_le_self _ _
    have hceil : limit < limit / b * b + b := Nat.lt_div_mul_add hb
    simp only [rationed, ration, writtenOf, if_true] at hpos ⊢
    rw [if_neg (by omega)] at hpos ⊢
    cases ih with
    | below hn htotal =>
      have hsucc : (n + 1) * b = n * b + b := Nat.succ_mul _ _
      have hfull : total = n * b := by omega
      have hdiv : total / b * b = total := by rw [hfull, Nat.mul_div_cancel _ hb]
      rw [hdiv] at hpos ⊢
      rcases Nat.lt_or_ge n (limit / b) with hlt | hge
      · have hroom : (n + 1) * b ≤ limit / b * b := Nat.mul_le_mul_right b hlt
        refine .below hlt ?_
        omega
      · have hn : n = limit / b := Nat.le_antisymm hn hge
        rw [hn] at hfull
        refine .near (by omega) (by omega) ?_
        omega
    | near hn hrest htotal =>
      have hfull : total = limit := by omega
      refine .beyond (by omega) hrest (by omega) ?_
      omega
    | beyond hn hrest havail hover => exact .beyond (by omega) hrest havail (by omega)

/-- A writer of whole blocks stops at the smallest of the bounds exactly if no block goes beyond the
limit. -/
theorem Rations.amount_apart_iff (hb : 0 < b) (h : Rations true b limit count avail n total)
    (hdone : Satisfied true b limit count avail n total) :
    total = min limit (min (count * b) avail) ↔ NoOverrun b limit count avail := by
  have hcount := h.le_count
  have hmul := Nat.mul_le_mul_right b hcount
  have hfloor : limit / b * b ≤ limit := Nat.div_mul_le_self _ _
  have hceil : limit < limit / b * b + b := Nat.lt_div_mul_add hb
  have hwritten : total / b * b ≤ total := Nat.div_mul_le_self _ _
  have hle := h.le_avail
  have hdvd : limit / b * b = limit ↔ b ∣ limit := (Nat.dvd_iff_div_mul_eq _ _).symm
  simp only [Satisfied, rationed, ration, writtenOf, if_true] at hdone
  cases h.apartAt hb with
  | below hn htotal =>
    have hroom : n * b ≤ limit / b * b := Nat.mul_le_mul_right b hn
    by_cases hmax : count ≤ n
    · obtain rfl : n = count := Nat.le_antisymm hcount hmax
      exact ⟨fun _ => .inr (.inr (by omega)), fun _ => by omega⟩
    · rw [if_neg hmax] at hdone
      have hend : limit / b * b = limit ∨ avail ≤ limit := by omega
      exact ⟨fun _ => hend.imp hdvd.mp .inl, fun _ => by omega⟩
  | near hn hrest htotal =>
    have hblock : n * b = limit / b * b + b := by rw [hn, Nat.succ_mul]
    by_cases hmax : count ≤ n
    · obtain rfl : n = count := Nat.le_antisymm hcount hmax
      exact ⟨fun _ => .inr (.inr (by omega)), fun _ => by omega⟩
    · rw [if_neg hmax] at hdone
      have hheld : total / b * b ≤ limit / b * b :=
        Nat.mul_le_mul_right b (Nat.div_le_div_right (by omega))
      exact ⟨fun _ => .inr (.inl (by omega)), fun _ => by omega⟩
  | beyond hn hrest havail hover =>
    refine ⟨fun heq => by omega, ?_⟩
    rintro (hd | ha | hc)
    · rw [← hdvd] at hd
      omega
    · omega
    · omega

end Apart

end Blkcp.Lib
