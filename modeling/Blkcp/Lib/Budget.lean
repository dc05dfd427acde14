import Mathlib.Data.Nat.Basic
set_option autoImplicit false

/-! Taking from a supply until a limit is used up or the supply is. -/

namespace Blkcp.Lib

/-- What a limit leaves of an amount; none leaves it all. -/
def cap (limit : Option Nat) (n : Nat) : Nat :=
  match limit with
  | some l => min l n
  | none => n

@[simp] theorem cap_none (n : Nat) : cap none n = n := rfl

@[simp] theorem cap_some (l n : Nat) : cap (some l) n = min l n := rfl

/-- Two limits are as good as the smaller one. -/
theorem cap_min (a b n : Nat) : cap (some (min a b)) n = cap (some a) (cap (some b) n) :=
  Nat.min_assoc a b n

/-- Nothing is left of a limit: it is what was taken. -/
theorem eq_some_of_left {total : Option Nat} {k : Nat} (hle : ∀ t, total = some t → k ≤ t)
    (h : total.map (· - k) = some 0) : total = some k := by
  cases total with
  | none => cases h
  | some t =>
    have hk := hle t rfl
    have hsub : t - k = 0 := Option.some.inj h
    exact congrArg some (by omega)

/-- `k` is taken of `supply` under the limit `total`, of which `remaining` is left. -/
structure Budget (total : Option Nat) (supply k : Nat) (remaining : Option Nat) : Prop where
  remaining_eq : remaining = total.map (· - k)
  le_supply : k ≤ supply
  le_total : ∀ t, total = some t → k ≤ t

namespace Budget

variable {total remaining : Option Nat} {supply k n : Nat}

theorem start (total : Option Nat) (supply : Nat) : Budget total supply 0 total where
  remaining_eq := by cases total <;> rfl
  le_supply := Nat.zero_le supply
  le_total t _ := Nat.zero_le t

theorem take (h : Budget total supply k remaining) (hs : k + n ≤ supply)
    (hr : ∀ r, remaining = some r → n ≤ r) :
    Budget total supply (k + n) (remaining.map (· - n)) where
  remaining_eq := by
    rw [h.remaining_eq, Option.map_map]
    cases total with
    | none => rfl
    | some t => exact congrArg some (Nat.sub_sub t k n)
  le_supply := hs
  le_total t ht := by
    have hle := h.le_total t ht
    have hn := hr (t - k) (by rw [h.remaining_eq, ht]; rfl)
    omega

/-- Nothing remains: as much is taken as the limit leaves. -/
theorem eq_of_zero (h : Budget total supply k remaining) (hz : remaining = some 0) :
    k = cap total supply := by
  have hsupply := h.le_supply
  rw [eq_some_of_left h.le_total (h.remaining_eq ▸ hz), cap, Nat.min_eq_left hsupply]

/-- The supply is used up. -/
theorem eq_of_supply (h : Budget total supply k remaining) (he : k = supply) :
    k = cap total supply := by
  cases htotal : total with
  | none => exact he
  | some t =>
    have hle := h.le_total t htotal
    simp only [cap]
    omega

end Budget

end Blkcp.Lib
