import Blkcp.C.SyncEffect
set_option autoImplicit false

/-! An input that hands out a byte string in order. -/

namespace Blkcp.C
open Blkcp.Lib

variable {ρ : Type} {I : Input ρ} {env : Env}

variable {rest : ρ → List Byte}

/-- An input that hands out a byte string in order; `rest` is what it has not handed out. -/
structure ReadsFrom (I : Input ρ) (rest : ρ → List Byte) : Prop where
  data : ∀ {s direct n bytes t}, I.read s direct n = (.ok bytes, t) →
    rest s = bytes ++ rest t ∧ (bytes = [] → n = 0 ∨ rest s = [])
  error : ∀ {s direct n e t}, I.read s direct n = (.error e, t) → rest t = rest s

/-- A read of `n` bytes from an input takes the first of its bytes; none only at its end. -/
structure Takes (rest : ρ → List Byte) (s : ρ) (n : Nat) (bytes : List Byte) (t : ρ) : Prop where
  rest_eq : rest s = bytes ++ rest t
  length_le : bytes.length ≤ n
  at_end : bytes = [] → n = 0 ∨ rest s = []

theorem ReadsFrom.takes (law : ReadsFrom I rest) {s t : ρ} {direct : Bool} {n : Nat}
    {bytes : List Byte} (h : I.read s direct n = (.ok bytes, t)) : Takes rest s n bytes t :=
  ⟨(law.data h).1, I.read_le h, (law.data h).2⟩

/-- What `dd_iread` gives, in whatever way it came to it. -/
def TookOr (rest : ρ → List Byte) (s : ρ) (n : Nat) (r : Except Errno (List Byte)) (t : ρ) : Prop :=
  match r with
  | .ok bytes => Takes rest s n bytes t
  | .error _ => rest t = rest s

theorem ReadsFrom.read (law : ReadsFrom I rest) (s : ρ) (direct : Bool) (n : Nat) :
    TookOr rest s n (I.read s direct n).1 (I.read s direct n).2 := by
  rcases h : I.read s direct n with ⟨_ | bytes, t⟩
  · exact law.error h
  · exact law.takes h

theorem TookOr.congr {s s' t : ρ} {n : Nat} {r : Except Errno (List Byte)}
    (h : TookOr rest s n r t) (hs : rest s = rest s') : TookOr rest s' n r t := by
  cases r with
  | error e => exact h.trans hs
  | ok bytes =>
    obtain ⟨h1, h2, h3⟩ := h
    rw [hs] at h1 h3
    exact ⟨h1, h2, h3⟩

theorem ReadsFrom.ddIread (law : ReadsFrom I rest) {direct : Bool} {s t : ρ} {n : Nat}
    {r : Except Errno (List Byte)} (h : ddIread I env direct s n = .ok (r, t)) :
    TookOr rest s n r t := by
  obtain ⟨u, hu, hleave⟩ := loop_ok (P := fun u => rest u = rest s)
    (fun u v hu hst => by
      simp only [ddIreadBody] at hst
      split at hst
      · cases hst
      · rename_i hread
        split at hst
        · obtain rfl := Sum.inl.inj hst
          exact (law.error hread).trans hu
        split at hst <;> cases hst) h rfl
  simp only [ddIreadBody] at hleave
  split at hleave
  · rename_i hread
    obtain ⟨rfl, rfl⟩ := Prod.mk.inj (Except.ok.inj (Sum.inr.inj hleave))
    exact TookOr.congr (law.takes hread) hu
  · rename_i input hread
    have hinput := (law.error hread).trans hu
    split at hleave
    · cases hleave
    split at hleave
    · have hlast := law.read input false n
      rw [Except.ok.inj (Sum.inr.inj hleave)] at hlast
      exact hlast.congr hinput
    · obtain ⟨rfl, rfl⟩ := Prod.mk.inj (Except.ok.inj (Sum.inr.inj hleave))
      exact hinput

end Blkcp.C
