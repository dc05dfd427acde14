import Blkcp.Rust.ParsedRange
set_option autoImplicit false

/-! The aligned buffer (`aligned.rs`) in a release build, where the size that is rounded up may
wrap. -/

namespace Blkcp.Rust

structure Layout where
  size : Nat
  align : Nat
  deriving DecidableEq

def isizeMax : Nat := 2 ^ 63 - 1

def Layout.fromSizeAlign (size align : Nat) : Option Layout :=
  if align = 0 ∨ align &&& (align - 1) ≠ 0 then none
  else if isizeMax - (align - 1) < size then none
  else some ⟨size, align⟩

/-- `usize::next_multiple_of`. The sum wraps. -/
def nextMultipleOf (n rhs : Nat) : Nat :=
  if n % rhs = 0 then n else (n + (rhs - n % rhs)) % 2 ^ 64

structure AlignedBuffer where
  ptr : Nat
  layout : Layout
  capacity : Nat
  deriving DecidableEq

/-- What a call comes to that may not return. -/
inductive NewBuffer where
  | panicked
  | aborted
  | returned (b : AlignedBuffer)
  deriving DecidableEq

namespace AlignedBuffer

/-- `alloc` is `alloc_zeroed`: an address, or none where it returns the null pointer. -/
def new (alloc : Layout → Option Nat) (capacity alignment : Nat) : NewBuffer :=
  let align := max alignment 4096
  let allocSize := max (nextMultipleOf capacity align) align
  match Layout.fromSizeAlign allocSize align with
  | none => .panicked
  | some layout =>
    match alloc layout with
    | none => .aborted
    | some ptr => .returned ⟨ptr, layout, capacity⟩

/-- The address and the length of the slices that the buffer is seen as. -/
def deref (b : AlignedBuffer) : Nat × Nat := (b.ptr, b.capacity)

/-- The allocation is whole pages, and the slices stay in it. -/
structure Covers (b : AlignedBuffer) : Prop where
  pages : 4096 ∣ b.layout.size
  room : b.deref.2 ≤ b.layout.size

end AlignedBuffer

section Covers

variable {n : Nat}

theorem nextMultipleOf_exact (h : n ≤ 2 ^ 64 - 4096) :
    4096 ∣ nextMultipleOf n 4096 ∧ n ≤ nextMultipleOf n 4096 := by
  unfold nextMultipleOf
  split_ifs with hrem
  · exact ⟨Nat.dvd_of_mod_eq_zero hrem, Nat.le_refl n⟩
  · rw [Nat.mod_eq_of_lt (by omega)]
    omega

theorem nextMultipleOf_wrapped (h : 2 ^ 64 - 4096 < n) (hn : n ≤ u64Max) :
    nextMultipleOf n 4096 = 0 := by
  unfold u64Max at hn
  unfold nextMultipleOf
  rw [if_neg (by omega)]
  omega

theorem fromSizeAlign_eq_some {size align : Nat} {layout : Layout}
    (h : Layout.fromSizeAlign size align = some layout) : layout = ⟨size, align⟩ := by
  unfold Layout.fromSizeAlign at h
  split_ifs at h
  exact (Option.some.inj h).symm

variable (alloc : Layout → Option Nat)

theorem AlignedBuffer.new_covers (h : n ≤ 2 ^ 64 - 4096) {b : AlignedBuffer}
    (hb : AlignedBuffer.new alloc n 4096 = .returned b) : b.Covers := by
  obtain ⟨hdvd, hle⟩ := nextMultipleOf_exact h
  unfold AlignedBuffer.new at hb
  dsimp only at hb
  rw [Nat.max_self] at hb
  split at hb
  · cases hb
  · rename_i layout hlayout
    split at hb
    · cases hb
    · cases hb
      rw [fromSizeAlign_eq_some hlayout]
      refine ⟨?_, le_max_of_le_left hle⟩
      rcases max_choice (nextMultipleOf n 4096) 4096 with hmax | hmax
      · rwa [hmax]
      · rw [hmax]

/-- A size that wraps leaves one page. -/
theorem AlignedBuffer.new_wrapped (h : 2 ^ 64 - 4096 < n) (hn : n ≤ u64Max) :
    AlignedBuffer.new alloc n 4096 = match alloc ⟨4096, 4096⟩ with
      | none => .aborted
      | some ptr => .returned ⟨ptr, ⟨4096, 4096⟩, n⟩ := by
  have hlayout : Layout.fromSizeAlign 4096 4096 = some ⟨4096, 4096⟩ := by decide
  have hsize : max (nextMultipleOf n (max 4096 4096)) (max 4096 4096) = 4096 := by
    rw [Nat.max_self, nextMultipleOf_wrapped h hn, Nat.zero_max]
  unfold AlignedBuffer.new
  dsimp only
  rw [hsize, Nat.max_self, hlayout]

end Covers

/-- A buffer of an accepted block size that is returned covers its slices exactly up to a page below
2 ^ 64, unless not even a page is to be had. -/
theorem alignedBuffer_covers_iff (alloc : Layout → Option Nat) {args : List Text} {cfg : Config}
    (h : parseArgs args = .config cfg) :
    (∀ b, AlignedBuffer.new alloc cfg.blockSize 4096 = .returned b → b.Covers) ↔
      cfg.blockSize ≤ 2 ^ 64 - 4096 ∨ alloc ⟨4096, 4096⟩ = none := by
  have hle := (parseArgs_inRange h).blockSize_le
  constructor
  · intro hcovers
    by_contra hnot
    rw [not_or, Nat.not_le] at hnot
    obtain ⟨ptr, hptr⟩ := Option.ne_none_iff_exists'.mp hnot.2
    have hnew := AlignedBuffer.new_wrapped alloc hnot.1 hle
    rw [hptr] at hnew
    have hroom : cfg.blockSize ≤ 4096 := (hcovers _ hnew).room
    omega
  · rintro (hsmall | hnone) b hb
    · exact AlignedBuffer.new_covers alloc hsmall hb
    · rcases Nat.lt_or_ge (2 ^ 64 - 4096) cfg.blockSize with hbig | hsmall
      · rw [AlignedBuffer.new_wrapped alloc hbig hle, hnone] at hb
        cases hb
      · exact AlignedBuffer.new_covers alloc hsmall hb

/-- The default block size, and an allocator that gives out one address. -/
theorem alignedBuffer_covers_default : (∀ b,
    AlignedBuffer.new (fun _ => some 4096) ({} : Config).blockSize 4096 = .returned b → b.Covers) ↔
      ({} : Config).blockSize ≤ 2 ^ 64 - 4096 ∨ some 4096 = (none : Option Nat) := by
  have hparsed : parseArgs [] = .config {} := rfl
  exact alignedBuffer_covers_iff (fun _ => some 4096) hparsed

/-- The largest block size is accepted, and its buffer has one page. -/
theorem alignedBuffer_uncovered :
    parseArgs ["-b".toList, "18446744073709551615".toList] =
      .config { blockSize := 18446744073709551615 } ∧
    ∃ b, AlignedBuffer.new (fun _ => some 4096) 18446744073709551615 4096 = .returned b ∧
      b.layout.size = 4096 ∧ ¬ b.Covers := by
  refine ⟨by decide +kernel, ⟨4096, ⟨4096, 4096⟩, 18446744073709551615⟩, by decide, rfl, ?_⟩
  intro h
  exact absurd h.room (by decide)

end Blkcp.Rust
