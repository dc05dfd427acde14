import Blkcp.Blks.Encoding
import Blkcp.Blks.Tree
set_option autoImplicit false

/-! Configuration, counters, byte swapping and in-flight hashing of the Rust engines (`args.rs`,
`stats.rs`, `swab.rs`, `hash.rs`). -/

namespace Blkcp.Rust
open Blkcp.Blks

abbrev Path := String

inductive HashAlgo where
  | none | sha256 | blake3 | blks
  deriving DecidableEq, Repr

inductive Engine where
  | auto | sync | async | reflink | uring | splice
  deriving DecidableEq, Repr

structure Config where
  input : Option Path := none
  output : Option Path := none
  blockSize : Nat := 512
  count : Option Nat := none
  limitBytes : Option Nat := none
  skipBytes : Nat := 0
  seekBytes : Nat := 0
  engine : Engine := .auto
  threads : Nat := 1
  queueDepth : Option Nat := none
  progress : Bool := false
  json : Bool := false
  quiet : Bool := false
  force : Bool := false
  dryRun : Bool := false
  autotune : Bool := false
  direct : Bool := false
  nocache : Bool := false
  sparse : Bool := false
  sync : Bool := false
  swab : Bool := false
  fdatasync : Bool := false
  fsync : Bool := false
  notrunc : Bool := false
  noerror : Bool := false
  hashAlgo : HashAlgo := .none
  deriving DecidableEq

/-- The largest `u64`, at which `saturating_mul` stops. -/
def u64Max : Nat := 2 ^ 64 - 1

def saturatingMul (a b : Nat) : Nat := min (a * b) u64Max

structure Stats where
  recordsInFull : Nat := 0
  recordsInPart : Nat := 0
  recordsOutFull : Nat := 0
  recordsOutPart : Nat := 0
  bytesCopied : Nat := 0
  asyncCapacity : Nat := 0
  deriving DecidableEq

namespace Stats

def incInFull (s : Stats) : Stats := { s with recordsInFull := s.recordsInFull + 1 }
def incInPart (s : Stats) : Stats := { s with recordsInPart := s.recordsInPart + 1 }
def incOutFull (s : Stats) : Stats := { s with recordsOutFull := s.recordsOutFull + 1 }
def incOutPart (s : Stats) : Stats := { s with recordsOutPart := s.recordsOutPart + 1 }
def addBytes (s : Stats) (n : Nat) : Stats := { s with bytesCopied := s.bytesCopied + n }

/-- The counting of `copy_file_range` and `splice`, several blocks at a time. -/
def addRecords (s : Stats) (n bs : Nat) : Stats :=
  let s := { s with recordsInFull := s.recordsInFull + n / bs }
  let s := if n % bs ≠ 0 then s.incInPart else s
  let s := { s with recordsOutFull := s.recordsOutFull + n / bs }
  if n % bs ≠ 0 then s.incOutPart else s

end Stats

/-- What the engines need to know of a byte. Cells that also carry where they come from are an
instance, so a copy can be followed cell by cell. -/
class Octet (α : Type) where
  toByte : α → Byte
  zero : α

instance : Octet Byte where
  toByte b := b
  zero := 0

/-- A byte with its position in the input, or none if it is not from there. -/
abbrev Tagged := Byte × Option Nat

instance : Octet Tagged where
  toByte c := c.1
  zero := (0, none)

variable {α : Type}

def swabBuffer : List α → List α
  | a :: b :: rest => b :: a :: swabBuffer rest
  | short => short

@[simp] theorem length_swabBuffer (buf : List α) : (swabBuffer buf).length = buf.length := by
  induction buf using swabBuffer.induct with
  | case1 a b rest ih => simp [swabBuffer, ih]
  | case2 short h =>
    match short, h with
    | [], _ => rfl
    | [a], _ => rfl
    | a :: b :: rest, h => exact absurd rfl (h a b rest)

/-- A hasher of a third-party crate and the text its digest is printed as. -/
structure DigestCrate (η : Type) where
  new : η
  update : η → List Byte → η
  finalizeHex : η → String

/-- What the hasher is linked against: the two crates, and whether AVX2 is detected. -/
structure HashEnv (η₂ η₃ : Type) where
  sha2 : DigestCrate η₂
  blake3 : DigestCrate η₃
  avx2 : Bool

inductive InFlightHasher (η₂ η₃ : Type) where
  | none
  | sha256 (h : η₂)
  | blake3 (h : η₃)
  | blks (h : BlksHasher)

namespace InFlightHasher

variable {η₂ η₃ : Type} (env : HashEnv η₂ η₃)

def new : HashAlgo → InFlightHasher η₂ η₃
  | .none => .none
  | .sha256 => .sha256 env.sha2.new
  | .blake3 => .blake3 env.blake3.new
  | .blks => .blks BlksHasher.new

def update [Octet α] (hasher : InFlightHasher η₂ η₃) (chunk : List α) : InFlightHasher η₂ η₃ :=
  match hasher with
  | .none => .none
  | .sha256 h => .sha256 (env.sha2.update h (chunk.map Octet.toByte))
  | .blake3 h => .blake3 (env.blake3.update h (chunk.map Octet.toByte))
  | .blks h => .blks (BlksHasher.update env.avx2 h (chunk.map Octet.toByte))

/-- The digest as text with the name of its algorithm. `BlksHasher.finalize` does not panic on what
`update` builds. -/
def finalizeString : InFlightHasher η₂ η₃ → Option (String × String)
  | .none => Option.none
  | .sha256 h => some (env.sha2.finalizeHex h, "sha256")
  | .blake3 h => some (env.blake3.finalizeHex h, "blake3")
  | .blks h => h.finalize.map fun hash => (encodeBase64 hash, "blks")

@[simp] theorem update_none [Octet α] (chunk : List α) :
    update env (.none : InFlightHasher η₂ η₃) chunk = .none := rfl

end InFlightHasher

end Blkcp.Rust
