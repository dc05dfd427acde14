import Mathlib.Algebra.Group.Nat.Defs
import Mathlib.Data.List.Basic
set_option autoImplicit false

/-! Configuration and counters of the C program (`blkcp_config.h`). -/

namespace Blkcp.C

inductive Engine where
  | auto | sync | async | reflink | uring | splice
  deriving DecidableEq, Repr

inductive HashAlgo where
  | none | sha256 | blake3 | blks
  deriving DecidableEq, Repr

/-- The bits of `conversions_mask`. -/
structure Conversions where
  swab : Bool := false
  noerror : Bool := false
  notrunc : Bool := false
  sync : Bool := false
  fdatasync : Bool := false
  fsync : Bool := false
  sparse : Bool := false
  autotune : Bool := false
  force : Bool := false
  sha256 : Bool := false
  async : Bool := false
  reflink : Bool := false
  uring : Bool := false
  splice : Bool := false
  nocreat : Bool := false
  excl : Bool := false
  blake3 : Bool := false
  blks : Bool := false
  deriving DecidableEq

/-- The bits of `input_flags` and `output_flags` that the drivers test. -/
structure IoFlags where
  direct : Bool := false
  nocache : Bool := false
  append : Bool := false
  countBytes : Bool := false
  asyncPipeline : Bool := false
  deriving DecidableEq

def intmaxMax : Nat := 2 ^ 63 - 1

/-- `input_blocksize` and `output_blocksize` are macros for `blocksize`. A negative `bytes_to_copy`
is `none`. -/
structure Config where
  inputFile : Option String := none
  outputFile : Option String := none
  blocksize : Nat := 512
  skipRecords : Nat := 0
  skipBytes : Nat := 0
  seekRecords : Nat := 0
  seekBytes : Nat := 0
  maxRecords : Nat := intmaxMax
  maxBytes : Nat := 0
  bytesToCopy : Option Nat := none
  engine : Engine := .auto
  hashAlgo : HashAlgo := .none
  conversions : Conversions := {}
  inputFlags : IoFlags := {}
  outputFlags : IoFlags := {}
  asyncQueueDepth : Nat := 0
  threads : Nat := 1
  iNocache : Bool := false
  oNocache : Bool := false
  deriving DecidableEq

structure Stats where
  rFull : Nat := 0
  rPartial : Nat := 0
  wFull : Nat := 0
  wPartial : Nat := 0
  wBytes : Nat := 0
  deriving DecidableEq

inductive ExitStatus where
  | success | failure
  deriving DecidableEq, Repr

/-- The stop test of the central loop of `dd_copy`. -/
def limitReached (cfg : Config) (stats : Stats) : Bool :=
  match cfg.bytesToCopy with
  | some limit => stats.wBytes ≥ limit
  | none =>
    stats.rPartial + stats.rFull ≥ cfg.maxRecords + if cfg.maxBytes ≠ 0 then 1 else 0

end Blkcp.C
