import Blkcp.Lib.Stripes
import Blkcp.Lib.Transition
import Blkcp.Blks.Stream
import Blkcp.Rust.Transfer
set_option autoImplicit false

/-! `execute_uring_sharded`: workers with a ring each copy the stripes they claim. -/

namespace Blkcp.Rust
open Blkcp.Lib Blkcp.Blks

variable {n : Nat}

/-- A stripe's base and the hashes of its leaves. -/
abbrev StripeLeaves := Nat × List Digest

inductive ShardPhase where
  | starting
  | check
  | claiming
  | stripe (base done : Nat) (leaves : List Digest)
  | reading (base done : Nat) (leaves : List Digest)
  | writing (base done : Nat) (leaves : List Digest) (bytes : List Byte) (written : Nat)
  | done (result : Except String (List StripeLeaves))

/-- The worker pushes an entry to its ring and waits for the completion. -/
def ShardPhase.inRing : ShardPhase → Bool
  | .reading _ _ _ => true
  | .writing _ _ _ bytes written => written < bytes.length
  | _ => false

structure ShardWorker where
  phase : ShardPhase
  stripes : List StripeLeaves

structure ShardState (n : Nat) where
  workers : Fin n → ShardWorker
  nextOffset : Nat
  abortFlag : Bool
  cancelled : Bool
  log : List (Placed (Fin n) Byte)
  stats : Stats

/-- The thread count is clamped. -/
def numWorkers (cfg : Config) : Nat := max 2 (min cfg.threads 64)

def shardChunkSize (cfg : Config) : Nat := max (64 * 1024 * 1024) cfg.blockSize

def explicitLimit (cfg : Config) : Option Nat :=
  cfg.limitBytes.or (cfg.count.map (saturatingMul · (effectiveBlockSize cfg)))

/-- `metaLen` is the length the input's metadata gives. -/
def totalBytesToCopy (cfg : Config) (metaLen : Option Nat) : Option Nat :=
  (explicitLimit cfg).or ((metaLen.map (· - cfg.skipBytes)).filter (0 < ·))

/-- Whether the leaves of a digest can be hashed stripe by stripe. -/
def canParallelBlks (cfg : Config) (metaLen : Option Nat) : Bool :=
  let fileRem := match metaLen with
    | some len => len - cfg.skipBytes
    | none => 0
  let effectiveLen := match explicitLimit cfg with
    | some lim => min lim fileRem
    | none => fileRem
  cfg.hashAlgo = .blks && effectiveBlockSize cfg % chunkSize = 0 && effectiveLen > chunkSize

/-- Whether `execute_uring_transfer` copies with `execute_uring_sharded`. -/
def takesSharded (cfg : Config) (metaLen : Option Nat) : Bool :=
  cfg.threads > 1 && (cfg.hashAlgo = .none || canParallelBlks cfg metaLen)

def thisChunkLen (cfg : Config) (metaLen : Option Nat) (base : Nat) : Nat :=
  match totalBytesToCopy cfg metaLen with
  | some total => min (total - base) (shardChunkSize cfg)
  | none => shardChunkSize cfg

/-- The length of a read request, as the `u32` of the submission entry. -/
def readRequest (cfg : Config) (metaLen : Option Nat) (base done : Nat) : Nat :=
  min (thisChunkLen cfg metaLen base - done) (effectiveBlockSize cfg) % 2 ^ 32

inductive ShardAct (n : Nat) where
  | setCancel
  | starts (w : Fin n) | startFails (w : Fin n)
  | stops (w : Fin n) | passes (w : Fin n)
  | exhausts (w : Fin n) | claims (w : Fin n)
  | finishes (w : Fin n) | cancels (w : Fin n) | submits (w : Fin n)
  | reads (w : Fin n) (m : Nat) | readsEof (w : Fin n) | readInterrupted (w : Fin n)
  | readFails (w : Fin n)
  | writes (w : Fin n) (m : Nat) | writeInterrupted (w : Fin n) | writeFails (w : Fin n)
  | counts (w : Fin n)
  | breaks (w : Fin n)
  deriving DecidableEq

namespace ShardState

def phase (s : ShardState n) (w : Fin n) : ShardPhase := (s.workers w).phase

def goto (s : ShardState n) (w : Fin n) (phase : ShardPhase) : ShardState n :=
  { s with workers := Function.update s.workers w { s.workers w with phase := phase } }

/-- A stripe without a leaf is not kept. -/
def pushStripe (s : ShardState n) (cfg : Config) (w : Fin n) (base : Nat) (leaves : List Digest) :
    List StripeLeaves :=
  if cfg.hashAlgo = .blks ∧ leaves ≠ [] then (s.workers w).stripes ++ [(base, leaves)]
  else (s.workers w).stripes

end ShardState

variable (cfg : Config) (metaLen : Option Nat) (input : List Byte)

def ShardState.start (n : Nat) (stats : Stats) : ShardState n where
  workers _ := ⟨.starting, []⟩
  nextOffset := 0
  abortFlag := false
  cancelled := false
  log := []
  stats := stats

def countShardBlock (stats : Stats) (nread : Nat) : Stats :=
  let stats := stats.addBytes nread
  if nread = effectiveBlockSize cfg then stats.incInFull.incOutFull
  else stats.incInPart.incOutPart

/-- One step of one worker. A load of a flag may give an old `false`. `reads` and `writes` are
completions with a positive or zero length, `breaks` is a ring operation that fails. -/
inductive ShardStep : ShardState n → ShardAct n → ShardState n → Prop where
  | setCancel (s : ShardState n) : ShardStep s .setCancel { s with cancelled := true }
  | starts (s : ShardState n) (w : Fin n) : s.phase w = .starting →
      ShardStep s (.starts w) (s.goto w .check)
  | startFails (s : ShardState n) (w : Fin n) (e : String) : s.phase w = .starting →
      ShardStep s (.startFails w) (s.goto w (.done (.error ("io_uring worker init failed: " ++ e))))
  | stops (s : ShardState n) (w : Fin n) : s.phase w = .check →
      s.abortFlag = true ∨ s.cancelled = true →
      ShardStep s (.stops w) (s.goto w (.done (.ok (s.workers w).stripes)))
  | passes (s : ShardState n) (w : Fin n) : s.phase w = .check →
      ShardStep s (.passes w) (s.goto w .claiming)
  | exhausts (s : ShardState n) (w : Fin n) (total : Nat) : s.phase w = .claiming →
      totalBytesToCopy cfg metaLen = some total → total ≤ s.nextOffset →
      ShardStep s (.exhausts w)
        { s.goto w (.done (.ok (s.workers w).stripes)) with
          nextOffset := s.nextOffset + shardChunkSize cfg }
  | claims (s : ShardState n) (w : Fin n) : s.phase w = .claiming →
      (∀ total, totalBytesToCopy cfg metaLen = some total → s.nextOffset < total) →
      ShardStep s (.claims w)
        { s.goto w (.stripe s.nextOffset 0 []) with
          nextOffset := s.nextOffset + shardChunkSize cfg }
  | finishes (s : ShardState n) (w : Fin n) (base done : Nat) (leaves : List Digest) :
      s.phase w = .stripe base done leaves → thisChunkLen cfg metaLen base ≤ done →
      ShardStep s (.finishes w)
        { s with workers := Function.update s.workers w ⟨.check, s.pushStripe cfg w base leaves⟩ }
  | cancels (s : ShardState n) (w : Fin n) (base done : Nat) (leaves : List Digest) :
      s.phase w = .stripe base done leaves → done < thisChunkLen cfg metaLen base →
      s.cancelled = true →
      ShardStep s (.cancels w) (s.goto w (.done (.error "Transfer cancelled by user")))
  | submits (s : ShardState n) (w : Fin n) (base done : Nat) (leaves : List Digest) :
      s.phase w = .stripe base done leaves → done < thisChunkLen cfg metaLen base →
      ShardStep s (.submits w) (s.goto w (.reading base done leaves))
  | reads (s : ShardState n) (w : Fin n) (m base done : Nat) (leaves : List Digest)
      (bytes : List Byte) : s.phase w = .reading base done leaves → 0 < m →
      m ≤ readRequest cfg metaLen base done →
      bytes = (input.drop (cfg.skipBytes + base + done)).take m → bytes.length = m →
      ShardStep s (.reads w m)
        (s.goto w (.writing base done
          (if cfg.hashAlgo = .blks then leaves ++ Blks.leaves bytes else leaves) bytes 0))
  | readsEof (s : ShardState n) (w : Fin n) (base done : Nat) (leaves : List Digest) :
      s.phase w = .reading base done leaves →
      readRequest cfg metaLen base done = 0 ∨ input.length ≤ cfg.skipBytes + base + done →
      ShardStep s (.readsEof w)
        { s with
          abortFlag := true
          workers := Function.update s.workers w
            ⟨.done (.ok (s.pushStripe cfg w base leaves)), s.pushStripe cfg w base leaves⟩ }
  | readInterrupted (s : ShardState n) (w : Fin n) (base done : Nat) (leaves : List Digest) :
      s.phase w = .reading base done leaves →
      ShardStep s (.readInterrupted w) (s.goto w (.stripe base done leaves))
  | readFails (s : ShardState n) (w : Fin n) (base done : Nat) (leaves : List Digest)
      (err : String) : s.phase w = .reading base done leaves →
      ShardStep s (.readFails w)
        { s.goto w (.done (.error ("io_uring sharded read error: errno " ++ err))) with
          abortFlag := true }
  | writes (s : ShardState n) (w : Fin n) (m base done : Nat) (leaves : List Digest)
      (bytes : List Byte) (written : Nat) : s.phase w = .writing base done leaves bytes written →
      written < bytes.length → m ≤ (bytes.length - written) % 2 ^ 32 →
      ShardStep s (.writes w m)
        { s.goto w (.writing base done leaves bytes (written + m)) with
          log := s.log ++
            [⟨w, cfg.seekBytes + base + done + written, (bytes.drop written).take m⟩] }
  | writeInterrupted (s : ShardState n) (w : Fin n) (base done : Nat) (leaves : List Digest)
      (bytes : List Byte) (written : Nat) : s.phase w = .writing base done leaves bytes written →
      written < bytes.length → ShardStep s (.writeInterrupted w) s
  | writeFails (s : ShardState n) (w : Fin n) (base done : Nat) (leaves : List Digest)
      (bytes : List Byte) (written : Nat) (err : String) :
      s.phase w = .writing base done leaves bytes written → written < bytes.length →
      ShardStep s (.writeFails w)
        { s.goto w (.done (.error ("io_uring sharded write error: errno " ++ err))) with
          abortFlag := true }
  | counts (s : ShardState n) (w : Fin n) (base done : Nat) (leaves : List Digest)
      (bytes : List Byte) (written : Nat) : s.phase w = .writing base done leaves bytes written →
      bytes.length ≤ written →
      ShardStep s (.counts w)
        { s.goto w (.stripe base (done + bytes.length) leaves) with
          stats := countShardBlock cfg s.stats bytes.length }
  | breaks (s : ShardState n) (w : Fin n) (e : String) : (s.phase w).inRing = true →
      ShardStep s (.breaks w) (s.goto w (.done (.error e)))

/-- All interleavings of the workers. -/
def shardedSystem (n : Nat) (stats : Stats) : System (ShardState n) (ShardAct n) where
  init s := s = ShardState.start n stats
  step := ShardStep cfg metaLen input

/-- What joining the workers in order gives, once all have ended. -/
def joinWorkers (s : ShardState n) : Option (Except String (List StripeLeaves)) :=
  (List.finRange n).foldlM (fun collected w =>
    match s.phase w with
    | .done (.ok ws) => some (collected.map (· ++ ws))
    | .done (.error e) => some (collected.bind fun _ => .error e)
    | _ => none) (.ok [])

/-- The digest of a sharded copy with the name of its algorithm. -/
def combineStripes (stripes : List StripeLeaves) : Option (String × String) :=
  if cfg.hashAlgo = .blks then
    let sorted := stripes.mergeSort fun a b => a.1 ≤ b.1
    let allLeaves := sorted.flatMap fun stripe => stripe.2
    if allLeaves ≠ [] then
      (reduceNodes allLeaves true).map fun root => (encodeBase64 root, "blks")
    else none
  else none

end Blkcp.Rust
