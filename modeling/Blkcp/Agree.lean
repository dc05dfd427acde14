import Blkcp.C.Exact
import Blkcp.Rust.CountedOnce
import Blkcp.Rust.SparseFresh
import Blkcp.Rust.SwabStream
set_option autoImplicit false

/-! The same copy by both programs, each with blocks of its own. -/

namespace Blkcp
open Blkcp.Lib

namespace Rust
open Blkcp.Blks

variable {ρ ω η₂ η₃ : Type} {I : Input Byte ρ} {O : Output Byte ω} {env : HashEnv η₂ η₃}
  {cfg : Config} {rest : ρ → List Byte} {view : ω → List Byte × Nat} {input : ρ} {file : ω}
  {out : OutState Byte ω} {stats : Stats} {hash : HashInfo} {blocks : List (List Byte)}

/-- A copy by the synchronous loop, or by a pipeline that did not heed the flag, that has returned
`Ok`: the output, the counters and the digest. -/
inductive CopyReturned (I : Input Byte ρ) (O : Output Byte ω) (env : HashEnv η₂ η₃) (cfg : Config)
    (input : ρ) (file : ω) : OutState Byte ω → Stats → HashInfo → Prop where
  | sync {cancel : Nat → Bool} {fuel : Nat} {y : LoopState Byte ρ ω η₂ η₃} :
      transferLoop I O env cfg cancel fuel (.start env cfg input file {}) = some (.ok (), y) →
      CopyReturned I O env cfg input file y.out y.stats (y.hasher.finalizeString env)
  | async {s : AsyncState Byte ρ ω η₂ η₃} :
      ((asyncSystem I O env cfg input file {}).restrict fun _ a => AsyncLoyal a).Reachable s →
      s.main = .returned (.ok ()) →
      CopyReturned I O env cfg input file s.out s.stats (s.hasher.finalizeString env)

/-- Only the last block may be short. -/
def FullBlocks (cfg : Config) (blocks : List (List Byte)) : Prop :=
  ∀ b ∈ blocks.dropLast, b.length = effectiveBlockSize cfg

/-- The blocks of a copy that takes all of its input. -/
structure Everything (I : Input Byte ρ) (O : Output Byte ω) (env : HashEnv η₂ η₃) (cfg : Config)
    (rest : ρ → List Byte) (input : ρ) (file : ω) (blocks : List (List Byte))
    (out : OutState Byte ω) (stats : Stats) (hasher : InFlightHasher η₂ η₃) : Prop where
  written : ∃ out', writeAllOk O cfg ⟨file, [], false⟩ blocks = some out' ∧
    out = finishOut O cfg out'
  hashed : hasher = hashAll env (.new env cfg.hashAlgo) (blocks.map (swabbed cfg))
  whole : blocks.flatten = rest input
  ne_nil : ∀ b ∈ blocks, b ≠ []
  counted : stats.bytesCopied = (rest input).length
  full : FullReads I rest → FullBlocks cfg blocks

/-- As long as there is input, all blocks are full. -/
def FullSoFar (I : Input Byte ρ) (cfg : Config) (rest : ρ → List Byte)
    (blocks : List (List Byte)) (input : ρ) : Prop :=
  FullReads I rest → FullBlocks cfg blocks ∧
    (rest input ≠ [] → ∀ b ∈ blocks, b.length = effectiveBlockSize cfg)

theorem FullSoFar.start : FullSoFar I cfg rest [] input := fun _ =>
  ⟨fun _ hb => absurd hb List.not_mem_nil, fun _ _ hb => absurd hb List.not_mem_nil⟩

theorem FullSoFar.block {input' : ρ} {bytes : List Byte}
    (h : FullSoFar I cfg rest blocks input) (hrest : rest input = bytes ++ rest input')
    (hne : bytes ≠ [])
    (hlength : FullReads I rest →
      bytes.length = min (effectiveBlockSize cfg) (rest input).length) :
    FullSoFar I cfg rest (blocks ++ [bytes]) input' := by
  intro hfull
  have hall : ∀ b ∈ blocks, b.length = effectiveBlockSize cfg :=
    (h hfull).2 (by rw [hrest]; exact List.append_ne_nil_of_left_ne_nil hne _)
  refine ⟨?_, fun hmore b hb => ?_⟩
  · rw [FullBlocks, List.dropLast_concat]
    exact hall
  · rcases List.mem_append.mp hb with hb | hb
    · exact hall b hb
    · have hpos := List.length_pos_of_ne_nil hmore
      have hlen := hlength hfull
      rw [hrest, List.length_append] at hlen
      rw [List.mem_singleton.mp hb]
      omega

theorem transferLoop_everything (law : ReadsFrom I rest) (hlimit : cfg.limitBytes = none)
    (hcount : cfg.count = none) {cancel : Nat → Bool} {fuel : Nat}
    {y : LoopState Byte ρ ω η₂ η₃}
    (h : transferLoop I O env cfg cancel fuel (.start env cfg input file {}) =
      some (.ok (), y)) :
    ∃ blocks, Everything I O env cfg rest input file blocks y.out y.stats y.hasher := by
  simp only [transferLoop, Option.map_eq_some_iff] at h
  obtain ⟨⟨r, v⟩, hrun, he⟩ := h
  obtain ⟨u, ⟨blocks, hread, hu, hsofar, k, b, hspent⟩, hleave⟩ := runLoop_invariant
    (I := fun s => ∃ blocks, ReadFrom I input blocks s.input ∧
      Delivered O env cfg file blocks s.out s.hasher ∧ FullSoFar I cfg rest blocks s.input ∧
      ∃ k b, LoopSpent cfg rest (rest input).length {} k b s)
    (fun s t hs hst => by
      obtain ⟨blocks, hread, hs, hsofar, k, b, hspent⟩ := hs
      have hnext := hspent.next law hst
      rcases transferBody_continues hst with ⟨ho, hh, n, hskip⟩ | ⟨n, bytes, hdata, hne, hw, hh⟩
      · have hsame := (ReadFrom.skip .start hskip).rest_eq law
        rw [List.flatten_nil, List.nil_append] at hsame
        refine ⟨blocks, hread.skip hskip, by rw [ho, hh]; exact hs, ?_, ?_⟩
        · rwa [FullSoFar, ← hsame]
        · rcases hnext with ⟨ht, -⟩ | ⟨n, -, -, ht, -⟩
          · exact ⟨k, b, ht⟩
          · exact ⟨k + n, b + 1, ht⟩
      · obtain ⟨hrest, -⟩ := law.data hdata
        have hlen := congrArg List.length hrest
        rw [List.length_append, hspent.rest_eq] at hlen
        have hpos := List.length_pos_of_ne_nil hne
        rcases hnext with ⟨ht, -⟩ | ⟨n, -, -, ht, -, -, hfull⟩
        · rw [ht.rest_eq] at hlen
          omega
        · have hsupply := ht.budget.le_supply
          rw [ht.rest_eq] at hlen
          refine ⟨blocks ++ [bytes], hread.block hdata hne, by rw [hh]; exact hs.snoc hw, ?_,
            k + n, b + 1, ht⟩
          refine hsofar.block hrest hne fun hreads => ?_
          have hn := hfull hreads
          rw [hspent.budget.remaining_eq, hlimit, Option.map_none] at hn
          have hblock : toRead cfg none = effectiveBlockSize cfg := rfl
          rw [hblock] at hn
          rw [hspent.rest_eq]
          omega)
    hrun ⟨[], .start, ⟨rfl, rfl⟩, .start, 0, 0, .start⟩
  cases r with
  | error e => cases he
  | ok _ =>
    obtain ⟨ho, hh⟩ := transferBody_stops hleave
    obtain ⟨hstats, hdone⟩ := transferBody_done hleave
    obtain ⟨-, rfl⟩ := Prod.mk.inj he
    have hend : rest u.input = [] := by
      rcases hdone with hz | hz | ⟨hne, input', hnothing⟩
      · rw [hspent.budget.remaining_eq, hlimit] at hz
        cases hz
      · rw [hspent.blocks, hcount] at hz
        cases hz
      · exact ((law.data hnothing).2 rfl).resolve_left (Nat.ne_of_gt (toRead_pos hne))
    have hrest := hread.rest_eq law
    rw [hend, List.append_nil] at hrest
    have hsupply := hspent.budget.le_supply
    have hlen := hspent.rest_eq
    rw [hend, List.length_nil] at hlen
    refine ⟨blocks, ⟨v.out, by rw [ho]; exact hu.written, rfl⟩, by rw [hh]; exact hu.hashed,
      hrest.symm, hread.ne_nil, ?_, fun hfull => (hsofar hfull).1⟩
    rw [hstats, hspent.counted]
    simp only [Nat.zero_add]
    omega

theorem CopyReturned.everything (law : ReadsFrom I rest) (hlimit : cfg.limitBytes = none)
    (hcount : cfg.count = none) (h : CopyReturned I O env cfg input file out stats hash) :
    ∃ blocks hasher, Everything I O env cfg rest input file blocks out stats hasher ∧
      hash = hasher.finalizeString env := by
  cases h with
  | sync h =>
    obtain ⟨blocks, hblocks⟩ := transferLoop_everything law hlimit hcount h
    exact ⟨blocks, _, hblocks, rfl⟩
  | async h hr =>
    rename_i s
    obtain ⟨fuel, y, hrun, hout, hstats, hhash⟩ :=
      asyncSystem_refines (asyncSystem_uncancelled h) rfl hr
    have hout : s.out = y.out := hout
    have hbytes : s.uncancelled.stats.bytesCopied = y.stats.bytesCopied := by rw [hstats]
    obtain ⟨blocks, hblocks⟩ := transferLoop_everything law hlimit hcount hrun
    refine ⟨blocks, _, { hblocks with written := ?_, counted := ?_ }, hhash⟩
    · rw [hout]
      exact hblocks.written
    · exact Eq.trans hbytes hblocks.counted

/-- What is made of the bytes. -/
def converted (cfg : Config) (data : List Byte) : List Byte :=
  if cfg.swab then swapPairs data else data

theorem flatMap_swapPairs_even {blocks : List (List Byte)}
    (h : ∀ b ∈ blocks.dropLast, b.length % 2 = 0) :
    blocks.flatMap swapPairs = swapPairs blocks.flatten := by
  induction blocks with
  | nil => rfl
  | cons b bs ih =>
    cases bs with
    | nil => simp
    | cons b' bs =>
      rw [List.dropLast_cons_cons] at h
      have hb : b.length % 2 = 0 := h b List.mem_cons_self
      rw [List.flatMap_cons, ih fun c hc => h c (List.mem_cons_of_mem b hc)]
      exact (swapPairs_append _ hb).symm

/-- Pairs are not cut if the reads are full and the blocks even. -/
theorem emitted_eq (hsync : cfg.sync = false) (hfull : cfg.swab = true → FullBlocks cfg blocks)
    (heven : cfg.swab = true → effectiveBlockSize cfg % 2 = 0) :
    emitted cfg blocks = converted cfg blocks.flatten := by
  cases hswab : cfg.swab with
  | false =>
    have hblock : (outBlock cfg : List Byte → List Byte) = id := by
      funext b
      rw [outBlock, hsync, Bool.false_and, if_neg Bool.false_ne_true, swabbed, hswab,
        if_neg Bool.false_ne_true, id]
    rw [emitted, hblock, converted, hswab, if_neg Bool.false_ne_true, List.flatMap_id]
  | true =>
    rw [emitted_of_swab hswab hsync, converted, hswab, if_pos rfl]
    refine flatMap_swapPairs_even fun b hb => ?_
    rw [hfull hswab b hb]
    exact heven hswab

/-- What the copy leaves of a file of some content. -/
theorem Everything.view_eq {hasher : InFlightHasher η₂ η₃} {content : List Byte} {pos : Nat}
    (h : Everything I O env cfg rest input file blocks out stats hasher)
    (law : RegularFile O cfg.direct view) (hview : view file = (content, pos))
    (hdense : cfg.sparse = false ∨ content = []) :
    (view out.file).1 =
      if rest input = [] then content else placeAt 0 content pos (emitted cfg blocks) := by
  obtain ⟨out', hwritten, hout⟩ := h.written
  have hpieces := view_finishOut law h.ne_nil hwritten
  rw [← hout, hview] at hpieces
  cases blocks with
  | nil =>
    have hempty : rest input = [] := h.whole.symm
    rw [if_pos hempty, hpieces]
    rfl
  | cons b bs =>
    have hblock : b ≠ [] := h.ne_nil b List.mem_cons_self
    have hsome : rest input ≠ [] := by
      rw [← h.whole, List.flatten_cons]
      exact List.append_ne_nil_of_left_ne_nil hblock _
    rw [if_neg hsome]
    rcases hdense with hsparse | rfl
    · have hdata : ((b :: bs).map (outBlock cfg)).flatten ≠ [] :=
        List.append_ne_nil_of_left_ne_nil (outBlock_ne_nil hblock) _
      rw [hpieces, pieces_of_dense hsparse]
      exact sealed_data content pos hdata
    · have hfresh : (view file).1 = [] := by rw [hview]
      have hplace : placeAt 0 [] pos (emitted cfg (b :: bs)) =
          List.replicate pos 0 ++ emitted cfg (b :: bs) := by
        simp [placeAt]
      rw [hout, view_fresh law hfresh h.ne_nil hwritten, if_neg (List.cons_ne_nil b bs), hview,
        hplace]

end Rust

/-- Both programs are asked for the same copy of all of the input onto an output that holds `old`.
The output is opened alike, unless the Rust program cuts what the C program keeps. -/
structure SameCopy (cfg : Rust.Config) (cfg' : C.Config) (old : List Blks.Byte) : Prop where
  limitBytes : cfg.limitBytes = none
  count : cfg.count = none
  boundless : C.Boundless cfg'
  blocksize_pos : 0 < cfg'.blocksize
  sync : cfg.sync = false ∧ cfg'.conversions.sync = false
  swab : cfg'.conversions.swab = cfg.swab
  seek : C.seekStart cfg' = cfg.seekBytes
  notrunc : cfg'.conversions.notrunc = cfg.notrunc
  kept : cfg.notrunc = true ∨ cfg.seekBytes = 0 ∨ old = []
  sparse : cfg.sparse = false ∧ cfg'.conversions.sparse = false ∨ cfg.notrunc = false ∨ old = []

theorem SameCopy.setupOutputStream {cfg : Rust.Config} {cfg' : C.Config} {old : List Blks.Byte}
    (h : SameCopy cfg cfg' old) :
    C.setupOutputStream cfg' old = if cfg.notrunc then old else [] := by
  rw [C.setupOutputStream, h.notrunc]
  rcases h.kept with hkept | hzero | rfl
  · simp [hkept]
  · have hseek := h.seek
    rw [hzero, C.seekStart] at hseek
    have hrecords : cfg'.seekRecords = 0 :=
      (Nat.mul_eq_zero.mp (Nat.eq_zero_of_add_eq_zero_right hseek)).resolve_right
        (Nat.ne_of_gt h.blocksize_pos)
    have hoffset : cfg'.seekBytes = 0 := Nat.eq_zero_of_add_eq_zero_left hseek
    simp [hrecords, hoffset]
  · simp

section Example

def agreeWorld : Rust.World Blks.Byte where
  fs := ⟨fun _ => 0, fun _ => some ⟨.regular, [1, 2, 3], true, true⟩, fun _ => true, fun _ => true⟩
  stdin := []
  stdout := []
  stats := {}
  syncs := []

/-- Blocks of two bytes, from the second byte of three on. -/
def agreeRust : Rust.Config :=
  { output := some "out", blockSize := 2, seekBytes := 1, notrunc := true, swab := true,
    hashAlgo := .blks }

/-- Blocks of three. -/
def agreeC : C.Config :=
  { blocksize := 3, seekBytes := 1, conversions := { notrunc := true, swab := true } }

theorem agreeWorld_opened : Rust.OpenedAt agreeRust [(1 : Blks.Byte), 2, 3] [1, 2, 3] 1 :=
  have hopen : Rust.openSink agreeWorld agreeRust = (.ok (.file 0 0), agreeWorld) := rfl
  have hseek : Rust.seekOutputOrFail agreeWorld.fs (.file 0 0) 1 = .ok (.file 0 1) := rfl
  .intro rfl (w := agreeWorld) rfl rfl rfl hopen hseek

theorem agreeRust_run : ∃ y, Rust.transferLoop Rust.wholeInput Rust.contentOutput Rust.noCrates
    agreeRust (fun _ => false) 4 (.start Rust.noCrates agreeRust
      (⟨[(7 : Blks.Byte), 8, 9], 0⟩ : Rust.Stream Blks.Byte) ([1, 2, 3], 1) {}) =
        some (.ok (), y) ∧ y.out.file.1 = [1, 8, 7, 9] :=
  ⟨_, rfl, rfl⟩

theorem agreeC_run : ∃ ctx, C.ddCopySync C.contentInput C.contentOutput (C.plainEnv 5)
    (.start agreeC [7, 8, 9] (C.setupOutputStream agreeC [1, 2, 3], 0)) = .ok (.success, ctx) :=
  ⟨_, rfl⟩

theorem noCrates_streaming : Rust.Streaming Rust.noCrates.sha2 ∧
    Rust.Streaming Rust.noCrates.blake3 := ⟨fun _ => rfl, fun _ => rfl⟩

end Example

end Blkcp
