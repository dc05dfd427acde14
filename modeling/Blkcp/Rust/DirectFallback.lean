import Blkcp.Rust.FileEffect
set_option autoImplicit false

/-! A direct write that fails part way and is made again on the reopened file. -/

namespace Blkcp.Rust
open Blkcp.Lib

variable {α ω : Type} [Octet α] {O : Output α ω} {cfg : Config} {view : ω → List α × Nat}

/-- A block stands in the file where the file stood before, and the file goes on behind it. -/
def WrittenOnce (view : ω → List α × Nat) (block : List α) (before after : ω) : Prop :=
  view after = (placeAt Octet.zero (view before).1 (view before).2 block,
    (view before).2 + block.length)

/-- The first bytes of a block stand there. -/
def WrittenPart (view : ω → List α × Nat) (block : List α) (k : Nat) (before after : ω) : Prop :=
  view after = lay Octet.zero (view before) (.data (block.take k))

/-- The block is written again from where the failed write stopped. -/
theorem deliverBlock_fallback (law : RegularFile O false view) {context : String} {m : Message α}
    {out out' : OutState α ω} {stats stats' : Stats} {buf : List α} {e : String} {file : ω}
    (hout : cfg.output.isSome = true) (hdirect : cfg.direct = true)
    (hdata : isHole cfg (outBlock cfg m.bytes) = false) (hne : m.bytes ≠ [])
    (hfail : O.writeAll out.file (outBlock cfg m.bytes) = (.error e, file))
    (hrun : deliverBlock O cfg context m.buf m.n out stats = (.ok (), out', stats', buf)) :
    WrittenOnce view (outBlock cfg m.bytes) file out'.file := by
  obtain ⟨hwrite, -⟩ := (deliverBlock_ok_iff context m out stats).mp ⟨_, hrun⟩
  rw [← writeBlock_ok_iff context] at hwrite
  rw [isHole, hout, Bool.true_and] at hdata
  simp only [writeBlock, hout, hdata, Bool.false_eq_true, if_true, if_false, OutState.writeAll,
    OutState.call, hfail, hdirect] at hwrite
  have hbuffered : RegularFile O ({} : Config).direct view := law
  exact (reopenAndWrite_view hbuffered (outBlock_ne_nil hne) hwrite).1

/-- After a direct write that failed behind its first `k` bytes a block stands in the file once, with
the next one right behind it, exactly if `k` is 0. -/
theorem direct_fallback_iff (law : RegularFile O false view) {context : String} {m : Message α}
    {out out' : OutState α ω} {stats stats' : Stats} {buf : List α} {e : String} {file : ω} {k : Nat}
    (hout : cfg.output.isSome = true) (hdirect : cfg.direct = true)
    (hdata : isHole cfg (outBlock cfg m.bytes) = false) (hne : m.bytes ≠ [])
    (hfail : O.writeAll out.file (outBlock cfg m.bytes) = (.error e, file))
    (hk : k ≤ (outBlock cfg m.bytes).length)
    (hpart : WrittenPart view (outBlock cfg m.bytes) k out.file file)
    (hrun : deliverBlock O cfg context m.buf m.n out stats = (.ok (), out', stats', buf)) :
    WrittenOnce view (outBlock cfg m.bytes) out.file out'.file ↔ k = 0 := by
  have honce := deliverBlock_fallback law hout hdirect hdata hne hfail hrun
  constructor
  · intro h
    by_contra hpos
    have htake : (outBlock cfg m.bytes).take k ≠ [] := by
      rw [Ne, List.take_eq_nil_iff]
      exact not_or.mpr ⟨hpos, outBlock_ne_nil hne⟩
    rw [WrittenPart, lay_data _ htake, List.length_take, Nat.min_eq_left hk] at hpart
    rw [WrittenOnce, honce, hpart, Prod.mk.injEq] at h
    omega
  · rintro rfl
    rw [WrittenPart, List.take_zero] at hpart
    rw [WrittenOnce, honce, hpart]
    rfl

section Example

/-- An `O_DIRECT` file: a write stops behind the first byte, until the file is reopened. -/
def tornOutput : Output Blks.Byte ((List Blks.Byte × Nat) × Bool) where
  writeAll f bytes :=
    if f.2 then (.error "Invalid argument (os error 22)",
      (lay 0 f.1 (.data (bytes.take 1)), true))
    else (.ok (), (lay 0 f.1 (.data bytes), false))
  seekCurrent f n := (.ok (), ((f.1.1, f.1.2 + n), f.2))
  streamPosition f := .ok f.1.2
  setLen f n := ((resize 0 f.1.1 n, f.1.2), f.2)
  reopen f := (.ok (), ((f.1.1, 0), false))
  seekStart f pos := (.ok (), ((f.1.1, pos), f.2))

theorem tornOutput_regular : RegularFile tornOutput false Prod.fst where
  writeAll_ok {f _ _} hne h := by
    obtain ⟨content, direct⟩ := f
    cases direct with
    | true => cases (Prod.mk.inj h).1
    | false =>
      obtain ⟨-, rfl⟩ := Prod.mk.inj h
      exact lay_data _ hne
  writeAll_refused h := nomatch h
  seekCurrent_eq _ _ := ⟨_, rfl, rfl⟩
  streamPosition_eq _ := rfl
  setLen_eq _ _ := rfl
  reopen_ok h := by
    obtain ⟨-, rfl⟩ := Prod.mk.inj h
    rfl
  seekStart_ok h := by
    obtain ⟨-, rfl⟩ := Prod.mk.inj h
    rfl

def directOut : Config := { output := some "out", direct := true, blockSize := 2 }

def directBlock : Message Blks.Byte := ⟨[1, 2], 2, by decide⟩

theorem tornOutput_run : ∃ out stats buf,
    deliverBlock tornOutput directOut asyncContext [1, 2] 2 ⟨(([], 0), true), [], false⟩ {} =
      (.ok (), out, stats, buf) ∧ out.file.1 = ([1, 1, 2], 3) := ⟨_, _, _, rfl, rfl⟩

/-- The first byte of the block stands in the file twice. -/
theorem direct_fallback_torn : ∃ out stats buf,
    deliverBlock tornOutput directOut asyncContext [1, 2] 2 ⟨(([], 0), true), [], false⟩ {} =
      (.ok (), out, stats, buf) ∧ out.file.1 = ([1, 1, 2], 3) ∧
    ¬WrittenOnce Prod.fst [1, 2] (([], 0), true) out.file := by
  obtain ⟨out, stats, buf, hrun, hview⟩ := tornOutput_run
  refine ⟨out, stats, buf, hrun, hview, fun h => ?_⟩
  rw [WrittenOnce, hview] at h
  exact absurd (Prod.mk.inj h).2 (by decide)

theorem direct_fallback_iff_torn : ∃ out : OutState Blks.Byte ((List Blks.Byte × Nat) × Bool),
    WrittenOnce Prod.fst (outBlock directOut directBlock.bytes) (([], 0), true) out.file ↔
      1 = 0 := by
  obtain ⟨out, stats, buf, hrun, -⟩ := tornOutput_run
  have hpart : WrittenPart Prod.fst (outBlock directOut directBlock.bytes) 1 (([], 0), true)
      (([1], 1), true) := rfl
  exact ⟨out, direct_fallback_iff (m := directBlock) tornOutput_regular rfl rfl rfl (by decide) rfl
    (by decide) hpart hrun⟩

end Example

end Blkcp.Rust
