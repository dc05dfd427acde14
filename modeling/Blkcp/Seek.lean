import Blkcp.C.FileEffect
import Blkcp.Rust.DigestOnTarget
import Blkcp.Rust.OpenedOutput
set_option autoImplicit false

/-! What a copy behind an offset leaves of an existing output without `notrunc`, in both
programs. -/

namespace Blkcp
open Blkcp.Lib

/-- The first `s` bytes, with zeros up to there, then the data and nothing else. -/
def seekContent (old : List Blks.Byte) (s : Nat) (data : List Blks.Byte) : List Blks.Byte :=
  old.take s ++ List.replicate (s - old.length) 0 ++ data

section Contents

variable {old data : List Blks.Byte} {s : Nat}

/-- Written into a file that was cut to nothing. -/
theorem placeAt_nil_eq_iff : placeAt 0 [] s data = seekContent old s data ↔
    ∀ b ∈ old.take s, b = 0 := by
  have hlen : (old.take s ++ List.replicate (s - old.length) 0).length = s :=
    length_prefix 0 old s
  have hnil : placeAt (0 : Blks.Byte) [] s data = List.replicate s 0 ++ data := by
    simp [placeAt]
  rw [hnil, seekContent, List.append_left_inj]
  constructor
  · intro h b hb
    have hmem : b ∈ List.replicate s (0 : Blks.Byte) := by
      rw [h]
      exact List.mem_append_left _ hb
    exact List.eq_of_mem_replicate hmem
  · intro h
    symm
    refine List.eq_replicate_iff.mpr ⟨hlen, fun b hb => ?_⟩
    rcases List.mem_append.mp hb with hb | hb
    · exact h b hb
    · exact List.eq_of_mem_replicate hb

/-- Written into the file as it was. -/
theorem placeAt_eq_iff : placeAt 0 old s data = seekContent old s data ↔
    old.length ≤ s + data.length := by
  rw [placeAt, seekContent, List.append_right_eq_self, List.drop_eq_nil_iff]

end Contents

namespace Rust
open Blkcp.Blks

variable {ρ ω η₂ η₃ : Type} {I : Input Byte ρ} {O : Output Byte ω} {env : HashEnv η₂ η₃}
  {cfg : Config} {view : ω → List Byte × Nat} {old content : List Byte} {pos : Nat} {input : ρ}
  {file : ω} {out : OutState Byte ω} {hasher : InFlightHasher η₂ η₃}

theorem pieces_of_dense (hsparse : cfg.sparse = false) (blocks : List (List Byte)) :
    pieces cfg blocks = (blocks.map (outBlock cfg)).map .data := by
  rw [pieces, List.map_map]
  refine List.map_congr_left fun b _ => ?_
  rw [piece, isHole, hsparse, Bool.false_and, Bool.and_false, if_neg Bool.false_ne_true]
  rfl

/-- The output was cut when it was opened. -/
theorem view_of_dense (law : RegularFile O cfg.direct view) (hsparse : cfg.sparse = false)
    (hnotrunc : cfg.notrunc = false) (hopen : OpenedAt cfg old content pos)
    (hview : view file = (content, pos)) (h : Finished I O env cfg input file out hasher) :
    ∃ blocks rest input' out', ReadFrom I input (blocks ++ rest) input' ∧
      Delivered O env cfg file blocks out' hasher ∧ out = finishOut O cfg out' ∧
      (emitted cfg blocks ≠ [] →
        (view out.file).1 = placeAt 0 [] cfg.seekBytes (emitted cfg blocks)) := by
  obtain ⟨blocks, rest, input', out', hread, hdel, hout⟩ := h.delivered
  refine ⟨blocks, rest, input', out', hread, hdel, hout, fun hdata => ?_⟩
  obtain ⟨hcontent, hpos⟩ := openedAt_eq hopen
  rw [if_neg (by rw [hnotrunc]; exact Bool.false_ne_true)] at hcontent
  have hne : ∀ b ∈ blocks, b ≠ [] := fun b hb => hread.ne_nil b (List.mem_append_left _ hb)
  have hflat : (blocks.map (outBlock cfg)).flatten = emitted cfg blocks := rfl
  rw [hout, view_finishOut law hne hdel.written, hview, hcontent, hpos, pieces_of_dense hsparse]
  rw [← hflat] at hdata ⊢
  exact sealed_data [] cfg.seekBytes hdata

end Rust

namespace C

variable {ρ ω : Type} {I : Input ρ} {O : Output ω} {env : Env} {cfg : Config}
  {view : ω → List Byte × Nat} {old : List Byte} {input : ρ} {file : ω} {ctx : Ctx ρ ω}

theorem callPieces_of_dense (hsparse : cfg.conversions.sparse = false) (calls : List Call) :
    callPieces cfg calls = (calls.map fun c => c.buf.take c.count).map .data := by
  rw [callPieces, List.map_map]
  refine List.map_congr_left fun c _ => ?_
  rw [callPiece, isHole, hsparse, Bool.false_and, if_neg Bool.false_ne_true]
  rfl

/-- The output is opened as it is. -/
theorem view_of_dense (law : RegularFile O view) (hblock : 0 < cfg.blocksize)
    (hsparse : cfg.conversions.sparse = false) (hseek : 0 < seekStart cfg)
    (hview : view file = (setupOutputStream cfg old, 0))
    (h : ddCopySync I O env (Ctx.start cfg input file) = .ok (.success, ctx))
    (hdata : ctx.out.delivered ≠ []) :
    (view ctx.out.file).1 = placeAt 0 old (seekStart cfg) ctx.out.delivered := by
  have hcontent : setupOutputStream cfg old = old := by
    refine if_pos ?_
    by_cases hrecords : cfg.seekRecords = 0
    · refine .inr (.inl fun hbytes => ?_)
      rw [seekStart, hrecords, hbytes, Nat.zero_mul] at hseek
      exact absurd hseek (Nat.lt_irrefl 0)
    · exact .inl hrecords
  have hflat : (ctx.out.calls.map fun c => c.buf.take c.count).flatten = ctx.out.delivered := rfl
  rw [hcontent] at hview
  rw [(ddCopySync_regular law hblock hview h).1, callPieces_of_dense hsparse]
  rw [← hflat] at hdata ⊢
  exact sealed_data old (seekStart cfg) hdata

end C

/-- Both programs leave what was there before the offset and then the data exactly if nothing but
zeros stood before the offset and nothing behind the data. -/
theorem seek_content_iff {old : List Blks.Byte} {s : Nat} (hs : 0 < s)
    {ρ ω η₂ η₃ : Type} {I : Rust.Input Blks.Byte ρ} {O : Rust.Output Blks.Byte ω}
    {env : Rust.HashEnv η₂ η₃} {cfg : Rust.Config} {view : ω → List Blks.Byte × Nat}
    {content : List Blks.Byte} {pos : Nat} {input : ρ} {file : ω} {out : Rust.OutState Blks.Byte ω}
    {hasher : Rust.InFlightHasher η₂ η₃} (law : Rust.RegularFile O cfg.direct view)
    (hsparse : cfg.sparse = false) (hnotrunc : cfg.notrunc = false) (hseek : cfg.seekBytes = s)
    (hopen : Rust.OpenedAt cfg old content pos) (hview : view file = (content, pos))
    (hrun : Rust.Finished I O env cfg input file out hasher)
    {ρ' ω' : Type} {I' : C.Input ρ'} {O' : C.Output ω'} {env' : C.Env} {cfg' : C.Config}
    {view' : ω' → List Blks.Byte × Nat} {input' : ρ'} {file' : ω'} {ctx : C.Ctx ρ' ω'}
    (law' : C.RegularFile O' view') (hblock : 0 < cfg'.blocksize)
    (hsparse' : cfg'.conversions.sparse = false) (hseek' : C.seekStart cfg' = s)
    (hview' : view' file' = (C.setupOutputStream cfg' old, 0))
    (hrun' : C.ddCopySync I' O' env' (C.Ctx.start cfg' input' file') = .ok (.success, ctx)) :
    ∃ blocks rest inputEnd out', Rust.ReadFrom I input (blocks ++ rest) inputEnd ∧
      Rust.Delivered O env cfg file blocks out' hasher ∧ out = Rust.finishOut O cfg out' ∧
      ∀ data : List Blks.Byte, data ≠ [] → Rust.emitted cfg blocks = data →
        ctx.out.delivered = data →
        ((view out.file).1 = seekContent old s data ∧
            (view' ctx.out.file).1 = seekContent old s data ↔
          (∀ b ∈ old.take s, b = 0) ∧ old.length ≤ s + data.length) := by
  obtain ⟨blocks, rest, inputEnd, out', hread, hdel, hout, hfile⟩ :=
    Rust.view_of_dense law hsparse hnotrunc hopen hview hrun
  refine ⟨blocks, rest, inputEnd, out', hread, hdel, hout, ?_⟩
  rintro data hdata rfl hsame
  have hfile' := C.view_of_dense law' hblock hsparse' (by rwa [hseek']) hview' hrun'
  rw [hsame, hseek'] at hfile'
  rw [hfile hdata, hfile' hdata, hseek, placeAt_nil_eq_iff, placeAt_eq_iff]

section Example

def seekWorld : Rust.World Blks.Byte where
  fs := ⟨fun _ => 0, fun _ => some ⟨.regular, [1, 2, 3], true, true⟩, fun _ => true, fun _ => true⟩
  stdin := []
  stdout := []
  stats := {}
  syncs := []

/-- One byte behind the first of three. -/
def seekRust : Rust.Config := { output := some "out", blockSize := 1, seekBytes := 1 }

def seekC : C.Config := { blocksize := 1, seekBytes := 1 }

theorem seekWorld_opened : Rust.OpenedAt seekRust [(1 : Blks.Byte), 2, 3] [] 1 :=
  have hopen : Rust.openSink seekWorld seekRust =
      (.ok (.file 0 0), (Rust.openSink seekWorld seekRust).2) := rfl
  have hseek : Rust.seekOutputOrFail (Rust.openSink seekWorld seekRust).2.fs (.file 0 0) 1 =
      .ok (.file 0 1) := rfl
  .intro rfl (w := seekWorld) rfl rfl rfl hopen hseek

theorem seekRust_run : ∃ y, Rust.transferLoop (Rust.streamInput fun _ => some 1) Rust.contentOutput
    Rust.noCrates seekRust (fun _ => false) 2 (.start Rust.noCrates seekRust
      (⟨[(7 : Blks.Byte)], 0⟩ : Rust.Stream Blks.Byte) ([], 1) {}) =
        some (.ok (), y) ∧ y.out.file.1 = [0, 7] :=
  ⟨_, rfl, rfl⟩

theorem seekC_run : ∃ ctx, C.ddCopySync C.contentInput C.contentOutput (C.plainEnv 3)
    (.start seekC [7] (C.setupOutputStream seekC [1, 2, 3], 0)) = .ok (.success, ctx) ∧
      ctx.out.file.1 = [1, 7, 3] :=
  ⟨_, rfl, rfl⟩

/-- One program drops the byte before the offset, the other keeps the one behind the data. -/
theorem seek_programs_differ :
    (∃ out hasher, Rust.OpenedAt seekRust [(1 : Blks.Byte), 2, 3] [] 1 ∧
      Rust.Finished (Rust.streamInput fun _ => some 1) Rust.contentOutput Rust.noCrates seekRust
        ⟨[7], 0⟩ ([], 1) out hasher ∧ out.file.1 ≠ seekContent [1, 2, 3] 1 [7]) ∧
    ∃ ctx, C.ddCopySync C.contentInput C.contentOutput (C.plainEnv 3)
      (.start seekC [7] (C.setupOutputStream seekC [1, 2, 3], 0)) = .ok (.success, ctx) ∧
      ctx.out.file.1 ≠ seekContent [1, 2, 3] 1 [7] := by
  obtain ⟨y, hy, hfile⟩ := seekRust_run
  obtain ⟨ctx, hctx, hfile'⟩ := seekC_run
  refine ⟨⟨y.out, y.hasher, seekWorld_opened, .sync hy, ?_⟩, ctx, hctx, ?_⟩
  · rw [hfile]
    decide
  · rw [hfile']
    decide

theorem seek_content_differs : ∃ (out : Rust.OutState Blks.Byte (List Blks.Byte × Nat))
    (ctx : C.Ctx (List Blks.Byte) (List Blks.Byte × Nat)) (blocks : List (List Blks.Byte)),
    ∀ data : List Blks.Byte, data ≠ [] → Rust.emitted seekRust blocks = data →
      ctx.out.delivered = data →
      (out.file.1 = seekContent [1, 2, 3] 1 data ∧ ctx.out.file.1 = seekContent [1, 2, 3] 1 data ↔
        (∀ b ∈ ([1, 2, 3] : List Blks.Byte).take 1, b = 0) ∧ 3 ≤ 1 + data.length) := by
  obtain ⟨y, hy, -⟩ := seekRust_run
  obtain ⟨ctx, hctx, -⟩ := seekC_run
  obtain ⟨blocks, -, -, -, -, -, -, hiff⟩ := seek_content_iff Nat.one_pos
    (Rust.contentOutput_regular _) rfl rfl rfl seekWorld_opened (show id ([], 1) = _ from rfl)
    (.sync hy) C.contentOutput_regular (by decide) rfl rfl rfl hctx
  exact ⟨y.out, ctx, blocks, hiff⟩

end Example

end Blkcp
