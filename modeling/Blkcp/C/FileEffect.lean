import Blkcp.C.SyncEffect
set_option autoImplicit false

/-! What the synchronous driver leaves in a regular file. -/

namespace Blkcp.C
open Blkcp.Lib

variable {ρ ω : Type} {I : Input ρ} {O : Output ω} {env : Env} {cfg : Config}

/-- A regular file not open for appending, seen as its content and the position in it. -/
structure RegularFile (O : Output ω) (view : ω → List Byte × Nat) : Prop where
  write_ok : ∀ {f direct bytes n f'}, O.write f direct bytes = (.ok n, f') →
    view f' = lay 0 (view f) (.data (bytes.take n))
  write_error : ∀ {f direct bytes e f'}, O.write f direct bytes = (.error e, f') → view f' = view f
  lseek_eq : ∀ f n, ∃ f', O.lseek f n = (true, f') ∧ view f' = ((view f).1, (view f).2 + n)
  isRegular_eq : ∀ f, O.isRegular f = true
  position_eq : ∀ f, O.position f = (view f).2
  ftruncate_eq : ∀ f n, ∃ f', O.ftruncate f n = (true, f') ∧
    view f' = (resize 0 (view f).1 n, (view f).2)

section Calls

variable (cfg)

/-- A buffer that is passed over instead of written. -/
def isHole (buf : List Byte) : Bool := cfg.conversions.sparse && isNul buf

def callPiece (c : Call) : Piece Byte :=
  if isHole cfg c.buf then .gap c.buf.length else .data (c.buf.take c.count)

/-- A call with something to write; what is passed over is passed over as a whole. -/
structure Sound (c : Call) : Prop where
  buf_ne_nil : c.buf ≠ []
  whole : isHole cfg c.buf = true → c.count = c.buf.length

/-- The pieces of the output that the calls of `dd_iwrite` lay down. -/
def callPieces (calls : List Call) : List (Piece Byte) := calls.map (callPiece cfg)

end Calls

variable {view : ω → List Byte × Nat}

/-- An output and the pieces it shows. -/
def Shows (cfg : Config) (view : ω → List Byte × Nat) (f : List Byte × Nat)
    (out : OutState ω) : Prop :=
  view out.file = layAll 0 f (callPieces cfg out.calls) ∧
    out.finalOpWasSeek = endsInGap (callPieces cfg out.calls) ∧
    ∀ c ∈ out.calls, Sound cfg c

theorem callPieces_snoc (calls : List Call) (c : Call) :
    callPieces cfg (calls ++ [c]) = callPieces cfg calls ++ [callPiece cfg c] := by
  rw [callPieces, List.map_append]
  rfl

theorem callPiece_of_hole {buf : List Byte} (h : isHole cfg buf = true) (count : Nat) :
    callPiece cfg ⟨buf, count⟩ = .gap buf.length := if_pos h

theorem callPiece_of_data {buf : List Byte} (h : ¬isHole cfg buf = true) (count : Nat) :
    callPiece cfg ⟨buf, count⟩ = .data (buf.take count) := if_neg h

theorem length_cells_callPiece {c : Call} (h : Sound cfg c) :
    (callPiece cfg c).cells.length = (c.buf.take c.count).length := by
  rw [callPiece]
  split
  · rename_i hhole
    rw [length_cells_gap, h.whole hhole, List.take_length]
  · rw [length_cells_data]

theorem length_allCells_callPieces {calls : List Call} (h : ∀ c ∈ calls, Sound cfg c) :
    (allCells (callPieces cfg calls)).length =
      (calls.flatMap fun c => c.buf.take c.count).length := by
  induction calls with
  | nil => rfl
  | cons c cs ih =>
    rw [callPieces, List.map_cons, allCells, List.flatMap_cons, List.length_append,
      length_cells_callPiece (h c List.mem_cons_self), List.flatMap_cons, List.length_append]
    exact congrArg _ (ih fun d hd => h d (List.mem_cons_of_mem c hd))

/-- A prefix of a buffer is written; what follows is written behind it. -/
theorem lay_take_drop (f : List Byte × Nat) (buf : List Byte) (k n : Nat) :
    lay 0 (lay 0 f (.data (buf.take k))) (.data ((buf.drop k).take n)) =
      lay 0 f (.data (buf.take (k + n))) := by
  rw [List.take_add, lay_append]

/-- The part of the buffer that is written so far stands in the file. -/
def WrittenUpTo (view : ω → List Byte × Nat) (f : List Byte × Nat) (buf : List Byte)
    (s : ω × Nat) : Prop :=
  view s.1 = lay 0 f (.data (buf.take s.2))

theorem WrittenUpTo.write (law : RegularFile O view) {f : List Byte × Nat} {buf : List Byte}
    {file file' : ω} {total n : Nat} {direct : Bool} (h : WrittenUpTo view f buf (file, total))
    (hw : O.write file direct (buf.drop total) = (.ok n, file')) :
    WrittenUpTo view f buf (file', total + n) := by
  have hview := law.write_ok hw
  rw [WrittenUpTo] at h
  rw [h, lay_take_drop] at hview
  exact hview

theorem WrittenUpTo.refused (law : RegularFile O view) {f : List Byte × Nat} {buf bytes : List Byte}
    {file file' : ω} {total : Nat} {direct : Bool} {e : Errno}
    (h : WrittenUpTo view f buf (file, total)) (hw : O.write file direct bytes = (.error e, file')) :
    WrittenUpTo view f buf (file', total) :=
  (law.write_error hw).trans h

theorem ddIwriteBody_continues (law : RegularFile O view) {direct : Bool} {f : List Byte × Nat}
    {buf : List Byte} {s t : ω × Nat} (h : WrittenUpTo view f buf s)
    (hst : ddIwriteBody O direct buf s = .inl t) : WrittenUpTo view f buf t := by
  obtain ⟨file, total⟩ := s
  simp only [ddIwriteBody] at hst
  split at hst
  · cases hst
  split at hst
  · rename_i hw
    obtain rfl := Sum.inl.inj hst
    exact h.write law hw
  · rename_i hw
    have h₁ := h.refused law hw
    split at hst
    · obtain rfl := Sum.inl.inj hst
      exact h₁
    split at hst
    · split at hst
      · rename_i hw₁
        split at hst
        · obtain rfl := Sum.inl.inj hst
          exact h₁.write law hw₁
        · cases hst
      · cases hst
    · cases hst

theorem ddIwriteBody_leaves (law : RegularFile O view) {direct : Bool} {f : List Byte × Nat}
    {buf : List Byte} {s t : ω × Nat} (h : WrittenUpTo view f buf s)
    (hst : ddIwriteBody O direct buf s = .inr (.ok t)) : WrittenUpTo view f buf t := by
  obtain ⟨file, total⟩ := s
  simp only [ddIwriteBody] at hst
  split at hst
  · obtain rfl := Except.ok.inj (Sum.inr.inj hst)
    exact h
  split at hst
  · cases hst
  · rename_i hw
    have h₁ := h.refused law hw
    split at hst
    · cases hst
    split at hst
    · split at hst
      · rename_i n hw₁
        split at hst
        · cases hst
        · rename_i hzero
          obtain rfl := Except.ok.inj (Sum.inr.inj hst)
          have h₂ := h₁.write law hw₁
          rwa [Nat.eq_zero_of_not_pos hzero] at h₂
      · rename_i hw₁
        obtain rfl := Except.ok.inj (Sum.inr.inj hst)
        exact h₁.refused law hw₁
    · obtain rfl := Except.ok.inj (Sum.inr.inj hst)
      exact h₁

/-- A call of `dd_iwrite` lays down one more piece. -/
theorem Shows.call (law : RegularFile O view) {f : List Byte × Nat} {out out' : OutState ω}
    (h : Shows cfg view f out) {buf : List Byte} (hne : buf ≠ []) {n : Nat}
    (hw : ddIwrite O env cfg buf out = .ok (n, out')) : Shows cfg view f out' := by
  have hsound : ∀ count, (isHole cfg buf = true → count = buf.length) →
      ∀ c ∈ out.calls ++ [⟨buf, count⟩], Sound cfg c := by
    intro count hwhole c hc
    rcases List.mem_append.mp hc with hc | hc
    · exact h.2.2 c hc
    · rw [List.mem_singleton.mp hc]
      exact ⟨hne, hwhole⟩
  rw [ddIwrite] at hw
  split at hw
  · rename_i hhole
    obtain ⟨file, hseek, hview⟩ := law.lseek_eq out.file buf.length
    rw [hseek] at hw
    obtain ⟨-, rfl⟩ := Prod.mk.inj (Except.ok.inj hw)
    refine ⟨?_, ?_, hsound _ fun _ => rfl⟩
    · rw [OutState.record, callPieces_snoc, layAll_snoc, hview, h.1, callPiece_of_hole hhole]
      rfl
    · rw [OutState.record, callPieces_snoc, endsInGap_snoc, callPiece_of_hole hhole]
      rfl
  · rename_i hhole
    simp only [ddIwriteAll, bind_ok, pure_ok] at hw
    obtain ⟨⟨file, total⟩, hrun, hw⟩ := hw
    obtain ⟨-, rfl⟩ := Prod.mk.inj hw
    have hstart : WrittenUpTo view (view out.file) buf (out.file, 0) := rfl
    obtain ⟨s, hs, hleave⟩ := loop_ok (fun _ _ => ddIwriteBody_continues law) hrun hstart
    have hview : view file = _ := ddIwriteBody_leaves law hs hleave
    refine ⟨?_, ?_, hsound _ fun hyes => absurd hyes hhole⟩
    · rw [OutState.record, callPieces_snoc, layAll_snoc, hview, h.1, callPiece_of_data hhole]
    · rw [OutState.record, callPieces_snoc, endsInGap_snoc, callPiece_of_data hhole]
      rfl

theorem Issued.shows (law : RegularFile O view) {f : List Byte × Nat} {start out : OutState ω}
    (h : Issued O env cfg start out) (hs : Shows cfg view f start) : Shows cfg view f out := by
  induction h with
  | refl => exact hs
  | call _ hne hw ih => exact ih.call law hne hw

/-- Finalising gives a file that ends in a gap its length. -/
theorem view_finalizeSparse (law : RegularFile O view) {f : List Byte × Nat} {ctx : Ctx ρ ω}
    (h : Shows cfg view f ctx.out) : (view (finalizeSparse O ctx).out.file).1 =
      sealed 0 f.1 f.2 (callPieces cfg ctx.out.calls) := by
  obtain ⟨hview, hlast, hsound⟩ := h
  rw [finalizeSparse, sealed, ← hlast]
  split
  · rename_i hseek
    have hpos : 0 < (view ctx.out.file).2 := by
      cases hcalls : ctx.out.calls using List.reverseRecOn with
      | nil =>
        rw [hlast, hcalls] at hseek
        cases hseek
      | append_singleton cs c =>
        have hlen := List.length_pos_of_ne_nil (hsound c (by rw [hcalls]; simp)).buf_ne_nil
        rw [hlast, hcalls, callPieces_snoc, endsInGap_snoc] at hseek
        rw [hview, hcalls, callPieces_snoc, layAll_snoc]
        cases hp : callPiece cfg c with
        | data bytes =>
          rw [hp] at hseek
          cases hseek
        | gap n =>
          have hn : n = c.buf.length := by
            rw [callPiece] at hp
            split at hp
            · exact (Piece.gap.inj hp).symm
            · cases hp
          simp only [lay]
          omega
    obtain ⟨file, htrunc, hcut⟩ := law.ftruncate_eq ctx.out.file (view ctx.out.file).2
    simp only [law.isRegular_eq, law.position_eq, true_and, hpos, if_true, htrunc, hcut]
    rw [← hview]
  · rw [← hview]

/-- Where the output begins. -/
def seekStart (cfg : Config) : Nat := cfg.seekRecords * cfg.blocksize + cfg.seekBytes

section Start

variable {content : List Byte} {input : ρ} {file : ω} {ctx ctx' : Ctx ρ ω}

/-- The configuration with other rests of the skip and the seek. -/
def Sought (cfg cfg' : Config) : Prop :=
  ∃ skipBytes seekBytes, cfg' = { cfg with skipBytes := skipBytes, seekBytes := seekBytes }

theorem skipInput_ctx (h : skipInput I env ctx = .ok ctx') :
    ∃ input skipBytes,
      ctx' = { ctx with input := input, cfg := { ctx.cfg with skipBytes := skipBytes } } := by
  rw [skipInput] at h
  split at h
  · simp only [bind_ok, pure_ok] at h
    obtain ⟨⟨left, bytes, input⟩, -, rfl⟩ := h
    exact ⟨_, _, rfl⟩
  · obtain rfl := Except.ok.inj h
    exact ⟨_, _, rfl⟩

/-- A regular file is moved to where the output begins. -/
theorem seekOutput_regular (law : RegularFile O view) {ok : Bool}
    (h : seekOutput O env ctx = .ok (ok, ctx')) : ok = true ∧ ∃ file seekBytes,
      view file = ((view ctx.out.file).1, (view ctx.out.file).2 + seekStart ctx.cfg) ∧
      ctx' = { ctx with
        out := { ctx.out with file := file }, cfg := { ctx.cfg with seekBytes := seekBytes } } := by
  rw [seekOutput] at h
  split at h
  · obtain ⟨file, hseek, hview⟩ := law.lseek_eq ctx.out.file (seekStart ctx.cfg)
    have hskip : skip O.lseek (ireadOutput O) ctx.cfg.seekRecords ctx.cfg.blocksize
        ctx.cfg.seekBytes ctx.out.file = .ok (0, 0, file) := by
      rw [skip, show ctx.cfg.seekRecords * ctx.cfg.blocksize + ctx.cfg.seekBytes = seekStart ctx.cfg
        from rfl, hseek]
    rw [hskip] at h
    obtain ⟨rfl, rfl⟩ := Prod.mk.inj (Except.ok.inj h)
    exact ⟨rfl, file, _, hview, rfl⟩
  · rename_i hzero
    obtain ⟨rfl, rfl⟩ := Prod.mk.inj (Except.ok.inj h)
    have hstart : seekStart ctx.cfg = 0 := by
      obtain ⟨hrecords, hbytes⟩ : ctx.cfg.seekRecords = 0 ∧ ctx.cfg.seekBytes = 0 := by
        simpa [not_or] using hzero
      rw [seekStart, hrecords, hbytes, Nat.zero_mul]
    exact ⟨rfl, _, _, by rw [hstart]; rfl, rfl⟩

/-- The context that a driver starts with, once skip and seek are done. -/
structure Started (view : ω → List Byte × Nat) (cfg : Config) (content : List Byte)
    (ctx : Ctx ρ ω) : Prop where
  sought : Sought cfg ctx.cfg
  view_eq : view ctx.out.file = (content, seekStart cfg)
  calls_eq : ctx.out.calls = []
  wasSeek : ctx.out.finalOpWasSeek = false
  fresh : ctx.stats = {} ∧ ctx.ibuf = [] ∧ ctx.unified = false ∧ ctx.obufSize = 0 ∧
    ctx.pending = []

theorem ddCopyStart_regular (law : RegularFile O view) (hfile : view file = (content, 0))
    {early : Option ExitStatus}
    (h : ddCopyStart I O env (Ctx.start cfg input file) = .ok (early, ctx)) :
    Started view cfg content ctx ∧
      early = if cfg.maxRecords = 0 ∧ cfg.maxBytes = 0 then some .success else none := by
  simp only [ddCopyStart, bind_ok] at h
  obtain ⟨ctx₁, hskip, ⟨ok, ctx₂⟩, hseek, h⟩ := h
  obtain ⟨input₁, skipBytes, rfl⟩ := skipInput_ctx hskip
  obtain ⟨rfl, file₁, seekBytes, hview, rfl⟩ := seekOutput_regular law hseek
  have hview₁ : view file₁ = (content, seekStart cfg) := by
    rw [hview, Ctx.start, hfile, Nat.zero_add]
    rfl
  simp only [Bool.not_true, Bool.false_eq_true, if_false] at h
  split at h
  · rename_i hnone
    obtain ⟨rfl, rfl⟩ := Prod.mk.inj (pure_ok.mp h)
    exact ⟨⟨⟨_, _, rfl⟩, hview₁, rfl, rfl, rfl, rfl, rfl, rfl, rfl⟩, (if_pos hnone).symm⟩
  · rename_i hsome
    obtain ⟨rfl, rfl⟩ := Prod.mk.inj (pure_ok.mp h)
    exact ⟨⟨⟨_, _, rfl⟩, hview₁, rfl, rfl, rfl, rfl, rfl, rfl, rfl⟩, (if_neg hsome).symm⟩

theorem le_allocSize (env : Env) (size : Nat) : size ≤ allocSize env size := by
  rw [allocSize]
  split
  · rename_i h
    have hdiv := Nat.div_add_mod (size + env.pageSize - 1) env.pageSize
    have hmod := Nat.mod_lt (size + env.pageSize - 1) h.1
    rw [Nat.mul_comm] at hdiv
    omega
  · exact Nat.le_refl _

theorem ddAllocIbuf_ne_nil (env : Env) (ctx : Ctx ρ ω) : (ddAllocIbuf env ctx).ibuf ≠ [] := by
  rw [ddAllocIbuf]
  split
  · assumption
  · have hle := le_allocSize env (bufferBlock ctx.cfg + 2)
    refine List.ne_nil_of_length_pos ?_
    rw [List.length_map, List.length_range]
    omega

theorem ddAllocIbuf_ctx (env : Env) (ctx : Ctx ρ ω) :
    ∃ ibuf, ddAllocIbuf env ctx = { ctx with ibuf := ibuf } := by
  rw [ddAllocIbuf]
  split
  · exact ⟨_, rfl⟩
  · exact ⟨_, rfl⟩

theorem ddAllocObuf_ctx (env : Env) (ctx : Ctx ρ ω) : ∃ unified obufSize,
    ddAllocObuf env ctx = { ctx with unified := unified, obufSize := obufSize } := by
  rw [ddAllocObuf]
  split
  · exact ⟨_, _, rfl⟩
  split
  · exact ⟨_, _, rfl⟩
  split
  · exact ⟨_, _, rfl⟩
  · exact ⟨_, _, rfl⟩

theorem firstStage_lt (hwMin n : Nat) : firstStage hwMin n < numAutotuneStages := by
  induction n with
  | zero => exact Nat.zero_lt_succ 3
  | succ n ih =>
    rw [firstStage]
    split
    · rename_i h
      exact h.2.2
    · exact ih

/-- The driver allocates its buffers and begins with a block size of its own. -/
theorem syncDriverInit_progress (hpos : 0 < ctx.cfg.blocksize) :
    Progress O env ctx.cfg ctx.out (syncDriverInit env ctx).1 := by
  obtain ⟨ibuf, hibuf⟩ := ddAllocIbuf_ctx env ctx
  have hne : ibuf ≠ [] := by
    have hne := ddAllocIbuf_ne_nil env ctx
    rwa [hibuf] at hne
  obtain ⟨unified, obufSize, hobuf⟩ := ddAllocObuf_ctx env (ddAllocIbuf env ctx)
  rw [hibuf] at hobuf
  simp only [syncDriverInit, hibuf, hobuf]
  have hstage := (Retuned.refl hpos).block
    (autotuneStage_pos (firstStage_lt (max env.optimalIn env.optimalOut) numAutotuneStages))
  split
  · refine Progress.mk ?_ (.refl _) hne
    simp only
    split
    · exact hstage.limits _ _
    · exact hstage
  · exact Progress.mk (.refl hpos) (.refl _) hne

/-- A copy with this driver from a started context. -/
theorem syncTransfer_shows (law : RegularFile O view) {f : List Byte × Nat}
    (hpos : 0 < ctx.cfg.blocksize) (hs : Shows ctx.cfg view f ctx.out) {status : ExitStatus}
    (h : syncTransfer I O env ctx = .ok (status, ctx')) :
    (view ctx'.out.file).1 = sealed 0 f.1 f.2 (callPieces ctx.cfg ctx'.out.calls) ∧
      ∀ c ∈ ctx'.out.calls, Sound ctx.cfg c := by
  simp only [syncTransfer, bind_ok] at h
  obtain ⟨⟨status₁, ctx₁, st⟩, hloop, ctx₂, hflush, h⟩ := h
  obtain ⟨-, rfl⟩ := Prod.mk.inj (pure_ok.mp h)
  have h₁ := syncDriverFlush_progress (syncLoop_progress (syncDriverInit_progress hpos) hloop) hflush
  have hshows := h₁.issued.shows law hs
  have hcalls : (finalizeSparse O ctx₂).out.calls = ctx₂.out.calls := by
    rw [finalizeSparse]
    split <;> rfl
  rw [hcalls]
  exact ⟨view_finalizeSparse law hshows, hshows.2.2⟩

/-- What a copy with this driver leaves in a regular file. -/
theorem ddCopySync_regular (law : RegularFile O view) (hpos : 0 < cfg.blocksize)
    (hfile : view file = (content, 0)) {status : ExitStatus}
    (h : ddCopySync I O env (Ctx.start cfg input file) = .ok (status, ctx)) :
    (view ctx.out.file).1 = sealed 0 content (seekStart cfg) (callPieces cfg ctx.out.calls) ∧
      ∀ c ∈ ctx.out.calls, Sound cfg c := by
  simp only [ddCopySync, bind_ok] at h
  obtain ⟨⟨early, ctx₁⟩, hstart, h⟩ := h
  obtain ⟨hs, -⟩ := ddCopyStart_regular law hfile hstart
  have hblock : 0 < ctx₁.cfg.blocksize := by
    obtain ⟨_, _, hcfg⟩ := hs.sought
    rwa [hcfg]
  have hshows : Shows ctx₁.cfg view (content, seekStart cfg) ctx₁.out := by
    refine ⟨?_, ?_, ?_⟩
    · rw [hs.calls_eq, hs.view_eq]
      rfl
    · rw [hs.calls_eq, hs.wasSeek]
      rfl
    · rw [hs.calls_eq]
      nofun
  cases early with
  | some status₁ =>
    obtain ⟨-, rfl⟩ := Prod.mk.inj (pure_ok.mp h)
    rw [hs.view_eq, hs.calls_eq]
    exact ⟨rfl, nofun⟩
  | none =>
    have hend := syncTransfer_shows law hblock hshows h
    obtain ⟨_, _, hcfg⟩ := hs.sought
    rw [hcfg] at hend
    exact ⟨hend.1, fun c hc => ⟨(hend.2 c hc).buf_ne_nil, (hend.2 c hc).whole⟩⟩

end Start

section Instances

/-- A regular file that takes whole writes. -/
def contentOutput : Output (List Byte × Nat) where
  write f _ bytes := (.ok bytes.length, lay 0 f (.data bytes))
  read f _ := (.error (.other 9), f)
  lseek f n := (true, (f.1, f.2 + n))
  isRegular _ := true
  position f := f.2
  ftruncate f n := (true, (resize 0 f.1 n, f.2))
  lseekBack f := (true, (f.1, f.2 - 1))
  write_le h := by
    obtain ⟨h, -⟩ := Prod.mk.inj h
    exact Nat.le_of_eq (Except.ok.inj h).symm

theorem contentOutput_regular : RegularFile contentOutput id where
  write_ok h := by
    obtain ⟨hn, rfl⟩ := Prod.mk.inj h
    rw [← Except.ok.inj hn, List.take_length]
    rfl
  write_error h := by
    obtain ⟨h, -⟩ := Prod.mk.inj h
    cases h
  lseek_eq _ _ := ⟨_, rfl, rfl⟩
  isRegular_eq _ := rfl
  position_eq _ := rfl
  ftruncate_eq _ _ := ⟨_, rfl, rfl⟩

/-- The bytes of a regular file, read in full. -/
def contentInput : Input (List Byte) where
  read s _ n := (.ok (s.take n), s.drop n)
  lseek s n := (true, s.drop n)
  read_le h := by
    obtain ⟨h, -⟩ := Prod.mk.inj h
    rw [← Except.ok.inj h]
    exact List.length_take_le _ _

def plainEnv (fuel : Nat) : Env where
  pageSize := 1
  uninit _ := 0
  clock _ := 0
  faster _ _ := false
  optimalIn := 0
  optimalOut := 0
  avx2 := false
  fuel := fuel

end Instances

end Blkcp.C
