import Blkcp.C.Copy
set_option autoImplicit false

/-! A synchronous copy touches its output through `dd_iwrite` alone; what these calls leave in a
regular file. -/

namespace Blkcp.C
open Blkcp.Lib

variable {ρ ω : Type} {I : Input ρ} {O : Output ω} {env : Env}

section Runs

variable {β γ σ : Type}

theorem bind_ok {x : Run β} {f : β → Run γ} {r : γ} :
    (x >>= f) = .ok r ↔ ∃ a, x = .ok a ∧ f a = .ok r := by
  cases x <;> simp [bind, Except.bind]

theorem pure_ok {a b : β} : (pure a : Run β) = .ok b ↔ a = b := by
  simp [pure, Except.pure]

/-- A loop that returns was left from a state that its invariant holds in. -/
theorem loop_ok {body : σ → σ ⊕ Run β} {P : σ → Prop}
    (step : ∀ s t, P s → body s = .inl t → P t) {s : σ} {r : β}
    (h : loop env body s = .ok r) (hs : P s) : ∃ t, P t ∧ body t = .inr (.ok r) := by
  simp only [loop] at h
  split at h
  · rename_i hrun
    subst h
    exact runLoop_invariant step hrun hs
  · cases h

end Runs

/-- A configuration with the limits and the block size that tuning may have set. -/
def Retuned (cfg cfg' : Config) : Prop :=
  ∃ bs records bytes, 0 < bs ∧
    cfg' = { cfg with blocksize := bs, maxRecords := records, maxBytes := bytes }

theorem Retuned.refl {cfg : Config} (h : 0 < cfg.blocksize) : Retuned cfg cfg :=
  ⟨_, _, _, h, rfl⟩

theorem Retuned.trans {cfg cfg' cfg'' : Config} (h : Retuned cfg cfg') (h' : Retuned cfg' cfg'') :
    Retuned cfg cfg'' := by
  obtain ⟨_, _, _, _, rfl⟩ := h
  obtain ⟨bs, records, bytes, hpos, rfl⟩ := h'
  exact ⟨bs, records, bytes, hpos, rfl⟩

theorem Retuned.blocksize_pos {cfg cfg' : Config} (h : Retuned cfg cfg') : 0 < cfg'.blocksize := by
  obtain ⟨_, _, _, hpos, rfl⟩ := h
  exact hpos

theorem Retuned.limits {cfg cfg' : Config} (h : Retuned cfg cfg') (records bytes : Nat) :
    Retuned cfg { cfg' with maxRecords := records, maxBytes := bytes } := by
  obtain ⟨bs, _, _, hpos, rfl⟩ := h
  exact ⟨bs, records, bytes, hpos, rfl⟩

theorem Retuned.block {cfg cfg' : Config} (h : Retuned cfg cfg') {bs : Nat} (hpos : 0 < bs) :
    Retuned cfg { cfg' with blocksize := bs } := by
  obtain ⟨_, records, bytes, _, rfl⟩ := h
  exact ⟨bs, records, bytes, hpos, rfl⟩

theorem Retuned.conversions_eq {cfg cfg' : Config} (h : Retuned cfg cfg') :
    cfg'.conversions = cfg.conversions := by
  obtain ⟨_, _, _, _, rfl⟩ := h
  rfl

theorem Retuned.outputFlags_eq {cfg cfg' : Config} (h : Retuned cfg cfg') :
    cfg'.outputFlags = cfg.outputFlags := by
  obtain ⟨_, _, _, _, rfl⟩ := h
  rfl

/-- The output after some calls of `dd_iwrite`, each with a buffer that is not empty. -/
inductive Issued (O : Output ω) (env : Env) (cfg : Config) : OutState ω → OutState ω → Prop where
  | refl (out : OutState ω) : Issued O env cfg out out
  | call {start out out' : OutState ω} {buf : List Byte} {n : Nat} :
      Issued O env cfg start out → buf ≠ [] → ddIwrite O env cfg buf out = .ok (n, out') →
      Issued O env cfg start out'

theorem ddIwrite_retuned {cfg cfg' : Config} (h : Retuned cfg cfg') (buf : List Byte)
    (out : OutState ω) : ddIwrite O env cfg' buf out = ddIwrite O env cfg buf out := by
  rw [ddIwrite, ddIwrite, h.conversions_eq, h.outputFlags_eq]

theorem Issued.trans {cfg : Config} {a b c : OutState ω} (h : Issued O env cfg a b)
    (h' : Issued O env cfg b c) : Issued O env cfg a c := by
  induction h' with
  | refl => exact h
  | call _ hne hw ih => exact ih.call hne hw

section Steps

variable {cfg : Config} {ctx ctx' : Ctx ρ ω} {st st' : SyncState}

/-- What a part of a step keeps: calls on the output, tuning of the configuration. -/
structure Progress (O : Output ω) (env : Env) (cfg : Config) (out : OutState ω)
    (ctx : Ctx ρ ω) : Prop where
  retuned : Retuned cfg ctx.cfg
  issued : Issued O env cfg out ctx.out
  ibuf_ne_nil : ctx.ibuf ≠ []

variable {out : OutState ω}

theorem Progress.call (h : Progress O env cfg out ctx) {buf : List Byte} (hne : buf ≠ [])
    {n : Nat} {out' : OutState ω} (hw : ddIwrite O env ctx.cfg buf ctx.out = .ok (n, out')) :
    Issued O env cfg out out' := by
  rw [ddIwrite_retuned h.retuned] at hw
  exact h.issued.call hne hw

theorem Progress.pending (h : Progress O env cfg out ctx) (p : List Byte) :
    Progress O env cfg out { ctx with pending := p } := ⟨h.retuned, h.issued, h.ibuf_ne_nil⟩

theorem Progress.ibuf (h : Progress O env cfg out ctx) {b : List Byte} (hb : b ≠ []) :
    Progress O env cfg out { ctx with ibuf := b } := ⟨h.retuned, h.issued, hb⟩

theorem ddWriteOutput_progress (h : Progress O env cfg out ctx) (hne : ctx.pending ≠ [])
    (hw : ddWriteOutput O env ctx = .ok ctx') : Progress O env cfg out ctx' := by
  simp only [ddWriteOutput, bind_ok, pure_ok] at hw
  obtain ⟨⟨n, out'⟩, hcall, rfl⟩ := hw
  have hpos := h.retuned.blocksize_pos
  have hbuf : ctx.pending.take ctx.cfg.blocksize ≠ [] := by
    rw [Ne, List.take_eq_nil_iff]
    rintro (hzero | hnil)
    · omega
    · exact hne hnil
  exact ⟨h.retuned, h.call hbuf hcall, h.ibuf_ne_nil⟩

/-- One round of the copy to `obuf`: more is pending, and perhaps a block is written. -/
theorem ddCopySimpleBody_continues {buf : List Byte} {t : Ctx ρ ω × List Byte}
    (h : Progress O env cfg out ctx) (hst : ddCopySimpleBody O env (ctx, buf) = .inl t) :
    Progress O env cfg out t.1 := by
  have hpos := h.retuned.blocksize_pos
  simp only [ddCopySimpleBody] at hst
  split at hst
  · cases hst
  split at hst
  · cases hst
  split at hst
  · cases hst
  split at hst
  · rename_i hfull
    split at hst
    · rename_i ctx₁ hw
      obtain rfl := Sum.inl.inj hst
      have hne := List.ne_nil_of_length_pos (Nat.lt_of_lt_of_le hpos hfull)
      exact ddWriteOutput_progress (h.pending _) hne hw
    · cases hst
  · obtain rfl := Sum.inl.inj hst
    exact h.pending _

theorem ddCopySimpleBody_leaves {buf : List Byte}
    (hst : ddCopySimpleBody O env (ctx, buf) = .inr (.ok ctx')) : buf = [] ∧ ctx' = ctx := by
  simp only [ddCopySimpleBody] at hst
  split at hst
  · rename_i hnil
    exact ⟨hnil, (Except.ok.inj (Sum.inr.inj hst)).symm⟩
  split at hst
  · cases Sum.inr.inj hst
  split at hst
  · cases Sum.inr.inj hst
  split at hst
  · split at hst
    · cases hst
    · cases Sum.inr.inj hst
  · cases hst

theorem ddCopySimple_progress (h : Progress O env cfg out ctx) {buf : List Byte}
    (hw : ddCopySimple O env ctx buf = .ok ctx') : Progress O env cfg out ctx' := by
  have hpos := h.retuned.blocksize_pos
  rw [ddCopySimple] at hw
  split at hw
  · rename_i hone
    simp only [bind_ok, pure_ok] at hw
    obtain ⟨⟨n, out'⟩, hcall, rfl⟩ := hw
    have hbuf : buf ≠ [] := List.ne_nil_of_length_pos (by omega)
    exact ⟨h.retuned, h.call hbuf hcall, h.ibuf_ne_nil⟩
  · obtain ⟨⟨ctx₁, buf₁⟩, h₁, hleave⟩ := loop_ok (P := fun s => Progress O env cfg out s.1)
      (fun s t hs hst => ddCopySimpleBody_continues hs hst) hw h
    rw [(ddCopySimpleBody_leaves hleave).2]
    exact h₁

theorem autotuneStage_pos {i : Nat} (h : i < numAutotuneStages) : 0 < autotuneStage i := by
  match i, h with
  | 0, _ => decide
  | 1, _ => decide
  | 2, _ => decide
  | 3, _ => decide

theorem bestStage_lt (rates : List Rate) {evaluated : Nat} (h : 0 < evaluated) :
    bestStage env rates evaluated < evaluated := by
  have hfold : ∀ (xs : List Nat) (best : Nat), (∀ x ∈ xs, x < evaluated) → best < evaluated →
      xs.foldl (fun best s =>
        if env.faster (rates.getD s none) (rates.getD best none) then s else best) best <
          evaluated := by
    intro xs
    induction xs with
    | nil => exact fun _ _ hb => hb
    | cons x xs ih =>
      intro best hxs hb
      refine ih _ (fun y hy => hxs y (List.mem_cons_of_mem x hy)) ?_
      simp only
      split
      · exact hxs x List.mem_cons_self
      · exact hb
  exact hfold _ 0 (fun x hx => List.mem_range.mp hx) h

theorem relimit_ctx (tuning : Autotune) (h : Retuned cfg ctx.cfg) : ∃ cfg', Retuned cfg cfg' ∧
    tuning.relimit ctx = { ctx with cfg := cfg' } := by
  simp only [Autotune.relimit]
  split
  · split
    · exact ⟨_, h.limits _ _, rfl⟩
    · exact ⟨_, h, rfl⟩
  · exact ⟨_, h, rfl⟩

/-- Tuning changes the block size and the limits that go with it. -/
theorem autotuneSampleTick_ctx (env : Env) (st : SyncState) (h : Retuned cfg ctx.cfg) :
    ∃ cfg', Retuned cfg cfg' ∧ (autotuneSampleTick env ctx st).1 = { ctx with cfg := cfg' } := by
  have hstage : ∀ (tuning : Autotune) {i : Nat}, i < numAutotuneStages → ∃ cfg', Retuned cfg cfg' ∧
      tuning.relimit { ctx with cfg := { ctx.cfg with blocksize := autotuneStage i } } =
        { ctx with cfg := cfg' } :=
    fun tuning _ hi => relimit_ctx tuning (h.block (autotuneStage_pos hi))
  have hbest : ∀ rates stage,
      bestStage env rates (min (stage + 1) numAutotuneStages) < numAutotuneStages := by
    intro rates stage
    have hpos : 0 < min (stage + 1) numAutotuneStages := Nat.lt_min.mpr ⟨by omega, by decide⟩
    exact Nat.lt_of_lt_of_le (bestStage_lt rates hpos) (Nat.min_le_right _ _)
  simp only [autotuneSampleTick]
  split
  · exact ⟨_, h, rfl⟩
  split
  · exact ⟨_, h, rfl⟩
  split
  all_goals
    split
    · rename_i hnext
      exact hstage _ hnext.1
    · exact hstage _ (hbest _ _)

theorem autotuneSampleTick_progress (h : Progress O env cfg out ctx) :
    Progress O env cfg out (autotuneSampleTick env ctx st).1 := by
  obtain ⟨cfg', hcfg, heq⟩ := autotuneSampleTick_ctx env st h.retuned
  rw [heq]
  exact ⟨hcfg, h.issued, h.ibuf_ne_nil⟩

theorem padBlock_progress (h : Progress O env cfg out ctx) (st : SyncState) (n : Nat) :
    Progress O env cfg out (padBlock ctx st n).1 := by
  simp only [padBlock]
  split
  · rename_i hshort
    split
    · refine ⟨h.retuned, h.issued, ?_⟩
      simp only
      split
      · exact h.ibuf_ne_nil
      · refine List.ne_nil_of_length_pos ?_
        rw [List.length_append, List.length_append, List.length_replicate]
        omega
    · exact ⟨h.retuned, h.issued, h.ibuf_ne_nil⟩
  · exact ⟨h.retuned, h.issued, h.ibuf_ne_nil⟩

/-- What is to be written of a block is not empty. -/
theorem padBlock_pos (hpos : 0 < ctx.cfg.blocksize) {n : Nat}
    (h : 0 < n ∨ ctx.cfg.conversions.sync = true) : 0 < (padBlock ctx st n).2.2 := by
  simp only [padBlock]
  split
  · split
    · exact hpos
    · rename_i hsync
      exact h.resolve_right hsync
  · simp only
    omega

theorem emitBlock_progress (h : Progress O env cfg out ctx) {n : Nat} {e : StepEnd} (hn : 0 < n)
    (hst : emitBlock O env ctx st n = .ok (e, ctx', st')) : Progress O env cfg out ctx' := by
  rw [emitBlock] at hst
  split at hst
  · simp only [bind_ok] at hst
    obtain ⟨⟨nwritten, out'⟩, hcall, hst⟩ := hst
    have hbuf : ctx.ibuf.take n ≠ [] := by
      rw [Ne, List.take_eq_nil_iff]
      rintro (hzero | hnil)
      · omega
      · exact h.ibuf_ne_nil hnil
    have hissued := h.call hbuf hcall
    simp only at hst
    split at hst
    · obtain ⟨-, rfl, -⟩ : _ ∧ _ = ctx' ∧ _ := by simpa [pure_ok] using hst
      exact ⟨h.retuned, hissued, h.ibuf_ne_nil⟩
    · simp only [pure_ok, Prod.mk.injEq] at hst
      obtain ⟨-, rfl, -⟩ := hst
      exact autotuneSampleTick_progress ⟨h.retuned, hissued, h.ibuf_ne_nil⟩
  · simp only [bind_ok, pure_ok, Prod.mk.injEq] at hst
    obtain ⟨ctx₁, hcopy, -, rfl, -⟩ := hst
    have hbuf : (if ctx.cfg.conversions.swab = true then
        ddSwabBuffer env.avx2 ctx.ibuf n st.savedByte else (ctx.ibuf, n, st.savedByte)).1 ≠ [] := by
      split
      · refine List.ne_nil_of_length_pos ?_
        rw [length_ddSwabBuffer]
        exact List.length_pos_of_ne_nil h.ibuf_ne_nil
      · exact h.ibuf_ne_nil
    exact autotuneSampleTick_progress (ddCopySimple_progress (h.ibuf hbuf) hcopy)

theorem padEmit_progress (h : Progress O env cfg out ctx) {n : Nat} {e : StepEnd}
    (hn : 0 < n ∨ ctx.cfg.conversions.sync = true)
    (hst : emitBlock O env (padBlock ctx st n).1 (padBlock ctx st n).2.1 (padBlock ctx st n).2.2 =
      .ok (e, ctx', st')) : Progress O env cfg out ctx' :=
  emitBlock_progress (padBlock_progress h st n) (padBlock_pos h.retuned.blocksize_pos hn) hst

theorem Progress.read (h : Progress O env cfg out ctx) (input : ρ) {bytes : List Byte}
    (hlen : 0 < bytes.length) :
    Progress O env cfg out { ctx with input := input, ibuf := readInto ctx.ibuf bytes } := by
  refine Progress.mk h.retuned h.issued (List.ne_nil_of_length_pos ?_)
  rw [readInto, List.length_append]
  omega

theorem Progress.input (h : Progress O env cfg out ctx) (input : ρ) :
    Progress O env cfg out { ctx with input := input } :=
  Progress.mk h.retuned h.issued h.ibuf_ne_nil

theorem syncDriverStep_progress (h : Progress O env cfg out ctx) {e : StepEnd}
    (hst : syncDriverStep I O env ctx st = .ok (e, ctx', st')) :
    Progress O env cfg out ctx' := by
  rw [syncDriverStep] at hst
  split at hst
  · obtain ⟨-, rfl, -⟩ : _ ∧ ctx = ctx' ∧ _ := by simpa using hst
    exact h
  simp only [bind_ok] at hst
  obtain ⟨⟨r, input⟩, -, hst⟩ := hst
  have h₁ := h.input input
  simp only at hst
  split at hst
  · obtain ⟨-, rfl, -⟩ : _ ∧ _ = ctx' ∧ _ := by simpa [pure_ok] using hst
    exact h₁
  · rename_i bytes hne
    split at hst
    · cases hst
    · have hlen : 0 < bytes.length := List.length_pos_of_ne_nil fun hnil => hne hnil
      exact padEmit_progress (h.read input hlen) (.inl hlen) hst
  · split at hst
    · split at hst
      · rename_i hsync
        exact padEmit_progress h₁ (.inr hsync.1) hst
      · obtain ⟨-, rfl, -⟩ : _ ∧ _ = ctx' ∧ _ := by simpa [pure_ok] using hst
        exact h₁
    · obtain ⟨-, rfl, -⟩ : _ ∧ _ = ctx' ∧ _ := by simpa [pure_ok] using hst
      exact h₁

theorem syncDriverFlush_progress (h : Progress O env cfg out ctx)
    (hst : syncDriverFlush O env ctx st = .ok ctx') : Progress O env cfg out ctx' := by
  obtain ⟨ctx₁, hsaved, hst⟩ := bind_ok.mp hst
  have h₁ : Progress O env cfg out ctx₁ := by
    rw [flushSaved] at hsaved
    split at hsaved
    · exact ddCopySimple_progress h hsaved
    · rwa [← Except.ok.inj hsaved]
  rw [flushPending] at hst
  split at hst
  · rwa [← Except.ok.inj hst]
  · rename_i hne
    simp only [bind_ok] at hst
    obtain ⟨⟨nwritten, out'⟩, hcall, hst⟩ := hst
    have hissued := h₁.call hne hcall
    simp only at hst
    split at hst
    · rw [← pure_ok.mp hst]
      exact ⟨h₁.retuned, hissued, h₁.ibuf_ne_nil⟩
    · rw [← pure_ok.mp hst]
      exact ⟨h₁.retuned, hissued, h₁.ibuf_ne_nil⟩

theorem syncLoop_progress (h : Progress O env cfg out ctx) {status : ExitStatus}
    (hst : syncLoop I O env (ctx, st) = .ok (status, ctx', st')) :
    Progress O env cfg out ctx' := by
  obtain ⟨⟨ctx₁, st₁⟩, h₁, hleave⟩ := loop_ok (P := fun s => Progress O env cfg out s.1)
    (fun s t hs hbody => by
      simp only [syncLoopBody] at hbody
      split at hbody
      · cases hbody
      split at hbody
      · rename_i hstep
        obtain rfl := Sum.inl.inj hbody
        exact syncDriverStep_progress hs hstep
      all_goals cases hbody) hst h
  simp only [syncLoopBody] at hleave
  split at hleave
  · obtain ⟨-, rfl, -⟩ : _ ∧ ctx₁ = ctx' ∧ _ := by simpa using hleave
    exact h₁
  split at hleave
  · cases hleave
  · rename_i hstep
    obtain ⟨-, rfl, -⟩ : _ ∧ _ = ctx' ∧ _ := by simpa using hleave
    exact syncDriverStep_progress h₁ hstep
  · rename_i hstep
    obtain ⟨-, rfl, -⟩ : _ ∧ _ = ctx' ∧ _ := by simpa using hleave
    exact syncDriverStep_progress h₁ hstep
  · cases Sum.inr.inj hleave

end Steps

end Blkcp.C
