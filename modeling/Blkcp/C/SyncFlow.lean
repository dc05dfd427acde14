import Blkcp.C.SyncEffect
set_option autoImplicit false

/-! The bytes that pass through the synchronous driver: what a write and a copy into `obuf` add to
them. -/

namespace Blkcp.C
open Blkcp.Lib

variable {ρ ω : Type} {I : Input ρ} {O : Output ω} {env : Env}

/-- The bytes given to `dd_iwrite` and those that wait in `obuf`. -/
def Ctx.issued (ctx : Ctx ρ ω) : List Byte := ctx.out.hashed ++ ctx.pending

/-- Every write takes something or is interrupted. -/
def Accepts (O : Output ω) : Prop :=
  ∀ f direct bytes, bytes ≠ [] → (O.write f direct bytes).1 = .error .eintr ∨
    ∃ n, 0 < n ∧ (O.write f direct bytes).1 = .ok n

section Runs

variable {β γ σ : Type}

theorem bind_error {x : Run β} {f : β → Run γ} {e : Halt} :
    (x >>= f) = .error e ↔ x = .error e ∨ ∃ a, x = .ok a ∧ f a = .error e := by
  cases x <;> simp [bind, Except.bind]

theorem pure_ne_error {a : β} {e : Halt} : ¬(pure a : Run β) = .error e := nofun

/-- A loop that does not return has no end, or stops where its invariant holds. -/
theorem loop_error {body : σ → σ ⊕ Run β} {P : σ → Prop}
    (step : ∀ s t, P s → body s = .inl t → P t) {s : σ} {e : Halt}
    (h : loop env body s = .error e) (hs : P s) :
    e = .endless ∨ ∃ t, P t ∧ body t = .inr (.error e) := by
  simp only [loop] at h
  split at h
  · rename_i hrun
    subst h
    exact .inr (runLoop_invariant step hrun hs)
  · exact .inl (Except.error.inj h).symm

end Runs

section Writing

variable {cfg : Config} {buf : List Byte}

/-- What a call of `dd_iwrite` records. -/
structure Written (O : Output ω) (buf : List Byte) (n : Nat) (out out' : OutState ω) : Prop where
  hashed_eq : out'.hashed = out.hashed ++ buf
  delivered_eq : out'.delivered = out.delivered ++ buf.take n
  whole : Accepts O → n = buf.length

theorem hashed_record (out : OutState ω) (file : ω) (wasSeek : Bool) (c : Call) :
    (out.record file wasSeek c).hashed = out.hashed ++ c.buf := by
  simp [OutState.record, OutState.hashed]

theorem delivered_record (out : OutState ω) (file : ω) (wasSeek : Bool) (c : Call) :
    (out.record file wasSeek c).delivered = out.delivered ++ c.buf.take c.count := by
  simp [OutState.record, OutState.delivered]

theorem ddIwriteBody_le {direct : Bool} {s t : ω × Nat} (h : s.2 ≤ buf.length)
    (hst : ddIwriteBody O direct buf s = .inl t) : t.2 ≤ buf.length := by
  have hroom : ∀ {f f' d n}, O.write f d (buf.drop s.2) = (.ok n, f') → s.2 + n ≤ buf.length := by
    intro f f' d n hw
    have hle := O.write_le hw
    rw [List.length_drop] at hle
    omega
  simp only [ddIwriteBody] at hst
  split at hst
  · cases hst
  split at hst
  · rename_i hw
    obtain rfl := Sum.inl.inj hst
    exact hroom hw
  · split at hst
    · obtain rfl := Sum.inl.inj hst
      exact h
    split at hst
    · split at hst
      · rename_i hw
        split at hst
        · obtain rfl := Sum.inl.inj hst
          exact hroom hw
        · cases hst
      · cases hst
    · cases hst

/-- An output that accepts is written to the end of the buffer. -/
theorem ddIwriteBody_whole (hacc : Accepts O) {direct : Bool} {s t : ω × Nat}
    (h : s.2 ≤ buf.length) (hst : ddIwriteBody O direct buf s = .inr (.ok t)) :
    t.2 = buf.length := by
  simp only [ddIwriteBody] at hst
  split at hst
  · rename_i hend
    obtain rfl := Except.ok.inj (Sum.inr.inj hst)
    omega
  · rename_i hlt
    have hne : buf.drop s.2 ≠ [] := by
      rw [Ne, List.drop_eq_nil_iff]
      omega
    have haccepts := hacc s.1 direct _ hne
    split at hst
    · cases hst
    · rename_i e file hw
      rw [hw] at haccepts
      rcases haccepts with he | ⟨n, -, hn⟩
      · rw [if_pos (Except.error.inj he)] at hst
        cases hst
      · cases hn

theorem ddIwrite_written {n : Nat} {out out' : OutState ω}
    (h : ddIwrite O env cfg buf out = .ok (n, out')) : Written O buf n out out' := by
  have hall : ∀ out₁ : OutState ω, out₁.hashed = out.hashed → out₁.delivered = out.delivered →
      ddIwriteAll O env cfg.outputFlags.direct buf out₁ = .ok (n, out') →
      Written O buf n out out' := by
    intro out₁ hhashed hdelivered h
    simp only [ddIwriteAll, bind_ok, pure_ok] at h
    obtain ⟨⟨file, total⟩, hrun, h⟩ := h
    obtain ⟨rfl, rfl⟩ := Prod.mk.inj h
    obtain ⟨s, hs, hleave⟩ := loop_ok (P := fun s => s.2 ≤ buf.length)
      (fun _ _ => ddIwriteBody_le) hrun (Nat.zero_le _)
    refine ⟨?_, ?_, fun hacc => ddIwriteBody_whole hacc hs hleave⟩
    · rw [hashed_record, hhashed]
    · rw [delivered_record, hdelivered]
  rw [ddIwrite] at h
  split at h
  · split at h
    · obtain ⟨rfl, rfl⟩ := Prod.mk.inj (Except.ok.inj h)
      exact ⟨hashed_record _ _ _ _, delivered_record _ _ _ _, fun _ => rfl⟩
    · rename_i file _
      exact hall { out with file := file } rfl rfl h
  · exact hall out rfl rfl h

theorem ddIwriteBody_count {direct : Bool} {s t : ω × Nat}
    (hst : ddIwriteBody O direct buf s = .inr (.ok t)) : t.2 = s.2 := by
  simp only [ddIwriteBody] at hst
  split at hst
  · obtain rfl := Except.ok.inj (Sum.inr.inj hst)
    rfl
  split at hst
  · cases hst
  split at hst
  · cases hst
  split at hst
  · split at hst
    · split at hst
      · cases hst
      · obtain rfl := Except.ok.inj (Sum.inr.inj hst)
        rfl
    · obtain rfl := Except.ok.inj (Sum.inr.inj hst)
      rfl
  · obtain rfl := Except.ok.inj (Sum.inr.inj hst)
    rfl

/-- A call of `dd_iwrite` records itself. -/
theorem ddIwrite_records {n : Nat} {out out' : OutState ω}
    (h : ddIwrite O env cfg buf out = .ok (n, out')) :
    out'.calls = out.calls ++ [⟨buf, n⟩] ∧ n ≤ buf.length := by
  have hall (out₁ : OutState ω) (hcalls : out₁.calls = out.calls)
      (h : ddIwriteAll O env cfg.outputFlags.direct buf out₁ = .ok (n, out')) :
      out'.calls = out.calls ++ [⟨buf, n⟩] ∧ n ≤ buf.length := by
    simp only [ddIwriteAll, bind_ok, pure_ok] at h
    obtain ⟨⟨file, total⟩, hrun, h⟩ := h
    obtain ⟨rfl, rfl⟩ := Prod.mk.inj h
    obtain ⟨s, hs, hleave⟩ := loop_ok (P := fun s => s.2 ≤ buf.length)
      (fun _ _ => ddIwriteBody_le) hrun (Nat.zero_le _)
    have hcount : total = s.2 := ddIwriteBody_count hleave
    refine ⟨?_, by omega⟩
    rw [OutState.record, hcalls]
  rw [ddIwrite] at h
  split at h
  · split at h
    · obtain ⟨rfl, rfl⟩ := Prod.mk.inj (Except.ok.inj h)
      exact ⟨rfl, Nat.le_refl _⟩
    · rename_i file _
      exact hall { out with file := file } rfl h
  · exact hall out rfl h

theorem ddIwriteBody_ne_error {direct : Bool} {e : Halt} (s : ω × Nat) :
    ddIwriteBody O direct buf s ≠ .inr (.error e) := by
  simp only [ddIwriteBody]
  repeat' split
  all_goals nofun

/-- A call that does not return is one that does not end. -/
theorem ddIwrite_error {out : OutState ω} {e : Halt} (h : ddIwrite O env cfg buf out = .error e) :
    e = .endless := by
  have hall : ∀ out₁ : OutState ω,
      ddIwriteAll O env cfg.outputFlags.direct buf out₁ = .error e → e = .endless := by
    intro out₁ h
    simp only [ddIwriteAll, bind_error, pure_ne_error, and_false, exists_false, or_false] at h
    rcases loop_error (P := fun _ => True) (fun _ _ _ _ => trivial) h trivial with he | ⟨s, -, hs⟩
    · exact he
    · exact absurd hs (ddIwriteBody_ne_error s)
  rw [ddIwrite] at h
  split at h
  · split at h
    · cases h
    · exact hall _ h
  · exact hall _ h

end Writing

section Reblocking

variable {ctx ctx' ctx'' : Ctx ρ ω} {bytes bytes' : List Byte}

/-- All but the output, the bytes that wait for it and what is counted of it. -/
structure Kept (ctx ctx' : Ctx ρ ω) : Prop where
  cfg_eq : ctx'.cfg = ctx.cfg
  input_eq : ctx'.input = ctx.input
  ibuf_eq : ctx'.ibuf = ctx.ibuf
  unified_eq : ctx'.unified = ctx.unified
  obufSize_eq : ctx'.obufSize = ctx.obufSize
  rFull_eq : ctx'.stats.rFull = ctx.stats.rFull
  rPartial_eq : ctx'.stats.rPartial = ctx.stats.rPartial

theorem Kept.refl (ctx : Ctx ρ ω) : Kept ctx ctx := ⟨rfl, rfl, rfl, rfl, rfl, rfl, rfl⟩

theorem Kept.trans (h : Kept ctx ctx') (h' : Kept ctx' ctx'') : Kept ctx ctx'' :=
  ⟨h'.cfg_eq.trans h.cfg_eq, h'.input_eq.trans h.input_eq, h'.ibuf_eq.trans h.ibuf_eq,
    h'.unified_eq.trans h.unified_eq, h'.obufSize_eq.trans h.obufSize_eq,
    h'.rFull_eq.trans h.rFull_eq, h'.rPartial_eq.trans h.rPartial_eq⟩

/-- What was issued counts as written, if the output accepts it. -/
structure Counted (O : Output ω) (ctx ctx' : Ctx ρ ω) : Prop where
  wBytes_eq : Accepts O →
    ctx'.stats.wBytes + ctx.out.hashed.length = ctx.stats.wBytes + ctx'.out.hashed.length
  delivered_eq : Accepts O → ctx.out.delivered = ctx.out.hashed →
    ctx'.out.delivered = ctx'.out.hashed

theorem Counted.refl (ctx : Ctx ρ ω) : Counted O ctx ctx := ⟨fun _ => rfl, fun _ h => h⟩

theorem Counted.trans (h : Counted O ctx ctx') (h' : Counted O ctx' ctx'') :
    Counted O ctx ctx'' where
  wBytes_eq hacc := by
    have h₁ := h.wBytes_eq hacc
    have h₂ := h'.wBytes_eq hacc
    omega
  delivered_eq hacc heq := h'.delivered_eq hacc (h.delivered_eq hacc heq)

/-- These bytes are added to what is issued, in whole blocks but for the rest that waits. -/
structure Reblocked (O : Output ω) (ctx ctx' : Ctx ρ ω) (bytes : List Byte) : Prop where
  kept : Kept ctx ctx'
  counted : Counted O ctx ctx'
  issued_eq : ctx'.issued = ctx.issued ++ bytes
  blocks : ∃ k, ctx'.out.hashed.length = ctx.out.hashed.length + k * ctx.cfg.blocksize
  pending_lt : ctx.pending.length < ctx.cfg.blocksize →
    ctx'.pending.length < ctx.cfg.blocksize

theorem Reblocked.refl (ctx : Ctx ρ ω) : Reblocked O ctx ctx [] where
  kept := .refl ctx
  counted := .refl ctx
  issued_eq := (List.append_nil _).symm
  blocks := ⟨0, by rw [Nat.zero_mul, Nat.add_zero]⟩
  pending_lt h := h

theorem Reblocked.trans (h : Reblocked O ctx ctx' bytes) (h' : Reblocked O ctx' ctx'' bytes') :
    Reblocked O ctx ctx'' (bytes ++ bytes') where
  kept := h.kept.trans h'.kept
  counted := h.counted.trans h'.counted
  issued_eq := by rw [h'.issued_eq, h.issued_eq, List.append_assoc]
  blocks := by
    obtain ⟨k, hk⟩ := h.blocks
    obtain ⟨k', hk'⟩ := h'.blocks
    exact ⟨k + k', by rw [hk', hk, h.kept.cfg_eq, Nat.add_mul, Nat.add_assoc]⟩
  pending_lt hlt := by
    have hlt' := h'.pending_lt
    rw [h.kept.cfg_eq] at hlt'
    exact hlt' (h.pending_lt hlt)

theorem countBlock_wBytes (stats : Stats) (nwritten size : Nat) :
    (countBlock stats nwritten size).wBytes = stats.wBytes + nwritten := by
  simp only [countBlock]
  repeat' split
  all_goals rfl

theorem countBlock_records (stats : Stats) (nwritten size : Nat) :
    (countBlock stats nwritten size).rFull = stats.rFull ∧
      (countBlock stats nwritten size).rPartial = stats.rPartial := by
  simp only [countBlock]
  repeat' split
  all_goals exact ⟨rfl, rfl⟩

/-- A block goes out, and with it all that was waiting. -/
theorem Written.reblocked {n : Nat} {out' : OutState ω} {block : List Byte}
    (hw : Written O block n ctx.out out') (size : Nat) (hsize : block.length = ctx.cfg.blocksize)
    (hblock : block = ctx.pending ++ bytes) :
    Reblocked O ctx
      { ctx with out := out', stats := countBlock ctx.stats n size, pending := [] } bytes where
  kept := ⟨rfl, rfl, rfl, rfl, rfl, (countBlock_records _ _ _).1, (countBlock_records _ _ _).2⟩
  counted := by
    refine ⟨fun hacc => ?_, fun hacc heq => ?_⟩
    · simp only [countBlock_wBytes, hw.hashed_eq, List.length_append, hw.whole hacc]
      omega
    · simp only [hw.delivered_eq, hw.hashed_eq, heq, hw.whole hacc, List.take_length]
  issued_eq := by
    simp only [Ctx.issued, hw.hashed_eq, hblock, List.append_nil, List.append_assoc]
  blocks := ⟨1, by simp only [hw.hashed_eq, List.length_append, hsize, Nat.one_mul]⟩
  pending_lt h := Nat.zero_lt_of_lt h

theorem Reblocked.wait (h : ctx.pending.length + bytes.length < ctx.cfg.blocksize) :
    Reblocked O ctx { ctx with pending := ctx.pending ++ bytes } bytes where
  kept := ⟨rfl, rfl, rfl, rfl, rfl, rfl, rfl⟩
  counted := ⟨fun _ => rfl, fun _ heq => heq⟩
  issued_eq := (List.append_assoc _ _ _).symm
  blocks := ⟨0, by rw [Nat.zero_mul, Nat.add_zero]⟩
  pending_lt _ := by rwa [List.length_append]

/-- One round takes a part of the buffer. -/
theorem ddCopySimpleBody_reblocked {buf : List Byte} {t : Ctx ρ ω × List Byte}
    (hst : ddCopySimpleBody O env (ctx, buf) = .inl t) :
    ∃ part, buf = part ++ t.2 ∧ Reblocked O ctx t.1 part := by
  simp only [ddCopySimpleBody] at hst
  split at hst
  · cases hst
  split at hst
  · cases hst
  rename_i hroom
  split at hst
  · cases hst
  generalize hcopy : min (ctx.cfg.blocksize - ctx.pending.length) buf.length = copyNow at hst
  have hlen : (buf.take copyNow).length = copyNow := by
    rw [List.length_take]
    omega
  split at hst
  · rename_i hfull
    rw [List.length_append, hlen] at hfull
    split at hst
    · rename_i ctx₁ hw
      obtain rfl := Sum.inl.inj hst
      simp only [ddWriteOutput, bind_ok, pure_ok] at hw
      obtain ⟨⟨n, out'⟩, hcall, rfl⟩ := hw
      have hsize : (ctx.pending ++ buf.take copyNow).length = ctx.cfg.blocksize := by
        rw [List.length_append, hlen]
        omega
      rw [List.take_of_length_le hsize.le] at hcall
      refine ⟨buf.take copyNow, (List.take_append_drop _ _).symm, ?_⟩
      exact (ddIwrite_written hcall).reblocked _ hsize rfl
    · cases hst
  · rename_i hshort
    rw [List.length_append, hlen] at hshort
    obtain rfl := Sum.inl.inj hst
    refine ⟨buf.take copyNow, (List.take_append_drop _ _).symm, ?_⟩
    exact .wait (by rw [hlen]; omega)

theorem ddCopySimple_reblocked {buf : List Byte} (hw : ddCopySimple O env ctx buf = .ok ctx') :
    Reblocked O ctx ctx' buf := by
  rw [ddCopySimple] at hw
  split at hw
  · rename_i hone
    simp only [bind_ok, pure_ok] at hw
    obtain ⟨⟨n, out'⟩, hcall, rfl⟩ := hw
    have h := (ddIwrite_written hcall).reblocked buf.length hone.2
      (show buf = ctx.pending ++ buf by rw [hone.1, List.nil_append])
    rw [← hone.1] at h
    exact h
  · obtain ⟨⟨ctx₁, buf₁⟩, ⟨part, hpart, h₁⟩, hleave⟩ := loop_ok
      (P := fun s => ∃ part, buf = part ++ s.2 ∧ Reblocked O ctx s.1 part)
      (fun s t hs hst => by
        obtain ⟨part, hpart, hs⟩ := hs
        obtain ⟨part', hpart', ht⟩ := ddCopySimpleBody_reblocked hst
        exact ⟨part ++ part', by rw [hpart, hpart', List.append_assoc], hs.trans ht⟩)
      hw ⟨[], rfl, .refl ctx⟩
    obtain ⟨rfl, rfl⟩ := ddCopySimpleBody_leaves hleave
    rw [List.append_nil] at hpart
    rwa [hpart]

/-- While less than a block waits, no copy to `obuf` has a negative length or one beyond its
end. -/
theorem ddCopySimple_defined {buf : List Byte} {e : Halt}
    (hlt : ctx.pending.length < ctx.cfg.blocksize) (hroom : ctx.cfg.blocksize ≤ ctx.obufSize)
    (h : ddCopySimple O env ctx buf = .error e) : e = .endless := by
  rw [ddCopySimple] at h
  split at h
  · rcases bind_error.mp h with hw | ⟨_, -, hp⟩
    · exact ddIwrite_error hw
    · exact absurd hp pure_ne_error
  · rcases loop_error
      (P := fun s => s.1.pending.length < s.1.cfg.blocksize ∧ s.1.cfg.blocksize ≤ s.1.obufSize)
      (fun s t hs hst => by
        obtain ⟨part, -, ht⟩ := ddCopySimpleBody_reblocked hst
        rw [ht.kept.cfg_eq, ht.kept.obufSize_eq]
        exact ⟨ht.pending_lt hs.1, hs.2⟩)
      h ⟨hlt, hroom⟩ with he | ⟨⟨ctx₁, buf₁⟩, ⟨hlt₁, hroom₁⟩, hleave⟩
    · exact he
    · simp only [ddCopySimpleBody] at hleave
      split at hleave
      · cases Sum.inr.inj hleave
      rw [if_neg (by simp only at hlt₁; omega), if_neg (by simp only at hlt₁ hroom₁; omega)] at hleave
      split at hleave
      · split at hleave
        · cases hleave
        · rename_i hw
          obtain rfl := Except.error.inj (Sum.inr.inj hleave)
          rw [ddWriteOutput] at hw
          rcases bind_error.mp hw with hw | ⟨_, -, hp⟩
          · exact ddIwrite_error hw
          · exact absurd hp pure_ne_error
      · cases hleave

end Reblocking

end Blkcp.C
