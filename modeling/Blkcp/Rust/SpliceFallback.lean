import Mathlib.Data.List.Nodup
import Blkcp.Rust.SpliceSpec
import Blkcp.Rust.Views
set_option autoImplicit false

/-! What is on the output when a splice copy gives up and the synchronous loop takes over. -/

namespace Blkcp.Rust
open Blkcp.Lib

variable {α : Type}

/-- A splice copy of everything, nothing transformed, from the start of both files. -/
structure SpliceConfig (cfg : Config) : Prop where
  engine : cfg.engine = .splice
  hashAlgo : cfg.hashAlgo = .none
  swab : cfg.swab = false
  sparse : cfg.sparse = false
  sync : cfg.sync = false
  limitBytes : cfg.limitBytes = none
  count : cfg.count = none
  skipBytes : cfg.skipBytes = 0
  seekBytes : cfg.seekBytes = 0

/-- What the system decides: for the splice copy, then for the synchronous loop. -/
structure Outcomes where
  pipeOk : Bool
  spliceCancel : Nat → Bool
  results : Nat → SpliceResult
  spliceFuel : Nat
  cancel : Nat → Bool
  lens : Nat → Option Nat
  fuel : Nat

section Fallback

def withOutcomes [Octet α] {η₂ η₃ : Type} (env : HashEnv η₂ η₃) (X : Outcomes) (E : Engines α) :
    Engines α :=
  { E with
    trySpliceCopy := trySpliceCopy X.pipeOk X.spliceCancel X.results X.spliceFuel
    transferLoop := transferCopy env X.lens X.cancel X.fuel }

variable {cfg : Config} {w w' : World α}

theorem executeTransferWithControl_splice (hc : SpliceConfig cfg) (E : Engines α) :
    executeTransferWithControl E cfg w = (splicePath E cfg w).orElse (syncPath E cfg) := by
  have hreflink : reflinkPath E cfg w = some (none, w) := by
    simp [reflinkPath, canUseReflink, hc.engine]
  have hasync : ∀ w, asyncPath E cfg w = some (none, w) := by
    intro w
    simp [asyncPath, hc.engine]
  have huring : ∀ w, uringPath E cfg w = some (none, w) := by
    intro w
    simp [uringPath, hc.engine]
  simp only [executeTransferWithControl, hreflink, hasync, huring, PathResult.orElse]

theorem seekInputOrStay_zero (fs : FileSystem α) (i : OpenInput) : seekInputOrStay fs i 0 = i := by
  simp [seekInputOrStay]

theorem seekOutputOrStay_zero (fs : FileSystem α) (o : OpenOutput) :
    seekOutputOrStay fs o 0 = o := by
  simp [seekOutputOrStay]

theorem outputView_syncFile (w : World α) (o : OpenOutput) :
    outputView cfg (syncFile cfg o w) = outputView cfg w := by
  cases o with
  | file id pos =>
    simp only [syncFile]
    repeat' split
    all_goals rfl
  | stdout => rfl

/-- The splice path either finishes the copy or leaves it to the loop. -/
theorem splicePath_cases (hc : SpliceConfig cfg) (hs : Seekable cfg w) {E : Engines α}
    {x : Option (Except String HashInfo)} (h : splicePath E cfg w = some (x, w')) :
    (∃ e, x = some (.error e)) ∨
    (x = some (.ok none) ∧ ∃ w2, outputView cfg w' = outputView cfg w2 ∧
      Nonempty (Copied cfg w w2 (E.trySpliceCopy cfg) (.ok true))) ∨
    (x = none ∧ ∃ r, r ≠ .ok true ∧ Nonempty (Copied cfg w w' (E.trySpliceCopy cfg) r)) := by
  simp only [splicePath, hc.engine, hc.hashAlgo, hc.swab, hc.sparse, hc.sync, Bool.not_false,
    and_self, if_true, hc.skipBytes, hc.seekBytes, seekInputOrStay_zero, seekOutputOrStay_zero] at h
  split at h
  · obtain ⟨rfl, rfl⟩ := Prod.mk.inj (Option.some.inj h)
    exact .inl ⟨_, rfl⟩
  · rename_i i hi
    split at h
    · obtain ⟨rfl, rfl⟩ := Prod.mk.inj (Option.some.inj h)
      exact .inl ⟨_, rfl⟩
    · rename_i o w1 ho
      split at h
      · simp at h
      · rename_i w2 hrun
        obtain ⟨rfl, rfl⟩ := Prod.mk.inj (Option.some.inj h)
        exact .inr (.inl ⟨rfl, w2, outputView_syncFile w2 o, copied_of_runCopy hs hi ho hrun⟩)
      · rename_i r w2 hne hrun
        obtain ⟨rfl, rfl⟩ := Prod.mk.inj (Option.some.inj h)
        refine .inr (.inr ⟨rfl, r, ?_, copied_of_runCopy hs hi ho hrun⟩)
        rintro rfl
        exact hne rfl

theorem syncPath_ok (hc : SpliceConfig cfg) (hs : Seekable cfg w) {E : Engines α}
    {hash : HashInfo} (h : syncPath E cfg w = some (some (.ok hash), w')) :
    ∃ w2, outputView cfg w' = outputView cfg w2 ∧
      Nonempty (Copied cfg w w2 (E.transferLoop cfg) (.ok hash)) := by
  have hcopy : ∀ w', openAndCopy cfg w (E.transferLoop cfg) = some (some (.ok hash), w') →
      ∃ w2, outputView cfg w' = outputView cfg w2 ∧
        Nonempty (Copied cfg w w2 (E.transferLoop cfg) (.ok hash)) := by
    intro w' h
    simp only [openAndCopy, hc.skipBytes, hc.seekBytes, seekInputOrFail, seekOutputOrFail,
      gt_iff_lt, Nat.lt_irrefl, if_false] at h
    split at h
    · simp at h
    · rename_i i hi
      split at h
      · simp at h
      · rename_i o w1 ho
        split at h
        · simp at h
        · simp at h
        · rename_i hash' w2 hrun
          obtain ⟨hh, rfl⟩ := Prod.mk.inj (Option.some.inj h)
          obtain rfl := Except.ok.inj (Option.some.inj hh)
          exact ⟨w2, outputView_syncFile w2 o, copied_of_runCopy hs hi ho hrun⟩
  simp only [syncPath] at h
  split at h
  · rename_i hash' w1 hrun
    obtain ⟨hh, rfl⟩ := Prod.mk.inj (Option.some.inj h)
    obtain rfl := Except.ok.inj (Option.some.inj hh)
    obtain ⟨w2, hview, hcopied⟩ := hcopy w1 hrun
    refine ⟨w2, ?_, hcopied⟩
    rw [← hview]
    split
    · rfl
    · rfl
  · exact hcopy w' h

end Fallback

section Overlay

variable {x c : List α} {t d : Nat}

theorem placeAt_same_start [Octet α] (a b : List α) (h : a.length ≤ b.length) :
    placeAt Octet.zero (placeAt Octet.zero c 0 a) 0 b = placeAt Octet.zero c 0 b := by
  rw [placeAt_zero, placeAt_zero, placeAt_zero, List.drop_append, List.drop_of_length_le h,
    List.nil_append, List.drop_drop]
  congr 2
  omega

theorem placeAt_self_take [Octet α] (c : List α) (d : Nat) : placeAt Octet.zero c 0 (c.take d) = c := by
  rw [placeAt_zero, take_append_drop_length]

/-- Copied again in full behind the part already there. -/
theorem take_append_self_eq_iff (hd : d ≤ x.length) : x.take d ++ x = x ↔ d = 0 := by
  constructor
  · intro h
    have := congrArg List.length h
    rw [List.length_append, List.length_take] at this
    omega
  · rintro rfl
    simp

theorem drop_eq_self_iff (ht : t ≤ x.length) : x.drop t = x ↔ t = 0 := by
  constructor
  · intro h
    have := congrArg List.length h
    rw [List.length_drop] at this
    omega
  · rintro rfl
    rfl

theorem take_append_drop_eq_iff (hdt : d ≤ t) (ht : t ≤ x.length) :
    x.take d ++ x.drop t = x ↔ t = d := by
  constructor
  · intro h
    have := congrArg List.length h
    rw [List.length_append, List.length_take, List.length_drop] at this
    omega
  · rintro rfl
    exact List.take_append_drop t x

/-- The rest of a stream written over the part delivered before, when no byte occurs twice. -/
theorem placeAt_rest_eq_iff [Octet α] (hx : x.Nodup) (hc : ∀ b ∈ c, b ∉ x) (hdt : d ≤ t)
    (ht : t ≤ x.length) :
    placeAt Octet.zero (placeAt Octet.zero c 0 (x.take d)) 0 (x.drop t) = placeAt Octet.zero c 0 x ↔
      t = 0 ∨ d = x.length := by
  have hdl : (x.take d).length = d := by
    rw [List.length_take]
    omega
  constructor
  · intro h
    by_contra hne
    rw [not_or] at hne
    have hfirst := congrArg (fun l => l[0]?) h
    by_cases hlt : t < x.length
    · -- the first byte of the rest is not the first byte of the input
      simp only [placeAt_zero, List.length_drop] at hfirst
      rw [List.getElem?_append_left (by rw [List.length_drop]; omega),
        List.getElem?_append_left (by omega), List.getElem?_drop, Nat.add_zero,
        List.getElem?_eq_getElem hlt, List.getElem?_eq_getElem (by omega), Option.some.injEq]
        at hfirst
      exact hne.1 ((List.Nodup.getElem_inj_iff hx).mp hfirst)
    · -- nothing is left to write, and what stands behind the delivered part is old
      have hall : x.drop t = [] := List.drop_of_length_le (by omega)
      have hat := congrArg (fun l => l[d]?) h
      simp only [hall, placeAt_zero, List.length_nil, List.drop_zero, List.nil_append, hdl] at hat
      rw [List.getElem?_append_right (by omega), hdl, Nat.sub_self,
        List.getElem?_append_left (by omega), List.getElem?_eq_getElem (show d < x.length by omega)]
        at hat
      have hmem : x[d] ∈ c := List.mem_of_mem_drop (List.mem_of_getElem? hat)
      exact hc _ hmem (List.getElem_mem _)
  · rintro (rfl | rfl)
    · rw [List.drop_zero]
      exact placeAt_same_start _ _ (by omega)
    · have htx : t = x.length := by omega
      rw [htx, List.take_length, List.drop_length, placeAt_nil _ _ (Nat.zero_le _)]

end Overlay

section Exact

variable [Octet α] {η₂ η₃ : Type} {env : HashEnv η₂ η₃} {X : Outcomes} {E : Engines α}
variable {cfg : Config} {w w' : World α}

/-- All bytes of the input, once and in order, from where the output is opened, over what the open
leaves of it. -/
def expectedOutput (cfg : Config) (w : World α) : List α :=
  placeAt Octet.zero (if truncates cfg w then [] else outputView cfg w) (outPos cfg w) (inputView cfg w)

/-- The splice copy alone, from the opened files. -/
def spliceAttempt (X : Outcomes) (cfg : Config) (w : World α) :
    Option (Except String Bool × SpliceState α) :=
  let opened := (openSink w cfg).2
  spliceRun X.pipeOk X.spliceCancel X.results X.spliceFuel cfg (inputView cfg opened)
    (outputView cfg opened) (outPos cfg opened) opened.stats

/-- A file is not copied onto itself after the open has emptied it. -/
def NotSelfEmptied (cfg : Config) (w : World α) : Prop :=
  sameFile cfg w = true → truncates cfg w = true → inputView cfg w = []

/-- Where a copy that starts over makes up for what the splice copy `s` did: named files are read
and written from their start again, standard streams go on where they are. -/
def Recovers (cfg : Config) (w : World α) (s : SpliceState α) : Prop :=
  let x := inputView cfg w
  match cfg.input, cfg.output with
  | some _, some _ => True
  | some _, none => s.delivered x = 0
  | none, some _ => s.taken x = 0 ∨ truncates cfg w = false ∧ s.delivered x = x.length
  | none, none => s.taken x = s.delivered x

def openedInput (cfg : Config) (w : World α) : List α :=
  if sameFile cfg w && truncates cfg w then [] else inputView cfg w

def openedOutput (cfg : Config) (w : World α) : List α :=
  if truncates cfg w then [] else outputView cfg w

theorem SpliceInv.input_eq {x c : List α} {pos : Nat} {s : SpliceState α}
    (h : SpliceInv x c pos s) : s.input = x.drop (s.taken x) := by
  have hle := h.length_le
  have hrest := congrArg (List.drop s.pipe.length) h.rest_eq
  rw [List.drop_left, List.drop_drop] at hrest
  rw [hrest, SpliceState.taken, SpliceState.delivered]
  congr 1
  omega

theorem spliceStage (hc : SpliceConfig cfg) {r : Except String Bool} {w2 : World α}
    (S : Copied cfg w w2
      (trySpliceCopy X.pipeOk X.spliceCancel X.results X.spliceFuel cfg) r) :
    ∃ t, spliceAttempt X cfg w = some (r, t) ∧
      SpliceInv (openedInput cfg w) (openedOutput cfg w) (outPos cfg w) t ∧
      (r = .ok true → t.input = [] ∧ t.pipe = []) ∧
      outputView cfg w2 = t.output ∧
      inputView cfg w2 = match cfg.input with
        | some _ => if sameFile cfg w then t.output else openedInput cfg w
        | none => t.input := by
  have hin : inputView cfg S.opened = openedInput cfg w := S.isOpened.input_eq
  have hout : outputView cfg S.opened = openedOutput cfg w := S.isOpened.output_eq
  have hpos := S.isOpened.outPos_eq
  have hle := outPos_le cfg S.opened
  obtain ⟨⟨r', t⟩, hrun, he⟩ := Option.map_eq_some_iff.mp S.run_eq
  obtain ⟨hinv, heof⟩ := spliceRun_spec hc.limitBytes hc.count hle hrun
  have hr : r' = r := by
    rw [← S.result_eq, ← he]
  subst hr
  rw [hin, hout, hpos] at hinv
  refine ⟨t, ?_, hinv, heof, ?_, ?_⟩
  · rw [spliceAttempt, ← S.opened_eq]
    exact hrun
  · rw [S.output_eq, ← he]
  · have hrest := S.input_eq
    rw [← he, hin] at hrest
    exact hrest.trans (by cases cfg.input <;> rfl)

theorem syncStage (hc : SpliceConfig cfg) {hash : HashInfo} {w3 : World α}
    (T : Copied cfg w w3 (transferCopy env X.lens X.cancel X.fuel cfg) (.ok hash)) :
    outputView cfg w3 = placeAt Octet.zero (openedOutput cfg w) (outPos cfg w) (openedInput cfg w) := by
  have hle := outPos_le cfg T.opened
  have h := transferCopy_spec hc.swab hc.sync hc.sparse hc.limitBytes hc.count hle T.run_eq
    T.result_eq
  rw [T.output_eq, h, T.isOpened.outPos_eq, T.isOpened.output_eq, T.isOpened.input_eq]
  rfl

/-- Copying everything after the open is right unless the open emptied the input. -/
theorem opened_eq_expected_iff :
    placeAt Octet.zero (openedOutput cfg w) (outPos cfg w) (openedInput cfg w) = expectedOutput cfg w ↔
      NotSelfEmptied cfg w := by
  by_cases h : sameFile cfg w = true ∧ truncates cfg w = true
  · have hpos : outPos cfg w = 0 := by
      have htr := h.2
      simp only [truncates] at htr
      cases hc : cfg.output with
      | none => simp [hc] at htr
      | some outPath => simp [outPos, hc]
    simp only [expectedOutput, NotSelfEmptied, openedOutput, openedInput, h, hpos, Bool.and_self,
      if_true, placeAt_zero, List.drop_nil, List.append_nil, true_implies]
    exact eq_comm
  · have hin : openedInput cfg w = inputView cfg w := by
      rw [openedInput, if_neg (by simpa using h)]
    rw [hin]
    exact iff_of_true rfl fun hs ht => absurd ⟨hs, ht⟩ h

/-- No byte of the input occurs twice or on the output. -/
def Distinct (cfg : Config) (w : World α) : Prop :=
  cfg.input = none → (inputView cfg w).Nodup ∧ ∀ b ∈ outputView cfg w, b ∉ inputView cfg w

/-- What the splice copy `t` and the next open leave for the synchronous loop. -/
structure Restart (cfg : Config) (w w2 : World α) (t : SpliceState α) : Prop where
  samePlaces : SamePlaces cfg w w2
  inv : SpliceInv (openedInput cfg w) (openedOutput cfg w) (outPos cfg w) t
  output_eq : outputView cfg w2 = t.output
  input_eq : inputView cfg w2 = match cfg.input with
    | some _ => if sameFile cfg w then t.output else openedInput cfg w
    | none => t.input

section Restart

variable {w2 : World α} {t : SpliceState α} {inPath outPath : Path}

theorem Restart.output (h : Restart cfg w w2 t) : t.output =
    placeAt Octet.zero (openedOutput cfg w) (outPos cfg w)
      ((openedInput cfg w).take (t.delivered (openedInput cfg w))) := h.inv.output_eq

theorem Restart.openedOutput_eq (h : Restart cfg w w2 t) :
    openedOutput cfg w2 = if truncates cfg w then [] else t.output := by
  rw [openedOutput, h.samePlaces.truncates_eq, h.output_eq]

theorem Restart.openedInput_eq (h : Restart cfg w w2 t) :
    openedInput cfg w2 = if sameFile cfg w && truncates cfg w then [] else inputView cfg w2 := by
  rw [openedInput, h.samePlaces.truncates_eq, h.samePlaces.sameFile_eq]

/-- Both named: the second copy overwrites all of the first. -/
theorem restart_named (h : Restart cfg w w2 t) (hin : cfg.input = some inPath)
    (hout : cfg.output = some outPath) :
    placeAt Octet.zero (openedOutput cfg w2) (outPos cfg w2) (openedInput cfg w2) =
      placeAt Octet.zero (openedOutput cfg w) (outPos cfg w) (openedInput cfg w) := by
  have hi := h.input_eq
  have ho := h.output
  rw [hin] at hi
  have hp : ∀ w : World α, outPos cfg w = 0 := fun w => by simp only [outPos, hout]
  rw [hp] at ho
  rw [hp, hp, h.openedOutput_eq, h.openedInput_eq, hi]
  cases htr : truncates cfg w with
  | true =>
    cases hs : sameFile cfg w <;> simp [openedInput, openedOutput, hs, htr]
  | false =>
    simp only [Bool.and_false, Bool.false_eq_true, if_false]
    cases hs : sameFile cfg w with
    | true =>
      -- the file holds what is written to it
      have hx : openedInput cfg w = openedOutput cfg w := by
        simp only [sameFile, hin, hout, decide_eq_true_eq] at hs
        simp only [openedInput, openedOutput, htr, Bool.and_false, Bool.false_eq_true, if_false,
          inputView, outputView, hin, hout, hs]
      rw [hx, placeAt_self_take] at ho
      rw [if_pos rfl, ho, hx]
    | false =>
      rw [if_neg (by simp), ho]
      exact placeAt_same_start _ _ (List.length_take_le' _ _)

/-- Onto stdout: the second copy goes behind what the first one delivered. -/
theorem restart_stdout (h : Restart cfg w w2 t) (hout : cfg.output = none) :
    placeAt Octet.zero (openedOutput cfg w2) (outPos cfg w2) (openedInput cfg w2) = expectedOutput cfg w ↔
      (inputView cfg w).take (t.delivered (inputView cfg w)) ++ inputView cfg w2 =
        inputView cfg w := by
  have htr : truncates cfg w = false := by simp only [truncates, hout]
  have hp : ∀ w : World α, outPos cfg w = (outputView cfg w).length := fun w => by
    simp only [outPos, outputView, hout]
  have hi : openedInput cfg w = inputView cfg w := by simp [openedInput, htr]
  have hi2 : openedInput cfg w2 = inputView cfg w2 := by simp [h.openedInput_eq, htr]
  have ho : openedOutput cfg w = outputView cfg w := by simp [openedOutput, htr]
  have ho2 : openedOutput cfg w2 = outputView cfg w2 := by
    rw [h.openedOutput_eq, htr, h.output_eq]
    simp
  rw [ho2, hp, hi2, placeAt_end, h.output_eq, h.output, hi, ho, hp, placeAt_end, expectedOutput,
    htr, hp, if_neg (by simp), placeAt_end, List.append_assoc, List.append_cancel_left_eq]

/-- From stdin onto a file: the second copy starts at its beginning with what is left. -/
theorem restart_stdin (h : Restart cfg w w2 t) (hd : Distinct cfg w) (hin : cfg.input = none)
    (hout : cfg.output = some outPath) :
    placeAt Octet.zero (openedOutput cfg w2) (outPos cfg w2) (openedInput cfg w2) = expectedOutput cfg w ↔
      t.taken (inputView cfg w) = 0 ∨
        truncates cfg w = false ∧ t.delivered (inputView cfg w) = (inputView cfg w).length := by
  obtain ⟨hx, hc⟩ := hd hin
  have hs : sameFile cfg w = false := by simp only [sameFile, hin]
  have hp : ∀ w : World α, outPos cfg w = 0 := fun w => by simp only [outPos, hout]
  have hi : openedInput cfg w = inputView cfg w := by simp [openedInput, hs]
  have hinv := h.inv
  have ho := h.output
  have hrest : openedInput cfg w2 = (inputView cfg w).drop (t.taken (inputView cfg w)) := by
    have hi2 := h.input_eq
    rw [hin] at hi2
    rw [hi] at hinv
    rw [h.openedInput_eq, hs, Bool.false_and, if_neg (by simp), hi2]
    exact hinv.input_eq
  have hle : t.taken (inputView cfg w) ≤ (inputView cfg w).length := Nat.sub_le _ _
  have hdt : t.delivered (inputView cfg w) ≤ t.taken (inputView cfg w) := by
    simp only [SpliceState.delivered, SpliceState.taken]
    omega
  rw [hp, hrest, h.openedOutput_eq, expectedOutput, hp]
  rw [hi, hp] at ho
  cases htr : truncates cfg w with
  | true => simpa using drop_eq_self_iff hle
  | false =>
    rw [ho, openedOutput, htr]
    simpa using placeAt_rest_eq_iff hx hc hdt hle

theorem restart_eq_expected_iff (h : Restart cfg w w2 t) (hd : Distinct cfg w) :
    placeAt Octet.zero (openedOutput cfg w2) (outPos cfg w2) (openedInput cfg w2) = expectedOutput cfg w ↔
      NotSelfEmptied cfg w ∧ Recovers cfg w t := by
  have hself : ∀ {P : Prop}, sameFile cfg w = false → (NotSelfEmptied cfg w ∧ P ↔ P) := by
    intro P hs
    exact and_iff_right fun hs' => by simp [hs] at hs'
  cases hin : cfg.input with
  | some inPath =>
    cases hout : cfg.output with
    | some outPath =>
      rw [restart_named h hin hout, opened_eq_expected_iff]
      simp [Recovers, hin, hout]
    | none =>
      have hs : sameFile cfg w = false := by simp only [sameFile, hin, hout]
      have hi := h.input_eq
      simp only [hin, hs, Bool.false_eq_true, if_false, openedInput, Bool.false_and] at hi
      have hle : t.delivered (inputView cfg w) ≤ (inputView cfg w).length := Nat.sub_le _ _
      rw [restart_stdout h hout, hi, hself hs, take_append_self_eq_iff hle]
      simp only [Recovers, hin, hout]
  | none =>
    have hs : sameFile cfg w = false := by simp only [sameFile, hin]
    rw [hself hs]
    cases hout : cfg.output with
    | some outPath =>
      rw [restart_stdin h hd hin hout]
      simp only [Recovers, hin, hout]
    | none =>
      have hinv := h.inv
      have hi := h.input_eq
      have hx : openedInput cfg w = inputView cfg w := by simp [openedInput, hs]
      rw [hx] at hinv
      simp only [hin] at hi
      rw [restart_stdout h hout, hi, hinv.input_eq, take_append_drop_eq_iff]
      · simp only [Recovers, hin, hout]
      · simp only [SpliceState.delivered, SpliceState.taken]
        omega
      · exact Nat.sub_le _ _

end Restart

/-- A finished copy has put out what it should exactly when the splice copy finished or what it had
done is made up for. -/
theorem splice_fallback_iff_of_distinct (hc : SpliceConfig cfg) (hs : Seekable cfg w)
    (hd : Distinct cfg w) {hash : HashInfo}
    (hrun : executeTransferWithControl (withOutcomes env X E) cfg w =
      some (some (.ok hash), w')) :
    ∃ r t, spliceAttempt X cfg w = some (r, t) ∧
      (outputView cfg w' = expectedOutput cfg w ↔
        NotSelfEmptied cfg w ∧ (r = .ok true ∨ Recovers cfg w t)) := by
  rw [executeTransferWithControl_splice hc] at hrun
  rcases hpath : splicePath (withOutcomes env X E) cfg w with _ | ⟨x, w2⟩
  · simp [hpath, PathResult.orElse] at hrun
  · rw [hpath] at hrun
    rcases splicePath_cases hc hs hpath with
      ⟨e, rfl⟩ | ⟨rfl, w1, hview, ⟨S⟩⟩ | ⟨rfl, r, hr, ⟨S⟩⟩
    · simp [PathResult.orElse] at hrun
    · -- everything was spliced
      obtain ⟨t, hatt, hinv, heof, hout, -⟩ := spliceStage hc S
      obtain ⟨hin, hpipe⟩ := heof rfl
      have hw : w' = w2 := (Prod.mk.inj (Option.some.inj hrun)).2.symm
      have hall : t.delivered (openedInput cfg w) = (openedInput cfg w).length := by
        simp [SpliceState.delivered, hin, hpipe]
      refine ⟨_, t, hatt, ?_⟩
      rw [hw, hview, hout, hinv.output_eq, hall, List.take_length, opened_eq_expected_iff]
      simp
    · obtain ⟨t, hatt, hinv, -, hout, hin⟩ := spliceStage hc S
      obtain ⟨w3, hview, ⟨T⟩⟩ := syncPath_ok hc (S.samePlaces.seekable hs) hrun
      refine ⟨r, t, hatt, ?_⟩
      rw [hview, syncStage hc T, restart_eq_expected_iff ⟨S.samePlaces, hinv, hout, hin⟩ hd]
      simp [hr]

end Exact

section Tagged
open Blks

def positions (bytes : List Byte) : List Tagged := bytes.zipIdx.map fun p => (p.1, some p.2)

def untagged (bytes : List Byte) : List Tagged := bytes.map fun b => (b, none)

/-- The same world with every byte of the input carrying its position there. -/
def World.tag (cfg : Config) (w : World Byte) : World Tagged where
  fs :=
    { locate := w.fs.locate
      node := fun id => (w.fs.node id).map fun n =>
        { kind := n.kind
          content := if cfg.input.map w.fs.locate = some id then positions n.content
            else untagged n.content
          readable := n.readable
          writable := n.writable }
      creatable := w.fs.creatable
      directSupported := w.fs.directSupported }
  stdin := if cfg.input = none then positions w.stdin else untagged w.stdin
  stdout := untagged w.stdout
  stats := w.stats
  syncs := w.syncs

variable {η₂ η₃ : Type} {cfg : Config} {w : World Byte} {w' : World Tagged}

theorem nodup_positions (bytes : List Byte) : (positions bytes).Nodup := by
  have h : (positions bytes).map Prod.snd = (List.range' 0 bytes.length).map some := by
    rw [positions, List.map_map, ← List.zipIdx_map_snd 0 bytes, List.map_map]
    rfl
  refine List.Nodup.of_map Prod.snd ?_
  rw [h]
  exact List.Nodup.map (fun a b hab => Option.some.inj hab) List.nodup_range'

theorem not_mem_positions {bytes bytes' : List Byte} {b : Tagged} (hb : b ∈ untagged bytes) :
    b ∉ positions bytes' := by
  intro hp
  obtain ⟨x, -, rfl⟩ := List.mem_map.mp hb
  obtain ⟨y, -, hy⟩ := List.mem_map.mp hp
  simp at hy

theorem distinct_tag : Distinct cfg (w.tag cfg) := by
  intro hin
  have hx : inputView cfg (w.tag cfg) = positions w.stdin := by
    simp [inputView, hin, World.tag]
  rw [hx]
  refine ⟨nodup_positions _, fun b hb => ?_⟩
  have hout : ∃ bytes, outputView cfg (w.tag cfg) = untagged bytes := by
    cases hc : cfg.output with
    | none => exact ⟨w.stdout, by simp [outputView, hc, World.tag]⟩
    | some outPath =>
      rcases hn : w.fs.node (w.fs.locate outPath) with _ | n
      · exact ⟨[], by simp [outputView, hc, World.tag, FileSystem.content, hn, untagged]⟩
      · exact ⟨n.content, by simp [outputView, hc, World.tag, FileSystem.content, hn, hin]⟩
  obtain ⟨bytes, hbytes⟩ := hout
  rw [hbytes] at hb
  exact not_mem_positions hb

theorem seekable_tag (hs : Seekable cfg w) : Seekable cfg (w.tag cfg) := by
  have h : ∀ id, (w.tag cfg).fs.seekable id = w.fs.seekable id := by
    intro id
    simp only [FileSystem.seekable, World.tag]
    cases w.fs.node id <;> rfl
  refine ⟨fun p hp => ?_, fun p hp => ?_⟩
  · rw [h]
    exact hs.input p hp
  · rw [h]
    exact hs.output p hp

/-- Five bytes on stdin, to be copied to a file that is not there yet. -/
def pipedInput : World Byte where
  fs :=
    { locate := fun _ => 0
      node := fun _ => none
      creatable := fun _ => true
      directSupported := fun _ => true }
  stdin := [1, 2, 3, 4, 5]
  stdout := []
  stats := {}
  syncs := []

def spliceToFile : Config := { output := some "out", engine := .splice, blockSize := 4 }

theorem spliceToFile_config : SpliceConfig spliceToFile :=
  ⟨rfl, rfl, rfl, rfl, rfl, rfl, rfl, rfl, rfl⟩

/-- Three bytes are spliced into the internal pipe, then the output refuses them. -/
def refusedOutput : Outcomes where
  pipeOk := true
  spliceCancel := fun _ => false
  results := fun i => if i = 0 then .moved 3 else .failed .einval
  spliceFuel := 4
  cancel := fun _ => false
  lens := fun _ => some 4
  fuel := 4

def noCrates : HashEnv Unit Unit where
  sha2 := ⟨(), fun _ _ => (), fun _ => ""⟩
  blake3 := ⟨(), fun _ _ => (), fun _ => ""⟩
  avx2 := false

end Tagged

end Blkcp.Rust
