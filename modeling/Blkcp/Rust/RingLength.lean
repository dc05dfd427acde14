import Blkcp.Rust.Args
import Blkcp.Rust.Spent
set_option autoImplicit false

/-! The lengths that the two copies through `io_uring` put in 32 bits. -/

namespace Blkcp.Rust
open Blkcp.Lib Blkcp.Blks

theorem ringLength_of_lt {n : Nat} (h : n < 2 ^ 32) : ringLength n = n := Nat.mod_eq_of_lt h

/-! ### One ring -/

section Single

variable {η₂ η₃ : Type} (env : HashEnv η₂ η₃) (cfg : Config) (cancel : Nat → Bool)
  (results : Nat → RingResult) (input : RingInput Byte)

/-- With bytes left a request is for some of them, and for no more than it stands for. The copy ends
where nothing is left. -/
structure RingSound (s : UringState Byte η₂ η₃) : Prop where
  read : s.phase = .top → s.remaining ≠ some 0 → s.ahead input ≠ [] →
    0 < ringLength (toRead cfg s.remaining) ∧
      ringLength (toRead cfg s.remaining) ≤ toRead cfg s.remaining
  write : ∀ bytes written, s.phase = .writing bytes written → written < bytes.length →
    0 < ringLength (bytes.length - written) ∧
      ringLength (bytes.length - written) ≤ bytes.length - written
  stop : ∀ t, uringBody env cfg cancel results input s = .inr (.ok (), t) →
    s.remaining = some 0 ∨ s.ahead input = []

/-- No request can come to a multiple of 2 ^ 32. -/
def RingFits (remaining : Option Nat) : Prop :=
  effectiveBlockSize cfg < 2 ^ 32 ∨
    match remaining with
    | none => ¬ 2 ^ 32 ∣ effectiveBlockSize cfg
    | some total => total < 2 ^ 32

variable {env cfg cancel results input} {s t : UringState Byte η₂ η₃}

theorem RingFits.mono {remaining : Option Nat} (h : RingFits cfg remaining) (k : Nat) :
    RingFits cfg (remaining.map (· - k)) := by
  unfold RingFits at h ⊢
  cases remaining with
  | none => exact h
  | some total =>
    refine h.imp id fun hlt => ?_
    exact Nat.lt_of_le_of_lt (Nat.sub_le total k) hlt

theorem RingFits.request_pos {remaining : Option Nat} (h : RingFits cfg remaining)
    (hne : remaining ≠ some 0) : 0 < ringLength (toRead cfg remaining) := by
  have hpos : 0 < toRead cfg remaining := toRead_pos hne
  have hlt (hlt : toRead cfg remaining < 2 ^ 32) : 0 < ringLength (toRead cfg remaining) := by
    rwa [ringLength_of_lt hlt]
  unfold RingFits at h
  cases remaining with
  | none =>
    rcases h with h | h
    · exact hlt h
    · exact Nat.pos_of_ne_zero fun hzero => h (Nat.dvd_of_mod_eq_zero hzero)
  | some total =>
    rcases h with h | h
    · exact hlt (Nat.lt_of_le_of_lt (Nat.min_le_right _ _) h)
    · exact hlt (Nat.lt_of_le_of_lt (Nat.min_le_left _ _) h)

variable (cfg) in
/-- What is read fits in the length of a request. -/
structure RingShort (s : UringState Byte η₂ η₃) : Prop where
  fits : RingFits cfg s.remaining
  hand : ∀ bytes written, s.phase = .writing bytes written → bytes.length < 2 ^ 32

theorem RingShort.step (h : RingShort cfg s)
    (hst : uringBody env cfg cancel results input s = .inl t) : RingShort cfg t := by
  obtain ⟨hfits, hhand⟩ := h
  simp only [uringBody] at hst
  split at hst
  · rename_i hphase
    split at hst
    · cases hst
    split at hst
    · cases hst
    split at hst
    · cases hst
    · split at hst
      · obtain rfl := Sum.inl.inj hst
        refine ⟨hfits, fun bytes written hw => ?_⟩
        cases hphase.symm.trans hw
      · cases hst
    · split at hst
      · cases hst
      · obtain rfl := Sum.inl.inj hst
        refine ⟨hfits, fun bytes written hw => ?_⟩
        cases hw
        rw [List.length_take]
        have := Nat.mod_lt (toRead cfg s.remaining) (Nat.two_pow_pos 32)
        unfold ringLength
        omega
  · rename_i bytes written hphase
    split at hst
    · obtain rfl := Sum.inl.inj hst
      exact ⟨hfits.mono _, by simp⟩
    · split at hst
      · cases hst
      · split at hst
        · obtain rfl := Sum.inl.inj hst
          exact ⟨hfits, fun bytes' written' hw => hhand bytes' written' hw⟩
        · cases hst
      · obtain rfl := Sum.inl.inj hst
        refine ⟨hfits, fun bytes' written' hw => ?_⟩
        cases hw
        exact hhand bytes written hphase

theorem RingShort.sound (h : RingShort cfg s) :
    RingSound env cfg cancel results input s where
  read _ hne _ := ⟨h.fits.request_pos hne, ringLength_le _⟩
  write bytes written hw hlt := by
    have hshort := h.hand bytes written hw
    rw [ringLength_of_lt (by omega)]
    omega
  stop t hst := by
    simp only [uringBody] at hst
    split at hst
    · split at hst
      · simp at hst
      split at hst
      · rename_i hzero
        exact .inl hzero
      · rename_i hne
        split at hst
        · simp at hst
        · split at hst
          · cases hst
          · simp at hst
        · split at hst
          · rename_i n _ hbytes
            have hpos := h.fits.request_pos hne
            rw [List.take_eq_nil_iff] at hbytes
            rcases hbytes with hzero | hnil
            · omega
            · exact .inr hnil
          · cases hst
    · split at hst
      · cases hst
      · split at hst
        · simp at hst
        · split at hst
          · cases hst
          · simp at hst
        · cases hst

/-- Every completion is as long as its request. -/
def wholeResults : Nat → RingResult := fun _ => .done (2 ^ 32)

variable {r : Nat}

variable (env) in
theorem whole_read (hphase : s.phase = .top) (hne : s.remaining ≠ some 0)
    (hr : ringLength (toRead cfg s.remaining) = r) (hpos : 0 < r)
    (hahead : r ≤ (s.ahead input).length) :
    ∃ t, uringBody env cfg (fun _ => false) wholeResults input s = .inl t ∧
      (∃ bytes, bytes.length = r ∧ t.phase = .writing bytes 0) ∧ t.remaining = s.remaining ∧
      t.ahead input = (s.ahead input).drop r := by
  have hlt : r < 2 ^ 32 := hr ▸ Nat.mod_lt _ (Nat.two_pow_pos 32)
  have hmin : min r (max (2 ^ 32) 1) = r := by omega
  have hlen : ((s.ahead input).take r).length = r := by
    rw [List.length_take, Nat.min_eq_left hahead]
  have hbytes : (s.ahead input).take r ≠ [] := List.ne_nil_of_length_pos (by omega)
  simp only [uringBody, hphase, wholeResults, hr, hmin, Bool.false_eq_true, if_false, hne]
  exact ⟨_, if_neg hbytes, ⟨_, hlen, rfl⟩, rfl,
    (ahead_drop s _).trans (congrArg (fun n => (s.ahead input).drop n) hlen)⟩

variable (env cfg input) in
theorem whole_write {bytes : List Byte} (hphase : s.phase = .writing bytes 0)
    (hr : bytes.length = r) (hpos : 0 < r) (hlt : r < 2 ^ 32) :
    ∃ t, uringBody env cfg (fun _ => false) wholeResults input s = .inl t ∧
      t.phase = .writing bytes r ∧ t.remaining = s.remaining ∧ t.ahead input = s.ahead input := by
  have hmin : min (2 ^ 32) (ringLength (bytes.length - 0)) = r := by
    rw [Nat.sub_zero, hr, ringLength_of_lt hlt]
    omega
  have hnot : ¬ bytes.length ≤ 0 := by omega
  simp only [uringBody, hphase, wholeResults, if_neg hnot, hmin, Nat.zero_add]
  exact ⟨_, rfl, rfl, rfl, rfl⟩

variable (env cfg input) in
theorem whole_count {bytes : List Byte} (hphase : s.phase = .writing bytes r)
    (hr : bytes.length = r) :
    ∃ t, uringBody env cfg (fun _ => false) wholeResults input s = .inl t ∧
      t.phase = .top ∧ t.remaining = s.remaining.map (· - r) ∧ t.ahead input = s.ahead input := by
  simp only [uringBody, hphase, hr]
  exact ⟨_, if_pos (Nat.le_refl r), rfl, rfl, rfl⟩

variable (env) in
/-- A turn of the outer loop in which every completion is whole. -/
theorem whole_turn (hphase : s.phase = .top) (hne : s.remaining ≠ some 0)
    (hr : ringLength (toRead cfg s.remaining) = r) (hpos : 0 < r)
    (hahead : r ≤ (s.ahead input).length) :
    ∃ t, Iterates (uringBody env cfg (fun _ => false) wholeResults input) s t ∧ t.phase = .top ∧
      t.remaining = s.remaining.map (· - r) ∧ t.ahead input = (s.ahead input).drop r := by
  have hlt : r < 2 ^ 32 := hr ▸ Nat.mod_lt _ (Nat.two_pow_pos 32)
  obtain ⟨a, ha, ⟨bytes, hlen, haphase⟩, harem, haahead⟩ :=
    whole_read env hphase hne hr hpos hahead
  obtain ⟨b, hb, hbphase, hbrem, hbahead⟩ :=
    whole_write env cfg input haphase hlen hpos hlt
  obtain ⟨c, hc, hcphase, hcrem, hcahead⟩ :=
    whole_count env cfg input hbphase hlen
  refine ⟨c, ((Iterates.refl s).tail ha |>.tail hb).tail hc, hcphase, ?_, ?_⟩
  · rw [hcrem, hbrem, harem]
  · rw [hcahead, hbahead, haahead]

variable (env) in
/-- From 2 ^ 32 bytes on, blocks that are as large lead to a request for nothing before the bytes
are copied. -/
theorem exists_empty_request (hblock : 2 ^ 32 ≤ effectiveBlockSize cfg) {v : Nat}
    (hv : 2 ^ 32 ≤ v) (hphase : s.phase = .top) (hrem : s.remaining = some v)
    (hahead : v ≤ (s.ahead input).length) :
    ∃ t, Iterates (uringBody env cfg (fun _ => false) wholeResults input) s t ∧ t.phase = .top ∧
      t.remaining ≠ some 0 ∧ t.ahead input ≠ [] ∧ ringLength (toRead cfg t.remaining) = 0 := by
  induction hn : v using Nat.strongRecOn generalizing s v with
  | ind n ih =>
    subst hn
    have hne : s.remaining ≠ some 0 := by
      rw [hrem]
      intro h
      cases h
      omega
    have htoRead : toRead cfg s.remaining = min v (effectiveBlockSize cfg) := by
      rw [hrem]
      rfl
    rcases Nat.eq_zero_or_pos (ringLength (toRead cfg s.remaining)) with hzero | hpos
    · exact ⟨s, .refl s, hphase, hne, List.ne_nil_of_length_pos (by omega), hzero⟩
    · have hr : ringLength (toRead cfg s.remaining) ≤ v - 2 ^ 32 := by
        rw [htoRead]
        unfold ringLength
        omega
      obtain ⟨t, hst, htphase, htrem, htahead⟩ :=
        whole_turn env hphase hne rfl hpos (show _ ≤ (s.ahead input).length by omega)
      generalize ringLength (toRead cfg s.remaining) = r at hpos hr htrem htahead
      rw [hrem, Option.map_some] at htrem
      obtain ⟨u, htu, hu⟩ := ih (v - r) (by omega) (by omega) htphase htrem (by
        rw [htahead, List.length_drop]
        omega) rfl
      exact ⟨u, hst.trans htu, hu⟩

variable (env cfg) in
/-- The lengths of the requests of one ring are right in every run exactly where no request can come
to a multiple of 2 ^ 32. -/
theorem uring_single_lengths_iff :
    (∀ (cancel : Nat → Bool) (results : Nat → RingResult) (input : RingInput Byte) (stats : Stats)
        (s : UringState Byte η₂ η₃),
      Iterates (uringBody env cfg cancel results input) (UringState.start env cfg stats) s →
        RingSound env cfg cancel results input s) ↔ RingFits cfg (remainingTotal cfg) := by
  constructor
  · intro h
    by_contra hnot
    unfold RingFits at hnot
    rw [not_or, Nat.not_lt] at hnot
    obtain ⟨hblock, hrem⟩ := hnot
    have hbad (v : Nat) (t : UringState Byte η₂ η₃)
        (hrun : Iterates (uringBody env cfg (fun _ => false) wholeResults
          ⟨List.replicate (cfg.skipBytes + v) 0, false⟩) (UringState.start env cfg {}) t)
        (hphase : t.phase = .top) (hne : t.remaining ≠ some 0)
        (hahead : t.ahead ⟨List.replicate (cfg.skipBytes + v) 0, false⟩ ≠ [])
        (hzero : ringLength (toRead cfg t.remaining) = 0) : False := by
      have hsound := (h _ _ _ _ t hrun).read hphase hne hahead
      omega
    have hahead (v : Nat) : ((UringState.start env cfg {} : UringState Byte η₂ η₃).ahead
        ⟨List.replicate (cfg.skipBytes + v) 0, false⟩).length = v := by
      change (List.drop cfg.skipBytes (List.replicate (cfg.skipBytes + v) (0 : Byte))).length = v
      rw [List.length_drop, List.length_replicate, Nat.add_sub_cancel_left]
    cases htotal : remainingTotal cfg with
    | none =>
      rw [htotal] at hrem
      refine hbad 1 _ (.refl _) rfl ?_ (List.ne_nil_of_length_pos (by rw [hahead]; decide)) ?_
      · change remainingTotal cfg ≠ some 0
        rw [htotal]
        nofun
      · change ringLength (toRead cfg (remainingTotal cfg)) = 0
        rw [htotal]
        exact Nat.mod_eq_zero_of_dvd (not_not.mp hrem)
    | some v =>
      rw [htotal] at hrem
      obtain ⟨t, hrun, hphase, hne, hleft, hzero⟩ := exists_empty_request env
        (s := UringState.start env cfg {}) hblock (Nat.not_lt.mp hrem) rfl htotal
        (Nat.le_of_eq (hahead v).symm)
      exact hbad v t hrun hphase hne hleft hzero
  · intro hfits cancel results input stats s hrun
    have hstart : RingShort cfg (UringState.start env cfg stats : UringState Byte η₂ η₃) :=
      ⟨hfits, nofun⟩
    exact RingShort.sound (hrun.invariant (fun _ _ hs hst => hs.step hst) hstart)

end Single

/-! ### A ring for each worker -/

section Shards

variable {n : Nat} (cfg : Config) (metaLen : Option Nat) (input : List Byte)

/-- The same for every worker. An end of file is reported at the end of the input only. -/
structure ShardsSound (s : ShardState n) : Prop where
  read : ∀ w base done leaves, s.phase w = .reading base done leaves →
    cfg.skipBytes + base + done < input.length →
    0 < readRequest cfg metaLen base done ∧
      readRequest cfg metaLen base done ≤
        min (thisChunkLen cfg metaLen base - done) (effectiveBlockSize cfg)
  write : ∀ w base done leaves bytes written, s.phase w = .writing base done leaves bytes written →
    written < bytes.length → 0 < (bytes.length - written) % 2 ^ 32 ∧
      (bytes.length - written) % 2 ^ 32 ≤ bytes.length - written
  stop : ∀ a t, ShardStep cfg metaLen input s a t → EofHonest cfg input s a

def ShardsFit : Prop :=
  effectiveBlockSize cfg < 2 ^ 32 ∨
    ∃ total, totalBytesToCopy cfg metaLen = some total ∧ total < 2 ^ 32

/-- A worker reads what is left of its stripe, and what it has read fits in the length of a
request. -/
def PhaseShort : ShardPhase → Prop
  | .reading base done _ => done < thisChunkLen cfg metaLen base
  | .writing _ _ _ bytes _ => bytes.length < 2 ^ 32
  | _ => True

variable {cfg metaLen input} {s t : ShardState n} {a : ShardAct n}

theorem ShardsFit.request_pos (h : ShardsFit cfg metaLen) {base done : Nat}
    (hdone : done < thisChunkLen cfg metaLen base) : 0 < readRequest cfg metaLen base done := by
  have hpos := effectiveBlockSize_pos cfg
  have hlt : min (thisChunkLen cfg metaLen base - done) (effectiveBlockSize cfg) < 2 ^ 32 := by
    rcases h with h | ⟨total, htotal, h⟩
    · omega
    · have hle : thisChunkLen cfg metaLen base ≤ total - base := by
        rw [thisChunkLen, htotal]
        exact Nat.min_le_left _ _
      omega
  unfold readRequest
  rw [Nat.mod_eq_of_lt hlt]
  omega

/-- What a worker is about after its step follows from what it was about before. -/
theorem short_of_others {w : Fin n} (hothers : Others s t w)
    (h : ∀ v, PhaseShort cfg metaLen (s.phase v)) (hw : PhaseShort cfg metaLen (t.phase w)) :
    ∀ v, PhaseShort cfg metaLen (t.phase v) := by
  intro v
  by_cases hv : v = w
  · rwa [hv]
  · rw [hothers v hv]
    exact h v

theorem short_step (hst : ShardStep cfg metaLen input s a t)
    (h : ∀ v, PhaseShort cfg metaLen (s.phase v)) : ∀ v, PhaseShort cfg metaLen (t.phase v) := by
  cases hst with
  | setCancel => exact h
  | writeInterrupted => exact h
  | finishes w base done leaves hp hl =>
    refine short_of_others (fun v hv => s.phase_update_of_ne _ hv) h ?_
    exact (congrArg (PhaseShort cfg metaLen) (s.phase_update_self w _)).mpr trivial
  | readsEof w base done leaves hp hl =>
    refine short_of_others (fun v hv => s.phase_update_of_ne _ hv) h ?_
    exact (congrArg (PhaseShort cfg metaLen) (s.phase_update_self w _)).mpr trivial
  | submits w base done leaves hp hl =>
    refine short_of_others (fun v hv => s.phase_goto_of_ne _ hv) h ?_
    exact (congrArg (PhaseShort cfg metaLen) (s.phase_goto_self w _)).mpr hl
  | reads w m base done leaves bytes hp hpos hm hb hlen =>
    have hlt := Nat.mod_lt (min (thisChunkLen cfg metaLen base - done) (effectiveBlockSize cfg))
      (Nat.two_pow_pos 32)
    refine short_of_others (fun v hv => s.phase_goto_of_ne _ hv) h ?_
    refine (congrArg (PhaseShort cfg metaLen) (s.phase_goto_self w _)).mpr ?_
    change bytes.length < 2 ^ 32
    rw [hlen]
    exact Nat.lt_of_le_of_lt hm hlt
  | writes w m base done leaves bytes written hp hlt hm =>
    refine short_of_others (fun v hv => s.phase_goto_of_ne _ hv) h ?_
    refine (congrArg (PhaseShort cfg metaLen) (s.phase_goto_self w _)).mpr ?_
    have hw := h w
    rw [hp] at hw
    exact hw
  | _ =>
    refine short_of_others (fun v hv => s.phase_goto_of_ne _ hv) h ?_
    exact (congrArg (PhaseShort cfg metaLen) (s.phase_goto_self _ _)).mpr trivial

theorem ShardsFit.sound (hfit : ShardsFit cfg metaLen)
    (h : ∀ v, PhaseShort cfg metaLen (s.phase v)) : ShardsSound cfg metaLen input s where
  read w base done leaves hp _ := by
    have hw := h w
    rw [hp] at hw
    exact ⟨hfit.request_pos hw, Nat.mod_le _ _⟩
  write w base done leaves bytes written hp hlt := by
    have hw : bytes.length < 2 ^ 32 := by
      have hw := h w
      rwa [hp] at hw
    rw [Nat.mod_eq_of_lt (by omega)]
    omega
  stop a t hst := by
    cases hst with
    | readsEof w base done leaves hp hend =>
      intro base' done' leaves' hp'
      cases hp.symm.trans hp'
      have hw := h w
      rw [hp] at hw
      have hpos := hfit.request_pos hw
      omega
    | _ => trivial

section Reach

variable {stats : Stats} {w : Fin n}

variable (cfg metaLen input) in
/-- A worker claims the first stripe. -/
theorem reach_stripe (stats : Stats) (w : Fin n)
    (htotal : ∀ total, totalBytesToCopy cfg metaLen = some total → 0 < total) :
    ∃ s, (shardedSystem cfg metaLen input n stats).Reachable s ∧ s.phase w = .stripe 0 0 [] := by
  let s₀ : ShardState n := .start n stats
  let s₁ := s₀.goto w .check
  let s₂ := s₁.goto w .claiming
  have h₀ : (shardedSystem cfg metaLen input n stats).Reachable s₀ := .init rfl
  have h₁ : (shardedSystem cfg metaLen input n stats).Reachable s₁ := h₀.step (.starts s₀ w rfl)
  have h₂ : (shardedSystem cfg metaLen input n stats).Reachable s₂ :=
    h₁.step (.passes s₁ w (s₀.phase_goto_self w _))
  have h₃ := h₂.step (.claims s₂ w (s₁.phase_goto_self w _) htotal)
  exact ⟨_, h₃, s₂.phase_goto_self w _⟩

theorem reach_reading {base done : Nat} {leaves : List Digest}
    (h : (shardedSystem cfg metaLen input n stats).Reachable s)
    (hp : s.phase w = .stripe base done leaves) (hdone : done < thisChunkLen cfg metaLen base) :
    ∃ t, (shardedSystem cfg metaLen input n stats).Reachable t ∧
      t.phase w = .reading base done leaves :=
  ⟨_, h.step (.submits s w base done leaves hp hdone), s.phase_goto_self w _⟩

/-- The whole of a request is read, written and counted. -/
theorem reach_counted {base done r : Nat} {leaves : List Digest}
    (h : (shardedSystem cfg metaLen input n stats).Reachable s)
    (hp : s.phase w = .reading base done leaves) (hr : readRequest cfg metaLen base done = r)
    (hpos : 0 < r) (hleft : cfg.skipBytes + base + done + r ≤ input.length) :
    ∃ t leaves', (shardedSystem cfg metaLen input n stats).Reachable t ∧
      t.phase w = .stripe base (done + r) leaves' := by
  have hlen : ((input.drop (cfg.skipBytes + base + done)).take r).length = r := by
    rw [List.length_take, List.length_drop]
    omega
  have hlt : r < 2 ^ 32 := hr ▸ Nat.mod_lt _ (Nat.two_pow_pos 32)
  obtain ⟨t₁, bytes, leaves', h₁, hp₁, hbytes⟩ : ∃ t₁ bytes leaves',
      (shardedSystem cfg metaLen input n stats).Reachable t₁ ∧
        t₁.phase w = .writing base done leaves' bytes 0 ∧ bytes.length = r :=
    ⟨_, _, _, h.step (.reads s w r base done leaves _ hp hpos (Nat.le_of_eq hr.symm) rfl hlen),
      s.phase_goto_self w _, hlen⟩
  obtain ⟨t₂, h₂, hp₂⟩ : ∃ t₂, (shardedSystem cfg metaLen input n stats).Reachable t₂ ∧
      t₂.phase w = .writing base done leaves' bytes (0 + r) :=
    ⟨_, h₁.step (.writes t₁ w r base done leaves' bytes 0 hp₁ (by omega) (by
      rw [hbytes, Nat.sub_zero, Nat.mod_eq_of_lt hlt])), t₁.phase_goto_self w _⟩
  rw [← hbytes, Nat.zero_add] at hp₂
  rw [← hbytes]
  exact ⟨_, leaves', h₂.step (.counts t₂ w base done leaves' bytes _ hp₂ (Nat.le_refl _)),
    t₂.phase_goto_self w _⟩

end Reach

variable (cfg metaLen) in
/-- The same for the workers, whose first stripe is as long as a block. -/
theorem uring_sharded_lengths_iff :
    (∀ (input : List Byte) (stats : Stats) (s : ShardState (numWorkers cfg)),
      (shardedSystem cfg metaLen input (numWorkers cfg) stats).Reachable s →
        ShardsSound cfg metaLen input s) ↔ ShardsFit cfg metaLen := by
  constructor
  · intro h
    by_contra hnot
    unfold ShardsFit at hnot
    rw [not_or, Nat.not_lt] at hnot
    obtain ⟨hblock, htotal⟩ := hnot
    have hbig (total : Nat) (hsome : totalBytesToCopy cfg metaLen = some total) :
        2 ^ 32 ≤ total := Nat.not_lt.mp fun hlt => htotal ⟨total, hsome, hlt⟩
    have hlarge : 2 ^ 32 ≤ thisChunkLen cfg metaLen 0 ∧
        thisChunkLen cfg metaLen 0 ≤ effectiveBlockSize cfg := by
      have hchunk : shardChunkSize cfg = effectiveBlockSize cfg := by
        unfold effectiveBlockSize at hblock
        unfold shardChunkSize effectiveBlockSize
        omega
      unfold thisChunkLen
      cases hsome : totalBytesToCopy cfg metaLen with
      | none =>
        dsimp only
        omega
      | some total =>
        have := hbig total hsome
        dsimp only
        omega
    generalize hL : thisChunkLen cfg metaLen 0 = L at hlarge
    have hrequest (d : Nat) : readRequest cfg metaLen 0 d = (L - d) % 2 ^ 32 := by
      unfold readRequest
      rw [hL, Nat.min_eq_left (by omega)]
    have hw : 0 < numWorkers cfg := numWorkers_pos cfg
    have hbad (t : ShardState (numWorkers cfg)) (d : Nat) (leaves : List Digest)
        (hreach : (shardedSystem cfg metaLen (List.replicate (cfg.skipBytes + L) 0)
          (numWorkers cfg) {}).Reachable t)
        (hp : t.phase ⟨0, hw⟩ = .reading 0 d leaves) (hd : d < L) (hzero : (L - d) % 2 ^ 32 = 0) :
        False := by
      have hsound := (h _ _ t hreach).read ⟨0, hw⟩ 0 d leaves hp (by
        rw [List.length_replicate]
        omega)
      rw [hrequest, hzero] at hsound
      exact absurd hsound.1 (Nat.lt_irrefl 0)
    obtain ⟨s, hs, hsp⟩ := reach_stripe cfg metaLen
      (List.replicate (cfg.skipBytes + L) 0) {} ⟨0, hw⟩ fun total hsome =>
        Nat.lt_of_lt_of_le (Nat.two_pow_pos 32) (hbig total hsome)
    obtain ⟨t, ht, htp⟩ := reach_reading hs hsp (by omega)
    rcases Nat.eq_zero_or_pos (L % 2 ^ 32) with hzero | hpos
    · exact hbad t 0 [] ht htp (by omega) (by rwa [Nat.sub_zero])
    · obtain ⟨u, leaves, hu, hup⟩ := reach_counted (r := L % 2 ^ 32) ht htp (hrequest 0) hpos (by
        rw [List.length_replicate]
        omega)
      rw [Nat.zero_add] at hup
      obtain ⟨v, hv, hvp⟩ := reach_reading hu hup (by omega)
      exact hbad v _ leaves hv hvp (by omega) (by omega)
  · intro hfit input stats s hreach
    refine hfit.sound (hreach.invariant (I := fun s => ∀ v, PhaseShort cfg metaLen (s.phase v)) ?_ ?_)
    · rintro s rfl v
      trivial
    · intro s a t hs hst
      exact short_step hst hs

end Shards

/-- With blocks below 2 ^ 32 bytes or less than that to copy, and through one ring also with no end
to the copy and a block size that is no multiple of 2 ^ 32, every request is for something in every
run, and else there is a run that ends before the bytes are copied. -/
theorem uring_lengths_iff {η₂ η₃ : Type} (env : HashEnv η₂ η₃) (cfg : Config)
    (metaLen : Option Nat) :
    ((∀ (cancel : Nat → Bool) (results : Nat → RingResult) (input : RingInput Byte) (stats : Stats)
        (s : UringState Byte η₂ η₃),
      Iterates (uringBody env cfg cancel results input) (UringState.start env cfg stats) s →
        RingSound env cfg cancel results input s) ↔ RingFits cfg (remainingTotal cfg)) ∧
    ((∀ (input : List Byte) (stats : Stats) (s : ShardState (numWorkers cfg)),
      (shardedSystem cfg metaLen input (numWorkers cfg) stats).Reachable s →
        ShardsSound cfg metaLen input s) ↔ ShardsFit cfg metaLen) :=
  ⟨uring_single_lengths_iff env cfg, uring_sharded_lengths_iff cfg metaLen⟩

/-- Blocks of 4 GiB are accepted, and the copy returns before it has read a byte. -/
theorem uring_lengths_zero :
    parseArgs ["-b".toList, "4294967296".toList] = .config { blockSize := 4294967296 } ∧
    (∃ s : UringState Byte Unit Unit, executeUringSingle noCrates none (fun _ => false)
      (fun _ => .done 1) 1 { blockSize := 4294967296 } ⟨[7], false⟩ {} = some (.ok (), s) ∧
        s.log = [] ∧ s.ahead ⟨[7], false⟩ = [7]) ∧
    ¬ RingSound noCrates { blockSize := 4294967296 } (fun _ => false) (fun _ => .done 1) ⟨[7], false⟩
      (UringState.start noCrates { blockSize := 4294967296 } {} : UringState Byte Unit Unit) := by
  refine ⟨by decide +kernel, ⟨_, rfl, rfl, rfl⟩, fun h => ?_⟩
  have hpos := (h.read rfl nofun (List.cons_ne_nil 7 [])).1
  exact absurd hpos (by decide)

end Blkcp.Rust
