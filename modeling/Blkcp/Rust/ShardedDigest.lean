import Blkcp.Rust.ShardedCopy
import Blkcp.Blks.Eval
import Mathlib.Data.List.Sort
set_option autoImplicit false

/-! The digest of a sharded copy is that of the bytes copied as long as no read ends between two
leaves. -/

namespace Blkcp.Rust
open Blkcp.Lib Blkcp.Blks

variable {n : Nat}

section Leaves

/-- Stripe `j` of `d`. -/
def stripeBytes (C : Nat) (d : List Byte) (j : Nat) : List Byte := (d.drop (C * j)).take C

/-- What a worker keeps of a stripe. -/
def stripeEntry (C : Nat) (d : List Byte) (j : Nat) : StripeLeaves :=
  (C * j, leaves (stripeBytes C d j))

variable {C : Nat} {d : List Byte}

theorem leaves_eq_nil_iff {data : List Byte} : leaves data = [] ↔ data = [] := by
  constructor
  · intro h
    by_contra hne
    exact leaves_ne_nil hne h
  · rintro rfl
    simp [leaves]

theorem stripeBytes_eq_nil_iff (hC : 0 < C) {j : Nat} :
    stripeBytes C d j = [] ↔ d.length ≤ C * j := by
  rw [stripeBytes, List.take_eq_nil_iff, List.drop_eq_nil_iff]
  omega

/-- Stripes of whole leaves put together have the leaves of the whole. -/
theorem flatMap_leaves (hdvd : chunkSize ∣ C) (K : Nat) :
    (List.range K).flatMap (fun j => leaves (stripeBytes C d j)) = leaves (d.take (C * K)) := by
  induction K with
  | zero => simp [leaves_eq_nil_iff.mpr]
  | succ K ih =>
    rw [List.range_succ, List.flatMap_append, ih, List.flatMap_singleton, Nat.mul_succ,
      List.take_add, ← stripeBytes]
    by_cases hend : d.length ≤ C * K
    · have hnil : stripeBytes C d K = [] := by
        rw [stripeBytes, List.drop_of_length_le hend, List.take_nil]
      rw [hnil, List.append_nil, leaves_eq_nil_iff.mpr rfl, List.append_nil]
    · rw [leaves_append]
      rw [List.length_take, Nat.min_eq_left (by omega)]
      exact Dvd.dvd.mul_right hdvd K

theorem flatMap_filter {α β : Type} (p : α → Bool) (f : α → List β) {xs : List α}
    (h : ∀ x ∈ xs, p x = false → f x = []) : (xs.filter p).flatMap f = xs.flatMap f := by
  induction xs with
  | nil => rfl
  | cons x xs ih =>
    have htail := ih (fun y hy => h y (List.mem_cons_of_mem x hy))
    cases hp : p x with
    | true => rw [List.filter_cons_of_pos hp, List.flatMap_cons, List.flatMap_cons, htail]
    | false =>
      rw [List.filter_cons_of_neg (by simp [hp]), htail, List.flatMap_cons,
        h x List.mem_cons_self hp, List.nil_append]

/-- Sorting by base puts the stripes in order, whoever kept them. -/
theorem sorted_stripes (hC : 0 < C) {js : List Nat} {K : Nat}
    (hperm : js.Perm (List.range K)) (p : Nat → Bool) :
    ((js.filter p).map (stripeEntry C d)).mergeSort (fun a b => a.1 ≤ b.1) =
      ((List.range K).filter p).map (stripeEntry C d) := by
  have hsort : (js.filter p).mergeSort (fun a b => a ≤ b) = (List.range K).filter p := by
    have hsorted := List.pairwise_mergeSort' (fun a b : Nat => a ≤ b) (js.filter p)
    exact List.Perm.eq_of_pairwise (fun a b _ _ => Nat.le_antisymm) hsorted
      ((List.pairwise_lt_range.imp Nat.le_of_lt).filter p)
      ((List.mergeSort_perm _ _).trans (hperm.filter p))
  rw [← hsort]
  refine (List.map_mergeSort (fun a _ b _ => ?_)).symm
  simp only [stripeEntry, Nat.mul_le_mul_left_iff hC]

theorem take_stripeLen (j : Nat) :
    (d.drop (C * j)).take (stripeLen C d.length j) = stripeBytes C d j := by
  rw [stripeBytes, List.take_eq_take_iff, List.length_drop, stripeLen]
  omega

end Leaves

section Invariant

variable (cfg : Config) (metaLen : Option Nat) (input : List Byte)

/-- The leaves of a stripe so far; they go on behind whole leaves only. -/
def LeavesOk : ShardPhase → Prop
  | .stripe base done lv | .reading base done lv =>
    lv = leaves (((copyRange cfg metaLen input).drop base).take done) ∧
      (chunkSize ∣ done ∨ copyLength cfg metaLen input ≤ base + done)
  | .writing base done lv bytes _ =>
    lv = leaves (((copyRange cfg metaLen input).drop base).take (done + bytes.length)) ∧
      (chunkSize ∣ done + bytes.length ∨
        copyLength cfg metaLen input ≤ base + (done + bytes.length))
  | _ => True

/-- The stripes a worker has finished, as it keeps them. -/
def keptStripes (T : Stripes (Fin n)) (w : Fin n) : List StripeLeaves :=
  ((T.finished w).filter fun j => shardChunkSize cfg * j < copyLength cfg metaLen input).map
    (stripeEntry (shardChunkSize cfg) (copyRange cfg metaLen input))

structure Hashed (s : ShardState n) (T : Stripes (Fin n)) : Prop where
  kept : ∀ w, (s.workers w).stripes = keptStripes cfg metaLen input T w
  phases : ∀ w, LeavesOk cfg metaLen input (s.phase w)
  ended : ∀ w ws, s.phase w = .done (.ok ws) → ws = (s.workers w).stripes

/-- A read ends between two leaves or where the copy ends. -/
def CutsAtLeaves (s : ShardState n) : ShardAct n → Prop
  | .reads w m => ∀ base done lv, s.phase w = .reading base done lv →
      chunkSize ∣ m ∨ base + done + m = copyLength cfg metaLen input
  | _ => True

end Invariant

variable {cfg : Config} {metaLen : Option Nat} {input : List Byte}

section Steps

variable {s t : ShardState n} {T T' : Stripes (Fin n)} {a : ShardAct n}

theorem Hashed.step_of (h : Hashed cfg metaLen input s T) {w : Fin n} {x : ShardWorker}
    (hworkers : t.workers = Function.update s.workers w x)
    (hfin : ∀ v, v ≠ w → T'.finished v = T.finished v)
    (hkept : x.stripes = keptStripes cfg metaLen input T' w)
    (hphase : LeavesOk cfg metaLen input x.phase)
    (hend : ∀ ws, x.phase = .done (.ok ws) → ws = x.stripes) : Hashed cfg metaLen input t T' := by
  have hself : t.workers w = x := by rw [hworkers, Function.update_self]
  have hother : ∀ v, v ≠ w → t.workers v = s.workers v := by
    intro v hv
    rw [hworkers, Function.update_of_ne hv]
  refine ⟨fun v => ?_, fun v => ?_, fun v ws hv => ?_⟩
  · by_cases hvw : v = w
    · rw [hvw, hself, hkept]
    · rw [hother v hvw, h.kept, keptStripes, keptStripes, hfin v hvw]
  · by_cases hvw : v = w
    · rw [hvw, ShardState.phase, hself]
      exact hphase
    · rw [ShardState.phase, hother v hvw]
      exact h.phases v
  · by_cases hvw : v = w
    · rw [hvw, ShardState.phase, hself] at hv
      rw [hvw, hself]
      exact hend ws hv
    · rw [ShardState.phase, hother v hvw] at hv
      rw [hother v hvw]
      exact h.ended v ws hv

/-- A step that finishes no stripe. -/
theorem Hashed.move (h : Hashed cfg metaLen input s T) {w : Fin n} {p : ShardPhase}
    (hworkers : t.workers = (s.goto w p).workers) (hfin : T'.finished = T.finished)
    (hphase : LeavesOk cfg metaLen input p)
    (hend : ∀ ws, p = .done (.ok ws) → ws = (s.workers w).stripes) :
    Hashed cfg metaLen input t T' :=
  h.step_of hworkers (fun _ _ => by rw [hfin])
    ((h.kept w).trans (by rw [keptStripes, keptStripes, hfin])) hphase hend

theorem Hashed.phase (h : Hashed cfg metaLen input s T) {w : Fin n} {p : ShardPhase}
    (hp : s.phase w = p) : LeavesOk cfg metaLen input p := by
  rw [← hp]
  exact h.phases w

theorem finished_close (T : Stripes (Fin n)) {w v : Fin n} (hv : v ≠ w) :
    (T.close w).finished v = T.finished v := by
  simp [Stripes.close, hv]

/-- A full stripe is kept when it has a leaf. -/
theorem Hashed.push (h : Hashed cfg metaLen input s T) (hblks : cfg.hashAlgo = .blks) {w : Fin n}
    {j : Nat} {lv : List Digest} (hj : T.opened w = some j)
    (hlv : lv = leaves (stripeBytes (shardChunkSize cfg) (copyRange cfg metaLen input) j)) :
    s.pushStripe cfg w (shardChunkSize cfg * j) lv =
      keptStripes cfg metaLen input (T.close w) w := by
  have hfin : (T.close w).finished w = T.finished w ++ [j] := by simp [Stripes.close, hj]
  have hne : lv ≠ [] ↔ shardChunkSize cfg * j < copyLength cfg metaLen input := by
    rw [hlv, ne_eq, leaves_eq_nil_iff, stripeBytes_eq_nil_iff shardChunkSize_pos, length_copyRange,
      Nat.not_le]
  rw [ShardState.pushStripe, keptStripes, hfin, List.filter_append, List.map_append, h.kept w,
    keptStripes]
  by_cases hlt : shardChunkSize cfg * j < copyLength cfg metaLen input
  · rw [if_pos ⟨hblks, hne.mpr hlt⟩, List.filter_singleton, decide_eq_true hlt, hlv]
    rfl
  · rw [if_neg (fun hcon => hlt (hne.mp hcon.2)), List.filter_singleton,
      decide_eq_false hlt]
    exact (List.append_nil _).symm

theorem hashed_step (hblks : cfg.hashAlgo = .blks) (hs : Sharded cfg metaLen input s T)
    (h : Hashed cfg metaLen input s T) (heof : EofHonest cfg input s a)
    (hcut : CutsAtLeaves cfg metaLen input s a) (hst : ShardStep cfg metaLen input s a t) :
    Hashed cfg metaLen input t (trackStripes T s a) := by
  cases hst
  case setCancel => exact ⟨h.kept, h.phases, h.ended⟩
  case writeInterrupted => exact h
  case stops w hp hflag =>
    refine h.move rfl rfl trivial (fun ws hws => ?_)
    cases hws
    rfl
  case exhausts w total hp ht hle =>
    have hbeyond : copyLength cfg metaLen input ≤ shardChunkSize cfg * T.claimed := by
      rw [copyLength_of_some ht, ← hs.next]
      omega
    refine h.step_of rfl (fun v hv => finished_close _ hv) ?_ trivial (fun ws hws => ?_)
    · have hfin : ((T.claim w).close w).finished w = T.finished w ++ [T.claimed] := by
        simp [Stripes.close, Stripes.claim]
      rw [trackStripes, keptStripes, hfin, List.filter_append, List.filter_singleton,
        decide_eq_false (by omega), h.kept w, keptStripes]
      simp
    · cases hws
      rfl
  case claims w hp ht =>
    exact h.move rfl rfl ⟨by simp [leaves_eq_nil_iff], .inl (Nat.dvd_zero _)⟩ (by simp)
  case finishes w base done lv hp hlen =>
    obtain ⟨hlv, -⟩ := h.phase hp
    obtain ⟨j, hj, rfl, hfilled⟩ := hs.phase hp
    have hle := hs.filled_le j
    have hdone : done = stripeLen (shardChunkSize cfg) (copyRange cfg metaLen input).length j := by
      rw [length_copyRange, stripeLen_eq]
      omega
    rw [hdone, take_stripeLen] at hlv
    exact h.step_of rfl (fun v hv => finished_close T hv) (h.push hblks hj hlv) trivial (by simp)
  case submits w base done lv hp hlen =>
    obtain ⟨hlv, hdvd⟩ := h.phase hp
    exact h.move rfl rfl ⟨hlv, hdvd⟩ (by simp)
  case reads w m base done lv bytes hp hpos hm hb hlen =>
    obtain ⟨hlv, hdvd⟩ := h.phase hp
    obtain ⟨j, hj, rfl, hfilled, hdone⟩ := hs.phase hp
    obtain ⟨hcopy, hle⟩ := hs.read hp hpos hm hb hlen
    have hdvd' : chunkSize ∣ done := by
      rcases hdvd with hdvd | hend
      · exact hdvd
      · omega
    refine h.move rfl rfl ?_ (by simp)
    rw [if_pos hblks]
    refine ⟨?_, ?_⟩
    · rw [hlv, hlen, List.take_add, List.drop_drop, ← hcopy, leaves_append]
      rw [List.length_take, List.length_drop, length_copyRange, Nat.min_eq_left (by omega)]
      exact hdvd'
    · rw [hlen]
      rcases hcut _ _ _ hp with hm | hend
      · exact .inl (Nat.dvd_add hdvd' hm)
      · exact .inr (by omega)
  case readsEof w base done lv hp hzero =>
    have hend := heof _ _ _ hp
    obtain ⟨hlv, -⟩ := h.phase hp
    obtain ⟨j, hj, rfl, hfilled, -⟩ := hs.phase hp
    have hle := hs.filled_le j
    have hdone : done = stripeLen (shardChunkSize cfg) (copyRange cfg metaLen input).length j := by
      rw [length_copyRange, stripeLen_eq]
      omega
    rw [hdone, take_stripeLen] at hlv
    refine h.step_of rfl (fun v hv => finished_close T hv) (h.push hblks hj hlv) trivial
      (fun ws hws => ?_)
    cases hws
    rfl
  case readInterrupted w base done lv hp =>
    obtain ⟨hlv, hdvd⟩ := h.phase hp
    exact h.move rfl rfl ⟨hlv, hdvd⟩ (by simp)
  case writes w m base done lv bytes written hp hlt hm =>
    obtain ⟨hlv, hdvd⟩ := h.phase hp
    exact h.move rfl (by rw [trackStripes, Stripes.fill_finished]) ⟨hlv, hdvd⟩ (by simp)
  case counts w base done lv bytes written hp hle =>
    obtain ⟨hlv, hdvd⟩ := h.phase hp
    exact h.move rfl rfl ⟨hlv, hdvd⟩ (by simp)
  all_goals exact h.move rfl rfl trivial (by simp)

end Steps

section Runs

variable {stats : Stats}

theorem hashed_of_reachable {s : ShardState n} {T : Stripes (Fin n)} (hblks : cfg.hashAlgo = .blks)
    (h : (((shardedSystem cfg metaLen input n stats).restrict fun s a =>
      EofHonest cfg input s a ∧ CutsAtLeaves cfg metaLen input s a).traced .start
        trackStripes).Reachable (s, T)) :
    Sharded cfg metaLen input s T ∧ Hashed cfg metaLen input s T := by
  refine h.invariant (I := fun x => Sharded cfg metaLen input x.1 x.2 ∧
    Hashed cfg metaLen input x.1 x.2) ?_ ?_
  · rintro ⟨s, T⟩ ⟨rfl, rfl⟩
    exact ⟨sharded_start, fun _ => rfl, fun _ => trivial, fun w ws hw => by cases hw⟩
  · rintro ⟨s, T⟩ a ⟨t, T'⟩ ⟨hs, hh⟩ ⟨⟨hst, heof, hcut⟩, rfl⟩
    exact ⟨sharded_step hs heof hst, hashed_step hblks hs hh heof hcut hst⟩

/-- A sharded path with a digest has whole leaves in its stripes and more than one leaf. -/
theorem takesSharded_blks (hpath : takesSharded cfg (some input.length) = true)
    (hblks : cfg.hashAlgo = .blks) :
    chunkSize ∣ shardChunkSize cfg ∧ chunkSize < copyLength cfg (some input.length) input := by
  simp only [takesSharded, canParallelBlks, hblks, Bool.and_eq_true, Bool.or_eq_true,
    decide_eq_true_eq, reduceCtorEq, false_or, gt_iff_lt] at hpath
  obtain ⟨-, ⟨-, hblock⟩, hlen⟩ := hpath
  refine ⟨?_, ?_⟩
  · simp only [effectiveBlockSize, chunkSize, shardChunkSize] at hblock ⊢
    omega
  · rw [copyLength, totalBytesToCopy]
    cases hlim : explicitLimit cfg with
    | some lim =>
      simp only [hlim] at hlen
      exact hlen
    | none =>
      simp only [hlim] at hlen
      have hpos : 0 < input.length - cfg.skipBytes := Nat.lt_of_le_of_lt (Nat.zero_le _) hlen
      simpa [Option.filter, hpos] using hlen

/-- Without a cancellation, and with reads that end at leaf boundaries or at the end of the copy,
the digest is that of the bytes copied. -/
theorem sharded_digest (avx2 : Bool) (hpath : takesSharded cfg (some input.length) = true)
    (hblks : cfg.hashAlgo = .blks) {s : ShardState (numWorkers cfg)} {ws : List StripeLeaves}
    (h : ((shardedSystem cfg (some input.length) input (numWorkers cfg) stats).restrict fun s a =>
      EofHonest cfg input s a ∧ CutsAtLeaves cfg (some input.length) input s a).Reachable s)
    (hc : s.cancelled = false) (hok : joinWorkers s = some (.ok ws)) :
    ∃ root, hashSliceParallel avx2 (copyRange cfg (some input.length) input) = some root ∧
      combineStripes cfg ws = some (encodeBase64 root, "blks") := by
  obtain ⟨hdvd, hlong⟩ := takesSharded_blks hpath hblks
  obtain ⟨T, hT⟩ := h.traced .start trackStripes
  obtain ⟨hs, hh⟩ := hashed_of_reachable hblks hT
  obtain ⟨hall, hws⟩ := joinWorkers_ok hok
  obtain ⟨-, hopen, hN⟩ := hs.finished (numWorkers_pos cfg) hc hall
  rw [← length_copyRange] at hlong
  -- the workers' results are the stripes they have kept
  have hresult : s.result = keptStripes cfg (some input.length) input T := by
    funext w
    obtain ⟨own, hown⟩ := hall w
    rw [ShardState.result, hown, ← hh.kept w]
    exact hh.ended w own hown
  have hperm := hs.striped.perm_finished hopen (List.nodup_finRange _) List.mem_finRange
  have hleaves : (ws.mergeSort fun a b => a.1 ≤ b.1).flatMap (fun stripe => stripe.2) =
      leaves (copyRange cfg (some input.length) input) := by
    have hcollect : ws = (((List.finRange (numWorkers cfg)).flatMap T.finished).filter fun j =>
        shardChunkSize cfg * j < copyLength cfg (some input.length) input).map
          (stripeEntry (shardChunkSize cfg) (copyRange cfg (some input.length) input)) := by
      rw [hws, hresult, List.filter_flatMap, List.map_flatMap]
      rfl
    rw [hcollect, sorted_stripes shardChunkSize_pos hperm, List.flatMap_map, flatMap_filter]
    · exact (flatMap_leaves hdvd T.claimed).trans (by rw [List.take_of_length_le hN])
    · intro j _ hj
      rw [decide_eq_false_iff_not, Nat.not_lt, ← length_copyRange] at hj
      exact leaves_eq_nil_iff.mpr ((stripeBytes_eq_nil_iff shardChunkSize_pos).mpr hj)
  have hne : leaves (copyRange cfg (some input.length) input) ≠ [] := by
    rw [ne_eq, leaves_eq_nil_iff]
    intro hnil
    rw [hnil] at hlong
    exact absurd hlong (Nat.not_lt_zero _)
  obtain ⟨root, hroot⟩ := Option.isSome_iff_exists.mp (reduceNodes_isSome hne true)
  refine ⟨root, ?_, ?_⟩
  · rw [hashSliceParallel_eq, if_neg (by omega), hroot]
  · simp only [combineStripes, hblks, if_true, hleaves, ne_eq, hne, not_false_eq_true, hroot,
      Option.map_some]

end Runs

section Example

def blksCopy : Config :=
  { output := some "out", engine := .uring, threads := 2, blockSize := 4096, hashAlgo := .blks }

def zeros (n : Nat) : List Byte := List.replicate n 0

theorem length_zeros (n : Nat) : (zeros n).length = n := List.length_replicate

theorem drop_zeros {n k m : Nat} (h : k + m ≤ n) : zeros m = ((zeros n).drop k).take m := by
  simp [zeros]
  omega

theorem copyLength_zeros : copyLength blksCopy (some 4097) (zeros 4097) = 4097 := by
  simp [copyLength, totalBytesToCopy, explicitLimit, blksCopy, length_zeros, Option.filter]

theorem joinWorkers_two {s : ShardState 2} {x y : List StripeLeaves}
    (hx : s.phase 0 = .done (.ok x)) (hy : s.phase 1 = .done (.ok y)) :
    joinWorkers s = some (.ok (x ++ y)) := by
  have hall : List.finRange 2 = [0, 1] := by decide
  rw [joinWorkers, hall]
  simp only [List.foldlM_cons, List.foldlM_nil, hx, hy]
  rfl

/-- The runs of this copy that read `0` bytes at the end only and, given `P`, whole leaves. -/
def zerosRuns (P : Prop) : System (ShardState 2) (ShardAct 2) :=
  (shardedSystem blksCopy (some 4097) (zeros 4097) 2 {}).restrict fun s x =>
    EofHonest blksCopy (zeros 4097) s x ∧
      (P → CutsAtLeaves blksCopy (some 4097) (zeros 4097) s x)

/-- One worker copies everything in two reads, of `a` and of `b` bytes. -/
theorem zeros_run {a b : Nat} (ha : 0 < a) (hb : 0 < b) (hab : a + b = 4097) (P : Prop)
    (hP : P → a = 4096) :
    ∃ s, (zerosRuns P).Reachable s ∧ s.cancelled = false ∧
      joinWorkers s = some (.ok [(0, leaves (zeros a) ++ leaves (zeros b))]) := by
  have free : ∀ {s : ShardState 2} {x : ShardAct 2}, (∀ w, x ≠ .readsEof w) →
      (∀ w m, x ≠ .reads w m) → EofHonest blksCopy (zeros 4097) s x ∧
        (P → CutsAtLeaves blksCopy (some 4097) (zeros 4097) s x) := by
    intro s x h1 h2
    cases x <;> simp_all [EofHonest, CutsAtLeaves]
  have hchunk : thisChunkLen blksCopy (some 4097) 0 = 4097 := by decide
  have hnext : 4097 ≤ 0 + shardChunkSize blksCopy := by decide
  have hlen : ∀ m, m ≤ 4097 → 0 < m → 0 < (zeros m).length ∧
      m ≤ ((zeros m).length - 0) % 2 ^ 32 ∧ (zeros m).length ≤ 0 + m := by
    intro m hm hpos
    rw [length_zeros]
    omega
  have hlena := hlen a (by omega) ha
  have hlenb := hlen b (by omega) hb
  have start : (zerosRuns P).Reachable (.start 2 {}) := .init rfl
  have h1 := start.step ⟨.starts _ 0 rfl, free (by simp) (by simp)⟩
  have h2 := h1.step ⟨.passes _ 0 rfl, free (by simp) (by simp)⟩
  have h3 := h2.step ⟨.claims _ 0 rfl (by decide), free (by simp) (by simp)⟩
  have h4 := h3.step ⟨.submits _ 0 0 0 [] rfl (by decide), free (by simp) (by simp)⟩
  have hread : zeros a = ((zeros 4097).drop 0).take a := drop_zeros (by omega)
  have h5 := h4.step ⟨.reads _ 0 a 0 0 [] (zeros a) rfl ha (show a ≤ 4096 by omega) hread
    (length_zeros a), trivial, fun p base done lv hph => by rw [hP p]; exact .inl (by decide)⟩
  have h6 := h5.step ⟨.writes _ 0 a 0 0 _ (zeros a) 0 rfl hlena.1 hlena.2.1, free (by simp) (by simp)⟩
  have h7 := h6.step ⟨.counts _ 0 0 0 _ (zeros a) (0 + a) rfl hlena.2.2, free (by simp) (by simp)⟩
  have hmore : 0 + (zeros a).length < thisChunkLen blksCopy (some 4097) 0 := by
    rw [hchunk, length_zeros]
    omega
  have h8 := h7.step ⟨.submits _ 0 0 (0 + (zeros a).length) _ rfl hmore, free (by simp) (by simp)⟩
  have hrequest : b ≤ readRequest blksCopy (some 4097) 0 (0 + (zeros a).length) := by
    rw [readRequest, hchunk, length_zeros]
    show b ≤ min _ 4096 % 2 ^ 32
    omega
  have hread' : zeros b = ((zeros 4097).drop (0 + 0 + (0 + (zeros a).length))).take b := by
    rw [length_zeros]
    exact drop_zeros (by omega)
  have hend : 0 + (0 + (zeros a).length) + b = copyLength blksCopy (some 4097) (zeros 4097) := by
    rw [copyLength_zeros, length_zeros]
    omega
  have h9 := h8.step ⟨.reads _ 0 b 0 (0 + (zeros a).length) _ (zeros b) rfl hb hrequest hread'
    (length_zeros b), trivial, fun _ base done lv hph => by cases hph; exact .inr hend⟩
  have h10 := h9.step ⟨.writes _ 0 b 0 _ _ (zeros b) 0 rfl hlenb.1 hlenb.2.1, free (by simp) (by simp)⟩
  have h11 := h10.step ⟨.counts _ 0 0 _ _ (zeros b) (0 + b) rfl hlenb.2.2, free (by simp) (by simp)⟩
  have hdone : thisChunkLen blksCopy (some 4097) 0 ≤
      0 + (zeros a).length + (zeros b).length := by
    rw [hchunk, length_zeros, length_zeros]
    omega
  have h12 := h11.step ⟨.finishes _ 0 _ _ _ rfl hdone, free (by simp) (by simp)⟩
  have h13 := h12.step ⟨.passes _ 0 rfl, free (by simp) (by simp)⟩
  have h14 := h13.step ⟨.exhausts _ 0 4097 rfl rfl hnext, free (by simp) (by simp)⟩
  have h15 := h14.step ⟨.starts _ 1 rfl, free (by simp) (by simp)⟩
  have h16 := h15.step ⟨.passes _ 1 rfl, free (by simp) (by simp)⟩
  have h17 := h16.step ⟨.exhausts _ 1 4097 rfl rfl (Nat.le_add_right_of_le hnext),
    free (by simp) (by simp)⟩
  have hleaves : leaves (zeros a) ++ leaves (zeros b) ≠ [] := by
    intro hnil
    rw [List.append_eq_nil_iff, leaves_eq_nil_iff, ← List.length_eq_zero_iff, length_zeros] at hnil
    omega
  have hpush : ∀ s : ShardState 2,
      s.pushStripe blksCopy 0 0 (leaves (zeros a) ++ leaves (zeros b)) =
        (s.workers 0).stripes ++ [(0, leaves (zeros a) ++ leaves (zeros b))] := by
    intro s
    rw [ShardState.pushStripe, if_pos ⟨rfl, hleaves⟩]
  refine ⟨_, h17, rfl, (joinWorkers_two rfl rfl).trans ?_⟩
  exact congrArg (fun w => some (Except.ok (w ++ []))) (hpush _)

theorem numBlocks_full : 32 = numBlocks (List.replicate 4096 0) := by
  simp only [numBlocks, List.length_replicate, blockBytes]
  decide

/-- The block loop on a full chunk of `0` bytes, some blocks further. -/
theorem chunkCv_full {i n : Nat} {a b : Cv} (ha : chunkCv (List.replicate 4096 0) false i = a)
    (hrun : zerosE 4096 false 32 n i a (fun cv => decide (cv = b)) = true) :
    chunkCv (List.replicate 4096 0) false (i + n) = b := by
  rw [← ha, zerosE_eq 4096 false numBlocks_full] at hrun
  exact of_decide_eq_true hrun

-- the values on the way keep each evaluation small
theorem chunkCv_full_eleven : chunkCv (List.replicate 4096 0) false (0 + 11) = #v[
    0x418caed9178270e5, 0x957a99243ea60e6d, 0x8955fae5de2b62c2, 0x8ae3038cffa1911e,
    0x90f9f0887f171cd3, 0x7f9058f74e61eb9b, 0x9c5d43585cb8ce44, 0xb9a13442fe637d90] :=
  chunkCv_full (a := initialCv) rfl (by decide +kernel)

theorem chunkCv_full_twentyTwo : chunkCv (List.replicate 4096 0) false (0 + 11 + 11) = #v[
    0xd8a88c38bc639a49, 0x78b2a4f98b12d7d6, 0x559c9fcf56aec693, 0xeff6124619d704d9,
    0x4d1c2da231ddd8db, 0xc05cb6ddb5a51d57, 0xb4414ca0952d6a07, 0xe879bd298e3953d7] :=
  chunkCv_full chunkCv_full_eleven (by decide +kernel)

/-- Two chunks of `0` bytes give different digests in the two orders. -/
theorem parent_zeros_ne :
    encodeBase64 (compressParent (hashChunk (zeros 1) false) (hashChunk (zeros 4096) false) true) ≠
      encodeBase64
        (compressParent (hashChunk (zeros 4096) false) (hashChunk (zeros 1) false) true) := by
  have hrun : zerosE 4096 false 32 10 (0 + 11 + 11) #v[
      0xd8a88c38bc639a49, 0x78b2a4f98b12d7d6, 0x559c9fcf56aec693, 0xeff6124619d704d9,
      0x4d1c2da231ddd8db, 0xc05cb6ddb5a51d57, 0xb4414ca0952d6a07, 0xe879bd298e3953d7]
      (fun a => zerosE 1 false 1 1 0 initialCv fun b =>
        parentE a b true fun x => parentE b a true fun y =>
          decide ((encodeBase64 (truncate x)).toList.head? ≠
            (encodeBase64 (truncate y)).toList.head?)) = true := by decide +kernel
  have hcv : chunkCv (List.replicate 1 0) false 0 = initialCv := rfl
  have hone : 1 = numBlocks (List.replicate 1 0) := rfl
  rw [← chunkCv_full_twentyTwo, zerosE_eq 4096 false numBlocks_full, ← hcv,
    zerosE_eq 1 false hone] at hrun
  simp only [parentE_eq, decide_eq_true_eq, Nat.zero_add, Nat.reduceAdd] at hrun
  intro h
  refine hrun ?_
  rw [compressParent, compressParent, hashChunk, hashChunk, zeros, zeros, ← numBlocks_full,
    ← hone] at h
  rw [h]

theorem leaves_zeros_one : leaves (zeros 1) = [hashChunk (zeros 1) false] :=
  leaves_of_le (by simp [zeros]) (by simp [zeros])

theorem leaves_zeros_full : leaves (zeros 4096) = [hashChunk (zeros 4096) false] :=
  leaves_of_le (List.ne_nil_of_length_pos (by rw [length_zeros]; decide)) (by rw [length_zeros])

theorem reduceNodes_pair (x y : Digest) :
    reduceNodes [x, y] true = some (compressParent x y true) := by
  rw [reduceNodes, reduceLevel_eq]
  simp [reduceNodes, pairUp]

theorem combineStripes_single {cfg : Config} {base : Nat} {lv : List Digest} {root : Digest}
    (hblks : cfg.hashAlgo = .blks) (hne : lv ≠ []) (hroot : reduceNodes lv true = some root) :
    combineStripes cfg [(base, lv)] = some (encodeBase64 root, "blks") := by
  rw [combineStripes, if_pos hblks, List.mergeSort_singleton]
  simp only [List.flatMap_singleton]
  rw [if_pos hne, hroot, Option.map_some]

theorem copyRange_zeros : copyRange blksCopy (some 4097) (zeros 4097) = zeros 4097 := by
  rw [copyRange, copyLength_zeros]
  exact List.take_of_length_le (by rw [List.length_drop, length_zeros]; omega)

theorem leaves_zeros : leaves (zeros 4097) =
    [hashChunk (zeros 4096) false, hashChunk (zeros 1) false] := by
  have hsplit : zeros 4097 = zeros 4096 ++ zeros 1 := List.replicate_add 4096 1 0
  rw [hsplit, leaves_append _ _ (by rw [length_zeros]), leaves_zeros_full, leaves_zeros_one]
  rfl

theorem takesSharded_zeros : takesSharded blksCopy (some 4097) = true := by decide

/-- Two reads of 4096 and of one byte. -/
theorem sharded_digest_zeros : ∃ root ws, hashSliceParallel false (zeros 4097) = some root ∧
    combineStripes blksCopy ws = some (encodeBase64 root, "blks") := by
  obtain ⟨s, h, hc, hok⟩ := zeros_run (a := 4096) (b := 1) (by decide) (by decide) rfl True
    (fun _ => rfl)
  have hgood : ((shardedSystem blksCopy (some (zeros 4097).length) (zeros 4097)
      (numWorkers blksCopy) {}).restrict fun s x => EofHonest blksCopy (zeros 4097) s x ∧
        CutsAtLeaves blksCopy (some (zeros 4097).length) (zeros 4097) s x).Reachable s := by
    rw [length_zeros]
    exact h.restrict_imp fun _ _ hcut => ⟨hcut.1, hcut.2 trivial⟩
  obtain ⟨root, hroot, hdigest⟩ := sharded_digest false
    (by rw [length_zeros]; exact takesSharded_zeros) rfl hgood hc hok
  rw [length_zeros, copyRange_zeros] at hroot
  exact ⟨root, _, hroot, hdigest⟩

/-- A first read of one byte leaves the leaf boundaries of all that follows one byte late. -/
theorem shortRead_digest : ∃ s ws, takesSharded blksCopy (some (zeros 4097).length) = true ∧
    ((shardedSystem blksCopy (some (zeros 4097).length) (zeros 4097) (numWorkers blksCopy)
      {}).restrict fun s x => EofHonest blksCopy (zeros 4097) s x).Reachable s ∧
    s.cancelled = false ∧ joinWorkers s = some (.ok ws) ∧ ∀ avx2 root,
      hashSliceParallel avx2 (copyRange blksCopy (some (zeros 4097).length) (zeros 4097)) =
        some root → combineStripes blksCopy ws ≠ some (encodeBase64 root, "blks") := by
  obtain ⟨s, h, hc, hok⟩ := zeros_run (a := 1) (b := 4096) (by decide) (by decide) rfl False
    False.elim
  rw [length_zeros]
  refine ⟨s, _, takesSharded_zeros, h.restrict_imp fun _ _ hgood => hgood.1, hc, hok, ?_⟩
  intro avx2 root hroot
  rw [copyRange_zeros, hashSliceParallel_eq, if_neg (by rw [length_zeros]; decide), leaves_zeros,
    reduceNodes_pair, Option.some.injEq] at hroot
  have hown : combineStripes blksCopy [(0, leaves (zeros 1) ++ leaves (zeros 4096))] =
      some (encodeBase64 (compressParent (hashChunk (zeros 1) false)
        (hashChunk (zeros 4096) false) true), "blks") := by
    rw [leaves_zeros_one, leaves_zeros_full]
    exact combineStripes_single rfl (by simp) (reduceNodes_pair _ _)
  rw [hown, ← hroot]
  intro hcon
  exact parent_zeros_ne (Prod.mk.inj (Option.some.inj hcon)).1

end Example

end Blkcp.Rust
