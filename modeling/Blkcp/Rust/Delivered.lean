import Blkcp.Rust.AsyncRefines
set_option autoImplicit false

/-! What a copy has read, block by block, determines the calls it made on its output and what it has
hashed: in the synchronous loop and in the asynchronous pipeline alike. -/

namespace Blkcp.Rust
open Blkcp.Lib

variable {α ρ ω η₂ η₃ : Type} [Octet α]
variable {I : Input α ρ} {O : Output α ω} {env : HashEnv η₂ η₃} {cfg : Config}

/-- A read that gives no bytes: interrupted, failed or at the end. -/
def Nothing (r : ReadResult α × ρ) (input : ρ) : Prop :=
  r = (.interrupted, input) ∨ (∃ e, r = (.failed e, input)) ∨ r = (.data [], input)

/-- Some reads from an input in the state `start` gave these blocks and left it in the last state. -/
inductive ReadFrom (I : Input α ρ) (start : ρ) : List (List α) → ρ → Prop where
  | start : ReadFrom I start [] start
  | block {blocks : List (List α)} {input input' : ρ} {bytes : List α} {n : Nat} :
      ReadFrom I start blocks input → I.read input n = (.data bytes, input') → bytes ≠ [] →
      ReadFrom I start (blocks ++ [bytes]) input'
  | skip {blocks : List (List α)} {input input' : ρ} {n : Nat} :
      ReadFrom I start blocks input → Nothing (I.read input n) input' →
      ReadFrom I start blocks input'

/-- The blocks of some reads are written; their bytes, swabbed, are hashed. -/
structure Delivered (O : Output α ω) (env : HashEnv η₂ η₃) (cfg : Config) (file : ω)
    (blocks : List (List α)) (out : OutState α ω) (hasher : InFlightHasher η₂ η₃) : Prop where
  written : writeAllOk O cfg ⟨file, [], false⟩ blocks = some out
  hashed : hasher = hashAll env (InFlightHasher.new env cfg.hashAlgo) (blocks.map (swabbed cfg))

variable {file : ω} {blocks : List (List α)} {out : OutState α ω} {hasher : InFlightHasher η₂ η₃}

theorem Delivered.snoc (h : Delivered O env cfg file blocks out hasher) {b : List α}
    {out' : OutState α ω} (hw : writeOk O cfg (outBlock cfg b) out = some out') :
    Delivered O env cfg file (blocks ++ [b]) out' (hasher.update env (swabbed cfg b)) where
  written := by
    rw [writeAllOk_snoc, h.written]
    exact hw
  hashed := by
    rw [h.hashed, List.map_append]
    simp [hashAll]

section Loop

variable {cancel : Nat → Bool} {u v : LoopState α ρ ω η₂ η₃}

/-- What an iteration that goes on does: nothing to the output, or one block. -/
theorem transferBody_continues (h : transferBody I O env cfg cancel u = .inl v) :
    (v.out = u.out ∧ v.hasher = u.hasher ∧ ∃ n, Nothing (I.read u.input n) v.input) ∨
    ∃ n bytes, I.read u.input n = (.data bytes, v.input) ∧ bytes ≠ [] ∧
      writeOk O cfg (outBlock cfg bytes) u.out = some v.out ∧
      v.hasher = u.hasher.update env (swabbed cfg bytes) := by
  simp only [transferBody] at h
  split at h
  · cases h
  split at h
  · cases h
  split at h
  · cases h
  split at h
  · cases h
  · rename_i hread
    obtain rfl := Sum.inl.inj h
    exact .inl ⟨rfl, rfl, _, .inl hread⟩
  · rename_i hread
    split at h
    · obtain rfl := Sum.inl.inj h
      exact .inl ⟨rfl, rfl, _, .inr (.inl ⟨_, hread⟩)⟩
    · cases h
  · rename_i bytes input hne hread
    split at h
    · cases h
    · rename_i out' stats' buf' hdel
      obtain rfl := Sum.inl.inj h
      have hm : Message.bytes (Message.ofRead u.buffer bytes) = bytes := Message.bytes_ofRead _ _
      obtain ⟨hok, -⟩ := (deliverBlock_ok_iff "Write error: " (Message.ofRead u.buffer bytes) u.out
        u.stats).mp ⟨_, hdel⟩
      have hbuf := deliverBlock_bytes (Message.ofRead u.buffer bytes) hdel
      rw [hm] at hok hbuf
      refine .inr ⟨_, bytes, hread, ?_, hok, congrArg (u.hasher.update env) hbuf⟩
      rintro rfl
      exact hne rfl

theorem transferBody_stops (h : transferBody I O env cfg cancel u = .inr (.ok (), v)) :
    v.out = u.out ∧ v.hasher = u.hasher := by
  simp only [transferBody] at h
  split at h
  · simp at h
  split at h
  · obtain ⟨-, rfl⟩ := Prod.mk.inj (Sum.inr.inj h)
    exact ⟨rfl, rfl⟩
  split at h
  · obtain ⟨-, rfl⟩ := Prod.mk.inj (Sum.inr.inj h)
    exact ⟨rfl, rfl⟩
  split at h
  · obtain ⟨-, rfl⟩ := Prod.mk.inj (Sum.inr.inj h)
    exact ⟨rfl, rfl⟩
  · cases h
  · split at h
    · cases h
    · simp at h
  · split at h
    · simp at h
    · cases h

/-- A synchronous copy that succeeds, under any cancellation that did not stop it. -/
theorem transferLoop_delivered {fuel : Nat} {input : ρ} {stats : Stats}
    {y : LoopState α ρ ω η₂ η₃}
    (h : transferLoop I O env cfg cancel fuel (.start env cfg input file stats) =
      some (.ok (), y)) :
    ∃ blocks rest input' out, ReadFrom I input (blocks ++ rest) input' ∧
      Delivered O env cfg file blocks out y.hasher ∧ y.out = finishOut O cfg out := by
  simp only [transferLoop, Option.map_eq_some_iff] at h
  obtain ⟨⟨r, v⟩, hrun, he⟩ := h
  obtain ⟨u, ⟨blocks, hread, hu⟩, hleave⟩ := runLoop_invariant
    (I := fun s => ∃ blocks, ReadFrom I input blocks s.input ∧
      Delivered O env cfg file blocks s.out s.hasher)
    (fun s t hs hst => by
      obtain ⟨blocks, hread, hs⟩ := hs
      rcases transferBody_continues hst with ⟨ho, hh, n, hskip⟩ | ⟨n, bytes, hdata, hne, hw, hh⟩
      · exact ⟨blocks, hread.skip hskip, by rw [ho, hh]; exact hs⟩
      · exact ⟨blocks ++ [bytes], hread.block hdata hne, by rw [hh]; exact hs.snoc hw⟩)
    hrun ⟨[], .start, ⟨rfl, rfl⟩⟩
  cases r with
  | error e => cases he
  | ok _ =>
    obtain ⟨ho, hh⟩ := transferBody_stops hleave
    obtain ⟨-, rfl⟩ := Prod.mk.inj he
    exact ⟨blocks, [], u.input, v.out, by rwa [List.append_nil], by rw [ho, hh]; exact hu, rfl⟩

end Loop

section Pipeline

variable {s t : AsyncState α ρ ω η₂ η₃} {a : AsyncAct} {input : ρ}

/-- The blocks written and not yet hashed, oldest first. -/
def handed (s : AsyncState α ρ ω η₂ η₃) : List (List α) :=
  s.hashing.unhashed ++ s.hashQ.map Message.bytes ++ s.main.unhashed

/-- The output of a pipeline that has not failed, before and after the end of the writing. -/
def WrittenOff (O : Output α ω) (cfg : Config) (file : ω) (blocks : List (List α))
    (s : AsyncState α ρ ω η₂ η₃) : Prop :=
  match s.main with
  | .returned (.error _) => True
  | .joinHasher | .joinReader | .returned (.ok _) =>
    ∃ out, writeAllOk O cfg ⟨file, [], false⟩ blocks = some out ∧ s.out = finishOut O cfg out
  | _ => writeAllOk O cfg ⟨file, [], false⟩ blocks = some s.out

/-- The writer ends after the hasher has. -/
def HasherJoined (s : AsyncState α ρ ω η₂ η₃) : Prop :=
  s.main = .joinReader ∨ s.main = .returned (.ok ()) → s.hashing = .done

/-- The blocks written so far are among the first ones read; they are hashed, or on the way to it. -/
structure Pipelined (I : Input α ρ) (O : Output α ω) (env : HashEnv η₂ η₃) (cfg : Config)
    (input : ρ) (file : ω) (s : AsyncState α ρ ω η₂ η₃) (blocks rest : List (List α)) : Prop where
  read : ReadFrom I input (blocks ++ rest) s.input
  waiting : s.mainLeft = false → rest = unwritten s
  written : WrittenOff O cfg file blocks s
  hashed : hashAll env s.hasher (handed s) =
    hashAll env (InFlightHasher.new env cfg.hashAlgo) (blocks.map (swabbed cfg))
  noHash : cfg.hashAlgo = .none → s.hasher = .none
  joined : HasherJoined s

variable {rest : List (List α)}

/-- A step that neither reads nor writes. -/
theorem Pipelined.of_eq (h : Pipelined I O env cfg input file s blocks rest)
    (hin : t.input = s.input) (hw : t.mainLeft = false → s.mainLeft = false ∧ unwritten t = unwritten s)
    (hwritten : WrittenOff O cfg file blocks s → WrittenOff O cfg file blocks t)
    (hhash : hashAll env t.hasher (handed t) = hashAll env s.hasher (handed s))
    (hnone : s.hasher = .none → t.hasher = .none) (hj : HasherJoined t) :
    Pipelined I O env cfg input file t blocks rest where
  read := by
    rw [hin]
    exact h.read
  waiting hl := by
    obtain ⟨hs, hu⟩ := hw hl
    rw [hu, h.waiting hs]
  written := hwritten h.written
  hashed := by rw [hhash, h.hashed]
  noHash ha := hnone (h.noHash ha)
  joined := hj

/-- What a reader's step leaves to the others. -/
theorem Pipelined.moved (h : Pipelined I O env cfg input file s blocks rest)
    (hmain : t.main = s.main) (hout : t.out = s.out) (hhasher : t.hasher = s.hasher)
    (hhashing : t.hashing = s.hashing) (hq : t.hashQ = s.hashQ) {rest' : List (List α)}
    (hread : ReadFrom I input (blocks ++ rest') t.input)
    (hwait : t.mainLeft = false → rest' = unwritten t) :
    Pipelined I O env cfg input file t blocks rest' where
  read := hread
  waiting := hwait
  written := by
    have := h.written
    rwa [WrittenOff, ← hmain, ← hout] at this
  hashed := by rw [← h.hashed, hhasher, handed, handed, hhashing, hq, hmain]
  noHash := by
    rw [hhasher]
    exact h.noHash
  joined := by
    rw [HasherJoined, hmain, hhashing]
    exact h.joined

/-- A read that gave nothing. -/
theorem Pipelined.nothing (h : Pipelined I O env cfg input file s blocks rest) {k : Nat}
    {buf : List α} (hr : s.reader = .reading buf k) {input' : ρ}
    (hread : Nothing (I.read s.input k) input') {r : ReaderPhase α} (hunsent : r.unsent = []) :
    Pipelined I O env cfg input file { s with input := input', reader := r } blocks rest := by
  refine h.moved (t := { s with input := input', reader := r }) rfl rfl rfl rfl rfl
    (h.read.skip hread) fun hl => ?_
  rw [h.waiting hl, unwritten_reading hr, unwritten, hunsent, List.append_nil]

/-- What a read adds. -/
theorem Pipelined.read_step (h : Pipelined I O env cfg input file s blocks rest) {k : Nat}
    {buf : List α} (hr : s.reader = .reading buf k) :
    ∃ rest', Pipelined I O env cfg input file (afterRead cfg s buf (I.read s.input k)) blocks
      rest' := by
  rcases hread : I.read s.input k with ⟨res, input'⟩
  cases res with
  | data bytes =>
    cases bytes with
    | nil => exact ⟨rest, h.nothing hr (.inr (.inr hread)) rfl⟩
    | cons b bs =>
      have hnext := h.read.block hread (List.cons_ne_nil b bs)
      rw [List.append_assoc] at hnext
      refine ⟨_, h.moved (t := afterRead cfg s buf (.data (b :: bs), input')) rfl rfl rfl rfl rfl
        hnext fun hl => ?_⟩
      rw [h.waiting hl, unwritten_reading hr]
      exact congrArg (fun b => s.main.unwritten ++ s.dataQ.map Message.bytes ++ [b])
        (Message.bytes_ofRead buf (b :: bs)).symm
  | interrupted => exact ⟨rest, h.nothing hr (.inl hread) rfl⟩
  | failed e =>
    simp only [afterRead]
    split
    · exact ⟨rest, h.nothing hr (.inr (.inl ⟨e, hread⟩)) rfl⟩
    · exact ⟨rest, h.nothing hr (.inr (.inl ⟨e, hread⟩)) rfl⟩

/-- Writing one block off. -/
theorem Pipelined.deliver (h : Pipelined I O env cfg input file s blocks rest) {m m' : Message α}
    {out : OutState α ω} {stats : Stats} (hm : s.main = .got m)
    (hdel : deliverBlock O cfg asyncContext m.buf m.n s.out s.stats = (.ok (), out, stats, m'.buf))
    (hn : m'.n = m.n) :
    ∃ blocks' rest', Pipelined I O env cfg input file
      { s with main := .handing m', out := out, stats := stats } blocks' rest' := by
  obtain ⟨hok, -⟩ := (deliverBlock_ok_iff asyncContext m s.out s.stats).mp ⟨_, hdel⟩
  have hbytes : m'.bytes = swabbed cfg m.bytes := by
    rw [Message.bytes, hn]
    exact deliverBlock_bytes m hdel
  have hleft : s.mainLeft = false := by simp [AsyncState.mainLeft, hm]
  have hw : unwritten s =
      m.bytes :: unwritten { s with main := .handing m', out := out, stats := stats } := by
    simp [unwritten, hm, MainPhase.unwritten]
  have hwritten := h.written
  simp only [WrittenOff, hm] at hwritten
  refine ⟨blocks ++ [m.bytes], _, ?_, fun _ => rfl, ?_, ?_, h.noHash, ?_⟩
  · have hread := h.read
    rw [h.waiting hleft, hw] at hread
    rw [List.append_assoc]
    exact hread
  · show writeAllOk O cfg _ (blocks ++ [m.bytes]) = some out
    rw [writeAllOk_snoc, hwritten]
    exact hok
  · have hhash := h.hashed
    simp only [handed, hm, MainPhase.unhashed, List.append_nil] at hhash ⊢
    simp only [hashAll, List.map_append, List.foldl_append, hbytes] at hhash ⊢
    rw [hhash]
    rfl
  · intro hj
    simp at hj

/-- A step of the reader that moves its block, if any, to the data queue. -/
theorem Pipelined.readerStep (h : Pipelined I O env cfg input file s blocks rest)
    {r : ReaderPhase α} {recycleQ : List (List α)} {dataQ : List (Message α)}
    (hunsent : dataQ.map Message.bytes ++ r.unsent =
      s.dataQ.map Message.bytes ++ s.reader.unsent) :
    Pipelined I O env cfg input file
      { s with reader := r, recycleQ := recycleQ, dataQ := dataQ } blocks rest := by
  refine h.moved (t := { s with reader := r, recycleQ := recycleQ, dataQ := dataQ }) rfl rfl rfl
    rfl rfl h.read fun hl => ?_
  rw [h.waiting hl, unwritten, unwritten, List.append_assoc, List.append_assoc, hunsent]

/-- The writer leaves its loop. -/
theorem Pipelined.leave (h : Pipelined I O env cfg input file s blocks rest)
    (hm : s.main = .recv ∨ ∃ m, s.main = .got m) :
    Pipelined I O env cfg input file
      { s with main := .joinHasher, out := finishOut O cfg s.out } blocks rest := by
  have hwritten := h.written
  refine ⟨h.read, nofun, ⟨s.out, ?_, rfl⟩, ?_, h.noHash, nofun⟩
  · rcases hm with hm | ⟨m, hm⟩
    · simpa only [WrittenOff, hm] using hwritten
    · simpa only [WrittenOff, hm] using hwritten
  · rw [← h.hashed]
    rcases hm with hm | ⟨m, hm⟩ <;> simp only [handed, hm, MainPhase.unhashed]

theorem pipelined_step (h : Pipelined I O env cfg input file s blocks rest)
    (hst : AsyncStep I O env cfg s a t) :
    ∃ blocks' rest', Pipelined I O env cfg input file t blocks' rest' := by
  cases hst
  case setCancel => exact ⟨blocks, rest, h.read, h.waiting, h.written, h.hashed, h.noHash, h.joined⟩
  case readerSeesCancel hr hc =>
    exact ⟨blocks, rest, h.readerStep (by simp [hr, ReaderPhase.unsent])⟩
  case readerStops hr hlimit =>
    exact ⟨blocks, rest, h.readerStep (by simp [hr, ReaderPhase.unsent])⟩
  case readerPasses hr hb hk =>
    exact ⟨blocks, rest, h.readerStep (by simp [hr, ReaderPhase.unsent])⟩
  case readerTakes k buf q hr hq =>
    exact ⟨blocks, rest, h.readerStep (by simp [hr, ReaderPhase.unsent])⟩
  case readerReads k buf hr => exact ⟨blocks, h.read_step hr⟩
  case readerRecycles buf hr hroom =>
    exact ⟨blocks, rest, h.readerStep (by simp [hr, ReaderPhase.unsent])⟩
  case readerSends m hr hret hroom =>
    exact ⟨blocks, rest, h.readerStep (by simp [hr, ReaderPhase.unsent])⟩
  case readerSendFails m hr hret =>
    refine ⟨blocks, rest, h.moved (t := { s with reader := .done (.ok s.totalRead) }) rfl rfl rfl
      rfl rfl h.read fun hl => ?_⟩
    rw [show AsyncState.mainLeft { s with reader := .done (.ok s.totalRead) } = s.mainLeft from rfl,
      mainLeft_of_mainReturned hret] at hl
    cases hl
  case mainReceives m q hm hq =>
    have hwritten := h.written
    refine ⟨blocks, rest, h.of_eq rfl (fun _ => ⟨?_, ?_⟩) (fun _ => ?_) ?_ id
      fun h => by rcases h with h | h <;> cases h⟩
    · simp [AsyncState.mainLeft, hm]
    · simp [unwritten, hm, hq, MainPhase.unwritten]
    · simpa only [WrittenOff, hm] using hwritten
    · simp only [handed, hm, MainPhase.unhashed]
  case mainDisconnects hm hq hd => exact ⟨blocks, rest, h.leave (.inl hm)⟩
  case mainCancels m hm hc => exact ⟨blocks, rest, h.leave (.inr ⟨m, hm⟩)⟩
  case mainDelivers m m' out stats hm hdel hn => exact h.deliver hm hdel hn
  case mainFails m e out stats buf hm hdel =>
    refine ⟨blocks, rest, h.of_eq rfl (fun h => by cases h) (fun _ => trivial) ?_ id
      fun h => by rcases h with h | h <;> cases h⟩
    simp only [handed, hm, MainPhase.unhashed]
  case mainHashes m hm ha hroom =>
    have hwritten := h.written
    refine ⟨blocks, rest, h.of_eq rfl (fun _ => ⟨?_, ?_⟩) (fun _ => ?_) ?_ id
      fun h => by rcases h with h | h <;> cases h⟩
    · simp [AsyncState.mainLeft, hm]
    · simp [unwritten, hm, MainPhase.unwritten]
    · simpa only [WrittenOff, hm] using hwritten
    · simp [handed, hm, MainPhase.unhashed]
  case mainRecycles t m hm ha hrec =>
    have hnone := h.noHash ha
    have hwritten := h.written
    have hrecycled : ∀ q, Pipelined I O env cfg input file { s with recycleQ := q, main := .recv }
        blocks rest := by
      intro q
      refine h.of_eq rfl (fun _ => ⟨?_, ?_⟩) (fun _ => ?_) ?_ id
        fun h => by rcases h with h | h <;> cases h
      · simp [AsyncState.mainLeft, hm]
      · simp [unwritten, hm, MainPhase.unwritten]
      · simpa only [WrittenOff, hm] using hwritten
      · rw [show ({ s with recycleQ := q, main := .recv } : AsyncState α ρ ω η₂ η₃).hasher =
          s.hasher from rfl, hnone, hashAll_none, hashAll_none]
    rcases recycle_eq hrec with ⟨-, rfl⟩ | ⟨-, rfl⟩
    · exact ⟨blocks, rest, hrecycled _⟩
    · exact ⟨blocks, rest, hrecycled _⟩
  case mainJoinsHasher hm hh =>
    have hwritten := h.written
    refine ⟨blocks, rest, h.of_eq rfl (fun h => by cases h) (fun _ => ?_) ?_ id fun _ => hh⟩
    · simpa only [WrittenOff, hm] using hwritten
    · simp only [handed, hm, MainPhase.unhashed]
  case mainJoinsReader r hm hr =>
    have hwritten := h.written
    have hdone := h.joined (.inl hm)
    refine ⟨blocks, rest, h.of_eq rfl (fun h => by cases h) (fun _ => ?_) ?_ id fun _ => hdone⟩
    · cases r with
      | error e => trivial
      | ok n =>
        simp only [WrittenOff, hm] at hwritten
        exact hwritten
    · simp only [handed, hm, MainPhase.unhashed]
  case hasherReceives m q hh hq =>
    refine ⟨blocks, rest, h.of_eq rfl (fun hl => ⟨hl, rfl⟩) id ?_ id fun hj => ?_⟩
    · simp [handed, hh, hq, HasherPhase.unhashed]
    · rw [h.joined hj] at hh
      cases hh
  case hasherEnds hh hq hl =>
    refine ⟨blocks, rest, h.of_eq rfl (fun hl => ⟨hl, rfl⟩) id ?_ id fun _ => rfl⟩
    simp [handed, hh, hq, HasherPhase.unhashed]
  case hasherUpdates m hh =>
    refine ⟨blocks, rest, h.of_eq rfl (fun hl => ⟨hl, rfl⟩) id ?_ (fun hn => ?_) fun hj => ?_⟩
    · simp [handed, hh, HasherPhase.unhashed, hashAll]
    · rw [hn]
      rfl
    · rw [h.joined hj] at hh
      cases hh
  case hasherRecycles t buf hh hrec =>
    have hrecycled : ∀ q, Pipelined I O env cfg input file { s with recycleQ := q, hashing := .recv }
        blocks rest := by
      intro q
      refine h.of_eq rfl (fun hl => ⟨hl, rfl⟩) id ?_ id fun hj => ?_
      · simp [handed, hh, HasherPhase.unhashed]
      · rw [h.joined hj] at hh
        cases hh
    rcases recycle_eq hrec with ⟨-, rfl⟩ | ⟨-, rfl⟩
    · exact ⟨blocks, rest, hrecycled _⟩
    · exact ⟨blocks, rest, hrecycled _⟩

/-- An asynchronous copy that returns without an error, cancelled or not. -/
theorem asyncSystem_delivered {stats : Stats}
    (h : (asyncSystem I O env cfg input file stats).Reachable s)
    (hr : s.main = .returned (.ok ())) :
    ∃ blocks rest out, ReadFrom I input (blocks ++ rest) s.input ∧
      Delivered O env cfg file blocks out s.hasher ∧ s.out = finishOut O cfg out := by
  have hinv : ∃ blocks rest, Pipelined I O env cfg input file s blocks rest := by
    refine h.invariant (I := fun s => ∃ blocks rest, Pipelined I O env cfg input file s blocks rest)
      ?_ ?_
    · rintro s rfl
      refine ⟨[], [], .start, fun _ => rfl, rfl, rfl, fun ha => ?_, nofun⟩
      simp [AsyncState.start, InFlightHasher.new, ha]
    · rintro s a t ⟨blocks, rest, hs⟩ hst
      exact pipelined_step hs hst
  obtain ⟨blocks, rest, hp⟩ := hinv
  have hwritten := hp.written
  simp only [WrittenOff, hr] at hwritten
  obtain ⟨out, hw, hout⟩ := hwritten
  have hdone := hp.joined (.inr hr)
  refine ⟨blocks, rest, out, hp.read, ⟨hw, ?_⟩, hout⟩
  rw [← hp.hashed, handed, hdone, (hasherEnded_of_reachable h hdone).1, hr]
  rfl

end Pipeline

end Blkcp.Rust
