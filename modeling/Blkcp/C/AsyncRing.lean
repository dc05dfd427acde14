import Blkcp.C.Async
import Blkcp.C.SyncRun
import Blkcp.C.SwabLimit
set_option autoImplicit false

/-! The slots of the asynchronous driver are a bounded queue between its reader and `dd_copy`. -/

namespace Blkcp.C
open Blkcp.Lib

variable {ρ ω : Type} {I : Input ρ} {O : Output ω} {env : Env}

variable {rest : ρ → List Byte} {cfg : Config}

/-- The slot that a thread uses outside the lock. -/
def ReaderAt.slot : ReaderAt → Option Nat
  | .filling i | .publishing i => some i
  | _ => none

def WriterAt.slot : WriterAt → Option Nat
  | .draining i => some i
  | _ => none

/-- The bytes of a slot that does not end the stream. -/
def AsyncSlot.block (slot : AsyncSlot) : Option (List Byte) :=
  if slot.isEof then none else some (slot.buf.take slot.nread)

/-- The blocks given to `dd_iwrite`. -/
def OutState.blocks (out : OutState ω) : List (List Byte) := out.calls.map (·.buf)

/-- The slot that is filled and not yet counted. -/
def AsyncState.inHand (s : AsyncState ρ ω) : List AsyncSlot :=
  match s.reader with
  | .publishing i => [s.ring.slots i]
  | _ => []

/-- The slots that are filled and not released. -/
def AsyncState.queue (s : AsyncState ρ ω) : List AsyncSlot := s.ring.contents ++ s.inHand

section Reading

variable {all unread bytes : List Byte} {blocks : List (List Byte)} {records total n : Nat}

/-- The first bytes up to a limit. -/
def firstBytes (limit : Option Nat) (bytes : List Byte) : List Byte :=
  match limit with
  | some limit => bytes.take limit
  | none => bytes

/-- What the reads brought, and what they unread. -/
structure Intaken (cfg : Config) (all unread : List Byte) (blocks : List (List Byte))
    (records total : Nat) : Prop where
  all_eq : all = blocks.flatten ++ unread
  nonempty : ∀ b ∈ blocks, b ≠ []
  records_eq : records = blocks.length
  total_eq : total = blocks.flatten.length
  records_le : records ≤ recordLimit cfg
  total_le : ∀ limit, cfg.bytesToCopy = some limit → total ≤ limit

/-- Nothing more is read. -/
def Exhausted (cfg : Config) (unread : List Byte) (records total : Nat) : Prop :=
  records = recordLimit cfg ∨ (∃ limit, cfg.bytesToCopy = some limit ∧ limit ≤ total) ∨ unread = []

theorem recordLimit_lt (h : asyncToRead cfg records total = some n) :
    records < recordLimit cfg := by
  by_contra hle
  rw [asyncToRead, if_pos (by omega)] at h
  cases h

theorem asyncToRead_spec (h : asyncToRead cfg records total = some n) :
    n ≤ (if cfg.maxRecords ≤ records then cfg.maxBytes else cfg.blocksize) ∧
      (0 < cfg.blocksize → 0 < n) ∧
      ∀ limit, cfg.bytesToCopy = some limit → total + n ≤ limit := by
  have hlt := recordLimit_lt h
  have hpos : 0 < cfg.blocksize →
      0 < if cfg.maxRecords ≤ records then cfg.maxBytes else cfg.blocksize := by
    intro hblock
    rw [recordLimit] at hlt
    split_ifs at hlt ⊢ <;> omega
  rw [asyncToRead, if_neg (by omega)] at h
  simp only at h
  split at h
  · rename_i limit hlimit
    split at h
    · cases h
    · obtain rfl := Option.some.inj h
      refine ⟨Nat.min_le_right .., fun hblock => ?_, fun limit' hlimit' => ?_⟩
      · have := hpos hblock
        omega
      · obtain rfl := Option.some.inj (hlimit.symm.trans hlimit')
        omega
  · rename_i hlimit
    obtain rfl := Option.some.inj h
    refine ⟨Nat.le_refl _, hpos, fun limit hlimit' => ?_⟩
    cases hlimit.symm.trans hlimit'

theorem Intaken.exhausted_of_none (h : Intaken cfg all unread blocks records total)
    (hnone : asyncToRead cfg records total = none) : Exhausted cfg unread records total := by
  rw [asyncToRead] at hnone
  split at hnone
  · exact .inl (Nat.le_antisymm h.records_le ‹_›)
  simp only at hnone
  split at hnone
  · rename_i limit hlimit
    split at hnone
    · exact .inr (.inl ⟨limit, hlimit, ‹_›⟩)
    · cases hnone
  · cases hnone

theorem Intaken.read {s t : ρ} (h : Intaken cfg all (rest s) blocks records total)
    (hread : asyncToRead cfg records total = some n) (htake : Takes rest s n bytes t)
    (hne : bytes ≠ []) :
    Intaken cfg all (rest t) (blocks ++ [bytes]) (records + 1) (total + bytes.length) where
  all_eq := by
    rw [h.all_eq, htake.rest_eq, List.flatten_append, List.flatten_singleton, List.append_assoc]
  nonempty b hb := by
    rcases List.mem_append.mp hb with hb | hb
    · exact h.nonempty b hb
    · rwa [List.mem_singleton.mp hb]
  records_eq := by rw [List.length_append, h.records_eq, List.length_singleton]
  total_eq := by
    rw [List.flatten_append, List.length_append, h.total_eq, List.flatten_singleton]
  records_le := recordLimit_lt hread
  total_le limit hlimit := by
    have hroom := (asyncToRead_spec hread).2.2 limit hlimit
    have hle := htake.length_le
    omega

/-- A read may still come when nothing is unread, and then brings nothing. -/
theorem Exhausted.nothing {s t : ρ} (h : Exhausted cfg (rest s) records total)
    (hread : asyncToRead cfg records total = some n) (htake : Takes rest s n bytes t) :
    bytes = [] := by
  obtain hrecords | ⟨limit, hlimit, hle⟩ | hnil := h
  · have hlt := recordLimit_lt hread
    omega
  · have hroom := (asyncToRead_spec hread).2.2 limit hlimit
    have hlen := htake.length_le
    exact List.eq_nil_of_length_eq_zero (by omega)
  · exact (List.append_eq_nil_iff.mp (htake.rest_eq.symm.trans hnil)).1

theorem Exhausted.mono {unread' : List Byte} (h : Exhausted cfg unread records total)
    (hnil : unread = [] → unread' = []) : Exhausted cfg unread' records total :=
  h.imp_right fun h => h.imp_right hnil

/-- Blocks up to a reason to stop are the first bytes, unless it is the count of the records. -/
theorem Intaken.flatten_eq (h : Intaken cfg all unread blocks records total)
    (hdone : Exhausted cfg unread records total) :
    blocks.flatten <+: firstBytes cfg.bytesToCopy all ∧
      (blocks.flatten = firstBytes cfg.bytesToCopy all ∨ records = recordLimit cfg) := by
  have hall := h.all_eq
  have htotal := h.total_eq
  cases hlimit : cfg.bytesToCopy with
  | none =>
    refine ⟨⟨unread, hall.symm⟩, ?_⟩
    obtain hrecords | ⟨limit, hlimit', -⟩ | rfl := hdone
    · exact .inr hrecords
    · cases hlimit.symm.trans hlimit'
    · rw [List.append_nil] at hall
      exact .inl hall.symm
  | some limit =>
    have hle := h.total_le limit hlimit
    have htake : all.take limit = blocks.flatten ++ unread.take (limit - total) := by
      rw [hall, htotal, List.take_append, List.take_of_length_le (by omega)]
    refine ⟨⟨_, htake.symm⟩, ?_⟩
    obtain hrecords | ⟨limit', hlimit', hge⟩ | rfl := hdone
    · exact .inr hrecords
    · obtain rfl := Option.some.inj (hlimit.symm.trans hlimit')
      rw [Nat.sub_eq_zero_of_le hge, List.take_zero, List.append_nil] at htake
      exact .inl htake.symm
    · rw [List.take_nil, List.append_nil] at htake
      exact .inl htake.symm

end Reading

section Writing

variable {ctx ctx' : Ctx ρ ω} {slot : AsyncSlot} {writer : WriterAt}

theorem blocks_record (out : OutState ω) (file : ω) (wasSeek : Bool) (c : Call) :
    (out.record file wasSeek c).blocks = out.blocks ++ [c.buf] := by
  simp [OutState.record, OutState.blocks]

theorem ddIwrite_blocks {buf : List Byte} {n : Nat} {out out' : OutState ω}
    (h : ddIwrite O env cfg buf out = .ok (n, out')) : out'.blocks = out.blocks ++ [buf] := by
  have hall : ∀ out₁ : OutState ω, out₁.blocks = out.blocks →
      ddIwriteAll O env cfg.outputFlags.direct buf out₁ = .ok (n, out') →
      out'.blocks = out.blocks ++ [buf] := by
    intro out₁ hblocks h
    simp only [ddIwriteAll, bind_ok, pure_ok] at h
    obtain ⟨⟨file, total⟩, -, h⟩ := h
    obtain ⟨-, rfl⟩ := Prod.mk.inj h
    rw [blocks_record, hblocks]
  rw [ddIwrite] at h
  split at h
  · split at h
    · obtain ⟨-, rfl⟩ := Prod.mk.inj (Except.ok.inj h)
      exact blocks_record _ _ _ _
    · rename_i file _
      exact hall { out with file := file } rfl h
  · exact hall out rfl h

/-- The loop has not met a block that it could not read or write. -/
def WriterAt.sound : WriterAt → Bool
  | .flushing .failure | .stopping .failure | .joining .failure | .ended .failure => false
  | _ => true

/-- What is counted of the output. -/
structure Paid (ctx : Ctx ρ ω) (sound : Bool) : Prop where
  records_eq : ctx.stats.rPartial + ctx.stats.rFull = ctx.out.blocks.length
  delivered_eq : sound = true → ctx.out.delivered = ctx.out.blocks.flatten
  wBytes_eq : sound = true → ctx.stats.wBytes = ctx.out.blocks.flatten.length

/-- How the loop comes off a slot. -/
inductive Drained (ctx : Ctx ρ ω) (slot : AsyncSlot) : WriterAt → Ctx ρ ω → Prop where
  | failed (e : Errno) : slot.isEof = true → slot.err = some e →
      Drained ctx slot (.flushing .failure) ctx
  | ended : slot.isEof = true → slot.err = none → Drained ctx slot (.flushing .success) ctx
  | wrote (out : OutState ω) (stats : Stats) : slot.isEof = false →
      out.blocks = ctx.out.blocks ++ [slot.buf.take slot.nread] →
      (Paid ctx true → Paid { ctx with out := out, stats := stats } true) →
      Drained ctx slot .releasing { ctx with out := out, stats := stats }
  | broke (out : OutState ω) (stats : Stats) : slot.isEof = false →
      out.blocks = ctx.out.blocks ++ [slot.buf.take slot.nread] →
      (Paid ctx true → Paid { ctx with out := out, stats := stats } false) →
      Drained ctx slot (.flushing .failure) { ctx with out := out, stats := stats }

theorem asyncDrain_drained (hlen : slot.nread ≤ slot.buf.length)
    (h : asyncDrain O env ctx slot = .ok (writer, ctx')) : Drained ctx slot writer ctx' := by
  rw [asyncDrain] at h
  split at h
  · rename_i hend
    split at h
    · rename_i e herr
      obtain ⟨rfl, rfl⟩ := Prod.mk.inj (Except.ok.inj h)
      exact .failed e hend herr
    · rename_i herr
      obtain ⟨rfl, rfl⟩ := Prod.mk.inj (Except.ok.inj h)
      exact .ended hend herr
  · rename_i hdata
    have hdata := eq_false_of_ne_true hdata
    simp only [bind_ok] at h
    obtain ⟨⟨n, out⟩, hwrite, h⟩ := h
    have hblocks := ddIwrite_blocks hwrite
    have hdelivered := (ddIwrite_written hwrite).delivered_eq
    have hbuf : (slot.buf.take slot.nread).length = slot.nread := by
      rw [List.length_take, Nat.min_eq_left hlen]
    generalize hread : (if slot.nread = ctx.cfg.blocksize then
        { ctx.stats with rFull := ctx.stats.rFull + 1 }
      else { ctx.stats with rPartial := ctx.stats.rPartial + 1 }) = stats at h
    have hrecords : stats.rPartial + stats.rFull = ctx.stats.rPartial + ctx.stats.rFull + 1 := by
      rw [← hread]
      split_ifs <;> simp only <;> omega
    have hbytes : stats.wBytes = ctx.stats.wBytes := by
      rw [← hread]
      split_ifs <;> rfl
    have hcounted : Paid ctx true → stats.rPartial + stats.rFull = out.blocks.length := by
      intro hpaid
      rw [hrecords, hpaid.records_eq, hblocks, List.length_append, List.length_singleton]
    split at h
    · obtain ⟨rfl, rfl⟩ := Prod.mk.inj (pure_ok.mp h)
      refine .broke _ _ hdata hblocks fun hpaid => ⟨?_, nofun, nofun⟩
      split <;> exact hcounted hpaid
    · rename_i hwhole
      obtain rfl := not_not.mp hwhole
      obtain ⟨rfl, rfl⟩ := Prod.mk.inj (pure_ok.mp h)
      refine .wrote _ _ hdata hblocks fun hpaid => ⟨hcounted hpaid, fun _ => ?_, fun _ => ?_⟩
      · show out.delivered = out.blocks.flatten
        rw [hdelivered, hblocks, List.flatten_append, List.flatten_singleton,
          List.take_of_length_le (Nat.le_of_eq hbuf), hpaid.delivered_eq rfl]
      · show stats.wBytes + slot.nread = out.blocks.flatten.length
        rw [hbytes, hblocks, List.flatten_append, List.flatten_singleton, List.length_append,
          hbuf, hpaid.wBytes_eq rfl]

end Writing

section Queue

variable {reader : ReaderAt} {writer : WriterAt} {stop : Bool} {queue : List AsyncSlot}
  {slot : AsyncSlot} {ring : RingBuffer AsyncSlot} {capacity : Nat}

/-- How many of the filled slots the loop is through with. -/
def WriterAt.ahead : WriterAt → Nat
  | .releasing | .flushing .failure | .stopping .failure | .joining .failure | .ended .failure => 1
  | _ => 0

/-- The reader has not met the end of the stream. -/
def ReaderAt.running : ReaderAt → Bool
  | .waiting | .filling _ => true
  | _ => false

def ReaderAt.over : ReaderAt → Bool
  | .finishing | .ended => true
  | _ => false

/-- Each thread has the slot that is its own. -/
structure Ringed (capacity : Nat) (ring : RingBuffer AsyncSlot) (reader : ReaderAt)
    (writer : WriterAt) : Prop where
  valid : ring.Valid
  capacity_eq : ring.capacity = capacity
  reader_slot : ∀ i, reader.slot = some i → i = ring.tail ∧ ring.count < ring.capacity
  writer_slot : ∀ i, writer.slot = some i → i = ring.head ∧ 0 < ring.count
  ahead_le : writer.ahead ≤ ring.count

theorem Ringed.slots_ne {i j : Nat} (h : Ringed capacity ring reader writer)
    (hi : reader.slot = some i) (hj : writer.slot = some j) : i ≠ j := by
  obtain ⟨rfl, hroom⟩ := h.reader_slot i hi
  obtain ⟨rfl, hpos⟩ := h.writer_slot j hj
  exact (h.valid.head_ne_tail hpos hroom).symm

/-- A slot that ends the stream is the last one, and there is one when the reader has finished by
itself. -/
structure Queued (reader : ReaderAt) (stop : Bool) (queue : List AsyncSlot) : Prop where
  fits : ∀ slot ∈ queue, slot.nread ≤ slot.buf.length
  before_end : ∀ slot ∈ queue.dropLast, slot.isEof = false
  running : reader.running = true → ∀ slot ∈ queue, slot.isEof = false
  closed : reader.over = true →
    stop = true ∨ ∃ slot, queue.getLast? = some slot ∧ slot.isEof = true

/-- The reader fills one more slot. -/
theorem Queued.push {i : Nat} (h : Queued (.filling i) stop queue)
    (hfits : slot.nread ≤ slot.buf.length) : Queued (.publishing i) stop (queue ++ [slot]) where
  fits a ha := by
    rcases List.mem_append.mp ha with ha | ha
    · exact h.fits a ha
    · rwa [List.mem_singleton.mp ha]
  before_end a ha := by
    rw [List.dropLast_concat] at ha
    exact h.running rfl a ha
  running := nofun
  closed := nofun

/-- The reader goes on after a block, and ends after the last slot or when it is told to. -/
theorem Queued.publish {i : Nat} (h : Queued (.publishing i) stop (queue ++ [slot])) :
    Queued (if slot.isEof ∨ stop then .finishing else .waiting) stop (queue ++ [slot]) where
  fits := h.fits
  before_end := h.before_end
  running := by
    intro hr a ha
    split at hr
    · cases hr
    · rename_i hgoes
      rcases List.mem_append.mp ha with ha | ha
      · refine h.before_end a ?_
        rwa [List.dropLast_concat]
      · rw [List.mem_singleton.mp ha]
        exact eq_false_of_ne_true fun he => hgoes (.inl he)
  closed := by
    intro hr
    by_cases hstop : stop = true
    · exact .inl hstop
    by_cases hend : slot.isEof = true
    · exact .inr ⟨slot, List.getLast?_concat, hend⟩
    · rw [if_neg (by simp [hstop, hend])] at hr
      cases hr

/-- The loop releases a block. -/
theorem Queued.pop (h : Queued reader stop (slot :: queue)) (hdata : slot.isEof = false) :
    Queued reader stop queue where
  fits a ha := h.fits a (List.mem_cons_of_mem _ ha)
  before_end a ha := by
    refine h.before_end a ?_
    rw [List.dropLast_cons_of_ne_nil fun hnil => by simp [hnil] at ha]
    exact List.mem_cons_of_mem _ ha
  running hr a ha := h.running hr a (List.mem_cons_of_mem _ ha)
  closed hr := by
    refine (h.closed hr).imp_right fun ⟨last, hlast, hend⟩ => ?_
    cases queue with
    | nil =>
      obtain rfl := Option.some.inj hlast
      cases hdata.symm.trans hend
    | cons a queue => exact ⟨last, hlast, hend⟩

theorem block_of_eof (h : slot.isEof = true) : slot.block = none := if_pos h

theorem block_of_data (h : slot.isEof = false) : slot.block = some (slot.buf.take slot.nread) :=
  if_neg (Bool.not_eq_true _ ▸ h)

/-- Behind the end of the stream there is nothing. -/
theorem Queued.eq_singleton (h : Queued reader stop (slot :: queue)) (hend : slot.isEof = true) :
    queue = [] := by
  cases queue with
  | nil => rfl
  | cons a queue =>
    have hdata := h.before_end slot (by simp)
    cases hend.symm.trans hdata

end Queue

section Invariant

variable {start : Ctx ρ ω} {capacity : Nat} {s t : AsyncState ρ ω} {a : AsyncAct}

/-- The loop has left, or will leave, with success. -/
def WriterAt.content : WriterAt → Bool
  | .flushing .success | .stopping .success | .joining .success | .ended .success => true
  | _ => false

/-- The reader was told to stop. -/
def WriterAt.stopped : WriterAt → Bool
  | .joining _ | .ended _ => true
  | _ => false

/-- Nothing more comes from the input. -/
def AsyncState.Through (rest : ρ → List Byte) (cfg : Config) (s : AsyncState ρ ω) : Prop :=
  Exhausted cfg (rest s.ctx.input) s.recordsDone s.totalBytesRead

structure AsyncInv (rest : ρ → List Byte) (start : Ctx ρ ω) (capacity : Nat)
    (s : AsyncState ρ ω) : Prop where
  ringed : Ringed capacity s.ring s.reader s.writer
  cfg_eq : s.ctx.cfg = start.cfg
  pending_eq : s.ctx.pending = []
  intaken : Intaken start.cfg (rest start.input) (rest s.ctx.input) s.blocksRead s.recordsDone
    s.totalBytesRead
  paid : Paid s.ctx s.writer.sound
  queued : Queued s.reader s.stopRequested s.queue
  ends : ∀ slot ∈ s.queue, slot.isEof = true → slot.err = none → s.Through rest start.cfg
  blocks_eq : s.blocksRead =
    s.ctx.out.blocks ++ (s.queue.drop s.writer.ahead).filterMap AsyncSlot.block
  head_data : s.writer = .releasing → ∀ slot, s.queue.head? = some slot → slot.isEof = false
  through : s.writer.content = true →
    s.Through rest start.cfg ∧ s.blocksRead = s.ctx.out.blocks
  stop_late : s.stopRequested = true → s.writer.stopped = true
  done_ended : s.readerDone = true → s.reader = .ended
  fits : start.cfg.maxBytes ≤ start.cfg.blocksize → s.reader ≠ .overrun

theorem asyncDriverInit_inv (hfresh : Fresh start) (hcap : 0 < capacity) :
    AsyncInv rest start capacity (asyncDriverInit env start capacity) := by
  obtain ⟨unified, obufSize, halloc⟩ := ddAllocObuf_ctx env start
  have hblocks : start.out.blocks = [] := by rw [OutState.blocks, hfresh.calls_eq]; rfl
  rw [asyncDriverInit, halloc]
  refine {
    ringed := ⟨⟨Nat.zero_le _, hcap, (Nat.zero_mod _).symm⟩, rfl, nofun, nofun, Nat.zero_le _⟩
    cfg_eq := rfl
    pending_eq := hfresh.pending_eq
    intaken := ⟨rfl, nofun, rfl, rfl, Nat.zero_le _, fun _ _ => Nat.zero_le _⟩
    paid := ⟨?_, fun _ => ?_, fun _ => ?_⟩
    queued := ⟨nofun, nofun, fun _ => nofun, nofun⟩
    ends := nofun
    blocks_eq := ?_
    head_data := nofun
    through := nofun
    stop_late := nofun
    done_ended := nofun
    fits := fun _ => nofun }
  · simp only [hfresh.stats_eq, hblocks]
    rfl
  · simp only [hblocks, OutState.delivered, hfresh.calls_eq]
    rfl
  · simp only [hfresh.stats_eq, hblocks]
    rfl
  · simp only [hblocks]
    rfl

/-- The reader puts a slot where it is to be published. -/
theorem AsyncInv.fill (h : AsyncInv rest start capacity s) {i : Nat} (hr : s.reader = .filling i)
    {slot : AsyncSlot} {input : ρ} {records total : Nat} {blocks : List (List Byte)}
    (hlen : slot.nread ≤ slot.buf.length)
    (hin : Intaken start.cfg (rest start.input) (rest input) blocks records total)
    (hblocks : blocks = s.blocksRead ++ slot.block.toList)
    (hthrough : s.Through rest start.cfg →
      Exhausted start.cfg (rest input) records total ∧ slot.block = none)
    (hend : slot.isEof = true → slot.err = none →
      Exhausted start.cfg (rest input) records total) :
    AsyncInv rest start capacity { s with
      ctx := { s.ctx with input := input }
      ring := s.ring.store i slot
      recordsDone := records
      totalBytesRead := total
      reader := .publishing i
      blocksRead := blocks } := by
  obtain ⟨ctx, ring, stop, done, records₀, total₀, reader, writer, blocks₀⟩ := s
  obtain rfl : reader = .filling i := hr
  obtain ⟨htail, hroom⟩ := h.ringed.reader_slot i rfl
  simp only at htail hroom
  have hqueue : ring.contents ++ [] = ring.contents := List.append_nil _
  have hnew : (ring.store i slot).contents ++ [(ring.store i slot).slots i] =
      ring.contents ++ [slot] := by
    rw [RingBuffer.store_slots_self, htail, h.ringed.valid.contents_store hroom]
  have hqueued := h.queued
  have hahead : writer.ahead ≤ ring.contents.length := by
    rw [RingBuffer.contents_length]
    exact h.ringed.ahead_le
  simp only [AsyncState.queue, AsyncState.inHand, hqueue] at hqueued
  have hblocks_eq := h.blocks_eq
  have hhead := h.head_data
  simp only [AsyncState.queue, AsyncState.inHand, hqueue] at hblocks_eq hhead
  constructor
  case ringed =>
    exact ⟨h.ringed.valid.store i slot, h.ringed.capacity_eq,
      fun j hj => ⟨(Option.some.inj hj).symm.trans htail, hroom⟩, h.ringed.writer_slot,
      h.ringed.ahead_le⟩
  case cfg_eq => exact h.cfg_eq
  case pending_eq => exact h.pending_eq
  case intaken => exact hin
  case paid => exact ⟨h.paid.records_eq, h.paid.delivered_eq, h.paid.wBytes_eq⟩
  case queued =>
    simp only [AsyncState.queue, AsyncState.inHand, hnew]
    exact hqueued.push hlen
  case ends =>
    simp only [AsyncState.queue, AsyncState.inHand, hnew]
    intro a ha he herr
    rcases List.mem_append.mp ha with ha | ha
    · cases (hqueued.running rfl a ha).symm.trans he
    · rw [List.mem_singleton.mp ha] at he herr
      exact hend he herr
  case blocks_eq =>
    simp only [AsyncState.queue, AsyncState.inHand, hnew]
    rw [hblocks, hblocks_eq, List.drop_append_of_le_length hahead, List.filterMap_append,
      List.append_assoc]
    cases hb : slot.block <;> simp [hb]
  case head_data =>
    simp only [AsyncState.queue, AsyncState.inHand, hnew]
    intro hw a ha
    have hpos : ring.contents ≠ [] := by
      intro hnil
      rw [hnil, show writer = .releasing from hw] at hahead
      exact absurd hahead (by decide)
    rw [List.head?_append_of_ne_nil _ hpos] at ha
    exact hhead hw a ha
  case through =>
    intro hw
    obtain ⟨hdone, hwritten⟩ := h.through hw
    obtain ⟨hdone, hnone⟩ := hthrough hdone
    refine ⟨hdone, ?_⟩
    show blocks = _
    rw [hblocks, hnone, Option.toList_none, List.append_nil]
    exact hwritten
  case stop_late => exact h.stop_late
  case done_ended =>
    intro hdone
    cases h.done_ended hdone
  case fits => exact fun _ => nofun

/-- The reader goes on with nothing in hand before or after. -/
theorem AsyncInv.goes (h : AsyncInv rest start capacity s) (reader : ReaderAt) (done : Bool)
    (hold : s.inHand = []) (hnew : ∀ i, reader ≠ .publishing i)
    (hslot : ∀ i, reader.slot = some i → i = s.ring.tail ∧ s.ring.count < s.ring.capacity)
    (hqueued : Queued s.reader s.stopRequested s.queue → Queued reader s.stopRequested s.queue)
    (hdone : done = true → reader = .ended)
    (hfits : start.cfg.maxBytes ≤ start.cfg.blocksize → reader ≠ .overrun) :
    AsyncInv rest start capacity { s with reader := reader, readerDone := done } := by
  have hqueue : AsyncState.queue { s with reader := reader, readerDone := done } = s.queue := by
    rw [AsyncState.queue, AsyncState.queue, hold, AsyncState.inHand]
    cases reader with
    | publishing i => exact absurd rfl (hnew i)
    | _ => rfl
  constructor
  case ringed =>
    exact ⟨h.ringed.valid, h.ringed.capacity_eq, hslot, h.ringed.writer_slot, h.ringed.ahead_le⟩
  case queued =>
    rw [hqueue]
    exact hqueued h.queued
  case ends =>
    rw [hqueue]
    exact h.ends
  case blocks_eq =>
    rw [hqueue]
    exact h.blocks_eq
  case head_data =>
    rw [hqueue]
    exact h.head_data
  case cfg_eq => exact h.cfg_eq
  case pending_eq => exact h.pending_eq
  case intaken => exact h.intaken
  case paid => exact h.paid
  case through => exact h.through
  case stop_late => exact h.stop_late
  case done_ended => exact hdone
  case fits => exact hfits

theorem inHand_nil (h : ∀ i, s.reader ≠ .publishing i) : s.inHand = [] := by
  rw [AsyncState.inHand]
  split
  · exact absurd ‹_› (h _)
  · rfl

theorem block_close (slot : AsyncSlot) (err : Option Errno) : (slot.close err).block = none := rfl

theorem block_fill (slot : AsyncSlot) (bytes : List Byte) :
    (slot.fill bytes).block = some bytes := by
  simp [AsyncSlot.block, AsyncSlot.fill, readInto]

theorem AsyncInv.closeSlot (h : AsyncInv rest start capacity s) {i : Nat}
    (hr : s.reader = .filling i) {input : ρ} {err : Option Errno}
    (hrest : rest input = rest s.ctx.input)
    (hend : err = none → s.Through rest start.cfg) :
    AsyncInv rest start capacity ((s.readOn input).closeSlot i err) := by
  refine h.fill hr (Nat.zero_le _) (by rw [hrest]; exact h.intaken) ?_ ?_ ?_
  · rw [block_close, Option.toList_none, List.append_nil]
    rfl
  · rw [hrest]
    exact fun hdone => ⟨hdone, rfl⟩
  · rw [hrest]
    exact fun _ => hend

theorem AsyncInv.fillSlot (law : ReadsFrom I rest) (hpos : 0 < start.cfg.blocksize)
    (h : AsyncInv rest start capacity s) {i n : Nat} {r : Except Errno (List Byte)} {input : ρ}
    (hr : s.reader = .filling i)
    (hn : asyncToRead s.ctx.cfg s.recordsDone s.totalBytesRead = some n)
    (hread : ddIread I env s.ctx.cfg.inputFlags.direct s.ctx.input n = .ok (r, input)) :
    AsyncInv rest start capacity (s.fillSlot i r input) := by
  have htook := law.ddIread hread
  rw [h.cfg_eq] at hn
  cases r with
  | error e => exact h.closeSlot hr htook nofun
  | ok bytes =>
    cases bytes with
    | nil =>
      -- a read of some bytes brings none at the end of the input only
      have hnil : rest s.ctx.input = [] :=
        (htook.at_end rfl).resolve_left (Nat.ne_of_gt ((asyncToRead_spec hn).2.1 hpos))
      exact h.closeSlot hr htook.rest_eq.symm fun _ => .inr (.inr hnil)
    | cons b bytes =>
      simp only [AsyncState.fillSlot]
      split
      · rename_i hover
        refine h.goes .overrun s.readerDone (inHand_nil (by rw [hr]; nofun)) nofun nofun
          (fun hq => ⟨hq.fits, hq.before_end, nofun, nofun⟩) (fun hdone => ?_) fun hmax _ => ?_
        · cases hr.symm.trans (h.done_ended hdone)
        · have hn := (asyncToRead_spec hn).1
          have hle := htook.length_le
          rw [h.cfg_eq] at hover
          split_ifs at hn <;> omega
      · exact h.fill hr (by simp [AsyncSlot.fill, readInto])
          (h.intaken.read hn htook (List.cons_ne_nil b bytes))
          (by rw [block_fill]; rfl)
          (fun hdone => absurd (hdone.nothing hn htook) (List.cons_ne_nil b bytes))
          nofun

/-- The reader counts the slot it has filled. -/
theorem AsyncInv.publish (h : AsyncInv rest start capacity s) {i : Nat}
    (hr : s.reader = .publishing i) :
    AsyncInv rest start capacity { s with
      ring := s.ring.advanceTail
      reader := if (s.ring.slots i).isEof ∨ s.stopRequested then .finishing else .waiting } := by
  obtain ⟨ctx, ring, stop, done, records, total, reader, writer, blocks⟩ := s
  obtain rfl : reader = .publishing i := hr
  obtain ⟨htail, hroom⟩ := h.ringed.reader_slot i rfl
  simp only at htail hroom
  have hnext : ∀ j, (if (ring.slots i).isEof ∨ stop then ReaderAt.finishing else .waiting) ≠
      .publishing j := by
    intro j
    split <;> nofun
  have hqueue : AsyncState.queue (⟨ctx, ring.advanceTail, stop, done, records, total,
      if (ring.slots i).isEof ∨ stop then .finishing else .waiting, writer, blocks⟩ :
      AsyncState ρ ω) = ring.contents ++ [ring.slots i] := by
    rw [AsyncState.queue, inHand_nil hnext, List.append_nil, htail]
    exact h.ringed.valid.contents_advanceTail
  have hqueued := h.queued.publish
  constructor
  case ringed =>
    refine ⟨h.ringed.valid.advanceTail hroom, h.ringed.capacity_eq, fun j hj => ?_, fun j hj => ?_,
      h.ringed.ahead_le.trans (Nat.le_succ _)⟩
    · simp only at hj
      split at hj <;> cases hj
    · obtain ⟨hhead, hpos⟩ := h.ringed.writer_slot j hj
      exact ⟨hhead, Nat.succ_pos _⟩
  case queued =>
    rw [hqueue]
    exact hqueued
  case ends =>
    rw [hqueue]
    exact h.ends
  case blocks_eq =>
    rw [hqueue]
    exact h.blocks_eq
  case head_data =>
    rw [hqueue]
    exact h.head_data
  case cfg_eq => exact h.cfg_eq
  case pending_eq => exact h.pending_eq
  case intaken => exact h.intaken
  case paid => exact h.paid
  case through => exact h.through
  case stop_late => exact h.stop_late
  case done_ended =>
    intro hdone
    cases h.done_ended hdone
  case fits =>
    intro _ hr
    simp only at hr
    split at hr <;> cases hr

/-- The loop goes on; the slots stay. -/
theorem AsyncInv.turns (h : AsyncInv rest start capacity s) (ctx : Ctx ρ ω) (stop : Bool)
    (writer : WriterAt) (hcfg : ctx.cfg = s.ctx.cfg) (hpending : ctx.pending = [])
    (hinput : ctx.input = s.ctx.input) (hpaid : Paid ctx writer.sound)
    (hslot : ∀ i, writer.slot = some i → i = s.ring.head ∧ 0 < s.ring.count)
    (hahead : writer.ahead ≤ s.ring.count)
    (hblocks : s.blocksRead =
      ctx.out.blocks ++ (s.queue.drop writer.ahead).filterMap AsyncSlot.block)
    (hhead : writer = .releasing → ∀ slot, s.queue.head? = some slot → slot.isEof = false)
    (hthrough : writer.content = true →
      s.Through rest start.cfg ∧ s.blocksRead = ctx.out.blocks)
    (hmono : s.stopRequested = true → stop = true) (hstop : stop = true → writer.stopped = true) :
    AsyncInv rest start capacity { s with
      ctx := ctx, stopRequested := stop, writer := writer } where
  ringed :=
    ⟨h.ringed.valid, h.ringed.capacity_eq, h.ringed.reader_slot, hslot, hahead⟩
  cfg_eq := hcfg.trans h.cfg_eq
  pending_eq := hpending
  intaken := by
    simp only [hinput]
    exact h.intaken
  paid := hpaid
  queued := ⟨h.queued.fits, h.queued.before_end, h.queued.running,
    fun hr => (h.queued.closed hr).imp_left hmono⟩
  ends := by
    simp only [AsyncState.Through, hinput]
    exact h.ends
  blocks_eq := hblocks
  head_data := hhead
  through := by
    simp only [AsyncState.Through, hinput]
    exact hthrough
  stop_late := hstop
  done_ended := h.done_ended
  fits := h.fits

/-- The queue begins with the slot that the loop has. -/
theorem AsyncInv.queue_eq (h : AsyncInv rest start capacity s) (hpos : 0 < s.ring.count) :
    s.queue = s.ring.slots s.ring.head :: (s.ring.advanceHead.contents ++ s.inHand) := by
  rw [AsyncState.queue, h.ringed.valid.contents_advanceHead hpos, List.cons_append]

theorem AsyncInv.drain (h : AsyncInv rest start capacity s) {i : Nat} {writer : WriterAt}
    {ctx : Ctx ρ ω} (hw : s.writer = .draining i)
    (hdrain : asyncDrain O env s.ctx (s.ring.slots i) = .ok (writer, ctx)) :
    AsyncInv rest start capacity { s with ctx := ctx, writer := writer } := by
  obtain ⟨rfl, hpos⟩ := h.ringed.writer_slot i (by rw [hw]; rfl)
  have hqueue := h.queue_eq hpos
  have hmem : s.ring.slots s.ring.head ∈ s.queue := by
    rw [hqueue]
    exact List.mem_cons_self
  have hblocks := h.blocks_eq
  have hpaid := h.paid
  rw [hw] at hblocks hpaid
  have hrunning : s.stopRequested = false := by
    refine eq_false_of_ne_true fun hstop => ?_
    have hstopped := h.stop_late hstop
    rw [hw] at hstopped
    cases hstopped
  have hnever : ∀ {p : Prop}, s.stopRequested = true → p := by
    rw [hrunning]
    nofun
  have hqueued := h.queued
  rw [hqueue] at hqueued
  cases asyncDrain_drained (h.queued.fits _ hmem) hdrain with
  | failed e hend herr =>
    refine h.turns _ _ _ rfl h.pending_eq rfl ⟨hpaid.records_eq, nofun, nofun⟩ nofun hpos ?_ nofun
      nofun id hnever
    rw [hblocks, hqueue]
    simp [WriterAt.ahead, block_of_eof hend]
  | ended hend herr =>
    have hlast := hqueued.eq_singleton hend
    have hall : s.blocksRead = s.ctx.out.blocks := by
      rw [hblocks, hqueue, hlast]
      simp [WriterAt.ahead, block_of_eof hend]
    exact h.turns _ _ _ rfl h.pending_eq rfl hpaid nofun (Nat.zero_le _) hblocks nofun
      (fun _ => ⟨h.ends _ hmem hend herr, hall⟩) id hnever
  | wrote out stats hdata hout hpay =>
    refine h.turns _ _ _ rfl h.pending_eq rfl (hpay hpaid) nofun hpos ?_ (fun _ a ha => ?_) nofun id
      hnever
    · rw [hblocks, hqueue, hout]
      simp [WriterAt.ahead, block_of_data hdata]
    · rw [hqueue] at ha
      rwa [← Option.some.inj ha]
  | broke out stats hdata hout hpay =>
    refine h.turns _ _ _ rfl h.pending_eq rfl (hpay hpaid) nofun hpos ?_ nofun nofun id hnever
    rw [hblocks, hqueue, hout]
    simp [WriterAt.ahead, block_of_data hdata]

/-- The loop gives a slot back. -/
theorem AsyncInv.release (h : AsyncInv rest start capacity s) (hw : s.writer = .releasing) :
    AsyncInv rest start capacity { s with ring := s.ring.advanceHead, writer := .looping } := by
  have hpos : 0 < s.ring.count := by
    have hahead := h.ringed.ahead_le
    rwa [hw] at hahead
  have hqueue := h.queue_eq hpos
  have hdata := h.head_data hw (s.ring.slots s.ring.head) (by rw [hqueue]; rfl)
  have hqueued := h.queued
  have hends := h.ends
  have hblocks := h.blocks_eq
  have hpaid := h.paid
  rw [hqueue] at hqueued hends hblocks
  rw [hw] at hblocks hpaid
  refine {
    ringed := ⟨h.ringed.valid.advanceHead hpos, h.ringed.capacity_eq, fun i hi => ?_, nofun,
      Nat.zero_le _⟩
    cfg_eq := h.cfg_eq
    pending_eq := h.pending_eq
    intaken := h.intaken
    paid := hpaid
    queued := hqueued.pop hdata
    ends := fun a ha => hends a (List.mem_cons_of_mem _ ha)
    blocks_eq := hblocks
    head_data := nofun
    through := nofun
    stop_late := fun hstop => ?_
    done_ended := h.done_ended
    fits := h.fits }
  · obtain ⟨htail, hroom⟩ := h.ringed.reader_slot i hi
    exact ⟨htail, Nat.lt_of_le_of_lt (Nat.sub_le _ _) hroom⟩
  · have hstopped := h.stop_late hstop
    rw [hw] at hstopped
    cases hstopped

theorem finalizeSparse_ctx (ctx : Ctx ρ ω) : ∃ file wasSeek, finalizeSparse O ctx =
    { ctx with out := ⟨file, wasSeek, ctx.out.calls⟩ } := by
  rw [finalizeSparse]
  split <;> exact ⟨_, _, rfl⟩

/-- When a limit is reached all that was read is written. -/
theorem AsyncInv.limited (h : AsyncInv rest start capacity s) (hw : s.writer = .looping)
    (hlimit : limitReached s.ctx.cfg s.ctx.stats = true) :
    s.Through rest start.cfg ∧ s.blocksRead = s.ctx.out.blocks := by
  have hblocks := h.blocks_eq
  have hpaid := h.paid
  rw [hw] at hblocks hpaid
  have hrecords := h.intaken.records_eq
  have htotal := h.intaken.total_eq
  generalize hwaiting : (s.queue.drop WriterAt.looping.ahead).filterMap AsyncSlot.block =
    waiting at hblocks
  have hnil : waiting.flatten = [] → waiting = [] := by
    intro hflat
    refine List.eq_nil_iff_forall_not_mem.mpr fun b hb => ?_
    refine h.intaken.nonempty b ?_ (List.flatten_eq_nil_iff.mp hflat b hb)
    rw [hblocks]
    exact List.mem_append_right _ hb
  rw [limitReached, h.cfg_eq] at hlimit
  split at hlimit
  · rename_i limit hcfg
    have hle := h.intaken.total_le limit hcfg
    have hlimit := of_decide_eq_true hlimit
    rw [hpaid.wBytes_eq rfl] at hlimit
    rw [hblocks, List.flatten_append, List.length_append] at htotal
    have hwritten := hnil (List.eq_nil_of_length_eq_zero (by omega))
    refine ⟨.inr (.inl ⟨limit, hcfg, by omega⟩), ?_⟩
    rw [hblocks, hwritten, List.append_nil]
  · have hlimit := of_decide_eq_true hlimit
    have hle := h.intaken.records_le
    rw [hpaid.records_eq, ← recordLimit] at hlimit
    rw [hblocks, List.length_append] at hrecords
    have hwritten : waiting = [] := List.eq_nil_of_length_eq_zero (by omega)
    refine ⟨.inl (by omega), ?_⟩
    rw [hblocks, hwritten, List.append_nil]

/-- A reader that ended by itself left the end of the stream in the queue. -/
theorem AsyncInv.not_drained (h : AsyncInv rest start capacity s) (hw : s.writer = .looping)
    (hcount : s.ring.count = 0) (hdone : s.readerDone = true) : False := by
  have hr := h.done_ended hdone
  have hqueue : s.queue = [] := by
    rw [AsyncState.queue, RingBuffer.contents_eq_nil.mpr hcount,
      inHand_nil (by rw [hr]; nofun), List.append_nil]
  rcases h.queued.closed (by rw [hr]; rfl) with hstop | ⟨slot, hlast, -⟩
  · have hstopped := h.stop_late hstop
    rw [hw] at hstopped
    cases hstopped
  · rw [hqueue] at hlast
    cases hlast

theorem asyncStep_inv (law : ReadsFrom I rest) (hpos : 0 < start.cfg.blocksize)
    (h : AsyncInv rest start capacity s) (hs : AsyncStep I O env s a t) :
    AsyncInv rest start capacity t := by
  have hblocks := h.blocks_eq
  have hpaid := h.paid
  have hthrough := h.through
  have hahead := h.ringed.ahead_le
  have hstop := h.stop_late
  cases hs with
  | acquires hr hrun hfull =>
    refine h.goes _ _ (inHand_nil (by rw [hr]; simp)) (by simp) (fun i hi => ?_) (fun hq => ?_)
      (fun hdone => ?_) fun _ => by simp
    · exact ⟨(Option.some.inj hi).symm, Nat.lt_of_le_of_ne h.ringed.valid.count_le hfull⟩
    · rw [hr] at hq
      exact ⟨hq.fits, hq.before_end, fun _ => hq.running rfl, fun h => by cases h⟩
    · cases hr.symm.trans (h.done_ended hdone)
  | stopsEarly hr hstopped =>
    refine h.goes _ _ (inHand_nil (by rw [hr]; simp)) (by simp) (fun _ h => by cases h)
      (fun hq => ?_) (fun hdone => ?_) fun _ => by simp
    · exact ⟨hq.fits, hq.before_end, (fun h => by cases h), fun _ => .inl hstopped⟩
    · cases hr.symm.trans (h.done_ended hdone)
  | meetsLimit i hr hnone =>
    rw [h.cfg_eq] at hnone
    exact h.closeSlot hr rfl fun _ => h.intaken.exhausted_of_none hnone
  | reads i n r input hr hn hread => exact h.fillSlot law hpos hr hn hread
  | publishes i hr => exact h.publish hr
  | finishes hr =>
    refine h.goes _ _ (inHand_nil (by rw [hr]; simp)) (by simp) (fun _ h => by cases h)
      (fun hq => ?_) (fun _ => rfl) fun _ => by simp
    rw [hr] at hq
    exact ⟨hq.fits, hq.before_end, (fun h => by cases h), fun _ => hq.closed rfl⟩
  | leaves hw hlimit =>
    rw [hw] at hblocks hpaid hstop
    exact h.turns _ _ _ rfl h.pending_eq rfl hpaid (fun _ h => by cases h) (Nat.zero_le _)
      hblocks (by simp) (fun _ => h.limited hw hlimit) id hstop
  | takes hw hlimit hpos =>
    rw [hw] at hblocks hpaid hstop
    exact h.turns _ _ _ rfl h.pending_eq rfl hpaid
      (fun i hi => ⟨(Option.some.inj hi).symm, hpos⟩) (Nat.zero_le _) hblocks (by simp)
      (fun h => by cases h) id hstop
  | findsDone hw hlimit hcount hdone => exact (h.not_drained hw hcount hdone).elim
  | drains i writer ctx hw hdrain => exact h.drain hw hdrain
  | releases hw => exact h.release hw
  | flushes status ctx hw hflush =>
    rw [flushPending, if_pos h.pending_eq] at hflush
    obtain rfl := Except.ok.inj hflush
    rw [hw] at hblocks hpaid hthrough hahead hstop
    cases status <;>
    exact h.turns _ _ _ rfl h.pending_eq rfl hpaid (fun _ h => by cases h) hahead
      hblocks (by simp) hthrough id hstop
  | stops status hw =>
    rw [hw] at hblocks hpaid hthrough hahead
    cases status <;>
    exact h.turns _ _ _ rfl h.pending_eq rfl hpaid (fun _ h => by cases h) hahead
      hblocks (by simp) hthrough (fun _ => rfl) fun _ => rfl
  | joins status hw hr =>
    rw [hw] at hblocks hpaid hthrough hahead
    obtain ⟨file, wasSeek, hfinal⟩ := finalizeSparse_ctx (O := O) s.ctx
    have hpaid' : Paid { s.ctx with out := ⟨file, wasSeek, s.ctx.out.calls⟩ }
        (WriterAt.joining status).sound :=
      ⟨hpaid.records_eq, hpaid.delivered_eq, hpaid.wBytes_eq⟩
    rw [hfinal]
    cases status <;>
    exact h.turns _ _ _ rfl h.pending_eq rfl hpaid' (fun _ h => by cases h) hahead
      hblocks (by simp) hthrough id fun _ => rfl

theorem async_invariant {input : ρ} {file : ω} (hpos : 0 < cfg.blocksize) (hcap : 2 ≤ capacity)
    (law : ReadsFrom I rest)
    (hbegin : ddCopyStart I O env (.start cfg input file) = .ok (none, start))
    (h : (asyncSystem I O env start capacity).Reachable s) : AsyncInv rest start capacity s := by
  obtain ⟨hfresh, -⟩ := ddCopyStart_fresh hpos hbegin
  refine h.invariant (fun s hs => ?_) fun s a t hinv hs => ?_
  · rw [hs]
    exact asyncDriverInit_inv hfresh (by omega)
  · exact asyncStep_inv law hfresh.block_pos hinv hs

/-- Whatever the order of the steps: the ring never holds more than it can, nor is an empty one
drained; the slot that is filled is not the slot that is drained; a read fits in its slot; the
blocks are written in the order in which they were read, none lost or repeated; and a copy that
ends well has written all that was read, the first bytes up to the limit, unless the records were
used up. -/
theorem async_ring_fifo {input : ρ} {file : ω} (hpos : 0 < cfg.blocksize) (hcap : 2 ≤ capacity)
    (law : ReadsFrom I rest)
    (hbegin : ddCopyStart I O env (.start cfg input file) = .ok (none, start))
    (h : (asyncSystem I O env start capacity).Reachable s) :
    s.ring.count ≤ capacity ∧
    (s.writer = .releasing → 0 < s.ring.count) ∧
    (∀ i j, s.reader.slot = some i → s.writer.slot = some j → i ≠ j) ∧
    (cfg.maxBytes ≤ cfg.blocksize → s.reader ≠ .overrun) ∧
    s.ctx.out.blocks <+: s.blocksRead ∧
    (s.writer = .ended .success →
      s.ctx.out.blocks = s.blocksRead ∧
      s.ctx.out.delivered = s.blocksRead.flatten ∧
      s.ctx.out.delivered <+: firstBytes cfg.bytesToCopy (rest start.input) ∧
      (s.ctx.out.delivered = firstBytes cfg.bytesToCopy (rest start.input) ∨
        s.blocksRead.length = recordLimit cfg)) := by
  have hinv := async_invariant hpos hcap law hbegin h
  obtain ⟨-, _, _, hcfg⟩ := ddCopyStart_fresh hpos hbegin
  have hfit := hinv.fits
  have hringed := hinv.ringed
  rw [hcfg] at hfit
  refine ⟨?_, fun hw => ?_, fun i j hi hj => hringed.slots_ne hi hj, hfit, ?_, fun hw => ?_⟩
  · rw [← hringed.capacity_eq]
    exact hringed.valid.count_le
  · have hahead := hringed.ahead_le
    rwa [hw] at hahead
  · exact ⟨_, hinv.blocks_eq.symm⟩
  · obtain ⟨hdone, hall⟩ := hinv.through (by rw [hw]; rfl)
    have hdelivered := hinv.paid.delivered_eq (by rw [hw]; rfl)
    rw [← hall] at hdelivered
    obtain ⟨hfirst, hwhole⟩ := hinv.intaken.flatten_eq hdone
    rw [← hdelivered, hinv.intaken.records_eq, hcfg] at hwhole
    rw [← hdelivered, hcfg] at hfirst
    exact ⟨hall.symm, hdelivered, hfirst, hwhole⟩

end Invariant

section Example

def asyncStart : Ctx (List Byte) (List Byte × Nat) :=
  .start { blocksize := 2, bytesToCopy := some 2 } [1, 2, 3] ([], 0)

theorem async_ring_fifo_limit : ∃ (start : Ctx (List Byte) (List Byte × Nat))
    (s : AsyncState (List Byte) (List Byte × Nat)),
    (asyncSystem contentInput contentOutput (plainEnv 3) start 2).Reachable s ∧
      s.writer = .ended .success ∧ s.ctx.out.blocks = [[1, 2]] ∧
      (s.ctx.out.delivered = firstBytes (some 2) (id start.input) ∨
        s.blocksRead.length = recordLimit asyncStart.cfg) := by
  obtain ⟨start, hbegin⟩ : ∃ start, ddCopyStart contentInput contentOutput (plainEnv 3) asyncStart =
    .ok (none, start) := ⟨_, rfl⟩
  obtain rfl : asyncStart = start := (Prod.mk.inj (Except.ok.inj hbegin)).2
  have hinit : (asyncSystem contentInput contentOutput (plainEnv 3) asyncStart 2).Reachable _ :=
    .init rfl
  have h₁ := hinit.step (.acquires _ rfl rfl (by decide))
  have h₂ := h₁.step (.reads _ 0 2 _ _ rfl rfl rfl)
  have h₃ := h₂.step (.publishes _ 0 rfl)
  have h₄ := h₃.step (.takes _ rfl rfl (by decide))
  have h₅ := h₄.step (.drains _ 0 _ _ rfl rfl)
  have h₆ := h₅.step (.releases _ rfl)
  have h₇ := h₆.step (.leaves _ rfl rfl)
  have h₈ := h₇.step (.flushes _ .success _ rfl rfl)
  have h₉ := h₈.step (.stops _ .success rfl)
  have h₁₀ := h₉.step (.stopsEarly _ rfl rfl)
  have h₁₁ := h₁₀.step (.finishes _ rfl)
  have h₁₂ := h₁₁.step (.joins _ .success rfl rfl)
  have hfifo := async_ring_fifo (by decide) (by decide) contentInput_readsFrom hbegin h₁₂
  exact ⟨asyncStart, _, h₁₂, rfl, rfl, (hfifo.2.2.2.2.2 rfl).2.2.2⟩

end Example

end Blkcp.C
