import Blkcp.Blks.Base64
import Blkcp.Lib.JsonPrint
import Blkcp.C.TuiCommand
import Blkcp.Rust.Config
set_option autoImplicit false

/-! The lines of JSON that the programs print while they copy and when they are done (`stats.c`,
`stats.rs`): what a reader gets from them. -/

namespace Blkcp
open Blkcp.Lib Blkcp.Lib.Json

/-- A finite number that is not negative, as it is printed with some decimals. No time and no rate
that the programs measure has more digits. -/
structure Fixed (decimals : Nat) where
  whole : Nat
  fraction : JsonText
  whole_lt : whole < 10 ^ (30 - decimals)
  length_eq : fraction.length = decimals
  digits : ∀ c ∈ fraction, c.isDigit = true

/-- With the decimal point of a locale. -/
def Fixed.print {decimals : Nat} (point : Char) (x : Fixed decimals) : JsonText :=
  Nat.toDigits 10 x.whole ++ if decimals = 0 then [] else point :: x.fraction

namespace C

def formatJsonDouble {decimals : Nat} (size : Nat) (point : Char) (val : Fixed decimals) :
    JsonText :=
  (snprintf size (val.print point)).map fun c => if c = ',' then '.' else c

/-- What `dd_print_json_progress` computes of the counters and the clock. -/
structure ProgressLine where
  wBytes : Nat
  totalBytes : Int
  deltaS : Fixed 2
  speedBps : Fixed 0
  pct : Fixed 2
  etaS : Fixed 1

def ddPrintJsonProgress (point : Char) (p : ProgressLine) : JsonText :=
  let deltaSBuf := formatJsonDouble 32 point p.deltaS
  let speedBuf := formatJsonDouble 32 point p.speedBps
  if p.totalBytes > 0 then
    "\x7b\"event\":\"progress\",\"copied_bytes\":".toList ++ (intText p.wBytes ++
      (",\"total_bytes\":".toList ++ (intText p.totalBytes ++
        (",\"percent\":".toList ++ (formatJsonDouble 32 point p.pct ++
          (",\"speed_bps\":".toList ++ (speedBuf ++
            (",\"elapsed_s\":".toList ++ (deltaSBuf ++
              (",\"eta_s\":".toList ++ (formatJsonDouble 32 point p.etaS ++
                "\x7d\n".toList)))))))))))
  else
    "\x7b\"event\":\"progress\",\"copied_bytes\":".toList ++ (intText p.wBytes ++
      (",\"total_bytes\":null,\"percent\":null,\"speed_bps\":".toList ++ (speedBuf ++
        (",\"elapsed_s\":".toList ++ (deltaSBuf ++ ",\"eta_s\":null\x7d\n".toList)))))

def hexChars : JsonText := "0123456789abcdef".toList

/-- `%02x`. -/
def hexByte (b : Blks.Byte) : JsonText :=
  [hexChars.getD (b.toNat / 16) '0', hexChars.getD (b.toNat % 16) '0']

/-- `hex` of a digest: one of 48 bytes is printed as Base64, of the others the first 32. -/
def digestText (digest : Blks.Digest) (algo : HashAlgo) : JsonText :=
  if algo = .blks then (Blks.encodeBase64 digest).toList
  else (digest.toList.take 32).flatMap hexByte

def algoName (algo : HashAlgo) : JsonText :=
  if algo = .blake3 then "blake3".toList
  else if algo = .blks then "blks".toList
  else "sha256".toList

/-- What `dd_print_json_summary_ext` gets. The counters of records are not negative. -/
structure SummaryLine where
  stats : Stats
  rTruncate : Nat
  asyncCapacity : UInt64
  asyncReaderStalls : UInt64
  asyncWriterStalls : UInt64
  deltaS : Fixed 4
  speedBps : Fixed 0
  digest : Blks.Digest
  hasDigest : Bool
  algo : HashAlgo

def pipelineBuf (f : SummaryLine) : JsonText :=
  if f.asyncCapacity.toNat > 0 then
    snprintf 128 ("\x7b\"capacity\":".toList ++ (intText f.asyncCapacity.toNat ++
      (",\"reader_stalls\":".toList ++ (intText f.asyncReaderStalls.toNat ++
        (",\"writer_stalls\":".toList ++ (intText f.asyncWriterStalls.toNat ++ "\x7d".toList))))))
  else snprintf 128 "null".toList

def checksumObj (f : SummaryLine) : JsonText :=
  if f.hasDigest then
    snprintf 128 ("\x7b\"algorithm\":\"".toList ++ (algoName f.algo ++
      ("\",\"digest\":\"".toList ++ (digestText f.digest f.algo ++ "\"\x7d".toList))))
  else snprintf 128 "null".toList

def ddPrintJsonSummaryExt (point : Char) (f : SummaryLine) : JsonText :=
  let hex := if f.hasDigest then digestText f.digest f.algo else []
  "\x7b\"event\":\"finished\",\"copied_bytes\":".toList ++ (intText f.stats.wBytes ++
    (",\"records_in\":\x7b\"full\":".toList ++ (intText f.stats.rFull ++
      (",\"partial\":".toList ++ (intText f.stats.rPartial ++
        (",\"truncated\":".toList ++ (intText f.rTruncate ++
          ("\x7d,\"records_out\":\x7b\"full\":".toList ++ (intText f.stats.wFull ++
            (",\"partial\":".toList ++ (intText f.stats.wPartial ++
              ("\x7d,\"elapsed_s\":".toList ++ (formatJsonDouble 32 point f.deltaS ++
                (",\"avg_speed_bps\":".toList ++ (formatJsonDouble 32 point f.speedBps ++
                  (",\"pipeline\":".toList ++ (pipelineBuf f ++
                    (",\"checksum\":".toList ++ (checksumObj f ++
                      (",\"sha256\":".toList ++ ((if f.hasDigest then ['"'] else []) ++
                        ((if f.hasDigest then hex else "null".toList) ++
                          ((if f.hasDigest then ['"'] else []) ++
                            "\x7d\n".toList)))))))))))))))))))))))

end C

namespace Rust

def serdeJsonLite (stats : Stats) (readerStalls writerStalls : Nat) (elapsed : Fixed 4)
    (speed : Fixed 0) (hashInfo : Option (String × String)) : JsonText :=
  let pipelineJson :=
    if stats.asyncCapacity > 0 then
      "\x7b\"capacity\":".toList ++ (intText stats.asyncCapacity ++
        (",\"reader_stalls\":".toList ++ (intText readerStalls ++
          (",\"writer_stalls\":".toList ++ (intText writerStalls ++ "\x7d".toList)))))
    else "null".toList
  let (checksumJson, sha256Json) :=
    match hashInfo with
    | some (hashVal, algoName) =>
      ("\x7b\"algorithm\":\"".toList ++ (algoName.toList ++ ("\",\"digest\":\"".toList ++
          (hashVal.toList ++ "\"\x7d".toList))),
        '"' :: (hashVal.toList ++ ['"']))
    | none => ("null".toList, "null".toList)
  "\x7b\"event\":\"finished\",\"copied_bytes\":".toList ++ (intText stats.bytesCopied ++
    (",\"records_in\":\x7b\"full\":".toList ++ (intText stats.recordsInFull ++
      (",\"partial\":".toList ++ (intText stats.recordsInPart ++
        (",\"truncated\":0\x7d,\"records_out\":\x7b\"full\":".toList ++
          (intText stats.recordsOutFull ++ (",\"partial\":".toList ++
            (intText stats.recordsOutPart ++ ("\x7d,\"elapsed_s\":".toList ++
              (elapsed.print '.' ++ (",\"avg_speed_bps\":".toList ++ (speed.print '.' ++
                (",\"pipeline\":".toList ++ (pipelineJson ++ (",\"checksum\":".toList ++
                  (checksumJson ++ (",\"sha256\":".toList ++ (sha256Json ++
                    "\x7d".toList)))))))))))))))))))

/-- What `eprintln!` makes of the text in `print_summary`. -/
def printSummary (stats : Stats) (readerStalls writerStalls : Nat) (elapsed : Fixed 4)
    (speed : Fixed 0) (hashInfo : Option (String × String)) : JsonText :=
  serdeJsonLite stats readerStalls writerStalls elapsed speed hashInfo ++ ['\n']

end Rust

/-! ### What the lines say -/

def number (n : Int) : Json := .num (intText n)

def Fixed.json {decimals : Nat} (x : Fixed decimals) : Json := .num (x.print '.')

def C.ProgressLine.json (p : C.ProgressLine) : Json :=
  .obj [("event".toList, .str "progress".toList),
    ("copied_bytes".toList, number p.wBytes),
    ("total_bytes".toList, if p.totalBytes > 0 then number p.totalBytes else .null),
    ("percent".toList, if p.totalBytes > 0 then p.pct.json else .null),
    ("speed_bps".toList, p.speedBps.json),
    ("elapsed_s".toList, p.deltaS.json),
    ("eta_s".toList, if p.totalBytes > 0 then p.etaS.json else .null)]

/-- The counters of a pipeline of threads. -/
structure Pipeline where
  capacity : Nat
  readerStalls : Nat
  writerStalls : Nat

/-- What there is to say of a transfer that is done; a checksum is the name of the algorithm and the
digest. -/
@[ext] structure Summary where
  copiedBytes : Nat
  full : Nat
  partialIn : Nat
  truncated : Nat
  fullOut : Nat
  partialOut : Nat
  elapsed : Fixed 4
  speed : Fixed 0
  pipeline : Option Pipeline
  checksum : Option (JsonText × JsonText)

def Pipeline.json (pipe : Pipeline) : Json :=
  .obj [("capacity".toList, number pipe.capacity),
    ("reader_stalls".toList, number pipe.readerStalls),
    ("writer_stalls".toList, number pipe.writerStalls)]

def checksumJson (checksum : JsonText × JsonText) : Json :=
  .obj [("algorithm".toList, .str checksum.1), ("digest".toList, .str checksum.2)]

/-- The digest stands under `sha256` whatever the algorithm is. -/
def Summary.json (s : Summary) : Json :=
  .obj [("event".toList, .str "finished".toList),
    ("copied_bytes".toList, number s.copiedBytes),
    ("records_in".toList, .obj [("full".toList, number s.full),
      ("partial".toList, number s.partialIn), ("truncated".toList, number s.truncated)]),
    ("records_out".toList, .obj [("full".toList, number s.fullOut),
      ("partial".toList, number s.partialOut)]),
    ("elapsed_s".toList, s.elapsed.json),
    ("avg_speed_bps".toList, s.speed.json),
    ("pipeline".toList, s.pipeline.elim .null Pipeline.json),
    ("checksum".toList, s.checksum.elim .null checksumJson),
    ("sha256".toList, s.checksum.elim .null fun checksum => .str checksum.2)]

def C.SummaryLine.summary (f : C.SummaryLine) : Summary where
  copiedBytes := f.stats.wBytes
  full := f.stats.rFull
  partialIn := f.stats.rPartial
  truncated := f.rTruncate
  fullOut := f.stats.wFull
  partialOut := f.stats.wPartial
  elapsed := f.deltaS
  speed := f.speedBps
  pipeline :=
    if f.asyncCapacity.toNat > 0 then
      some ⟨f.asyncCapacity.toNat, f.asyncReaderStalls.toNat, f.asyncWriterStalls.toNat⟩
    else none
  checksum :=
    if f.hasDigest then some (C.algoName f.algo, C.digestText f.digest f.algo) else none

def Rust.summary (stats : Rust.Stats) (readerStalls writerStalls : Nat) (elapsed : Fixed 4)
    (speed : Fixed 0) (hashInfo : Option (String × String)) : Summary where
  copiedBytes := stats.bytesCopied
  full := stats.recordsInFull
  partialIn := stats.recordsInPart
  truncated := 0
  fullOut := stats.recordsOutFull
  partialOut := stats.recordsOutPart
  elapsed := elapsed
  speed := speed
  pipeline :=
    if stats.asyncCapacity > 0 then some ⟨stats.asyncCapacity, readerStalls, writerStalls⟩ else none
  checksum := hashInfo.map fun (hashVal, algoName) => (algoName.toList, hashVal.toList)

/-! ### Numbers -/

namespace Fixed

variable {decimals : Nat}

theorem length_print (x : Fixed decimals) (point : Char) (hdecimals : decimals ≤ 4) :
    (x.print point).length ≤ 31 := by
  have hwhole : (Nat.toDigits 10 x.whole).length ≤ 30 - decimals :=
    (Nat.length_toDigits_le_iff (by decide) (by omega)).mpr x.whole_lt
  have hlength := x.length_eq
  unfold print
  split
  · rw [List.append_nil]
    omega
  · rw [List.length_append, List.length_cons]
    omega

theorem comma_not_mem {w : JsonText} (h : ∀ c ∈ w, c.isDigit = true) : ',' ∉ w :=
  fun hmem => absurd (h _ hmem) (by decide)

theorem map_digits {w : JsonText} (h : ∀ c ∈ w, c.isDigit = true) :
    (w.map fun c => if c = ',' then '.' else c) = w := by
  conv_rhs => rw [← List.map_id w]
  refine List.map_congr_left fun c hc => ?_
  have hne : c ≠ ',' := fun he => comma_not_mem h (he ▸ hc)
  simp [hne]

/-- A decimal comma becomes a point. -/
theorem formatJsonDouble_eq (x : Fixed decimals) {point : Char} (hpoint : point = '.' ∨ point = ',')
    (hdecimals : decimals ≤ 4) : C.formatJsonDouble 32 point x = x.print '.' := by
  have hlength := x.length_print point hdecimals
  have hdigits : ∀ c ∈ Nat.toDigits 10 x.whole, c.isDigit = true := isDigit_toDigits
  rw [C.formatJsonDouble, C.snprintf, List.take_of_length_le hlength, print, print, List.map_append,
    map_digits hdigits]
  split
  · rfl
  · rw [List.map_cons, map_digits x.digits]
    rcases hpoint with rfl | rfl <;> rfl

theorem numberWord_print (x : Fixed decimals) : NumberWord (x.print '.') := by
  unfold print
  split
  · rw [List.append_nil]
    exact numberWord_intText x.whole
  · rename_i hne
    have hfraction : x.fraction ≠ [] :=
      List.ne_nil_of_length_pos (by rw [x.length_eq]; omega)
    exact numberWord_decimal x.whole hfraction x.digits

theorem toDigits_inj {m n : Nat} (h : Nat.toDigits 10 m = Nat.toDigits 10 n) : m = n := by
  have hm := Nat.ofDigitChars_toDigits (b := 10) (n := m) (by decide) (by decide)
  have hn := Nat.ofDigitChars_toDigits (b := 10) (n := n) (by decide) (by decide)
  rw [h, hn] at hm
  exact hm.symm

theorem print_inj {x y : Fixed decimals} (h : x.print '.' = y.print '.') : x = y := by
  obtain ⟨m, v, _, hv, _⟩ := x
  obtain ⟨n, w, _, hw, _⟩ := y
  unfold print at h
  have hparts : Nat.toDigits 10 m = Nat.toDigits 10 n ∧ v = w := by
    by_cases hzero : decimals = 0
    · rw [if_pos hzero, if_pos hzero, List.append_nil, List.append_nil] at h
      rw [hzero] at hv hw
      rw [List.length_eq_zero_iff.mp hv, List.length_eq_zero_iff.mp hw]
      exact ⟨h, rfl⟩
    · rw [if_neg hzero, if_neg hzero] at h
      obtain ⟨hwhole, hfraction⟩ := List.append_inj' h (by simp [hv, hw])
      exact ⟨hwhole, List.tail_eq_of_cons_eq hfraction⟩
  obtain rfl := toDigits_inj hparts.1
  obtain rfl := hparts.2
  rfl

end Fixed

theorem number_inj {m n : Nat} (h : number m = number n) : m = n :=
  Fixed.toDigits_inj (Json.num.inj h)

theorem Fixed.json_inj {decimals : Nat} {x y : Fixed decimals} (h : x.json = y.json) : x = y :=
  print_inj (Json.num.inj h)

/-! ### Texts without escapes -/

def Unescaped (w : JsonText) : Prop := ∀ c ∈ w, isPlain c = true

theorem unescaped_encodeBase64 (d : Blks.Digest) : Unescaped (Blks.encodeBase64 d).toList := by
  rw [Unescaped, Blks.encodeBase64, Blks.toList_encodeB64Table, List.forall_mem_map]
  have htable : ∀ i : Fin 64, isPlain (Blks.base64Standard.getD i 'A') = true := by
    decide +kernel
  exact fun i hi => htable ⟨i, Blks.indices_lt d i hi⟩

theorem length_encodeBase64 (d : Blks.Digest) : (Blks.encodeBase64 d).toList.length = 64 := by
  rw [Blks.encodeBase64, Blks.toList_encodeB64Table, List.length_map, Blks.length_indices]

namespace C

theorem unescaped_hexByte (b : Blks.Byte) : Unescaped (hexByte b) := by
  have htable : ∀ i : Fin 16, isPlain (hexChars.getD i '0') = true := by decide
  have hlt : b.toNat < 256 := b.isLt
  intro c hc
  rcases List.mem_cons.mp hc with rfl | hc
  · exact htable ⟨b.toNat / 16, by omega⟩
  · rw [List.mem_singleton.mp hc]
    exact htable ⟨b.toNat % 16, by omega⟩

theorem unescaped_digestText (d : Blks.Digest) (algo : HashAlgo) :
    Unescaped (digestText d algo) := by
  unfold digestText
  split
  · exact unescaped_encodeBase64 d
  · intro c hc
    obtain ⟨b, -, hb⟩ := List.mem_flatMap.mp hc
    exact unescaped_hexByte b c hb

theorem unescaped_algoName (algo : HashAlgo) : Unescaped (algoName algo) := by
  unfold Unescaped
  cases algo <;> decide

theorem length_digestText (d : Blks.Digest) (algo : HashAlgo) :
    (digestText d algo).length = 64 := by
  unfold digestText
  split
  · exact length_encodeBase64 d
  · have hbytes : ∀ b ∈ d.toList.take 32, (hexByte b).length = 2 := fun b _ => rfl
    rw [List.length_flatMap, List.map_congr_left hbytes, List.map_const', List.sum_replicate_nat,
      List.length_take, Vector.length_toList]
    rfl

end C

/-! ### The lines are the texts of the values -/

namespace C

theorem snprintf_eq {size : Nat} {w : JsonText} (h : w.length ≤ size - 1) : snprintf size w = w :=
  List.take_of_length_le h

theorem length_intText_toNat (n : UInt64) : (intText n.toNat).length ≤ 20 :=
  (Nat.length_toDigits_le_iff (by decide) (by decide)).mpr
    (Nat.lt_of_lt_of_le n.toNat_lt (by decide))

/-- The buffer holds the longest counters. -/
theorem pipelineBuf_eq (f : SummaryLine) :
    pipelineBuf f = (f.summary.pipeline.elim Json.null Pipeline.json).text := by
  unfold pipelineBuf SummaryLine.summary
  dsimp only
  split
  · have hcapacity := length_intText_toNat f.asyncCapacity
    have hreader := length_intText_toNat f.asyncReaderStalls
    have hwriter := length_intText_toNat f.asyncWriterStalls
    rw [snprintf_eq]
    · simp only [Option.elim_some, Pipeline.json, number, text, membersText, quoted,
        List.cons_append, List.nil_append, List.append_assoc]
      rfl
    · simp
      omega
  · rfl

theorem checksumObj_eq (f : SummaryLine) :
    checksumObj f = (f.summary.checksum.elim Json.null checksumJson).text := by
  unfold checksumObj SummaryLine.summary
  dsimp only
  split
  · have hname : (algoName f.algo).length ≤ 6 := by
      cases f.algo <;> decide
    have hdigest := length_digestText f.digest f.algo
    rw [snprintf_eq]
    · simp only [Option.elim_some, checksumJson, text, membersText, quoted, List.cons_append,
        List.nil_append, List.append_assoc]
      rfl
    · simp
      omega
  · rfl

set_option maxRecDepth 2000 in
/-- The line is the text of its value. -/
theorem ddPrintJsonSummaryExt_eq (f : SummaryLine) {point : Char}
    (hpoint : point = '.' ∨ point = ',') :
    ddPrintJsonSummaryExt point f = f.summary.json.text ++ ['\n'] := by
  have hdigest : (if f.hasDigest then ['"'] else []) ++
      ((if f.hasDigest then (if f.hasDigest then digestText f.digest f.algo else [])
          else "null".toList) ++
        ((if f.hasDigest then ['"'] else []) ++ "\x7d\n".toList)) =
      (f.summary.checksum.elim Json.null fun checksum => .str checksum.2).text ++
        "\x7d\n".toList := by
    unfold SummaryLine.summary
    cases f.hasDigest
    · rfl
    · simp only [if_true, Option.elim_some, text, quoted, List.cons_append, List.nil_append,
        List.append_assoc]
  unfold ddPrintJsonSummaryExt
  dsimp only
  rw [hdigest, pipelineBuf_eq, checksumObj_eq, f.deltaS.formatJsonDouble_eq hpoint (by decide),
    f.speedBps.formatJsonDouble_eq hpoint (by decide)]
  simp only [Summary.json, number, Fixed.json, text, membersText, quoted, List.cons_append,
    List.nil_append, List.append_assoc]
  rfl

theorem ddPrintJsonProgress_eq (p : ProgressLine) {point : Char}
    (hpoint : point = '.' ∨ point = ',') :
    ddPrintJsonProgress point p = p.json.text ++ ['\n'] := by
  unfold ddPrintJsonProgress ProgressLine.json
  dsimp only
  rw [p.deltaS.formatJsonDouble_eq hpoint (by decide),
    p.speedBps.formatJsonDouble_eq hpoint (by decide),
    p.pct.formatJsonDouble_eq hpoint (by decide), p.etaS.formatJsonDouble_eq hpoint (by decide)]
  split <;>
  · simp only [number, Fixed.json, text, membersText, quoted, List.cons_append, List.nil_append,
      List.append_assoc]
    rfl

end C

set_option maxRecDepth 2000 in
theorem Rust.printSummary_eq (stats : Rust.Stats) (readerStalls writerStalls : Nat)
    (elapsed : Fixed 4) (speed : Fixed 0) (hashInfo : Option (String × String)) :
    Rust.printSummary stats readerStalls writerStalls elapsed speed hashInfo =
      (Rust.summary stats readerStalls writerStalls elapsed speed hashInfo).json.text ++
        ['\n'] := by
  have hpipeline : (if stats.asyncCapacity > 0 then
        "\x7b\"capacity\":".toList ++ (intText stats.asyncCapacity ++
          (",\"reader_stalls\":".toList ++ (intText readerStalls ++
            (",\"writer_stalls\":".toList ++ (intText writerStalls ++ "\x7d".toList)))))
      else "null".toList) =
      ((if stats.asyncCapacity > 0 then
          some (Pipeline.mk stats.asyncCapacity readerStalls writerStalls)
        else none).elim Json.null Pipeline.json).text := by
    split
    · simp only [Option.elim_some, Pipeline.json, number, text, membersText, quoted,
        List.cons_append, List.nil_append, List.append_assoc]
      rfl
    · rfl
  unfold Rust.printSummary Rust.serdeJsonLite Rust.summary Summary.json
  dsimp only
  rw [hpipeline]
  cases hashInfo with
  | none =>
    simp only [number, Fixed.json, text, membersText, quoted, List.cons_append, List.nil_append,
      List.append_assoc]
    rfl
  | some info =>
    simp only [Option.map_some, Option.elim_some, checksumJson, number, Fixed.json, text,
      membersText, quoted, List.cons_append, List.nil_append, List.append_assoc]
    rfl

/-! ### Nothing is lost -/

theorem printable_number (n : Int) : (number n).Printable := by
  rw [number, Printable]
  exact numberWord_intText n

theorem Fixed.printable {decimals : Nat} (x : Fixed decimals) : x.json.Printable := by
  rw [json, Printable]
  exact x.numberWord_print

theorem C.ProgressLine.printable (p : C.ProgressLine) : p.json.Printable := by
  have htext : ∀ c ∈ "progress".toList, isPlain c = true := by decide
  have helse {q : Prop} [Decidable q] {j : Json} (hj : j.Printable) :
      (if q then j else Json.null).Printable := by
    split
    · exact hj
    · trivial
  simp only [json, Printable, PrintableMembers, and_true]
  exact ⟨by decide, htext, by decide, printable_number _, by decide, helse (printable_number _),
    by decide, helse p.pct.printable, by decide, p.speedBps.printable, by decide,
    p.deltaS.printable, by decide, helse p.etaS.printable⟩

namespace Summary

/-- The texts of the checksum need no escapes. -/
def UnescapedChecksum (s : Summary) : Prop :=
  ∀ checksum ∈ s.checksum, Unescaped checksum.1 ∧ Unescaped checksum.2

theorem printable_pipeline (pipeline : Option Pipeline) :
    (pipeline.elim Json.null Pipeline.json).Printable := by
  cases pipeline with
  | none => trivial
  | some pipe =>
    simp only [Option.elim_some, Pipeline.json, Printable, PrintableMembers, and_true]
    exact ⟨by decide, printable_number _, by decide, printable_number _, by decide,
      printable_number _⟩

theorem printable (s : Summary) (h : s.UnescapedChecksum) : s.json.Printable := by
  have htext : ∀ c ∈ "finished".toList, isPlain c = true := by decide
  have hchecksum : (s.checksum.elim Json.null checksumJson).Printable ∧
      (s.checksum.elim Json.null fun checksum => .str checksum.2).Printable := by
    cases hc : s.checksum with
    | none => exact ⟨trivial, trivial⟩
    | some checksum =>
      obtain ⟨hname, hdigest⟩ := h checksum hc
      simp only [Option.elim_some, checksumJson, Printable, PrintableMembers, and_true]
      exact ⟨⟨by decide, hname, by decide, hdigest⟩, hdigest⟩
  simp only [json, Printable, PrintableMembers, and_true]
  exact ⟨by decide, htext, by decide, printable_number _, by decide,
    ⟨by decide, printable_number _, by decide, printable_number _, by decide, printable_number _⟩,
    by decide, ⟨by decide, printable_number _, by decide, printable_number _⟩, by decide,
    s.elapsed.printable, by decide, s.speed.printable, by decide, printable_pipeline s.pipeline,
    by decide, hchecksum.1, by decide, hchecksum.2⟩

theorem pipeline_inj {p q : Option Pipeline}
    (h : p.elim Json.null Pipeline.json = q.elim Json.null Pipeline.json) : p = q := by
  cases p with
  | none =>
    cases q with
    | none => rfl
    | some pipe => cases h
  | some pipe =>
    cases q with
    | none => cases h
    | some pipe' =>
      simp only [Option.elim_some, Pipeline.json, Json.obj.injEq, List.cons.injEq, Prod.mk.injEq,
        and_true, true_and] at h
      obtain ⟨capacity, readers, writers⟩ := pipe
      obtain ⟨capacity', readers', writers'⟩ := pipe'
      obtain ⟨hcapacity, hreaders, hwriters⟩ := h
      obtain rfl : capacity = capacity' := number_inj hcapacity
      obtain rfl : readers = readers' := number_inj hreaders
      obtain rfl : writers = writers' := number_inj hwriters
      rfl

theorem checksum_inj {p q : Option (JsonText × JsonText)}
    (h : p.elim Json.null checksumJson = q.elim Json.null checksumJson) : p = q := by
  cases p with
  | none =>
    cases q with
    | none => rfl
    | some checksum => cases h
  | some checksum =>
    cases q with
    | none => cases h
    | some checksum' =>
      simp only [Option.elim_some, checksumJson, Json.obj.injEq, List.cons.injEq, Prod.mk.injEq,
        Json.str.injEq, and_true, true_and] at h
      exact congrArg some (Prod.ext h.1 h.2)

/-- The value holds all that there is to say. -/
theorem json_inj {s t : Summary} (h : s.json = t.json) : s = t := by
  simp only [json, Json.obj.injEq, List.cons.injEq, Prod.mk.injEq, and_true, true_and] at h
  obtain ⟨hcopied, ⟨hfull, hpartial, htruncated⟩, ⟨hfullOut, hpartialOut⟩, helapsed, hspeed,
    hpipeline, hchecksum, -⟩ := h
  exact Summary.ext (number_inj hcopied) (number_inj hfull) (number_inj hpartial)
    (number_inj htruncated) (number_inj hfullOut) (number_inj hpartialOut)
    (Fixed.json_inj helapsed) (Fixed.json_inj hspeed) (pipeline_inj hpipeline)
    (checksum_inj hchecksum)

end Summary

theorem C.SummaryLine.unescapedChecksum (f : C.SummaryLine) : f.summary.UnescapedChecksum := by
  intro checksum hchecksum
  unfold summary at hchecksum
  cases hdigest : f.hasDigest with
  | false =>
    rw [hdigest] at hchecksum
    cases hchecksum
  | true =>
    rw [hdigest] at hchecksum
    obtain rfl := Option.some.inj hchecksum
    exact ⟨C.unescaped_algoName f.algo, C.unescaped_digestText f.digest f.algo⟩

section InFlightHasher

variable {η₂ η₃ : Type} {env : Rust.HashEnv η₂ η₃} (hasher : Rust.InFlightHasher η₂ η₃)

/-- The crates print their digests in hexadecimal. -/
theorem Rust.unescapedChecksum {stats : Rust.Stats} {readerStalls writerStalls : Nat}
    {elapsed : Fixed 4} {speed : Fixed 0} (hsha : ∀ h, Unescaped (env.sha2.finalizeHex h).toList)
    (hblake : ∀ h, Unescaped (env.blake3.finalizeHex h).toList) :
    (Rust.summary stats readerStalls writerStalls elapsed speed
      (hasher.finalizeString env)).UnescapedChecksum := by
  have hplain : ∀ info ∈ hasher.finalizeString env,
      Unescaped info.2.toList ∧ Unescaped info.1.toList := by
    intro info hinfo
    unfold Unescaped
    cases hasher with
    | none => cases hinfo
    | sha256 h =>
      obtain rfl := Option.some.inj hinfo
      have hname : ∀ c ∈ "sha256".toList, isPlain c = true := by decide
      exact ⟨hname, hsha h⟩
    | blake3 h =>
      obtain rfl := Option.some.inj hinfo
      have hname : ∀ c ∈ "blake3".toList, isPlain c = true := by decide
      exact ⟨hname, hblake h⟩
    | blks h =>
      obtain ⟨digest, -, rfl⟩ := Option.map_eq_some_iff.mp hinfo
      have hname : ∀ c ∈ "blks".toList, isPlain c = true := by decide
      exact ⟨hname, unescaped_encodeBase64 digest⟩
  intro checksum hchecksum
  obtain ⟨info, hinfo, rfl⟩ := Option.map_eq_some_iff.mp hchecksum
  exact hplain info hinfo

end InFlightHasher

theorem append_newline_inj {v w : JsonText} : v ++ ['\n'] = w ++ ['\n'] ↔ v = w :=
  List.append_left_inj ['\n']

theorem Summary.text_inj {s t : Summary} (hs : s.UnescapedChecksum) (ht : t.UnescapedChecksum)
    (h : s.json.text = t.json.text) : s = t := by
  have hspace : ∀ c ∈ ([] : JsonText), isWhitespace c = true := fun c hc =>
    absurd hc List.not_mem_nil
  have hread := parse_text (s.printable hs) hspace
  rw [h, parse_text (t.printable ht) hspace] at hread
  exact json_inj (Option.some.inj hread).symm

/-- What a reader of JSON lines gets: each line that the programs print is one value, which holds
what they have counted, and they print the same last line exactly if they have the same to say. -/
theorem jsonLines_read {η₂ η₃ : Type} {env : Rust.HashEnv η₂ η₃} {point : Char}
    (hpoint : point = '.' ∨ point = ',') (hsha : ∀ h, Unescaped (env.sha2.finalizeHex h).toList)
    (hblake : ∀ h, Unescaped (env.blake3.finalizeHex h).toList) (progress : List C.ProgressLine)
    (f : C.SummaryLine) (stats : Rust.Stats) (readerStalls writerStalls : Nat) (elapsed : Fixed 4)
    (speed : Fixed 0) (hasher : Rust.InFlightHasher η₂ η₃) :
    let hashInfo := hasher.finalizeString env
    let rust := Rust.summary stats readerStalls writerStalls elapsed speed hashInfo
    let line := Rust.printSummary stats readerStalls writerStalls elapsed speed hashInfo
    parseLines (progress.flatMap (C.ddPrintJsonProgress point) ++
        C.ddPrintJsonSummaryExt point f) =
      some (progress.map C.ProgressLine.json ++ [f.summary.json]) ∧
    parseLines line = some [rust.json] ∧
    (C.ddPrintJsonSummaryExt point f = line ↔ f.summary = rust) := by
  intro hashInfo rust line
  have hc : C.ddPrintJsonSummaryExt point f = f.summary.json.text ++ ['\n'] :=
    C.ddPrintJsonSummaryExt_eq f hpoint
  have hline : line = rust.json.text ++ ['\n'] :=
    Rust.printSummary_eq stats readerStalls writerStalls elapsed speed hashInfo
  have hprogress : progress.flatMap (C.ddPrintJsonProgress point) =
      lines (progress.map C.ProgressLine.json) := by
    rw [lines, List.flatMap_map]
    exact List.flatMap_congr fun p _ => C.ddPrintJsonProgress_eq p hpoint
  have hplain : rust.UnescapedChecksum := Rust.unescapedChecksum hasher hsha hblake
  refine ⟨?_, ?_, ?_⟩
  · have hlines : progress.flatMap (C.ddPrintJsonProgress point) ++
        C.ddPrintJsonSummaryExt point f =
        lines (progress.map C.ProgressLine.json ++ [f.summary.json]) := by
      rw [hprogress, hc, lines, lines, List.flatMap_append, List.flatMap_singleton]
    rw [hlines]
    refine parseLines_lines fun j hj => ?_
    rcases List.mem_append.mp hj with hj | hj
    · obtain ⟨p, -, rfl⟩ := List.mem_map.mp hj
      exact p.printable
    · rw [List.mem_singleton.mp hj]
      exact f.summary.printable f.unescapedChecksum
  · have hlines : line = lines [rust.json] := by
      rw [hline, lines, List.flatMap_singleton]
    rw [hlines]
    refine parseLines_lines fun j hj => ?_
    rw [List.mem_singleton.mp hj]
    exact rust.printable hplain
  · rw [hc, hline, append_newline_inj]
    constructor
    · exact Summary.text_inj f.unescapedChecksum hplain
    · intro h
      rw [h]

/-- With a decimal comma, one line of progress and a digest. -/
theorem jsonLines_read_comma :
    let zero (decimals : Nat) (h : 0 < 10 ^ (30 - decimals)) : Fixed decimals :=
      ⟨0, List.replicate decimals '0', h, List.length_replicate, by
        intro c hc
        rw [List.eq_of_mem_replicate hc]
        rfl⟩
    let p : C.ProgressLine := ⟨4096, 8192, zero 2 (by decide), zero 0 (by decide),
      zero 2 (by decide), zero 1 (by decide)⟩
    let f : C.SummaryLine := ⟨⟨1, 0, 1, 0, 4096⟩, 0, 16, 2, 3, zero 4 (by decide),
      zero 0 (by decide), Vector.replicate 48 0, true, .blks⟩
    parseLines ([p].flatMap (C.ddPrintJsonProgress ',') ++ C.ddPrintJsonSummaryExt ',' f) =
      some ([p].map C.ProgressLine.json ++ [f.summary.json]) := by
  intro zero p f
  let env : Rust.HashEnv Unit Unit :=
    ⟨⟨(), fun _ _ => (), fun _ => "00"⟩, ⟨(), fun _ _ => (), fun _ => "00"⟩, false⟩
  have hplain : Unescaped "00".toList := by
    unfold Unescaped
    decide
  have hsha : ∀ h, Unescaped (env.sha2.finalizeHex h).toList := fun _ => hplain
  have hblake : ∀ h, Unescaped (env.blake3.finalizeHex h).toList := fun _ => hplain
  exact (jsonLines_read (.inr rfl) hsha hblake [p] f {} 0 0 (zero 4 (by decide))
    (zero 0 (by decide)) .none).1

end Blkcp
