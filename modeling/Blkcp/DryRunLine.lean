import Blkcp.Lib.Json
import Blkcp.Lib.Utf8
set_option autoImplicit false

/-! The line of JSON that both programs print of a plan: texts between the quotes of a template. -/

namespace Blkcp
open Blkcp.Lib Blkcp.Lib.Json

/-- A word of the program's own. -/
structure PlanWord where
  text : JsonText
  plain : ∀ c ∈ text, isPlain c = true
  ascii : ∀ c ∈ text, c.toNat < 0x80

structure PlanSide where
  path : JsonText
  type : PlanWord
  exists_ : Bool
  sizeBytes : Int

structure Plan where
  input : PlanSide
  output : PlanSide
  safetyGuard : PlanWord
  safetyGuardDetail : JsonText
  engine : PlanWord
  blocksize : Nat
  autotune : Bool
  directIo : Bool
  nocache : Bool
  sha256 : Bool
  limitBytes : Int
  skipBytes : Nat
  seekBytes : Nat

namespace PlanSide

variable (s : PlanSide)

/-- What stands between the path and the size. -/
def behindPath : JsonText :=
  "\",\"type\":\"".toList ++ (s.type.text ++ ("\",\"exists\":".toList ++ (boolText s.exists_ ++
    (",\"size_bytes\":".toList ++ intText s.sizeBytes))))

end PlanSide

namespace Plan

variable (p : Plan)

def opening : JsonText :=
  "\x7b\"event\":\"dry_run\",\"dry_run\":true,\"input\":\x7b\"path\":\"".toList

def betweenSides : JsonText := "\x7d,\"output\":\x7b\"path\":\"".toList

def beforeDetail : JsonText :=
  ",\"safety_guard\":\"".toList ++ (p.safetyGuard.text ++ "\",\"safety_guard_detail\":\"".toList)

def behindDetail : JsonText :=
  "\"\x7d,\"plan\":\x7b\"engine\":\"".toList ++ (p.engine.text ++ ("\",\"blocksize\":".toList ++
    (intText p.blocksize ++ (",\"autotune\":".toList ++ (boolText p.autotune ++
      (",\"direct_io\":".toList ++ (boolText p.directIo ++ (",\"nocache\":".toList ++
        (boolText p.nocache ++ (",\"sha256\":".toList ++ (boolText p.sha256 ++
          (",\"limit_bytes\":".toList ++ (intText p.limitBytes ++ (",\"skip_bytes\":".toList ++
            (intText p.skipBytes ++ (",\"seek_bytes\":".toList ++ (intText p.seekBytes ++
              "\x7d\x7d\n".toList)))))))))))))))))

/-- What is behind the output's path. -/
def behindOutput : JsonText :=
  p.output.behindPath ++ (p.beforeDetail ++ (p.safetyGuardDetail ++ p.behindDetail))

def behindInput : JsonText :=
  p.input.behindPath ++ (betweenSides ++ (p.output.path ++ p.behindOutput))

def line : JsonText := opening ++ (p.input.path ++ p.behindInput)

end Plan

/-- A text in which the members `path` of the sides are these. -/
def Faithful (line i o : JsonText) : Prop :=
  ∃ j, parse line = some j ∧
    (member "input".toList j).bind (member "path".toList) = some (.str i) ∧
    (member "output".toList j).bind (member "path".toList) = some (.str o)

def Plain (text : JsonText) : Prop := ∀ c ∈ text, isPlain c = true

instance (text : JsonText) : Decidable (Plain text) := List.decidableBAll _ text

/-! ### Tokens -/

def openingTokens : List Token :=
  [.lbrace, .str "event".toList, .colon, .str "dry_run".toList, .comma, .str "dry_run".toList,
    .colon, .bare "true".toList, .comma, .str "input".toList, .colon, .lbrace,
    .str "path".toList, .colon]

theorem run_opening : reader.run .between Plan.opening = .ok (openingTokens, .str []) := by
  decide +kernel

namespace PlanSide

variable (s : PlanSide)

def tokens : List Token :=
  [.str s.path, .comma, .str "type".toList, .colon, .str s.type.text, .comma,
    .str "exists".toList, .colon, .bare (boolText s.exists_), .comma,
    .str "size_bytes".toList, .colon]

def members : List (JsonText × Json) :=
  [("path".toList, .str s.path), ("type".toList, .str s.type.text),
    ("exists".toList, .bool s.exists_), ("size_bytes".toList, .num (intText s.sizeBytes))]

/-- The reader is in the number behind a side whose path is plain. -/
theorem run_side (h : Plain s.path) : reader.run (.str []) (s.path ++ s.behindPath) =
    .ok (s.tokens, .bare (intText s.sizeBytes)) := by
  have htype : reader.run (.str s.path) "\",\"type\":\"".toList =
      .ok ([.str s.path, .comma, .str "type".toList, .colon], .str []) := rfl
  have hexists : reader.run (.str s.type.text) "\",\"exists\":".toList =
      .ok ([.str s.type.text, .comma, .str "exists".toList, .colon], .between) := rfl
  have hsize : reader.run (.bare (boolText s.exists_)) ",\"size_bytes\":".toList =
      .ok ([.bare (boolText s.exists_), .comma, .str "size_bytes".toList, .colon], .between) := rfl
  exact State.run_quoted h (reader.run_trans htype (State.run_quoted s.type.plain
    (reader.run_trans hexists (State.run_unquoted (isBare_boolText _) (boolText_ne_nil _)
      (reader.run_trans hsize (State.run_word (isBare_intText _) (intText_ne_nil _)))))))

theorem reads_side_comma {ts rest : List Token} {ms : List (JsonText × Json)} :
    Reads Json.members (.str "path".toList :: .colon ::
        (s.tokens ++ .bare (intText s.sizeBytes) :: .comma :: ts)) ms rest ↔
      ∃ more, ms = s.members ++ more ∧ Reads Json.members ts more rest := by
  simp only [tokens, members, List.cons_append, List.nil_append, reads_str_member_iff,
    reads_bare_member_iff (scalar_boolText _), reads_bare_member_iff (scalar_intText _)]
  constructor
  · rintro ⟨_, rfl, _, rfl, _, rfl, more, rfl, hmore⟩
    exact ⟨more, rfl, hmore⟩
  · rintro ⟨more, rfl, hmore⟩
    exact ⟨_, rfl, _, rfl, _, rfl, more, rfl, hmore⟩

theorem reads_side_rbrace {ts rest : List Token} {ms : List (JsonText × Json)} :
    Reads Json.members (.str "path".toList :: .colon ::
        (s.tokens ++ .bare (intText s.sizeBytes) :: .rbrace :: ts)) ms rest ↔
      ms = s.members ∧ rest = ts := by
  simp only [tokens, members, List.cons_append, List.nil_append, reads_str_member_iff,
    reads_bare_member_iff (scalar_boolText _), reads_last_bare_member_iff (scalar_intText _)]
  constructor
  · rintro ⟨_, rfl, _, rfl, _, rfl, rfl, rfl⟩
    exact ⟨rfl, rfl⟩
  · rintro ⟨rfl, rfl⟩
    exact ⟨_, rfl, _, rfl, _, rfl, rfl, rfl⟩

end PlanSide

/-- The members in front of the sides. -/
def openingMembers : List (JsonText × Json) :=
  [("event".toList, .str "dry_run".toList), ("dry_run".toList, .bool true)]

theorem reads_opening {ts : List Token} {j : Json} : Reads value (openingTokens ++ ts) j [] ↔
    ∃ ms, j = .obj (openingMembers ++ ms) ∧
      Reads Json.members (.str "input".toList :: .colon :: .lbrace :: .str "path".toList :: .colon :: ts)
        ms [] := by
  have htrue : scalar "true".toList = some (.bool true) := scalar_boolText true
  simp only [openingTokens, openingMembers, List.cons_append, List.nil_append, reads_obj_iff,
    reads_str_member_iff, reads_bare_member_iff htrue]
  constructor
  · rintro ⟨_, rfl, _, rfl, ms, rfl, hms⟩
    exact ⟨ms, rfl, hms⟩
  · rintro ⟨ms, rfl, hms⟩
    exact ⟨_, rfl, _, rfl, ms, rfl, hms⟩

theorem member_opening {name : JsonText} (hevent : "event".toList ≠ name)
    (hdry : "dry_run".toList ≠ name) (ms : List (JsonText × Json)) :
    member name (.obj (openingMembers ++ ms)) = member name (.obj ms) := by
  unfold openingMembers
  rw [List.cons_append, List.cons_append, member_cons_of_ne hevent, member_cons_of_ne hdry,
    List.nil_append]

/-- The path of a side is the string behind its name. -/
theorem path_of_reads {name text v : JsonText} {ts rest : List Token} {ms : List (JsonText × Json)}
    (h : Reads Json.members
      (.str name :: .colon :: .lbrace :: .str "path".toList :: .colon :: .str v :: ts) ms rest)
    (hpath : (member name (.obj ms)).bind (member "path".toList) = some (.str text)) : v = text := by
  obtain ⟨inner, more, between, rfl, hinner⟩ := exists_of_reads_obj_member h
  obtain ⟨inner, rfl⟩ := exists_of_reads_str_member hinner
  obtain ⟨k, hk, hpath⟩ := Option.bind_eq_some_iff.mp hpath
  obtain ⟨rfl, -⟩ := member_cons_self.mp hk
  obtain ⟨he, -⟩ := member_cons_self.mp hpath
  exact (Json.str.inj he).symm

namespace Plan

variable {p : Plan} {o : JsonText}

theorem plain_input (h : Faithful p.line p.input.path o) : Plain p.input.path := by
  obtain ⟨j, hparse, hinput, -⟩ := h
  obtain ⟨ts, hread, hvalue⟩ := parse_eq_some_iff.mp hparse
  obtain ⟨ts, hts, rfl⟩ := (reader.read_append_eq_ok_iff run_opening).mp hread
  obtain ⟨v, ts, rfl, -⟩ := State.exists_of_read (s := .str []) rfl hts
  obtain ⟨ms, rfl, hms⟩ := reads_opening.mp hvalue
  rw [member_opening (by decide) (by decide)] at hinput
  obtain rfl := path_of_reads hms hinput
  obtain ⟨rest, hrest⟩ : ∃ rest, p.behindInput = '"' :: ',' :: '"' :: rest := ⟨_, rfl⟩
  rw [hrest] at hts
  exact State.plain_of_read p.input.path rest hts

def inputTokens (p : Plan) : List Token :=
  openingTokens ++ (p.input.tokens ++ [.bare (intText p.input.sizeBytes), .rbrace, .comma,
    .str "output".toList, .colon, .lbrace, .str "path".toList, .colon])

def inputMembers (p : Plan) : List (JsonText × Json) :=
  openingMembers ++ [("input".toList, .obj p.input.members)]

/-- What is in front of the output's path. -/
def throughInput (p : Plan) : JsonText :=
  opening ++ (p.input.path ++ p.input.behindPath ++ betweenSides)

theorem line_eq (p : Plan) : p.line = p.throughInput ++ (p.output.path ++ p.behindOutput) := by
  simp only [line, throughInput, behindInput, List.append_assoc]

theorem run_input (h : Plain p.input.path) :
    reader.run .between p.throughInput = .ok (p.inputTokens, .str []) := by
  have hbetween : reader.run (.bare (intText p.input.sizeBytes)) betweenSides =
      .ok ([.bare (intText p.input.sizeBytes), .rbrace, .comma, .str "output".toList, .colon,
        .lbrace, .str "path".toList, .colon], .str []) := rfl
  exact reader.run_trans run_opening (reader.run_trans (p.input.run_side h) hbetween)

theorem reads_input {ts : List Token} {j : Json} : Reads value (p.inputTokens ++ ts) j [] ↔
    ∃ ms, j = .obj (p.inputMembers ++ ms) ∧
      Reads Json.members
        (.str "output".toList :: .colon :: .lbrace :: .str "path".toList :: .colon :: ts) ms [] := by
  simp only [inputTokens, inputMembers, List.append_assoc, List.cons_append, List.nil_append,
    reads_opening, reads_obj_member_iff fun _ _ => p.input.reads_side_rbrace]
  constructor
  · rintro ⟨_, rfl, ms, rfl, hms⟩
    exact ⟨ms, rfl, hms⟩
  · rintro ⟨ms, rfl, hms⟩
    exact ⟨_, rfl, ms, rfl, hms⟩

theorem member_inputMembers {name : JsonText} (hevent : "event".toList ≠ name)
    (hdry : "dry_run".toList ≠ name) (hinput : "input".toList ≠ name)
    (ms : List (JsonText × Json)) :
    member name (.obj (p.inputMembers ++ ms)) = member name (.obj ms) := by
  unfold inputMembers
  rw [List.append_assoc, member_opening hevent hdry, List.singleton_append,
    member_cons_of_ne hinput]

theorem plain_output {i : JsonText} (hin : Plain p.input.path)
    (h : Faithful p.line i p.output.path) : Plain p.output.path := by
  obtain ⟨j, hparse, -, houtput⟩ := h
  obtain ⟨ts, hread, hvalue⟩ := parse_eq_some_iff.mp hparse
  rw [line_eq] at hread
  obtain ⟨ts, hts, rfl⟩ := (reader.read_append_eq_ok_iff (run_input hin)).mp hread
  obtain ⟨v, ts, rfl, -⟩ := State.exists_of_read (s := .str []) rfl hts
  obtain ⟨ms, rfl, hms⟩ := reads_input.mp hvalue
  rw [member_inputMembers (by decide) (by decide) (by decide)] at houtput
  obtain rfl := path_of_reads hms houtput
  obtain ⟨rest, hrest⟩ : ∃ rest, p.behindOutput = '"' :: ',' :: '"' :: rest := ⟨_, rfl⟩
  rw [hrest] at hts
  exact State.plain_of_read p.output.path rest hts

/-- The line from the guard's detail on, in the objects that are open there. -/
def closing (p : Plan) : JsonText :=
  "\x7b\"output\":\x7b\"safety_guard_detail\":\"".toList ++ (p.safetyGuardDetail ++ p.behindDetail)

/-- The text of the guard lets the line go on to its end: no path is added to that of the output,
and no side to the two. -/
def DetailCloses (p : Plan) : Prop :=
  ∃ inner top, parse p.closing = some (.obj (("output".toList, .obj inner) :: top)) ∧
    lacks "path".toList inner ∧ lacks "input".toList top ∧ lacks "output".toList top

def detailTokens : List Token :=
  [.str "output".toList, .colon, .lbrace, .str "safety_guard_detail".toList, .colon]

theorem parse_closing_iff {j : Json} : parse p.closing = some j ↔
    ∃ ts ms, reader.read (.str []) (p.safetyGuardDetail ++ p.behindDetail) = .ok ts ∧
      j = .obj ms ∧ Reads Json.members (detailTokens ++ ts) ms [] := by
  have hrun : reader.run .between "\x7b\"output\":\x7b\"safety_guard_detail\":\"".toList =
      .ok (.lbrace :: detailTokens, .str []) := by
    decide +kernel
  unfold closing
  rw [parse_eq_some_iff]
  simp only [reader.read_append_eq_ok_iff hrun]
  constructor
  · rintro ⟨_, ⟨ts, hread, rfl⟩, hvalue⟩
    obtain ⟨ms, rfl, hms⟩ := reads_obj_iff.mp hvalue
    exact ⟨ts, ms, hread, rfl, hms⟩
  · rintro ⟨ts, ms, hread, rfl, hms⟩
    exact ⟨_, ⟨ts, hread, rfl⟩, reads_obj_iff.mpr ⟨ms, rfl, hms⟩⟩

def planMemberTokens (p : Plan) : List Token :=
  [.str "engine".toList, .colon, .str p.engine.text, .comma,
    .str "blocksize".toList, .colon, .bare (intText p.blocksize), .comma,
    .str "autotune".toList, .colon, .bare (boolText p.autotune), .comma,
    .str "direct_io".toList, .colon, .bare (boolText p.directIo), .comma,
    .str "nocache".toList, .colon, .bare (boolText p.nocache), .comma,
    .str "sha256".toList, .colon, .bare (boolText p.sha256), .comma,
    .str "limit_bytes".toList, .colon, .bare (intText p.limitBytes), .comma,
    .str "skip_bytes".toList, .colon, .bare (intText p.skipBytes), .comma,
    .str "seek_bytes".toList, .colon, .bare (intText p.seekBytes), .rbrace, .rbrace]

/-- What is behind the guard's detail. -/
def planTokens (p : Plan) : List Token :=
  .rbrace :: .comma :: .str "plan".toList :: .colon :: .lbrace :: p.planMemberTokens

def planMembers (p : Plan) : List (JsonText × Json) :=
  [("engine".toList, .str p.engine.text), ("blocksize".toList, .num (intText p.blocksize)),
    ("autotune".toList, .bool p.autotune), ("direct_io".toList, .bool p.directIo),
    ("nocache".toList, .bool p.nocache), ("sha256".toList, .bool p.sha256),
    ("limit_bytes".toList, .num (intText p.limitBytes)),
    ("skip_bytes".toList, .num (intText p.skipBytes)),
    ("seek_bytes".toList, .num (intText p.seekBytes))]

theorem run_int_member (i : Int) {behind : JsonText} {out : List Token} {t : State}
    (h : reader.run (.bare (intText i)) behind = .ok (out, t)) :
    reader.run .between (intText i ++ behind) = .ok (out, t) :=
  State.run_unquoted (isBare_intText i) (intText_ne_nil i) h

theorem run_bool_member (b : Bool) {behind : JsonText} {out : List Token} {t : State}
    (h : reader.run (.bare (boolText b)) behind = .ok (out, t)) :
    reader.run .between (boolText b ++ behind) = .ok (out, t) :=
  State.run_unquoted (isBare_boolText b) (boolText_ne_nil b) h

theorem run_behindDetail (p : Plan) {d : JsonText} :
    reader.run (.str d) p.behindDetail = .ok (.str d :: p.planTokens, .between) := by
  have hengine : reader.run (.str d) "\"\x7d,\"plan\":\x7b\"engine\":\"".toList =
      .ok ([.str d, .rbrace, .comma, .str "plan".toList, .colon, .lbrace, .str "engine".toList,
        .colon], .str []) := rfl
  have hblocksize : reader.run (.str p.engine.text) "\",\"blocksize\":".toList =
      .ok ([.str p.engine.text, .comma, .str "blocksize".toList, .colon], .between) := rfl
  have hautotune (w : JsonText) : reader.run (.bare w) ",\"autotune\":".toList =
      .ok ([.bare w, .comma, .str "autotune".toList, .colon], .between) := rfl
  have hdirect (w : JsonText) : reader.run (.bare w) ",\"direct_io\":".toList =
      .ok ([.bare w, .comma, .str "direct_io".toList, .colon], .between) := rfl
  have hnocache (w : JsonText) : reader.run (.bare w) ",\"nocache\":".toList =
      .ok ([.bare w, .comma, .str "nocache".toList, .colon], .between) := rfl
  have hsha256 (w : JsonText) : reader.run (.bare w) ",\"sha256\":".toList =
      .ok ([.bare w, .comma, .str "sha256".toList, .colon], .between) := rfl
  have hlimit (w : JsonText) : reader.run (.bare w) ",\"limit_bytes\":".toList =
      .ok ([.bare w, .comma, .str "limit_bytes".toList, .colon], .between) := rfl
  have hskip (w : JsonText) : reader.run (.bare w) ",\"skip_bytes\":".toList =
      .ok ([.bare w, .comma, .str "skip_bytes".toList, .colon], .between) := rfl
  have hseek (w : JsonText) : reader.run (.bare w) ",\"seek_bytes\":".toList =
      .ok ([.bare w, .comma, .str "seek_bytes".toList, .colon], .between) := rfl
  have hend (w : JsonText) : reader.run (.bare w) "\x7d\x7d\n".toList =
      .ok ([.bare w, .rbrace, .rbrace], .between) := rfl
  exact reader.run_trans hengine (State.run_quoted p.engine.plain (reader.run_trans hblocksize
    (run_int_member _ (reader.run_trans (hautotune _) (run_bool_member _
      (reader.run_trans (hdirect _) (run_bool_member _ (reader.run_trans (hnocache _)
        (run_bool_member _ (reader.run_trans (hsha256 _) (run_bool_member _
          (reader.run_trans (hlimit _) (run_int_member _ (reader.run_trans (hskip _)
            (run_int_member _ (reader.run_trans (hseek _) (run_int_member _
              (hend _))))))))))))))))))

theorem read_detail (hd : Plain p.safetyGuardDetail) :
    reader.read (.str []) (p.safetyGuardDetail ++ p.behindDetail) =
      .ok (.str p.safetyGuardDetail :: p.planTokens) := by
  have h : reader.read (.str []) (p.safetyGuardDetail ++ p.behindDetail ++ []) =
      .ok (.str p.safetyGuardDetail :: p.planTokens ++ []) :=
    (reader.read_append_eq_ok_iff (State.run_quoted hd p.run_behindDetail)).mpr ⟨[], rfl, rfl⟩
  rwa [List.append_nil, List.append_nil] at h

theorem reads_plan (p : Plan) : Reads Json.members
    (detailTokens ++ .str p.safetyGuardDetail :: p.planTokens)
    [("output".toList, .obj [("safety_guard_detail".toList, .str p.safetyGuardDetail)]),
      ("plan".toList, .obj p.planMembers)] [] := by
  have hinner : Reads Json.members p.planMemberTokens p.planMembers [.rbrace] := by
    simp only [planMemberTokens, planMembers, reads_str_member_iff,
      reads_bare_member_iff (scalar_intText _), reads_bare_member_iff (scalar_boolText _),
      reads_last_bare_member_iff (scalar_intText _)]
    exact ⟨_, rfl, _, rfl, _, rfl, _, rfl, _, rfl, _, rfl, _, rfl, _, rfl, rfl, trivial⟩
  exact .member (.obj nofun (.last_member (.str _ _))) (.last_member (.obj nofun hinner))

/-- A plain detail is no more than the text of its member. -/
theorem detailCloses_of_plain (hd : Plain p.safetyGuardDetail) : p.DetailCloses := by
  have hpath : "safety_guard_detail".toList ≠ "path".toList := by decide
  have hinput : "plan".toList ≠ "input".toList := by decide
  have houtput : "plan".toList ≠ "output".toList := by decide
  exact ⟨[("safety_guard_detail".toList, .str p.safetyGuardDetail)],
    [("plan".toList, .obj p.planMembers)],
    parse_closing_iff.mpr ⟨_, _, read_detail hd, rfl, p.reads_plan⟩,
    lacks_cons.mpr ⟨hpath, nofun⟩, lacks_cons.mpr ⟨hinput, nofun⟩,
    lacks_cons.mpr ⟨houtput, nofun⟩⟩

/-- What is in front of the guard's detail. -/
def throughOutput (p : Plan) : JsonText :=
  p.throughInput ++ (p.output.path ++ p.output.behindPath ++ p.beforeDetail)

theorem line_eq_throughOutput (p : Plan) :
    p.line = p.throughOutput ++ (p.safetyGuardDetail ++ p.behindDetail) := by
  rw [line_eq]
  simp only [throughOutput, behindOutput, List.append_assoc]

def guardTokens (p : Plan) : List Token :=
  [.str "safety_guard".toList, .colon, .str p.safetyGuard.text, .comma,
    .str "safety_guard_detail".toList, .colon]

def outputTokens (p : Plan) : List Token :=
  p.inputTokens ++ (p.output.tokens ++ .bare (intText p.output.sizeBytes) :: .comma :: p.guardTokens)

def outputMembers (p : Plan) : List (JsonText × Json) :=
  p.output.members ++ [("safety_guard".toList, .str p.safetyGuard.text)]

theorem run_output (hin : Plain p.input.path) (hout : Plain p.output.path) :
    reader.run .between p.throughOutput = .ok (p.outputTokens, .str []) := by
  have hguard : reader.run (.bare (intText p.output.sizeBytes)) ",\"safety_guard\":\"".toList =
      .ok ([.bare (intText p.output.sizeBytes), .comma, .str "safety_guard".toList, .colon],
        .str []) := rfl
  have hdetail : reader.run (.str p.safetyGuard.text) "\",\"safety_guard_detail\":\"".toList =
      .ok ([.str p.safetyGuard.text, .comma, .str "safety_guard_detail".toList, .colon],
        .str []) := rfl
  have hbefore : reader.run (.bare (intText p.output.sizeBytes)) p.beforeDetail =
      .ok (.bare (intText p.output.sizeBytes) :: .comma :: p.guardTokens, .str []) :=
    reader.run_trans hguard (State.run_quoted p.safetyGuard.plain hdetail)
  exact reader.run_trans (run_input hin) (reader.run_trans (p.output.run_side hout) hbefore)

theorem reads_output {ts : List Token} {j : Json} : Reads value (p.outputTokens ++ ts) j [] ↔
    ∃ inner top, j = .obj (p.inputMembers ++
        ("output".toList, .obj (p.outputMembers ++ inner)) :: top) ∧
      Reads Json.members (detailTokens ++ ts) (("output".toList, .obj inner) :: top) [] := by
  have hfront (ms : List (JsonText × Json)) (rest : List Token) :
      Reads Json.members (.str "path".toList :: .colon :: (p.output.tokens ++
          .bare (intText p.output.sizeBytes) :: .comma :: (p.guardTokens ++ ts))) ms rest ↔
        ∃ more, ms = p.outputMembers ++ more ∧
          Reads Json.members (.str "safety_guard_detail".toList :: .colon :: ts) more rest := by
    simp only [guardTokens, outputMembers, PlanSide.reads_side_comma, List.cons_append,
      List.nil_append, reads_str_member_iff, List.append_assoc]
    constructor
    · rintro ⟨_, rfl, more, rfl, hmore⟩
      exact ⟨more, rfl, hmore⟩
    · rintro ⟨more, rfl, hmore⟩
      exact ⟨_, rfl, more, rfl, hmore⟩
  simp only [outputTokens, List.append_assoc, List.cons_append, reads_input,
    reads_obj_front_iff hfront]
  constructor
  · rintro ⟨_, rfl, inner, top, rfl, h⟩
    exact ⟨inner, top, rfl, h⟩
  · rintro ⟨inner, top, rfl, h⟩
    exact ⟨_, rfl, inner, top, rfl, h⟩

theorem path_of_members (s : PlanSide) (more : List (JsonText × Json)) {j : Json} :
    member "path".toList (.obj (s.members ++ more)) = some j ↔
      j = .str s.path ∧ lacks "path".toList more := by
  unfold PlanSide.members
  rw [List.cons_append, member_cons_self]
  simp only [List.cons_append, List.nil_append, lacks_cons]
  have h1 : "type".toList ≠ "path".toList := by decide
  have h2 : "exists".toList ≠ "path".toList := by decide
  have h3 : "size_bytes".toList ≠ "path".toList := by decide
  simp only [ne_eq, h1, h2, h3, not_false_eq_true, true_and]

theorem input_path_iff {ms : List (JsonText × Json)} :
    (member "input".toList (.obj (p.inputMembers ++ ms))).bind (member "path".toList) =
      some (.str p.input.path) ↔ lacks "input".toList ms := by
  have hpath : member "path".toList (.obj p.input.members) = some (.str p.input.path) := by
    have h := (path_of_members p.input []).mpr ⟨rfl, nofun⟩
    rwa [List.append_nil] at h
  unfold inputMembers
  rw [List.append_assoc, member_opening (by decide) (by decide), List.singleton_append,
    Option.bind_eq_some_iff]
  constructor
  · rintro ⟨j, hj, -⟩
    exact (member_cons_self.mp hj).2
  · intro h
    exact ⟨_, member_cons_self.mpr ⟨rfl, h⟩, hpath⟩

theorem output_path_iff {inner top : List (JsonText × Json)} :
    (member "output".toList (.obj (p.inputMembers ++
        ("output".toList, .obj (p.outputMembers ++ inner)) :: top))).bind (member "path".toList) =
      some (.str p.output.path) ↔ lacks "output".toList top ∧ lacks "path".toList inner := by
  have hguard : "safety_guard".toList ≠ "path".toList := by decide
  rw [member_inputMembers (by decide) (by decide) (by decide), Option.bind_eq_some_iff]
  unfold outputMembers
  simp only [List.append_assoc]
  constructor
  · rintro ⟨j, hj, hpath⟩
    obtain ⟨rfl, htop⟩ := member_cons_self.mp hj
    obtain ⟨-, hinner⟩ := (path_of_members p.output _).mp hpath
    exact ⟨htop, (lacks_cons.mp hinner).2⟩
  · rintro ⟨htop, hinner⟩
    exact ⟨_, member_cons_self.mpr ⟨rfl, htop⟩,
      (path_of_members p.output _).mpr ⟨rfl, lacks_cons.mpr ⟨hguard, hinner⟩⟩⟩

theorem parse_line_iff (hin : Plain p.input.path) (hout : Plain p.output.path) {j : Json} :
    parse p.line = some j ↔ ∃ inner top, j = .obj (p.inputMembers ++
        ("output".toList, .obj (p.outputMembers ++ inner)) :: top) ∧
      parse p.closing = some (.obj (("output".toList, .obj inner) :: top)) := by
  rw [parse_eq_some_iff, line_eq_throughOutput]
  simp only [reader.read_append_eq_ok_iff (run_output hin hout), parse_closing_iff]
  constructor
  · rintro ⟨_, ⟨ts, hread, rfl⟩, hvalue⟩
    obtain ⟨inner, top, rfl, hms⟩ := reads_output.mp hvalue
    exact ⟨inner, top, rfl, ts, _, hread, rfl, hms⟩
  · rintro ⟨inner, top, rfl, ts, ms, hread, he, hms⟩
    cases he
    exact ⟨_, ⟨ts, hread, rfl⟩, reads_output.mpr ⟨inner, top, rfl, hms⟩⟩

/-- The paths come out of the line as they are when they are plain and the guard's detail does
not change what the line says of them. -/
theorem faithful_iff (p : Plan) : Faithful p.line p.input.path p.output.path ↔
    Plain p.input.path ∧ Plain p.output.path ∧ p.DetailCloses := by
  constructor
  · intro h
    have hin := plain_input h
    have hout := plain_output hin h
    obtain ⟨j, hparse, hinput, houtput⟩ := h
    obtain ⟨inner, top, rfl, hclosing⟩ := (parse_line_iff hin hout).mp hparse
    have hnames := (lacks_cons.mp (input_path_iff.mp hinput)).2
    obtain ⟨htop, hinner⟩ := output_path_iff.mp houtput
    exact ⟨hin, hout, inner, top, hclosing, hinner, hnames, htop⟩
  · rintro ⟨hin, hout, inner, top, hclosing, hinner, hnames, htop⟩
    have hne : "output".toList ≠ "input".toList := by decide
    exact ⟨_, (parse_line_iff hin hout).mpr ⟨inner, top, rfl, hclosing⟩,
      input_path_iff.mpr (lacks_cons.mpr ⟨hne, hnames⟩), output_path_iff.mpr ⟨htop, hinner⟩⟩

/-! ### The line as bytes -/

/-- The same line of other texts. -/
def withTexts (p : Plan) (i o detail : JsonText) : Plan :=
  { p with
    input := { p.input with path := i }
    output := { p.output with path := o }
    safetyGuardDetail := detail }

end Plan

open Utf8

/-- What is printed is the UTF-8 of a text in which the members `path` are these, as bytes. -/
def FaithfulBytes (line i o : List UInt8) : Prop :=
  ∃ text it ot, encode text = line ∧ encode it = i ∧ encode ot = o ∧ Faithful text it ot

def Ascii (text : JsonText) : Prop := ∀ c ∈ text, c.toNat < 0x80

instance (text : JsonText) : Decidable (Ascii text) := List.decidableBAll _ text

theorem Ascii.append {s t : JsonText} (hs : Ascii s) (ht : Ascii t) : Ascii (s ++ t) :=
  List.forall_mem_append.mpr ⟨hs, ht⟩

theorem ascii_of_isBare {w : JsonText} (h : ∀ c ∈ w, isBare c = true) : Ascii w := by
  intro c hc
  have hbare : (decide (c.val ≥ 'A'.val ∧ c.val ≤ 'Z'.val) || (c.val ≥ 'a'.val && c.val ≤ 'z'.val)
      || (c.val ≥ '0'.val && c.val ≤ '9'.val) || c == '+' || c == '-' || c == '.') = true := h c hc
  simp only [Bool.or_eq_true, Bool.and_eq_true, decide_eq_true_eq, beq_iff_eq, ge_iff_le,
    UInt32.le_iff_toNat_le] at hbare
  show c.val.toNat < 0x80
  rcases hbare with ((((⟨-, hupper⟩ | ⟨-, hlower⟩) | ⟨-, hdigit⟩) | rfl) | rfl) | rfl
  · exact Nat.lt_of_le_of_lt hupper (by decide)
  · exact Nat.lt_of_le_of_lt hlower (by decide)
  · exact Nat.lt_of_le_of_lt hdigit (by decide)
  · decide
  · decide
  · decide

theorem ascii_intText (i : Int) : Ascii (intText i) := ascii_of_isBare (isBare_intText i)

theorem ascii_boolText (b : Bool) : Ascii (boolText b) := ascii_of_isBare (isBare_boolText b)

theorem PlanSide.ascii_behindPath (s : PlanSide) : Ascii s.behindPath :=
  .append (by decide) (.append s.type.ascii (.append (by decide) (.append (ascii_boolText _)
    (.append (by decide) (ascii_intText _)))))

namespace Plan

variable {p : Plan}

theorem ascii_beforeDetail (p : Plan) : Ascii p.beforeDetail :=
  .append (by decide) (.append p.safetyGuard.ascii (by decide))

theorem ascii_behindDetail (p : Plan) : Ascii p.behindDetail := by
  refine .append ?_ (.append p.engine.ascii (.append ?_ (.append (ascii_intText _) (.append ?_
    (.append (ascii_boolText _) (.append ?_ (.append (ascii_boolText _) (.append ?_
      (.append (ascii_boolText _) (.append ?_ (.append (ascii_boolText _) (.append ?_
        (.append (ascii_intText _) (.append ?_ (.append (ascii_intText _) (.append ?_
          (.append (ascii_intText _) ?_)))))))))))))))))
  all_goals decide

/-- A line is the UTF-8 of a text when its texts are. -/
theorem encode_eq_line_iff (p : Plan) {text : JsonText} : encode text = bytes p.line ↔
    ∃ i o detail, encode i = bytes p.input.path ∧ encode o = bytes p.output.path ∧
      encode detail = bytes p.safetyGuardDetail ∧ text = (p.withTexts i o detail).line := by
  have hopening : Ascii opening := by decide
  -- each of the three begins with the quote that ends a text
  obtain ⟨a, ha⟩ : ∃ a, p.input.behindPath ++ betweenSides = '"' :: a := ⟨_, rfl⟩
  obtain ⟨b, hb⟩ : ∃ b, p.output.behindPath ++ p.beforeDetail = '"' :: b := ⟨_, rfl⟩
  obtain ⟨c, hc⟩ : ∃ c, p.behindDetail = '"' :: c := ⟨_, rfl⟩
  have hasciiA : Ascii ('"' :: a) := ha ▸ p.input.ascii_behindPath.append (by decide)
  have hasciiB : Ascii ('"' :: b) := hb ▸ p.output.ascii_behindPath.append p.ascii_beforeDetail
  have hasciiC : Ascii ('"' :: c) := hc ▸ p.ascii_behindDetail
  have hline (i o detail : JsonText) : (p.withTexts i o detail).line =
      opening ++ (i ++ ('"' :: a ++ (o ++ ('"' :: b ++ (detail ++ ('"' :: c ++ [])))))) := by
    rw [← ha, ← hb, ← hc]
    simp only [List.append_assoc, List.append_nil]
    rfl
  have hbytes : bytes p.line = bytes opening ++ (bytes p.input.path ++ (bytes ('"' :: a) ++
      (bytes p.output.path ++ (bytes ('"' :: b) ++ (bytes p.safetyGuardDetail ++
        (bytes ('"' :: c) ++ [])))))) := by
    have h := hline p.input.path p.output.path p.safetyGuardDetail
    rw [show p.withTexts p.input.path p.output.path p.safetyGuardDetail = p from rfl] at h
    rw [h]
    simp only [bytes_append]
    rfl
  rw [hbytes]
  simp only [hline, encode_eq_bytes_append hopening, encode_eq_append_bytes_append hasciiA,
    encode_eq_append_bytes_append hasciiB, encode_eq_append_bytes_append hasciiC]
  constructor
  · rintro ⟨_, rfl, i, _, rfl, hi, o, _, rfl, ho, detail, last, rfl, hdetail, hlast⟩
    obtain rfl := encode_injective (t := []) hlast
    exact ⟨i, o, detail, hi, ho, hdetail, rfl⟩
  · rintro ⟨i, o, detail, hi, ho, hdetail, rfl⟩
    exact ⟨_, rfl, i, _, rfl, hi, o, _, rfl, ho, detail, [], rfl, hdetail, rfl⟩

/-- What is printed is faithful when the texts are UTF-8 and the line of them is. -/
theorem faithfulBytes_iff (p : Plan) :
    FaithfulBytes (bytes p.line) (bytes p.input.path) (bytes p.output.path) ↔
      ∃ i o detail, encode i = bytes p.input.path ∧ encode o = bytes p.output.path ∧
        encode detail = bytes p.safetyGuardDetail ∧ Plain i ∧ Plain o ∧
          (p.withTexts i o detail).DetailCloses := by
  constructor
  · rintro ⟨text, it, ot, htext, hit, hot, hfaithful⟩
    obtain ⟨i, o, detail, hi, ho, hdetail, rfl⟩ := p.encode_eq_line_iff.mp htext
    obtain rfl := encode_injective (hit.trans hi.symm)
    obtain rfl := encode_injective (hot.trans ho.symm)
    exact ⟨it, ot, detail, hi, ho, hdetail, (p.withTexts it ot detail).faithful_iff.mp hfaithful⟩
  · rintro ⟨i, o, detail, hi, ho, hdetail, hplain⟩
    exact ⟨_, i, o, p.encode_eq_line_iff.mpr ⟨i, o, detail, hi, ho, hdetail, rfl⟩, hi, ho,
      (p.withTexts i o detail).faithful_iff.mpr hplain⟩

end Plan

end Blkcp
