import Mathlib.Data.List.Basic
set_option autoImplicit false

/-! `getopt_long` over a table of options: clusters of letters, long names with what they may be cut
to, arguments in the same word or in the next one. -/

namespace Blkcp.Lib.Getopt

abbrev Word := List Char

inductive HasArg where
  | no | required | optional
  deriving DecidableEq

structure Table (κ : Type) where
  short : List (Char × HasArg × κ)
  long : List (Word × HasArg × κ)

inductive Item (κ : Type) where
  | option (code : κ) (optarg : Option Word)
  | unknown
  | operand (text : Word)
  deriving DecidableEq

variable {κ : Type} [DecidableEq κ] (T : Table κ)

namespace Table

/-- The letters of a word. The last of them may wait for the next word. -/
def letters : List Char → List (Item κ) × Option κ
  | [] => ([], none)
  | c :: cs =>
    match T.short.lookup c with
    | none => (.unknown :: (letters cs).1, (letters cs).2)
    | some (.no, k) => (.option k none :: (letters cs).1, (letters cs).2)
    | some (.optional, k) => ([.option k (if cs = [] then none else some cs)], none)
    | some (.required, k) => if cs = [] then ([], some k) else ([.option k (some cs)], none)

/-- A long option by its name, or by what only one option starts with. -/
def longOption (name : Word) : Option (HasArg × κ) :=
  match T.long.lookup name with
  | some o => some o
  | none =>
    match T.long.filter fun e => name.isPrefixOf e.1 with
    | [] => none
    | e :: es => if es.all fun f => f.2 = e.2 then some e.2 else none

def longWord (w : Word) : List (Item κ) × Option κ :=
  let value := (w.dropWhile (· ≠ '=')).tail?
  match T.longOption (w.takeWhile (· ≠ '=')), value with
  | none, _ => ([.unknown], none)
  | some (.no, k), none => ([.option k none], none)
  | some (.no, _), some _ => ([.unknown], none)
  | some (.optional, k), v => ([.option k v], none)
  | some (.required, k), some v => ([.option k (some v)], none)
  | some (.required, k), none => ([], some k)

/-- One word, and the option that the next one belongs to. -/
def word : Word → List (Item κ) × Option κ
  | '-' :: '-' :: w => T.longWord w
  | '-' :: c :: cs => T.letters (c :: cs)
  | w => ([.operand w], none)

def scan : Option κ → List Word → List (Item κ)
  | none, [] => []
  | some _, [] => [.unknown]
  | some k, w :: ws => .option k (some w) :: scan none ws
  | none, w :: ws =>
    if w = ['-', '-'] then ws.map .operand else (T.word w).1 ++ scan (T.word w).2 ws

end Table

end Blkcp.Lib.Getopt
