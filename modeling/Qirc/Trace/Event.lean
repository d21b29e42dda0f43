import Qirc.Json.Writer
import Qirc.Text.Timestamp
import Qirc.Trace.Level

/-!
# Trace events

An event is written as one line, for readers or as a JSON object. Numbers that are zero and empty
details are left out of the object.
-/

namespace Qirc.Trace

structure Event where
  time : Int
  /-- The number that whatever keeps the event gave it. -/
  seq : Nat := 0
  kind : Kind
  scope : Scope
  span : Nat := 0
  /-- The span around it, zero if there is none. -/
  parent : Nat := 0
  /-- The thread of execution that made it, zero if that is not known. -/
  thread : Nat := 0
  name : String
  detail : String := ""
  extra : List (String × String) := []
  deriving DecidableEq, Repr, Inhabited

def putExtra (key value : String) : List (String × String) → List (String × String)
  | [] => [(key, value)]
  | e :: rest => if e.1 == key then (key, value) :: rest else e :: putExtra key value rest

def sortedExtra (extra : List (String × String)) : List (String × String) :=
  extra.mergeSort (fun a b => decide (a.1 ≤ b.1))

def leftPadded (width : Nat) (s : String) : String :=
  s ++ String.ofList (List.replicate (width - s.length) ' ')

namespace Event

def textLine (e : Event) : String :=
  let detail := if e.detail = "" then "" else " (" ++ e.detail ++ ")"
  let extra :=
    if e.extra.isEmpty then ""
    else " \x7b" ++
      String.intercalate ", " ((sortedExtra e.extra).map (fun p => p.1 ++ "=" ++ p.2)) ++ "\x7d"
  "#" ++ leftPadded 5 (toString e.seq) ++ " " ++ leftPadded 6 e.scope.name ++ " " ++
    (if 0 < e.parent then "  " else "") ++ e.kind.mark ++ e.name ++ detail ++ extra ++ "\n"

def numberMember (name : String) (n : Nat) : List (String × Json) :=
  if n = 0 then [] else [(name, Json.nat n)]

def json (e : Event) : Json :=
  .object ([("time", .string (Text.timestamp e.time)), ("seq", Json.nat e.seq),
      ("kind", .string e.kind.name), ("scope", .string e.scope.name)] ++
    numberMember "span_id" e.span ++ numberMember "parent_id" e.parent ++
    numberMember "gid" e.thread ++ [("name", .string e.name)] ++
    (if e.detail = "" then [] else [("detail", .string e.detail)]) ++
    (if e.extra.isEmpty then []
      else [("extra", .object ((sortedExtra e.extra).map (fun p => (p.1, .string p.2))))]))

def line (e : Event) : Format → String
  | .ndjson => e.json.compact ++ "\n"
  | _ => e.textLine

end Event

end Qirc.Trace
