import Qirc.Files
import Qirc.Graph.Document.Json
import Qirc.Graph.Document.MessagePack
import Qirc.Path

/-!
# Encoded program graphs

A graph is read from and written to bytes in one of two formats, which a path tells by its
extension.
-/

namespace Qirc

inductive GraphFormat where
  | json
  | messagePack
  | unknown
  deriving DecidableEq, Repr, Inhabited

namespace GraphFormat

def name : GraphFormat → String
  | .json => "json"
  | .messagePack => "msgpack"
  | .unknown => "unknown"

def ofCode : Nat → GraphFormat
  | 1 => .json
  | 2 => .messagePack
  | _ => .unknown

def code : GraphFormat → Nat
  | .json => 1
  | .messagePack => 2
  | .unknown => 0

def ofPath (path : String) : GraphFormat :=
  match Text.lower (Path.ext path) with
  | ".mp" | ".msgpack" => .messagePack
  | _ => .json

end GraphFormat

/-- Why a document could not be read: its bytes are no document, or the document is no graph. -/
inductive DecodeError where
  | format
  | bytes (empty : Bool)
  | document (f : Failure)
  deriving Inhabited

def DecodeError.failure : DecodeError → Failure
  | .format => .error .graphFormat
  | .bytes empty =>
    .graph (.unreadable (if empty then "EOF" else "the bytes are not a graph document"))
  | .document f => f

namespace Graph

def ofDocument (d : Option Document) (empty : Bool) : Except DecodeError Graph :=
  match d with
  | none => .error (.bytes empty)
  | some d =>
    match d.toGraph with
    | .ok g => .ok g
    | .error f => .error (.document f)

def ofJson (j : Json) : Except DecodeError Graph := ofDocument (Document.ofJson? j) false

def decode (format : GraphFormat) (bytes : List UInt8) : Except DecodeError Graph :=
  match format with
  | .json =>
    let text := Text.ofUtf8 bytes
    ofDocument ((Json.first? text).bind Document.ofJson?) (text.toList.all Json.isBlank)
  | .messagePack =>
    ofDocument ((MessagePack.first? bytes).bind Document.ofMessagePack?) bytes.isEmpty
  | .unknown => .error .format

def jsonText (g : Graph) : Except Error String := do
  pure (← (Document.ofGraph g).toJson).pretty

def encode (format : GraphFormat) (g : Graph) : Except Error (List UInt8) :=
  match format with
  | .json => g.jsonText.map Text.utf8
  | .messagePack => .ok (Document.ofGraph g).toMessagePack
  | .unknown => .error .graphFormat

def load (fs : Files) (path : String) : Except Failure Graph :=
  match fs.lookup path with
  | .error why => .error (.error (.within "failed to open graph" (.file "open" path why)))
  | .ok .dir =>
    let why : Error := .file "read" path .isDirectory
    .error ((Failure.graph (.unreadable why.message)).within path)
  | .ok (.file bytes) =>
    match decode (.ofPath path) bytes with
    | .ok g => .ok g
    | .error e => .error (e.failure.within path)

/-- Write a graph to a file. The file is there, and empty, when the graph has no written form. -/
def save (g : Graph) (path : String) : Step Files Unit := do
  let fs ← get
  match fs.write path [] with
  | .error e => throw (.error (.within "failed to write graph dump" e))
  | .ok fs =>
    set fs
    match g.encode (.ofPath path) with
    | .error e => throw (.error e)
    | .ok bytes =>
      match fs.write path bytes with
      | .error e => throw (.error e)
      | .ok fs => set fs

end Graph

end Qirc
