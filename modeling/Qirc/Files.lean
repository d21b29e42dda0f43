import Qirc.Error
import Qirc.Path

/-!
# Files

A tree of directories and files as a value. A path is followed name by name: every name before the
last must be that of a directory, and `..` leads back only from where one stands. Names and paths
have a greatest length in bytes.
-/

namespace Qirc

abbrev Location := List String

structure Files where
  /-- Where relative paths start. -/
  cwd : Location := []
  dirs : List Location := []
  contents : List (Location × List UInt8) := []
  deriving Inhabited

namespace Files

def workingDir (fs : Files) : String := "/" ++ String.intercalate "/" fs.cwd

def isDir (fs : Files) (place : Location) : Bool := place.isEmpty || fs.dirs.contains place

def content? (fs : Files) (place : Location) : Option (List UInt8) :=
  (fs.contents.find? (fun e => e.1 == place)).map (·.2)

def nameLimit : Nat := 255

def pathLimit : Nat := 4095

def follow (fs : Files) : Location → List String → Except FileReason Location
  | here, [] => .ok here
  | here, name :: rest =>
    if fs.isDir here then
      if name = "" ∨ name = "." then fs.follow here rest
      else if name = ".." then fs.follow here.dropLast rest
      else if nameLimit < (Text.utf8 name).length then .error .nameTooLong
      else fs.follow (here ++ [name]) rest
    else .error (if (fs.content? here).isSome then .notDirectory else .missing)

def locate (fs : Files) (path : String) : Except FileReason Location :=
  if path = "" then .error .missing
  else if path.toList.any (·.toNat == 0) then .error .badName
  else if pathLimit < (Text.utf8 path).length then .error .nameTooLong
  else fs.follow (if Path.isAbsolute path then [] else fs.cwd) (Path.names path)

inductive Entry where
  | file (bytes : List UInt8)
  | dir
  deriving DecidableEq, Repr, Inhabited

def lookup (fs : Files) (path : String) : Except FileReason Entry :=
  match fs.locate path with
  | .error why => .error why
  | .ok place =>
    if fs.isDir place then .ok .dir
    else match fs.content? place with
      | some bytes => .ok (.file bytes)
      | none => .error .missing

def read (fs : Files) (path : String) : Except Error (List UInt8) :=
  match fs.lookup path with
  | .ok (.file bytes) => .ok bytes
  | .ok .dir => .error (.file "read" path .isDirectory)
  | .error why => .error (.file "open" path why)

def put (fs : Files) (place : Location) (bytes : List UInt8) : Files :=
  { fs with contents := (place, bytes) :: fs.contents.filter (fun e => e.1 != place) }

def unslashed (path : String) : String :=
  let named := String.ofList (Path.dropTrailing '/' path.toList)
  if named = "" then path else named

def write (fs : Files) (path : String) (bytes : List UInt8) : Except Error Files :=
  match fs.locate (unslashed path) with
  | .error why => .error (.file "open" path why)
  | .ok place =>
    if unslashed path ≠ path ∨ fs.isDir place then .error (.file "open" path .isDirectory)
    else .ok (fs.put place bytes)

/-- The paths that lead up to a path, itself last. All before it end in a slash. -/
def ancestors (path : String) : List String :=
  let names := Path.names path
  (List.range names.length).map fun k =>
    String.intercalate "/" (names.take (k + 1)) ++ (if k + 1 < names.length then "/" else "")

def addDirs (fs : Files) : List String → Except Error Files
  | [] => .ok fs
  | path :: rest =>
    match fs.lookup path with
    | .ok .dir => fs.addDirs rest
    | .ok (.file _) => .error (.file "mkdir" path .notDirectory)
    | .error _ =>
      match fs.locate (unslashed path) with
      | .error why => .error (.file "mkdir" path why)
      | .ok place =>
        if (fs.content? place).isSome then .error (.file "mkdir" path .alreadyThere)
        else { fs with dirs := place :: fs.dirs }.addDirs rest

def makeDirs (fs : Files) (path : String) : Except Error Files := fs.addDirs (ancestors path)

end Files

end Qirc
