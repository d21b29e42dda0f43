/-!
# Paths

Paths are texts with slashes between names. `clean` gives the shortest path of the same meaning by
its text alone, `relative?` a path from one place to another.
-/

namespace Qirc.Path

def isAbsolute (p : String) : Bool := p.toList.head? == some '/'

def names (p : String) : List String := (p.toList.splitOn '/').map String.ofList

/-- What the last dot of the last name starts, with the dot; empty without a dot. -/
def ext (p : String) : String :=
  let rest := p.toList.reverse.takeWhile (fun c => c != '.' && c != '/')
  if (p.toList.reverse.drop rest.length).head? == some '.' then "." ++ String.ofList rest.reverse
  else ""

def dropTrailing (c : Char) (cs : List Char) : List Char := (cs.reverse.dropWhile (· == c)).reverse

def base (p : String) : String :=
  if p = "" then "."
  else
    let cs := dropTrailing '/' p.toList
    if cs.isEmpty then "/" else String.ofList (cs.reverse.takeWhile (· != '/')).reverse

def stem (p : String) : String :=
  let name := base p
  String.ofList (name.toList.take (name.length - (ext name).length))

def resolve (absolute : Bool) (before : List String) (name : String) : List String :=
  if name = "" ∨ name = "." then before
  else if name = ".." then
    match before with
    | [] => if absolute then [] else [".."]
    | ".." :: _ => ".." :: before
    | _ :: rest => rest
  else name :: before

def clean (p : String) : String :=
  let absolute := isAbsolute p
  let kept := ((names p).foldl (resolve absolute) []).reverse
  let text := String.intercalate "/" kept
  if absolute then "/" ++ text else if text = "" then "." else text

def dir (p : String) : String :=
  clean (String.ofList (p.toList.reverse.dropWhile (· != '/')).reverse)

def join (parts : List String) : String :=
  match parts.filter (· != "") with
  | [] => ""
  | some_ => clean (String.intercalate "/" some_)

def absolute (cwd p : String) : String := if isAbsolute p then clean p else join [cwd, p]

def steps (p : String) : List String := (names p).filter (fun n => n != "" && n != ".")

def dropCommon : List String → List String → List String × List String
  | a :: as, b :: bs => if a = b then dropCommon as bs else (a :: as, b :: bs)
  | as, bs => (as, bs)

/-- The path from one place to another; none if the text does not tell it. -/
def relative? (source target : String) : Option String :=
  let s := clean source
  let t := clean target
  if s = t then some "."
  else if isAbsolute s != isAbsolute t then none
  else
    let (up, down) := dropCommon (steps s) (steps t)
    if up.contains ".." then none
    else
      let path := up.map (fun _ => "..") ++ down
      some (if path.isEmpty then "." else String.intercalate "/" path)

end Qirc.Path
