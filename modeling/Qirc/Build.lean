import Qirc.Compilation

/-!
# Builds

A build compiles an input and writes the module in the format that is asked for, to a file or to the
standard output. Builds of several inputs follow each other; one that fails does not stop the rest.
-/

namespace Qirc

open Pipeline IR

structure BuildRequest extends CompileRequest where
  /-- Where the artifact goes; empty or a dash is the standard output. -/
  output : String := ""
  format : ArtifactFormat := .auto

def BuildRequest.toStdout (r : BuildRequest) : Bool := r.output == "" || r.output == "-"

structure Built extends Compilation where
  output : String := ""
  format : ArtifactFormat := .auto
  size : Nat := 0
  deriving Inhabited

namespace BuildRequest

/-- The format of the artifact; a destination tells it when none is asked for. -/
def artifactFormat (r : BuildRequest) (s : Session) : ArtifactFormat :=
  if r.format = .auto then
    if r.toStdout then .ofPath "" s.interactive else .ofPath r.output false
  else r.format

def deliver (r : BuildRequest) (bytes : List UInt8) (s : Session) : Except Error Unit × Session :=
  if r.toStdout then (.ok (), { s with stdout := s.stdout ++ bytes })
  else
    let dir := Path.dir r.output
    match if dir = "." then .ok s.files else s.files.makeDirs dir with
    | .error e => (.error (.within "failed to create output dir" e), s)
    | .ok files =>
      let s := { s with files := files }
      match files.write r.output bytes with
      | .error e => (.error (.within ("failed to write " ++ Text.quote r.output) e), s)
      | .ok files => (.ok (), { s with files := files })

end BuildRequest

def build (r : BuildRequest) : Attempt Built := fun s =>
  match compile r.toCompileRequest s with
  | ((c, some f), s) => (({ c with }, some f), s)
  | ((c, none), s) =>
    let format := r.artifactFormat s
    let result : Built := { c with format := format }
    let s := s.tell { file := r.label, stage := .write, status := .working }
    let fail (e : Error) (s : Session) : (Built × Option Failure) × Session :=
      let e := Error.within Stage.write.name e
      ((result, some (.error e)),
        s.tell { file := r.label, stage := .write, status := .error, error := some e })
    match encodeModule c.module format s.assembler with
    | .error (.error e) => fail e s
    | .error f => ((result, some f), s)
    | .ok bytes =>
      match r.deliver bytes s with
      | (.error e, s) => fail e s
      | (.ok _, s) =>
        let result :=
          { result with
            output := if r.toStdout then "" else r.output
            size := bytes.length
            timings := result.timings.set .write 0 }
        ((result, none), s.tell { file := r.label, stage := .write, status := .done })

/-- Build inputs one after the other. The errors come in the order of the inputs. -/
def buildEach : List (Option BuildRequest) → Session →
    (List Built × List Error × Option Failure) × Session
  | [], s => (([], [], none), s)
  | none :: rest, s =>
    let ((bs, es, f), s) := buildEach rest s
    (({} :: bs, .absent "build request" :: es, f), s)
  | some r :: rest, s =>
    match build r s with
    | ((b, some (.error e)), s) =>
      let ((bs, es, f), s) := buildEach rest s
      ((b :: bs, .within r.label e :: es, f), s)
    | ((b, some f), s) => (([b], [], some f), s)
    | ((b, none), s) =>
      let ((bs, es, f), s) := buildEach rest s
      ((b :: bs, es, f), s)

def buildAll (rs : List (Option BuildRequest)) : Attempt (List Built) := fun s =>
  let s := rs.reduceOption.foldl
    (fun s r => s.tell { file := r.label, stage := .load, status := .queued }) s
  match buildEach rs s with
  | ((bs, _, some f), s) => ((bs, some f), s)
  | ((bs, [], none), s) => ((bs, none), s)
  | ((bs, es, none), s) => ((bs, some (.error (.all es))), s)

end Qirc
