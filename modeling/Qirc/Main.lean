import Qirc.CommandLine.Paths
import Std.Time.DateTime.Timestamp

/-!
# The program

The command line is run on a value that holds what the disk has at the paths it mentions. What the
run changed in that value is then put on the disk, and its two texts are printed. No assembler is at
hand.
-/

namespace Qirc

def pathOf (place : Location) : String := "/" ++ String.intercalate "/" place

/-- What the disk has at a place whose directory is there. Devices have no content of their own. -/
def entryOnDisk (place : Location) : IO (Option Files.Entry) := do
  let path := pathOf place
  try
    let _ ← IO.FS.Handle.mk path .readWrite
    if place.head? = some "dev" then pure (some (.file []))
    else pure (some (.file (← IO.FS.readBinFile path).toList))
  catch
    | .inappropriateType _ _ _ => pure (some .dir)
    | .permissionDenied _ _ _ => pure (some (.file (← IO.FS.readBinFile path).toList))
    | _ => pure none

def Files.discover (fs : Files) : Location → List String → IO Files
  | _, [] => pure fs
  | here, name :: rest => do
    let place := here ++ [name]
    if fs.isDir place then fs.discover place rest
    else if (fs.content? place).isSome then pure fs
    else match ← entryOnDisk place with
      | some .dir =>
        let fs := { fs with dirs := place :: fs.dirs }
        fs.discover place rest
      | some (.file bytes) => pure (fs.put place bytes)
      | none => pure fs

def Files.discoverAll (fs : Files) (paths : List String) : IO Files :=
  paths.foldlM (fun fs p => fs.discover [] (Path.steps (Path.absolute fs.workingDir p))) fs

def Files.store (before after : Files) : IO Unit := do
  for dir in after.dirs.reverse do
    if !before.isDir dir then IO.FS.createDirAll (pathOf dir)
  for (place, bytes) in after.contents do
    if before.content? place != some bytes then
      IO.FS.writeBinFile (pathOf place) (ByteArray.mk bytes.toArray)

end Qirc

open Qirc in
def main (words : List String) : IO UInt32 := do
  let out ← IO.getStdout
  let err ← IO.getStderr
  let now ← Std.Time.Timestamp.now
  let cwd := (← IO.currentDir).toString
  let empty : Files := { cwd := Path.steps cwd }
  let files ← empty.discoverAll (cwd :: CommandLine.firstPaths words cwd)
  let files ← files.discoverAll (CommandLine.settingsPaths words files)
  let session : Session :=
    { files := files, interactive := ← out.isTty,
      tracer := { Trace.Tracer.silent with now := now.toNanosecondsSinceUnixEpoch.toInt / 1000 } }
  let (code, session) := CommandLine.execute words session
  files.store session.files
  out.write (ByteArray.mk session.stdout.toArray)
  err.putStr session.stderr
  pure (UInt32.ofNat code)
