import Qirc.CommandLine.Run

/-!
# The paths of a command line

Which paths a command line may read or write. Some of them are in its words, and the settings of a
build tell the others once the manifest is known.
-/

namespace Qirc.CommandLine

def pathsInWord (word : String) : List String :=
  [word, String.ofList ((word.toList.dropWhile (· != '=')).drop 1),
    String.ofList (word.toList.drop 2)]

def manifestPaths (cwd : String) : List String :=
  (Manifest.upwards (Path.steps cwd).reverse).map (fun dir => Path.join [dir, Manifest.fileName])

def firstPaths (words : List String) (cwd : String) : List String :=
  (manifestPaths cwd ++ words.flatMap pathsInWord).filter (· != "")

def settingsPaths (words : List String) (files : Files) : List String :=
  match Call.ofWords words with
  | .error _ => []
  | .ok c =>
    match c.buildSettings files with
    | .error _ => []
    | .ok s =>
      let format := ((ArtifactFormat.ofText s.format).toOption).getD .auto
      (s.saveGraph :: s.inputs ++ s.inputs.map (s.outputOf format)).filter (· != "")

end Qirc.CommandLine
