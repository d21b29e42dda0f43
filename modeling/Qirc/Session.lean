import Qirc.Artifact
import Qirc.Files
import Qirc.Pipeline.Progress
import Qirc.Trace.Tracer

/-!
# Sessions

What compilations share: the files they read and write, the assembler at hand, what they print,
the tracer, and the list of the messages on their progress.
-/

namespace Qirc

open Pipeline

structure Session where
  files : Files := {}
  assembler : Option Assembler := none
  interactive : Bool := false
  stdout : List UInt8 := []
  stderr : String := ""
  tracer : Trace.Tracer := Trace.Tracer.silent
  progress : List Progress := []
  canceled : Bool := false

namespace Session

def tell (s : Session) (p : Progress) : Session := { s with progress := s.progress ++ [p] }

def print (s : Session) (text : String) : Session := { s with stdout := s.stdout ++ Text.utf8 text }

def warn (s : Session) (text : String) : Session := { s with stderr := s.stderr ++ text }

end Session

end Qirc
