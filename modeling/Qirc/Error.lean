import Qirc.Graph.Error
import Qirc.IR.Defect
import Qirc.Pipeline.State

/-!
# Errors

An error names its cause; `Error.message` words it and `Error.kind` classifies it. A computation
that stops does so with an error, which is an answer, or because a precondition of one of its steps
was broken, which is none.
-/

namespace Qirc

inductive LoweringError where
  | unsupported (key : OpKey)
  | emptyTag
  | arity (key : OpKey) (side : String) (want got : Nat)
  | signature (key : OpKey) (want got : Signature)
  | noType (t : ValueType)
  | outputs (count : Nat)
  | constant (t : ValueType)
  deriving DecidableEq, Repr

def LoweringError.message : LoweringError → String
  | .unsupported k => "lowering error: unsupported operation " ++ k.text
  | .emptyTag => "lowering error: empty result tag"
  | .arity k side w g =>
    "lowering error: wrong operand arity: " ++ k.text ++ s!" takes {w} {side}, node has {g}"
  | .signature k w g =>
    "lowering error: " ++ k.text ++ " expects " ++ w.text ++ ", node has " ++ g.text
  | .noType t => "lowering error: no IR type for " ++ t.name
  | .outputs n => s!"lowering error: functions with {n} outputs are not supported"
  | .constant t => "lowering error: constants of type " ++ t.name

inductive FileReason where
  | missing
  | isDirectory
  | notDirectory
  | alreadyThere
  | nameTooLong
  | badName
  deriving DecidableEq, Repr

def FileReason.text : FileReason → String
  | .missing => "no such file or directory"
  | .isDirectory => "is a directory"
  | .notDirectory => "not a directory"
  | .alreadyThere => "file exists"
  | .nameTooLong => "file name too long"
  | .badName => "invalid argument"

inductive Error where
  | graph (e : GraphError)
  | entryMissing
  | entryAmbiguous (count : Nat)
  | notACall (id : NodeId)
  | recursion (names : List String)
  | lowering (e : LoweringError)
  | conflict (name : String) (have_ want : IR.Prototype)
  | nameTaken (name : String)
  | pointerWidthUnknown
  | noBody
  | pointerWidth (width : Int)
  | entryFunction (name : String)
  | outOfRange
  | defective (report : IR.Report)
  | rejected (report : IR.Report) (text : String)
  | unknownPass (name : String)
  | transition (source target : Pipeline.State)
  | bodies (names : List String)
  | noAssembler
  | canceled
  | absent (what : String)
  | unknownTarget (name : String)
  | graphFormat
  | formatName (name : String)
  | formatUnsupported (name : String)
  | traceLevel (name : String)
  | traceFormat (name : String)
  | traceMode (name : String)
  | traceModeUnknown
  | unwritable (value : String)
  | file (verb path : String) (reason : FileReason)
  | findings (lines : List String)
  | reason (text : String)
  | within (context : String) (e : Error)
  | detailed (e : Error) (detail : String)
  | all (es : List Error)
  deriving Inhabited

inductive ErrorKind where
  | cyclicCallGraph
  | invalidArgument
  | missingEntryPoint
  | ambiguousEntryPoint
  | unsupportedOperation
  | emptyResultTag
  | arity
  | lowering
  | conflictingDeclaration
  | unknownPointerWidth
  | resourceAssignment
  | verification
  | missingEntryFunction
  | invalidTransition
  | multipleBodies
  | noAssembler
  | canceled
  | graph
  | other
  deriving DecidableEq, Repr

namespace ErrorKind

/-- The classes, the one that is named first where an error belongs to several first. -/
def all : List ErrorKind :=
  [.cyclicCallGraph, .invalidArgument, .missingEntryPoint, .ambiguousEntryPoint,
    .unsupportedOperation, .emptyResultTag, .arity, .lowering, .conflictingDeclaration,
    .unknownPointerWidth, .resourceAssignment, .verification, .missingEntryFunction,
    .invalidTransition, .multipleBodies, .noAssembler, .canceled, .graph]

def name : ErrorKind → String
  | .cyclicCallGraph => "CyclicCallGraph"
  | .invalidArgument => "InvalidArgument"
  | .missingEntryPoint => "MissingEntryPoint"
  | .ambiguousEntryPoint => "AmbiguousEntryPoint"
  | .unsupportedOperation => "UnsupportedOperation"
  | .emptyResultTag => "EmptyResultTag"
  | .arity => "Arity"
  | .lowering => "Lowering"
  | .conflictingDeclaration => "ConflictingDeclaration"
  | .unknownPointerWidth => "UnknownPointerWidth"
  | .resourceAssignment => "ResourceAssignment"
  | .verification => "Verification"
  | .missingEntryFunction => "MissingEntryFunction"
  | .invalidTransition => "InvalidTransition"
  | .multipleBodies => "MultipleBodies"
  | .noAssembler => "NoAssembler"
  | .canceled => "Canceled"
  | .graph => "Graph"
  | .other => "Error"

end ErrorKind

def commaList (names : List String) : String := String.intercalate ", " names

mutual

def Error.message : Error → String
  | .graph e => e.message
  | .entryMissing => "entry point error: no top-level function named \"main\""
  | .entryAmbiguous n =>
    s!"entry point error: more than one top-level function named \"main\" ({n} found)"
  | .notACall id => s!"invalid inlining argument: node {id} is not a call"
  | .recursion names => "cyclic call graph: recursion among " ++ commaList names
  | .lowering e => e.message
  | .conflict n h w =>
    "conflicting function declaration: @" ++ n ++ " is " ++ h.text ++ ", requested " ++ w.text
  | .nameTaken n => "conflicting function declaration: @" ++ n ++ " already exists"
  | .pointerWidthUnknown => "resource assignment failed: pointer width unknown, using 64 bits"
  | .noBody => "resource assignment failed: function has no body"
  | .pointerWidth w => s!"resource assignment failed: invalid pointer width {w}"
  | .entryFunction n => "entry function not found: @" ++ n
  | .outOfRange => "out of range"
  | .defective r => r.text
  | .rejected r _ => "module verification failed: " ++ r.text
  | .unknownPass n => "unknown pass " ++ Text.quote n
  | .transition s t => "invalid pipeline transition: cannot reach " ++ t.name ++ " from " ++ s.name
  | .bodies names =>
    s!"expected exactly one function body, found {names.length}: " ++
      commaList (names.map ("@" ++ ·))
  | .noAssembler => "llvm-as not found; install LLVM or use --format=llvmir"
  | .canceled => "context canceled"
  | .absent what => "missing " ++ what
  | .unknownTarget n => "unknown target " ++ Text.quote n ++ " (expected: hardware|native)"
  | .graphFormat => "unsupported graph format unknown"
  | .formatName n =>
    "unknown output format " ++ Text.quote n ++ " (expected: auto|llvmir|bitcode|base64)"
  | .formatUnsupported n => "unsupported output format " ++ Text.quote n
  | .traceLevel n =>
    "invalid trace level: " ++ Text.quote n ++ " (expected: off|error|phase|detail|debug)"
  | .traceFormat n => "invalid trace format: " ++ Text.quote n ++ " (expected: auto|text|ndjson)"
  | .traceMode n => "invalid storage mode: " ++ Text.quote n ++ " (expected: stream|ring|both)"
  | .traceModeUnknown => "unknown storage mode: unknown"
  | .unwritable v => "json: unsupported value: " ++ v
  | .file verb path why => verb ++ " " ++ path ++ ": " ++ why.text
  | .findings lines => String.intercalate "\n" lines
  | .reason t => t
  | .within c e => c ++ ": " ++ e.message
  | .detailed e d => e.message ++ ": " ++ d
  | .all es => String.intercalate "\n" (Error.messages es)

def Error.messages : List Error → List String
  | [] => []
  | e :: rest => e.message :: Error.messages rest

end

mutual

/-- The classes an error belongs to. A finer class comes with the coarser ones around it. -/
def Error.kinds : Error → List ErrorKind
  | .graph _ => [.graph]
  | .entryMissing => [.missingEntryPoint]
  | .entryAmbiguous _ => [.ambiguousEntryPoint]
  | .notACall _ => [.invalidArgument]
  | .recursion _ => [.cyclicCallGraph]
  | .lowering (.unsupported _) => [.unsupportedOperation, .lowering]
  | .lowering .emptyTag => [.emptyResultTag, .lowering]
  | .lowering (.arity _ _ _ _) => [.arity, .lowering]
  | .lowering _ => [.lowering]
  | .conflict _ _ _ => [.conflictingDeclaration]
  | .nameTaken _ => [.conflictingDeclaration]
  | .pointerWidthUnknown => [.unknownPointerWidth, .resourceAssignment]
  | .noBody => [.resourceAssignment]
  | .pointerWidth _ => [.resourceAssignment]
  | .entryFunction _ => [.missingEntryFunction]
  | .rejected _ _ => [.verification]
  | .transition _ _ => [.invalidTransition]
  | .bodies _ => [.multipleBodies]
  | .noAssembler => [.noAssembler]
  | .canceled => [.canceled]
  | .within _ e => e.kinds
  | .detailed e _ => e.kinds
  | .all es => Error.kindsOf es
  | _ => []

def Error.kindsOf : List Error → List ErrorKind
  | [] => []
  | e :: rest => e.kinds ++ Error.kindsOf rest

end

def Error.kind (e : Error) : ErrorKind :=
  (ErrorKind.all.find? (fun k => e.kinds.contains k)).getD .other

mutual

def Error.rejectedModule? : Error → Option String
  | .rejected _ text => some text
  | .within _ e => e.rejectedModule?
  | .detailed e _ => e.rejectedModule?
  | .all es => Error.rejectedIn? es
  | _ => none

def Error.rejectedIn? : List Error → Option String
  | [] => none
  | e :: rest => match e.rejectedModule? with
    | some t => some t
    | none => Error.rejectedIn? rest

end

/-- How a computation stops early: with an error, or because a precondition was broken. -/
inductive Failure where
  | error (e : Error)
  | abort (cause : Option Error)
  deriving Inhabited

/-- A step on a state that may stop early; the state it reached is kept. -/
abbrev Step (σ α : Type) := EStateM Failure σ α

def Failure.graph (e : GraphError) : Failure := .error (.graph e)

def Failure.within (context : String) : Failure → Failure
  | .error e => .error (.within context e)
  | f => f

def Step.inContext {σ α : Type} (context : String) (step : Step σ α) : Step σ α :=
  fun s => match step s with
    | .ok a s => .ok a s
    | .error f s => .error (f.within context) s

def Step.zoom {σ τ α : Type} (part : σ → τ) (put : τ → σ → σ) (step : Step τ α) : Step σ α :=
  fun s => match step (part s) with
    | .ok a t => .ok a (put t s)
    | .error f t => .error f (put t s)

def Step.ofExcept {σ α : Type} : Except Failure α → Step σ α
  | .ok a => pure a
  | .error f => throw f

end Qirc
