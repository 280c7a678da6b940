import Lineage.Command.Arguments
import Lineage.Diagnostic.Layout
import Lineage.Hierarchy.Dump
import Lineage.Hierarchy.Query

/-!
# What commands do

A command turns its arguments and the manifest into an outcome: what it writes and the status it
ends with. The manifest is loaded before type expressions are looked at.
-/

namespace Lineage

/-! ## 1. Outcomes -/

/-- Why a manifest cannot be read. -/
inductive ReadFailure where
  | notFound
  | isDirectory
  | notDirectory
  | notPermitted
  | nameTooLong
  | notText
  | other (words : String)
  deriving DecidableEq

/-- The words for a failure to read. -/
def ReadFailure.message : ReadFailure → String
  | notFound => "No such file or directory (os error 2)"
  | isDirectory => "Is a directory (os error 21)"
  | notDirectory => "Not a directory (os error 20)"
  | notPermitted => "Permission denied (os error 13)"
  | nameTooLong => "File name too long (os error 36)"
  | notText => "stream did not contain valid UTF-8"
  | other words => words

/-- The status and the two outputs of a command. -/
structure Outcome where
  status : Nat
  output : String
  errors : String
  deriving DecidableEq

namespace Outcome

/-- Success with some output. -/
def success (output : String) : Outcome := ⟨0, output, ""⟩

/-- Failure with a text as it is. -/
def failure (errors : String) : Outcome := ⟨1, "", errors⟩

/-- Failure with a message. -/
def error (message : String) : Outcome := failure (lines [s!"error: {message}"])

/-- The end of a question that takes too many rounds. -/
def endless : Outcome := error "the question takes too many rounds"

/-- The program breaks off at a type expression that cannot be read to its end. -/
def stopped : Outcome := ⟨101, "", ""⟩

end Outcome

/-! ## 2. The commands -/

namespace Command

/-- A report on a type expression, laid out. -/
def laidOut (r : Report) : String := r.render (some "expr")

/-- The hierarchy of a manifest, given its path and what reading it gave. -/
def load (path : String) (content : Except ReadFailure String) : Except Outcome Hierarchy :=
  match content with
  | .error why => .error (.error s!"failed to read '{path}': {why.message}")
  | .ok text =>
      match (Hierarchy.ofManifest text).run with
      | none => .error .stopped
      | some (.error (.unreadable why)) =>
          .error (.error s!"invalid manifest '{path}': {why.message}")
      | some (.error (.refused why)) => .error (.error why.message)
      | some (.ok h) => .ok h

/-- The instance of a type expression, or its report. -/
def parseOne (text : String) : Except Outcome Ty :=
  match Ty.ofText text with
  | none => .error .stopped
  | some (.error r) => .error (.failure (laidOut r))
  | some (.ok t) => .ok t

/-- The report on a type expression, if it is refused. -/
def refusal? (text : String) : Except Outcome (Option String) :=
  match Ty.ofText text with
  | none => .error .stopped
  | some (.error r) => .ok (some (laidOut r))
  | some (.ok _) => .ok none

/-- Write type expressions back, or report on all that are refused. -/
def runParse (json : Bool) (types : List String) : Except Outcome Outcome := do
  match (← types.mapM refusal?).filterMap id with
  | [] => return .success (Ty.listingAs json (← types.mapM parseOne))
  | reports => return .failure (String.join reports)

/-- Answer whether a type can stand where another one is expected. -/
def runFulfills (h : Hierarchy) (provided expected : String) : Except Outcome Outcome := do
  let p ← parseOne provided
  let e ← parseOne expected
  match h.typeFulfills Hierarchy.ampleRounds p e with
  | some true => return .success (lines ["true"])
  | some false => return ⟨1, lines ["false"], ""⟩
  | none => return .endless

/-- List nearest common relatives. -/
def runNearest (h : Hierarchy) (d : Direction) (json : Bool) (types : List String) :
    Except Outcome Outcome := do
  let operands ← types.mapM parseOne
  match (h.nearestCommon Hierarchy.ampleRounds d operands).run with
  | some (.ok results) => return .success (Ty.listingAs json results)
  | some (.error why) => return .error why.message
  | none => return .endless

/-- The outcome of a step that may have ended early. -/
def settle : Except Outcome Outcome → Outcome
  | .ok o => o
  | .error o => o

/-- The outcome of a command, given what reading its manifest gave. -/
def run (content : Except ReadFailure String) : Command → Outcome
  | parse json types => settle (runParse json types)
  | fulfills path provided expected =>
      settle do runFulfills (← load path content) provided expected
  | nearest d path json types => settle do runNearest (← load path content) d json types
  | dump path json => settle do return .success ((← load path content).dumpAs json)

end Command

end Lineage
