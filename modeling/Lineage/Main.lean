import Lineage.Command.Outcome

/-!
# The program

Reads the arguments and the manifest, and writes the outcome of the command.
-/

namespace Lineage

/-- How the program is called. -/
def usage : String :=
  lines
    ["usage: lineage parse [--json] TYPE...",
     "       lineage fulfills -H MANIFEST TYPE EXPECTED",
     "       lineage nca -H MANIFEST [--json] TYPE...",
     "       lineage ncd -H MANIFEST [--json] TYPE...",
     "       lineage dump -H MANIFEST [--json]"]

/-- Bytes as a text. -/
def decodeText (bytes : ByteArray) : Except ReadFailure String :=
  match String.fromUTF8? bytes with
  | some text => .ok text
  | none => .error .notText

/-- Why reading a file failed. The system's code for a name that is too long comes with either
    sign. -/
def readFailure : IO.Error → ReadFailure
  | .noFileOrDirectory _ _ _ => .notFound
  | .permissionDenied _ _ _ => .notPermitted
  | .inappropriateType _ code _ => if code = 21 then .isDirectory else .notDirectory
  | e@(.invalidArgument _ code _) =>
      if code = 36 ∨ 0 - code = 36 then .nameTooLong else .other (toString e)
  | e => .other (toString e)

/-- The content of a file; a dash stands for the standard input. -/
def readManifest (path : String) : IO (Except ReadFailure String) := do
  try
    if path = "-" then
      return decodeText (← (← IO.getStdin).readBinToEnd)
    else
      return decodeText (← IO.FS.readBinFile path)
  catch e => return .error (readFailure e)

end Lineage

open Lineage in
/-- Run the command that the arguments ask for. -/
def main (args : List String) : IO UInt32 := do
  match Command.ofArguments? args with
  | none =>
      IO.eprint usage
      return 2
  | some command =>
      let content ← match command.manifest? with
        | some path => readManifest path
        | none => pure (.ok "")
      let outcome := command.run content
      IO.print outcome.output
      IO.eprint outcome.errors
      return outcome.status.toUInt32
