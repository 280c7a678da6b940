import Lineage.Nearest.Direction

/-!
# Commands and their arguments

The arguments name a command first, and then its options and operands in any order:

* `parse [--json] TYPE…`
* `fulfills -H MANIFEST TYPE EXPECTED`
* `nca -H MANIFEST [--json] TYPE…`, `ncd -H MANIFEST [--json] TYPE…`
* `dump -H MANIFEST [--json]`

`-H` may be written `--hierarchy`, and its value may be attached to it. Behind `--` there are only
operands. Each option may come once.
-/

namespace Lineage

/-- What the program is asked to do. Manifests are given by their path. -/
inductive Command where
  | parse (json : Bool) (types : List String)
  | fulfills (manifest provided expected : String)
  | nearest (d : Direction) (manifest : String) (json : Bool) (types : List String)
  | dump (manifest : String) (json : Bool)
  deriving DecidableEq

namespace Command

/-! ## 1. Options -/

/-- What an argument is: an operand, an option with the value attached to it, or nothing known. -/
inductive Argument where
  | operand
  | json
  | manifest (attached : Option String)
  | unknown
  deriving DecidableEq

/-- The kind of an argument that stands before `--`. A dash alone is an operand. -/
def Argument.of (arg : String) : Argument :=
  match arg.toList with
  | ['-'] => operand
  | '-' :: '-' :: long =>
      let name := String.ofList (long.takeWhile (· != '='))
      let value := (long.dropWhile (· != '=')).tail?.map String.ofList
      if name = "json" && value.isNone then json
      else if name = "hierarchy" then manifest value
      else unknown
  | ['-', 'H'] => manifest none
  | '-' :: 'H' :: '=' :: value => manifest (some (String.ofList value))
  | '-' :: 'H' :: value => manifest (some (String.ofList value))
  | '-' :: _ => unknown
  | _ => operand

/-- The options and operands read so far. -/
structure Options where
  manifest : Option String
  json : Bool
  operands : List String
  deriving DecidableEq

namespace Options

/-- Nothing read yet. -/
def none : Options := ⟨.none, false, []⟩

/-- The options with a path for the manifest, which may be given once and is not empty. -/
def setManifest (o : Options) (path : String) : Option Options :=
  if o.manifest.isSome || path.isEmpty then .none else some { o with manifest := some path }

/-- The options with `--json`, which may be given once. -/
def setJson (o : Options) : Option Options :=
  if o.json then .none else some { o with json := true }

/-- The options with one more operand. -/
def addOperand (o : Options) (arg : String) : Options := { o with operands := o.operands ++ [arg] }

/-- The options and operands of a list of arguments. -/
def read (o : Options) : List String → Option Options
  | [] => some o
  | arg :: rest =>
      if arg = "--" then some { o with operands := o.operands ++ rest }
      else
        match Argument.of arg with
        | .operand => (o.addOperand arg).read rest
        | .json => do (← o.setJson).read rest
        | .manifest (some path) => do (← o.setManifest path).read rest
        | .manifest .none =>
            match rest with
            | [] => .none
            | path :: rest =>
                if Argument.of path = .operand then do (← o.setManifest path).read rest else .none
        | .unknown => .none

end Options

/-! ## 2. Commands -/

/-- The command of a name with given options, if it takes them. -/
def ofOptions (name : String) (o : Options) : Option Command :=
  match name, o with
  | "parse", ⟨none, json, type :: types⟩ => some (.parse json (type :: types))
  | "fulfills", ⟨some manifest, false, [provided, expected]⟩ =>
      some (.fulfills manifest provided expected)
  | "nca", ⟨some manifest, json, type :: types⟩ =>
      some (.nearest .up manifest json (type :: types))
  | "ncd", ⟨some manifest, json, type :: types⟩ =>
      some (.nearest .down manifest json (type :: types))
  | "dump", ⟨some manifest, json, []⟩ => some (.dump manifest json)
  | _, _ => none

/-- The command that the arguments ask for. -/
def ofArguments? : List String → Option Command
  | [] => none
  | name :: rest => do ofOptions name (← Options.none.read rest)

/-- The path of the manifest that a command needs. -/
def manifest? : Command → Option String
  | parse _ _ => none
  | fulfills manifest _ _ => some manifest
  | nearest _ manifest _ _ => some manifest
  | dump manifest _ => some manifest

end Command

end Lineage
