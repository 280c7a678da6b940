import Lineage.Hierarchy.Build
import Lineage.Ty.Encode
import Lineage.Ty.Reader

/-!
# Manifests

A manifest is a JSON list of declarations. A declaration has a `name`, its `params` and its
`parents`, which are type expressions. A parameter has a `name` and a `variance`.
-/

namespace Lineage

/-- The variances by name. -/
def Variance.names : List (String × Variance) := Variance.all.map fun v => (v.text, v)

/-- Parameters as records. -/
def Param.record : Json.Record Param where
  title := "struct ParamDef"
  blank := ⟨"", default⟩
  fields :=
    [.of "name" true Json.string fun p name => { p with name },
     .of "variance" false (Json.enumeration Variance.names) fun p variance => { p with variance }]

/-- The parameter that a text holds. -/
def Param.ofJson (text : String) : Except Json.Refusal Param := Json.document Param.record.read text

/-- A parameter as a value. -/
def Param.toValue (p : Param) : Json.Value :=
  .object [("name", .str p.name), ("variance", .str p.variance.text)]

/-- The parameter in one line. -/
def Param.text (p : Param) : String := s!"{p.name} {p.variance.text}"

/-- Declarations as records. -/
def Declaration.record : Json.Record Declaration where
  title := "struct RawTypeDecl"
  blank := ⟨"", [], []⟩
  fields :=
    [.of "name" true Json.string fun d name => { d with name },
     .of "params" false (Json.listOf Param.record.read) fun d params => { d with params },
     .of "parents" false (Json.listOf Json.string) fun d parents => { d with parents }]

/-- The declarations of a manifest. -/
def Manifest.read (text : String) : Except Json.Refusal (List Declaration) :=
  Json.document (Json.listOf Declaration.record.read) text

/-- Why a manifest gives no hierarchy. -/
inductive Manifest.Error where
  | unreadable (why : Json.Refusal)
  | refused (why : Lineage.Error)
  deriving DecidableEq

/-- The finalized hierarchy that a manifest declares. There is no result if a parent cannot be read
    to its end. -/
def Hierarchy.ofManifest (text : String) : ExceptT Manifest.Error Option Hierarchy :=
  match Manifest.read text with
  | .error why => throw (.unreadable why)
  | .ok decls => (Hierarchy.ofDeclarations decls).adapt .refused

end Lineage
