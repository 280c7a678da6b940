import Lineage.Expr.Parser
import Lineage.Hierarchy.Normal
import Lineage.Ty.Merge

/-!
# Building hierarchies

Types are declared one by one, and a type is given parents that are written in its parameters.

Adding a parent lets every descendant of the child inherit every ancestor of the parent. A type has
one record of each ancestor: an instantiation that comes in a second time has to agree with the
record up to `_`, and the more specific of the two stays. Otherwise the parent is refused and
nothing changes.
-/

namespace Lineage

/-- A type as a manifest declares it: its parents are texts. -/
structure Declaration where
  name : String
  params : List Param
  parents : List String
  deriving DecidableEq

namespace Hierarchy

/-! ## 1. Declaring types -/

/-- Only an open hierarchy may change. -/
def requireOpen (h : Hierarchy) : Except Error Unit :=
  if h.isFinalized then .error .alreadyFinalized else .ok ()

/-- The first name that occurs in a list for a second time. -/
def firstRepeated (seen : List String) : List String → Option String
  | [] => none
  | name :: rest => if name ∈ seen then some name else firstRepeated (name :: seen) rest

/-- The hierarchy with a new type, which gets the next number. -/
def declare (h : Hierarchy) (name : String) (params : List Param) : Except Error Hierarchy := do
  h.requireOpen
  if (h.find? name).isSome then
    .error (.duplicateType name)
  else
    match firstRepeated [] (params.map Param.name) with
    | some param => .error (.duplicateParam name param)
    | none => .ok { h with nodes := h.nodes ++ [Node.new h.size name params] }

/-! ## 2. What a parent may mention -/

mutual
/-- The first variable in an argument of a parent that does not belong there: it has bounds, or it
    is named and no parameter of the child. -/
def foreign (child : Node) : Ty → Option Misfit
  | .app a => foreignApp child a
  | .var v =>
      if v.isBounded then some (.boundedInParent child.name v)
      else if v.isAnonymous || (child.paramIndex? v.name).isSome then none
      else some (.foreignVariable child.name v.name)
/-- `foreign` among the arguments of an application. -/
def foreignApp (child : Node) : App Ty → Option Misfit
  | ⟨_, args⟩ => foreignAny child args
/-- `foreign` from left to right. -/
def foreignAny (child : Node) : List Ty → Option Misfit
  | [] => none
  | t :: ts => (foreign child t).or (foreignAny child ts)
end

/-! ## 3. Inheriting -/

/-- A record that a new parent brings about: `heir` has `ancestor` under `record`. -/
structure Legacy where
  heir : Nat
  ancestor : Nat
  record : App Ty
  deriving DecidableEq

/-- What an instantiation that comes in does to a heir's record of an ancestor: nothing if the
    record is as specific already. -/
def inherit (heir : Node) (ancestor : Nat) (incoming : App Ty) : Except Error (Option Legacy) :=
  match heir.ancestors.get? ancestor with
  | none => .ok (some ⟨heir.id, ancestor, incoming⟩)
  | some existing =>
      match existing.refine incoming with
      | none => .error (.conflict heir.name existing incoming)
      | some refined =>
          .ok (if refined = existing then none else some ⟨heir.id, ancestor, refined⟩)

/-- What a heir of `child` inherits from the ancestors of `parent`. Each record is carried from the
    parent's parameters to the child's, and from there to the heir's. -/
def inheritAll (child parent : Node) (link : App Ty) (heir : Node) : Except Error (List Legacy) :=
  match heir.ancestors.get? child.id with
  | none => .ok []
  | some asChild => do
      let legacies ← parent.ancestors.entries.mapM fun (ancestor, record) =>
        inherit heir ancestor
          (child.substitute (parent.substitute record link.args) asChild.args)
      return legacies.filterMap id

/-- Everything that the new parent `link` of `child` brings about. -/
def legacies (h : Hierarchy) (child parent : Node) (link : App Ty) :
    Except Error (List Legacy) := do
  let found ← (child.descendants.filterMap (h.nodes[·]?)).mapM (inheritAll child parent link)
  return found.flatten

/-- The nodes with one legacy recorded on both sides. -/
def bequeath (nodes : List Node) (l : Legacy) : List Node :=
  (nodes.modify l.heir (·.addAncestor l.ancestor l.record)).modify l.ancestor
    (·.addDescendant l.heir)

/-- The nodes with `link` as a parent of `child` and the legacies recorded. -/
def connect (nodes : List Node) (child parent : Nat) (link : App Ty) (ls : List Legacy) :
    List Node :=
  let linked := (nodes.modify child (·.addParent parent link)).modify parent (·.addChild child)
  ls.foldl bequeath linked

/-- The instantiation under which a parent is added: the given one joined with the record the child
    has of it already. -/
def agree (child : Node) (parent : Nat) (link : App Ty) : Except Error (App Ty) :=
  match child.ancestors.get? parent with
  | none => .ok link
  | some existing =>
      match existing.refine link with
      | some refined => .ok refined
      | none => .error (.conflict child.name existing link)

/-- The hierarchy in which `child` has the parent `link`. -/
def addApp (h : Hierarchy) (child : Node) (link : App Ty) : Except Error Hierarchy := do
  let link ← h.normalizeApp link
  match foreignApp child link with
  | some why => .error (.incompatible why)
  | none =>
      match h.find? link.head with
      | none => .error (.incompatible (.unregistered link.head))
      | some parent =>
          if child.descendants.contains parent.id then
            .error (.cyclicParent child.name link.head)
          else do
            let link ← agree child parent.id link
            if child.parents.get? parent.id = some link then
              return h
            else
              let ls ← h.legacies child parent link
              return { h with nodes := connect h.nodes child.id parent.id link ls }

/-- The hierarchy in which the type `child` has the parent `parent`. -/
def addParent (h : Hierarchy) (child : String) (parent : Ty) : Except Error Hierarchy := do
  h.requireOpen
  match h.find? child with
  | none => .error (.undefinedType child)
  | some n =>
      match parent with
      | .var v => .error (.incompatible (.parentIsVariable child (.var v)))
      | .app link => h.addApp n link

/-! ## 4. Manifests -/

/-- The hierarchy in which a type has a parent given as a text. There is no result for a text that
    cannot be read to its end. -/
def addParentText (h : Hierarchy) (child parent : String) : ExceptT Error Option Hierarchy :=
  match Ty.ofText parent with
  | none => .mk none
  | some (.error report) => throw (.unreadable report)
  | some (.ok ty) => liftExcept (h.addParent child ty)

/-- The finalized hierarchy of a list of declarations: all types are declared before the first
    parent is added. -/
def ofDeclarations (decls : List Declaration) : ExceptT Error Option Hierarchy := do
  let declared ← liftExcept (decls.foldlM (fun h d => h.declare d.name d.params) empty)
  let connected ← decls.foldlM (fun h d => d.parents.foldlM (·.addParentText d.name ·) h) declared
  return connected.finalize

end Hierarchy

end Lineage
