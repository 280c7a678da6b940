import Lineage.Nearest.Solve

/-!
# Nearest common relatives of instances

The nearest common ancestors of a list of instances are its least common supertypes, the nearest
common descendants its greatest common subtypes. There may be several of either, or none.

Operands are taken in one after the other: each running result is combined with the next operand,
and of what comes out only the nearest are kept.

* Two applications: the table gives the types to look at. Both operands are carried over to such a
  type, and their arguments are combined position by position, in the same direction at covariant
  positions and in the other one at contravariant positions. Invariant positions have to agree.
* A variable and an application: the bounds on the side of the question come in as more operands.
* Two variables: an anonymous variable with the bounds of both combined.
-/

namespace Lineage.Nearest

/-! ## 1. Keeping the nearest -/

/-- A list of results with one more, unless it has an equivalent one. -/
def addDistinct (results : List Ty) (t : Ty) : List Ty :=
  if results.any (·.equivalent t) then results else results ++ [t]

/-- The results without those that are equivalent to an earlier one. -/
def distinct (results : List Ty) : List Ty := results.foldl addDistinct []

/-- Whether `a` fulfills `b` and not the other way round. -/
def strictlyFulfills (h : Hierarchy) (q : Answers) (a b : App Ty) : Option Bool := do
  if ← h.appFulfillsWith q.fulfills a b then
    return !(← h.appFulfillsWith q.fulfills b a)
  else
    return false

/-- Whether `x` lies strictly beyond `y`. -/
def strictlyBeyond (h : Hierarchy) (q : Answers) (d : Direction) (x y : App Ty) : Option Bool :=
  match d with
  | .up => strictlyFulfills h q y x
  | .down => strictlyFulfills h q x y

/-- Whether no application among the results is strictly nearer. Variables always stay. -/
def isNearest (h : Hierarchy) (q : Answers) (d : Direction) (results : List Ty) :
    Ty → Option Bool
  | .var _ => some true
  | .app x => do
      let nearer ← (results.filterMap Ty.app?).anyM fun y =>
        if y = x then some false else strictlyBeyond h q d x y
      return !nearer

/-- The results that have no strictly nearer one beside them. -/
def keepNearest (h : Hierarchy) (q : Answers) (d : Direction) (results : List Ty) :
    Option (List Ty) :=
  keep (isNearest h q d results) results

/-! ## 2. Combining two operands -/

/-- The options for a position of some variance. -/
def combineAt (q : Answers) (d : Direction) (v : Variance) (x y : Ty) : Option (List Ty) :=
  match v with
  | .covariant => q.common d [x, y]
  | .contravariant => q.common d.flip [x, y]
  | .invariant => some (x.merge y).toList

/-- Two instances of one type combined position by position. -/
def combineArgs (q : Answers) (d : Direction) (n : Node) (a b : App Ty) :
    Option (List (App Ty)) := do
  let found ← choices (fun ((x, y), i) => combineAt q d (n.variance i) x y)
    (a.args.zip b.args).zipIdx
  return found.map (⟨n.name, ·⟩)

/-- Two applications combined at one type. -/
def combineVia (h : Hierarchy) (q : Answers) (d : Direction) (a b : App Ty) (n : Node) :
    Option (List (App Ty)) := do
  let as ← carry h q d a n
  let bs ← carry h q d b n
  let pairs := as.flatMap fun x => bs.map (x, ·)
  let found ← pairs.mapM fun (x, y) => combineArgs q d n x y
  return found.flatten

/-- Two applications combined at each of the types that the table gives for them. -/
def combineApps (h : Hierarchy) (tables : Tables) (q : Answers) (d : Direction) (a b : App Ty) :
    Option (List (App Ty)) :=
  match h.idOf? a.head, h.idOf? b.head with
  | some i, some j => do
      let candidates := (tables.get d i j).filterMap (h.nodes[·]?)
      let found ← candidates.mapM (combineVia h q d a b)
      return found.flatten
  | _, _ => some []

/-- The bounds of a variable that face a direction: upper bounds narrow what lies below, lower
    bounds widen what lies above. -/
def facing (d : Direction) (v : Var Ty) : List (App Ty) :=
  match d with
  | .up => v.lower
  | .down => v.upper

/-- A variable combined with an application. -/
def combineVarApp (q : Answers) (d : Direction) (v : Var Ty) (a : App Ty) : Option (List Ty) :=
  match facing d v with
  | [] => some [.app a]
  | b :: bs => q.common d ((a :: b :: bs).map .app)

/-- Bounds of two variables on one side combined; `none` inside if nothing is left. -/
def combineBounds (q : Answers) (d : Direction) (as bs : List (App Ty)) :
    Option (Option (List (App Ty))) :=
  if as.isEmpty then some (some bs)
  else if bs.isEmpty then some (some as)
  else do
    match (← q.common d ((as ++ bs).map .app)).filterMap Ty.app? with
    | [] => return none
    | found => return some found

/-- Two variables combined to an anonymous one, unless it has no range. -/
def combineVars (h : Hierarchy) (q : Answers) (d : Direction) (v w : Var Ty) :
    Option (List Ty) := do
  let some lower ← combineBounds q d.flip v.lower w.lower | return []
  let some upper ← combineBounds q d v.upper w.upper | return []
  let consistent ← lower.allM fun lo => upper.allM fun up => h.appFulfillsWith q.fulfills lo up
  return if consistent then [.var ⟨"", lower, upper⟩] else []

/-- Two operands combined. -/
def combine (h : Hierarchy) (tables : Tables) (q : Answers) (d : Direction) :
    Ty → Ty → Option (List Ty)
  | .app a, .app b => do return (← combineApps h tables q d a b).map .app
  | .var v, .app a => combineVarApp q d v a
  | .app a, .var v => combineVarApp q d v a
  | .var v, .var w => combineVars h q d v w

/-! ## 3. All operands -/

/-- The running results combined with one more operand. -/
def takeIn (h : Hierarchy) (tables : Tables) (q : Answers) (d : Direction) (results : List Ty)
    (operand : Ty) : Option (List Ty) := do
  let found ← results.mapM (combine h tables q d · operand)
  keepNearest h q d (distinct found.flatten)

/-- One round of `common`. -/
def commonWith (h : Hierarchy) (tables : Tables) (q : Answers) (d : Direction) :
    List Ty → Option (List Ty)
  | [] => some []
  | first :: operands => operands.foldlM (takeIn h tables q d) [first]

/-- The nearest common relatives of a list of normal instances, found in at most `rounds`
    rounds. -/
def common (h : Hierarchy) (tables : Tables) : (rounds : Nat) → Direction → List Ty →
    Option (List Ty)
  | 0, _, _ => none
  | rounds + 1, d, operands =>
      commonWith h tables ⟨h.fulfills rounds, constraints h rounds, common h tables rounds⟩
        d operands

end Lineage.Nearest
