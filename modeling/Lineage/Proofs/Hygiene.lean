import Lineage.Hierarchy.Query
import Lineage.Proofs.RenamedCalls
import Lineage.Proofs.Table

/-!
# Names of parameters do not matter

Two runs make the same calls, but in the second one the parameters of every type have other names.
At every moment the second hierarchy is the first one renamed (`foldl_perform_rename`): each call is
refused in both runs or in none, for the same reason. A renamed hierarchy answers every question as
it did before, whatever variables the operands mention: an operand is never looked up in the
parameters of a type, only put in for them.

The one place where names of parameters leave a record is the search downwards, which notes what
each parameter has to be. It comes out with the renamed parameters (`constraints_rename`), and the
notes are read by the same names.
-/

namespace Lineage

open Nearest

/-! ## 1. Constraints on renamed parameters -/

/-- The constraint on a renamed parameter. The value is part of an operand. -/
def Constraint.rename (σ : Renaming) (c : Constraint) : Constraint :=
  { c with param := σ.map c.param }

/-- What a match finds for a renamed pattern. -/
def renameMatch (σ : Renaming) : Option Match → Option Match :=
  Option.map (Option.map (List.map (Constraint.rename σ)))

theorem matchAll_rename {α β : Type} (σ : Renaming) {r : α → β} {f : α → Option Match}
    {g : β → Option Match} {xs : List α} (hfg : ∀ x ∈ xs, g (r x) = renameMatch σ (f x)) :
    matchAll g (xs.map r) = renameMatch σ (matchAll f xs) := by
  induction xs with
  | nil => rfl
  | cons x xs ih =>
      rw [List.forall_mem_cons] at hfg
      rw [List.map_cons, matchAll, matchAll, hfg.1, ih hfg.2]
      cases f x with
      | none => rfl
      | some found =>
          cases found with
          | none => rfl
          | some cs =>
              cases matchAll f xs with
              | none => rfl
              | some rest =>
                  cases rest with
                  | none => rfl
                  | some rest => simp [renameMatch]

/-- A matcher that gives the same on renamed patterns, with the parameters renamed. -/
def MatchesRenamed (rec rec' : Variance → Ty → Ty → Option Match) : Prop :=
  ∀ (σ : Renaming) (relation : Variance) (pattern value : Ty),
    rec' relation (pattern.rename σ) value = renameMatch σ (rec relation pattern value)

namespace Hierarchy

variable (ρ : String → Renaming) {h : Hierarchy}

/-! ## 2. Relatives -/

/-- What is said of a node without regard to names of parameters. -/
theorem exists_node_rename {i : Nat} {P P' : Node → Prop} (hP : ∀ n, P' (n.rename ρ) ↔ P n) :
    (∃ n, (h.rename ρ).nodes[i]? = some n ∧ P' n) ↔ ∃ n, h.nodes[i]? = some n ∧ P n := by
  rw [getElem?_rename]
  cases h.nodes[i]? with
  | none => simp
  | some n => simp [hP]

theorem hasParent_rename {i j : Nat} : (h.rename ρ).HasParent i j ↔ h.HasParent i j :=
  exists_node_rename ρ fun n => by rw [Node.rename, Roster.contains_map]

theorem hasChild_rename {i j : Nat} : (h.rename ρ).HasChild i j ↔ h.HasChild i j :=
  exists_node_rename ρ fun _ => Iff.rfl

theorem hasAncestor_rename {i j : Nat} : (h.rename ρ).HasAncestor i j ↔ h.HasAncestor i j :=
  exists_node_rename ρ fun n => by rw [Node.rename, Roster.contains_map]

theorem hasDescendant_rename {i j : Nat} : (h.rename ρ).HasDescendant i j ↔ h.HasDescendant i j :=
  exists_node_rename ρ fun _ => Iff.rfl

theorem tables_rename (hs : Sound h) (hs' : Sound (h.rename ρ)) :
    Tables.build (h.rename ρ).nodes = Tables.build h.nodes := by
  have hbuild (d : Direction) : Table.build (h.rename ρ).nodes d = Table.build h.nodes d := by
    refine build_congr hs hs' (List.length_map _) fun {x y} => ?_
    cases d with
    | up => exact hasAncestor_rename ρ
    | down => exact hasDescendant_rename ρ
  rw [Tables.build, Tables.build, hbuild, hbuild]

theorem finalize_rename (hs : Sound h) (hs' : Sound (h.rename ρ)) :
    (h.rename ρ).finalize = h.finalize.rename ρ := by
  have hfin : (h.rename ρ).isFinalized = h.isFinalized := rfl
  rw [finalize, finalize, hfin, tables_rename ρ hs hs']
  split
  · rfl
  · rfl

/-! ## 3. Subtyping -/

variable (h)

theorem raise_rename (σ : Renaming) (a : App Ty) (target : Nat) :
    (h.rename ρ).raise (a.rename σ) target = (h.raise a target).map (App.rename σ) := by
  rw [raise, raise, App.head_rename, find?_rename]
  cases h.find? a.head with
  | none => rfl
  | some n =>
      have hget : (n.rename ρ).ancestors.get? target =
        (n.ancestors.get? target).map (App.rename (ρ n.name)) := Roster.get?_map ..
      simp only [Option.map_some, bind, Option.bind, hget]
      cases n.ancestors.get? target with
      | none => rfl
      | some record =>
          simp only [Option.map_some, App.args_rename, Node.substitute_rename]
          rfl

/-- **Raising puts operands in for parameters, whatever the parameters are called.** -/
theorem raise_eq (a : App Ty) (target : Nat) : (h.rename ρ).raise a target = h.raise a target := by
  have hraise := raise_rename ρ h .refl a target
  have hid : App.rename Renaming.refl = id := funext App.rename_refl
  rwa [hid, Option.map_id, id] at hraise

theorem appFulfillsWith_rename (rec : Ty → Ty → Option Bool) (a b : App Ty) :
    (h.rename ρ).appFulfillsWith rec a b = h.appFulfillsWith rec a b := by
  rw [appFulfillsWith, appFulfillsWith, find?_rename]
  cases h.find? b.head with
  | none => rfl
  | some n =>
      rw [Option.map_some]
      dsimp only
      rw [raise_eq]
      simp only [argsAgree, Node.variance_rename]
      rfl

theorem shareDescendant_rename (apps : List (App Ty)) :
    (h.rename ρ).shareDescendant apps = h.shareDescendant apps := by
  have hfind : (apps.mapM fun a => (h.rename ρ).find? a.head) =
      (apps.mapM fun a => h.find? a.head).map (List.map (Node.rename ρ)) := by
    induction apps with
    | nil => rfl
    | cons a apps ih =>
        rw [List.mapM_cons, List.mapM_cons, ih, find?_rename]
        cases h.find? a.head with
        | none => rfl
        | some n =>
            cases apps.mapM fun a => h.find? a.head with
            | none => rfl
            | some ns => rfl
  rw [shareDescendant, shareDescendant, hfind]
  cases apps.mapM fun a => h.find? a.head with
  | none => rfl
  | some ns =>
      cases ns with
      | nil => rfl
      | cons n ns =>
          simp only [Option.map_some, List.map_cons, List.all_map]
          rfl

theorem fulfillsWith_rename (rec : Ty → Ty → Option Bool) :
    (h.rename ρ).fulfillsWith rec = h.fulfillsWith rec := by
  funext a b
  cases b with
  | var v => rw [fulfillsWith, fulfillsWith]
  | app b =>
      cases a with
      | app a => rw [fulfillsWith, fulfillsWith, appFulfillsWith_rename]
      | var v =>
          rw [fulfillsWith, fulfillsWith, varFulfillsWith, varFulfillsWith]
          simp only [appFulfillsWith_rename, shareDescendant_rename]

theorem fulfills_rename (rounds : Nat) : (h.rename ρ).fulfills rounds = h.fulfills rounds := by
  induction rounds with
  | zero => rfl
  | succ rounds ih =>
      funext a b
      rw [fulfills, fulfills, ih, fulfillsWith_rename]

theorem normalize_eq (t : Ty) : (h.rename ρ).normalize t = h.normalize t := by
  have hnorm := normalize_rename ρ (fun _ => .refl) .refl h t
  have hmisfit (why : Misfit) : why.rename .refl = why := by
    have hvar (v : Var Ty) : v.rename .refl = v :=
      Ty.var.inj ((Ty.rename_var _ v).symm.trans (Ty.rename_refl (.var v)))
    cases why <;> simp only [Misfit.rename, Ty.rename_refl, App.rename_refl, hvar,
      Renaming.refl_map]
  have herror (e : Error) : e.rename (fun _ => .refl) .refl = e := by
    cases e <;> simp only [Error.rename, hmisfit, App.rename_refl, Renaming.refl_map]
  rw [Ty.rename_refl] at hnorm
  rw [hnorm]
  cases h.normalize t with
  | error e => exact congrArg Except.error (herror e)
  | ok t => exact congrArg Except.ok (Ty.rename_refl t)

theorem checkRange_rename (rounds : Nat) (v : Var Ty) :
    (h.rename ρ).checkRange rounds v = h.checkRange rounds v := by
  simp only [checkRange, appFulfills, fulfills_rename, appFulfillsWith_rename]

mutual
theorem checkRanges_rename (rounds : Nat) : ∀ t : Ty,
    (h.rename ρ).checkRanges rounds t = h.checkRanges rounds t
  | .app a => by rw [checkRanges, checkRanges, checkRangesApp_rename rounds a]
  | .var ⟨name, lower, upper⟩ => by
      rw [checkRanges, checkRanges, checkRange_rename, checkRangesApps_rename rounds lower,
        checkRangesApps_rename rounds upper]
theorem checkRangesApp_rename (rounds : Nat) : ∀ a : App Ty,
    (h.rename ρ).checkRangesApp rounds a = h.checkRangesApp rounds a
  | ⟨f, args⟩ => by rw [checkRangesApp, checkRangesApp, checkRangesAll_rename rounds args]
theorem checkRangesAll_rename (rounds : Nat) : ∀ ts : List Ty,
    (h.rename ρ).checkRangesAll rounds ts = h.checkRangesAll rounds ts
  | [] => by rw [checkRangesAll, checkRangesAll]
  | t :: ts => by
      rw [checkRangesAll, checkRangesAll, checkRanges_rename rounds t,
        checkRangesAll_rename rounds ts]
theorem checkRangesApps_rename (rounds : Nat) : ∀ as : List (App Ty),
    (h.rename ρ).checkRangesApps rounds as = h.checkRangesApps rounds as
  | [] => by rw [checkRangesApps, checkRangesApps]
  | a :: as => by
      rw [checkRangesApps, checkRangesApps, checkRangesApp_rename rounds a,
        checkRangesApps_rename rounds as]
end

theorem validate_rename (rounds : Nat) (t : Ty) :
    (h.rename ρ).validate rounds t = h.validate rounds t := by
  simp only [validate, normalize_eq, checkRanges_rename]

/-! ## 4. Nearest common relatives -/

section Match

variable {rec rec' : Variance → Ty → Ty → Option Match} (hrec : MatchesRenamed rec rec')
include hrec

theorem matchArgs_rename (σ : Renaming) (relation : Variance) (n : Node)
    (patterns values : List Ty) :
    matchArgs rec' relation (n.rename ρ) (patterns.map (Ty.rename σ)) values =
      renameMatch σ (matchArgs rec relation n patterns values) := by
  have hzip : ((patterns.map (Ty.rename σ)).zip values).zipIdx =
      (patterns.zip values).zipIdx.map fun e => ((e.1.1.rename σ, e.1.2), e.2) := by
    rw [List.zip_map_left, List.zipIdx_map]
    rfl
  rw [matchArgs, matchArgs, hzip, Node.variance_rename]
  exact matchAll_rename σ fun e _ => hrec σ _ e.1.1 e.1.2

theorem matchSame_rename (σ : Renaming) (relation : Variance) (pattern value : App Ty) :
    matchSame (h.rename ρ) rec' relation (pattern.rename σ) value =
      renameMatch σ (matchSame h rec relation pattern value) := by
  rw [matchSame, matchSame, App.head_rename, find?_rename, App.args_rename]
  cases h.find? pattern.head with
  | none => rfl
  | some n => exact matchArgs_rename ρ hrec σ relation n _ _

theorem matchApp_rename (σ : Renaming) (relation : Variance) (pattern value : App Ty) :
    matchApp (h.rename ρ) rec' relation (pattern.rename σ) value =
      renameMatch σ (matchApp h rec relation pattern value) := by
  cases relation with
  | covariant =>
      -- the pattern is raised, and stays written in the renamed parameters
      have hraise : ((h.rename ρ).find? value.head).bind
          (fun n => (h.rename ρ).raise (pattern.rename σ) n.id) =
          ((h.find? value.head).bind (h.raise pattern ·.id)).map (App.rename σ) := by
        rw [find?_rename]
        cases h.find? value.head with
        | none => rfl
        | some n => exact raise_rename ρ h σ pattern n.id
      rw [matchApp, matchApp, hraise]
      cases (h.find? value.head).bind (h.raise pattern ·.id) with
      | none => rfl
      | some raised => exact matchSame_rename ρ h hrec σ _ raised value
  | contravariant =>
      have hraise : ((h.rename ρ).find? pattern.head).bind
          (fun n => (h.rename ρ).raise value n.id) =
          (h.find? pattern.head).bind (h.raise value ·.id) := by
        rw [find?_rename]
        cases h.find? pattern.head with
        | none => rfl
        | some n => exact raise_eq ρ h value n.id
      rw [matchApp, matchApp, App.head_rename, hraise]
      cases (h.find? pattern.head).bind (h.raise value ·.id) with
      | none => rfl
      | some raised => exact matchSame_rename ρ h hrec σ _ pattern raised
  | invariant =>
      rw [matchApp, matchApp, App.head_rename]
      split
      · exact matchSame_rename ρ h hrec σ _ pattern value
      · rfl

end Match

/-- **Matching a renamed record constrains the renamed parameters, in the same way.** -/
theorem constraints_rename (rounds : Nat) :
    MatchesRenamed (constraints h rounds) (constraints (h.rename ρ) rounds) := by
  induction rounds with
  | zero =>
      intro σ relation pattern value
      rfl
  | succ rounds ih =>
      intro σ relation pattern value
      rw [constraints, constraints]
      cases pattern with
      | var v =>
          rw [Ty.rename_var, matchWith, matchWith, Var.isAnonymous_rename]
          split
          · rfl
          · rfl
      | app p =>
          rw [Ty.rename_app]
          cases value with
          | var w => rfl
          | app v => exact matchApp_rename ρ h ih σ relation p v

/-- What rounds answer in a hierarchy and in the renamed one. -/
structure AnswersRenamed (q q' : Answers) : Prop where
  fulfills : q'.fulfills = q.fulfills
  common : q'.common = q.common
  constraints : MatchesRenamed q.constraints q'.constraints

namespace AnswersRenamed

variable {q q' : Answers} (e : AnswersRenamed q q')
include e

/-- Solving looks at values and relations. -/
theorem solutions_eq (σ : Renaming) (cs : List Constraint) :
    solutions q' (cs.map (Constraint.rename σ)) = solutions q cs := by
  have hopen : (cs.map (Constraint.rename σ)).filter (fun c => !c.value.isFree) =
      (cs.filter fun c => !c.value.isFree).map (Constraint.rename σ) := List.filter_map
  have hvalues (relation : Variance) (cs : List Constraint) :
      valuesOf relation (cs.map (Constraint.rename σ)) = valuesOf relation cs := by
    rw [valuesOf, valuesOf, List.filter_map, List.map_map]
    rfl
  rw [solutions, solutions, hopen]
  simp only [hvalues, List.isEmpty_map]
  have hfits : fits q' = fits q := by
    funext uppers lowers value
    rw [fits, fits, e.fulfills]
  rw [hfits, e.common, e.fulfills]

theorem options_eq (σ : Renaming) (cs : List Constraint) (p : Param) :
    solutions q' ((cs.map (Constraint.rename σ)).filter (·.param = (p.rename σ).name)) =
      solutions q (cs.filter (·.param = p.name)) := by
  have hfilter : (cs.map (Constraint.rename σ)).filter (·.param = (p.rename σ).name) =
      (cs.filter (·.param = p.name)).map (Constraint.rename σ) := by
    rw [List.filter_map]
    refine congrArg (List.map _) (List.filter_congr fun c _ => ?_)
    exact decide_eq_decide.2 σ.injective.eq_iff
  rw [hfilter, e.solutions_eq]

omit e in
theorem choices_map {α β γ : Type} {r : α → β} {f : α → Option (List γ)} {g : β → Option (List γ)}
    (hfg : ∀ x, g (r x) = f x) (xs : List α) : choices g (xs.map r) = choices f xs := by
  induction xs with
  | nil => rfl
  | cons x xs ih => rw [List.map_cons, choices, choices, hfg, ih]

theorem lowerings_eq (a : App Ty) (target : Node) :
    lowerings (h.rename ρ) q' a (target.rename ρ) = lowerings h q a target := by
  have hget (i : Nat) : (target.rename ρ).ancestors.get? i =
    (target.ancestors.get? i).map (App.rename (ρ target.name)) := Roster.get?_map ..
  rw [lowerings, lowerings, find?_rename]
  cases h.find? a.head with
  | none => rfl
  | some source =>
      have hid : (source.rename ρ).id = source.id := rfl
      rw [Option.map_some]
      dsimp only
      rw [hid, hget]
      cases target.ancestors.get? source.id with
      | none => rfl
      | some record =>
          rw [Option.map_some]
          dsimp only
          rw [App.args_rename, matchArgs_rename ρ e.constraints]
          cases matchArgs q.constraints .covariant source record.args a.args with
          | none => rfl
          | some found =>
              cases found with
              | none => rfl
              | some cs =>
                  have hchoices := choices_map
                    (f := fun p : Param => solutions q (cs.filter (·.param = p.name)))
                    (g := fun p : Param => solutions q'
                      ((cs.map (Constraint.rename (ρ target.name))).filter (·.param = p.name)))
                    (e.options_eq (ρ target.name) cs) target.params
                  exact congrArg (fun c : Option (List (List Ty)) => c.bind fun found =>
                    some (found.map fun args => (⟨target.name, args⟩ : App Ty))) hchoices

theorem carry_eq (d : Direction) (a : App Ty) (target : Node) :
    carry (h.rename ρ) q' d a (target.rename ρ) = carry h q d a target := by
  cases d with
  | up =>
      rw [carry, carry, raise_eq]
      rfl
  | down => exact e.lowerings_eq ρ h a target

theorem combineVia_eq (d : Direction) (a b : App Ty) (n : Node) :
    combineVia (h.rename ρ) q' d a b (n.rename ρ) = combineVia h q d a b n := by
  have hat : combineAt q' d = combineAt q d := by
    funext v x y
    cases v with
    | covariant => rw [combineAt, combineAt, e.common]
    | contravariant => rw [combineAt, combineAt, e.common]
    | invariant => rfl
  simp only [combineVia, e.carry_eq, combineArgs, hat, Node.variance_rename]
  rfl

theorem combineApps_eq (tables : Tables) (d : Direction) (a b : App Ty) :
    combineApps (h.rename ρ) tables q' d a b = combineApps h tables q d a b := by
  rw [combineApps, combineApps, idOf?_rename, idOf?_rename]
  cases h.idOf? a.head with
  | none => rfl
  | some i =>
      cases h.idOf? b.head with
      | none => rfl
      | some j =>
          have hnodes : (tables.get d i j).filterMap ((h.rename ρ).nodes[·]?) =
              ((tables.get d i j).filterMap (h.nodes[·]?)).map (Node.rename ρ) := by
            rw [List.map_filterMap]
            exact List.filterMap_congr fun x _ => getElem?_rename ρ h x
          have hmap (ns : List Node) : (ns.map (Node.rename ρ)).mapM
              (combineVia (h.rename ρ) q' d a b) = ns.mapM (combineVia h q d a b) := by
            induction ns with
            | nil => rfl
            | cons n ns ih =>
                rw [List.map_cons, List.mapM_cons, List.mapM_cons, e.combineVia_eq, ih]
          simp only [hnodes, hmap]

theorem combine_eq (tables : Tables) (d : Direction) (x y : Ty) :
    combine (h.rename ρ) tables q' d x y = combine h tables q d x y := by
  have hvar (v : Var Ty) (a : App Ty) : combineVarApp q' d v a = combineVarApp q d v a := by
    rw [combineVarApp, combineVarApp, e.common]
  cases x with
  | app a =>
      cases y with
      | app b => rw [combine, combine, e.combineApps_eq]
      | var w => rw [combine, combine, hvar]
  | var v =>
      cases y with
      | app b => rw [combine, combine, hvar]
      | var w =>
          have hbounds (d : Direction) (as bs : List (App Ty)) :
              combineBounds q' d as bs = combineBounds q d as bs := by
            rw [combineBounds, combineBounds, e.common]
          rw [combine, combine]
          simp only [combineVars, hbounds, appFulfillsWith_rename, e.fulfills]

theorem takeIn_eq (tables : Tables) (d : Direction) :
    takeIn (h.rename ρ) tables q' d = takeIn h tables q d := by
  have hnearest (results : List Ty) : isNearest (h.rename ρ) q' d results =
      isNearest h q d results := by
    funext t
    cases t with
    | var v => rw [isNearest, isNearest]
    | app x =>
        rw [isNearest, isNearest]
        simp only [strictlyBeyond, strictlyFulfills, appFulfillsWith_rename, e.fulfills]
  funext results operand
  simp only [takeIn, keepNearest, e.combine_eq, hnearest]

end AnswersRenamed

theorem common_rename (tables : Tables) (rounds : Nat) :
    common (h.rename ρ) tables rounds = common h tables rounds := by
  induction rounds with
  | zero => rfl
  | succ rounds ih =>
      have e : AnswersRenamed ⟨h.fulfills rounds, constraints h rounds, common h tables rounds⟩
          ⟨(h.rename ρ).fulfills rounds, constraints (h.rename ρ) rounds,
            common (h.rename ρ) tables rounds⟩ :=
        ⟨fulfills_rename ρ h rounds, ih, constraints_rename ρ h rounds⟩
      funext d operands
      rw [common, common]
      cases operands with
      | nil => rw [commonWith, commonWith]
      | cons first operands => rw [commonWith, commonWith, e.takeIn_eq ρ h]

/-! ## 5. Runs -/

variable {h}

/-- What a call gives: the hierarchy after it, or why it is refused. -/
def reply (h : Hierarchy) : Call → Except Error Hierarchy
  | .declare name params => h.declare name params
  | .addParent child parent => h.addParent child parent
  | .finalize => .ok h.finalize

theorem perform_eq (h : Hierarchy) (c : Call) :
    h.perform c = match h.reply c with
      | .ok h' => h'
      | .error _ => h := by
  cases c with
  | declare name params => rfl
  | addParent child parent => rfl
  | finalize => rfl

end Hierarchy

/-- The call with renamed parameters: those of a declared type, and those that a parent is written
    in, by the renaming of the child. -/
def Call.rename (ρ : String → Renaming) : Call → Call
  | .declare name params => .declare name (params.map (Param.rename (ρ name)))
  | .addParent child parent => .addParent child (parent.rename (ρ child))
  | .finalize => .finalize

/-- The renaming of the type that a call is about. -/
def Call.scope (ρ : String → Renaming) : Call → Renaming
  | .declare name _ => ρ name
  | .addParent child _ => ρ child
  | .finalize => .refl

namespace Hierarchy

variable (ρ : String → Renaming) {h k : Hierarchy}

/-- **One call gives the same in both runs, up to names.** -/
theorem reply_rename (hs : Sound h) (hs' : Sound (h.rename ρ)) (c : Call) :
    (h.rename ρ).reply (c.rename ρ) =
      outcome (Error.rename ρ (c.scope ρ)) (Hierarchy.rename ρ) (h.reply c) := by
  cases c with
  | declare name params => exact declare_rename ρ _ name params
  | addParent child parent => exact addParent_rename ρ hs child parent
  | finalize => exact congrArg Except.ok (finalize_rename ρ hs hs')

theorem perform_rename (hs : Sound h) (hs' : Sound (h.rename ρ)) (c : Call) :
    (h.rename ρ).perform (c.rename ρ) = (h.perform c).rename ρ := by
  rw [perform_eq, perform_eq, reply_rename ρ hs hs']
  cases h.reply c with
  | ok h' => rfl
  | error e => rfl

/-- **The run with renamed calls leads to the renamed hierarchy.** -/
theorem foldl_perform_rename (calls : List Call) :
    (calls.map (Call.rename ρ)).foldl perform empty = (calls.foldl perform empty).rename ρ := by
  induction calls using List.reverseRecOn with
  | nil => rfl
  | append_singleton calls c ih =>
      have hs := sound_of_reachable ⟨calls, rfl⟩
      have hs' := sound_of_reachable ⟨calls.map (Call.rename ρ), rfl⟩
      rw [ih] at hs'
      rw [List.map_append, List.foldl_append, List.foldl_append, ih]
      exact perform_rename ρ hs hs' c

/-- Two hierarchies that nobody can tell apart by asking: the same types, the same relatives, the
    same tables, and the same answers to all questions, within the same rounds. -/
structure Indistinguishable (h k : Hierarchy) : Prop where
  idOf? : ∀ name, k.idOf? name = h.idOf? name
  hasParent : ∀ i j, k.HasParent i j ↔ h.HasParent i j
  hasChild : ∀ i j, k.HasChild i j ↔ h.HasChild i j
  hasAncestor : ∀ i j, k.HasAncestor i j ↔ h.HasAncestor i j
  hasDescendant : ∀ i j, k.HasDescendant i j ↔ h.HasDescendant i j
  tables : k.tables = h.tables
  isCompatible : ∀ rounds t, k.isCompatible rounds t = h.isCompatible rounds t
  typeFulfills : ∀ rounds s t, k.typeFulfills rounds s t = h.typeFulfills rounds s t
  nearestCommon : ∀ rounds d operands,
    k.nearestCommon rounds d operands = h.nearestCommon rounds d operands

theorem indistinguishable_rename (h : Hierarchy) : Indistinguishable h (h.rename ρ) where
  idOf? := idOf?_rename ρ h
  hasParent _ _ := hasParent_rename ρ
  hasChild _ _ := hasChild_rename ρ
  hasAncestor _ _ := hasAncestor_rename ρ
  hasDescendant _ _ := hasDescendant_rename ρ
  tables := rfl
  isCompatible rounds t := by rw [isCompatible, isCompatible, validate_rename]
  typeFulfills rounds s t := by
    rw [typeFulfills, typeFulfills, validate_rename, validate_rename, fulfills_rename]
  nearestCommon rounds d operands := by
    have hop : (h.rename ρ).operand rounds d = h.operand rounds d := by
      funext t
      cases d with
      | up => rw [operand, operand, normalize_eq]
      | down => rw [operand, operand, validate_rename]
    have htables : (h.rename ρ).tables = h.tables := rfl
    rw [Hierarchy.nearestCommon, Hierarchy.nearestCommon, htables, hop]
    simp only [common_rename]

/-- **Names of parameters do not matter.** Make the same calls twice, the second time with the
    parameters of every type renamed, and with every parent written in the renamed parameters of
    the child. Whatever is called next succeeds in both runs or is refused in both, for the same
    reason. The hierarchies cannot be told apart: not even by operands with variables that are
    called like parameters. -/
theorem renamed_indistinguishable (calls : List Call) :
    (∀ call,
      (∃ h' k', (calls.foldl perform empty).reply call = .ok h' ∧
        ((calls.map (Call.rename ρ)).foldl perform empty).reply (call.rename ρ) = .ok k') ∨
      ∃ e, (calls.foldl perform empty).reply call = .error e ∧
        ((calls.map (Call.rename ρ)).foldl perform empty).reply (call.rename ρ) =
          .error (e.rename ρ (call.scope ρ))) ∧
    Indistinguishable (calls.foldl perform empty)
      ((calls.map (Call.rename ρ)).foldl perform empty) := by
  have hs := sound_of_reachable ⟨calls, rfl⟩
  have hs' := sound_of_reachable ⟨calls.map (Call.rename ρ), rfl⟩
  rw [foldl_perform_rename] at hs' ⊢
  refine ⟨fun call => ?_, indistinguishable_rename ρ _⟩
  rw [reply_rename ρ hs hs']
  cases (calls.foldl perform empty).reply call with
  | ok h' => exact Or.inl ⟨h', _, rfl, rfl⟩
  | error e => exact Or.inr ⟨e, rfl, rfl⟩

end Hierarchy

end Lineage
