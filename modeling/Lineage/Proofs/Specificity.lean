import Lineage.Proofs.Covering
import Mathlib.Logic.Relation

/-!
# The partial join of records

One record is below another if the other comes from it by replacing some `_`, one after the other,
by whatever instances (`App.Below`). This is the order of covering (`App.below_iff`).

`App.refine` is the join of this order as far as there is one: it is defined on two records exactly
if they have a common bound, and it gives the least of these (`App.refine_eq_some_iff`). What a join
obeys follows from that, undefined joins included, and so does that substitution keeps it
(`Node.refine_substitute`).
-/

namespace Lineage

open Relation

/-! ## 1. Replacing wildcards -/

/-- One `_` is replaced by an instance. -/
inductive Ty.FillsIn : Ty → Ty → Prop
  | here (t : Ty) : FillsIn .anonymous t
  | inside {s t : Ty} (head : String) (left right : List Ty) (h : FillsIn s t) :
      FillsIn (.app ⟨head, left ++ s :: right⟩) (.app ⟨head, left ++ t :: right⟩)

/-- The second record is the first with some `_` replaced. -/
def App.Below (a b : App Ty) : Prop := ReflTransGen Ty.FillsIn (.app a) (.app b)

theorem Ty.FillsIn.covers {s t : Ty} (h : Ty.FillsIn s t) : s.Covers t := by
  induction h with
  | here t => exact Ty.anonymous_covers t
  | inside head left right _ ih =>
      have hsame (ts : List Ty) : List.Forall₂ Ty.Covers ts ts :=
        List.forall₂_same.2 fun t _ => Ty.covers_refl t
      rw [Ty.app_covers_app, App.covers_iff]
      exact ⟨rfl, List.rel_append (hsame left) (.cons ih (hsame right))⟩

theorem Ty.fillsIn_inside {s t : Ty} (h : ReflTransGen Ty.FillsIn s t) (head : String)
    (left right : List Ty) : ReflTransGen Ty.FillsIn (.app ⟨head, left ++ s :: right⟩)
      (.app ⟨head, left ++ t :: right⟩) := by
  induction h with
  | refl => exact .refl
  | tail _ hstep ih => exact ih.tail (.inside head left right hstep)

/-- Arguments are filled in one after the other. -/
theorem Ty.fillsIn_args (head : String) {as bs : List Ty}
    (h : List.Forall₂ (ReflTransGen Ty.FillsIn) as bs) (left : List Ty) :
    ReflTransGen Ty.FillsIn (.app ⟨head, left ++ as⟩) (.app ⟨head, left ++ bs⟩) := by
  induction h generalizing left with
  | nil => exact .refl
  | @cons a b as bs hab _ ih =>
      have hothers := ih (left ++ [b])
      rw [List.append_assoc, List.append_assoc] at hothers
      exact (Ty.fillsIn_inside hab head left as).trans hothers

/-- **Covering is filling in.** -/
theorem Ty.covers_iff_fillsIn {s t : Ty} : s.Covers t ↔ ReflTransGen Ty.FillsIn s t := by
  constructor
  · intro h
    induction s using Ty.induct generalizing t with
    | app head args ih =>
        obtain ⟨⟨head', args'⟩, rfl, hb⟩ := Ty.app_covers_iff.1 h
        obtain ⟨rfl, hargs⟩ := App.covers_iff.1 hb
        refine Ty.fillsIn_args head ?_ []
        refine List.forall₂_iff_get.2 ⟨hargs.length_eq, fun i hi hj => ?_⟩
        exact ih _ (List.get_mem _ _) (hargs.get hi hj)
    | var name lower upper =>
        obtain hw | rfl := Ty.var_covers_iff.1 h
        · rw [Var.eq_free_of_isWildcard hw]
          exact .single (.here t)
        · exact .refl
  · intro h
    induction h with
    | refl => exact Ty.covers_refl s
    | tail _ hstep ih => exact ih.trans hstep.covers

theorem App.below_iff {a b : App Ty} : a.Below b ↔ a.Covers b := by
  rw [App.Below, ← Ty.covers_iff_fillsIn, Ty.app_covers_app]

/-! ## 2. Least bounds -/

namespace App

variable {a b c d : App Ty}

/-- **A join is the least of the common bounds.** -/
theorem refine_eq_some_iff : a.refine b = some c ↔
    a.Covers c ∧ b.Covers c ∧ ∀ z : App Ty, a.Covers z → b.Covers z → c.Covers z := by
  constructor
  · intro h
    exact ⟨(covers_refine h).1, (covers_refine h).2, fun z => refine_covers h⟩
  · rintro ⟨ha, hb, hleast⟩
    obtain ⟨j, hj⟩ := Option.isSome_iff_exists.1 (refine_isSome ha hb)
    obtain ⟨ha', hb'⟩ := covers_refine hj
    rw [hj, (refine_covers hj ha hb).antisymm (hleast j ha' hb')]

theorem exists_refine_iff : (∃ j, a.refine b = some j) ↔ ∃ z, a.Covers z ∧ b.Covers z := by
  constructor
  · rintro ⟨j, hj⟩
    exact ⟨j, covers_refine hj⟩
  · rintro ⟨z, ha, hb⟩
    exact Option.isSome_iff_exists.1 (refine_isSome ha hb)

theorem refine_self (a : App Ty) : a.refine a = some a :=
  refine_eq_some_iff.2 ⟨a.covers_refl, a.covers_refl, fun _ hz _ => hz⟩

theorem refine_comm (a b : App Ty) : a.refine b = b.refine a := by
  refine Option.ext fun c => ?_
  rw [refine_eq_some_iff, refine_eq_some_iff]
  constructor
  · rintro ⟨ha, hb, hleast⟩
    exact ⟨hb, ha, fun z hzb hza => hleast z hza hzb⟩
  · rintro ⟨hb, ha, hleast⟩
    exact ⟨ha, hb, fun z hza hzb => hleast z hzb hza⟩

/-- Joined one after the other, three records give the least of the bounds of all three. -/
theorem refine_bind_eq_some_iff : (a.refine b).bind (fun j => j.refine c) = some d ↔
    a.Covers d ∧ b.Covers d ∧ c.Covers d ∧
      ∀ z : App Ty, a.Covers z → b.Covers z → c.Covers z → d.Covers z := by
  rw [Option.bind_eq_some_iff]
  constructor
  · rintro ⟨j, hj, hd⟩
    obtain ⟨ha, hb, hleast⟩ := refine_eq_some_iff.1 hj
    obtain ⟨hjd, hc, hleast'⟩ := refine_eq_some_iff.1 hd
    exact ⟨ha.trans hjd, hb.trans hjd, hc, fun z hza hzb hzc => hleast' z (hleast z hza hzb) hzc⟩
  · rintro ⟨ha, hb, hc, hleast⟩
    obtain ⟨j, hj⟩ := exists_refine_iff.2 ⟨d, ha, hb⟩
    obtain ⟨haj, hbj, hleast'⟩ := refine_eq_some_iff.1 hj
    refine ⟨j, hj, refine_eq_some_iff.2 ⟨hleast' d ha hb, hc, fun z hjz hcz => ?_⟩⟩
    exact hleast z (haj.trans hjz) (hbj.trans hjz) hcz

theorem refine_assoc (a b c : App Ty) :
    (a.refine b).bind (fun j => j.refine c) = (b.refine c).bind (fun j => a.refine j) := by
  have hcomm : (fun j => a.refine j) = fun j => j.refine a := funext fun j => refine_comm a j
  rw [hcomm]
  refine Option.ext fun d => ?_
  rw [refine_bind_eq_some_iff, refine_bind_eq_some_iff]
  constructor
  · rintro ⟨ha, hb, hc, hleast⟩
    exact ⟨hb, hc, ha, fun z hzb hzc hza => hleast z hza hzb hzc⟩
  · rintro ⟨hb, hc, ha, hleast⟩
    exact ⟨ha, hb, hc, fun z hza hzb hzc => hleast z hzb hzc hza⟩

end App

/-! ## 3. Substitution -/

theorem Node.paramIndex?_anonymous {n : Node} (hn : ∀ p ∈ n.params, p.name ≠ "") :
    n.paramIndex? "" = none := by
  rw [Node.paramIndex?, List.findIdx?_eq_none_iff]
  intro p hp
  exact beq_eq_false_iff_ne.2 (hn p hp)

/-- **Substitution keeps joins.** The images of two records are joined to the image of their join,
    since it lies below whatever bounds the images. -/
theorem Node.refine_substitute {n : Node} (hn : n.paramIndex? "" = none) {p q r : App Ty}
    (h : p.refine q = some r) (args : List Ty) :
    (n.substitute p args).refine (n.substitute q args) = some (n.substitute r args) := by
  have hargs : List.Forall₂ Ty.Covers args args := List.forall₂_same.2 fun t _ => Ty.covers_refl t
  obtain ⟨hp, hq⟩ := App.covers_refine h
  exact App.refine_eq_some_iff.2 ⟨Node.substitute_covers hn hp hargs,
    Node.substitute_covers hn hq hargs, fun z => Node.covers_substitute_refine h⟩

/-- **Joining records is the partial join of specificity.** Two records are joined exactly if some
    record comes from both by replacing `_`, and the join is the least such record. So joining is
    idempotent, commutative and associative, undefined joins included. Putting arguments in for the
    parameters of a type keeps joins, if no parameter is without a name. -/
theorem App.refine_partial_join (a b c : App Ty) :
    ((∃ j, a.refine b = some j) ↔ ∃ z, a.Below z ∧ b.Below z) ∧
    (∀ j, a.refine b = some j ↔
      a.Below j ∧ b.Below j ∧ ∀ z : App Ty, a.Below z → b.Below z → j.Below z) ∧
    a.refine a = some a ∧
    a.refine b = b.refine a ∧
    (a.refine b).bind (fun j => j.refine c) = (b.refine c).bind (fun j => a.refine j) ∧
    ∀ (n : Node) (args : List Ty) (j : App Ty), (∀ p ∈ n.params, p.name ≠ "") →
      a.refine b = some j →
        (n.substitute a args).refine (n.substitute b args) = some (n.substitute j args) := by
  simp only [App.below_iff]
  exact ⟨App.exists_refine_iff, fun j => App.refine_eq_some_iff, App.refine_self a,
    App.refine_comm a b, App.refine_assoc a b c,
    fun n args j hn h => Node.refine_substitute (Node.paramIndex?_anonymous hn) h args⟩

/-- The record `pair[_, list[t]]`. -/
def listedPair : App Ty := ⟨"pair", [.anonymous, .app ⟨"list", [.var (.free "t")]⟩]⟩

/-- The record `pair[set[_], _]`. -/
def groupedPair : App Ty := ⟨"pair", [.app ⟨"set", [.anonymous]⟩, .anonymous]⟩

/-- The record `pair[set[_], list[t]]`. -/
def fullPair : App Ty :=
  ⟨"pair", [.app ⟨"set", [.anonymous]⟩, .app ⟨"list", [.var (.free "t")]⟩]⟩

/-- The record `pair[t, t]`. -/
def twinPair : App Ty := ⟨"pair", [.var (.free "t"), .var (.free "t")]⟩

/-- A type with the parameter `t`. -/
def boxNode : Node := .new 0 "box" [⟨"t", .covariant⟩]

/-- The first two records are joined to the third, also with `set[_]` put in for `t`. The second and
    the last have no common bound, so all three have no join in any order. -/
theorem pairs_partial_join :
    listedPair.refine groupedPair = some fullPair ∧
    (boxNode.substitute listedPair [.app ⟨"set", [.anonymous]⟩]).refine
      (boxNode.substitute groupedPair [.app ⟨"set", [.anonymous]⟩]) =
      some ⟨"pair", [.app ⟨"set", [.anonymous]⟩, .app ⟨"list", [.app ⟨"set", [.anonymous]⟩]⟩]⟩ ∧
    listedPair.Below fullPair ∧ groupedPair.Below fullPair ∧
    (¬ ∃ z, groupedPair.Below z ∧ twinPair.Below z) ∧
    (listedPair.refine groupedPair).bind (fun j => j.refine twinPair) = none := by
  have hjoin : listedPair.refine groupedPair = some fullPair := by decide
  have hnone : groupedPair.refine twinPair = none := by decide
  obtain ⟨-, hleast, -, -, hassoc, hsubstitute⟩ :=
    App.refine_partial_join listedPair groupedPair twinPair
  obtain ⟨hexists, -⟩ := App.refine_partial_join groupedPair twinPair twinPair
  obtain ⟨hlisted, hgrouped, -⟩ := (hleast fullPair).1 hjoin
  have hnames : ∀ p ∈ boxNode.params, p.name ≠ "" := by decide
  refine ⟨hjoin, hsubstitute boxNode _ fullPair hnames hjoin, hlisted, hgrouped, ?_, ?_⟩
  · rw [← hexists, hnone]
    simp
  · rw [hassoc, hnone]
    rfl

end Lineage
