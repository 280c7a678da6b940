import Lineage.Proofs.Absorption
import Lineage.Proofs.Meeting

/-!
# Common ancestors decide subtyping

In a hierarchy without contravariant parameters, a ground instance fulfills another one if and only
if the other one is their only nearest common ancestor. On both sides the lower instance is raised
to the type of the upper one and compared with it argument by argument.

* `absorbs_of_fulfills`: the upper instance comes out at every position, and nothing else.
* `not_refuted_of_mem_common`: if the upper instance comes out, no position speaks against it.

Arguments that the search meets on the way may hold `_`, where a parent leaves something open.
-/

namespace Lineage

open Nearest

namespace Hierarchy

variable {h : Hierarchy} {tables : Tables}

/-- No type has a contravariant parameter. -/
def NoContravariance (h : Hierarchy) : Prop :=
  ∀ n ∈ h.nodes, ∀ p ∈ n.params, p.variance ≠ .contravariant

instance (h : Hierarchy) : Decidable h.NoContravariance := inferInstanceAs (Decidable (∀ _ ∈ _, _))

theorem NoContravariance.variance_ne (hv : h.NoContravariance) {n : Node} (hn : n ∈ h.nodes)
    (i : Nat) : n.variance i ≠ .contravariant := by
  unfold Node.variance
  cases hp : n.params[i]? with
  | none =>
      intro e
      cases e
  | some p => exact hv n hn p (List.mem_of_getElem? hp)

theorem exists_of_argsAgree_eq_false {rec : Ty → Ty → Option Bool} {n : Node} {xs ys : List Ty}
    (e : argsAgree rec n xs ys = some false) : ∃ i x y, xs[i]? = some x ∧ ys[i]? = some y ∧
      agreeAt rec (n.variance i) x y = some false := by
  obtain ⟨⟨⟨x, y⟩, i⟩, hmem, hfalse⟩ := exists_of_allM e
  obtain ⟨hx, hy⟩ := List.getElem?_zip_eq_some.1 (List.mem_zipIdx_iff_getElem?.1 hmem)
  exact ⟨i, x, y, hx, hy, hfalse⟩

section Order

variable (S : Sound h) (htab : h.tables = some tables) (hv : h.NoContravariance)
include S htab hv

/-! ## 1. What is fulfilled comes out -/

/-- **A ground instance absorbs what fulfills it.** -/
theorem absorbs_of_fulfills {k : Nat} {x s : Ty} (hx : h.Sketch x) (hs : h.Ground s)
    (e : h.fulfills k x s = some true) : h.Absorbs tables .up x s := by
  induction k generalizing x s with
  | zero => cases e
  | succ k ih =>
      obtain ⟨b, rfl⟩ := hs.app
      cases x with
      | var w =>
          rw [hx.var]
          exact absorbs_anonymous b
      | app a =>
          refine absorbs_up S htab hx hs (fun {n i z t} hn hz ht hagree => ?_) e
          refine absorbsAt_of hz ht (fun hvi => ?_) (fun hvi => ?_) fun hvi => ?_
          · rw [hvi] at hagree
            exact ih hz ht hagree
          · exact absurd hvi (hv.variance_ne hn i)
          · rw [hvi] at hagree
            exact covers_of_agreeAt ht hz ((agreeAt_swap hz ht.toOver).trans hagree)

/-! ## 2. What comes out is fulfilled -/

omit S htab hv in
/-- An option that the first argument gives is not refuted by the second. -/
theorem not_refuted_at {k j : Nat} {v : Variance} {z t : Ty} {os : List Ty} (hz : h.Sketch z)
    (ht : h.Sketch t) (hne : v ≠ .contravariant)
    (ih : ∀ {results}, Nearest.common h tables k .up [t, z] = some results → t ∈ results →
      h.fulfills j z t ≠ some false)
    (e : combineAt (answers h tables k) .up v t z = some os) (hmem : t ∈ os) :
    agreeAt (h.fulfills j) v z t ≠ some false := by
  cases v with
  | covariant => exact ih e hmem
  | contravariant => exact absurd rfl hne
  | invariant =>
      cases e
      have hmerge : t.merge z = some t := Option.mem_toList.1 hmem
      have hagree : agreeAt (h.fulfills j) .invariant t z = some true := by
        rw [agreeAt, hmerge]
        rfl
      have hback : agreeAt (h.fulfills j) .invariant z t = some true :=
        (agreeAt_swap ht hz).trans hagree
      rw [hback]
      intro hfalse
      cases hfalse

omit hv in
/-- If the first of two instances comes out, the second one can be raised to its type, and at every
    position the argument of the first one comes out. -/
theorem exists_raise_of_mem_common {k : Nat} {a b : App Ty} {results : List Ty}
    (ha : h.Sketch (.app a)) (hb : h.Sketch (.app b))
    (e : Nearest.common h tables (k + 1) .up [.app b, .app a] = some results)
    (hmem : .app b ∈ results) : ∃ n a', n ∈ h.nodes ∧ h.find? b.head = some n ∧
      h.raise a n.id = some a' ∧ ∀ (i : Nat) (z t : Ty), a'.args[i]? = some z →
        b.args[i]? = some t → ∃ os, combineAt (answers h tables k) .up (n.variance i) t z =
          some os ∧ t ∈ os := by
  obtain ⟨found, hfound, hkeep⟩ := common_pair.1 e
  obtain ⟨cs, hcs, e⟩ := Option.bind_eq_some_iff.1 hfound
  cases e
  obtain ⟨c, hc, heq⟩ := List.mem_map.1 (mem_distinct (keep_eq_some hkeep _ hmem).1)
  cases heq
  obtain ⟨n, b', a', cs', hmeet, hcs', hc⟩ := meetsAt_of_mem_combineApps S htab hcs hb ha hc
  obtain ⟨zs, rfl, -, hoptions⟩ := combineArgs_eq_some hcs' hc
  have hn := S.find_of_mem hmeet.node
  -- an instance is raised to its own type as it is
  have hself := S.raise_self (a := ⟨n.name, zs⟩) hn (hb.length hn)
  obtain rfl := Option.some_inj.1 (hmeet.left.symm.trans hself)
  exact ⟨n, a', hmeet.node, hn, hmeet.right, fun i z t hz ht => hoptions i t z t ht hz ht⟩

/-- **What comes out of a question is not refuted**: the other operand does not fail to fulfill
    it. -/
theorem not_refuted_of_mem_common {k j : Nat} {x s : Ty} {results : List Ty} (hx : h.Sketch x)
    (hs : h.Ground s) (e : Nearest.common h tables k .up [s, x] = some results)
    (hmem : s ∈ results) : h.fulfills j x s ≠ some false := by
  induction k generalizing j x s results with
  | zero => cases e
  | succ k ih =>
      obtain ⟨b, rfl⟩ := hs.app
      intro hfalse
      cases j with
      | zero => cases hfalse
      | succ j =>
          cases x with
          | var w =>
              rw [hx.var] at hfalse
              cases hfalse
          | app a =>
              obtain ⟨n, a', hmem, hn, hr, hoptions⟩ :=
                exists_raise_of_mem_common S htab hx hs.toOver e hmem
              rw [fulfills, fulfillsWith, appFulfillsWith] at hfalse
              simp only [hn, hr] at hfalse
              -- a position that speaks against it would do so in the search
              obtain ⟨i, z, t, hz, ht, hfalse⟩ := exists_of_argsAgree_eq_false hfalse
              obtain ⟨os, hos, hmemt⟩ := hoptions i z t hz ht
              have hsz := Over.arg (searchClosed_sketch.raise S hx hr) hz
              have hgt := Over.arg hs ht
              exact not_refuted_at hsz (Ground.toOver hgt) (hv.variance_ne hmem i) (ih hsz hgt) hos
                hmemt hfalse

end Order

/-! ## 3. Questions -/

/-- **Subtyping is decided by nearest common ancestors.** In a hierarchy without contravariant
    parameters, one ground instance fulfills another one exactly if the other one is their only
    nearest common ancestor, provided that both questions are answered. -/
theorem fulfills_iff_common_ancestor (hr : Reachable h) (hf : h.isFinalized = true)
    (hv : h.NoContravariance) {a b : Ty} (ha : h.isGround a = true) (hb : h.isGround b = true)
    {k m : Nat} (hk : h.typeFulfills k b a ≠ none)
    (hm : (h.nearestCommon m .up [a, b]).run ≠ none) :
    h.typeFulfills k b a = some true ↔
      (h.nearestCommon m .up [a, b]).run = some (.ok [a]) := by
  have S := sound_of_reachable hr
  obtain ⟨tables, htab⟩ := Option.isSome_iff_exists.1 hf
  have hga := isGround_iff.1 ha
  have hsa : h.Sketch a := hga.toOver
  have hsb : h.Sketch b := (isGround_iff.1 hb).toOver
  rw [typeFulfills_of_sketch hsb hsa] at hk ⊢
  rw [nearestCommon_pair_run htab hsa hsb, ne_eq, Option.map_eq_none_iff] at hm
  rw [nearestCommon_pair_eq_ok htab hsa hsb]
  constructor
  · intro hba
    obtain ⟨j, hj⟩ := Filter.eventually_atTop.1 (absorbs_of_fulfills S htab hv hsb hga hba)
    obtain ⟨r, hr⟩ := Option.ne_none_iff_exists'.1 hm
    -- an answer stays in more rounds, and in the end it is the upper instance
    have hlater := common_keeps h tables (Nat.le_max_left m j) .up [a, b] hr
    rw [(hj (max m j) (Nat.le_max_right m j)).2] at hlater
    rw [hr, hlater]
  · intro hcommon
    obtain ⟨f, hf⟩ := Option.ne_none_iff_exists'.1 hk
    cases f with
    | true => exact hf
    | false =>
        exact absurd hf (not_refuted_of_mem_common S htab hv hsb hga hcommon List.mem_cons_self)

/-- Stores are sequences of cells. What a bag is a sequence of is left open. -/
def storage : Hierarchy := [
  .declare "number" [],
  .declare "int" [],
  .declare "seq" [⟨"t", .covariant⟩],
  .declare "cell" [⟨"t", .invariant⟩],
  .declare "bag" [],
  .declare "store" [⟨"t", .invariant⟩],
  .addParent "int" (bareType "number"),
  .addParent "bag" (bareType "seq"),
  .addParent "store" (.app ⟨"seq", [.app ⟨"cell", [.var (.free "t")]⟩]⟩),
  .finalize].foldl perform empty

/-- A sequence of cells. -/
def cells (name : String) : Ty := .app ⟨"seq", [.app ⟨"cell", [bareType name]⟩]⟩

/-- A store of `int`. -/
def intStore : Ty := .app ⟨"store", [bareType "int"]⟩

/-- A bag is a sequence of cells of whatever there is. A store of `int` is no sequence of cells of
    `number`, and what the two have in common is not even a sequence of cells. -/
theorem storage_decided :
    (storage.typeFulfills 9 (bareType "bag") (cells "int") = some true ↔
      (storage.nearestCommon 9 .up [cells "int", bareType "bag"]).run =
        some (.ok [cells "int"])) ∧
    (storage.nearestCommon 9 .up [cells "int", bareType "bag"]).run = some (.ok [cells "int"]) ∧
    (storage.typeFulfills 9 intStore (cells "number") = some true ↔
      (storage.nearestCommon 9 .up [cells "number", intStore]).run =
        some (.ok [cells "number"])) ∧
    (storage.nearestCommon 9 .up [cells "number", intStore]).run = some (.ok []) := by
  have hr : Reachable storage := ⟨_, rfl⟩
  have hv : storage.NoContravariance := by decide
  have hbag : storage.typeFulfills 9 (bareType "bag") (cells "int") = some true := rfl
  have hstore : storage.typeFulfills 9 intStore (cells "number") = some false := rfl
  have hone : (storage.nearestCommon 9 .up [cells "int", bareType "bag"]).run =
    some (.ok [cells "int"]) := rfl
  have hnone : (storage.nearestCommon 9 .up [cells "number", intStore]).run = some (.ok []) := rfl
  refine ⟨?_, hone, ?_, hnone⟩
  · exact fulfills_iff_common_ancestor hr rfl hv (by decide) (by decide) (by simp [hbag])
      (by simp [hone])
  · exact fulfills_iff_common_ancestor hr rfl hv (by decide) (by decide) (by simp [hstore])
      (by simp [hnone])

end Hierarchy

end Lineage
