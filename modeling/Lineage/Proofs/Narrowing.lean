import Lineage.Proofs.Subtyping

/-!
# Narrowing

A question about common relatives is answered by instances that keep all relations of the operands
on one side: what lies above an operand lies above every common descendant, what lies below it lies
below every common ancestor. `Narrows v x z` says it for one operand and one answer.

* `narrows_put`, `narrows_app`: narrowing the arguments narrows the instance;
* `narrows_raise`, `narrows_lower`: raising an instance keeps what lies below it, and undoing it
  keeps what lies above;
* `narrows_of_agreeAt`: a ground instance that fulfills another one, or is fulfilled by it, narrows
  it. For instances with `_` in them this fails: they fulfill each other if some filling does.
-/

namespace Lineage.Hierarchy

variable {h : Hierarchy}

/-- Whatever the first instance is related to, the second one is too; at an invariant place it is
    the first with some `_` filled in. -/
structure Narrows (h : Hierarchy) (v : Variance) (x z : Ty) : Prop where
  covers : v = .invariant → x.Covers z
  related : ∀ o, h.Related v x o → h.Related v z o

section

variable {v w : Variance} {x y z : Ty}

theorem Narrows.trans (hxy : h.Narrows v x y) (hyz : h.Narrows v y z) : h.Narrows v x z where
  covers := fun hv => (hxy.covers hv).trans (hyz.covers hv)
  related := fun o hr => hyz.related o (hxy.related o hr)

variable (L : Lawful h)
include L

/-- Filling in `_` narrows, at every place. -/
theorem Lawful.narrows_of_covers (hc : x.Covers z) : h.Narrows v x z where
  covers := fun _ => hc
  related := fun _ hr => L.related_of_covers hr hc

theorem Lawful.narrows_refl : h.Narrows v x x := L.narrows_of_covers (Ty.covers_refl x)

/-- `_` is narrowed by everything. -/
theorem Lawful.narrows_var {s : Var Ty} (hs : h.Sketch (.var s)) : h.Narrows v (.var s) z := by
  rw [hs.var]
  exact L.narrows_of_covers (Ty.anonymous_covers z)

/-! ## 1. Arguments -/

section Put

variable {n : Node} {xs zs : List Ty} (hn : n ∈ h.nodes) (hx : xs.length = n.arity)
  (hz : zs.length = n.arity)
  (hxz : ∀ (i : Nat) (x z : Ty), xs[i]? = some x → zs[i]? = some z →
    h.Narrows (n.variance i) x z)
include hn hx hz hxz

/-- An argument put in for a parameter, at a place where the parameter may stand. -/
theorem Lawful.narrows_argument {s : Var Ty} (hs : h.Pattern n (.var s))
    (hpl : h.placed n w (.var s) = true) :
    h.Narrows w ((Ty.var s).mapVars (n.argument xs)) ((Ty.var s).mapVars (n.argument zs)) := by
  obtain ⟨i, hi⟩ := Option.isSome_iff_exists.1 (Over.of_var hs)
  have hlt := Node.paramIndex?_lt hi
  have hxi := List.getElem?_eq_getElem (hx ▸ hlt)
  have hzi := List.getElem?_eq_getElem (hz ▸ hlt)
  rw [Ty.mapVars_var, Ty.mapVars_var, Node.argument_of_index hi hxi,
    Node.argument_of_index hi hzi]
  have key := hxz i _ _ hxi hzi
  rcases (placed_var_iff (L.sound.params_nodup hn) hi).1 hpl with hv | hv
  · exact L.narrows_of_covers (key.covers hv)
  · rwa [hv] at key

/-- At an invariant place the arguments are filled in. -/
theorem Lawful.covers_put {p : Ty} (hp : h.Pattern n p)
    (hpl : h.placed n .invariant p = true) :
    (p.mapVars (n.argument xs)).Covers (p.mapVars (n.argument zs)) := by
  induction p using Ty.induct with
  | app f ps ih =>
      obtain ⟨⟨m, hm, -⟩, hps⟩ := over_app_iff.1 hp
      rw [Ty.mapVars_app, Ty.mapVars_app, App.mapVars_eq, App.mapVars_eq, Ty.app_covers_app,
        App.covers_iff, List.forall₂_map_left_iff, List.forall₂_map_right_iff, List.forall₂_same]
      refine ⟨rfl, fun q hq => ih q hq (hps q hq) ?_⟩
      obtain ⟨i, hi⟩ := List.mem_iff_getElem?.1 hq
      exact (placed_app_iff (a := ⟨f, ps⟩) hm).1 hpl hi
  | var name lower upper => exact (L.narrows_argument hn hx hz hxz hp hpl).covers rfl

/-- A relation of an instance in parameters survives the narrowing of the arguments. The
    induction is on how the instance is related. -/
theorem Lawful.related_narrow {t o : Ty} (hr : h.Related w t o) :
    ∀ p : Ty, t = p.mapVars (n.argument xs) → h.Pattern n p → h.placed n w p = true →
      h.Related w (p.mapVars (n.argument zs)) o := by
  have hname := L.named n hn
  induction hr with
  | same hg =>
      rintro p rfl hp hpl
      have hc := L.covers_put hn hx hz hxz hp hpl
      exact L.related_of_covers (.same hg) hc
  | @lower a b raised m hm er hargs ih =>
      intro p e hp hpl
      cases p with
      | var s =>
          have hnar := L.narrows_argument hn hx hz hxz hp hpl
          rw [← e] at hnar
          exact hnar.related _ (.lower hm er hargs)
      | app q =>
          rw [Ty.mapVars_app] at e ⊢
          cases e
          have hxs : h.raise (n.substitute q xs) m.id = some raised := er
          rw [raise_substitute hname] at hxs
          obtain ⟨q', hq', rfl⟩ := Option.map_eq_some_iff.1 hxs
          have hzs : h.raise (n.substitute q zs) m.id = some (n.substitute q' zs) := by
            rw [raise_substitute hname, hq', Option.map_some]
          have hhead : h.find? q'.head = some m := by rw [L.sound.raise_head hm hq', hm]
          refine .lower hm hzs fun i x y hi hj => ?_
          rw [Node.args_substitute, List.getElem?_map] at hi
          obtain ⟨p', hp', rfl⟩ := Option.map_eq_some_iff.1 hi
          refine ih i _ y ?_ hj p' rfl ((L.raise_over hp hq').arg hp')
            (L.raise_placed hp hpl hq' hhead hp')
          rw [Node.args_substitute, List.getElem?_map, hp', Option.map_some]
  | @upper a b raised m hm er hargs ih =>
      intro p e hp hpl
      cases p with
      | var s =>
          have hnar := L.narrows_argument hn hx hz hxz hp hpl
          rw [← e] at hnar
          exact hnar.related _ (.upper hm er hargs)
      | app q =>
          rw [Ty.mapVars_app] at e ⊢
          cases e
          rw [App.head_mapVars] at hm
          refine .upper (by rw [App.head_mapVars]; exact hm) er fun i x y hi hj => ?_
          rw [App.args_mapVars, List.getElem?_map] at hi
          obtain ⟨p', hp', rfl⟩ := Option.map_eq_some_iff.1 hi
          refine ih i _ y ?_ hj p' rfl (hp.arg hp') ((placed_app_iff hm).1 hpl hp')
          rw [App.args_mapVars, List.getElem?_map, hp', Option.map_some]

/-- **Narrowing the arguments narrows the instance**, as far as the places of the parameters
    allow. -/
theorem Lawful.narrows_put {p : Ty} (hp : h.Pattern n p) (hpl : h.placed n w p = true) :
    h.Narrows w (p.mapVars (n.argument xs)) (p.mapVars (n.argument zs)) where
  covers := by
    rintro rfl
    exact L.covers_put hn hx hz hxz hp hpl
  related := fun _ hr => L.related_narrow hn hx hz hxz hr p rfl hp hpl

end Put

/-- **Two instances of one type narrow each other as their arguments do**, each at its place. -/
theorem Lawful.narrows_app {a b : App Ty} {n : Node} (hn : h.find? a.head = some n)
    (hhead : b.head = a.head) (hx : a.args.length = n.arity) (hz : b.args.length = n.arity)
    (hxz : ∀ (i : Nat) (x z : Ty), a.args[i]? = some x → b.args[i]? = some z →
      h.Narrows (v.compose (n.variance i)) x z) : h.Narrows v (.app a) (.app b) := by
  cases v with
  | covariant =>
      -- the type applied to its own parameters, with the arguments put in
      have hi := L.sound.node_of_find hn
      have hself := L.sound.record_self hi
      have hmem := find?_mem hn
      rw [record?, hi] at hself
      have key := L.narrows_put hmem hx hz
        (fun i x z hxi hzi => by
          have := hxz i x z hxi hzi
          rwa [Variance.compose_covariant] at this)
        (L.pattern hmem hself) (L.placed_record hmem hself)
      have hput {c : App Ty} (hc : c.head = a.head) (hl : c.args.length = n.arity) :
          (Ty.app n.self).mapVars (n.argument c.args) = .app c := by
        have e := Node.substitute_self (L.sound.params_nodup hmem) hl
        rw [find?_name hn, ← hc] at e
        rw [Ty.mapVars_app]
        exact congrArg Ty.app e
      rwa [hput rfl hx, hput hhead hz] at key
  | contravariant =>
      refine ⟨Variance.noConfusion, fun o hr => ?_⟩
      cases hr with
      | upper hm er hargs =>
          rw [hn] at hm
          cases hm
          refine .upper (by rw [hhead]; exact hn) er fun i z y hi hj => ?_
          have hlt : i < a.args.length := by
            have := (List.getElem?_eq_some_iff.1 hi).1
            omega
          have hxi := List.getElem?_eq_getElem hlt
          exact (hxz i _ z hxi hi).related y (hargs i _ y hxi hj)
  | invariant =>
      refine L.narrows_of_covers (Ty.app_covers_app.2 (App.covers_iff.2 ⟨hhead.symm, ?_⟩))
      refine List.forall₂_iff_get.2 ⟨hx.trans hz.symm, fun i hi hj => ?_⟩
      exact (hxz i _ _ (List.getElem?_eq_getElem hi) (List.getElem?_eq_getElem hj)).covers rfl

/-! ## 2. Raising -/

section Raise

variable {a b : App Ty} {n : Node} {target : Nat}

/-- **What lies below an instance lies below it raised.** -/
theorem Lawful.narrows_raise (hn : h.find? a.head = some n) (hl : a.args.length = n.arity)
    (e : h.raise a target = some b) : h.Narrows .contravariant (.app a) (.app b) := by
  obtain ⟨n', m, r, hn', hr, rfl, hm, hb⟩ := L.sound.raise_cases e
  rw [hn] at hn'
  cases hn'
  obtain rfl := L.sound.id_eq hm
  have hmem := find?_mem hn
  refine ⟨Variance.noConfusion, fun o hrel => ?_⟩
  cases hrel with
  | @upper _ o raised _ hn' er hargs =>
      rw [hn] at hn'
      cases hn'
      have hhead : h.find? raised.head = some n := by rw [L.sound.raise_head hn er, hn]
      -- the other instance is raised further, along the same record
      have er' := L.raise_raise er (raise_of_record hhead hr)
      refine .upper (by rw [Node.head_substitute]; exact hb) er' fun i x y hi hj => ?_
      rw [Node.args_substitute, List.getElem?_map] at hi hj
      obtain ⟨p, hp, rfl⟩ := Option.map_eq_some_iff.1 hi
      obtain ⟨p', hp', rfl⟩ := Option.map_eq_some_iff.1 hj
      rw [hp] at hp'
      cases hp'
      have hpl := (placed_app_iff hb).1 (L.placed_record hmem hr) hp
      rw [Variance.compose_covariant] at hpl
      exact L.related_put hmem ((L.pattern hmem hr).arg hp) hpl hl
        (L.sound.raise_length er hhead) hargs

/-- **What lies above a raised instance lies above the instance.** -/
theorem Lawful.narrows_lower (e : h.raise a target = some b) :
    h.Narrows .covariant (.app b) (.app a) := by
  refine ⟨Variance.noConfusion, fun o hrel => ?_⟩
  cases hrel with
  | lower hm er hargs => exact .lower hm (L.raise_raise e er) hargs

end Raise

/-! ## 3. Fulfilling -/

omit L in
/-- Seen from the other side, instances are compared at a place of the opposite variance. -/
theorem agreeAt_swap {rec : Ty → Ty → Option Bool} (hx : h.Sketch x) (hy : h.Sketch y) :
    agreeAt rec (Variance.contravariant.compose v) y x = agreeAt rec v x y := by
  cases v with
  | covariant => rfl
  | contravariant => rfl
  | invariant =>
      show some (y.merge x).isSome = some (x.merge y).isSome
      rw [hx.merge_comm hy]

omit L in
theorem covers_of_agreeAt {rec : Ty → Ty → Option Bool} (hz : h.Ground z) (hx : h.Sketch x)
    (e : agreeAt rec .invariant z x = some true) : x.Covers z := by
  obtain ⟨c, hzc, hxc⟩ := (agreeAt_invariant_iff hz.toOver hx).1 e
  rwa [← hzc.eq_of_noWildcard fun v hv => (hz.vars v hv).elim] at hxc

/-- **A ground instance narrows what it fulfills, and what is fulfilled by it.** -/
theorem Lawful.narrows_of_agreeAt {rounds : Nat} (hz : h.Ground z) (hx : h.Sketch x)
    (e : agreeAt (h.fulfills rounds) v z x = some true) : h.Narrows v x z := by
  induction rounds generalizing v x z with
  | zero =>
      cases v with
      | covariant => cases e
      | contravariant => cases e
      | invariant => exact L.narrows_of_covers (covers_of_agreeAt hz hx e)
  | succ rounds ih =>
      obtain ⟨c, rfl⟩ := hz.app
      cases x with
      | var s => exact L.narrows_var hx
      | app b =>
          cases v with
          | covariant =>
              obtain ⟨n, raised, hn, er, hargs⟩ := fulfills_app_iff.1 e
              have hraised : h.Ground (.app raised) := L.raise_over hz er
              have hhead := L.sound.raise_head hn er
              have hnar : h.Narrows .covariant (.app b) (.app raised) := by
                refine L.narrows_app hn hhead (hx.length hn) (L.sound.raise_length er (hhead ▸ hn))
                  fun i y z hi hj => ?_
                rw [Variance.compose_covariant]
                exact ih (hraised.arg hj) (hx.arg hi) (hargs i z y hj hi)
              exact hnar.trans (L.narrows_lower er)
          | contravariant =>
              obtain ⟨n, raised, hn, er, hargs⟩ := fulfills_app_iff.1 e
              have hraised : h.Sketch (.app raised) := L.raise_over hx er
              have hhead := L.sound.raise_head hn er
              have hnar : h.Narrows .contravariant (.app raised) (.app c) := by
                refine L.narrows_app (hhead ▸ hn) hhead.symm (L.sound.raise_length er (hhead ▸ hn))
                  (hz.length hn) fun i y z hi hj => ?_
                refine ih (hz.arg hj) (hraised.arg hi) (.trans ?_ (hargs i y z hi hj))
                exact agreeAt_swap (hraised.arg hi) (Ground.toOver (hz.arg hj))
              obtain ⟨⟨k, hk, hl⟩, -⟩ := over_app_iff.1 hx
              exact (L.narrows_raise hk hl er).trans hnar
          | invariant => exact L.narrows_of_covers (covers_of_agreeAt hz hx e)

end

end Lineage.Hierarchy
