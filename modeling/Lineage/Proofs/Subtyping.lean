import Lineage.Proofs.Lawful
import Lineage.Hierarchy.Query
import Mathlib.Order.Filter.AtTopBot.Basic
import Mathlib.Order.Filter.Finite

/-!
# Subtyping of ground instances

In a lawful hierarchy the rules of subtyping are an inductive relation, `Related v x y`: at a place
of variance `v`, the first instance may stand where the second one is expected. The second one is
ground; the first one may have variables where no rule looks.

* `Lawful.related_refl`: every ground instance stands in every relation to itself;
* `Lawful.related_put`: putting in related arguments gives related instances, as far as the places
  of the parameters allow;
* `Lawful.related_of_covers`: filling in `_` keeps all relations;
* `fulfills_of_related`: related instances fulfill each other from some round on;
* `typeFulfills_of_sketch`: a question about such instances looks at them as they are.
-/

namespace Lineage.Hierarchy

variable {h : Hierarchy}

/-! ## 1. Instances over a class of variables -/

/-- A normal instance with variables of one class only. -/
structure Over (h : Hierarchy) (V : Var Ty → Prop) (t : Ty) : Prop where
  normal : h.isNormal t = true
  vars : ∀ v ∈ t.vars, V v

/-- A normal instance without variables. -/
def Ground (h : Hierarchy) : Ty → Prop := h.Over fun _ => False

/-- A normal instance that leaves nothing open but `_`. -/
def Sketch (h : Hierarchy) : Ty → Prop := h.Over fun v => (Ty.var v).isWildcard = true

/-- A normal instance in the parameters of a node. -/
def Pattern (h : Hierarchy) (n : Node) : Ty → Prop :=
  h.Over fun v => (n.paramIndex? v.name).isSome = true

section Over

variable {V W : Var Ty → Prop} {t : Ty}

theorem isGround_iff : h.isGround t = true ↔ h.Ground t := by
  rw [isGround, Bool.and_eq_true, List.isEmpty_iff]
  constructor
  · rintro ⟨hn, hv⟩
    exact ⟨hn, by simp [hv]⟩
  · intro hg
    exact ⟨hg.normal, List.eq_nil_iff_forall_not_mem.2 hg.vars⟩

theorem Ground.toOver (ht : h.Ground t) : h.Over V t := ⟨ht.normal, fun v hv => (ht.vars v hv).elim⟩

theorem over_app_iff {a : App Ty} : h.Over V (.app a) ↔
    (∃ n, h.find? a.head = some n ∧ a.args.length = n.arity) ∧ ∀ t ∈ a.args, h.Over V t := by
  constructor
  · intro ho
    obtain ⟨ha, hargs⟩ := isNormalApp_iff.1 (isNormal_app.symm.trans ho.normal)
    refine ⟨ha, fun t ht => ⟨hargs t ht, fun v hv => ho.vars v ?_⟩⟩
    rw [Ty.vars_app]
    exact App.mem_vars.2 ⟨t, ht, hv⟩
  · rintro ⟨ha, hargs⟩
    refine ⟨?_, fun v hv => ?_⟩
    · rw [isNormal_app]
      exact isNormalApp_iff.2 ⟨ha, fun t ht => (hargs t ht).normal⟩
    · rw [Ty.vars_app] at hv
      obtain ⟨t, ht, hv⟩ := App.mem_vars.1 hv
      exact (hargs t ht).vars v hv

theorem Over.arg {a : App Ty} (ho : h.Over V (.app a)) {i : Nat} (hi : a.args[i]? = some t) :
    h.Over V t := (over_app_iff.1 ho).2 t (List.mem_of_getElem? hi)

/-- The arguments are as many as the type has parameters. -/
theorem Over.length {a : App Ty} (ho : h.Over V (.app a)) {n : Node}
    (hn : h.find? a.head = some n) : a.args.length = n.arity := by
  obtain ⟨⟨m, hm, hl⟩, -⟩ := over_app_iff.1 ho
  rw [hn] at hm
  cases hm
  exact hl

theorem Over.of_var {v : Var Ty} (ho : h.Over V (.var v)) : V v :=
  ho.vars v (by rw [Ty.vars_var]; exact List.mem_cons_self)

theorem Over.mapVars {f : Var Ty → Ty} (ht : h.Over V t) (hf : ∀ v, V v → h.Over W (f v)) :
    h.Over W (t.mapVars f) where
  normal := isNormal_mapVars ht.normal fun v hv => (hf v (ht.vars v hv)).normal
  vars := fun v hv => by
    obtain ⟨w, hw, hv⟩ := (Ty.mem_vars_mapVars t).1 hv
    exact (hf w (ht.vars w hw)).vars v hv

/-- **A pattern takes the class of its arguments.** -/
theorem Pattern.put {n : Node} {p : Ty} {xs : List Ty} (hp : h.Pattern n p)
    (hl : xs.length = n.arity) (hxs : ∀ x ∈ xs, h.Over V x) :
    h.Over V (p.mapVars (n.argument xs)) :=
  Over.mapVars hp fun _ hv => hxs _ (Node.argument_mem hl hv)

theorem Ground.app (ht : h.Ground t) : ∃ a, t = .app a := by
  cases t with
  | app a => exact ⟨a, rfl⟩
  | var v => exact (Over.of_var ht).elim

theorem Sketch.var {v : Var Ty} (ht : h.Sketch (.var v)) : v = .free "" :=
  Var.eq_free_of_isWildcard (Over.of_var ht)

theorem sketch_anonymous : h.Sketch .anonymous where
  normal := isNormal_free
  vars := fun v hv => by
    rw [Ty.anonymous, Ty.vars_var, List.mem_singleton] at hv
    subst hv
    rfl

end Over

/-! ## 2. Raising -/

section Raise

variable {n m : Node} {a b c r : App Ty} {target : Nat}

theorem raise_eq_some {a b : App Ty} {target : Nat} : h.raise a target = some b ↔
    ∃ n r, h.find? a.head = some n ∧ n.ancestors.get? target = some r ∧
      b = n.substitute r a.args := by
  rw [raise]
  constructor
  · intro e
    obtain ⟨n, hn, e⟩ := Option.bind_eq_some_iff.1 e
    obtain ⟨r, hr, e⟩ := Option.bind_eq_some_iff.1 e
    exact ⟨n, r, hn, hr, (Option.some_inj.1 e).symm⟩
  · rintro ⟨n, r, hn, hr, rfl⟩
    exact Option.bind_eq_some_iff.2 ⟨n, hn, Option.bind_eq_some_iff.2 ⟨r, hr, rfl⟩⟩

theorem raise_of_record (hn : h.find? a.head = some n) (hr : n.ancestors.get? target = some r) :
    h.raise a target = some (n.substitute r a.args) := raise_eq_some.2 ⟨n, r, hn, hr, rfl⟩

section Sound

variable (S : Sound h)
include S

theorem Sound.find_of_mem (hn : n ∈ h.nodes) : h.find? n.name = some n :=
  S.find_of_node (S.node_of_mem hn)

theorem Sound.idOf?_of_find {f : String} (hn : h.find? f = some n) : h.idOf? f = some n.id :=
  S.idOf?_eq_some.2 ⟨n, S.node_of_find hn, find?_name hn⟩

theorem Sound.record_get (hn : n ∈ h.nodes) (hr : n.ancestors.get? target = some r) :
    h.record? n.id target = some r :=
  record?_eq_some.2 ⟨n, S.node_of_mem hn, hr⟩

theorem Sound.mem_entries (hn : n ∈ h.nodes) (hr : n.ancestors.get? target = some r) :
    (target, r) ∈ n.ancestors.entries :=
  (Roster.mem_entries_iff (S.ancestors_nodup hn)).2 hr

/-- A record is an instance of the ancestor. -/
theorem Sound.find_record (hn : n ∈ h.nodes) (hr : n.ancestors.get? target = some r) :
    ∃ m, h.nodes[target]? = some m ∧ h.find? r.head = some m := by
  obtain ⟨m, hm, ok⟩ := S.record_ok (S.node_of_mem hn) (S.record_get hn hr)
  refine ⟨m, hm, ?_⟩
  rw [ok.head_eq]
  exact S.find_of_node hm

/-- A record is normal. -/
theorem Sound.isNormal_record (hn : n ∈ h.nodes) (hr : n.ancestors.get? target = some r) :
    h.isNormal (.app r) = true := by
  obtain ⟨m, -, ok⟩ := S.record_ok (S.node_of_mem hn) (S.record_get hn hr)
  rw [isNormal_app]
  exact ok.normal

/-- Raising keeps instances normal. -/
theorem Sound.isNormal_raise (ha : h.isNormal (.app a) = true) (e : h.raise a target = some b) :
    h.isNormal (.app b) = true := by
  obtain ⟨n, r, hn, hr, rfl⟩ := raise_eq_some.1 e
  have hargs := (isNormalApp_iff.1 (isNormal_app.symm.trans ha)).2
  have hput := isNormal_mapVars (f := n.argument a.args) (S.isNormal_record (find?_mem hn) hr)
    fun w _ => by
      rcases Node.argument_eq_or_mem n a.args w with e | hmem
      · rw [e]
        exact isNormal_free
      · exact hargs _ hmem
  rwa [Ty.mapVars_app] at hput

/-- What a raised instance is: an instance of the target. -/
theorem Sound.raise_cases (e : h.raise a target = some b) : ∃ n m r,
    h.find? a.head = some n ∧ n.ancestors.get? target = some r ∧ b = n.substitute r a.args ∧
      h.nodes[target]? = some m ∧ h.find? r.head = some m := by
  obtain ⟨n, r, hn, hr, rfl⟩ := raise_eq_some.1 e
  obtain ⟨m, hm, hfind⟩ := S.find_record (find?_mem hn) hr
  exact ⟨n, m, r, hn, hr, rfl, hm, hfind⟩

/-- An instance can be raised to the ancestors of its type. -/
theorem Sound.exists_raise_iff (hn : h.find? a.head = some n) :
    (∃ b, h.raise a target = some b) ↔ h.HasAncestor n.id target := by
  rw [HasAncestor, exists_node_iff (S.node_of_find hn), Roster.contains,
    Option.isSome_iff_exists]
  constructor
  · rintro ⟨b, e⟩
    obtain ⟨m, r, hm, hr, -⟩ := raise_eq_some.1 e
    rw [hn] at hm
    cases hm
    exact ⟨r, hr⟩
  · rintro ⟨r, hr⟩
    exact ⟨_, raise_of_record hn hr⟩

theorem Sound.raise_self (hn : h.find? a.head = some n) (hl : a.args.length = n.arity) :
    h.raise a n.id = some a := by
  have hi := S.node_of_find hn
  have hself := S.record_self hi
  rw [record?, hi] at hself
  rw [raise_of_record hn hself,
    Node.substitute_self (S.params_nodup (find?_mem hn)) hl, find?_name hn]

theorem Sound.raise_head {f : String} (hm : h.find? f = some m)
    (e : h.raise a m.id = some b) : b.head = f := by
  obtain ⟨n, m', r, hn, hr, rfl, hm', hb⟩ := S.raise_cases e
  rw [S.node_of_find hm] at hm'
  cases hm'
  rw [Node.head_substitute]
  exact (find?_name hb).symm.trans (find?_name hm)

theorem Sound.raise_length (e : h.raise a target = some b) (hm : h.find? b.head = some m) :
    b.args.length = m.arity := by
  obtain ⟨n, r, hn, hr, rfl⟩ := raise_eq_some.1 e
  rw [Node.head_substitute] at hm
  obtain ⟨⟨m', hm', hl⟩, -⟩ := isNormalApp_iff.1
    (isNormal_app.symm.trans (S.isNormal_record (find?_mem hn) hr))
  rw [hm] at hm'
  cases hm'
  rw [Node.args_substitute, List.length_map, hl]

end Sound

variable (S : Straight h)
include S

/-- A record is a pattern. -/
theorem Straight.pattern (hn : n ∈ h.nodes) (hr : n.ancestors.get? target = some r) :
    h.Pattern n (.app r) := by
  refine ⟨S.sound.isNormal_record hn hr, ?_⟩
  rw [Ty.vars_app]
  exact S.plain (S.sound.node_of_mem hn) (S.sound.record_get hn hr)

/-- Raising keeps the class of the variables. -/
theorem Straight.raise_over {V : Var Ty → Prop} (ha : h.Over V (.app a))
    (e : h.raise a target = some b) : h.Over V (.app b) := by
  obtain ⟨n, r, hn, hr, rfl⟩ := raise_eq_some.1 e
  have := (S.pattern (find?_mem hn) hr).put (ha.length hn) (over_app_iff.1 ha).2
  rwa [Ty.mapVars_app] at this

/-- **Raising in two steps is raising at once.** -/
theorem Straight.raise_raise {target' : Nat} (e : h.raise a target = some b)
    (e' : h.raise b target' = some c) : h.raise a target' = some c := by
  obtain ⟨n, m, r, hn, hr, rfl, hm, hb⟩ := S.sound.raise_cases e
  obtain ⟨m', r', hb', hr', rfl⟩ := raise_eq_some.1 e'
  rw [Node.head_substitute, hb] at hb'
  cases hb'
  obtain rfl := S.sound.id_eq hm
  have hrec := S.compose hm (S.sound.record_get (find?_mem hn) hr)
    (S.sound.record_get (find?_mem hb) hr')
  rw [record?, S.sound.node_of_find hn] at hrec
  rw [raise_of_record hn hrec, Node.substitute_assoc (S.named n (find?_mem hn))]

omit S in
theorem Lawful.placed_record (L : Lawful h) (hn : n ∈ h.nodes)
    (hr : n.ancestors.get? target = some r) : h.placed n .covariant (.app r) = true :=
  L.placed (L.sound.node_of_mem hn) (L.sound.record_get hn hr)

omit S in
/-- Raising keeps the parameters in place. -/
theorem Lawful.raise_placed (L : Lawful h) {k : Node} {i : Nat} {t : Ty}
    (hp : h.Pattern n (.app a)) (hpl : h.placed n .covariant (.app a) = true)
    (e : h.raise a target = some b) (hk : h.find? b.head = some k) (hi : b.args[i]? = some t) :
    h.placed n (k.variance i) t = true := by
  obtain ⟨m, r, hm, hr, rfl⟩ := raise_eq_some.1 e
  have hmem := find?_mem hm
  have hpat := L.pattern hmem hr
  have hargs {j : Nat} {x : Ty} (hj : a.args[j]? = some x) :
      h.placed n (m.variance j) x = true := by
    have := (placed_app_iff hm).1 hpl hj
    rwa [Variance.compose_covariant] at this
  have hraised := placed_mapVars (L.sound.params_nodup hmem) hpat.normal hpat.vars
    (hp.length hm) (fun x hx => ((over_app_iff.1 hp).2 x hx).normal) (L.placed_record hmem hr)
    hargs
  rw [Ty.mapVars_app] at hraised
  have := (placed_app_iff hk).1 hraised hi
  rwa [Variance.compose_covariant] at this

omit S in
/-- Raising and putting arguments in commute. -/
theorem raise_substitute (hn : n.paramIndex? "" = none) (q : App Ty) (xs : List Ty) :
    h.raise (n.substitute q xs) target = (h.raise q target).map (n.substitute · xs) := by
  rw [raise, raise, Node.head_substitute]
  cases h.find? q.head with
  | none => rfl
  | some m =>
      simp only [Option.bind_eq_bind, Option.bind_some]
      cases m.ancestors.get? target with
      | none => rfl
      | some r =>
          simp only [Option.bind_some, Option.pure_def, Option.map_some]
          rw [Node.args_substitute, Node.substitute_substitute hn]

end Raise

/-! ## 3. The relation -/

/-- By the rules of subtyping, an instance stands in a relation to another one: below it, above it,
    or equal to it. There is no rule for variables. -/
inductive Related (h : Hierarchy) : Variance → Ty → Ty → Prop where
  | same {t : Ty} : h.Ground t → Related h .invariant t t
  | lower {a b raised : App Ty} {n : Node} : h.find? b.head = some n →
      h.raise a n.id = some raised →
      (∀ (i : Nat) (x y : Ty), raised.args[i]? = some x → b.args[i]? = some y →
        Related h (n.variance i) x y) →
      Related h .covariant (.app a) (.app b)
  | upper {a b raised : App Ty} {n : Node} : h.find? a.head = some n →
      h.raise b n.id = some raised →
      (∀ (i : Nat) (x y : Ty), a.args[i]? = some x → raised.args[i]? = some y →
        Related h (Variance.contravariant.compose (n.variance i)) x y) →
      Related h .contravariant (.app a) (.app b)

section Related

variable {v w : Variance} {n : Node} {xs ys : List Ty} {x y z : Ty}

theorem Related.eq (hr : h.Related .invariant x y) : x = y ∧ h.Ground y := by
  cases hr with
  | same hg => exact ⟨rfl, hg⟩

/-- Lists that are equal and ground position by position. -/
theorem related_invariant_args (hl : xs.length = ys.length)
    (hr : ∀ (i : Nat) (x y : Ty), xs[i]? = some x → ys[i]? = some y → h.Related .invariant x y) :
    xs = ys ∧ ∀ y ∈ ys, h.Ground y := by
  constructor
  · refine List.ext_getElem hl fun i hi hj => ?_
    exact (hr i _ _ (List.getElem?_eq_getElem hi) (List.getElem?_eq_getElem hj)).eq.1
  · intro y hy
    obtain ⟨i, hj, rfl⟩ := List.getElem_of_mem hy
    have hi : i < xs.length := by omega
    exact (hr i _ _ (List.getElem?_eq_getElem hi) (List.getElem?_eq_getElem hj)).eq.2

variable (L : Lawful h)
include L

/-- Two instances of one type are related if their arguments are, each at its place. -/
theorem Lawful.related_app {f : String} (hn : h.find? f = some n) (hx : xs.length = n.arity)
    (hy : ys.length = n.arity)
    (hr : ∀ (i : Nat) (x y : Ty), xs[i]? = some x → ys[i]? = some y →
      h.Related (v.compose (n.variance i)) x y) :
    h.Related v (.app ⟨f, xs⟩) (.app ⟨f, ys⟩) := by
  cases v with
  | covariant =>
      refine .lower hn (L.sound.raise_self (a := ⟨f, xs⟩) hn hx) fun i x y hi hj => ?_
      have := hr i x y hi hj
      rwa [Variance.compose_covariant] at this
  | contravariant => exact .upper hn (L.sound.raise_self (a := ⟨f, ys⟩) hn hy) hr
  | invariant =>
      obtain ⟨rfl, hg⟩ := related_invariant_args (hx.trans hy.symm) hr
      exact .same (over_app_iff.2 ⟨⟨n, hn, hx⟩, hg⟩)

/-- Every ground instance stands in every relation to itself. -/
theorem Lawful.related_refl (hx : h.Ground x) : h.Related v x x := by
  induction x using Ty.induct generalizing v with
  | app f args ih =>
      obtain ⟨⟨n, hn, hl⟩, hargs⟩ := over_app_iff.1 hx
      refine L.related_app hn hl hl fun i x y hi hj => ?_
      rw [hi] at hj
      cases hj
      have hmem := List.mem_of_getElem? hi
      exact ih x hmem (hargs x hmem)
  | var name lower upper =>
      obtain ⟨a, e⟩ := hx.app
      cases e

/-- **Related arguments give related instances.** A parameter that is not at a place of its own
    variance is invariant, so the arguments put in there are equal. -/
theorem Lawful.related_put (hn : n ∈ h.nodes) {p : Ty} (hp : h.Pattern n p)
    (hpl : h.placed n w p = true) (hx : xs.length = n.arity) (hy : ys.length = n.arity)
    (hr : ∀ (i : Nat) (x y : Ty), xs[i]? = some x → ys[i]? = some y →
      h.Related (v.compose (n.variance i)) x y) :
    h.Related (v.compose w) (p.mapVars (n.argument xs)) (p.mapVars (n.argument ys)) := by
  induction p using Ty.induct generalizing w with
  | app f ps ih =>
      obtain ⟨⟨m, hm, hl⟩, hps⟩ := over_app_iff.1 hp
      rw [Ty.mapVars_app, Ty.mapVars_app, App.mapVars_eq, App.mapVars_eq]
      refine L.related_app hm (by simpa using hl) (by simpa using hl) fun i s t hi hj => ?_
      rw [List.getElem?_map] at hi hj
      obtain ⟨q, hq, rfl⟩ := Option.map_eq_some_iff.1 hi
      obtain ⟨q', hq', rfl⟩ := Option.map_eq_some_iff.1 hj
      rw [hq] at hq'
      cases hq'
      have hmem := List.mem_of_getElem? hq
      have := ih q hmem (hps q hmem) ((placed_app_iff (a := ⟨f, ps⟩) hm).1 hpl hq)
      rwa [← Variance.compose_assoc] at this
  | var name lower upper =>
      obtain ⟨i, hi⟩ := Option.isSome_iff_exists.1 (Over.of_var hp)
      have hlt := Node.paramIndex?_lt hi
      have hxi := List.getElem?_eq_getElem (hx ▸ hlt)
      have hyi := List.getElem?_eq_getElem (hy ▸ hlt)
      rw [Ty.mapVars_var, Ty.mapVars_var, Node.argument_of_index hi hxi,
        Node.argument_of_index hi hyi]
      have key := hr i _ _ hxi hyi
      rcases (placed_var_iff (L.sound.params_nodup hn) hi).1 hpl with hv | hv
      · rw [hv, Variance.compose_comm] at key
        obtain ⟨e, hg⟩ := key.eq
        rw [e]
        exact L.related_refl hg
      · rwa [hv] at key

/-- Filling in `_` keeps all relations. -/
theorem Lawful.related_of_covers (hr : h.Related v x y) (hc : x.Covers z) : h.Related v z y := by
  induction hr generalizing z with
  | same hg =>
      have e := hc.eq_of_noWildcard fun v hv => (hg.vars v hv).elim
      rw [← e]
      exact .same hg
  | @lower a b raised m hm e _ ih =>
      obtain ⟨c, rfl, hc⟩ := Ty.app_covers_iff.1 hc
      obtain ⟨hhead, hargs⟩ := App.covers_iff.1 hc
      obtain ⟨k, r, hk, hrec, rfl⟩ := raise_eq_some.1 e
      refine .lower hm (raise_of_record (hhead ▸ hk) hrec) fun i s t hi hj => ?_
      have hcov := Node.substitute_covers (L.named k (find?_mem hk)) (App.covers_refl r) hargs
      obtain ⟨s', hs', hss⟩ := forall₂_getElem?_right (App.covers_iff.1 hcov).2 hi
      exact ih i s' t hs' hj hss
  | @upper a b raised m hm e _ ih =>
      obtain ⟨c, rfl, hc⟩ := Ty.app_covers_iff.1 hc
      obtain ⟨hhead, hargs⟩ := App.covers_iff.1 hc
      refine .upper (hhead ▸ hm) e fun i s t hi hj => ?_
      obtain ⟨s', hs', hss⟩ := forall₂_getElem?_right hargs hi
      exact ih i s' t hs' hj hss

end Related

/-! ## 4. Fulfilling -/

/-- Where nothing but `_` is open, instances at an invariant position are merged as records are
    joined. -/
theorem Sketch.merge_eq {x y : Ty} (hx : h.Sketch x) (hy : h.Sketch y) :
    x.merge y = x.refine y := by
  induction x using Ty.induct generalizing y with
  | app f as ih =>
      cases y with
      | var w =>
          rw [hy.var]
          rfl
      | app b =>
          obtain ⟨g, bs⟩ := b
          have has := (over_app_iff.1 hx).2
          have hbs := (over_app_iff.1 hy).2
          have hall : Ty.mergeAll as bs = Ty.refineAll as bs := by
            clear hx hy
            induction as generalizing bs with
            | nil => cases bs <;> rfl
            | cons a as iha =>
                cases bs with
                | nil => rfl
                | cons b bs =>
                    rw [List.forall_mem_cons] at ih has hbs
                    rw [Ty.mergeAll, Ty.refineAll, ih.1 has.1 hbs.1, iha ih.2 bs has.2 hbs.2]
          rw [Ty.merge, Ty.refine, App.refine, hall]
          split
          · rw [Option.map_map]
            rfl
          · rfl
  | var name lower upper =>
      rw [hx.var]
      cases y with
      | app b => rfl
      | var w => rfl

/-- They are merged to the same in either order. -/
theorem Sketch.merge_comm {x y : Ty} (hx : h.Sketch x) (hy : h.Sketch y) :
    x.merge y = y.merge x := by
  induction x using Ty.induct generalizing y with
  | var name lower upper =>
      rw [hx.var]
      cases y with
      | app b => rfl
      | var w => rw [hy.var]
  | app f xs ih =>
      cases y with
      | var w =>
          rw [hy.var]
          rfl
      | app b =>
          obtain ⟨g, ys⟩ := b
          have hxs := (over_app_iff.1 hx).2
          have hys := (over_app_iff.1 hy).2
          have hall : Ty.mergeAll xs ys = Ty.mergeAll ys xs := by
            clear hx hy
            induction xs generalizing ys with
            | nil => cases ys <;> rfl
            | cons x xs ihl =>
                cases ys with
                | nil => rfl
                | cons y ys =>
                    rw [List.forall_mem_cons] at ih hxs hys
                    rw [Ty.mergeAll, Ty.mergeAll, ih.1 hxs.1 hys.1, ihl ih.2 ys hxs.2 hys.2]
          by_cases hfg : f = g
          · subst hfg
            rw [Ty.merge, Ty.merge, if_pos rfl, if_pos rfl, hall]
          · rw [Ty.merge, Ty.merge, if_neg hfg, if_neg (Ne.symm hfg)]

/-- At an invariant place instances agree if they can be filled in to the same instance. -/
theorem agreeAt_invariant_iff {rec : Ty → Ty → Option Bool} {x y : Ty} (hx : h.Sketch x)
    (hy : h.Sketch y) :
    agreeAt rec .invariant x y = some true ↔ ∃ c, x.Covers c ∧ y.Covers c := by
  rw [agreeAt, hx.merge_eq hy, Option.some_inj]
  constructor
  · intro e
    obtain ⟨c, hc⟩ := Option.isSome_iff_exists.1 e
    exact ⟨c, Ty.covers_refine hc⟩
  · rintro ⟨c, hxc, hyc⟩
    exact Ty.refine_isSome hxc hyc

/-- Ground instances agree at an invariant place if they are equal. -/
theorem agreeAt_invariant_ground {rec : Ty → Ty → Option Bool} {x y : Ty} (hx : h.Ground x)
    (hy : h.Ground y) : agreeAt rec .invariant x y = some (decide (x = y)) := by
  have hiff : agreeAt rec .invariant x y = some true ↔ ∃ c, x.Covers c ∧ y.Covers c :=
    agreeAt_invariant_iff (hx.toOver : h.Sketch x) hy.toOver
  by_cases e : x = y
  · rw [decide_eq_true e]
    exact hiff.2 ⟨y, e ▸ Ty.covers_refl y, Ty.covers_refl y⟩
  · rw [decide_eq_false e, agreeAt, Option.some_inj, ← Bool.not_eq_true]
    intro hsome
    obtain ⟨c, hxc, hyc⟩ := hiff.1 (congrArg some hsome)
    have hxe := hxc.eq_of_noWildcard fun v hv => (hx.vars v hv).elim
    have hye := hyc.eq_of_noWildcard fun v hv => (hy.vars v hv).elim
    exact e (hxe.trans hye.symm)

/-- What holds with one more round from some round on holds from some round on. -/
theorem eventually_of_succ {P : Nat → Prop} (hP : ∀ᶠ m in Filter.atTop, P (m + 1)) :
    ∀ᶠ m in Filter.atTop, P m := by
  obtain ⟨k, hk⟩ := Filter.eventually_atTop.1 hP
  refine Filter.eventually_atTop.2 ⟨k + 1, fun m hm => ?_⟩
  obtain ⟨m, rfl⟩ : ∃ m', m = m' + 1 := ⟨m - 1, by omega⟩
  exact hk m (by omega)

/-- What holds of each member of a list from some round on holds of all of them from some round
    on. -/
theorem eventually_forall_mem {α : Type} {xs : List α} {P : Nat → α → Prop}
    (hP : ∀ x ∈ xs, ∀ᶠ m in Filter.atTop, P m x) : ∀ᶠ m in Filter.atTop, ∀ x ∈ xs, P m x :=
  (Filter.eventually_all_finite (List.finite_toSet xs)).2 hP

/-- What holds at each of finitely many positions from some round on holds at all of them from some
    round on. -/
theorem eventually_positions {xs ys : List Ty} {P : Nat → Nat → Ty → Ty → Prop}
    (hP : ∀ (i : Nat) (x y : Ty), xs[i]? = some x → ys[i]? = some y →
      ∀ᶠ m in Filter.atTop, P m i x y) :
    ∀ᶠ m in Filter.atTop, ∀ (i : Nat) (x y : Ty), xs[i]? = some x → ys[i]? = some y →
      P m i x y := by
  have hall := (Filter.eventually_all_finite (List.finite_toSet _)).2
    (forall_mem_zip_zipIdx (P := fun e => ∀ᶠ m in Filter.atTop, P m e.2 e.1.1 e.1.2).2 hP)
  exact hall.mono fun m hm => forall_mem_zip_zipIdx.1 hm

section Fulfills

variable {rounds : Nat} {a b raised : App Ty} {n : Node} {v : Variance} {x y : Ty}

theorem argsAgree_eq_true {rec : Ty → Ty → Option Bool} {xs ys : List Ty} :
    argsAgree rec n xs ys = some true ↔ ∀ (i : Nat) (x y : Ty), xs[i]? = some x →
      ys[i]? = some y → agreeAt rec (n.variance i) x y = some true := by
  rw [argsAgree, allM_eq_true]
  exact forall_mem_zip_zipIdx

theorem fulfills_app_iff : h.fulfills (rounds + 1) (.app a) (.app b) = some true ↔
    ∃ n raised, h.find? b.head = some n ∧ h.raise a n.id = some raised ∧
      ∀ (i : Nat) (x y : Ty), raised.args[i]? = some x → b.args[i]? = some y →
        agreeAt (h.fulfills rounds) (n.variance i) x y = some true := by
  rw [fulfills, fulfillsWith, appFulfillsWith]
  constructor
  · intro e
    cases hn : h.find? b.head with
    | none => simp [hn] at e
    | some n =>
        cases hr : h.raise a n.id with
        | none => simp [hn, hr] at e
        | some raised =>
            simp only [hn, hr] at e
            exact ⟨n, raised, rfl, hr, argsAgree_eq_true.1 e⟩
  · rintro ⟨n, raised, hn, hr, hargs⟩
    simp only [hn, hr]
    exact argsAgree_eq_true.2 hargs

/-- Applications fulfill each other from some round on if their arguments do. -/
theorem eventually_fulfills_app (hn : h.find? b.head = some n)
    (hr : h.raise a n.id = some raised)
    (hargs : ∀ (i : Nat) (x y : Ty), raised.args[i]? = some x → b.args[i]? = some y →
      ∀ᶠ m in Filter.atTop, agreeAt (h.fulfills m) (n.variance i) x y = some true) :
    ∀ᶠ m in Filter.atTop, h.fulfills m (.app a) (.app b) = some true := by
  refine eventually_of_succ ?_
  filter_upwards [eventually_positions hargs] with m hm
  exact fulfills_app_iff.2 ⟨n, raised, hn, hr, hm⟩

/-- **Related instances fulfill each other from some round on.** -/
theorem fulfills_of_related (hr : h.Related v x y) :
    ∀ᶠ m in Filter.atTop, agreeAt (h.fulfills m) v x y = some true := by
  induction hr with
  | @same t hg =>
      refine Filter.Eventually.of_forall fun m => ?_
      exact (agreeAt_invariant_iff hg.toOver hg.toOver).2 ⟨t, Ty.covers_refl t, Ty.covers_refl t⟩
  | lower hn hr _ ih => exact eventually_fulfills_app hn hr ih
  | @upper a b raised n hn hr hargs ih =>
      refine eventually_fulfills_app hn hr fun i x y hi hj => ?_
      have hxy := ih i y x hj hi
      -- the sides are exchanged again, except where they are equal
      cases hv : n.variance i with
      | covariant => rwa [hv] at hxy
      | contravariant => rwa [hv] at hxy
      | invariant =>
          have hrel := hargs i y x hj hi
          rw [hv] at hrel hxy
          obtain ⟨rfl, -⟩ := hrel.eq
          exact hxy

end Fulfills

/-! ## 5. Questions -/

section Questions

variable {rounds : Nat}

/-- `_` has no bounds, so it has a range. -/
theorem checkRanges_of_sketch {t : Ty} (ht : h.Sketch t) :
    h.checkRanges rounds t = pure () := by
  induction t using Ty.induct with
  | app f args ih =>
      have hargs := (over_app_iff.1 ht).2
      clear ht
      rw [checkRanges, checkRangesApp]
      induction args with
      | nil => rfl
      | cons t ts ihl =>
          rw [List.forall_mem_cons] at ih hargs
          rw [checkRangesAll, ih.1 hargs.1, pure_bind]
          exact ihl ih.2 hargs.2
  | var name lower upper =>
      rw [ht.var]
      rfl

/-- A normal instance whose ranges pass is valid as it is. -/
theorem validate_of_isNormal {t : Ty} (ht : h.isNormal t = true)
    (hc : h.checkRanges rounds t = pure ()) : h.validate rounds t = pure t := by
  rw [validate, normalize_of_isNormal ht]
  have : (liftExcept (Except.ok t : Except Error Ty) : Query Ty) = pure t := rfl
  rw [this, pure_bind, hc, pure_bind]

theorem validate_of_sketch {t : Ty} (ht : h.Sketch t) : h.validate rounds t = pure t :=
  validate_of_isNormal ht.normal (checkRanges_of_sketch ht)

/-- An operand that is accepted is looked at in its normal form. -/
theorem normalize_of_operand {d : Direction} {t t' : Ty}
    (e : (h.operand rounds d t).run = some (.ok t')) : h.normalize t = .ok t' := by
  cases d with
  | up =>
      rw [operand, run_liftExcept] at e
      exact Option.some_inj.1 e
  | down =>
      rw [operand, validate] at e
      obtain ⟨s, hs, e⟩ := run_bind_eq_ok.1 e
      obtain ⟨-, -, e⟩ := run_bind_eq_ok.1 e
      cases e
      rw [run_liftExcept] at hs
      exact Option.some_inj.1 hs

/-- Common relatives are found if the operands are read and the search comes to an end. -/
theorem nearestCommon_run_eq_ok {d : Direction} {operands results : List Ty} :
    (h.nearestCommon rounds d operands).run = some (.ok results) ↔ ∃ tables operands',
      h.tables = some tables ∧ (operands.mapM (h.operand rounds d)).run = some (.ok operands') ∧
        Nearest.common h tables rounds d operands' = some results := by
  have hlift {x : Option (List Ty)} :
      (liftM x : Query (List Ty)).run = some (.ok results) ↔ x = some results := by
    cases x with
    | none => exact ⟨nofun, nofun⟩
    | some found =>
        show some (Except.ok found) = some (.ok results) ↔ _
        simp
  unfold nearestCommon
  cases h.tables with
  | none =>
      refine ⟨nofun, ?_⟩
      rintro ⟨tables, operands', e, -⟩
      cases e
  | some tables =>
      dsimp only
      rw [run_bind_eq_ok]
      constructor
      · rintro ⟨operands', hops, e⟩
        exact ⟨tables, operands', rfl, hops, hlift.1 e⟩
      · rintro ⟨tables', operands', e, hops, hfound⟩
        cases e
        exact ⟨operands', hops, hlift.2 hfound⟩

theorem typeFulfills_of_sketch {s t : Ty} (hs : h.Sketch s) (ht : h.Sketch t) :
    h.typeFulfills rounds s t = h.fulfills rounds s t := by
  rw [typeFulfills, validate_of_sketch hs, validate_of_sketch ht]
  rfl

end Questions

end Lineage.Hierarchy
