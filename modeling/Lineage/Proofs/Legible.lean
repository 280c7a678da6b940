import Lineage.Proofs.Composition
import Lineage.Proofs.RoundTrip

/-!
# Records that can be written

Parents that are read from texts bring names that can be written, and so does whatever becomes of
them: abbreviations written out, arguments put in, records joined. The exception is a type's own
record, since any names may be declared for parameters.

* `ofText_text_eq_ok`: the written form of an instance is read as that instance, or not at all
  because its brackets are nested too deep or because it is too long;
* `Legible`: names that can be written, `_` allowed;
* `Readable.writable`: parents without `_` can be written, if they came from texts.
-/

namespace Lineage

open Lineage.Expr

/-! ## 1. Texts that are nested too deep or too long -/

namespace Expr

section Levels

variable {I J : Phrase (List Ty)} {ts rest : List Token} {t : Ty} {tys : List Ty} {p : Place}
  (hIJ : ∀ {ts : List Token} {tys : List Ty} {rest : List Token}, I ts tys rest → J ts tys rest)
include hIJ

theorem Atom.mono (h : Atom I ts t rest) : Atom J ts t rest := by
  cases h with
  | var hx => exact .var hx
  | name hf => exact .name hf
  | apply hf ho ha hc => exact .apply hf ho (hIJ ha) hc

theorem Atoms.mono (h : Atoms I ts tys rest) : Atoms J ts tys rest := by
  induction h with
  | last h => exact .last (h.mono hIJ)
  | more h hc _ ih => exact .more (h.mono hIJ) hc ih

theorem Bounded.mono (h : Bounded I ts t rest) : Bounded J ts t rest := by
  cases h with
  | low hx ho hs => exact .low hx ho (hs.mono hIJ)
  | high hx ho hs => exact .high hx ho (hs.mono hIJ)

theorem TypeList.mono (h : TypeList I p ts tys rest) : TypeList J p ts tys rest := by
  cases h with
  | atom h => exact .atom (h.mono hIJ)
  | atoms h => exact .atoms (h.mono hIJ)
  | bounded h => exact .bounded (h.mono hIJ)
  | behind h hc hb => exact .behind (h.mono hIJ) hc (hb.mono hIJ)
  | between hl ho hx ho' hu => exact .between (hl.mono hIJ) ho hx ho' (hu.mono hIJ)

end Levels

/-- What is derived with some levels of brackets is derived with more. -/
theorem arguments_mono {d e : Nat} (hde : d ≤ e) {ts : List Token} {tys : List Ty}
    {rest : List Token} (h : Arguments d ts tys rest) : Arguments e ts tys rest := by
  induction d generalizing e ts tys rest with
  | zero => exact h.elim
  | succ d ih =>
      cases e with
      | zero => exact absurd hde (Nat.not_succ_le_zero d)
      | succ e => exact TypeList.mono (ih (Nat.le_of_succ_le_succ hde)) h

/-- A list of tokens stands for one instance, with whatever number of levels. -/
theorem TypeList.unique {d e : Nat} {ts : List Token} {t t' : Ty}
    (h : TypeList (Arguments d) .whole ts [t] [])
    (h' : TypeList (Arguments e) .whole ts [t'] []) : t' = t := by
  -- both are derived with the greater number of levels, where reading has one result
  have R := reads_arguments 0 (max d e)
  have hread := typeList_complete R 0
    (h.mono fun hd => arguments_mono (Nat.le_max_left d e) hd) notNext_nil
  have hread' := typeList_complete R 0
    (h'.mono fun he => arguments_mono (Nat.le_max_right d e) he) notNext_nil
  rw [hread] at hread'
  cases hread'
  rfl

end Expr

/-- **The written form of an instance is read as that instance, or not at all** because its brackets
    are nested too deep or because it takes 4 GiB. No name in it takes as much. -/
theorem ofText_text_eq_ok {t t' : Ty} (ht : t.Writable) :
    Ty.ofText t.text = some (.ok t') ↔
      t' = t ∧ t.depth ≤ maxDepth ∧ Text.byteLength t.text.toList < UInt32.size := by
  have hprintable : t.isPrintable = true ↔ t.depth ≤ maxDepth := by
    rw [Ty.isPrintable, ht.expressible, Bool.true_and, decide_eq_true_eq,
      nesting_text ht.expressible]
  constructor
  · intro e
    have hshort := ht.short_text e
    have hderived : TypeList (Arguments t.depth) .whole (meaningful t.text) [t] [] := by
      have hw : Written (Arguments t.depth) t := fun a ha =>
        writes_app a (Ty.isExpressible_parts ht.expressible a ha)
          (Ty.depth_le.1 (Nat.le_refl _) a ha)
      obtain ⟨next, h⟩ := writes_whole ht.expressible hw 0 [] rfl
      rwa [List.append_nil, tokensFrom_nil, ← meaningful_eq] at h
    have hread := (ofText_eq_ok hshort).1 e
    obtain rfl := hderived.unique hread
    exact ⟨rfl, hprintable.1 (isPrintable_of_derives hread), hshort⟩
  · rintro ⟨rfl, hd, hshort⟩
    exact (ofText_eq_ok hshort).2 (derives_text (hprintable.2 hd))

/-! ## 2. Names that can be written -/

/-- A type name that is shorter than 4 GiB. -/
structure IsHead (s : String) : Prop where
  name : isTypeName s.toList = true
  short : s.toList.length < UInt32.size

/-- Every head is a type name, and every variable is `_` or a letter. -/
inductive Legible : Ty → Prop
  | app {head : String} {args : List Ty} (hhead : IsHead head) (hargs : ∀ t ∈ args, Legible t) :
      Legible (.app ⟨head, args⟩)
  | var {v : Var Ty} (hname : v.isAnonymous = true ∨ isVarName v.name.toList = true) :
      Legible (.var v)

theorem legible_app_iff {head : String} {args : List Ty} : Legible (.app ⟨head, args⟩) ↔
    IsHead head ∧ ∀ t ∈ args, Legible t := by
  constructor
  · intro ha
    cases ha with
    | app hhead hargs => exact ⟨hhead, hargs⟩
  · exact fun ⟨hhead, hargs⟩ => .app hhead hargs

theorem legible_anonymous : Legible .anonymous := .var (Or.inl rfl)

theorem legible_of_writable {t : Ty} (ht : t.Writable) : Legible t := by
  obtain ⟨he, hshort⟩ := ht
  induction t using Ty.induct with
  | app head args ih =>
      rw [Ty.isExpressible] at he
      obtain ⟨hhead, -, hargs⟩ := App.isExpressible_iff.1 he
      cases hshort with
      | app hlt hall => exact .app ⟨hhead, hlt⟩ fun t hmem => ih t hmem (hargs t hmem) (hall t hmem)
  | var name lower upper _ _ => exact .var (Or.inr (Var.isExpressible_iff.1 he).1)

/-- What is read from a text is legible. -/
theorem legible_of_ofText {text : String} (h : Text.byteLength text.toList < UInt32.size) {t : Ty}
    (e : Ty.ofText text = some (.ok t)) : Legible t := by
  have hprintable := isPrintable_of_derives ((ofText_eq_ok h).1 e)
  rw [Ty.isPrintable, Bool.and_eq_true] at hprintable
  exact legible_of_writable ⟨hprintable.1, shortNames_of_ofText e⟩

namespace Legible

/-- Without `_` and without bounds, what is legible can be written. -/
theorem writable {t : Ty} (ht : Legible t)
    (hvars : ∀ v ∈ t.vars, v.isAnonymous = false ∧ v.isBounded = false) : t.Writable := by
  induction t using Ty.induct with
  | app head args ih =>
      obtain ⟨hhead, hargs⟩ := legible_app_iff.1 ht
      have hin {t : Ty} (hmem : t ∈ args) : ∀ v ∈ t.vars,
          v.isAnonymous = false ∧ v.isBounded = false := fun v hv => by
        refine hvars v ?_
        rw [Ty.vars_app]
        exact App.mem_vars.2 ⟨t, hmem, hv⟩
      have hall := fun t hmem => ih t hmem (hargs t hmem) (hin hmem)
      refine ⟨?_, .app hhead.short fun t hmem => (hall t hmem).short⟩
      rw [Ty.isExpressible]
      refine App.isExpressible_iff.2 ⟨hhead.name, Ty.fitTogether_of_isAtomic fun t hmem => ?_,
        fun t hmem => (hall t hmem).expressible⟩
      cases t with
      | app a => rfl
      | var v =>
          have hb := (hin hmem v (by rw [Ty.vars_var]; exact List.mem_singleton_self v)).2
          rw [Ty.isAtomic, hb]
          rfl
  | var name lower upper _ _ =>
      have hv := hvars ⟨name, lower, upper⟩ (by rw [Ty.vars_var]; exact List.mem_singleton_self _)
      rw [Var.isBounded, Bool.or_eq_false_iff, Bool.not_eq_false', Bool.not_eq_false',
        List.isEmpty_iff, List.isEmpty_iff] at hv
      obtain ⟨hanon, rfl, rfl⟩ := hv
      cases ht with
      | var hname =>
          rw [hanon] at hname
          have hletter := hname.resolve_left Bool.false_ne_true
          obtain ⟨c, e, -⟩ := isVarName_iff.1 hletter
          refine ⟨Var.isExpressible_iff.2 ⟨hletter, List.forall_mem_nil _, List.forall_mem_nil _⟩,
            .var ?_ (List.forall_mem_nil _) (List.forall_mem_nil _)⟩
          rw [e]
          exact (by decide : 1 < UInt32.size)

theorem mapVars {f : Var Ty → Ty} {t : Ty} (ht : Legible t) (hf : ∀ v, Legible (f v)) :
    Legible (t.mapVars f) := by
  induction t using Ty.induct with
  | app head args ih =>
      obtain ⟨hhead, hargs⟩ := legible_app_iff.1 ht
      rw [Ty.mapVars_app, App.mapVars_eq]
      refine .app hhead fun u hu => ?_
      obtain ⟨t, hmem, rfl⟩ := List.mem_map.1 hu
      exact ih t hmem (hargs t hmem)
  | var name lower upper _ _ =>
      rw [Ty.mapVars_var]
      exact hf _

theorem args {a : App Ty} (ha : Legible (.app a)) : ∀ t ∈ a.args, Legible t :=
  (legible_app_iff.1 ha).2

theorem substitute {r : App Ty} (hr : Legible (.app r)) {n : Node} {args : List Ty}
    (hargs : ∀ t ∈ args, Legible t) : Legible (.app (n.substitute r args)) := by
  have hmap := hr.mapVars (f := n.argument args) fun v => by
    rcases n.argument_eq_or_mem args v with hanon | hmem
    · rw [hanon]
      exact legible_anonymous
    · exact hargs _ hmem
  rwa [Ty.mapVars_app] at hmap

theorem joined {old : Option (App Ty)} {x r : App Ty} (hx : Legible (.app x))
    (hold : ∀ y, old = some y → Legible (.app y)) (hj : Hierarchy.Joined old x r) :
    Legible (.app r) := by
  cases old with
  | none =>
      obtain rfl : r = x := hj
      exact hx
  | some y =>
      exact App.holds_refine (P := Legible) (Q := fun head _ => IsHead head)
        (fun _ _ => legible_app_iff) hj (hold y rfl) hx

end Legible

namespace Hierarchy

variable {h h' : Hierarchy}

/-- Writing abbreviations out adds `_` and nothing else. -/
theorem spelling_legible : Spelling h fun t t' => Legible t → Legible t' where
  short := fun _ ha => by
    refine .app (legible_app_iff.1 ha).1 fun t ht => ?_
    rw [List.eq_of_mem_replicate ht]
    exact legible_anonymous
  full := fun _ _ hargs ha => by
    obtain ⟨hhead, hall⟩ := legible_app_iff.1 ha
    exact .app hhead (forall_mem_of_forall₂ hargs hall)
  var := fun _ _ hv => by
    cases hv with
    | var hname => exact .var hname

/-! ## 3. Hierarchies read from texts -/

/-- Parents are legible, and so are records of other types. -/
structure Readable (h : Hierarchy) : Prop where
  record : ∀ {d a : Nat} {r : App Ty}, d ≠ a → h.record? d a = some r → Legible (.app r)
  parent : ∀ {c p : Nat} {n : Node} {l : App Ty}, h.nodes[c]? = some n →
    n.parents.get? p = some l → Legible (.app l)

namespace Readable

variable {child parent n : Node} {record l x y : App Ty} {c p d a : Nat}
  (R : Readable h) (hs : Sound h)
include R hs

/-- What a legible parent brings is legible: a type's own record leaves no trace in it. -/
theorem carried (hc : h.nodes[child.id]? = some child) (hp : h.nodes[parent.id]? = some parent)
    (ok : h.IsRecord child parent record) (hrecord : Legible (.app record))
    (hx : h.record? d child.id = some x) (hy : h.record? parent.id a = some y) :
    Legible (.app (Hierarchy.carried child parent record x y)) := by
  have hinner : Legible (.app (parent.substitute y record.args)) := by
    by_cases hpa : parent.id = a
    · subst hpa
      rw [hs.record_self hp] at hy
      cases hy
      have hmem := List.mem_of_getElem? hp
      rw [Node.substitute_self (hs.params_nodup hmem) (ok.args_length hs hmem), ← ok.head_eq]
      exact hrecord
    · exact (R.record hpa hy).substitute hrecord.args
  by_cases hdc : d = child.id
  · subst hdc
    rw [hs.record_self hc] at hx
    cases hx
    have hadm : ∀ v ∈ (parent.substitute y record.args).vars, child.Admits v :=
      Node.admits_substitute ok.admitted_args
    rw [Hierarchy.carried, Node.substitute_generic hadm]
    exact hinner
  · exact hinner.substitute (R.record hdc hx).args

theorem extend (hc : h.nodes[child.id]? = some child) (hp : h.nodes[parent.id]? = some parent)
    (ok : h.IsRecord child parent record) (hrecord : Legible (.app record))
    (ex : Extension h h' child parent record) : Readable h' where
  record := fun {d a r} hda hr => by
    rcases ex.record_cases hr with hr | ⟨x, y, hx, hy, hj⟩
    · exact R.record hda hr
    · exact (R.carried hs hc hp ok hrecord hx hy).joined (fun z hz => R.record hda hz) hj
  parent := fun {c p n' l} hn' hl => by
    rcases ex.get?_parents hn' hl with ⟨rfl, rfl, rfl⟩ | ⟨m, hm, hl⟩
    · exact hrecord
    · exact R.parent hm hl

/-- **A legible parent keeps a hierarchy readable.** -/
theorem addParent {name : String} {t : Ty} (ht : Legible t) (e : h.addParent name t = .ok h') :
    Readable h' := by
  obtain ⟨n, p, r, r', hres, hno, hj, ⟨-, rfl⟩ | ex⟩ := addParent_cases hs e
  · exact R
  · have hc := hs.node_of_find hres.child_eq
    have hp := hs.node_of_find hres.parent_eq
    -- the record that the parent is joined with is not the child's own
    have hne : n.id ≠ p.id := fun heq => hno (heq ▸ hs.hasAncestor_refl hc)
    obtain ⟨link, rfl, hlink⟩ := hres.link_eq
    refine R.extend hs hc hp ?_ ?_ ex
    · exact IsRecord.of_joined (fun y hy => hs.isRecord hc hp hy) hres.isRecord hj
    · exact (spelling_legible.normalizeApp hlink ht).joined (fun y hy => R.record hne hy) hj

/-- **Parents without `_` can be written.** -/
theorem writable (fit : Fitting h) (hplain : h.PlainParents) (hn : h.nodes[c]? = some n)
    (hl : n.parents.get? p = some l) : (Ty.app l).Writable := by
  obtain ⟨hrec, hdef⟩ := fit.record_parent hs hplain hn hl
  obtain ⟨m, -, ok⟩ := hs.record_ok hn hrec
  refine (R.parent hn hl).writable fun v hv => ?_
  rw [Ty.vars_app] at hv
  exact ⟨hdef v hv, (ok.admitted v hv).1⟩

end Readable

end Hierarchy

end Lineage
