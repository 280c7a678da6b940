import Lineage.Proofs.Meeting

/-!
# Bare names

A bare name stands for the application of the type to `_` at every position. Subtyping of bare
names is a matter of the graph: one fulfills another if parents lead from the first to the second.

* `linked_iff`: the parents of the graph are those that some call gave without being refused;
* `agreeAt_anonymous`: `_` agrees with everything that comes out of a record, at every variance;
* `typeFulfills_bareType`: so the answer is whether there is a record at all.
-/

namespace Lineage.Hierarchy

open Relation

variable {h : Hierarchy} {calls : List Call}

/-! ## 1. Parents that calls have given -/

/-- One of the calls gave the type `child` an instance of `parent` as its parent, and was not
    refused. -/
def Linked (calls : List Call) (child parent : String) : Prop :=
  ∃ before after args h', calls = before ++ .addParent child (.app ⟨parent, args⟩) :: after ∧
    (before.foldl perform empty).addParent child (.app ⟨parent, args⟩) = .ok h'

/-- A call more: it may be the one that gave the parent. -/
theorem linked_concat {call : Call} {c p : String} : Linked (calls ++ [call]) c p ↔
    Linked calls c p ∨ ∃ args h', call = .addParent c (.app ⟨p, args⟩) ∧
      (calls.foldl perform empty).addParent c (.app ⟨p, args⟩) = .ok h' := by
  constructor
  · rintro ⟨before, after, args, h', e, hok⟩
    rcases List.eq_nil_or_concat after with rfl | ⟨after, last, rfl⟩
    · obtain ⟨rfl, hcall⟩ := List.append_inj' e rfl
      exact Or.inr ⟨args, h', by simpa using hcall, hok⟩
    · rw [List.concat_eq_append, ← List.cons_append, ← List.append_assoc] at e
      exact Or.inl ⟨before, after, args, h', (List.append_inj' e rfl).1, hok⟩
  · rintro (⟨before, after, args, h', rfl, hok⟩ | ⟨args, h', rfl, hok⟩)
    · exact ⟨before, after ++ [call], args, h', by simp, hok⟩
    · exact ⟨calls, [], args, h', rfl, hok⟩

/-- One name has another as a parent, by the numbers of their types. -/
def NamesParent (h : Hierarchy) (c p : String) : Prop :=
  ∃ i j, h.idOf? c = some i ∧ h.idOf? p = some j ∧ h.HasParent i j

/-- Names of one number are the same. -/
theorem Sound.eq_of_idOf? (hs : Sound h) {a b : String} {i : Nat} (ha : h.idOf? a = some i)
    (hb : h.idOf? b = some i) : a = b := by
  obtain ⟨n, hn, rfl⟩ := hs.idOf?_eq_some.1 ha
  obtain ⟨m, hm, rfl⟩ := hs.idOf?_eq_some.1 hb
  rw [hn] at hm
  cases hm
  rfl

/-- A new type has no parents and is nobody's parent. -/
theorem namesParent_extended (hs : Sound h) {name : String} {params : List Param}
    (hname : h.find? name = none) (hparams : (params.map Param.name).Nodup) {c p : String} :
    (h.extended name params).NamesParent c p ↔ h.NamesParent c p := by
  have hs' := hs.extended hname hparams
  constructor
  · rintro ⟨i, j, hc, hp, hij⟩
    have hij := hasParent_extended.1 hij
    obtain ⟨n, hn, hcn⟩ := hs'.idOf?_eq_some.1 hc
    obtain ⟨m, hm, hpm⟩ := hs'.idOf?_eq_some.1 hp
    obtain ⟨n', hn', -⟩ := id hij
    obtain ⟨m', hm'⟩ := hs.node_of_ancestor (hs.hasAncestor_of_parent hij)
    -- the numbers that a parent connects are old
    rw [getElem?_extended.2 (Or.inl hn')] at hn
    rw [getElem?_extended.2 (Or.inl hm')] at hm
    cases hn
    cases hm
    exact ⟨i, j, hs.idOf?_eq_some.2 ⟨n, hn', hcn⟩, hs.idOf?_eq_some.2 ⟨m, hm', hpm⟩, hij⟩
  · rintro ⟨i, j, hc, hp, hij⟩
    obtain ⟨n, hn, hcn⟩ := hs.idOf?_eq_some.1 hc
    obtain ⟨m, hm, hpm⟩ := hs.idOf?_eq_some.1 hp
    exact ⟨i, j, hs'.idOf?_eq_some.2 ⟨n, getElem?_extended.2 (Or.inl hn), hcn⟩,
      hs'.idOf?_eq_some.2 ⟨m, getElem?_extended.2 (Or.inl hm), hpm⟩, hasParent_extended.2 hij⟩

/-- An accepted request connects the two types that it names, and no others. -/
theorem namesParent_addParent {h' : Hierarchy} (hs : Sound h) {child : String} {t : Ty}
    (e : h.addParent child t = .ok h') {c p : String} :
    h'.NamesParent c p ↔ h.NamesParent c p ∨ ∃ args, child = c ∧ t = .app ⟨p, args⟩ := by
  obtain ⟨n, m, r, r', hr, -, -, hcase⟩ := addParent_cases hs e
  obtain ⟨⟨head, args⟩, rfl, hlink⟩ := hr.link_eq
  have hn := hs.node_of_find hr.child_eq
  have hhead : r.head = head := head_normalizeApp hlink
  have hchild : h.idOf? child = some n.id := hs.idOf?_of_find hr.child_eq
  have hparent : h.idOf? head = some m.id := hhead ▸ hs.idOf?_of_find hr.parent_eq
  have hpar : ∀ i j, h'.HasParent i j ↔ h.HasParent i j ∨ (i = n.id ∧ j = m.id) := by
    intro i j
    rcases hcase with ⟨hget, rfl⟩ | ex
    · -- what is asked for is there already
      refine ⟨Or.inl, ?_⟩
      rintro (hij | ⟨rfl, rfl⟩)
      · exact hij
      · exact ⟨n, hn, by rw [Roster.contains, hget]; rfl⟩
    · exact ex.hasParent hn
  have hid := (sameTypes_addParent hs e).idOf?_eq
  unfold NamesParent
  simp only [hid, hpar]
  constructor
  · rintro ⟨i, j, hc, hp, hij | ⟨rfl, rfl⟩⟩
    · exact Or.inl ⟨i, j, hc, hp, hij⟩
    · refine Or.inr ⟨args, hs.eq_of_idOf? hchild hc, ?_⟩
      rw [hs.eq_of_idOf? hparent hp]
  · rintro (⟨i, j, hc, hp, hij⟩ | ⟨args', rfl, e⟩)
    · exact ⟨i, j, hc, hp, Or.inl hij⟩
    · cases e
      exact ⟨n.id, m.id, hchild, hparent, Or.inr ⟨rfl, rfl⟩⟩

/-- One call: parents are the old ones, and the one that is asked for, if the call is accepted. -/
theorem namesParent_perform (hs : Sound h) {call : Call} {c p : String} :
    (h.perform call).NamesParent c p ↔ h.NamesParent c p ∨ ∃ args h',
      call = .addParent c (.app ⟨p, args⟩) ∧ h.addParent c (.app ⟨p, args⟩) = .ok h' := by
  cases call with
  | declare name params =>
      rw [perform]
      split
      · rename_i h' hok
        obtain ⟨-, hname, hparams, rfl⟩ := declare_eq_ok hok
        have hext := namesParent_extended hs hname hparams (c := c) (p := p)
        rw [extended] at hext
        simp [hext]
      · simp
  | addParent child t =>
      rw [perform]
      split
      · rename_i h' hok
        rw [namesParent_addParent hs hok]
        refine or_congr Iff.rfl ⟨?_, ?_⟩
        · rintro ⟨args, rfl, rfl⟩
          exact ⟨args, h', rfl, hok⟩
        · rintro ⟨args, -, hcall, -⟩
          cases hcall
          exact ⟨args, rfl, rfl⟩
      · rename_i why hno
        refine (or_iff_left ?_).symm
        rintro ⟨args, h', hcall, hok⟩
        cases hcall
        rw [hno] at hok
        cases hok
  | finalize =>
      have hfin : h.finalize.NamesParent c p ↔ h.NamesParent c p := by
        simp only [NamesParent, HasParent, idOf?, nodes_finalize]
      rw [perform, hfin]
      simp

/-- **The parents in the graph are those that calls have given.** -/
theorem linked_iff (e : calls.foldl perform empty = h) {c p : String} :
    Linked calls c p ↔ h.NamesParent c p := by
  induction calls using List.reverseRecOn generalizing h with
  | nil =>
      subst e
      constructor
      · rintro ⟨before, after, args, h', hnil, -⟩
        simp at hnil
      · rintro ⟨i, j, hc, -⟩
        cases hc
  | append_singleton calls call ih =>
      have hs := sound_of_reachable ⟨calls, rfl⟩
      rw [List.foldl_append, List.foldl_cons, List.foldl_nil] at e
      rw [linked_concat, ih rfl, ← e, namesParent_perform hs]

/-- Parents lead from one name to another if they lead from the one type to the other. -/
theorem linked_path_iff (e : calls.foldl perform empty = h) {a b : String} {n m : Node}
    (ha : h.find? a = some n) (hb : h.find? b = some m) :
    ReflTransGen (Linked calls) a b ↔ h.HasAncestor n.id m.id := by
  have hs : Sound h := sound_of_reachable ⟨calls, e⟩
  have hida := hs.idOf?_of_find ha
  have hm := hs.node_of_find hb
  rw [hs.hasAncestor_iff_path (List.getElem?_eq_some_iff.1 hm).1]
  constructor
  · intro hab
    suffices ∃ j, h.idOf? b = some j ∧ ReflTransGen h.HasParent n.id j by
      obtain ⟨j, hj, hpath⟩ := this
      rw [hs.idOf?_of_find hb] at hj
      cases hj
      exact hpath
    clear hb hm
    induction hab with
    | refl => exact ⟨n.id, hida, .refl⟩
    | tail _ hlink ih =>
        obtain ⟨j, hj, hpath⟩ := ih
        obtain ⟨i, k, hi, hk, hpar⟩ := (linked_iff e).1 hlink
        rw [hj] at hi
        cases hi
        exact ⟨k, hk, hpath.tail hpar⟩
  · intro hpath
    rw [← find?_name hb]
    clear hb
    generalize m.id = j at hm hpath
    induction hpath generalizing m with
    | refl =>
        rw [hs.node_of_find ha] at hm
        cases hm
        rw [find?_name ha]
    | tail _ hpar ih =>
        obtain ⟨k, hk, -⟩ := id hpar
        refine (ih hk).tail ((linked_iff e).2 ⟨_, _, ?_, ?_, hpar⟩)
        · exact hs.idOf?_eq_some.2 ⟨k, hk, rfl⟩
        · exact hs.idOf?_eq_some.2 ⟨m, hm, rfl⟩

/-! ## 2. Subtyping of bare names -/

/-- The application that a bare name stands for. -/
def openApp (n : Node) : App Ty := ⟨n.name, List.replicate n.arity .anonymous⟩

theorem normalize_bareType {a : String} {n : Node} (ha : h.find? a = some n) :
    h.normalize (bareType a) = .ok (.app (openApp n)) := by
  rw [bareType, normalize, normalizeApp, ha, openApp, find?_name ha]
  rfl

theorem sketch_openApp {a : String} {n : Node} (ha : h.find? a = some n) :
    h.Sketch (.app (openApp n)) := by
  refine over_app_iff.2 ⟨⟨n, ?_, List.length_replicate⟩, fun t ht => ?_⟩
  · rw [openApp, find?_name ha]
    exact ha
  · rw [List.eq_of_mem_replicate ht]
    exact sketch_anonymous

/-- A bare name is valid, and it is looked at with `_` written out. -/
theorem validate_bareType {a : String} {n : Node} (ha : h.find? a = some n) (rounds : Nat) :
    h.validate rounds (bareType a) = pure (.app (openApp n)) := by
  have hsk : h.validate rounds (.app (openApp n)) = pure (.app (openApp n)) :=
    validate_of_sketch (sketch_openApp ha)
  rw [validate, normalize_of_isNormal (sketch_openApp ha).normal] at hsk
  rw [validate, normalize_bareType ha, hsk]

/-- **At every variance, what leaves nothing open but `_` agrees with `_`.** -/
theorem agreeAt_anonymous {x : Ty} (hx : h.Sketch x) (v : Variance) (rounds : Nat) :
    agreeAt (h.fulfills (rounds + 1)) v x .anonymous = some true := by
  cases v with
  | covariant => rfl
  | contravariant =>
      cases x with
      | app a => rfl
      | var w =>
          rw [hx.var]
          rfl
  | invariant =>
      refine (agreeAt_invariant_iff hx sketch_anonymous).2 ⟨x, Ty.covers_refl x, ?_⟩
      exact Ty.anonymous_covers x

/-- **One bare name fulfills another if its type has the other one as an ancestor.** Two rounds
    suffice. -/
theorem typeFulfills_bareType (hs : Sound h) {a b : String} {n m : Node}
    (ha : h.find? a = some n) (hb : h.find? b = some m) (rounds : Nat) :
    ∃ answer, h.typeFulfills (rounds + 2) (bareType a) (bareType b) = some answer ∧
      (answer = true ↔ h.HasAncestor n.id m.id) := by
  have hna : h.find? (openApp n).head = some n := by
    rw [openApp, find?_name ha]
    exact ha
  have hnb : h.find? (openApp m).head = some m := by
    rw [openApp, find?_name hb]
    exact hb
  have hask : h.typeFulfills (rounds + 2) (bareType a) (bareType b) =
      h.appFulfillsWith (h.fulfills (rounds + 1)) (openApp n) (openApp m) := by
    rw [typeFulfills, validate_bareType ha, validate_bareType hb]
    rfl
  rw [hask, ← hs.exists_raise_iff hna, appFulfillsWith, hnb]
  dsimp only
  cases hraise : h.raise (openApp n) m.id with
  | none => exact ⟨false, rfl, by simp⟩
  | some raised =>
      refine ⟨true, argsAgree_eq_true.2 fun i x y hx hy => ?_, by simp⟩
      have hsk : h.Sketch x :=
        Over.arg (searchClosed_sketch.raise hs (sketch_openApp ha) hraise) hx
      rw [List.eq_of_mem_replicate (List.mem_of_getElem? hy)]
      exact agreeAt_anonymous hsk _ rounds

/-- **Subtyping of bare names is reachability.** Whatever calls have been made, and whether the
    hierarchy is finalized or not: of two declared types, the first one's name fulfills the second
    one's if and only if parents that calls have given, and that were not refused, lead from the
    first to the second in no step or more. The question always comes to an end. -/
theorem bare_fulfills_iff {a b : String} (ha : ((calls.foldl perform empty).find? a).isSome = true)
    (hb : ((calls.foldl perform empty).find? b).isSome = true) (rounds : Nat) :
    ∃ answer,
      (calls.foldl perform empty).typeFulfills (rounds + 2) (bareType a) (bareType b) =
        some answer ∧ (answer = true ↔ ReflTransGen (Linked calls) a b) := by
  obtain ⟨n, hn⟩ := Option.isSome_iff_exists.1 ha
  obtain ⟨m, hm⟩ := Option.isSome_iff_exists.1 hb
  obtain ⟨answer, hanswer, hiff⟩ :=
    typeFulfills_bareType (sound_of_reachable ⟨calls, rfl⟩) hn hm rounds
  exact ⟨answer, hanswer, hiff.trans (linked_path_iff rfl hn hm).symm⟩

/-- A crate of ints is a box, and a box is a sink, which is contravariant. A box is no crate, and
    the call that would make it one is refused. -/
def crateCalls : List Call := [
  .declare "int" [],
  .declare "sink" [⟨"t", .contravariant⟩],
  .declare "box" [⟨"s", .invariant⟩, ⟨"t", .covariant⟩],
  .declare "crate" [⟨"u", .covariant⟩],
  .addParent "crate" (.app ⟨"box", [bareType "int", .var (.free "u")]⟩),
  .addParent "box" (.app ⟨"sink", [.app ⟨"sink", [.var (.free "s")]⟩]⟩),
  .addParent "box" (bareType "crate"),
  .finalize]

/-- A bare crate is a bare sink, through a box whose arguments are settled; a bare sink is no bare
    crate. -/
theorem crate_is_sink :
    ((crateCalls.foldl perform empty).find? "crate").isSome = true ∧
    ((crateCalls.foldl perform empty).find? "sink").isSome = true ∧
    (crateCalls.foldl perform empty).typeFulfills 2 (bareType "crate") (bareType "sink") =
      some true ∧
    ReflTransGen (Linked crateCalls) "crate" "sink" ∧
    ¬ ReflTransGen (Linked crateCalls) "sink" "crate" := by
  have hcrate : ((crateCalls.foldl perform empty).find? "crate").isSome = true := by decide
  have hsink : ((crateCalls.foldl perform empty).find? "sink").isSome = true := by decide
  have hyes : (crateCalls.foldl perform empty).typeFulfills 2 (bareType "crate")
      (bareType "sink") = some true := rfl
  have hno : (crateCalls.foldl perform empty).typeFulfills 2 (bareType "sink")
      (bareType "crate") = some false := rfl
  obtain ⟨up, hup, hupIff⟩ := bare_fulfills_iff hcrate hsink 0
  obtain ⟨down, hdown, hdownIff⟩ := bare_fulfills_iff hsink hcrate 0
  rw [hyes] at hup
  rw [hno] at hdown
  cases hup
  cases hdown
  exact ⟨hcrate, hsink, hyes, hupIff.1 rfl, fun hpath => by cases hdownIff.2 hpath⟩

end Lineage.Hierarchy
