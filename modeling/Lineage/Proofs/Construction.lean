import Lineage.Proofs.Invariant

/-!
# Every reachable hierarchy is sound

* `addParent_eq_ok`: when a parent is accepted, and what comes of it;
* `Sound.extend`, `Sound.declare`, `Sound.finalize`: the invariant survives every successful call;
* `sound_of_reachable`: so it holds in every reachable hierarchy.
-/

namespace Lineage.Hierarchy

open Relation

variable {h h' : Hierarchy} {child parent : Node} {record : App Ty}

/-! ## 1. When a parent is accepted -/

theorem agree_eq_ok {p : Nat} {link r : App Ty} :
    agree child p link = .ok r ↔ Joined (child.ancestors.get? p) link r := by
  unfold agree
  cases child.ancestors.get? p with
  | none => simp [Joined, eq_comm]
  | some x =>
      cases e : x.refine link with
      | none => simp [Joined, e]
      | some y => simp [Joined, e]

mutual
theorem admits_of_foreign : ∀ {t : Ty}, foreign child t = none → ∀ v ∈ t.vars, child.Admits v
  | .app a, e => by
      rw [foreign] at e
      rw [Ty.vars_app]
      exact admits_of_foreignApp e
  | .var w, e => by
      intro v hv
      rw [Ty.vars_var, List.mem_singleton] at hv
      subst hv
      rw [foreign] at e
      split at e
      · cases e
      · rename_i hb
        split at e
        · rename_i hv
          exact ⟨by simpa using hb, by simpa using hv⟩
        · cases e
theorem admits_of_foreignApp : ∀ {a : App Ty}, foreignApp child a = none →
    ∀ v ∈ a.vars, child.Admits v
  | ⟨f, args⟩, e => by
      rw [foreignApp] at e
      intro v hv
      obtain ⟨t, ht, hv⟩ := App.mem_vars.1 hv
      exact admits_of_foreignAny e t ht v hv
theorem admits_of_foreignAny : ∀ {ts : List Ty}, foreignAny child ts = none →
    ∀ t ∈ ts, ∀ v ∈ t.vars, child.Admits v
  | [], _ => List.forall_mem_nil _
  | s :: ts, e => by
      rw [foreignAny, Option.or_eq_none_iff] at e
      exact List.forall_mem_cons.2 ⟨admits_of_foreign e.1, admits_of_foreignAny e.2⟩
end

/-- What a request for a parent is about: the two types it names, and the parent written out as a
    record of the child. -/
structure Resolves (h : Hierarchy) (child : String) (parent : Ty) (n p : Node) (record : App Ty) :
    Prop where
  open_ : h.tables = none
  child_eq : h.find? child = some n
  link_eq : ∃ link, parent = .app link ∧ h.normalizeApp link = .ok record
  foreign_eq : foreignApp n record = none
  parent_eq : h.find? record.head = some p

/-- **When a parent is accepted, and what comes of it.** -/
theorem addParent_eq_ok {c : String} {t : Ty} : h.addParent c t = .ok h' ↔
    ∃ n p r r', h.Resolves c t n p r ∧ p.id ∉ n.descendants ∧
      Joined (n.ancestors.get? p.id) r r' ∧
        ((n.parents.get? p.id = some r' ∧ h' = h) ∨ (n.parents.get? p.id ≠ some r' ∧
          ∃ ls, h.legacies n p r' = .ok ls ∧ h' = h.connected n p r' ls)) := by
  constructor
  · intro e
    obtain ⟨_, hopen, e⟩ := bind_eq_ok.1 e
    have hopen : h.tables = none := by
      unfold requireOpen at hopen
      split at hopen
      · cases hopen
      · rename_i hf
        simpa [isFinalized] using hf
    split at e
    · cases e
    rename_i n hn
    cases t with
    | var v => cases e
    | app link =>
    obtain ⟨r, hr, e⟩ := bind_eq_ok.1 e
    split at e
    · cases e
    rename_i hf
    split at e
    · cases e
    rename_i p hp
    split at e
    · cases e
    rename_i hd
    obtain ⟨r', hr', e⟩ := bind_eq_ok.1 e
    refine ⟨n, p, r, r', ⟨hopen, hn, ⟨link, rfl, hr⟩, hf, hp⟩, by simpa using hd,
      agree_eq_ok.1 hr', ?_⟩
    split at e
    · rename_i hg
      exact Or.inl ⟨hg, (pure_eq_ok.1 e).symm⟩
    · rename_i hg
      obtain ⟨ls, hls, e⟩ := bind_eq_ok.1 e
      exact Or.inr ⟨hg, ls, hls, (pure_eq_ok.1 e).symm⟩
  · rintro ⟨n, p, r, r', ⟨hopen, hn, ⟨link, rfl, hr⟩, hf, hp⟩, hd, hj, hcase⟩
    have hd : n.descendants.contains p.id = false := by simpa using hd
    have hopen : h.requireOpen = .ok () := by simp [requireOpen, isFinalized, hopen]
    refine bind_eq_ok.2 ⟨(), hopen, ?_⟩
    rw [hn]
    refine bind_eq_ok.2 ⟨r, hr, ?_⟩
    rw [hf, hp]
    simp only [hd, Bool.false_eq_true, if_false]
    refine bind_eq_ok.2 ⟨r', agree_eq_ok.2 hj, ?_⟩
    rcases hcase with ⟨hg, rfl⟩ | ⟨hg, ls, hls, rfl⟩
    · rw [if_pos hg]
      rfl
    · rw [if_neg hg]
      exact bind_eq_ok.2 ⟨ls, hls, rfl⟩

/-- **What an accepted parent does to a sound hierarchy**: nothing if it is a parent already, and
    otherwise the hierarchy is extended by it. -/
theorem addParent_cases (hs : Sound h) {c : String} {t : Ty} (e : h.addParent c t = .ok h') :
    ∃ n p r r', h.Resolves c t n p r ∧ ¬ h.HasAncestor p.id n.id ∧
      Joined (h.record? n.id p.id) r r' ∧
        ((n.parents.get? p.id = some r' ∧ h' = h) ∨ Extension h h' n p r') := by
  obtain ⟨n, p, r, r', hr, hd, hj, hcase⟩ := addParent_eq_ok.1 e
  have hn := hs.node_of_find hr.child_eq
  have hp := hs.node_of_find hr.parent_eq
  refine ⟨n, p, r, r', hr, fun ha => ?_, ?_, ?_⟩
  · obtain ⟨n', hn', hm⟩ := hs.ancestor_descendant.1 ha
    rw [hn] at hn'
    cases hn'
    exact hd hm
  · rw [record?, hn]
    exact hj
  · rcases hcase with hcase | ⟨-, ls, hls, rfl⟩
    · exact Or.inl hcase
    · exact Or.inr (extension_connected hs hn hp hls)

theorem Resolves.isRecord {c : String} {t : Ty} {n p : Node} {r : App Ty}
    (hr : h.Resolves c t n p r) : h.IsRecord n p r where
  head_eq := (find?_name hr.parent_eq).symm
  normal := by
    obtain ⟨link, -, e⟩ := hr.link_eq
    exact isNormalApp_normalizeApp e
  admitted := admits_of_foreignApp hr.foreign_eq

theorem IsRecord.of_joined {n m : Node} {old : Option (App Ty)} {x r : App Ty}
    (hold : ∀ y, old = some y → h.IsRecord n m y) (hx : h.IsRecord n m x) (hj : Joined old x r) :
    h.IsRecord n m r := by
  cases old with
  | none =>
      obtain rfl : r = x := hj
      exact hx
  | some y => exact (hold y rfl).joined hx hj

/-! ## 2. Adding a parent keeps the invariant -/

namespace Extension

variable (hs : Sound h) (hc : h.nodes[child.id]? = some child)
  (hp : h.nodes[parent.id]? = some parent) (ex : Extension h h' child parent record)
include ex

theorem node_old {i : Nat} {n : Node} (hn : h.nodes[i]? = some n) :
    ∃ n', h'.nodes[i]? = some n' ∧
      n'.parents = (if child.id = i then n.parents.insert parent.id record else n.parents) ∧
      n'.children = (if parent.id = i then addNew n.children child.id else n.children) := by
  obtain ⟨n', hn', -⟩ := ex.same.node hn
  obtain ⟨m, hm, hpar, hch, -⟩ := ex.node hn'
  rw [hn] at hm
  cases hm
  exact ⟨n', hn', hpar, hch⟩

include hc in
theorem hasParent {c p : Nat} :
    h'.HasParent c p ↔ h.HasParent c p ∨ (c = child.id ∧ p = parent.id) := by
  constructor
  · rintro ⟨n', hn', hm⟩
    obtain ⟨n, hn, hpar, -⟩ := ex.node hn'
    rw [hpar] at hm
    split at hm
    · rename_i hi
      rcases (Roster.contains_insert ..).1 hm with hm | hm
      · exact Or.inl ⟨n, hn, hm⟩
      · exact Or.inr ⟨hi.symm, hm⟩
    · exact Or.inl ⟨n, hn, hm⟩
  · rintro (⟨n, hn, hm⟩ | ⟨rfl, rfl⟩)
    · obtain ⟨n', hn', hpar, -⟩ := ex.node_old hn
      refine ⟨n', hn', ?_⟩
      rw [hpar]
      split
      · exact (Roster.contains_insert ..).2 (Or.inl hm)
      · exact hm
    · obtain ⟨n', hn', hpar, -⟩ := ex.node_old hc
      rw [if_pos rfl] at hpar
      exact ⟨n', hn', hpar ▸ (Roster.contains_insert ..).2 (Or.inr rfl)⟩

include hp in
theorem hasChild {c p : Nat} :
    h'.HasChild p c ↔ h.HasChild p c ∨ (c = child.id ∧ p = parent.id) := by
  constructor
  · rintro ⟨n', hn', hm⟩
    obtain ⟨n, hn, -, hch, -⟩ := ex.node hn'
    rw [hch] at hm
    split at hm
    · rename_i hi
      rcases mem_addNew.1 hm with hm | hm
      · exact Or.inl ⟨n, hn, hm⟩
      · exact Or.inr ⟨hm, hi.symm⟩
    · exact Or.inl ⟨n, hn, hm⟩
  · rintro (⟨n, hn, hm⟩ | ⟨rfl, rfl⟩)
    · obtain ⟨n', hn', -, hch⟩ := ex.node_old hn
      refine ⟨n', hn', ?_⟩
      rw [hch]
      split
      · exact mem_addNew.2 (Or.inl hm)
      · exact hm
    · obtain ⟨n', hn', -, hch⟩ := ex.node_old hp
      rw [if_pos rfl] at hch
      exact ⟨n', hn', hch ▸ mem_addNew.2 (Or.inr rfl)⟩

variable (hno : ¬ h.HasAncestor parent.id child.id)
include hs hc hp hno

/-- **The ancestors stay the closure of the parents.** A path that uses the new parent uses it
    once: the child is not above the parent. -/
theorem closure {d a : Nat} : h'.HasAncestor d a ↔
    d < h'.nodes.length ∧ ReflTransGen h'.HasParent d a := by
  have mono {x y : Nat} (hxy : h.HasAncestor x y) : ReflTransGen h'.HasParent x y :=
    ReflTransGen.mono (fun _ _ hcp => (ex.hasParent hc).2 (Or.inl hcp)) _ _ (hs.closure.1 hxy).2
  rw [ex.same.size_eq]
  constructor
  · rintro hda
    rcases ex.ancestor.1 hda with hda | ⟨hdc, hpa⟩
    · exact ⟨(hs.closure.1 hda).1, mono hda⟩
    · have hcp : h'.HasParent child.id parent.id := (ex.hasParent hc).2 (Or.inr ⟨rfl, rfl⟩)
      exact ⟨(hs.closure.1 hdc).1, (mono hdc).trans (.head hcp (mono hpa))⟩
  · rintro ⟨hd, hda⟩
    induction hda with
    | refl => exact ex.ancestor.2 (Or.inl (hs.closure.2 ⟨hd, .refl⟩))
    | tail _ hba ih =>
        refine ex.ancestor.2 ?_
        rcases ex.ancestor.1 ih with hdb | ⟨hdc, hpb⟩
        · rcases (ex.hasParent hc).1 hba with hba | ⟨rfl, rfl⟩
          · exact Or.inl (hs.hasAncestor_trans hdb (hs.hasAncestor_of_parent hba))
          · exact Or.inr ⟨hdb, hs.hasAncestor_refl hp⟩
        · rcases (ex.hasParent hc).1 hba with hba | ⟨rfl, rfl⟩
          · exact Or.inr ⟨hdc, hs.hasAncestor_trans hpb (hs.hasAncestor_of_parent hba)⟩
          · exact absurd hpb hno

omit hc hp in
theorem acyclic {d a : Nat} (hda : h'.HasAncestor d a) (had : h'.HasAncestor a d) : d = a := by
  rcases ex.ancestor.1 hda with hda | ⟨hdc, hpa⟩
  · rcases ex.ancestor.1 had with had | ⟨hac, hpd⟩
    · exact hs.acyclic hda had
    · exact absurd (hs.hasAncestor_trans hpd (hs.hasAncestor_trans hda hac)) hno
  · rcases ex.ancestor.1 had with had | ⟨hac, -⟩
    · exact absurd (hs.hasAncestor_trans hpa (hs.hasAncestor_trans had hdc)) hno
    · exact absurd (hs.hasAncestor_trans hpa hac) hno

omit hc hp in
theorem record_self {i : Nat} {n' : Node} (hn' : h'.nodes[i]? = some n') :
    h'.record? i i = some n'.self := by
  have hi : ¬ (h.HasAncestor i child.id ∧ h.HasAncestor parent.id i) :=
    fun ⟨hic, hpi⟩ => hno (hs.hasAncestor_trans hpi hic)
  obtain ⟨n, hn, hb⟩ := ex.same.symm.node hn'
  obtain ⟨-, hname, hparams⟩ := Node.bare_eq_iff.1 hb
  rw [ex.record_old hi, hs.record_self hn, Node.self, Node.self, hname, hparams]

omit hno in
theorem record_ok (hr : h.IsRecord child parent record) {d a : Nat} {r : App Ty} {n' : Node}
    (hn' : h'.nodes[d]? = some n') (hda : h'.record? d a = some r) :
    ∃ m', h'.nodes[a]? = some m' ∧ h'.IsRecord n' m' r := by
  obtain ⟨n, hn, hb⟩ := ex.same.symm.node hn'
  suffices ∃ m, h.nodes[a]? = some m ∧ h.IsRecord n m r by
    obtain ⟨m, hm, ok⟩ := this
    obtain ⟨m', hm', hbm⟩ := ex.same.node hm
    exact ⟨m', hm', ok.congr ex.same hb.symm hbm⟩
  by_cases hnew : h.HasAncestor d child.id ∧ h.HasAncestor parent.id a
  · obtain ⟨x, hx⟩ := hasAncestor_iff.1 hnew.1
    obtain ⟨y, hy⟩ := hasAncestor_iff.1 hnew.2
    obtain ⟨r', hr', hj⟩ := ex.record_new hx hy
    rw [hda] at hr'
    cases hr'
    obtain ⟨m, hm, ok⟩ := hs.record_ok hp hy
    refine ⟨m, hm, IsRecord.of_joined (fun z hz => hs.isRecord hn hm hz) ?_ hj⟩
    exact (hs.isRecord hn hc hx).substitute (hr.substitute ok)
  · rw [ex.record_old hnew] at hda
    exact hs.record_ok hn hda

end Extension

/-- **A new parent keeps the invariant.** -/
theorem Sound.extend (hs : Sound h) (hopen : h.tables = none)
    (hc : h.nodes[child.id]? = some child) (hp : h.nodes[parent.id]? = some parent)
    (hno : ¬ h.HasAncestor parent.id child.id) (hr : h.IsRecord child parent record)
    (ex : Extension h h' child parent record) : Sound h' where
  id_eq := fun hn' => by
    obtain ⟨n, hn, hb⟩ := ex.same.symm.node hn'
    rw [← (Node.bare_eq_iff.1 hb).1, hs.id_eq hn]
  names_nodup := by
    have key (k : Hierarchy) : k.nodes.map Node.name = (k.nodes.map Node.bare).map Node.name := by
      rw [List.map_map]
      rfl
    rw [key, ex.same, ← key]
    exact hs.names_nodup
  params_nodup := fun hm => by
    obtain ⟨i, hn'⟩ := List.mem_iff_getElem?.1 hm
    obtain ⟨n, hn, hb⟩ := ex.same.symm.node hn'
    rw [← (Node.bare_eq_iff.1 hb).2.2]
    exact hs.params_nodup (List.mem_of_getElem? hn)
  parents_nodup := fun hm => by
    obtain ⟨i, hn'⟩ := List.mem_iff_getElem?.1 hm
    obtain ⟨n, hn, hpar, -⟩ := ex.node hn'
    have := hs.parents_nodup (List.mem_of_getElem? hn)
    rw [hpar]
    split
    · exact Roster.nodup_keys_insert this _ _
    · exact this
  children_nodup := fun hm => by
    obtain ⟨i, hn'⟩ := List.mem_iff_getElem?.1 hm
    obtain ⟨n, hn, -, hch, -⟩ := ex.node hn'
    have := hs.children_nodup (List.mem_of_getElem? hn)
    rw [hch]
    split
    · exact nodup_addNew this _
    · exact this
  ancestors_nodup := fun hm => by
    obtain ⟨i, hn'⟩ := List.mem_iff_getElem?.1 hm
    exact (ex.node hn').choose_spec.2.2.2
  parent_child := by
    intro c p
    rw [ex.hasParent hc, ex.hasChild hp, hs.parent_child]
  ancestor_descendant := by
    intro d a
    rw [ex.ancestor, ex.descendant, hs.ancestor_descendant]
  closure := ex.closure hs hc hp hno
  acyclic := ex.acyclic hs hno
  parent_ne := fun hcp => by
    rcases (ex.hasParent hc).1 hcp with hcp | ⟨rfl, rfl⟩
    · exact hs.parent_ne hcp
    · exact fun e => hno (e ▸ hs.hasAncestor_refl hp)
  record_self := ex.record_self hs hno
  record_ok := ex.record_ok hs hc hp hr
  tables_eq := fun ht => by
    rw [ex.tables_eq, hopen] at ht
    cases ht

theorem Sound.addParent (hs : Sound h) {c : String} {t : Ty} (e : h.addParent c t = .ok h') :
    Sound h' := by
  obtain ⟨n, p, r, r', hr, hno, hj, ⟨-, rfl⟩ | ex⟩ := addParent_cases hs e
  · exact hs
  · have hn := hs.node_of_find hr.child_eq
    have hp := hs.node_of_find hr.parent_eq
    refine hs.extend hr.open_ hn hp hno ?_ ex
    exact IsRecord.of_joined (fun y hy => hs.isRecord hn hp hy) hr.isRecord hj

theorem sameTypes_addParent (hs : Sound h) {c : String} {t : Ty} (e : h.addParent c t = .ok h') :
    SameTypes h h' := by
  obtain ⟨n, p, r, r', -, -, -, ⟨-, rfl⟩ | ex⟩ := addParent_cases hs e
  · exact SameTypes.refl _
  · exact ex.same

/-! ## 3. Declaring a type keeps the invariant -/

theorem nodup_of_firstRepeated : ∀ {names seen : List String}, firstRepeated seen names = none →
    names.Nodup ∧ ∀ name ∈ names, name ∉ seen
  | [], _, _ => ⟨List.nodup_nil, List.forall_mem_nil _⟩
  | name :: names, seen, e => by
      rw [firstRepeated] at e
      split at e
      · cases e
      · rename_i hm
        obtain ⟨hn, hs⟩ := nodup_of_firstRepeated e
        refine ⟨List.nodup_cons.2 ⟨fun h => hs name h List.mem_cons_self, hn⟩, ?_⟩
        exact List.forall_mem_cons.2 ⟨hm, fun x hx h => hs x hx (List.mem_cons_of_mem _ h)⟩

/-- When a type is accepted, and what comes of it. -/
theorem declare_eq_ok {name : String} {params : List Param} (e : h.declare name params = .ok h') :
    h.tables = none ∧ h.find? name = none ∧ (params.map Param.name).Nodup ∧
      h' = ⟨h.nodes ++ [Node.new h.nodes.length name params], none⟩ := by
  obtain ⟨_, hopen, e⟩ := bind_eq_ok.1 e
  have hopen : h.tables = none := by
    unfold requireOpen at hopen
    split at hopen
    · cases hopen
    · rename_i hf
      simpa [isFinalized] using hf
  split at e
  · cases e
  rename_i hf
  split at e
  · cases e
  rename_i hr
  cases e
  exact ⟨hopen, by simpa using hf, (nodup_of_firstRepeated hr).1, by rw [hopen]; rfl⟩

theorem firstRepeated_of_nodup {names seen : List String} (hn : names.Nodup)
    (hs : ∀ name ∈ names, name ∉ seen) : firstRepeated seen names = none := by
  induction names generalizing seen with
  | nil => rfl
  | cons name names ih =>
      rw [List.nodup_cons] at hn
      rw [List.forall_mem_cons] at hs
      rw [firstRepeated, if_neg hs.1]
      refine ih hn.2 fun x hx hm => ?_
      rcases List.mem_cons.1 hm with rfl | hm
      · exact hn.1 hx
      · exact hs.2 x hx hm

section Declare

variable (hs : Sound h) {name : String} {params : List Param}

/-- The hierarchy with one more type. -/
def extended (h : Hierarchy) (name : String) (params : List Param) : Hierarchy :=
  ⟨h.nodes ++ [Node.new h.nodes.length name params], none⟩

/-- A new name is accepted with parameters of different names. -/
theorem declare_of_new (hopen : h.tables = none) (hname : h.find? name = none)
    (hparams : (params.map Param.name).Nodup) :
    h.declare name params = .ok (h.extended name params) := by
  have hrep := firstRepeated_of_nodup hparams fun name _ => List.not_mem_nil
  have hreq : h.requireOpen = .ok () := by simp [requireOpen, isFinalized, hopen]
  refine bind_eq_ok.2 ⟨(), hreq, ?_⟩
  rw [hname, hrep, extended, hopen]
  rfl

theorem getElem?_extended {i : Nat} {n : Node} : (h.extended name params).nodes[i]? = some n ↔
    h.nodes[i]? = some n ∨ (i = h.nodes.length ∧ n = Node.new h.nodes.length name params) := by
  rw [extended]
  rcases Nat.lt_trichotomy i h.nodes.length with hi | rfl | hi
  · simp [List.getElem?_append_left hi, Nat.ne_of_lt hi]
  · simp [eq_comm]
  · have hlen : (h.nodes ++ [Node.new h.nodes.length name params]).length ≤ i := by
      rw [List.length_append]
      exact hi
    simp [List.getElem?_eq_none hlen, List.getElem?_eq_none (Nat.le_of_lt hi), Nat.ne_of_gt hi]

theorem hasParent_extended {c p : Nat} :
    (h.extended name params).HasParent c p ↔ h.HasParent c p := by
  constructor
  · rintro ⟨n, hn, hm⟩
    rcases getElem?_extended.1 hn with hn | ⟨-, rfl⟩
    · exact ⟨n, hn, hm⟩
    · cases hm
  · rintro ⟨n, hn, hm⟩
    exact ⟨n, getElem?_extended.2 (Or.inl hn), hm⟩

theorem hasChild_extended {c p : Nat} :
    (h.extended name params).HasChild p c ↔ h.HasChild p c := by
  constructor
  · rintro ⟨n, hn, hm⟩
    rcases getElem?_extended.1 hn with hn | ⟨-, rfl⟩
    · exact ⟨n, hn, hm⟩
    · cases hm
  · rintro ⟨n, hn, hm⟩
    exact ⟨n, getElem?_extended.2 (Or.inl hn), hm⟩

theorem record?_extended {d a : Nat} {r : App Ty} :
    (h.extended name params).record? d a = some r ↔ h.record? d a = some r ∨
      (d = h.nodes.length ∧ a = h.nodes.length ∧ r = Node.generic name params) := by
  have hnew : (Node.new h.nodes.length name params).ancestors.get? a = some r ↔
      a = h.nodes.length ∧ r = Node.generic name params := by
    rw [Node.new, Roster.get?_insert]
    by_cases ha : h.nodes.length = a
    · simp [ha, eq_comm]
    · simp [ha, Ne.symm ha, Roster.get?, Roster.empty, Roster.lookup]
  rw [record?_eq_some, record?_eq_some]
  constructor
  · rintro ⟨n, hn, hr⟩
    rcases getElem?_extended.1 hn with hn | ⟨hd, rfl⟩
    · exact Or.inl ⟨n, hn, hr⟩
    · exact Or.inr ⟨hd, hnew.1 hr⟩
  · rintro (⟨n, hn, hr⟩ | ⟨hd, hr⟩)
    · exact ⟨n, getElem?_extended.2 (Or.inl hn), hr⟩
    · exact ⟨_, getElem?_extended.2 (Or.inr ⟨hd, rfl⟩), hnew.2 hr⟩

theorem hasAncestor_extended {d a : Nat} : (h.extended name params).HasAncestor d a ↔
    h.HasAncestor d a ∨ (d = h.nodes.length ∧ a = h.nodes.length) := by
  rw [hasAncestor_iff, hasAncestor_iff]
  constructor
  · rintro ⟨r, hr⟩
    rcases record?_extended.1 hr with hr | ⟨hd, ha, -⟩
    · exact Or.inl ⟨r, hr⟩
    · exact Or.inr ⟨hd, ha⟩
  · rintro (⟨r, hr⟩ | ⟨hd, ha⟩)
    · exact ⟨r, record?_extended.2 (Or.inl hr)⟩
    · exact ⟨_, record?_extended.2 (Or.inr ⟨hd, ha, rfl⟩)⟩

theorem hasDescendant_extended {d a : Nat} : (h.extended name params).HasDescendant a d ↔
    h.HasDescendant a d ∨ (d = h.nodes.length ∧ a = h.nodes.length) := by
  constructor
  · rintro ⟨n, hn, hm⟩
    rcases getElem?_extended.1 hn with hn | ⟨ha, rfl⟩
    · exact Or.inl ⟨n, hn, hm⟩
    · exact Or.inr ⟨List.mem_singleton.1 hm, ha⟩
  · rintro (⟨n, hn, hm⟩ | ⟨rfl, rfl⟩)
    · exact ⟨n, getElem?_extended.2 (Or.inl hn), hm⟩
    · exact ⟨_, getElem?_extended.2 (Or.inr ⟨rfl, rfl⟩), List.mem_singleton.2 rfl⟩

theorem knows_extended : Knows h (h.extended name params) := by
  intro other n hn
  refine ⟨n, ?_, rfl⟩
  rw [find?, extended, List.find?_append]
  rw [find?] at hn
  rw [hn]
  rfl

include hs

theorem closure_extended {d a : Nat} : (h.extended name params).HasAncestor d a ↔
    d < (h.extended name params).nodes.length ∧
      ReflTransGen (h.extended name params).HasParent d a := by
  have hpar : (h.extended name params).HasParent = h.HasParent := by
    funext c p
    exact propext hasParent_extended
  have hlen : (h.extended name params).nodes.length = h.nodes.length + 1 := by simp [extended]
  rw [hasAncestor_extended, hpar, hlen]
  constructor
  · rintro (hda | ⟨rfl, rfl⟩)
    · obtain ⟨hd, hda⟩ := hs.closure.1 hda
      exact ⟨Nat.lt_succ_of_lt hd, hda⟩
    · exact ⟨Nat.lt_succ_self _, .refl⟩
  · rintro ⟨hd, hda⟩
    rcases Nat.lt_succ_iff_lt_or_eq.1 hd with hd | rfl
    · exact Or.inl (hs.closure.2 ⟨hd, hda⟩)
    · rcases hda.cases_head with rfl | ⟨b, ⟨n, hn, -⟩, -⟩
      · exact Or.inr ⟨rfl, rfl⟩
      · exact absurd (List.getElem?_eq_some_iff.1 hn).1 (Nat.lt_irrefl _)

/-- **A new type keeps the invariant.** -/
theorem Sound.extended (hname : h.find? name = none) (hparams : (params.map Param.name).Nodup) :
    Sound (h.extended name params) where
  id_eq := fun hn => by
    rcases getElem?_extended.1 hn with hn | ⟨rfl, rfl⟩
    · exact hs.id_eq hn
    · rfl
  names_nodup := by
    rw [Hierarchy.extended, List.map_append]
    refine List.nodup_append.2 ⟨hs.names_nodup, by simp, fun a ha b hb e => ?_⟩
    obtain ⟨n, hn, rfl⟩ := List.mem_map.1 ha
    have hb : b = name := by simpa [Node.new] using hb
    have := List.find?_eq_none.1 hname n hn
    simp [e, hb] at this
  params_nodup := fun hm => by
    rcases List.mem_append.1 hm with hm | hm
    · exact hs.params_nodup hm
    · rw [List.mem_singleton.1 hm]
      exact hparams
  parents_nodup := fun hm => by
    rcases List.mem_append.1 hm with hm | hm
    · exact hs.parents_nodup hm
    · rw [List.mem_singleton.1 hm]
      exact List.nodup_nil
  children_nodup := fun hm => by
    rcases List.mem_append.1 hm with hm | hm
    · exact hs.children_nodup hm
    · rw [List.mem_singleton.1 hm]
      exact List.nodup_nil
  ancestors_nodup := fun hm => by
    rcases List.mem_append.1 hm with hm | hm
    · exact hs.ancestors_nodup hm
    · rw [List.mem_singleton.1 hm]
      exact List.pairwise_singleton _ _
  parent_child := hasParent_extended.trans (hs.parent_child.trans hasChild_extended.symm)
  ancestor_descendant := by
    intro d a
    rw [hasAncestor_extended, hasDescendant_extended, hs.ancestor_descendant]
  closure := closure_extended hs
  acyclic := fun {d a} hda had => by
    rcases hasAncestor_extended.1 hda with hda | ⟨rfl, rfl⟩
    · rcases hasAncestor_extended.1 had with had | ⟨rfl, rfl⟩
      · exact hs.acyclic hda had
      · rfl
    · rfl
  parent_ne := fun hcp => hs.parent_ne (hasParent_extended.1 hcp)
  record_self := fun hn => by
    refine record?_extended.2 ?_
    rcases getElem?_extended.1 hn with hn | ⟨rfl, rfl⟩
    · exact Or.inl (hs.record_self hn)
    · exact Or.inr ⟨rfl, rfl, rfl⟩
  record_ok := fun {d a r n} hn hr => by
    rcases record?_extended.1 hr with hr | ⟨rfl, rfl, rfl⟩
    · obtain ⟨n', hn', -⟩ := record?_eq_some.1 hr
      have e : (h.extended name params).nodes[d]? = some n' :=
        getElem?_extended.2 (Or.inl hn')
      rw [hn] at e
      cases e
      obtain ⟨m, hm, ok⟩ := hs.record_ok hn' hr
      refine ⟨m, getElem?_extended.2 (Or.inl hm), ok.head_eq, ?_, ok.admitted⟩
      exact isNormalApp_mono knows_extended ok.normal
    · have e : (h.extended name params).nodes[h.nodes.length]? =
          some (Node.new h.nodes.length name params) := getElem?_extended.2 (Or.inr ⟨rfl, rfl⟩)
      rw [hn] at e
      cases e
      refine ⟨_, hn, isRecord_self ?_⟩
      rw [find?, Hierarchy.extended, List.find?_append]
      rw [find?] at hname
      rw [Node.new, hname]
      simp
  tables_eq := fun ht => by cases ht

end Declare

theorem Sound.declare (hs : Sound h) {name : String} {params : List Param}
    (e : h.declare name params = .ok h') : Sound h' := by
  obtain ⟨-, hname, hparams, rfl⟩ := declare_eq_ok e
  exact hs.extended hname hparams

/-! ## 4. Reachable hierarchies -/

theorem nodes_finalize : h.finalize.nodes = h.nodes := by
  unfold finalize
  split <;> rfl

theorem Sound.finalize (hs : Sound h) : Sound h.finalize := by
  unfold Hierarchy.finalize
  split
  · exact hs
  · have same : SameTypes h { h with tables := some (Nearest.Tables.build h.nodes) } := rfl
    exact {
      id_eq := hs.id_eq
      names_nodup := hs.names_nodup
      params_nodup := hs.params_nodup
      parents_nodup := hs.parents_nodup
      children_nodup := hs.children_nodup
      ancestors_nodup := hs.ancestors_nodup
      parent_child := hs.parent_child
      ancestor_descendant := hs.ancestor_descendant
      closure := hs.closure
      acyclic := hs.acyclic
      parent_ne := hs.parent_ne
      record_self := hs.record_self
      record_ok := fun hn hr => by
        obtain ⟨m, hm, ok⟩ := hs.record_ok hn hr
        exact ⟨m, hm, ok.congr same rfl rfl⟩
      tables_eq := fun ht => by
        cases ht
        rfl }

theorem sound_empty : Sound empty where
  id_eq := fun hn => by cases hn
  names_nodup := List.nodup_nil
  params_nodup := fun hn => by cases hn
  parents_nodup := fun hn => by cases hn
  children_nodup := fun hn => by cases hn
  ancestors_nodup := fun hn => by cases hn
  parent_child := ⟨fun ⟨_, hn, _⟩ => (by cases hn), fun ⟨_, hn, _⟩ => (by cases hn)⟩
  ancestor_descendant := ⟨fun ⟨_, hn, _⟩ => (by cases hn), fun ⟨_, hn, _⟩ => (by cases hn)⟩
  closure := ⟨fun ⟨_, hn, _⟩ => (by cases hn), fun ⟨hd, _⟩ => (by cases hd)⟩
  acyclic := fun ⟨_, hn, _⟩ => by cases hn
  parent_ne := fun ⟨_, hn, _⟩ => by cases hn
  record_self := fun hn => by cases hn
  record_ok := fun hn => by cases hn
  tables_eq := fun ht => by cases ht

/-- **Every reachable hierarchy is sound.** -/
theorem sound_of_reachable (hr : Reachable h) : Sound h :=
  hr.induct sound_empty (fun hs e => hs.declare e) (fun hs e => hs.addParent e) Sound.finalize

/-- **What holds in every reachable hierarchy.** Numbers and names identify the types; parents
    mirror children and ancestors mirror descendants; the ancestors of a type are what its parents
    lead to, itself included; no two types are ancestors of each other, and none is its own parent;
    every record of an ancestor
    is an instance of it, of full arity at every level, with no variables but `_` and the
    parameters of the heir; and a type's record of itself is the type applied to its parameters. -/
theorem reachable_invariant (hr : Reachable h) :
    (∀ i n, h.nodes[i]? = some n → n.id = i ∧ ∀ name, h.idOf? name = some i ↔ name = n.name) ∧
    (∀ c p, h.HasParent c p ↔ h.HasChild p c) ∧
    (∀ d a, h.HasAncestor d a ↔ h.HasDescendant a d) ∧
    (∀ d a, d < h.size → (h.HasAncestor d a ↔ ReflTransGen h.HasParent d a)) ∧
    (∀ d a, h.HasAncestor d a → h.HasAncestor a d → a = d) ∧ (∀ c, ¬ h.HasParent c c) ∧
    (∀ d a n r, h.nodes[d]? = some n → h.record? d a = some r →
      ∃ m, h.nodes[a]? = some m ∧ r.head = m.name ∧ r.args.length = m.arity ∧
        h.isNormalApp r = true ∧ ∀ v ∈ r.vars, v.isBounded = false ∧
          (v.isAnonymous = true ∨ v.name ∈ n.params.map Param.name)) ∧
    (∀ d n, h.nodes[d]? = some n → h.record? d d = some n.self) := by
  have hs := sound_of_reachable hr
  refine ⟨fun i n hn => ⟨hs.id_eq hn, fun name => ?_⟩, fun _ _ => hs.parent_child,
    fun _ _ => hs.ancestor_descendant, fun d a hd => ?_,
    fun _ _ hda had => (hs.acyclic hda had).symm, fun _ hcc => hs.parent_ne hcc rfl,
    fun d a n r hn hda => ?_, fun _ _ => hs.record_self⟩
  · rw [hs.idOf?_eq_some, hn]
    simp [eq_comm]
  · rw [hs.closure]
    exact and_iff_right hd
  · obtain ⟨m, hm, ok⟩ := hs.record_ok hn hda
    refine ⟨m, hm, ok.head_eq, ok.args_length hs (List.mem_of_getElem? hm), ok.normal, ?_⟩
    intro v hv
    obtain ⟨hb, hv⟩ := ok.admitted v hv
    exact ⟨hb, hv.imp_right Node.paramIndex?_isSome_iff.1⟩

/-- Calls that put a parent above a type with children, after a refused one. -/
def lateParent : List Call := [
  .declare "collection" [⟨"t", .covariant⟩],
  .declare "set" [⟨"t", .invariant⟩],
  .declare "sized" [],
  .addParent "set" (.app ⟨"collection", [.var (.free "t")]⟩),
  .addParent "collection" (.app ⟨"set", [.var (.free "t")]⟩),
  .addParent "collection" (.app ⟨"sized", []⟩),
  .finalize]

/-- In `lateParent` the set comes to be sized through its collection. -/
theorem lateParent_invariant :
    Reachable (lateParent.foldl perform empty) ∧
    (lateParent.foldl perform empty).HasAncestor 1 2 ∧
    ReflTransGen (lateParent.foldl perform empty).HasParent 1 2 ∧
    ¬ (lateParent.foldl perform empty).HasAncestor 2 1 := by
  have hr : Reachable (lateParent.foldl perform empty) := ⟨lateParent, rfl⟩
  have ha : (lateParent.foldl perform empty).HasAncestor 1 2 :=
    hasAncestor_iff.2 ⟨⟨"sized", []⟩, by decide⟩
  have inv := reachable_invariant hr
  refine ⟨hr, ha, (inv.2.2.2.1 1 2 (by decide)).1 ha, fun hb => ?_⟩
  exact absurd (inv.2.2.2.2.1 1 2 ha hb) (by decide)

end Lineage.Hierarchy
