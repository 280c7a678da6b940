import Lineage.Proofs.Composition
import Lineage.Proofs.Subtyping

/-!
# Flat hierarchies

A parent is flat if its arguments are parameters of the child or `_`. Where all parents are, all
records are: records are put together from parents, and joined where several come in
(`FlatParents.record`). So raising an instance gives it no new arguments but `_`
(`FlatRecords.raise_args`).
-/

namespace Lineage

/-! ## 1. Flat instances -/

/-- All arguments are variables. -/
def App.Flat (a : App Ty) : Prop := ∀ t ∈ a.args, t.app? = none

instance (a : App Ty) : Decidable a.Flat := inferInstanceAs (Decidable (∀ _ ∈ _, _))

namespace App.Flat

variable {a b c : App Ty}

/-- What is less specific has variables at no fewer places. -/
theorem of_covers (hb : b.Flat) (hab : a.Covers b) : a.Flat := by
  intro t ht
  obtain ⟨i, hi, rfl⟩ := List.getElem_of_mem ht
  have hargs := (App.covers_iff.1 hab).2
  have hj : i < b.args.length := by
    rw [← hargs.length_eq]
    exact hi
  have hcov : a.args[i].Covers b.args[i] := hargs.get hi hj
  have hflat := hb b.args[i] (List.getElem_mem hj)
  cases ht : a.args[i] with
  | var v => rfl
  | app x =>
      rw [ht] at hcov
      obtain ⟨y, e, -⟩ := Ty.app_covers_iff.1 hcov
      rw [e] at hflat
      cases hflat

theorem refine (ha : a.Flat) (hb : b.Flat) (e : a.refine b = some c) : c.Flat := by
  have hP (f : String) (as : List Ty) : (Ty.app ⟨f, as⟩).app? = none ↔
      False ∧ ∀ t ∈ as, t.app? = none := by simp [Ty.app?]
  exact (Ty.holds_refineAll (Q := fun _ _ => False) hP (App.refineAll_of_refine e) ha hb).2

theorem substitute {n : Node} (ha : a.Flat) (hb : b.Flat) : (n.substitute a b.args).Flat := by
  intro t ht
  rw [Node.args_substitute] at ht
  obtain ⟨p, hp, rfl⟩ := List.mem_map.1 ht
  cases p with
  | app x => cases ha _ hp
  | var v =>
      rw [Ty.mapVars_var]
      rcases n.argument_eq_or_mem b.args v with e | hm
      · rw [e]
        rfl
      · exact hb _ hm

end App.Flat

theorem Node.flat_generic (name : String) (params : List Param) :
    (Node.generic name params).Flat := by
  intro t ht
  obtain ⟨p, -, rfl⟩ := List.mem_map.1 ht
  rfl

namespace Hierarchy

variable {h h' : Hierarchy}

/-! ## 2. Flat parents make flat records -/

/-- Every parent is flat. -/
def FlatParents (h : Hierarchy) : Prop := ∀ n ∈ h.nodes, ∀ e ∈ n.parents.entries, e.2.Flat

instance (h : Hierarchy) : Decidable h.FlatParents := inferInstanceAs (Decidable (∀ _ ∈ _, _))

/-- Every record is flat. -/
def FlatRecords (h : Hierarchy) : Prop :=
  ∀ (d a : Nat) (r : App Ty), h.record? d a = some r → r.Flat

theorem Sound.flatParents_iff (hs : Sound h) : h.FlatParents ↔
    ∀ {c p : Nat} {n : Node} {l : App Ty}, h.nodes[c]? = some n → n.parents.get? p = some l →
      l.Flat := by
  constructor
  · intro hf c p n l hn hl
    have hmem := List.mem_of_getElem? hn
    exact hf n hmem _ ((Roster.mem_entries_iff (hs.parents_nodup hmem)).2 hl)
  · intro hf n hn e he
    exact hf (hs.node_of_mem hn) ((Roster.mem_entries_iff (hs.parents_nodup hn)).1 he)

section Extend

variable {child parent : Node} {record incoming : App Ty} (hs : Sound h) (hs' : Sound h')
  (hc : h.nodes[child.id]? = some child) (ex : Extension h h' child parent record)
  (hf : h'.FlatParents)
include hs' hc ex hf

theorem FlatParents.flat_link : record.Flat := by
  obtain ⟨n', hn', -⟩ := ex.same.node hc
  obtain ⟨n, -, hpar, -⟩ := ex.node hn'
  refine hs'.flatParents_iff.1 hf hn' (p := parent.id) ?_
  rw [hpar, if_pos rfl, Roster.get?_insert, if_pos rfl]

include hs

/-- The parents were flat before: a parent that is replaced was less specific. -/
theorem FlatParents.of_extension (fit : Fitting h)
    (hj : Joined (h.record? child.id parent.id) incoming record) : h.FlatParents := by
  refine hs.flatParents_iff.2 fun {c p n l} hn hl => ?_
  obtain ⟨n', hn', -⟩ := ex.same.node hn
  obtain ⟨n₀, hn₀, hpar, -⟩ := ex.node hn'
  rw [hn] at hn₀
  cases hn₀
  by_cases hnew : child.id = c ∧ parent.id = p
  · obtain ⟨rfl, rfl⟩ := hnew
    obtain ⟨z, hz, hlz⟩ := fit.parent hn hl
    rw [hz] at hj
    exact (hf.flat_link hs' hc ex).of_covers (hlz.trans hj.old_covers)
  · refine hs'.flatParents_iff.1 hf hn' (p := p) ?_
    rw [hpar]
    split
    · rename_i hci
      rw [Roster.get?_insert, if_neg fun hp => hnew ⟨hci, hp⟩]
      exact hl
    · exact hl

omit hs in
/-- **A flat parent brings flat records.** -/
theorem FlatRecords.extend (hr : h.FlatRecords) : h'.FlatRecords := by
  intro d a r he
  rcases ex.record_cases he with hold | ⟨x, y, hx, hy, hj⟩
  · exact hr d a r hold
  · have hin : (carried child parent record x y).Flat :=
      ((hr _ a y hy).substitute (hf.flat_link hs' hc ex)).substitute (hr d _ x hx)
    cases hrec : h.record? d a with
    | none =>
        rw [hrec] at hj
        obtain rfl : r = _ := hj
        exact hin
    | some old =>
        rw [hrec] at hj
        exact (hr d a old hrec).refine hin hj

end Extend

/-- **Where all parents are flat, all records are.** -/
theorem FlatParents.record (hf : h.FlatParents) (hr : Reachable h) : h.FlatRecords := by
  suffices Reachable h ∧ (h.FlatParents → h.FlatRecords) from this.2 hf
  refine hr.induct (P := fun h => Reachable h ∧ (h.FlatParents → h.FlatRecords)) ?_ ?_ ?_ ?_
  · refine ⟨⟨[], rfl⟩, fun _ d a r e => ?_⟩
    cases e
  · intro h h' name params hh e
    obtain ⟨hr, hrec⟩ := hh
    refine ⟨hr.declare e, fun hf d a r he => ?_⟩
    obtain ⟨-, -, -, rfl⟩ := declare_eq_ok e
    rcases record?_extended.1 he with hold | ⟨-, -, rfl⟩
    · exact hrec (fun n hn => hf n (List.mem_append_left _ hn)) d a r hold
    · exact Node.flat_generic name params
  · intro h h' child parent hh e
    obtain ⟨hr, hrec⟩ := hh
    refine ⟨hr.addParent e, fun hf => ?_⟩
    have hs := sound_of_reachable hr
    have hs' := hs.addParent e
    obtain ⟨n, p, r, r', hres, -, hj, ⟨-, rfl⟩ | ex⟩ := addParent_cases hs e
    · exact hrec hf
    · have hc := hs.node_of_find hres.child_eq
      have hold := hf.of_extension hs hs' hc ex (fitting_of_reachable hr) hj
      exact FlatRecords.extend hs' hc ex hf (hrec hold)
  · intro h hh
    obtain ⟨hr, hrec⟩ := hh
    refine ⟨hr.finalize, ?_⟩
    unfold FlatParents FlatRecords record?
    rw [nodes_finalize]
    exact hrec

/-- **Raising gives no new arguments** but `_`. -/
theorem FlatRecords.raise_args (hf : h.FlatRecords) (hs : Sound h) {a b : App Ty} {target : Nat}
    (e : h.raise a target = some b) : ∀ t ∈ b.args, t = .anonymous ∨ t ∈ a.args := by
  obtain ⟨n, r, hn, hr, rfl⟩ := raise_eq_some.1 e
  intro t ht
  rw [Node.args_substitute] at ht
  obtain ⟨p, hp, rfl⟩ := List.mem_map.1 ht
  cases p with
  | app x => cases hf _ _ r (hs.record_get (find?_mem hn) hr) _ hp
  | var v =>
      rw [Ty.mapVars_var]
      exact n.argument_eq_or_mem a.args v

end Hierarchy

end Lineage
