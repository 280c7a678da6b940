import Lineage.Proofs.Substitution
import Lineage.Ty.Merge
import Mathlib.Data.List.Forall2

/-!
# The order of specificity

An instance covers another one if the other is the first with some `_` filled in. This is a
partial order (`Ty.covers_refl`, `Ty.Covers.trans`, `Ty.Covers.antisymm`), and `App.refine` is its
join:

* two records with a common bound have a join (`App.refine_isSome`);
* the join lies above both (`App.covers_refine`) and below every common bound, also after
  arguments have been put in (`App.Covers.refine`).

Substitution is monotone in the record and in the arguments (`Node.substitute_covers`), and it
commutes with joins on both sides (`Node.covers_substitute_refine`,
`Node.covers_substitute_refineAll`).
-/

namespace Lineage

/-! ## 1. Covering -/

mutual
/-- Whether the second instance is the first with some `_` filled in. -/
def Ty.Covers : Ty → Ty → Prop
  | .app a, .app b => a.Covers b
  | .app _, .var _ => False
  | .var v, b => (Ty.var v).isWildcard = true ∨ b = .var v
termination_by structural a => a
/-- `Ty.Covers` on applications. -/
def App.Covers : App Ty → App Ty → Prop
  | ⟨f, as⟩, ⟨g, bs⟩ => f = g ∧ Ty.CoversAll as bs
termination_by structural a => a
/-- `Ty.Covers` position by position, on lists of one length. -/
def Ty.CoversAll : List Ty → List Ty → Prop
  | [], [] => True
  | a :: as, b :: bs => a.Covers b ∧ Ty.CoversAll as bs
  | _, _ => False
termination_by structural as => as
end

theorem Ty.coversAll_iff (as bs : List Ty) :
    Ty.CoversAll as bs ↔ List.Forall₂ Ty.Covers as bs := by
  induction as generalizing bs with
  | nil => cases bs <;> simp [Ty.CoversAll]
  | cons a as ih => cases bs <;> simp [Ty.CoversAll, ih]

theorem App.covers_iff {a b : App Ty} :
    a.Covers b ↔ a.head = b.head ∧ List.Forall₂ Ty.Covers a.args b.args := by
  obtain ⟨f, as⟩ := a
  obtain ⟨g, bs⟩ := b
  rw [App.Covers, Ty.coversAll_iff]

@[simp] theorem Ty.app_covers_app {a b : App Ty} : (Ty.app a).Covers (.app b) ↔ a.Covers b := by
  rw [Ty.Covers]

theorem Ty.app_covers_iff {a : App Ty} {t : Ty} :
    (Ty.app a).Covers t ↔ ∃ b, t = .app b ∧ a.Covers b := by
  cases t with
  | app b => simp
  | var v => simp [Ty.Covers]

theorem Ty.var_covers_iff {v : Var Ty} {t : Ty} :
    (Ty.var v).Covers t ↔ (Ty.var v).isWildcard = true ∨ t = .var v := by
  rw [Ty.Covers]

theorem Ty.covers_of_isWildcard {a b : Ty} (h : a.isWildcard = true) : a.Covers b := by
  cases a with
  | app a => cases h
  | var v => exact Ty.var_covers_iff.2 (Or.inl h)

theorem Ty.anonymous_covers (t : Ty) : Ty.anonymous.Covers t := Ty.covers_of_isWildcard rfl

theorem Var.eq_free_of_isWildcard {v : Var Ty} (h : (Ty.var v).isWildcard = true) :
    v = .free "" := by
  obtain ⟨name, lower, upper⟩ := v
  simp only [Ty.isWildcard, Var.isAnonymous, Var.isBounded, Bool.and_eq_true, Bool.not_eq_true',
    Bool.or_eq_false_iff, Bool.not_eq_false', List.isEmpty_iff, String.isEmpty_iff] at h
  obtain ⟨rfl, rfl, rfl⟩ := h
  rfl

theorem Ty.covers_refl (t : Ty) : t.Covers t := by
  induction t using Ty.induct with
  | app head args ih => exact Ty.app_covers_app.2 (App.covers_iff.2 ⟨rfl, List.forall₂_same.2 ih⟩)
  | var name lower upper => exact Ty.var_covers_iff.2 (Or.inr rfl)

theorem App.covers_refl (a : App Ty) : a.Covers a := Ty.app_covers_app.1 (Ty.covers_refl _)

theorem Ty.Covers.trans {a b c : Ty} (hab : a.Covers b) (hbc : b.Covers c) : a.Covers c := by
  induction a using Ty.induct generalizing b c with
  | app head args ih =>
      obtain ⟨b, rfl, hb⟩ := Ty.app_covers_iff.1 hab
      obtain ⟨c, rfl, hc⟩ := Ty.app_covers_iff.1 hbc
      obtain ⟨hhead, hargs⟩ := App.covers_iff.1 hb
      obtain ⟨hhead', hargs'⟩ := App.covers_iff.1 hc
      refine Ty.app_covers_app.2 (App.covers_iff.2 ⟨hhead.trans hhead', ?_⟩)
      refine List.forall₂_iff_get.2 ⟨hargs.length_eq.trans hargs'.length_eq, fun i hi hk => ?_⟩
      have hj : i < b.args.length := hargs.length_eq ▸ hi
      exact ih _ (List.get_mem _ _) (hargs.get hi hj) (hargs'.get hj hk)
  | var name lower upper =>
      rcases Ty.var_covers_iff.1 hab with hw | rfl
      · exact Ty.covers_of_isWildcard hw
      · exact hbc

theorem App.Covers.trans {a b c : App Ty} (hab : a.Covers b) (hbc : b.Covers c) : a.Covers c :=
  Ty.app_covers_app.1 ((Ty.app_covers_app.2 hab).trans (Ty.app_covers_app.2 hbc))

theorem Ty.Covers.antisymm {a b : Ty} (hab : a.Covers b) (hba : b.Covers a) : a = b := by
  induction a using Ty.induct generalizing b with
  | app head args ih =>
      obtain ⟨⟨head', args'⟩, rfl, hb⟩ := Ty.app_covers_iff.1 hab
      obtain ⟨rfl, hargs⟩ := App.covers_iff.1 hb
      obtain ⟨-, hargs'⟩ := App.covers_iff.1 (Ty.app_covers_app.1 hba)
      congr 2
      refine List.ext_getElem hargs.length_eq fun i hi hj => ?_
      exact ih _ (List.getElem_mem hi) (hargs.get hi hj) (hargs'.get hj hi)
  | var name lower upper =>
      rcases Ty.var_covers_iff.1 hab with hw | rfl
      · cases b with
        | app b => exact absurd hba (by simp [Ty.Covers])
        | var w =>
            rcases Ty.var_covers_iff.1 hba with hw' | e
            · rw [Var.eq_free_of_isWildcard hw, Var.eq_free_of_isWildcard hw']
            · exact e
      · rfl

theorem App.Covers.antisymm {a b : App Ty} (hab : a.Covers b) (hba : b.Covers a) : a = b :=
  Ty.app.inj ((Ty.app_covers_app.2 hab).antisymm (Ty.app_covers_app.2 hba))

/-- An instance without `_` covers itself only. -/
theorem Ty.Covers.eq_of_noWildcard {a b : Ty} (hab : a.Covers b)
    (ha : ∀ v ∈ a.vars, (Ty.var v).isWildcard = false) : a = b := by
  induction a using Ty.induct generalizing b with
  | app head args ih =>
      obtain ⟨⟨head', args'⟩, rfl, hb⟩ := Ty.app_covers_iff.1 hab
      obtain ⟨rfl, hargs⟩ := App.covers_iff.1 hb
      congr 2
      refine List.ext_getElem hargs.length_eq fun i hi hj => ?_
      refine ih _ (List.getElem_mem hi) (hargs.get hi hj) fun v hv => ha v ?_
      rw [Ty.vars_app]
      exact App.mem_vars.2 ⟨_, List.getElem_mem hi, hv⟩
  | var name lower upper =>
      rcases Ty.var_covers_iff.1 hab with hw | rfl
      · rw [ha _ (by simp)] at hw
        cases hw
      · rfl

/-! ## 2. The join -/

mutual
/-- **The join of two records covers no less than either.** -/
theorem App.covers_refine : ∀ {a b c : App Ty}, a.refine b = some c → a.Covers c ∧ b.Covers c
  | ⟨f, as⟩, ⟨g, bs⟩, c, h => by
      rw [App.refine] at h
      split at h
      · rename_i hfg
        subst hfg
        obtain ⟨cs, hcs, rfl⟩ := Option.map_eq_some_iff.1 h
        obtain ⟨ha, hb⟩ := Ty.coversAll_refineAll hcs
        exact ⟨by rw [App.Covers]; exact ⟨rfl, ha⟩, by rw [App.Covers]; exact ⟨rfl, hb⟩⟩
      · cases h
termination_by structural a => a
theorem Ty.covers_refine : ∀ {a b c : Ty}, a.refine b = some c → a.Covers c ∧ b.Covers c
  | .app a, .app b, c, h => by
      rw [Ty.refine] at h
      obtain ⟨d, hd, rfl⟩ := Option.map_eq_some_iff.1 h
      simpa using App.covers_refine hd
  | .app a, .var w, c, h => by
      rw [Ty.refine] at h
      split at h
      · rename_i hw
        cases h
        exact ⟨Ty.covers_refl _, Ty.covers_of_isWildcard hw⟩
      · cases h
  | .var v, b, c, h => by
      rw [Ty.refine] at h
      split at h
      · rename_i hv
        cases h
        exact ⟨Ty.covers_of_isWildcard hv, Ty.covers_refl _⟩
      · split at h
        · rename_i hb
          cases h
          exact ⟨Ty.covers_refl _, Ty.covers_of_isWildcard hb⟩
        · split at h
          · rename_i e
            cases h
            subst e
            exact ⟨Ty.covers_refl _, Ty.covers_refl _⟩
          · cases h
termination_by structural a => a
theorem Ty.coversAll_refineAll : ∀ {as bs cs : List Ty}, Ty.refineAll as bs = some cs →
    Ty.CoversAll as cs ∧ Ty.CoversAll bs cs
  | [], [], cs, h => by
      rw [Ty.refineAll] at h
      cases h
      exact ⟨by rw [Ty.CoversAll]; trivial, by rw [Ty.CoversAll]; trivial⟩
  | [], _ :: _, _, h => by simp [Ty.refineAll] at h
  | _ :: _, [], _, h => by simp [Ty.refineAll] at h
  | a :: as, b :: bs, cs, h => by
      rw [Ty.refineAll] at h
      split at h
      · rename_i c cs' hc hcs
        cases h
        obtain ⟨h1, h2⟩ := Ty.covers_refine hc
        obtain ⟨h3, h4⟩ := Ty.coversAll_refineAll hcs
        exact ⟨by rw [Ty.CoversAll]; exact ⟨h1, h3⟩, by rw [Ty.CoversAll]; exact ⟨h2, h4⟩⟩
      · cases h
termination_by structural as => as
end

mutual
/-- **Two records with a common bound have a join.** -/
theorem App.refine_isSome : ∀ {a b d : App Ty}, a.Covers d → b.Covers d →
    (a.refine b).isSome = true
  | ⟨f, as⟩, ⟨g, bs⟩, ⟨k, ds⟩, ha, hb => by
      rw [App.Covers] at ha hb
      obtain ⟨rfl, ha⟩ := ha
      obtain ⟨rfl, hb⟩ := hb
      rw [App.refine, if_pos rfl, Option.isSome_map]
      exact Ty.refineAll_isSome ha hb
termination_by structural a => a
theorem Ty.refine_isSome : ∀ {a b d : Ty}, a.Covers d → b.Covers d → (a.refine b).isSome = true
  | .app a, .app b, d, ha, hb => by
      obtain ⟨d, rfl, ha⟩ := Ty.app_covers_iff.1 ha
      rw [Ty.refine, Option.isSome_map]
      exact App.refine_isSome ha (Ty.app_covers_app.1 hb)
  | .app a, .var w, d, ha, hb => by
      obtain ⟨d, rfl, ha⟩ := Ty.app_covers_iff.1 ha
      have hw : (Ty.var w).isWildcard = true := by simpa using Ty.var_covers_iff.1 hb
      rw [Ty.refine, if_pos hw]
      rfl
  | .var v, b, d, ha, hb => by
      rw [Ty.refine]
      rcases Ty.var_covers_iff.1 ha with hv | rfl
      · rw [if_pos hv]
        rfl
      · cases b with
        | app b => exact absurd hb (by simp [Ty.Covers])
        | var w =>
            rcases Ty.var_covers_iff.1 hb with hw | e
            · by_cases hv : (Ty.var v).isWildcard = true <;> simp [hv, hw]
            · rw [← e]
              simp
termination_by structural a => a
theorem Ty.refineAll_isSome : ∀ {as bs ds : List Ty}, Ty.CoversAll as ds → Ty.CoversAll bs ds →
    (Ty.refineAll as bs).isSome = true
  | [], [], _, _, _ => by simp [Ty.refineAll]
  | [], _ :: _, [], _, hb => by simp [Ty.CoversAll] at hb
  | [], _, _ :: _, ha, _ => by simp [Ty.CoversAll] at ha
  | _ :: _, _, [], ha, _ => by simp [Ty.CoversAll] at ha
  | _ :: _, [], _ :: _, _, hb => by simp [Ty.CoversAll] at hb
  | a :: as, b :: bs, d :: ds, ha, hb => by
      rw [Ty.CoversAll] at ha hb
      obtain ⟨c, hc⟩ := Option.isSome_iff_exists.1 (Ty.refine_isSome ha.1 hb.1)
      obtain ⟨cs, hcs⟩ := Option.isSome_iff_exists.1 (Ty.refineAll_isSome ha.2 hb.2)
      simp [Ty.refineAll, hc, hcs]
termination_by structural as => as
end

mutual
/-- A property of instances that is decided by the heads, the numbers of arguments and the
    variables passes to joins. -/
theorem App.holds_refine {P : Ty → Prop} {Q : String → Nat → Prop}
    (hP : ∀ f as, P (.app ⟨f, as⟩) ↔ Q f as.length ∧ ∀ t ∈ as, P t) :
    ∀ {a b c : App Ty}, a.refine b = some c → P (.app a) → P (.app b) → P (.app c)
  | ⟨f, as⟩, ⟨g, bs⟩, c, h, ha, hb => by
      rw [App.refine] at h
      split at h
      · rename_i e
        subst e
        obtain ⟨cs, hcs, rfl⟩ := Option.map_eq_some_iff.1 h
        rw [hP] at ha hb ⊢
        obtain ⟨hl, hc⟩ := Ty.holds_refineAll hP hcs ha.2 hb.2
        exact ⟨hl ▸ ha.1, hc⟩
      · cases h
termination_by structural a => a
theorem Ty.holds_refine {P : Ty → Prop} {Q : String → Nat → Prop}
    (hP : ∀ f as, P (.app ⟨f, as⟩) ↔ Q f as.length ∧ ∀ t ∈ as, P t) :
    ∀ {a b c : Ty}, a.refine b = some c → P a → P b → P c
  | .app a, .app b, c, h, ha, hb => by
      rw [Ty.refine] at h
      obtain ⟨d, hd, rfl⟩ := Option.map_eq_some_iff.1 h
      exact App.holds_refine hP hd ha hb
  | .app a, .var w, c, h, ha, _ => by
      rw [Ty.refine] at h
      split at h
      · cases h
        exact ha
      · cases h
  | .var v, b, c, h, ha, hb => by
      rw [Ty.refine] at h
      split at h
      · cases h
        exact hb
      · split at h
        · cases h
          exact ha
        · split at h
          · cases h
            exact ha
          · cases h
termination_by structural a => a
theorem Ty.holds_refineAll {P : Ty → Prop} {Q : String → Nat → Prop}
    (hP : ∀ f as, P (.app ⟨f, as⟩) ↔ Q f as.length ∧ ∀ t ∈ as, P t) :
    ∀ {as bs cs : List Ty}, Ty.refineAll as bs = some cs →
      (∀ t ∈ as, P t) → (∀ t ∈ bs, P t) → as.length = cs.length ∧ ∀ t ∈ cs, P t
  | [], [], cs, h, ha, _ => by
      rw [Ty.refineAll] at h
      cases h
      exact ⟨rfl, ha⟩
  | [], _ :: _, _, h, _, _ => by simp [Ty.refineAll] at h
  | _ :: _, [], _, h, _, _ => by simp [Ty.refineAll] at h
  | a :: as, b :: bs, cs, h, ha, hb => by
      rw [Ty.refineAll] at h
      split at h
      · rename_i c cs' hc hcs
        cases h
        rw [List.forall_mem_cons] at ha hb ⊢
        obtain ⟨hl, h'⟩ := Ty.holds_refineAll hP hcs ha.2 hb.2
        exact ⟨by simp [hl], Ty.holds_refine hP hc ha.1 hb.1, h'⟩
      · cases h
termination_by structural as => as
end

/-! ## 3. Joins and substitution -/

mutual
/-- **The join of two records lies below every common bound**, with arguments put in. -/
theorem App.Covers.refine (f : Var Ty → Ty) : ∀ {a b c z : App Ty}, a.refine b = some c →
    (a.mapVars f).Covers z → (b.mapVars f).Covers z → (c.mapVars f).Covers z
  | ⟨g, as⟩, ⟨g', bs⟩, c, ⟨k, zs⟩, h, ha, hb => by
      rw [App.refine] at h
      split at h
      · rename_i e
        subst e
        obtain ⟨cs, hcs, rfl⟩ := Option.map_eq_some_iff.1 h
        rw [App.mapVars, App.Covers] at ha hb ⊢
        exact ⟨ha.1, Ty.CoversAll.refineAll f hcs ha.2 hb.2⟩
      · cases h
termination_by structural a => a
theorem Ty.Covers.refine (f : Var Ty → Ty) : ∀ {a b c z : Ty}, a.refine b = some c →
    (a.mapVars f).Covers z → (b.mapVars f).Covers z → (c.mapVars f).Covers z
  | .app a, .app b, c, z, h, ha, hb => by
      rw [Ty.refine] at h
      obtain ⟨d, hd, rfl⟩ := Option.map_eq_some_iff.1 h
      rw [Ty.mapVars_app] at ha hb ⊢
      obtain ⟨z, rfl, ha⟩ := Ty.app_covers_iff.1 ha
      exact Ty.app_covers_app.2 (App.Covers.refine f hd ha (Ty.app_covers_app.1 hb))
  | .app a, .var w, c, z, h, ha, hb => by
      rw [Ty.refine] at h
      split at h
      · cases h
        exact ha
      · cases h
  | .var v, b, c, z, h, ha, hb => by
      rw [Ty.refine] at h
      split at h
      · cases h
        exact hb
      · split at h
        · cases h
          exact ha
        · split at h
          · cases h
            exact ha
          · cases h
termination_by structural a => a
theorem Ty.CoversAll.refineAll (f : Var Ty → Ty) : ∀ {as bs cs zs : List Ty},
    Ty.refineAll as bs = some cs → Ty.CoversAll (Ty.mapVarsAll f as) zs →
      Ty.CoversAll (Ty.mapVarsAll f bs) zs → Ty.CoversAll (Ty.mapVarsAll f cs) zs
  | [], [], cs, zs, h, ha, hb => by
      rw [Ty.refineAll] at h
      cases h
      exact ha
  | [], _ :: _, _, _, h, _, _ => by simp [Ty.refineAll] at h
  | _ :: _, [], _, _, h, _, _ => by simp [Ty.refineAll] at h
  | a :: as, b :: bs, cs, [], h, ha, _ => by simp [Ty.mapVarsAll, Ty.CoversAll] at ha
  | a :: as, b :: bs, cs, z :: zs, h, ha, hb => by
      rw [Ty.refineAll] at h
      split at h
      · rename_i c cs' hc hcs
        cases h
        rw [Ty.mapVarsAll, Ty.CoversAll] at ha hb ⊢
        exact ⟨Ty.Covers.refine f hc ha.1 hb.1, Ty.CoversAll.refineAll f hcs ha.2 hb.2⟩
      · cases h
termination_by structural as => as
end

theorem App.mapVars_var (a : App Ty) : a.mapVars Ty.var = a := by
  have := Ty.mapVars_eq_self (f := Ty.var) (.app a) fun _ _ => rfl
  simpa using this

/-- The join of two records is the least of their common bounds. -/
theorem App.refine_covers {a b c z : App Ty} (h : a.refine b = some c) (ha : a.Covers z)
    (hb : b.Covers z) : c.Covers z := by
  have := App.Covers.refine Ty.var (z := z) h (by rwa [App.mapVars_var]) (by rwa [App.mapVars_var])
  rwa [App.mapVars_var] at this

theorem Ty.refine_covers {a b c z : Ty} (h : a.refine b = some c) (ha : a.Covers z)
    (hb : b.Covers z) : c.Covers z := by
  have hid (t : Ty) : t.mapVars Ty.var = t := Ty.mapVars_eq_self t fun _ _ => rfl
  have := Ty.Covers.refine Ty.var (z := z) h (by rwa [hid]) (by rwa [hid])
  rwa [hid] at this

theorem App.refineAll_of_refine {a b c : App Ty} (h : a.refine b = some c) :
    Ty.refineAll a.args b.args = some c.args := by
  obtain ⟨f, as⟩ := a
  obtain ⟨g, bs⟩ := b
  rw [App.refine] at h
  split at h
  · obtain ⟨cs, hcs, rfl⟩ := Option.map_eq_some_iff.1 h
    exact hcs
  · cases h

/-- Joins of lists are taken position by position. -/
theorem Ty.getElem?_refineAll : ∀ {xs ys zs : List Ty} (i : Nat), Ty.refineAll xs ys = some zs →
    (xs[i]? = none ∧ zs[i]? = none) ∨ ∃ x y z, xs[i]? = some x ∧ ys[i]? = some y ∧
      zs[i]? = some z ∧ x.refine y = some z
  | [], [], zs, i, h => by
      rw [Ty.refineAll] at h
      cases h
      exact Or.inl ⟨rfl, rfl⟩
  | [], _ :: _, _, _, h => by simp [Ty.refineAll] at h
  | _ :: _, [], _, _, h => by simp [Ty.refineAll] at h
  | x :: xs, y :: ys, zs, i, h => by
      rw [Ty.refineAll] at h
      split at h
      · rename_i z zs' hz hzs
        cases h
        cases i with
        | zero => exact Or.inr ⟨x, y, z, rfl, rfl, rfl, hz⟩
        | succ i => simpa using Ty.getElem?_refineAll i hzs
      · cases h

/-- Filling in `_` before or after a substitution: the image covers the image of what is covered. -/
theorem Ty.Covers.mapVars {f g : Var Ty → Ty} (hw : f (.free "") = .anonymous) {a b : Ty}
    (hab : a.Covers b) (hfg : ∀ v ∈ b.vars, (f v).Covers (g v)) :
    (a.mapVars f).Covers (b.mapVars g) := by
  induction a using Ty.induct generalizing b with
  | app head args ih =>
      obtain ⟨b, rfl, hb⟩ := Ty.app_covers_iff.1 hab
      obtain ⟨hhead, hargs⟩ := App.covers_iff.1 hb
      rw [Ty.mapVars_app, Ty.mapVars_app, Ty.app_covers_app, App.covers_iff, App.head_mapVars,
        App.head_mapVars, App.args_mapVars, App.args_mapVars, List.forall₂_map_left_iff,
        List.forall₂_map_right_iff]
      refine ⟨hhead, List.forall₂_iff_get.2 ⟨hargs.length_eq, fun i hi hj => ?_⟩⟩
      refine ih _ (List.get_mem _ _) (hargs.get hi hj) fun v hv => hfg v ?_
      rw [Ty.vars_app]
      exact App.mem_vars.2 ⟨_, List.get_mem _ _, hv⟩
  | var name lower upper =>
      rcases Ty.var_covers_iff.1 hab with hv | rfl
      · rw [Ty.mapVars_var, Var.eq_free_of_isWildcard hv, hw]
        exact Ty.anonymous_covers _
      · rw [Ty.mapVars_var, Ty.mapVars_var]
        exact hfg _ (by simp)

/-- Images that lie below a bound join below it, if the images of the variables do. -/
theorem Ty.covers_mapVars_of_join {f g k : Var Ty → Ty} (t : Ty) {z : Ty}
    (hk : ∀ v z, (f v).Covers z → (g v).Covers z → (k v).Covers z)
    (hf : (t.mapVars f).Covers z) (hg : (t.mapVars g).Covers z) : (t.mapVars k).Covers z := by
  induction t using Ty.induct generalizing z with
  | app head args ih =>
      rw [Ty.mapVars_app] at hf hg ⊢
      obtain ⟨z, rfl, hf'⟩ := Ty.app_covers_iff.1 hf
      rw [Ty.app_covers_app] at hg ⊢
      rw [App.covers_iff, App.head_mapVars, App.args_mapVars, List.forall₂_map_left_iff]
        at hf' hg ⊢
      refine ⟨hf'.1, List.forall₂_iff_get.2 ⟨hf'.2.length_eq, fun i hi hj => ?_⟩⟩
      exact ih _ (List.get_mem _ _) (hf'.2.get hi hj) (hg.2.get hi hj)
  | var name lower upper =>
      rw [Ty.mapVars_var] at hf hg ⊢
      exact hk _ _ hf hg

namespace Node

variable {n : Node}

theorem argument_covers {xs ys : List Ty} (h : List.Forall₂ Ty.Covers xs ys) (v : Var Ty) :
    (n.argument xs v).Covers (n.argument ys v) := by
  cases hi : n.paramIndex? v.name with
  | none => rw [argument_of_none hi, argument_of_none hi]; exact Ty.covers_refl _
  | some i =>
      by_cases hx : i < xs.length
      · have hy : i < ys.length := h.length_eq ▸ hx
        rw [argument_of_index hi (List.getElem?_eq_getElem hx),
          argument_of_index hi (List.getElem?_eq_getElem hy)]
        exact h.get hx hy
      · have : n.argument xs v = .anonymous := by
          simp [argument, hi, List.getElem?_eq_none_iff.2 (Nat.le_of_not_lt hx)]
        rw [this]
        exact Ty.anonymous_covers _

/-- **Substitution is monotone.** -/
theorem substitute_covers (hn : n.paramIndex? "" = none) {r r' : App Ty} {xs ys : List Ty}
    (hr : r.Covers r') (hxs : List.Forall₂ Ty.Covers xs ys) :
    (n.substitute r xs).Covers (n.substitute r' ys) := by
  have h := (Ty.app_covers_app.2 hr).mapVars (argument_anonymous hn xs)
    (fun v _ => argument_covers (n := n) hxs v)
  simpa [substitute] using h

/-- What bounds the images of two records bounds the image of their join. -/
theorem covers_substitute_refine {r r' c z : App Ty} {xs : List Ty} (h : r.refine r' = some c)
    (hr : (n.substitute r xs).Covers z) (hr' : (n.substitute r' xs).Covers z) :
    (n.substitute c xs).Covers z :=
  App.Covers.refine _ h hr hr'

theorem covers_argument_refineAll {xs ys zs : List Ty} (h : Ty.refineAll xs ys = some zs)
    (v : Var Ty) (z : Ty) (hx : (n.argument xs v).Covers z) (hy : (n.argument ys v).Covers z) :
    (n.argument zs v).Covers z := by
  cases hi : n.paramIndex? v.name with
  | none => rwa [argument_of_none hi] at hx ⊢
  | some i =>
      rcases Ty.getElem?_refineAll i h with ⟨hx', hz'⟩ | ⟨x, y, c, hx', hy', hz', hc⟩
      · simp only [argument, hi, hx', hz', Option.bind_some, Option.getD_none] at hx ⊢
        exact hx
      · rw [argument_of_index hi hx'] at hx
        rw [argument_of_index hi hy'] at hy
        rw [argument_of_index hi hz']
        have := Ty.Covers.refine Ty.var (z := z) hc
        rw [Ty.mapVars_eq_self x fun _ _ => rfl, Ty.mapVars_eq_self y fun _ _ => rfl,
          Ty.mapVars_eq_self c fun _ _ => rfl] at this
        exact this hx hy

/-- What bounds the images under two lists of arguments bounds the image under their join. -/
theorem covers_substitute_refineAll {r z : App Ty} {xs ys zs : List Ty}
    (h : Ty.refineAll xs ys = some zs) (hx : (n.substitute r xs).Covers z)
    (hy : (n.substitute r ys).Covers z) : (n.substitute r zs).Covers z := by
  have key := Ty.covers_mapVars_of_join (.app r) (z := .app z)
    (covers_argument_refineAll (n := n) h) (by simpa [substitute] using hx)
    (by simpa [substitute] using hy)
  simpa [substitute] using key

end Node

end Lineage
