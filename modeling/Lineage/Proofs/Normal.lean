import Lineage.Hierarchy.Normal
import Lineage.Proofs.Covering
import Lineage.Proofs.Monadic

/-!
# Normal instances as a property

`Hierarchy.isNormal` tests what `Hierarchy.normalize` establishes: every name is declared and
stands with the declared number of arguments.

* What comes out of `normalize` is normal (`isNormal_normalize`), and a normal instance comes out
  unchanged (`normalize_of_isNormal`).
* Normal instances are closed under substitution and joins (`isNormal_mapVars`,
  `isNormalApp_refine`).
* Only the names and their arities matter (`isNormal_mono`).
-/

namespace Lineage.Hierarchy

variable {h h' : Hierarchy}

/-! ## 1. The test -/

mutual
/-- Whether every name in an instance is declared and has the declared number of arguments. -/
def isNormal (h : Hierarchy) : Ty → Bool
  | .app a => h.isNormalApp a
  | .var ⟨_, lower, upper⟩ => h.areNormalApps lower && h.areNormalApps upper
/-- `isNormal` on applications. -/
def isNormalApp (h : Hierarchy) : App Ty → Bool
  | ⟨head, args⟩ => (h.find? head).any (·.arity == args.length) && h.areNormal args
/-- `isNormal` on every instance of a list. -/
def areNormal (h : Hierarchy) : List Ty → Bool
  | [] => true
  | t :: ts => h.isNormal t && h.areNormal ts
/-- `isNormalApp` on every application of a list. -/
def areNormalApps (h : Hierarchy) : List (App Ty) → Bool
  | [] => true
  | a :: as => h.isNormalApp a && h.areNormalApps as
end

@[simp] theorem isNormal_app {a : App Ty} : h.isNormal (.app a) = h.isNormalApp a := by
  rw [isNormal]

@[simp] theorem isNormal_free {name : String} : h.isNormal (.var (.free name)) = true := by
  simp [Var.free, isNormal, areNormalApps]

theorem areNormal_iff : ∀ {ts : List Ty}, h.areNormal ts = true ↔ ∀ t ∈ ts, h.isNormal t = true
  | [] => by simp [areNormal]
  | t :: ts => by rw [areNormal, Bool.and_eq_true, List.forall_mem_cons, areNormal_iff]

theorem areNormalApps_iff : ∀ {as : List (App Ty)},
    h.areNormalApps as = true ↔ ∀ a ∈ as, h.isNormalApp a = true
  | [] => by simp [areNormalApps]
  | a :: as => by rw [areNormalApps, Bool.and_eq_true, List.forall_mem_cons, areNormalApps_iff]

/-- A variable is normal if its bounds are. -/
theorem isNormal_var_iff {v : Var Ty} : h.isNormal (.var v) = true ↔
    (∀ a ∈ v.lower, h.isNormalApp a = true) ∧ ∀ a ∈ v.upper, h.isNormalApp a = true := by
  obtain ⟨name, lower, upper⟩ := v
  rw [isNormal, Bool.and_eq_true, areNormalApps_iff, areNormalApps_iff]

theorem isNormalApp_iff {a : App Ty} : h.isNormalApp a = true ↔
    (∃ n, h.find? a.head = some n ∧ a.args.length = n.arity) ∧
      ∀ t ∈ a.args, h.isNormal t = true := by
  obtain ⟨head, args⟩ := a
  rw [isNormalApp, Bool.and_eq_true, areNormal_iff, Option.any_eq_true]
  refine and_congr (exists_congr fun n => and_congr Iff.rfl ?_) Iff.rfl
  rw [beq_iff_eq]
  exact eq_comm

/-- Whether an instance is normal and mentions no variable. -/
def isGround (h : Hierarchy) (t : Ty) : Bool := h.isNormal t && t.vars.isEmpty

/-! ## 2. Normalizing -/

/-- A relation that holds between an instance and its normal form as soon as it holds between the
    parts: at an abbreviation, at an application with all its arguments and at a variable. -/
structure Spelling (h : Hierarchy) (R : Ty → Ty → Prop) : Prop where
  short : ∀ {head : String} {n : Node}, h.find? head = some n →
    R (.app ⟨head, []⟩) (.app ⟨head, List.replicate n.arity .anonymous⟩)
  full : ∀ {head : String} {n : Node} {args args' : List Ty}, h.find? head = some n →
    args.length = n.arity → List.Forall₂ R args args' → R (.app ⟨head, args⟩) (.app ⟨head, args'⟩)
  var : ∀ {name : String} {lower lower' upper upper' : List (App Ty)},
    List.Forall₂ (fun a a' => R (.app a) (.app a')) lower lower' →
      List.Forall₂ (fun a a' => R (.app a) (.app a')) upper upper' →
        R (.var ⟨name, lower, upper⟩) (.var ⟨name, lower', upper'⟩)

namespace Spelling

variable {R : Ty → Ty → Prop}

mutual
/-- **Normalizing follows every such relation.** -/
theorem normalize (S : Spelling h R) : ∀ {t t' : Ty}, h.normalize t = .ok t' → R t t'
  | .app a, t', e => by
      rw [Hierarchy.normalize] at e
      obtain ⟨a', ha, e⟩ := bind_eq_ok.1 e
      obtain rfl := pure_eq_ok.1 e
      exact S.normalizeApp ha
  | .var ⟨name, lower, upper⟩, t', e => by
      rw [Hierarchy.normalize] at e
      obtain ⟨lower', hl, e⟩ := bind_eq_ok.1 e
      obtain ⟨upper', hu, e⟩ := bind_eq_ok.1 e
      obtain rfl := pure_eq_ok.1 e
      exact S.var (S.normalizeApps hl) (S.normalizeApps hu)
theorem normalizeApp (S : Spelling h R) : ∀ {a a' : App Ty}, h.normalizeApp a = .ok a' →
    R (.app a) (.app a')
  | ⟨head, args⟩, a', e => by
      rw [Hierarchy.normalizeApp] at e
      split at e
      · cases e
      · rename_i n hn
        split at e
        · rename_i hnil
          cases e
          rw [List.isEmpty_iff.1 hnil]
          exact S.short hn
        · split at e
          · rename_i hlen
            obtain ⟨args', hargs, e⟩ := bind_eq_ok.1 e
            obtain rfl := pure_eq_ok.1 e
            exact S.full hn hlen (S.normalizeAll hargs)
          · cases e
theorem normalizeAll (S : Spelling h R) : ∀ {ts ts' : List Ty}, h.normalizeAll ts = .ok ts' →
    List.Forall₂ R ts ts'
  | [], ts', e => by
      rw [Hierarchy.normalizeAll] at e
      cases e
      exact .nil
  | t :: ts, ts', e => by
      rw [Hierarchy.normalizeAll] at e
      obtain ⟨t', ht, e⟩ := bind_eq_ok.1 e
      obtain ⟨ts'', hts, e⟩ := bind_eq_ok.1 e
      obtain rfl := pure_eq_ok.1 e
      exact .cons (S.normalize ht) (S.normalizeAll hts)
theorem normalizeApps (S : Spelling h R) : ∀ {as as' : List (App Ty)},
    h.normalizeApps as = .ok as' → List.Forall₂ (fun a a' => R (.app a) (.app a')) as as'
  | [], as', e => by
      rw [Hierarchy.normalizeApps] at e
      cases e
      exact .nil
  | a :: as, as', e => by
      rw [Hierarchy.normalizeApps] at e
      obtain ⟨a', ha, e⟩ := bind_eq_ok.1 e
      obtain ⟨as'', has, e⟩ := bind_eq_ok.1 e
      obtain rfl := pure_eq_ok.1 e
      exact .cons (S.normalizeApp ha) (S.normalizeApps has)
end

end Spelling

/-- What is kept at every place of a list is kept by all members. -/
theorem forall_mem_of_forall₂ {α : Type} {P : α → Prop} {xs ys : List α}
    (hall : List.Forall₂ (fun x y => P x → P y) xs ys) (hx : ∀ x ∈ xs, P x) : ∀ y ∈ ys, P y := by
  intro y hy
  obtain ⟨x, hmem, hxy⟩ := forall₂_exists_left hall hy
  exact hxy (hx x hmem)

theorem spelling_isNormal : Spelling h fun _ t => h.isNormal t = true where
  short := fun {head n} hn => by
    rw [isNormal, isNormalApp_iff]
    refine ⟨⟨n, hn, List.length_replicate⟩, fun t ht => ?_⟩
    rw [List.eq_of_mem_replicate ht]
    exact isNormal_free
  full := fun {head n args args'} hn hlen hargs => by
    rw [isNormal, isNormalApp_iff]
    refine ⟨⟨n, hn, hargs.length_eq.symm.trans hlen⟩, fun t ht => ?_⟩
    obtain ⟨_, -, ht⟩ := forall₂_exists_left hargs ht
    exact ht
  var := fun {name lower lower' upper upper'} hl hu => by
    have hall {as as' : List (App Ty)}
        (has : List.Forall₂ (fun _ a => h.isNormal (.app a) = true) as as') :
        h.areNormalApps as' = true := by
      refine areNormalApps_iff.2 fun a ha => ?_
      obtain ⟨_, -, ha⟩ := forall₂_exists_left has ha
      rwa [isNormal] at ha
    rw [isNormal, hall hl, hall hu]
    rfl

/-- **Normalizing makes normal.** -/
theorem isNormal_normalize {t t' : Ty} (e : h.normalize t = .ok t') : h.isNormal t' = true :=
  spelling_isNormal.normalize e

theorem isNormalApp_normalizeApp {a a' : App Ty} (e : h.normalizeApp a = .ok a') :
    h.isNormalApp a' = true := by
  have hnormal := spelling_isNormal.normalizeApp e
  rwa [isNormal] at hnormal

/-- Writing abbreviations out keeps the type. -/
theorem head_normalizeApp {a a' : App Ty} (e : h.normalizeApp a = .ok a') : a'.head = a.head := by
  obtain ⟨head, args⟩ := a
  rw [normalizeApp] at e
  split at e
  · cases e
  · split at e
    · cases e
      rfl
    · split at e
      · obtain ⟨args', -, e⟩ := bind_eq_ok.1 e
        obtain rfl := pure_eq_ok.1 e
        rfl
      · cases e

mutual
/-- **A normal instance is its own normal form.** -/
theorem normalize_of_isNormal : ∀ {t : Ty}, h.isNormal t = true → h.normalize t = .ok t
  | .app a, e => by
      rw [isNormal] at e
      rw [normalize, normalizeApp_of_isNormalApp e]
      rfl
  | .var ⟨name, lower, upper⟩, e => by
      rw [isNormal, Bool.and_eq_true] at e
      rw [normalize, normalizeApps_of_areNormalApps e.1, normalizeApps_of_areNormalApps e.2]
      rfl
theorem normalizeApp_of_isNormalApp : ∀ {a : App Ty}, h.isNormalApp a = true →
    h.normalizeApp a = .ok a
  | ⟨head, args⟩, e => by
      obtain ⟨⟨n, hn, hl⟩, hall⟩ := isNormalApp_iff.1 e
      rw [normalizeApp, hn]
      dsimp only
      split
      · rename_i he
        have : args = [] := List.isEmpty_iff.1 he
        subst this
        rw [← hl]
        rfl
      · rw [normalizeAll_of_areNormal hall]
        rfl
theorem normalizeAll_of_areNormal : ∀ {ts : List Ty}, (∀ t ∈ ts, h.isNormal t = true) →
    h.normalizeAll ts = .ok ts
  | [], _ => by rw [normalizeAll]
  | t :: ts, e => by
      rw [List.forall_mem_cons] at e
      rw [normalizeAll, normalize_of_isNormal e.1, normalizeAll_of_areNormal e.2]
      rfl
theorem normalizeApps_of_areNormalApps : ∀ {as : List (App Ty)}, h.areNormalApps as = true →
    h.normalizeApps as = .ok as
  | [], _ => by rw [normalizeApps]
  | a :: as, e => by
      rw [areNormalApps, Bool.and_eq_true] at e
      rw [normalizeApps, normalizeApp_of_isNormalApp e.1, normalizeApps_of_areNormalApps e.2]
      rfl
end

/-! ## 3. Closure -/

theorem isNormal_app_iff (f : String) (as : List Ty) : h.isNormal (.app ⟨f, as⟩) = true ↔
    (∃ n, h.find? f = some n ∧ as.length = n.arity) ∧ ∀ t ∈ as, h.isNormal t = true := by
  rw [isNormal_app, isNormalApp_iff]

/-- Normal images make a normal instance normal. -/
theorem isNormal_mapVars {f : Var Ty → Ty} {t : Ty} (ht : h.isNormal t = true)
    (hf : ∀ v ∈ t.vars, h.isNormal (f v) = true) : h.isNormal (t.mapVars f) = true := by
  induction t using Ty.induct with
  | app head args ih =>
      rw [isNormal_app_iff] at ht
      obtain ⟨⟨n, hn, hl⟩, hall⟩ := ht
      rw [Ty.mapVars_app, App.mapVars_eq, isNormal_app_iff]
      refine ⟨⟨n, hn, by rw [List.length_map, hl]⟩, fun u hu => ?_⟩
      obtain ⟨t, ht, rfl⟩ := List.mem_map.1 hu
      refine ih t ht (hall t ht) fun v hv => hf v ?_
      rw [Ty.vars_app]
      exact App.mem_vars.2 ⟨t, ht, hv⟩
  | var name lower upper =>
      rw [Ty.mapVars_var]
      exact hf _ (by simp)

/-- A normal record with normal arguments put in is normal. -/
theorem isNormalApp_substitute {n : Node} {r : App Ty} {args : List Ty}
    (hr : h.isNormalApp r = true) (ha : ∀ t ∈ args, h.isNormal t = true) :
    h.isNormalApp (n.substitute r args) = true := by
  have key := isNormal_mapVars (h := h) (f := n.argument args) (t := .app r) (by simpa using hr)
    fun v _ => by
      rcases n.argument_eq_or_mem args v with e | hm
      · rw [e]
        exact isNormal_free
      · exact ha _ hm
  simpa [Node.substitute] using key

/-- The join of normal records is normal. -/
theorem isNormalApp_refine {a b c : App Ty} (e : a.refine b = some c)
    (ha : h.isNormalApp a = true) (hb : h.isNormalApp b = true) : h.isNormalApp c = true := by
  have key := App.holds_refine (P := fun t => h.isNormal t = true)
    (Q := fun f k => ∃ n, h.find? f = some n ∧ k = n.arity) isNormal_app_iff e
  simpa using key (by simpa using ha) (by simpa using hb)

/-- Every name of the first hierarchy is known to the second one, with the same arity. -/
def Knows (h h' : Hierarchy) : Prop :=
  ∀ name n, h.find? name = some n → ∃ n', h'.find? name = some n' ∧ n'.arity = n.arity

mutual
/-- **Only the names and their arities matter.** -/
theorem isNormal_mono (hk : Knows h h') : ∀ {t : Ty}, h.isNormal t = true → h'.isNormal t = true
  | .app a, e => by
      rw [isNormal] at e ⊢
      exact isNormalApp_mono hk e
  | .var ⟨name, lower, upper⟩, e => by
      rw [isNormal, Bool.and_eq_true] at e ⊢
      exact ⟨areNormalApps_mono hk e.1, areNormalApps_mono hk e.2⟩
theorem isNormalApp_mono (hk : Knows h h') : ∀ {a : App Ty}, h.isNormalApp a = true →
    h'.isNormalApp a = true
  | ⟨head, args⟩, e => by
      rw [isNormalApp, Bool.and_eq_true, Option.any_eq_true] at e
      obtain ⟨⟨n, hn, hl⟩, hall⟩ := e
      obtain ⟨n', hn', ha⟩ := hk head n hn
      rw [isNormalApp, Bool.and_eq_true, Option.any_eq_true]
      exact ⟨⟨n', hn', by rw [ha]; exact hl⟩, areNormal_mono hk hall⟩
theorem areNormal_mono (hk : Knows h h') : ∀ {ts : List Ty}, h.areNormal ts = true →
    h'.areNormal ts = true
  | [], _ => rfl
  | t :: ts, e => by
      rw [areNormal, Bool.and_eq_true] at e ⊢
      exact ⟨isNormal_mono hk e.1, areNormal_mono hk e.2⟩
theorem areNormalApps_mono (hk : Knows h h') : ∀ {as : List (App Ty)}, h.areNormalApps as = true →
    h'.areNormalApps as = true
  | [], _ => rfl
  | a :: as, e => by
      rw [areNormalApps, Bool.and_eq_true] at e ⊢
      exact ⟨isNormalApp_mono hk e.1, areNormalApps_mono hk e.2⟩
end

end Lineage.Hierarchy
