import Lineage.Expr.Parser
import Lineage.Proofs.Lexing
import Lineage.Ty.Text

/-!
# Printable instances

Some instances can not be written down so that they are read back: names may be misspelled, a
bounded variable in front of another argument takes that argument for a bound, and brackets nest
only so deep. The others are printable (`Ty.isPrintable`).

The depth of brackets is a matter of the written form. It is read off the instance
(`nesting_text`).
-/

namespace Lineage

open Lineage.Expr

/-! ## 1. What can be written -/

/-- Whether the instance is an application or a variable without bounds. -/
def Ty.isAtomic : Ty → Bool
  | .app _ => true
  | .var v => !v.isBounded

/-- Whether the instance is a variable with bounds on both sides. -/
def Ty.isEnclosed : Ty → Bool
  | .app _ => false
  | .var v => !v.lower.isEmpty && !v.upper.isEmpty

/-- Whether arguments can stand in one pair of brackets: bounds only at the last one, and bounds on
    both sides only at the sole one. -/
def Ty.fitTogether (args : List Ty) : Bool :=
  args.dropLast.all Ty.isAtomic && (args.length == 1 || args.all (!·.isEnclosed))

mutual
/-- Whether all names and all lists of arguments of an instance can be written. -/
def Ty.isExpressible : Ty → Bool
  | .app a => a.isExpressible
  | .var ⟨name, lower, upper⟩ =>
      isVarName name.toList && App.areExpressible lower && App.areExpressible upper
/-- `Ty.isExpressible` on applications. -/
def App.isExpressible : App Ty → Bool
  | ⟨head, args⟩ => isTypeName head.toList && Ty.fitTogether args && Ty.areExpressible args
/-- `Ty.isExpressible` on every instance of a list. -/
def Ty.areExpressible : List Ty → Bool
  | [] => true
  | t :: ts => t.isExpressible && Ty.areExpressible ts
/-- `App.isExpressible` on every application of a list. -/
def App.areExpressible : List (App Ty) → Bool
  | [] => true
  | a :: as => a.isExpressible && App.areExpressible as
end

/-- The deepest level of brackets that a text reaches from a level on. -/
def nesting : Nat → List Char → Nat
  | level, [] => level
  | level, '[' :: cs => nesting (level + 1) cs
  | level, ']' :: cs => max level (nesting (level - 1) cs)
  | level, _ :: cs => nesting level cs

/-- Whether an instance can be written down so that it is read back. -/
def Ty.isPrintable (t : Ty) : Bool :=
  t.isExpressible && decide (nesting 0 t.text.toList ≤ maxDepth)

theorem Ty.isEnclosed_of_isAtomic {t : Ty} (ht : t.isAtomic = true) : t.isEnclosed = false := by
  cases t with
  | app a => rfl
  | var v =>
      rw [Ty.isAtomic, Var.isBounded, Bool.not_eq_true', Bool.or_eq_false_iff] at ht
      rw [Ty.isEnclosed, ht.1, Bool.false_and]

theorem Ty.fitTogether_concat {front : List Ty} {last : Ty} :
    Ty.fitTogether (front ++ [last]) = true ↔
      (∀ t ∈ front, t.isAtomic = true) ∧ (front = [] ∨ last.isEnclosed = false) := by
  unfold Ty.fitTogether
  rw [List.dropLast_concat, Bool.and_eq_true, List.all_eq_true]
  refine and_congr_right fun hfront => ?_
  have hfront' : front.all (!·.isEnclosed) = true :=
    List.all_eq_true.2 fun t ht => by rw [Ty.isEnclosed_of_isAtomic (hfront t ht)]; rfl
  rw [Bool.or_eq_true, List.all_append, hfront']
  simp

theorem Ty.fitTogether_singleton (t : Ty) : Ty.fitTogether [t] = true := by
  simp [Ty.fitTogether]

theorem Ty.fitTogether_of_isAtomic {args : List Ty} (h : ∀ t ∈ args, t.isAtomic = true) :
    Ty.fitTogether args = true := by
  unfold Ty.fitTogether
  rw [Bool.and_eq_true, Bool.or_eq_true, List.all_eq_true, List.all_eq_true]
  refine ⟨fun t ht => h t (List.dropLast_subset args ht), .inr fun t ht => ?_⟩
  rw [Ty.isEnclosed_of_isAtomic (h t ht)]
  rfl

theorem Ty.areExpressible_iff {ts : List Ty} :
    Ty.areExpressible ts = true ↔ ∀ t ∈ ts, t.isExpressible = true := by
  induction ts with
  | nil => simp [Ty.areExpressible]
  | cons t ts ih => simp [Ty.areExpressible, ih]

theorem App.areExpressible_iff {as : List (App Ty)} :
    App.areExpressible as = true ↔ ∀ a ∈ as, a.isExpressible = true := by
  induction as with
  | nil => simp [App.areExpressible]
  | cons a as ih => simp [App.areExpressible, ih]

theorem App.isExpressible_iff {a : App Ty} : a.isExpressible = true ↔
    isTypeName a.head.toList = true ∧ Ty.fitTogether a.args = true ∧
      ∀ t ∈ a.args, t.isExpressible = true := by
  obtain ⟨head, args⟩ := a
  rw [App.isExpressible, Bool.and_eq_true, Bool.and_eq_true, Ty.areExpressible_iff, and_assoc]

theorem Var.isExpressible_iff {v : Var Ty} : (Ty.var v).isExpressible = true ↔
    isVarName v.name.toList = true ∧ (∀ a ∈ v.lower, a.isExpressible = true) ∧
      ∀ a ∈ v.upper, a.isExpressible = true := by
  obtain ⟨name, lower, upper⟩ := v
  rw [Ty.isExpressible, Bool.and_eq_true, Bool.and_eq_true, App.areExpressible_iff,
    App.areExpressible_iff, and_assoc]

/-! ### Depth -/

mutual
/-- The number of levels of brackets in an instance. -/
def Ty.depth : Ty → Nat
  | .app a => a.depth
  | .var ⟨_, lower, upper⟩ => max (App.depths lower) (App.depths upper)
/-- `Ty.depth` on applications: one level more than the arguments have, if there are any. -/
def App.depth : App Ty → Nat
  | ⟨_, args⟩ => if args.isEmpty then 0 else Ty.depths args + 1
/-- The most levels in an instance of a list. -/
def Ty.depths : List Ty → Nat
  | [] => 0
  | t :: ts => max t.depth (Ty.depths ts)
/-- The most levels in an application of a list. -/
def App.depths : List (App Ty) → Nat
  | [] => 0
  | a :: as => max a.depth (App.depths as)
end

theorem Ty.depths_le {ts : List Ty} {d : Nat} : Ty.depths ts ≤ d ↔ ∀ t ∈ ts, t.depth ≤ d := by
  induction ts with
  | nil => simp [Ty.depths]
  | cons t ts ih => rw [Ty.depths, Nat.max_le, ih, List.forall_mem_cons]

theorem App.depths_le {as : List (App Ty)} {d : Nat} :
    App.depths as ≤ d ↔ ∀ a ∈ as, a.depth ≤ d := by
  induction as with
  | nil => simp [App.depths]
  | cons a as ih => rw [App.depths, Nat.max_le, ih, List.forall_mem_cons]

theorem App.depth_le {a : App Ty} {d : Nat} : a.depth ≤ d ↔ ∀ t ∈ a.args, t.depth < d := by
  obtain ⟨head, args⟩ := a
  rw [App.depth]
  cases args with
  | nil => simp
  | cons t ts =>
      cases d with
      | zero => exact iff_of_false (by simp) fun h => Nat.not_lt_zero _ (h t List.mem_cons_self)
      | succ d =>
          rw [List.isEmpty_cons, if_neg Bool.false_ne_true, Nat.add_le_add_iff_right, Ty.depths_le]
          simp only [Nat.lt_succ_iff]

theorem Var.depth_le {v : Var Ty} {d : Nat} : (Ty.var v).depth ≤ d ↔
    (∀ a ∈ v.lower, a.depth ≤ d) ∧ ∀ a ∈ v.upper, a.depth ≤ d := by
  obtain ⟨name, lower, upper⟩ := v
  rw [Ty.depth, Nat.max_le, App.depths_le, App.depths_le]

/-! ### Induction on applications -/

/-- The applications an instance consists of: itself, or its bounds. -/
def Ty.parts : Ty → List (App Ty)
  | .app a => [a]
  | .var v => v.lower ++ v.upper

/-- Induction on applications: the hypothesis covers what the arguments consist of. -/
theorem App.induct {Q : App Ty → Prop}
    (step : ∀ a : App Ty, (∀ t ∈ a.args, ∀ b ∈ t.parts, Q b) → Q a) (a : App Ty) : Q a := by
  suffices h : ∀ t : Ty, ∀ b ∈ t.parts, Q b from h (.app a) a (List.mem_singleton_self a)
  intro t
  induction t using Ty.induct with
  | app head args ih =>
      intro b hb
      rw [Ty.parts, List.mem_singleton] at hb
      subst hb
      exact step _ ih
  | var name lower upper hl hu =>
      intro b hb
      rw [Ty.parts, List.mem_append] at hb
      cases hb with
      | inl hb => exact step b (hl b hb)
      | inr hb => exact step b (hu b hb)

theorem Ty.isExpressible_parts {t : Ty} (ht : t.isExpressible = true) :
    ∀ a ∈ t.parts, a.isExpressible = true := by
  cases t with
  | app a => simpa [Ty.parts, Ty.isExpressible] using ht
  | var v =>
      rw [Var.isExpressible_iff] at ht
      exact List.forall_mem_append.2 ht.2

theorem Ty.depth_le {t : Ty} {d : Nat} : t.depth ≤ d ↔ ∀ a ∈ t.parts, a.depth ≤ d := by
  cases t with
  | app a => simp [Ty.parts, Ty.depth]
  | var v => rw [Var.depth_le, Ty.parts, List.forall_mem_append]

/-! ## 2. The depth of a written form -/

/-- A text that comes back to the level it starts at, and reaches so many levels above it. -/
def Nests (s : String) (k : Nat) : Prop :=
  ∀ level rest, nesting level (s.toList ++ rest) = max (level + k) (nesting level rest)

theorem le_nesting (level : Nat) (cs : List Char) : level ≤ nesting level cs := by
  induction level, cs using nesting.induct with
  | case1 level => exact Nat.le_refl _
  | case2 level cs ih =>
      rw [nesting]
      omega
  | case3 level cs ih =>
      rw [nesting]
      exact Nat.le_max_left _ _
  | case4 level c cs ho hc ih => rwa [nesting.eq_4 level c cs ho hc]

/-- Whether the character opens or closes a level. -/
def isBracket (c : Char) : Bool := c == '[' || c == ']'

theorem nests_of_all {s : String} (hs : s.toList.all (!isBracket ·) = true) : Nests s 0 := by
  intro level rest
  have hle := le_nesting level rest
  suffices h : ∀ cs : List Char, cs.all (!isBracket ·) = true →
      nesting level (cs ++ rest) = nesting level rest by
    rw [h _ hs]
    omega
  intro cs hcs
  induction cs with
  | nil => rfl
  | cons c cs ih =>
      rw [List.all_cons, Bool.and_eq_true, isBracket, Bool.not_eq_true', Bool.or_eq_false_iff,
        beq_eq_false_iff_ne, beq_eq_false_iff_ne] at hcs
      rw [List.cons_append, nesting.eq_4 level c _ hcs.1.1 hcs.1.2, ih hcs.2]

theorem Nests.append {s s' : String} {k k' : Nat} (hs : Nests s k) (hs' : Nests s' k') :
    Nests (s ++ s') (max k k') := by
  intro level rest
  rw [String.toList_append, List.append_assoc, hs, hs']
  omega

theorem Nests.bracket {s : String} {k : Nat} (hs : Nests s k) :
    Nests ("[" ++ s ++ "]") (k + 1) := by
  intro level rest
  have hle := le_nesting level rest
  have hstep : nesting level (("[" ++ s ++ "]").toList ++ rest) =
      nesting (level + 1) (s.toList ++ ']' :: rest) := by
    simp [nesting]
  rw [hstep, hs, nesting, Nat.add_sub_cancel]
  omega

theorem commaList_cons_cons (s s' : String) (ss : List String) :
    commaList (s :: s' :: ss) = s ++ ", " ++ commaList (s' :: ss) :=
  String.intercalate_cons_cons

theorem commaList_singleton (s : String) : commaList [s] = s := String.intercalate_singleton

theorem commaList_concat {ss : List String} (hne : ss ≠ []) (s : String) :
    commaList (ss ++ [s]) = commaList ss ++ ", " ++ s := by
  induction ss with
  | nil => exact absurd rfl hne
  | cons a ss ih =>
      cases ss with
      | nil =>
          rw [List.singleton_append, commaList_cons_cons, commaList_singleton, commaList_singleton]
      | cons b bs =>
          rw [List.cons_append, List.cons_append, commaList_cons_cons, ← List.cons_append,
            ih (List.cons_ne_nil b bs), commaList_cons_cons]
          simp only [String.append_assoc]

theorem nests_commaList {α : Type} {xs : List α} {g : α → String} {f : α → Nat}
    (h : ∀ x ∈ xs, Nests (g x) (f x)) :
    Nests (commaList (xs.map g)) ((xs.map f).foldr max 0) := by
  induction xs with
  | nil =>
      show Nests "" 0
      exact nests_of_all rfl
  | cons x xs ih =>
      rw [List.forall_mem_cons] at h
      cases xs with
      | nil => simpa [commaList_singleton] using h.1
      | cons y ys =>
          have hcomma : Nests ", " 0 := nests_of_all rfl
          have := (h.1.append hcomma).append (ih h.2)
          rw [Nat.max_zero] at this
          simpa only [List.map_cons, commaList_cons_cons, List.foldr_cons] using this

theorem Ty.depths_eq (ts : List Ty) : Ty.depths ts = (ts.map Ty.depth).foldr max 0 := by
  induction ts with
  | nil => rfl
  | cons t ts ih => rw [Ty.depths, ih, List.map_cons, List.foldr_cons]

theorem App.depths_eq (as : List (App Ty)) : App.depths as = (as.map App.depth).foldr max 0 := by
  induction as with
  | nil => rfl
  | cons a as ih => rw [App.depths, ih, List.map_cons, List.foldr_cons]

theorem nests_of_word {s : String} (hs : ∀ c ∈ s.toList, isWordChar c = true) : Nests s 0 := by
  refine nests_of_all (List.all_eq_true.2 fun c hc => ?_)
  have hword := hs c hc
  by_cases ho : c = '['
  · rw [ho] at hword
    exact absurd hword (by decide)
  · by_cases hc : c = ']'
    · rw [hc] at hword
      exact absurd hword (by decide)
    · simp [isBracket, ho, hc]

theorem nests_varName {s : String} (hs : isVarName s.toList = true) : Nests s 0 :=
  nests_of_word (isWordChar_of_isVarName hs)

theorem nests_typeName {s : String} (hs : isTypeName s.toList = true) : Nests s 0 :=
  nests_of_word (isWordChar_of_isTypeName hs)

/-- A name that can be written is written as it is. -/
theorem Var.text_eq_frame {v : Var Ty} (hv : isVarName v.name.toList = true) :
    (Ty.var v).text = Var.frame v.name (v.lower.map App.text) (v.upper.map App.text) := by
  obtain ⟨c, e, -⟩ := isVarName_iff.1 hv
  have hne : v.name.isEmpty = false := by
    cases h : v.name.isEmpty with
    | false => rfl
    | true =>
        rw [String.isEmpty_iff.1 h] at e
        cases e
  have hlabel : v.label = v.name := by
    rw [Var.label, Var.isAnonymous, hne]
    rfl
  rw [← Var.text, Var.text_eq, hlabel]

theorem nests_ty {t : Ty} (ht : t.isExpressible = true)
    (h : ∀ a ∈ t.parts, Nests a.text a.depth) : Nests t.text t.depth := by
  cases t with
  | app a =>
      rw [Ty.text_app, Ty.depth]
      exact h a (List.mem_singleton_self a)
  | var v =>
      have hname := (Var.isExpressible_iff.1 ht).1
      have hlabel := nests_varName hname
      obtain ⟨hl, hu⟩ := List.forall_mem_append.1 h
      have hlow := nests_commaList hl
      have hupp := nests_commaList hu
      have hsub : Nests " <: " 0 := nests_of_all rfl
      have hsup : Nests " >: " 0 := nests_of_all rfl
      rw [← App.depths_eq] at hlow hupp
      rw [Var.text_eq_frame hname]
      obtain ⟨name, lower, upper⟩ := v
      rw [Ty.depth]
      cases lower with
      | nil =>
          cases upper with
          | nil => exact hlabel
          | cons b bs => simpa [Var.frame, App.depths] using (hlabel.append hsub).append hupp
      | cons a as =>
          cases upper with
          | nil => simpa [Var.frame, App.depths] using (hlabel.append hsup).append hlow
          | cons b bs =>
              simpa [Var.frame] using (((hlow.append hsub).append hlabel).append hsub).append hupp

theorem nests_app (a : App Ty) (ha : a.isExpressible = true) : Nests a.text a.depth := by
  induction a using App.induct with
  | step a ih =>
      obtain ⟨hname, -, hargs⟩ := App.isExpressible_iff.1 ha
      have htexts := nests_commaList fun t ht => nests_ty (hargs t ht) fun b hb =>
        ih t ht b hb (Ty.isExpressible_parts (hargs t ht) b hb)
      have hhead := nests_typeName hname
      rw [← Ty.depths_eq] at htexts
      obtain ⟨head, args⟩ := a
      rw [App.text_eq, App.depth]
      cases args with
      | nil => exact hhead
      | cons t ts => simpa [App.frame, String.append_assoc] using hhead.append htexts.bracket

/-- **The brackets of a written form nest as deep as the instance.** -/
theorem nesting_text {t : Ty} (ht : t.isExpressible = true) :
    nesting 0 t.text.toList = t.depth := by
  have h := nests_ty ht fun a ha => nests_app a (Ty.isExpressible_parts ht a ha)
  simpa [nesting] using h 0 []

end Lineage
