import Lineage.Proofs.FirstCommon
import Lineage.Proofs.Search

/-!
# Types without parameters

Where no type has parameters, the answers to the questions for common relatives are exact: the
nearest among the types that lie in the direction of the question from everything that takes part.

The search works on names of types. It is read as a search on their numbers (`common_eq`), which
collects cells of the table and keeps the first ones after every operand. So it lists the first
common relatives of everything that takes part (`Lists.takenIn`).
-/

namespace Lineage

open Nearest

section Maps

variable {α β : Type}

theorem keep_map_eq {p : β → Option Bool} {g : α → β} {f : α → Bool} {xs : List α}
    (hp : ∀ x ∈ xs, p (g x) = some (f x)) : keep p (xs.map g) = some ((xs.filter f).map g) := by
  induction xs with
  | nil => rfl
  | cons x xs ih =>
      rw [List.forall_mem_cons] at hp
      rw [List.map_cons, keep, hp.1, ih hp.2, List.filter_cons]
      cases f x <;> rfl

theorem anyM_map_eq {p : β → Option Bool} {g : α → β} {f : α → Bool} {xs : List α}
    (hp : ∀ x ∈ xs, p (g x) = some (f x)) : (xs.map g).anyM p = some (xs.any f) := by
  induction xs with
  | nil => rfl
  | cons x xs ih =>
      rw [List.forall_mem_cons] at hp
      rw [List.map_cons, List.anyM, hp.1, ih hp.2, List.any_cons]
      cases f x <;> rfl

end Maps

namespace Hierarchy

variable {h : Hierarchy} {d : Direction} {S T is js : List Nat} {c i j : Nat}

/-! ## 1. The search on numbers -/

/-- The type of a number, as an application without arguments. -/
def appAt (h : Hierarchy) (i : Nat) : App Ty := ⟨(h.nodes[i]?.map Node.name).getD "", []⟩

/-- The type of a number as an instance. -/
def typeAt (h : Hierarchy) (i : Nat) : Ty := .app (h.appAt i)

/-- Running results with one more type. -/
def takeNumber (h : Hierarchy) (d : Direction) (is : List Nat) (j : Nat) : List Nat :=
  h.merged d is ((Table.build h.nodes d).get · j)

/-- Running results with an operand that puts in some types. -/
def takeNumbers (h : Hierarchy) (d : Direction) (is js : List Nat) : List Nat :=
  h.merged d is fun i => js.foldl (h.takeNumber d) [i]

/-- What an operand puts in: an application itself, a variable the bounds that face the
    direction. -/
def members (d : Direction) : Ty → List (App Ty)
  | .app a => [a]
  | .var v => facing d v

/-- The numbers of the types that applications are instances of. -/
def numbers (h : Hierarchy) (apps : List (App Ty)) : List Nat :=
  apps.filterMap fun a => h.idOf? a.head

/-- A sound hierarchy in which no type has parameters. -/
structure Parameterless (h : Hierarchy) : Prop where
  sound : Sound h
  params_nil : ∀ {n : Node}, n ∈ h.nodes → n.params = []

section Names

variable {n m : Node} (B : Parameterless h)

theorem appAt_of_node (hn : h.nodes[i]? = some n) : h.appAt i = ⟨n.name, []⟩ := by
  simp [appAt, hn]

include B

theorem Parameterless.arity_eq (hn : n ∈ h.nodes) : n.arity = 0 := by
  rw [Node.arity, B.params_nil hn, List.length_nil]

theorem Parameterless.find_appAt (hn : h.nodes[i]? = some n) :
    h.find? (h.appAt i).head = some n := by
  rw [appAt_of_node hn]
  exact B.sound.find_of_node hn

theorem Parameterless.idOf_appAt (hi : i < h.nodes.length) :
    h.idOf? (h.appAt i).head = some i := by
  have hn := List.getElem?_eq_getElem hi
  rw [appAt_of_node hn]
  exact B.sound.idOf?_eq_some.2 ⟨_, hn, rfl⟩

theorem Parameterless.typeAt_inj (hi : i < h.nodes.length) (hj : j < h.nodes.length)
    (e : h.typeAt i = h.typeAt j) : i = j := by
  have happ : h.appAt i = h.appAt j := Ty.app.inj e
  have hid := B.idOf_appAt hi
  rw [happ, B.idOf_appAt hj] at hid
  exact (Option.some_inj.1 hid).symm

theorem Parameterless.nodup_map_typeAt (hi : ∀ i ∈ is, i < h.nodes.length) (hn : is.Nodup) :
    (is.map h.typeAt).Nodup :=
  hn.map_on fun i hmem j hmem' e => B.typeAt_inj (hi i hmem) (hi j hmem') e

/-- A normal application is the type of a number. -/
theorem Parameterless.eq_appAt {a : App Ty} (ha : h.isNormalApp a = true) :
    ∃ j, j < h.nodes.length ∧ h.idOf? a.head = some j ∧ a = h.appAt j := by
  obtain ⟨head, args⟩ := a
  obtain ⟨⟨m, hm, hl⟩, -⟩ := isNormalApp_iff.1 ha
  have hnode := B.sound.node_of_find hm
  have hargs : args = [] := by
    rw [B.arity_eq (find?_mem hm)] at hl
    exact List.eq_nil_of_length_eq_zero hl
  have heq : (⟨head, args⟩ : App Ty) = h.appAt m.id := by
    rw [appAt_of_node hnode, hargs, find?_name hm]
  have hlt := (List.getElem?_eq_some_iff.1 hnode).1
  refine ⟨m.id, hlt, ?_, heq⟩
  rw [heq]
  exact B.idOf_appAt hlt

/-! ### Raising and fulfilling -/

/-- The record of an ancestor is its name. -/
theorem Parameterless.record_eq {r : App Ty} (hn : h.nodes[i]? = some n)
    (hr : n.ancestors.get? j = some r) : r = h.appAt j := by
  obtain ⟨m, hm, ok⟩ := B.sound.record_ok hn (record?_eq_some.2 ⟨n, hn, hr⟩)
  have hl := ok.args_length B.sound (List.mem_of_getElem? hm)
  rw [B.arity_eq (List.mem_of_getElem? hm)] at hl
  rw [appAt_of_node hm, ← ok.head_eq, ← List.eq_nil_of_length_eq_zero hl]

omit B in
theorem substitute_appAt (args : List Ty) : n.substitute (h.appAt j) args = h.appAt j := rfl

theorem Parameterless.raise_appAt (hi : i < h.nodes.length) :
    h.raise (h.appAt i) j = if Table.beyond h.nodes .up j i then some (h.appAt j) else none := by
  have hn := List.getElem?_eq_getElem hi
  have hfind := B.find_appAt hn
  have hiff : Table.beyond h.nodes .up j i = true ↔ h.HasAncestor i j := beyond_iff B.sound
  rw [HasAncestor, exists_node_iff hn] at hiff
  cases hr : h.nodes[i].ancestors.get? j with
  | none =>
      have hno : Table.beyond h.nodes .up j i = false := by
        rw [Roster.contains, hr] at hiff
        simpa using hiff
      rw [raise, hfind, hno]
      simp [hr]
  | some r =>
      have hyes : Table.beyond h.nodes .up j i = true := by
        rw [Roster.contains, hr] at hiff
        simpa using hiff
      have hrec := B.record_eq hn hr
      rw [raise_of_record hfind hr, hrec, substitute_appAt, hyes]
      rfl

/-- A type fulfills another one if it descends from it. -/
theorem Parameterless.appFulfillsWith_eq (rec : Ty → Ty → Option Bool) (hi : i < h.nodes.length)
    (hj : j < h.nodes.length) : h.appFulfillsWith rec (h.appAt i) (h.appAt j) =
      some (Table.beyond h.nodes .up j i) := by
  have hm := List.getElem?_eq_getElem hj
  rw [appFulfillsWith, B.find_appAt hm]
  simp only [B.sound.id_eq hm, B.raise_appAt hi]
  cases Table.beyond h.nodes .up j i <;> rfl

theorem Parameterless.beyond_flip (x y : Nat) :
    Table.beyond h.nodes d.flip x y = Table.beyond h.nodes d y x := by
  rw [Bool.eq_iff_iff, beyond_iff B.sound, beyond_iff B.sound, B.sound.reaches_flip]

/-- Of two types one lies strictly beyond the other if it lies beyond it. -/
theorem Parameterless.strictlyBeyond_eq (q : Answers) (hi : i < h.nodes.length)
    (hj : j < h.nodes.length) (hne : j ≠ i) :
    strictlyBeyond h q d (h.appAt i) (h.appAt j) = some (Table.beyond h.nodes d i j) := by
  have hanti : Table.beyond h.nodes d i j = true → Table.beyond h.nodes d j i = false := by
    intro hij
    rw [beyond_iff B.sound] at hij
    rw [Bool.eq_false_iff, ne_eq, beyond_iff B.sound]
    intro hji
    exact hne (B.sound.reaches_antisymm hij hji)
  cases d with
  | up =>
      rw [strictlyBeyond, strictlyFulfills, B.appFulfillsWith_eq _ hj hi,
        B.appFulfillsWith_eq _ hi hj]
      cases hb : Table.beyond h.nodes .up i j with
      | false => rfl
      | true =>
          rw [hanti hb]
          rfl
  | down =>
      have hflip (x y : Nat) : Table.beyond h.nodes .up x y = Table.beyond h.nodes .down y x :=
        B.beyond_flip (d := .down) x y
      rw [strictlyBeyond, strictlyFulfills, B.appFulfillsWith_eq _ hi hj,
        B.appFulfillsWith_eq _ hj hi, hflip, hflip]
      cases hb : Table.beyond h.nodes .down i j with
      | false => rfl
      | true =>
          rw [hanti hb]
          rfl

/-! ### Keeping the nearest -/

theorem Parameterless.isNearest_eq (q : Answers) (hi : i < h.nodes.length)
    (his : ∀ x ∈ is, x < h.nodes.length) : isNearest h q d (is.map h.typeAt) (h.typeAt i) =
      some (!is.any fun y => y != i && Table.beyond h.nodes d i y) := by
  have happs : (is.map h.typeAt).filterMap Ty.app? = is.map h.appAt := by
    rw [List.filterMap_map]
    exact congrFun List.filterMap_eq_map is
  have hany : (is.map h.appAt).anyM (fun y => if y = h.appAt i then some false else
      strictlyBeyond h q d (h.appAt i) y) =
        some (is.any fun y => y != i && Table.beyond h.nodes d i y) := by
    refine anyM_map_eq fun y hy => ?_
    by_cases hyi : y = i
    · simp [hyi]
    · have hne : h.appAt y ≠ h.appAt i := fun e =>
        hyi (B.typeAt_inj (his y hy) hi (congrArg Ty.app e))
      rw [if_neg hne, B.strictlyBeyond_eq q hi (his y hy) hyi]
      simp [hyi]
  rw [typeAt, isNearest, happs, hany]
  rfl

theorem Parameterless.keepNearest_eq (q : Answers) (his : ∀ x ∈ is, x < h.nodes.length) :
    keepNearest h q d (is.map h.typeAt) = some ((h.firsts d is).map h.typeAt) :=
  keep_map_eq fun x hx => B.isNearest_eq q (his x hx) his

theorem Parameterless.distinct_eq (his : ∀ x ∈ is, x < h.nodes.length) :
    distinct (is.map h.typeAt) = (is.foldl addNew []).map h.typeAt := by
  -- along the fold both lists stay the same
  have key (acc : List Nat) (hacc : ∀ x ∈ acc, x < h.nodes.length) :
      (is.map h.typeAt).foldl addDistinct (acc.map h.typeAt) =
        (is.foldl addNew acc).map h.typeAt := by
    induction is generalizing acc with
    | nil => rfl
    | cons i is ih =>
        rw [List.forall_mem_cons] at his
        have hany : (acc.map h.typeAt).any (·.equivalent (h.typeAt i)) = true ↔ i ∈ acc := by
          rw [List.any_map, List.any_eq_true]
          constructor
          · intro hx
            obtain ⟨x, hx, e⟩ := hx
            have hxi : h.appAt x = h.appAt i := eq_of_beq e
            rwa [← B.typeAt_inj (hacc x hx) his.1 (congrArg Ty.app hxi)]
          · intro hi
            exact ⟨i, hi, beq_self_eq_true (h.appAt i)⟩
        have hstep : addDistinct (acc.map h.typeAt) (h.typeAt i) =
            (addNew acc i).map h.typeAt := by
          by_cases hi : i ∈ acc
          · rw [addDistinct, if_pos (hany.2 hi), addNew, if_pos hi]
          · rw [addDistinct, if_neg (mt hany.1 hi), addNew, if_neg hi, List.map_append]
            rfl
        rw [List.map_cons, List.foldl_cons, List.foldl_cons, hstep]
        refine ih his.2 _ fun x hx => ?_
        rcases mem_addNew.1 hx with hx | rfl
        · exact hacc x hx
        · exact his.1
  exact key [] (by simp)

/-! ### Combining operands -/

/-- A type is carried to every type in the direction. -/
theorem Parameterless.carry_eq (q : Answers) (hi : i < h.nodes.length)
    (hn : h.nodes[c]? = some n) (hr : h.Reaches d i c) :
    carry h q d (h.appAt i) n = some [h.appAt c] := by
  have hid := B.sound.id_eq hn
  cases d with
  | up =>
      have hb : Table.beyond h.nodes .up c i = true := (beyond_iff B.sound).2 hr
      rw [carry, hid, B.raise_appAt hi, hb]
      rfl
  | down =>
      have hm := List.getElem?_eq_getElem hi
      have hanc : h.HasAncestor c i := B.sound.ancestor_descendant.2 hr
      rw [HasAncestor, exists_node_iff hn] at hanc
      obtain ⟨r, hr⟩ := Option.isSome_iff_exists.1 hanc
      have hrec := B.record_eq hn hr
      rw [carry, lowerings, B.find_appAt hm]
      simp only [B.sound.id_eq hm, hr, hrec]
      rw [B.params_nil (List.mem_of_getElem? hn), appAt_of_node hn]
      rfl

theorem Parameterless.combineVia_eq (q : Answers) (hi : i < h.nodes.length)
    (hj : j < h.nodes.length) (hn : h.nodes[c]? = some n) (hc : h.FromAll d [i, j] c) :
    combineVia h q d (h.appAt i) (h.appAt j) n = some [h.appAt c] := by
  rw [combineVia, B.carry_eq q hi hn (hc i (by simp)), B.carry_eq q hj hn (hc j (by simp)),
    appAt_of_node hn]
  rfl

/-- **Two types are combined to the types in their cell.** -/
theorem Parameterless.combineApps_eq (q : Answers) (hi : i < h.nodes.length)
    (hj : j < h.nodes.length) :
    combineApps h (Tables.build h.nodes) q d (h.appAt i) (h.appAt j) =
      some (((Table.build h.nodes d).get i j).map h.appAt) := by
  have hget : (Tables.build h.nodes).get d i j = (Table.build h.nodes d).get i j := by
    cases d <;> rfl
  have hcell : ∀ c ∈ (Table.build h.nodes d).get i j, h.FromAll d [i, j] c :=
    fun c hc => ((lists_cell B.sound hi hj).mem.1 hc).1
  rw [combineApps, B.idOf_appAt hi, B.idOf_appAt hj]
  dsimp only
  rw [hget]
  generalize (Table.build h.nodes d).get i j = cell at hcell
  have hvia : (cell.filterMap (h.nodes[·]?)).mapM (combineVia h q d (h.appAt i) (h.appAt j)) =
      some (cell.map fun c => [h.appAt c]) := by
    induction cell with
    | nil => rfl
    | cons c cell ih =>
        rw [List.forall_mem_cons] at hcell
        have hn := List.getElem?_eq_getElem (FromAll.lt B.sound hcell.1 (by simp))
        rw [List.filterMap_cons_some hn, List.mapM_cons, B.combineVia_eq q hi hj hn hcell.1,
          ih hcell.2]
        rfl
  have hflat : (cell.map fun c => [h.appAt c]).flatten = cell.map h.appAt := by
    rw [← List.flatMap_def, List.map_eq_flatMap]
  rw [hvia, ← hflat]
  rfl

/-- What is found for each of the running results is merged. -/
theorem Parameterless.takeIn_eq {q : Answers} {tables : Tables} {t : Ty} {found : Nat → List Nat}
    (hf : ∀ i ∈ is, combine h tables q d (h.typeAt i) t = some ((found i).map h.typeAt))
    (hlt : ∀ i ∈ is, ∀ x ∈ found i, x < h.nodes.length) :
    takeIn h tables q d (is.map h.typeAt) t = some ((h.merged d is found).map h.typeAt) := by
  have hmap : (is.map h.typeAt).mapM (combine h tables q d · t) =
      some (is.map fun i => (found i).map h.typeAt) := by
    rw [mapM_eq_some, List.forall₂_map_left_iff, List.forall₂_map_right_iff, List.forall₂_same]
    exact hf
  have hflat : (is.map fun i => (found i).map h.typeAt).flatten =
      (is.flatMap found).map h.typeAt := by
    rw [← List.flatMap_def, List.map_flatMap]
  have hlt' : ∀ x ∈ is.flatMap found, x < h.nodes.length := by
    intro x hx
    obtain ⟨i, hi, hx⟩ := List.mem_flatMap.1 hx
    exact hlt i hi x hx
  have hnew : ∀ x ∈ (is.flatMap found).foldl addNew [], x < h.nodes.length := by
    intro x hx
    rw [mem_foldl_addNew] at hx
    exact hlt' x (by simpa using hx)
  rw [takeIn, hmap, Option.bind_eq_bind, Option.bind_some, hflat, B.distinct_eq hlt',
    B.keepNearest_eq q hnew, merged]

end Names

/-! ## 2. The search is exact -/

section Search

variable (B : Parameterless h)
include B

theorem Lists.lt (hi : h.Lists d S is) (hS : S ≠ []) : ∀ x ∈ is, x < h.nodes.length :=
  fun _ hx => FromAll.lt B.sound (hi.mem.1 hx).1 hS

/-- **One more type is taken in.** -/
theorem Lists.takeNumber (hi : h.Lists d S is) (hS : S ≠ []) (hj : j < h.nodes.length) :
    h.Lists d (S ++ [j]) (h.takeNumber d is j) :=
  hi.merge B.sound hS fun i hm => lists_cell B.sound (hi.lt B hS i hm) hj

/-- **More types are taken in one after the other.** -/
theorem Lists.foldl_takeNumber (hi : h.Lists d S is) (hS : S ≠ [])
    (hj : ∀ j ∈ js, j < h.nodes.length) :
    h.Lists d (S ++ js) (js.foldl (h.takeNumber d) is) := by
  induction js generalizing S is with
  | nil => simpa using hi
  | cons j js ih =>
      rw [List.forall_mem_cons] at hj
      have hstep := ih (hi.takeNumber B hS hj.1) (by simp) hj.2
      rwa [List.append_assoc] at hstep

/-- **An operand is taken in** with all types that it puts in. -/
theorem Lists.takeNumbers (hi : h.Lists d S is) (hS : S ≠ [])
    (hj : ∀ j ∈ js, j < h.nodes.length) : h.Lists d (S ++ js) (h.takeNumbers d is js) :=
  hi.merge B.sound hS fun i hm =>
    (lists_self B.sound (hi.lt B hS i hm)).foldl_takeNumber B (List.cons_ne_nil i []) hj

/-- Types that are taken in as operands. -/
theorem Parameterless.foldlM_takeIn {q : Answers} (hi : h.Lists d S is) (hS : S ≠ [])
    (hj : ∀ j ∈ js, j < h.nodes.length) :
    (js.map h.typeAt).foldlM (takeIn h (Tables.build h.nodes) q d) (is.map h.typeAt) =
      some ((js.foldl (h.takeNumber d) is).map h.typeAt) := by
  induction js generalizing S is with
  | nil => rfl
  | cons j js ih =>
      rw [List.forall_mem_cons] at hj
      have hlt := hi.lt B hS
      have htake : takeIn h (Tables.build h.nodes) q d (is.map h.typeAt) (h.typeAt j) =
          some ((h.takeNumber d is j).map h.typeAt) := by
        refine B.takeIn_eq (fun i hm => ?_) fun i hm => ?_
        · rw [typeAt, typeAt, combine, B.combineApps_eq q (hlt i hm) hj.1]
          simp [typeAt]
        · exact (lists_cell B.sound (hlt i hm) hj.1).lt B (List.cons_ne_nil i [j])
      rw [List.map_cons, List.foldlM_cons, htake]
      exact ih (hi.takeNumber B hS hj.1) (by simp) hj.2

/-- One round suffices for types. -/
theorem Parameterless.common_typeAt (rounds : Nat) (hi : i < h.nodes.length)
    (hj : ∀ j ∈ js, j < h.nodes.length) :
    Nearest.common h (Tables.build h.nodes) (rounds + 1) d ((i :: js).map h.typeAt) =
      some ((js.foldl (h.takeNumber d) [i]).map h.typeAt) := by
  rw [Nearest.common, List.map_cons, commonWith]
  exact B.foldlM_takeIn (lists_self B.sound hi) (List.cons_ne_nil i []) hj

/-- Normal applications are the types of their numbers. -/
theorem Parameterless.map_numbers {apps : List (App Ty)}
    (ha : ∀ a ∈ apps, h.isNormalApp a = true) : (h.numbers apps).map h.typeAt = apps.map .app ∧
      ∀ j ∈ h.numbers apps, j < h.nodes.length := by
  induction apps with
  | nil => exact ⟨rfl, by simp [numbers]⟩
  | cons a apps ih =>
      rw [List.forall_mem_cons] at ha
      obtain ⟨j, hj, hid, heq⟩ := B.eq_appAt ha.1
      obtain ⟨hmap, hlt⟩ := ih ha.2
      have hcons : h.numbers (a :: apps) = j :: h.numbers apps := by
        simp [numbers, hid]
      rw [hcons, List.map_cons, List.map_cons, hmap, typeAt, ← heq]
      exact ⟨rfl, List.forall_mem_cons.2 ⟨hj, hlt⟩⟩

omit B in
/-- What a normal operand puts in is normal. -/
theorem isNormalApp_members {t : Ty} (ht : h.isNormal t = true) :
    ∀ a ∈ members d t, h.isNormalApp a = true := by
  cases t with
  | app a => simpa [members] using ht
  | var v =>
      rw [isNormal_var_iff] at ht
      cases d with
      | up => exact ht.1
      | down => exact ht.2

/-- A type combined with an operand: the types that the operand puts in are taken in. -/
theorem Parameterless.combine_eq {q : Answers} {t : Ty} (hi : i < h.nodes.length)
    (ht : h.isNormal t = true)
    (hq : ∀ js, (∀ j ∈ js, j < h.nodes.length) → q.common d ((i :: js).map h.typeAt) =
      some ((js.foldl (h.takeNumber d) [i]).map h.typeAt)) :
    combine h (Tables.build h.nodes) q d (h.typeAt i) t =
      some (((h.numbers (members d t)).foldl (h.takeNumber d) [i]).map h.typeAt) := by
  obtain ⟨hmap, hlt⟩ := B.map_numbers (isNormalApp_members (d := d) ht)
  cases t with
  | app a =>
      obtain ⟨j, hj, hid, rfl⟩ := B.eq_appAt (by simpa using ht)
      have hnum : h.numbers (members d (.app (h.appAt j))) = [j] := by simp [members, numbers, hid]
      have hcell := (lists_cell (d := d) B.sound hi hj).firsts_eq B.sound
      rw [hnum, typeAt, combine, B.combineApps_eq q hi hj]
      simp [Hierarchy.takeNumber, merged, hcell, typeAt]
  | var v =>
      rw [typeAt, combine, combineVarApp]
      cases hv : facing d v with
      | nil => simp [members, hv, numbers, typeAt]
      | cons b bs =>
          rw [members, hv] at hmap hlt ⊢
          have hops : (h.appAt i :: b :: bs).map Ty.app =
              (i :: h.numbers (b :: bs)).map h.typeAt := by
            rw [List.map_cons, List.map_cons (f := h.typeAt), hmap, typeAt]
          dsimp only
          rw [hops]
          exact hq _ hlt

/-- The numbers of the running results after some operands. -/
def takenIn (h : Hierarchy) (d : Direction) (is : List Nat) (ts : List Ty) : List Nat :=
  ts.foldl (fun is t => h.takeNumbers d is (h.numbers (members d t))) is

/-- Operands are taken in by their numbers, if the bounds of variables are. -/
theorem Parameterless.foldlM_operands {q : Answers} {ts : List Ty} (hl : h.Lists d S is)
    (hS : S ≠ []) (ht : ∀ t ∈ ts, h.isNormal t = true)
    (hq : ∀ i js, i < h.nodes.length → (∀ j ∈ js, j < h.nodes.length) →
      q.common d ((i :: js).map h.typeAt) =
        some ((js.foldl (h.takeNumber d) [i]).map h.typeAt)) :
    ts.foldlM (takeIn h (Tables.build h.nodes) q d) (is.map h.typeAt) =
      some ((h.takenIn d is ts).map h.typeAt) := by
  induction ts generalizing S is with
  | nil => rfl
  | cons t ts ih =>
      rw [List.forall_mem_cons] at ht
      obtain ⟨-, hlt⟩ := B.map_numbers (isNormalApp_members (d := d) ht.1)
      have htake : takeIn h (Tables.build h.nodes) q d (is.map h.typeAt) t =
          some ((h.takeNumbers d is (h.numbers (members d t))).map h.typeAt) := by
        refine B.takeIn_eq (fun i hm => ?_) fun i hm => ?_
        · have hi := hl.lt B hS i hm
          exact B.combine_eq hi ht.1 fun js hjs => hq i js hi hjs
        · have hself := lists_self (d := d) B.sound (hl.lt B hS i hm)
          exact (hself.foldl_takeNumber B (List.cons_ne_nil i []) hlt).lt B (List.cons_ne_nil i _)
      rw [List.foldlM_cons, htake]
      exact ih (hl.takeNumbers B hS hlt) (by simp [hS]) ht.2

/-- **The search on names is the search on numbers.** Two rounds suffice: one for the operands, one
    for the bounds of variables among them. -/
theorem Parameterless.common_eq (rounds : Nat) {ts : List Ty} (hi : i < h.nodes.length)
    (ht : ∀ t ∈ ts, h.isNormal t = true) :
    Nearest.common h (Tables.build h.nodes) (rounds + 2) d (h.typeAt i :: ts) =
      some ((h.takenIn d [i] ts).map h.typeAt) := by
  rw [Nearest.common, commonWith]
  refine B.foldlM_operands (lists_self B.sound hi) (List.cons_ne_nil i []) ht ?_
  intro i js hi hj
  exact B.common_typeAt rounds hi hj

/-- **The search lists the first common relatives of everything that takes part.** -/
theorem Lists.takenIn {ts : List Ty} (hl : h.Lists d S is) (hS : S ≠ [])
    (ht : ∀ t ∈ ts, h.isNormal t = true) :
    h.Lists d (S ++ h.numbers (ts.flatMap (members d))) (h.takenIn d is ts) := by
  induction ts generalizing S is with
  | nil => simpa [numbers, Hierarchy.takenIn] using hl
  | cons t ts ih =>
      rw [List.forall_mem_cons] at ht
      obtain ⟨-, hlt⟩ := B.map_numbers (isNormalApp_members (d := d) ht.1)
      have hstep := ih (hl.takeNumbers B hS hlt) (by simp [hS]) ht.2
      have hnum : h.numbers ((t :: ts).flatMap (members d)) =
          h.numbers (members d t) ++ h.numbers (ts.flatMap (members d)) := by
        rw [List.flatMap_cons, numbers, List.filterMap_append, numbers, numbers]
      rw [hnum, ← List.append_assoc]
      exact hstep

end Search

/-! ## 3. Questions -/

section Questions

variable {rounds : Nat} (B : Parameterless h)
include B

/-- There are no abbreviations to write out. -/
theorem Parameterless.eq_of_normalizeApp {a a' : App Ty} (e : h.normalizeApp a = .ok a') :
    a' = a := by
  obtain ⟨head, args⟩ := a
  rw [normalizeApp] at e
  split at e
  · cases e
  · rename_i n hn
    rw [B.arity_eq (find?_mem hn)] at e
    cases args with
    | nil => exact (Except.ok.inj e).symm
    | cons t ts => cases e

theorem Parameterless.eq_of_normalizeApps {as as' : List (App Ty)}
    (e : h.normalizeApps as = .ok as') : as' = as := by
  induction as generalizing as' with
  | nil =>
      cases e
      rfl
  | cons a as ih =>
      rw [normalizeApps] at e
      obtain ⟨b, hb, e⟩ := bind_eq_ok.1 e
      obtain ⟨bs, hbs, e⟩ := bind_eq_ok.1 e
      rw [← pure_eq_ok.1 e, B.eq_of_normalizeApp hb, ih hbs]

theorem Parameterless.eq_of_normalize {t t' : Ty} (e : h.normalize t = .ok t') : t' = t := by
  cases t with
  | app a =>
      rw [normalize] at e
      obtain ⟨b, hb, e⟩ := bind_eq_ok.1 e
      rw [← pure_eq_ok.1 e, B.eq_of_normalizeApp hb]
  | var v =>
      obtain ⟨name, lower, upper⟩ := v
      rw [normalize] at e
      obtain ⟨lower', hl, e⟩ := bind_eq_ok.1 e
      obtain ⟨upper', hu, e⟩ := bind_eq_ok.1 e
      rw [← pure_eq_ok.1 e, B.eq_of_normalizeApps hl, B.eq_of_normalizeApps hu]

theorem Parameterless.appFulfills_normal (rounds : Nat) {a b : App Ty}
    (ha : h.isNormalApp a = true) (hb : h.isNormalApp b = true) :
    ∃ r, h.appFulfills rounds a b = some r := by
  obtain ⟨i, hi, -, rfl⟩ := B.eq_appAt ha
  obtain ⟨j, hj, -, rfl⟩ := B.eq_appAt hb
  exact ⟨_, B.appFulfillsWith_eq _ hi hj⟩

/-- Arguments of which there are none have ranges. -/
theorem Parameterless.checkRangesApp_eq {a : App Ty} (ha : h.isNormalApp a = true) :
    h.checkRangesApp rounds a = pure () := by
  obtain ⟨i, -, -, rfl⟩ := B.eq_appAt ha
  rfl

theorem Parameterless.checkRangesApps_eq {as : List (App Ty)}
    (ha : ∀ a ∈ as, h.isNormalApp a = true) : h.checkRangesApps rounds as = pure () := by
  induction as with
  | nil => rfl
  | cons a as ih =>
      rw [List.forall_mem_cons] at ha
      rw [checkRangesApps, B.checkRangesApp_eq ha.1, pure_bind, ih ha.2]

/-- Whether variables have ranges is decided in any number of rounds. -/
theorem Parameterless.exists_checkRanges (rounds : Nat) {t : Ty} (ht : h.isNormal t = true) :
    ∃ r, (h.checkRanges rounds t).run = some r := by
  cases t with
  | app a =>
      rw [checkRanges, B.checkRangesApp_eq (by simpa using ht)]
      exact ⟨_, rfl⟩
  | var v =>
      obtain ⟨name, lower, upper⟩ := v
      rw [isNormal_var_iff] at ht
      have hrange : ∃ r, (h.checkRange rounds ⟨name, lower, upper⟩).run = some r := by
        refine exists_run_forM fun a ha => exists_run_forM fun b hb => ?_
        obtain ⟨r, hr⟩ := B.appFulfills_normal rounds (ht.1 a ha) (ht.2 b hb)
        rw [hr]
        cases r <;> exact ⟨_, rfl⟩
      rw [checkRanges, B.checkRangesApps_eq ht.1, B.checkRangesApps_eq ht.2]
      exact exists_run_bind hrange fun _ => ⟨_, rfl⟩

theorem Parameterless.exists_operand (t : Ty) : ∃ r, (h.operand rounds d t).run = some r := by
  cases d with
  | up => exact ⟨h.normalize t, run_liftExcept _⟩
  | down =>
      rw [operand, validate]
      cases hn : h.normalize t with
      | error e => exact ⟨.error e, rfl⟩
      | ok t' =>
          have hranges := B.exists_checkRanges rounds (isNormal_normalize hn)
          exact exists_run_bind (x := h.checkRanges rounds t') hranges fun _ => ⟨_, rfl⟩

/-- An operand that is accepted is normal, and is looked at as it is. -/
theorem Parameterless.operand_eq_ok {t t' : Ty}
    (e : (h.operand rounds d t).run = some (.ok t')) : t' = t ∧ h.isNormal t = true := by
  have hnorm := normalize_of_operand e
  obtain rfl := B.eq_of_normalize hnorm
  exact ⟨rfl, isNormal_normalize hnorm⟩

/-- Operands that are accepted are searched on their numbers. -/
theorem Parameterless.common_of_operands {first : App Ty} {rest : List Ty}
    (hall : ∀ t ∈ Ty.app first :: rest, (h.operand (rounds + 2) d t).run = some (.ok t)) :
    ∃ i, h.idOf? first.head = some i ∧
      Nearest.common h (Tables.build h.nodes) (rounds + 2) d (.app first :: rest) =
        some ((h.takenIn d [i] rest).map h.typeAt) := by
  rw [List.forall_mem_cons] at hall
  obtain ⟨i, hi, hid, rfl⟩ := B.eq_appAt (by simpa using (B.operand_eq_ok hall.1).2)
  exact ⟨i, hid, B.common_eq rounds hi fun t ht => (B.operand_eq_ok (hall.2 t ht)).2⟩

/-- **When a question succeeds, and what it gives**: the hierarchy is finalized and every operand is
    accepted. -/
theorem Parameterless.nearestCommon_eq_ok {first : App Ty} {rest results : List Ty} :
    (h.nearestCommon (rounds + 2) d (.app first :: rest)).run = some (.ok results) ↔
      h.isFinalized = true ∧
      (∀ t ∈ Ty.app first :: rest, (h.operand (rounds + 2) d t).run = some (.ok t)) ∧
      ∃ i, h.idOf? first.head = some i ∧ results = (h.takenIn d [i] rest).map h.typeAt := by
  rw [nearestCommon, isFinalized]
  cases htab : h.tables with
  | none =>
      constructor
      · intro e
        cases e
      · intro e
        cases e.1
  | some tables =>
      obtain rfl := B.sound.tables_eq htab
      dsimp only
      rw [run_bind_eq_ok]
      simp only [run_mapM_eq_ok fun t _ t' e => (B.operand_eq_ok e).1]
      constructor
      · intro e
        obtain ⟨_, ⟨rfl, hall⟩, e⟩ := e
        obtain ⟨i, hid, hcommon⟩ := B.common_of_operands hall
        rw [hcommon] at e
        cases e
        exact ⟨rfl, hall, i, hid, rfl⟩
      · intro e
        obtain ⟨-, hall, i, hid, rfl⟩ := e
        obtain ⟨i', hid', hcommon⟩ := B.common_of_operands hall
        rw [hid] at hid'
        cases hid'
        refine ⟨_, ⟨rfl, hall⟩, ?_⟩
        rw [hcommon]
        rfl

/-- Every question for common relatives comes to an end. -/
theorem Parameterless.exists_nearestCommon (first : App Ty) (rest : List Ty) :
    ∃ r, (h.nearestCommon (rounds + 2) d (.app first :: rest)).run = some r := by
  rw [nearestCommon]
  cases htab : h.tables with
  | none => exact ⟨_, rfl⟩
  | some tables =>
      obtain rfl := B.sound.tables_eq htab
      dsimp only
      obtain ⟨r, hr⟩ := exists_run_mapM (f := h.operand (rounds + 2) d)
        fun t (_ : t ∈ Ty.app first :: rest) => B.exists_operand t
      cases r with
      | error e =>
          rw [ExceptT.run_bind, hr]
          exact ⟨_, rfl⟩
      | ok operands =>
          have hall := (run_mapM_eq_ok fun t _ t' e => (B.operand_eq_ok e).1).1 hr
          obtain ⟨i, -, hcommon⟩ := B.common_of_operands hall.2
          refine ⟨.ok ((h.takenIn d [i] rest).map h.typeAt), run_bind_eq_ok.2 ⟨operands, hr, ?_⟩⟩
          rw [hall.1, hcommon]
          rfl

end Questions

/-! ## 4. Exact answers -/

/-- A node that lies in the direction from the types of all the given applications. -/
def LiesBeyond (h : Hierarchy) (d : Direction) (apps : List (App Ty)) (c : Nat) : Prop :=
  ∀ a ∈ apps, ∃ i, h.idOf? a.head = some i ∧ h.Reaches d i c

theorem Parameterless.liesBeyond_iff (B : Parameterless h) {apps : List (App Ty)}
    (ha : ∀ a ∈ apps, h.isNormalApp a = true) :
    h.LiesBeyond d apps c ↔ h.FromAll d (h.numbers apps) c := by
  unfold LiesBeyond FromAll numbers
  constructor
  · intro hc s hs
    obtain ⟨a, hmem, hid⟩ := List.mem_filterMap.1 hs
    obtain ⟨i, hi, hreach⟩ := hc a hmem
    rw [hi] at hid
    cases hid
    exact hreach
  · intro hc a hmem
    obtain ⟨i, -, hid, -⟩ := B.eq_appAt (ha a hmem)
    exact ⟨i, hid, hc i (List.mem_filterMap.2 ⟨a, hmem, hid⟩)⟩

theorem liesBeyond_perm {apps apps' : List (App Ty)} (hp : apps'.Perm apps) :
    h.LiesBeyond d apps' c ↔ h.LiesBeyond d apps c :=
  forall_congr' fun _ => imp_congr_left hp.mem_iff

/-- The nearest of the nodes that lie beyond everything that takes part. -/
def IsNearestBeyond (h : Hierarchy) (d : Direction) (apps : List (App Ty)) (c : Nat) : Prop :=
  h.LiesBeyond d apps c ∧ ∀ x, h.LiesBeyond d apps x → h.Reaches d x c → x = c

/-- The answer to a question that succeeds lists the nearest nodes, each of them once. -/
theorem Parameterless.exists_lists (B : Parameterless h) {rounds : Nat} {first : App Ty}
    {rest results : List Ty}
    (e : (h.nearestCommon (rounds + 2) d (.app first :: rest)).run = some (.ok results)) :
    ∃ is : List Nat, results = is.map h.typeAt ∧ is.Nodup ∧ (∀ c ∈ is, c < h.nodes.length) ∧
      ∀ c, c ∈ is ↔ h.IsNearestBeyond d (first :: rest.flatMap (members d)) c := by
  obtain ⟨-, hall, i, hid, rfl⟩ := B.nearestCommon_eq_ok.1 e
  have hnormal : ∀ t ∈ Ty.app first :: rest, h.isNormal t = true := fun t ht =>
    (B.operand_eq_ok (hall t ht)).2
  have happs : ∀ a ∈ first :: rest.flatMap (members d), h.isNormalApp a = true := by
    intro a ha
    have ha' : a ∈ (Ty.app first :: rest).flatMap (members d) := ha
    obtain ⟨t, ht, hmem⟩ := List.mem_flatMap.1 ha'
    exact isNormalApp_members (hnormal t ht) a hmem
  have hi : i < h.nodes.length := by
    obtain ⟨j, hj, hid', -⟩ := B.eq_appAt (happs first List.mem_cons_self)
    rw [hid] at hid'
    cases hid'
    exact hj
  have hlists := (lists_self (d := d) B.sound hi).takenIn B (List.cons_ne_nil i [])
    fun t ht => hnormal t (List.mem_cons_of_mem _ ht)
  have hnum : h.numbers (first :: rest.flatMap (members d)) =
      [i] ++ h.numbers (rest.flatMap (members d)) := by
    simp [numbers, hid]
  refine ⟨_, rfl, hlists.nodup, hlists.lt B (by simp), fun c => ?_⟩
  rw [hlists.mem, IsFirst, IsNearestBeyond, ← hnum]
  simp only [B.liesBeyond_iff happs]

/-- **Answers are exact where no type has parameters.** Take a reachable hierarchy in which no type
    has parameters, an application, and further operands that are applications or variables. The
    question for their nearest common relatives comes to an end. If it succeeds, the answer has no
    type twice, and its types are exactly the nearest of those that lie in the direction from
    everything that takes part: the application, the other applications, and the bounds of the
    variables that face the direction. The other operands in another order give the same types. -/
theorem nearestCommon_exact (hr : Reachable h) (hp : ∀ n ∈ h.nodes, n.params = [])
    (d : Direction) (first : App Ty) (rest : List Ty) (rounds : Nat) :
    (∃ answer, (h.nearestCommon (rounds + 2) d (.app first :: rest)).run = some answer) ∧
    ∀ results, (h.nearestCommon (rounds + 2) d (.app first :: rest)).run = some (.ok results) →
      results.Nodup ∧
      (∀ t, t ∈ results ↔ ∃ c n, h.nodes[c]? = some n ∧ t = .app ⟨n.name, []⟩ ∧
        h.LiesBeyond d (first :: rest.flatMap (members d)) c ∧
        ∀ x, h.LiesBeyond d (first :: rest.flatMap (members d)) x → h.Reaches d x c → x = c) ∧
      ∀ rest', rest'.Perm rest → ∃ results',
        (h.nearestCommon (rounds + 2) d (.app first :: rest')).run = some (.ok results') ∧
        results'.Perm results := by
  have B : Parameterless h := ⟨sound_of_reachable hr, fun hn => hp _ hn⟩
  refine ⟨B.exists_nearestCommon first rest, fun results e => ?_⟩
  obtain ⟨is, rfl, hnodup, hlt, hmem⟩ := B.exists_lists e
  refine ⟨B.nodup_map_typeAt hlt hnodup, fun t => ?_, fun rest' hperm => ?_⟩
  · rw [List.mem_map]
    constructor
    · intro ht
      obtain ⟨c, hc, rfl⟩ := ht
      have hnode := List.getElem?_eq_getElem (hlt c hc)
      exact ⟨c, _, hnode, congrArg Ty.app (appAt_of_node hnode), (hmem c).1 hc⟩
    · intro ht
      obtain ⟨c, n, hn, rfl, hc⟩ := ht
      exact ⟨c, (hmem c).2 hc, congrArg Ty.app (appAt_of_node hn)⟩
  · obtain ⟨hfin, hall, i, hid, -⟩ := B.nearestCommon_eq_ok.1 e
    have hall' : ∀ t ∈ Ty.app first :: rest', (h.operand (rounds + 2) d t).run = some (.ok t) :=
      fun t ht => hall t (((hperm.cons _).mem_iff).1 ht)
    have e' := B.nearestCommon_eq_ok.2 ⟨hfin, hall', i, hid, rfl⟩
    obtain ⟨is', heq, hnodup', hlt', hmem'⟩ := B.exists_lists e'
    refine ⟨_, e', ?_⟩
    rw [heq]
    refine List.Perm.map _ ((List.perm_ext_iff_of_nodup hnodup' hnodup).2 fun c => ?_)
    rw [hmem, hmem', IsNearestBeyond, IsNearestBeyond]
    simp only [liesBeyond_perm ((hperm.flatMap_right (members d)).cons first)]

/-- Two kinds of numbers that are both ordered and printed, and a word that is printed only. -/
def numerals : Hierarchy := [
  .declare "ordered" [],
  .declare "printed" [],
  .declare "int" [],
  .declare "float" [],
  .declare "word" [],
  .addParent "int" (.app ⟨"ordered", []⟩),
  .addParent "int" (.app ⟨"printed", []⟩),
  .addParent "float" (.app ⟨"ordered", []⟩),
  .addParent "float" (.app ⟨"printed", []⟩),
  .addParent "word" (.app ⟨"printed", []⟩),
  .finalize].foldl perform empty

/-- What lies above `int` and a type above `float`, and what lies below a printed and an ordered
    type. -/
theorem numerals_exact : Reachable numerals ∧ (∀ n ∈ numerals.nodes, n.params = []) ∧
    (numerals.nearestCommon 2 .up
      [.app ⟨"int", []⟩, .var ⟨"t", [⟨"float", []⟩], []⟩]).run =
        some (.ok [.app ⟨"ordered", []⟩, .app ⟨"printed", []⟩]) ∧
    (∀ t, t ∈ [Ty.app ⟨"ordered", []⟩, .app ⟨"printed", []⟩] ↔
      ∃ c n, numerals.nodes[c]? = some n ∧ t = .app ⟨n.name, []⟩ ∧
        numerals.LiesBeyond .up [⟨"int", []⟩, ⟨"float", []⟩] c ∧
        ∀ x, numerals.LiesBeyond .up [⟨"int", []⟩, ⟨"float", []⟩] x →
          numerals.Reaches .up x c → x = c) ∧
    (numerals.nearestCommon 2 .down
      [.app ⟨"printed", []⟩, .var ⟨"t", [], [⟨"ordered", []⟩]⟩, .app ⟨"printed", []⟩]).run =
        some (.ok [.app ⟨"int", []⟩, .app ⟨"float", []⟩]) ∧
    ∃ results, (numerals.nearestCommon 2 .down
      [.app ⟨"printed", []⟩, .app ⟨"printed", []⟩, .var ⟨"t", [], [⟨"ordered", []⟩]⟩]).run =
        some (.ok results) ∧ results.Perm [.app ⟨"int", []⟩, .app ⟨"float", []⟩] := by
  have hr : Reachable numerals := ⟨_, rfl⟩
  have hp : ∀ n ∈ numerals.nodes, n.params = [] := by decide
  have hup : (numerals.nearestCommon 2 .up
    [.app ⟨"int", []⟩, .var ⟨"t", [⟨"float", []⟩], []⟩]).run =
      some (.ok [.app ⟨"ordered", []⟩, .app ⟨"printed", []⟩]) := rfl
  have hdown : (numerals.nearestCommon 2 .down
    [.app ⟨"printed", []⟩, .var ⟨"t", [], [⟨"ordered", []⟩]⟩, .app ⟨"printed", []⟩]).run =
      some (.ok [.app ⟨"int", []⟩, .app ⟨"float", []⟩]) := rfl
  exact ⟨hr, hp, hup, ((nearestCommon_exact hr hp _ _ _ 0).2 _ hup).2.1, hdown,
    ((nearestCommon_exact hr hp _ _ _ 0).2 _ hdown).2.2 _ (List.Perm.swap _ _ _)⟩

end Hierarchy

end Lineage
