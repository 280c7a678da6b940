import Mathlib.Data.List.Forall2

/-!
# Results of computations that may fail

When a computation in `Except` or `Option` gives a result, so did each of its parts. The lemmas
here say it for a sequence of two steps and for runs over lists. In `ExceptT` over `Option` a
computation may come to an end without a result.
-/

namespace Lineage

variable {α β ε : Type}

theorem bind_eq_ok {x : Except ε α} {f : α → Except ε β} {b : β} :
    (x >>= f) = .ok b ↔ ∃ a, x = .ok a ∧ f a = .ok b := by
  cases x with
  | error e => simp [bind, Except.bind]
  | ok a => simp [bind, Except.bind]

theorem exists_bind_eq_ok {x : Except ε α} {f : α → Except ε β} (hx : ∃ a, x = .ok a)
    (hf : ∀ a, ∃ b, f a = .ok b) : ∃ b, (x >>= f) = .ok b := by
  obtain ⟨a, ha⟩ := hx
  obtain ⟨b, hb⟩ := hf a
  exact ⟨b, bind_eq_ok.2 ⟨a, ha, hb⟩⟩

theorem pure_eq_ok {a b : α} : (pure a : Except ε α) = .ok b ↔ a = b := by
  simp [pure, Except.pure]

theorem mapError_eq_ok {ε' : Type} {x : Except ε α} {f : ε → ε'} {a : α} :
    x.mapError f = .ok a ↔ x = .ok a := by
  cases x <;> simp [Except.mapError]

/-- The result of a computation that is known to succeed. -/
theorem eq_ok_getD {x : Except ε α} (hx : x.isOk = true) (a : α) :
    x = .ok (x.toOption.getD a) := by
  cases x with
  | error e => cases hx
  | ok b => rfl

/-- A run in `Except` succeeds if it does on every member. -/
theorem mapM_eq_ok {f : α → Except ε β} : ∀ {xs : List α} {ys : List β},
    xs.mapM f = .ok ys ↔ List.Forall₂ (fun x y => f x = .ok y) xs ys
  | [], ys => by
      rw [List.mapM_nil, pure_eq_ok, List.forall₂_nil_left_iff]
      exact eq_comm
  | x :: xs, ys => by
      rw [List.mapM_cons, bind_eq_ok, List.forall₂_cons_left_iff]
      constructor
      · rintro ⟨y, hy, h⟩
        obtain ⟨zs, hzs, h⟩ := bind_eq_ok.1 h
        exact ⟨y, zs, hy, mapM_eq_ok.1 hzs, (pure_eq_ok.1 h).symm⟩
      · rintro ⟨y, zs, hy, hzs, rfl⟩
        exact ⟨y, hy, bind_eq_ok.2 ⟨zs, mapM_eq_ok.2 hzs, rfl⟩⟩

theorem exists_mapM_eq_ok {f : α → Except ε β} : ∀ {xs : List α}, (∀ x ∈ xs, ∃ y, f x = .ok y) →
    ∃ ys, xs.mapM f = .ok ys
  | [], _ => ⟨[], rfl⟩
  | x :: xs, hf => by
      rw [List.forall_mem_cons] at hf
      obtain ⟨y, hy⟩ := hf.1
      obtain ⟨ys, hys⟩ := exists_mapM_eq_ok hf.2
      exact ⟨y :: ys, mapM_eq_ok.2 (.cons hy (mapM_eq_ok.1 hys))⟩

/-- A run in `Option` gives a result if it does on every member. -/
theorem mapM_eq_some {f : α → Option β} : ∀ {xs : List α} {ys : List β},
    xs.mapM f = some ys ↔ List.Forall₂ (fun x y => f x = some y) xs ys
  | [], ys => by
      rw [List.mapM_nil, List.forall₂_nil_left_iff]
      exact Option.some_inj.trans eq_comm
  | x :: xs, ys => by
      rw [List.mapM_cons, List.forall₂_cons_left_iff]
      constructor
      · intro h
        obtain ⟨y, hy, h⟩ := Option.bind_eq_some_iff.1 h
        obtain ⟨zs, hzs, h⟩ := Option.bind_eq_some_iff.1 h
        exact ⟨y, zs, hy, mapM_eq_some.1 hzs, (Option.some_inj.1 h).symm⟩
      · rintro ⟨y, zs, hy, hzs, rfl⟩
        exact Option.bind_eq_some_iff.2 ⟨y, hy,
          Option.bind_eq_some_iff.2 ⟨zs, mapM_eq_some.2 hzs, rfl⟩⟩

theorem exists_mapM_eq_some {f : α → Option β} : ∀ {xs : List α}, (∀ x ∈ xs, ∃ y, f x = some y) →
    ∃ ys, xs.mapM f = some ys
  | [], _ => ⟨[], rfl⟩
  | x :: xs, hf => by
      rw [List.forall_mem_cons] at hf
      obtain ⟨y, hy⟩ := hf.1
      obtain ⟨ys, hys⟩ := exists_mapM_eq_some hf.2
      exact ⟨y :: ys, mapM_eq_some.2 (.cons hy (mapM_eq_some.1 hys))⟩

/-- Members of two lists that correspond to each other. -/
theorem forall₂_exists_right {R : α → β → Prop} {xs : List α} {ys : List β}
    (hR : List.Forall₂ R xs ys) {x : α} (hx : x ∈ xs) : ∃ y ∈ ys, R x y := by
  induction hR with
  | nil => cases hx
  | cons h _ ih =>
      rcases List.mem_cons.1 hx with rfl | hx
      · exact ⟨_, List.mem_cons_self, h⟩
      · obtain ⟨y, hy, h⟩ := ih hx
        exact ⟨y, List.mem_cons_of_mem _ hy, h⟩

theorem forall₂_exists_left {R : α → β → Prop} {xs : List α} {ys : List β}
    (hR : List.Forall₂ R xs ys) {y : β} (hy : y ∈ ys) : ∃ x ∈ xs, R x y := by
  obtain ⟨x, hx, h⟩ := forall₂_exists_right (List.Forall₂.flip (R := flip R) hR) hy
  exact ⟨x, hx, h⟩

theorem forall₂_getElem?_right {R : α → β → Prop} {xs : List α} {ys : List β}
    (hR : List.Forall₂ R xs ys) {i : Nat} {y : β} (hy : ys[i]? = some y) :
    ∃ x, xs[i]? = some x ∧ R x y := by
  obtain ⟨hj, rfl⟩ := List.getElem?_eq_some_iff.1 hy
  have hi : i < xs.length := hR.length_eq ▸ hj
  exact ⟨xs[i], List.getElem?_eq_getElem hi, hR.get hi hj⟩

/-- The members of two lists at the same positions. -/
theorem forall_mem_zip_zipIdx {xs : List α} {ys : List β} {P : (α × β) × Nat → Prop} :
    (∀ e ∈ (xs.zip ys).zipIdx, P e) ↔
      ∀ (i : Nat) (x : α) (y : β), xs[i]? = some x → ys[i]? = some y → P ((x, y), i) := by
  constructor
  · intro hP i x y hx hy
    exact hP _ (List.mem_zipIdx_iff_getElem?.2 (List.getElem?_zip_eq_some.2 ⟨hx, hy⟩))
  · intro hP e he
    obtain ⟨hx, hy⟩ := List.getElem?_zip_eq_some.1 (List.mem_zipIdx_iff_getElem?.1 he)
    exact hP _ _ _ hx hy

/-- A test of all members comes out true if it does on every member. -/
theorem allM_eq_true {p : α → Option Bool} : ∀ {xs : List α},
    xs.allM p = some true ↔ ∀ x ∈ xs, p x = some true
  | [] => by simp [List.allM]
  | x :: xs => by
      have ih : xs.allM p = some true ↔ ∀ x ∈ xs, p x = some true := allM_eq_true
      rw [List.forall_mem_cons, ← ih, List.allM]
      cases h : p x with
      | none => simp
      | some b => cases b <;> simp

/-! ## Computations that may also come to no end -/

/-- Two steps come to an end if both do. -/
theorem exists_run_bind {x : ExceptT ε Option α} {f : α → ExceptT ε Option β}
    (hx : ∃ r, x.run = some r) (hf : ∀ a, ∃ r, (f a).run = some r) :
    ∃ r, (x >>= f).run = some r := by
  obtain ⟨r, hr⟩ := hx
  rw [ExceptT.run_bind, hr]
  cases r with
  | error e => exact ⟨_, rfl⟩
  | ok a => exact hf a

theorem run_bind_eq_ok {x : ExceptT ε Option α} {f : α → ExceptT ε Option β} {b : β} :
    (x >>= f).run = some (.ok b) ↔ ∃ a, x.run = some (.ok a) ∧ (f a).run = some (.ok b) := by
  rw [ExceptT.run_bind]
  cases hx : x.run with
  | none => simp
  | some r =>
      cases r with
      | error e => simp
      | ok a => simp

theorem run_liftExcept (x : Except ε α) : (liftExcept x : ExceptT ε Option α).run = some x := by
  cases x <;> rfl

theorem exists_run_forM {f : α → ExceptT ε Option Unit} {xs : List α}
    (hf : ∀ x ∈ xs, ∃ r, (f x).run = some r) : ∃ r, (xs.forM f).run = some r := by
  induction xs with
  | nil => exact ⟨_, rfl⟩
  | cons x xs ih =>
      rw [List.forall_mem_cons] at hf
      exact exists_run_bind hf.1 fun _ => ih hf.2

theorem exists_run_mapM {f : α → ExceptT ε Option β} {xs : List α}
    (hf : ∀ x ∈ xs, ∃ r, (f x).run = some r) : ∃ r, (xs.mapM f).run = some r := by
  induction xs with
  | nil => exact ⟨_, rfl⟩
  | cons x xs ih =>
      rw [List.forall_mem_cons] at hf
      rw [List.mapM_cons]
      exact exists_run_bind hf.1 fun _ => exists_run_bind (ih hf.2) fun _ => ⟨_, rfl⟩

/-- A run that gives results gives one for every member. -/
theorem forall₂_of_run_mapM {f : α → ExceptT ε Option β} {xs : List α} {ys : List β}
    (e : (xs.mapM f).run = some (.ok ys)) :
    List.Forall₂ (fun x y => (f x).run = some (.ok y)) xs ys := by
  induction xs generalizing ys with
  | nil =>
      cases e
      exact .nil
  | cons x xs ih =>
      rw [List.mapM_cons] at e
      obtain ⟨y, hy, e⟩ := run_bind_eq_ok.1 e
      obtain ⟨zs, hzs, e⟩ := run_bind_eq_ok.1 e
      cases e
      exact .cons hy (ih hzs)

/-- A step that only checks, and another one. -/
theorem run_check_eq_ok {x : ExceptT ε Option Unit} {f : Unit → ExceptT ε Option β} {b : β} :
    (x >>= f).run = some (.ok b) ↔ x.run = some (.ok ()) ∧ (f ()).run = some (.ok b) := by
  rw [run_bind_eq_ok]
  constructor
  · rintro ⟨_, hx, hf⟩
    exact ⟨hx, hf⟩
  · intro hxf
    exact ⟨(), hxf⟩

theorem run_forM_eq_ok {f : α → ExceptT ε Option Unit} {xs : List α} :
    (xs.forM f).run = some (.ok ()) ↔ ∀ x ∈ xs, (f x).run = some (.ok ()) := by
  induction xs with
  | nil => exact ⟨fun _ => nofun, fun _ => rfl⟩
  | cons x xs ih =>
      show (f x >>= fun _ => xs.forM f).run = _ ↔ _
      rw [run_check_eq_ok, List.forall_mem_cons, ih]

/-- A run whose steps give nothing but what they are given. -/
theorem run_mapM_eq_ok {f : α → ExceptT ε Option α} {xs ys : List α}
    (hf : ∀ x ∈ xs, ∀ y, (f x).run = some (.ok y) → y = x) :
    (xs.mapM f).run = some (.ok ys) ↔ ys = xs ∧ ∀ x ∈ xs, (f x).run = some (.ok x) := by
  induction xs generalizing ys with
  | nil =>
      rw [List.mapM_nil]
      simp [eq_comm]
  | cons x xs ih =>
      rw [List.forall_mem_cons] at hf
      rw [List.mapM_cons, run_bind_eq_ok, List.forall_mem_cons]
      constructor
      · intro he
        obtain ⟨y, hy, hrest⟩ := he
        obtain ⟨zs, hzs, hout⟩ := run_bind_eq_ok.1 hrest
        obtain ⟨hzx, hall⟩ := (ih hf.2).1 hzs
        have hyx : y = x := hf.1 y hy
        cases hout
        rw [hyx] at hy ⊢
        rw [hzx]
        exact ⟨rfl, hy, hall⟩
      · intro he
        obtain ⟨rfl, hx, hall⟩ := he
        exact ⟨x, hx, run_bind_eq_ok.2 ⟨xs, (ih hf.2).2 ⟨rfl, hall⟩, rfl⟩⟩

end Lineage
