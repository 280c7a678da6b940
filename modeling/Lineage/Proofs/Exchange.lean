import Lineage.Proofs.Contexts
import Lineage.Proofs.Table

/-!
# Operands can be exchanged

The nearest common relatives of two ground instances do not depend on the order of the two. What is
found may come in another order, but it is the same, and nothing is found twice.

The two searches are followed side by side. At each step the one finds what the other one finds, if
this holds of the questions about smaller instances (`Exchanges`): the tables are symmetric, merging
is, and the pairs of carried operands are the same with their sides exchanged. What is kept in the
end is kept by the other search too, because it has the same rivals.

Both searches are taken to come to an end. A rival that decides early may spare one of them a
comparison that the other one has to make, and that is never decided (`nearestCommon_one_order`).
-/

namespace Lineage

open Nearest

/-! ## 1. Lists -/

section Lists

variable {α β γ : Type}

/-- More options at every position give more choices. -/
theorem choices_subset {f : α → Option (List γ)} {g : β → Option (List γ)} {xs : List α}
    {ys : List β} {found found' : List (List γ)}
    (hfg : List.Forall₂ (fun x y => ∀ os os', f x = some os → g y = some os' → os ⊆ os') xs ys)
    (e : choices f xs = some found) (e' : choices g ys = some found') : found ⊆ found' := by
  induction hfg generalizing found found' with
  | nil =>
      cases e
      cases e'
      exact List.Subset.refl _
  | @cons x y xs ys hxy _ ih =>
      rw [choices] at e e'
      obtain ⟨os, hx, e⟩ := Option.bind_eq_some_iff.1 e
      obtain ⟨os', hy, e'⟩ := Option.bind_eq_some_iff.1 e'
      have hsub := hxy os os' hx hy
      cases os with
      | nil =>
          cases e
          exact List.nil_subset _
      | cons o os =>
          cases os' with
          | nil => exact absurd (hsub List.mem_cons_self) List.not_mem_nil
          | cons o' os' =>
              obtain ⟨rests, hrests, e⟩ := Option.bind_eq_some_iff.1 e
              obtain ⟨rests', hrests', e'⟩ := Option.bind_eq_some_iff.1 e'
              cases e
              cases e'
              intro zs hzs
              obtain ⟨z, hz, hzs⟩ := List.mem_flatMap.1 hzs
              obtain ⟨rest, hrest, rfl⟩ := List.mem_map.1 hzs
              exact List.mem_flatMap.2
                ⟨z, hsub hz, List.mem_map.2 ⟨rest, ih hrests hrests' hrest, rfl⟩⟩

/-- What is found for members of a list is found for members of another one. -/
theorem flatten_mapM_subset {f : α → Option (List γ)} {g : β → Option (List γ)} {xs : List α}
    {ys : List β} {xss yss : List (List γ)} (e : xs.mapM f = some xss)
    (e' : ys.mapM g = some yss)
    (hfg : ∀ x ∈ xs, ∃ y ∈ ys, ∀ os os', f x = some os → g y = some os' → os ⊆ os') :
    xss.flatten ⊆ yss.flatten := by
  intro z hz
  obtain ⟨x, hx, os, hos, hz⟩ := mem_flatten_mapM e hz
  obtain ⟨y, hy, hsub⟩ := hfg x hx
  obtain ⟨os', hmem, hos'⟩ := forall₂_exists_right (mapM_eq_some.1 e') hy
  exact List.mem_flatten.2 ⟨os', hmem, hsub os os' hos hos' hz⟩

end Lists

namespace Hierarchy

variable {h : Hierarchy} {tables : Tables}

/-- Instances in which nothing but `_` is open are equivalent only if they are equal. -/
theorem Sketch.eq_of_equivalent {x y : Ty} (hx : h.Sketch x) (hy : h.Sketch y)
    (e : x.equivalent y = true) : x = y := by
  cases x with
  | app a =>
      cases y with
      | app b => rw [beq_iff_eq.1 e]
      | var w => cases e
  | var v =>
      cases y with
      | app b => cases e
      | var w => rw [hx.var, hy.var]

/-- What is found is kept if it is not found again. -/
theorem distinct_subset {found found' : List Ty} (hs : ∀ t ∈ found', h.Sketch t)
    (hsub : found ⊆ found') : distinct found ⊆ distinct found' := by
  intro t ht
  have ht' := hsub (mem_distinct ht)
  obtain ⟨r, hr, e⟩ := exists_mem_distinct ht'
  rwa [Sketch.eq_of_equivalent (hs r (mem_distinct hr)) (hs t ht') e] at hr

/-! ## 2. The steps of the search -/

/-- Exchanging two operands adds no answer, if both questions are answered. -/
def Exchanges (h : Hierarchy) (q : Answers) : Prop :=
  ∀ {d : Direction} {x y : Ty} {xs ys : List Ty}, h.Sketch x → h.Sketch y →
    q.common d [x, y] = some xs → q.common d [y, x] = some ys → xs ⊆ ys

namespace Exchanges

variable {q : Answers} {d : Direction} (E : h.Exchanges q)
include E

theorem combineAt {v : Variance} {x y : Ty} {xs ys : List Ty} (hx : h.Sketch x) (hy : h.Sketch y)
    (e : Nearest.combineAt q d v x y = some xs) (e' : Nearest.combineAt q d v y x = some ys) :
    xs ⊆ ys := by
  cases v with
  | covariant => exact E hx hy e e'
  | contravariant => exact E hx hy e e'
  | invariant =>
      rw [Nearest.combineAt, hx.merge_comm hy] at e
      rw [Nearest.combineAt, e] at e'
      cases e'
      exact List.Subset.refl _

/-- Two instances of one type are combined to the same in either order. -/
theorem combineArgs {n : Node} {a b : App Ty} {as bs : List (App Ty)} (ha : h.Sketch (.app a))
    (hb : h.Sketch (.app b)) (e : Nearest.combineArgs q d n a b = some as)
    (e' : Nearest.combineArgs q d n b a = some bs) : as ⊆ bs := by
  rw [Nearest.combineArgs] at e e'
  obtain ⟨found, hfound, e⟩ := Option.bind_eq_some_iff.1 e
  obtain ⟨found', hfound', e'⟩ := Option.bind_eq_some_iff.1 e'
  cases e
  cases e'
  refine List.map_subset _ (choices_subset ?_ hfound hfound')
  have hswap : (b.args.zip a.args).zipIdx =
      (a.args.zip b.args).zipIdx.map fun e => (e.1.swap, e.2) := by
    rw [← List.zip_swap, List.zipIdx_map]
    rfl
  rw [hswap, List.forall₂_map_right_iff, List.forall₂_same]
  refine forall_mem_zip_zipIdx.2 fun i x y hx hy os os' hos hos' => ?_
  exact E.combineAt (ha.arg hx) (hb.arg hy) hos hos'

variable (S : Sound h) (Q : Stays h h.Sketch q)
include S Q

theorem combineVia {n : Node} {a b : App Ty} {as bs : List (App Ty)} (hn : n ∈ h.nodes)
    (ha : h.Sketch (.app a)) (hb : h.Sketch (.app b))
    (e : Nearest.combineVia h q d a b n = some as) (e' : Nearest.combineVia h q d b a n = some bs) :
    as ⊆ bs := by
  rw [Nearest.combineVia] at e e'
  obtain ⟨xs, hxs, e⟩ := Option.bind_eq_some_iff.1 e
  obtain ⟨ys, hys, e⟩ := Option.bind_eq_some_iff.1 e
  obtain ⟨ass, hass, e⟩ := Option.bind_eq_some_iff.1 e
  cases e
  obtain ⟨ys', hys', e'⟩ := Option.bind_eq_some_iff.1 e'
  obtain ⟨xs', hxs', e'⟩ := Option.bind_eq_some_iff.1 e'
  obtain rfl := Option.some_inj.1 (hys.symm.trans hys')
  obtain rfl := Option.some_inj.1 (hxs.symm.trans hxs')
  obtain ⟨bss, hbss, e'⟩ := Option.bind_eq_some_iff.1 e'
  cases e'
  refine flatten_mapM_subset hass hbss fun xy hxy => ?_
  obtain ⟨x, hx, hxy⟩ := List.mem_flatMap.1 hxy
  obtain ⟨y, hy, rfl⟩ := List.mem_map.1 hxy
  refine ⟨(y, x), List.mem_flatMap.2 ⟨y, hy, List.mem_map.2 ⟨x, hx, rfl⟩⟩, fun os os' => ?_⟩
  exact E.combineArgs (searchClosed_sketch.carry Q S hn ha hxs hx).2
    (searchClosed_sketch.carry Q S hn hb hys hy).2

variable (htab : h.tables = some tables)
include htab

/-- The tables give the same types for two operands in either order. -/
theorem combineApps {a b : App Ty} {as bs : List (App Ty)} (ha : h.Sketch (.app a))
    (hb : h.Sketch (.app b)) (e : Nearest.combineApps h tables q d a b = some as)
    (e' : Nearest.combineApps h tables q d b a = some bs) : as ⊆ bs := by
  obtain ⟨⟨n, hn, -⟩, -⟩ := over_app_iff.1 ha
  obtain ⟨⟨m, hm, -⟩, -⟩ := over_app_iff.1 hb
  have hcells : tables.get d n.id m.id = tables.get d m.id n.id :=
    get_tables_comm S htab (List.getElem?_eq_some_iff.1 (S.node_of_find hn)).1
      (List.getElem?_eq_some_iff.1 (S.node_of_find hm)).1
  simp only [Nearest.combineApps, S.idOf?_of_find hn, S.idOf?_of_find hm] at e e'
  rw [← hcells] at e'
  obtain ⟨ass, hass, e⟩ := Option.bind_eq_some_iff.1 e
  obtain ⟨bss, hbss, e'⟩ := Option.bind_eq_some_iff.1 e'
  cases e
  cases e'
  refine flatten_mapM_subset hass hbss fun t ht => ⟨t, ht, fun os os' hos hos' => ?_⟩
  obtain ⟨i, -, hi⟩ := List.mem_filterMap.1 ht
  exact E.combineVia S Q (List.mem_of_getElem? hi) ha hb hos hos'

theorem combine {x y : Ty} {xs ys : List Ty} (hx : h.Sketch x) (hy : h.Sketch y)
    (e : Nearest.combine h tables q d x y = some xs)
    (e' : Nearest.combine h tables q d y x = some ys) : xs ⊆ ys := by
  -- where a side is `_`, both orders are one computation
  have hsame (hc : Nearest.combine h tables q d x y = Nearest.combine h tables q d y x) :
      xs ⊆ ys := by
    rw [e, e', Option.some_inj] at hc
    rw [hc]
    exact List.Subset.refl _
  cases x with
  | app a =>
      cases y with
      | app b =>
          obtain ⟨as, has, e⟩ := Option.bind_eq_some_iff.1 e
          obtain ⟨bs, hbs, e'⟩ := Option.bind_eq_some_iff.1 e'
          cases e
          cases e'
          exact List.map_subset _ (E.combineApps S Q htab hx hy has hbs)
      | var w => exact hsame rfl
  | var v =>
      cases y with
      | app b => exact hsame rfl
      | var w => exact hsame (by rw [hx.var, hy.var])

end Exchanges

/-- Among the same results the same are nearest. -/
theorem keepNearest_subset {q : Answers} {d : Direction} {rs rs' xs ys : List Ty} (hrs : rs ⊆ rs')
    (hrs' : rs' ⊆ rs) (e : keepNearest h q d rs = some xs) (e' : keepNearest h q d rs' = some ys) :
    xs ⊆ ys := by
  intro t ht
  obtain ⟨hmem, hnear⟩ := keep_eq_some e t ht
  obtain ⟨near, hnear', hkept⟩ := mem_keep e' (hrs hmem)
  rw [isNearest_of_subset hrs' hnear] at hnear'
  exact hkept (Option.some_inj.1 hnear').symm

/-- Nothing is found twice. -/
theorem nodup_common {k : Nat} {d : Direction} {x y : Ty} {results : List Ty}
    (e : Nearest.common h tables k d [x, y] = some results) : results.Nodup := by
  cases k with
  | zero => cases e
  | succ k =>
      obtain ⟨found, -, e⟩ := common_pair.1 e
      exact (nodup_distinct found).sublist (keep_sublist e)

/-- **Exchanging two operands adds no answer**, in any number of rounds. -/
theorem exchanges_answers (S : Sound h) (htab : h.tables = some tables) (k : Nat) :
    h.Exchanges (answers h tables k) := by
  induction k with
  | zero =>
      intro d x y xs ys hx hy e
      cases e
  | succ k ih =>
      intro d x y xs ys hx hy e e'
      obtain ⟨found, hfound, e⟩ := common_pair.1 e
      obtain ⟨found', hfound', e'⟩ := common_pair.1 e'
      have Q : Stays h h.Sketch (answers h tables k) := searchClosed_sketch.stays S k
      have hs := searchClosed_sketch.combine Q S hx hy hfound
      have hs' := searchClosed_sketch.combine Q S hy hx hfound'
      exact keepNearest_subset (distinct_subset hs' (ih.combine S Q htab hx hy hfound hfound'))
        (distinct_subset hs (ih.combine S Q htab hy hx hfound' hfound)) e e'

/-- **The order of two operands does not matter.** In every finalized hierarchy the nearest common
    ancestors of two ground instances are the same instances in either order, each once, and so are
    their nearest common descendants, provided that both questions are answered. -/
theorem nearestCommon_comm (hr : Reachable h) (hf : h.isFinalized = true) {a b : Ty}
    (ha : h.isGround a = true) (hb : h.isGround b = true) (d : Direction) {k m : Nat}
    (hk : (h.nearestCommon k d [a, b]).run ≠ none)
    (hm : (h.nearestCommon m d [b, a]).run ≠ none) :
    ∃ xs ys, (h.nearestCommon k d [a, b]).run = some (.ok xs) ∧
      (h.nearestCommon m d [b, a]).run = some (.ok ys) ∧ xs.Nodup ∧ ys.Nodup ∧ xs.Perm ys := by
  have S := sound_of_reachable hr
  obtain ⟨tables, htab⟩ := Option.isSome_iff_exists.1 hf
  have hsa : h.Sketch a := (isGround_iff.1 ha).toOver
  have hsb : h.Sketch b := (isGround_iff.1 hb).toOver
  rw [nearestCommon_pair_run htab hsa hsb, ne_eq, Option.map_eq_none_iff] at hk
  rw [nearestCommon_pair_run htab hsb hsa, ne_eq, Option.map_eq_none_iff] at hm
  obtain ⟨xs, hxs⟩ := Option.ne_none_iff_exists'.1 hk
  obtain ⟨ys, hys⟩ := Option.ne_none_iff_exists'.1 hm
  have hx := nodup_common hxs
  have hy := nodup_common hys
  -- in as many rounds as the longer search takes, both are answered
  have hxs' := common_keeps h tables (Nat.le_max_left k m) d [a, b] hxs
  have hys' := common_keeps h tables (Nat.le_max_right k m) d [b, a] hys
  have E : h.Exchanges (answers h tables (max k m)) := exchanges_answers S htab _
  refine ⟨xs, ys, (nearestCommon_pair_eq_ok htab hsa hsb).2 hxs,
    (nearestCommon_pair_eq_ok htab hsb hsa).2 hys, hx, hy, ?_⟩
  refine (List.perm_ext_iff_of_nodup hx hy).2 fun t => ⟨fun ht => ?_, fun ht => ?_⟩
  · exact E hsa hsb hxs' hys' ht
  · exact E hsb hsa hys' hxs' ht

/-- Files and sockets can be read and written. Pipes are inputs and outputs. -/
def pipes : Hierarchy := [
  .declare "readable" [],
  .declare "writable" [],
  .declare "file" [],
  .declare "socket" [],
  .declare "input" [⟨"x", .covariant⟩, ⟨"y", .covariant⟩],
  .declare "output" [⟨"x", .covariant⟩, ⟨"y", .covariant⟩],
  .declare "pipe" [⟨"a", .covariant⟩, ⟨"b", .covariant⟩],
  .addParent "file" (bareType "readable"),
  .addParent "file" (bareType "writable"),
  .addParent "socket" (bareType "readable"),
  .addParent "socket" (bareType "writable"),
  .addParent "pipe" (.app ⟨"input", [.var (.free "a"), .var (.free "a")]⟩),
  .addParent "pipe" (.app ⟨"output", [.var (.free "b"), .var (.free "b")]⟩),
  .finalize].foldl perform empty

/-- Something of what can be read and what can be written. -/
def readWrite (name : String) : Ty := .app ⟨name, [bareType "readable", bareType "writable"]⟩

/-- A pipe from one thing to another. -/
def pipeOf (a b : String) : Ty := .app ⟨"pipe", [bareType a, bareType b]⟩

/-- There are two ways to take either operand down to a pipe. Which of them vary faster depends on
    the order of the operands, and the pipes that are found do not. -/
theorem pipes_exchanged : ∃ xs ys,
    xs = [pipeOf "file" "file", pipeOf "file" "socket", pipeOf "socket" "file",
      pipeOf "socket" "socket"] ∧
    ys = [pipeOf "file" "file", pipeOf "socket" "file", pipeOf "file" "socket",
      pipeOf "socket" "socket"] ∧
    (pipes.nearestCommon 9 .down [readWrite "input", readWrite "output"]).run = some (.ok xs) ∧
    (pipes.nearestCommon 9 .down [readWrite "output", readWrite "input"]).run = some (.ok ys) ∧
    xs.Nodup ∧ ys.Nodup ∧ xs.Perm ys := by
  have e : (pipes.nearestCommon 9 .down [readWrite "input", readWrite "output"]).run = some (.ok
      [pipeOf "file" "file", pipeOf "file" "socket", pipeOf "socket" "file",
        pipeOf "socket" "socket"]) := rfl
  have e' : (pipes.nearestCommon 9 .down [readWrite "output", readWrite "input"]).run = some (.ok
      [pipeOf "file" "file", pipeOf "socket" "file", pipeOf "file" "socket",
        pipeOf "socket" "socket"]) := rfl
  obtain ⟨xs, ys, hxs, hys, hperm⟩ := nearestCommon_comm (h := pipes) (a := readWrite "input")
    (b := readWrite "output") ⟨_, rfl⟩ rfl rfl rfl .down (k := 9) (m := 9) (by simp [e])
    (by simp [e'])
  refine ⟨xs, ys, ?_, ?_, hxs, hys, hperm⟩
  · rw [e] at hxs
    cases hxs
    rfl
  · rw [e'] at hys
    cases hys
    rfl

/-! ## 3. One order without an answer -/

/-- Taps are pipes of one thing. A device consumes something, a handler consumes what it is for, and
    a probe is a device that handles handlers of probes. -/
def taps : Hierarchy := [
  .declare "readable" [],
  .declare "writable" [],
  .declare "file" [],
  .declare "socket" [],
  .declare "consumer" [⟨"t", .contravariant⟩],
  .declare "handler" [⟨"t", .contravariant⟩],
  .declare "device" [],
  .declare "relay" [⟨"t", .invariant⟩],
  .declare "probe" [],
  .declare "input" [⟨"x", .covariant⟩, ⟨"y", .covariant⟩],
  .declare "output" [⟨"x", .covariant⟩, ⟨"y", .covariant⟩],
  .declare "tap" [⟨"a", .covariant⟩],
  .addParent "file" (bareType "readable"),
  .addParent "file" (bareType "writable"),
  .addParent "socket" (bareType "readable"),
  .addParent "socket" (bareType "writable"),
  .addParent "handler" (.app ⟨"consumer", [.var (.free "t")]⟩),
  .addParent "handler" (bareType "socket"),
  .addParent "device" (bareType "consumer"),
  .addParent "device" (bareType "file"),
  .addParent "relay" (.app ⟨"handler", [.var (.free "t")]⟩),
  .addParent "relay" (bareType "file"),
  .addParent "probe" (bareType "device"),
  .addParent "probe" (.app ⟨"relay", [.app ⟨"handler", [bareType "probe"]⟩]⟩),
  .addParent "tap" (.app ⟨"input", [.var (.free "a"), .var (.free "a")]⟩),
  .addParent "tap" (.app ⟨"output", [.var (.free "a"), .var (.free "a")]⟩),
  .finalize].foldl perform empty

/-- Something of a probe. -/
def ofProbe (name : String) : App Ty := ⟨name, [bareType "probe"]⟩

/-- A tap of something. -/
def tapOf (t : Ty) : App Ty := ⟨"tap", [t]⟩

/-- An output of what consumes probes and can be read. -/
def probeOutput : Ty := .app ⟨"output", [.app (ofProbe "consumer"), bareType "readable"]⟩

/-- A single argument decides alone. -/
theorem appFulfillsWith_single {a b : App Ty} {i : Nat} {v : Variance} {x y : Ty}
    (hn : (h.find? b.head).map (fun n => (n.id, n.variance 0)) = some (i, v))
    (hx : (h.raise a i).map App.args = some [x]) (hy : b.args = [y])
    (rec : Ty → Ty → Option Bool) : h.appFulfillsWith rec a b = agreeAt rec v x y := by
  obtain ⟨n, hfind, e⟩ := Option.map_eq_some_iff.1 hn
  obtain ⟨rfl, rfl⟩ := Prod.mk.inj e
  obtain ⟨raised, hraise, hx⟩ := Option.map_eq_some_iff.1 hx
  have hargs : argsAgree rec n ([] ++ [x]) ([] ++ [y]) = agreeAt rec (n.variance 0) x y :=
    argsAgree_around fun t ht => by cases ht
  rw [appFulfillsWith, hfind]
  dsimp only
  rw [hraise]
  dsimp only
  rw [hx, hy]
  exact hargs

/-- Whether a probe is a handler of probes is asked again in every round: it handles handlers of
    probes, and handlers are contravariant. -/
theorem probe_handler_unanswered (k : Nat) :
    taps.fulfills k (bareType "probe") (.app (ofProbe "handler")) = none := by
  have hround := appFulfillsWith_single (h := taps) (a := ⟨"probe", []⟩) (b := ofProbe "handler")
    (i := 5) (v := .contravariant) (x := .app (ofProbe "handler")) (by decide +kernel)
    (by decide +kernel) rfl
  induction k with
  | zero => rfl
  | succ k ih =>
      rw [fulfills, bareType, fulfillsWith, hround]
      exact ih

/-- So nothing is said about taps of probes and taps of such handlers. -/
theorem probe_tap_unanswered (k : Nat) :
    taps.appFulfillsWith (taps.fulfills k) (tapOf (bareType "probe"))
      (tapOf (.app (ofProbe "handler"))) = none := by
  rw [appFulfillsWith_single (h := taps) (i := 11) (v := .covariant) (x := bareType "probe")
    (by decide +kernel) (by decide +kernel) rfl]
  exact probe_handler_unanswered k

/-- The taps that are found, in the order in which they are found from an output. -/
def foundTaps : List Ty := [.app (ofProbe "relay"), .app (ofProbe "handler"), bareType "device",
  bareType "probe"].map fun t => .app (tapOf t)

/-- The tap of a probe is compared with that of a relay and then with that of a handler, and the
    second comparison is not answered. -/
theorem probe_tap_undecided (k : Nat) :
    isNearest taps (answers taps (.build taps.nodes) (k + 2)) .down foundTaps
      (.app (tapOf (bareType "probe"))) = none := by
  have hkept := answers_kept taps (.build taps.nodes) (Nat.le_add_left 2 k)
  have hrelay : strictlyFulfills taps (answers taps (.build taps.nodes) 2)
      (tapOf (bareType "probe")) (tapOf (.app (ofProbe "relay"))) = some false := by
    decide +kernel
  have hhandler : strictlyFulfills taps (answers taps (.build taps.nodes) (k + 2))
      (tapOf (bareType "probe")) (tapOf (.app (ofProbe "handler"))) = none := by
    show (taps.appFulfillsWith (taps.fulfills (k + 2)) _ _ >>= _) = none
    rw [probe_tap_unanswered]
    rfl
  have happs : foundTaps.filterMap Ty.app? = [tapOf (.app (ofProbe "relay"))] ++
      tapOf (.app (ofProbe "handler")) :: [tapOf (bareType "device"), tapOf (bareType "probe")] :=
    rfl
  rw [isNearest, happs, anyM_eq_none]
  · rfl
  · intro y hy
    rw [List.mem_singleton.1 hy, if_neg (by decide)]
    exact strictlyFulfills_keeps hkept _ _ hrelay
  · rw [if_neg (by decide)]
    exact hhandler

/-- **Only one order may be answered.** From an input, taps of devices are found before those of
    handlers, and a probe is a device. From an output, a probe is compared with a handler first, and
    the question whether it is one comes back without end. -/
theorem nearestCommon_one_order : Reachable taps ∧ taps.isFinalized = true ∧
    taps.isGround (readWrite "input") = true ∧ taps.isGround probeOutput = true ∧
    (taps.nearestCommon 3 .down [readWrite "input", probeOutput]).run =
      some (.ok [.app (tapOf (bareType "device")), .app (tapOf (.app (ofProbe "handler")))]) ∧
    ∀ k, (taps.nearestCommon k .down [probeOutput, readWrite "input"]).run = none := by
  have hr : Reachable taps := ⟨_, rfl⟩
  have hf : taps.isFinalized = true := by decide +kernel
  have hx : taps.isGround (readWrite "input") = true := by decide +kernel
  have hy : taps.isGround probeOutput = true := by decide +kernel
  have hsx : taps.Sketch (readWrite "input") := (isGround_iff.1 hx).toOver
  have hsy : taps.Sketch probeOutput := (isGround_iff.1 hy).toOver
  obtain ⟨tables, htab⟩ := Option.isSome_iff_exists.1 hf
  obtain rfl := (sound_of_reachable hr).tables_eq htab
  refine ⟨hr, hf, hx, hy, ?_, fun k => ?_⟩
  · rw [nearestCommon_pair_eq_ok htab hsx hsy]
    decide +kernel
  · rw [nearestCommon_pair_run htab hsy hsx, Option.map_eq_none_iff,
      Option.eq_none_iff_forall_ne_some]
    intro results e
    have hfound : combine taps (.build taps.nodes) (answers taps (.build taps.nodes) 2) .down
        probeOutput (readWrite "input") = some foundTaps := by
      decide +kernel
    have e := common_keeps taps _ (Nat.le_add_right k 3) .down _ e
    obtain ⟨found, hfound', e⟩ := common_pair.1 e
    have hkept := answers_kept taps (.build taps.nodes) (Nat.le_add_left 2 k)
    rw [combine_keeps hkept _ _ _ hfound, Option.some_inj] at hfound'
    subst hfound'
    obtain ⟨near, hnear, -⟩ := mem_keep e (x := .app (tapOf (bareType "probe"))) (by decide +kernel)
    have hdistinct : distinct foundTaps = foundTaps := by decide +kernel
    rw [hdistinct, probe_tap_undecided] at hnear
    cases hnear

end Hierarchy

end Lineage
