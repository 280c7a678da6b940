import Lineage.Hierarchy.Dump
import Lineage.Proofs.Legible
import Lineage.Proofs.Rebuild

/-!
# Reloading a dump

An entry of a dump can be read as a declaration: the type with its parameters, and the parents that
are recorded, written out. A dump without `_` in its parents declares the hierarchy that it was
taken from, unless a parent is nested deeper or written longer than a text may be. Such a parent
needs no such text: it comes about where arguments are put in, or where two records are joined. The
texts that are given have to be shorter than 4 GiB, since longer ones may be misread.

* `ofDeclarations_eq_ok`: what declarations build, with their texts read first;
* `ofDeclarations_entries`: what a dump builds.
-/

namespace Lineage

open Lineage.Expr Lineage.Text

/-- An entry as a declaration, its parents written out. -/
def Entry.declaration (e : Entry) : Declaration := ⟨e.name, e.params, e.parents.map App.text⟩

namespace Hierarchy

variable {h h' : Hierarchy} {decls : List Declaration} {texts : List (String × String)}
  {links : List (String × Ty)}

/-! ## 1. Declarations as requests -/

/-- The parents of all declarations, each beside the type that is to have it. -/
def writtenParents (decls : List Declaration) : List (String × String) :=
  decls.flatMap fun d => d.parents.map fun text => (d.name, text)

/-- The requests are what the texts say. -/
def ReadAs (texts : List (String × String)) (links : List (String × Ty)) : Prop :=
  List.Forall₂ (fun text link => link.1 = text.1 ∧ Ty.ofText text.2 = some (.ok link.2))
    texts links

theorem ReadAs.map_fst (hread : ReadAs texts links) : links.map Prod.fst = texts.map Prod.fst := by
  induction hread with
  | nil => rfl
  | cons hl _ ih => rw [List.map_cons, List.map_cons, hl.1, ih]

theorem addParentText_eq_ok {name text : String} :
    (h.addParentText name text).run = some (.ok h') ↔
      ∃ t, Ty.ofText text = some (.ok t) ∧ h.addParent name t = .ok h' := by
  unfold addParentText
  cases Ty.ofText text with
  | none => simp
  | some r =>
      cases r with
      | error report => simp
      | ok t => simp [run_liftExcept]

/-- The hierarchy in which types have parents given as texts, one after the other. -/
def addTexts (h : Hierarchy) (texts : List (String × String)) : ExceptT Error Option Hierarchy :=
  texts.foldlM (fun h text => h.addParentText text.1 text.2) h

theorem addTexts_eq_ok : (h.addTexts texts).run = some (.ok h') ↔
    ∃ links, ReadAs texts links ∧ h.addParents links = .ok h' := by
  induction texts generalizing h with
  | nil =>
      constructor
      · intro e
        cases e
        exact ⟨[], .nil, rfl⟩
      · rintro ⟨links, hread, e⟩
        cases hread
        cases e
        rfl
  | cons text texts ih =>
      rw [addTexts, List.foldlM_cons, run_bind_eq_ok]
      constructor
      · rintro ⟨k, ek, e⟩
        obtain ⟨t, ht, ek⟩ := addParentText_eq_ok.1 ek
        obtain ⟨links, hread, e⟩ := ih.1 e
        exact ⟨(text.1, t) :: links, .cons ⟨rfl, ht⟩ hread, addParents_cons.2 ⟨k, ek, e⟩⟩
      · rintro ⟨links, hread, e⟩
        obtain ⟨link, links, ⟨hname, ht⟩, hrest, rfl⟩ := List.forall₂_cons_left_iff.1 hread
        obtain ⟨k, ek, e⟩ := addParents_cons.1 e
        rw [hname] at ek
        exact ⟨k, addParentText_eq_ok.2 ⟨link.2, ht, ek⟩, ih.2 ⟨links, hrest, e⟩⟩

theorem foldlM_parents : decls.foldlM (fun h d => d.parents.foldlM (·.addParentText d.name ·) h) h =
    h.addTexts (writtenParents decls) := by
  induction decls generalizing h with
  | nil => rfl
  | cons d decls ih =>
      rw [addTexts, writtenParents, List.flatMap_cons, List.foldlM_append, List.foldlM_cons,
        List.foldlM_map]
      refine congrArg _ (funext fun k => ?_)
      exact ih

/-- **What declarations build**: the types, then the parents in the order of the texts. -/
theorem ofDeclarations_eq_ok : (ofDeclarations decls).run = some (.ok h) ↔ ∃ h₀ links k,
    declareAll (decls.map fun d => (d.name, d.params)) = .ok h₀ ∧
      ReadAs (writtenParents decls) links ∧ h₀.addParents links = .ok k ∧ k.finalize = h := by
  unfold ofDeclarations declareAll
  simp only [List.foldlM_map, run_bind_eq_ok, run_liftExcept, Option.some_inj, foldlM_parents,
    addTexts_eq_ok]
  constructor
  · rintro ⟨h₀, htypes, k, ⟨links, hread, e⟩, hout⟩
    cases hout
    exact ⟨h₀, links, k, htypes, hread, e, rfl⟩
  · rintro ⟨h₀, links, k, htypes, hread, e, rfl⟩
    exact ⟨h₀, htypes, k, ⟨links, hread, e⟩, rfl⟩

/-- The types have the numbers of their declarations. -/
theorem idOf?_declared (hs : Sound h) (htypes : h.types = decls.map fun d => (d.name, d.params))
    {i : Nat} {d : Declaration} (hd : decls[i]? = some d) : h.idOf? d.name = some i := by
  have hget : h.types[i]? = some (d.name, d.params) := by
    rw [htypes, List.getElem?_map, hd]
    rfl
  rw [Hierarchy.types, List.getElem?_map] at hget
  obtain ⟨n, hn, heq⟩ := Option.map_eq_some_iff.1 hget
  exact hs.idOf?_eq_some.2 ⟨n, hn, (Prod.mk.inj heq).1⟩

theorem notAfter_self (name : String) : h.NotAfter name name := fun hi hj =>
  Nat.le_of_eq (Option.some_inj.1 (hi.symm.trans hj))

/-- Declarations give their parents type by type. -/
theorem grouped_of_readAs (hs : Sound h) (htypes : h.types = decls.map fun d => (d.name, d.params))
    (hread : ReadAs (writtenParents decls) links) : h.Grouped links := by
  have hdecls : decls.Pairwise fun d d' => h.NotAfter d.name d'.name := by
    refine List.pairwise_iff_getElem.2 fun i j hi hj hij => ?_
    intro a b ha hb
    rw [idOf?_declared hs htypes (List.getElem?_eq_getElem hi)] at ha
    rw [idOf?_declared hs htypes (List.getElem?_eq_getElem hj)] at hb
    cases ha
    cases hb
    exact Nat.le_of_lt hij
  have hall : ((writtenParents decls).map Prod.fst).Pairwise h.NotAfter := by
    rw [writtenParents, List.map_flatMap, List.pairwise_flatMap]
    refine ⟨fun d _ => ?_, hdecls.imp fun {d d'} hdd' => ?_⟩
    · rw [List.map_map]
      exact List.pairwise_map.2 (List.pairwise_of_forall fun _ _ => notAfter_self d.name)
    · intro x hx y hy
      simp only [List.map_map, List.mem_map, Function.comp_apply] at hx hy
      obtain ⟨_, -, rfl⟩ := hx
      obtain ⟨_, -, rfl⟩ := hy
      exact hdd'
  rw [← hread.map_fst] at hall
  exact List.pairwise_map.1 hall

theorem readable_typesOnly (hs : Sound h) : Readable h.typesOnly where
  record := fun {_ _ r} hda hr =>
    absurd (eq_of_hasAncestor_typesOnly hs (hasAncestor_iff.2 ⟨r, hr⟩)).symm hda
  parent := fun hn hl => absurd ⟨_, hn, Option.isSome_of_mem hl⟩ not_hasParent_typesOnly

/-- What has been read is legible. -/
theorem readable_of_readAs {h₀ : Hierarchy} (hr : Reachable h₀) (R : Readable h₀)
    (hshort : ∀ text ∈ texts, byteLength text.2.toList < UInt32.size)
    (hread : ReadAs texts links) (e : h₀.addParents links = .ok h) : Readable h := by
  induction hread generalizing h₀ with
  | nil =>
      cases e
      exact R
  | @cons text link texts links hl _ ih =>
      obtain ⟨k, ek, e⟩ := addParents_cons.1 e
      rw [List.forall_mem_cons] at hshort
      have hlegible := legible_of_ofText hshort.1 hl.2
      exact ih (hr.addParent ek) (R.addParent (sound_of_reachable hr) hlegible ek) hshort.2 e

/-! ## 2. Dumps as declarations -/

theorem writtenParents_entries : writtenParents (h.entries.map Entry.declaration) =
    h.requests.map fun l => (l.1, l.2.text) := by
  rw [requests, entries, writtenParents, List.map_map, List.map_flatten, List.map_map,
    List.flatMap_map, List.flatMap_def]
  congr 2
  funext n
  rw [Function.comp_apply, Function.comp_apply, Node.requests, Entry.declaration, entry]
  simp only [List.map_map]
  refine List.map_congr_left fun e _ => ?_
  exact congrArg (Prod.mk n.name) (Ty.text_app e.2).symm

/-- An instance that a text can say: its brackets are not nested too deep, and it is written with
    less than 4 GiB. -/
def Sayable (t : Ty) : Prop := t.depth ≤ maxDepth ∧ byteLength t.text.toList < UInt32.size

/-- Written requests say what they were, if texts can say that. -/
theorem readAs_written (hlinks : ∀ l ∈ links, l.2.Writable) {ls : List (String × Ty)} :
    ReadAs (links.map fun l => (l.1, l.2.text)) ls ↔ ls = links ∧ ∀ l ∈ links, Sayable l.2 := by
  induction links generalizing ls with
  | nil => simp [ReadAs]
  | cons l links ih =>
      rw [List.forall_mem_cons] at hlinks
      rw [ReadAs, List.map_cons, List.forall₂_cons_left_iff, List.forall_mem_cons]
      constructor
      · rintro ⟨l', ls, ⟨hname, ht⟩, hread, rfl⟩
        obtain ⟨ht, hsay⟩ := (ofText_text_eq_ok hlinks.1).1 ht
        obtain ⟨rfl, hall⟩ := (ih hlinks.2).1 hread
        exact ⟨congrArg (· :: ls) (Prod.ext hname ht), hsay, hall⟩
      · rintro ⟨rfl, hsay, hall⟩
        exact ⟨l, links, ⟨rfl, (ofText_text_eq_ok hlinks.1).2 ⟨rfl, hsay⟩⟩,
          (ih hlinks.2).2 ⟨rfl, hall⟩, rfl⟩

theorem forall_requests {P : Ty → Prop} :
    (∀ l ∈ h.requests, P l.2) ↔ ∀ e ∈ h.entries, ∀ a ∈ e.parents, P (.app a) := by
  constructor
  · intro hall e he a ha
    obtain ⟨n, hn, rfl⟩ := List.mem_map.1 he
    obtain ⟨x, hx, rfl⟩ := List.mem_map.1 ha
    exact hall (n.name, .app x.2) (List.mem_flatten.2
      ⟨_, List.mem_map_of_mem hn, List.mem_map.2 ⟨x, hx, rfl⟩⟩)
  · intro hall l hl
    obtain ⟨ls, hls, hl⟩ := List.mem_flatten.1 hl
    obtain ⟨n, hn, rfl⟩ := List.mem_map.1 hls
    obtain ⟨x, hx, rfl⟩ := List.mem_map.1 hl
    exact hall (h.entry n) (List.mem_map_of_mem hn) x.2 (List.mem_map_of_mem hx)

theorem entries_finalize : h.finalize.entries = h.entries := by
  have hnames : h.finalize.nameOf? = h.nameOf? := by
    funext i
    rw [nameOf?, nameOf?, nodes_finalize]
  rw [entries, entries, nodes_finalize]
  refine List.map_congr_left fun n _ => ?_
  rw [entry, entry, hnames]

/-- The recorded parents of a hierarchy that was read can be written. -/
theorem Readable.writable_requests (R : Readable h) (hs : Sound h) (fit : Fitting h)
    (hplain : h.PlainParents) : ∀ l ∈ h.requests, l.2.Writable := by
  refine (forall_requests (P := Ty.Writable)).2 fun e he a ha => ?_
  obtain ⟨n, hn, rfl⟩ := List.mem_map.1 he
  obtain ⟨x, hx, rfl⟩ := List.mem_map.1 ha
  exact R.writable hs fit hplain (hs.node_of_mem hn)
    ((Roster.mem_entries_iff (hs.parents_nodup hn)).1 hx)

/-- **A dump is read only if texts can say all parents.** -/
theorem sayable_of_reloaded {k : Hierarchy} (hwritable : ∀ l ∈ h.requests, l.2.Writable)
    (e : (ofDeclarations (h.entries.map Entry.declaration)).run = some (.ok k)) :
    ∀ l ∈ h.requests, Sayable l.2 := by
  obtain ⟨_, links, _, -, hread, -, -⟩ := ofDeclarations_eq_ok.1 e
  rw [writtenParents_entries] at hread
  exact ((readAs_written hwritable).1 hread).2

/-- **A dump declares a hierarchy that comes out of its own parents**, if texts can say them. -/
theorem ofDeclarations_entries {h₀ : Hierarchy} (htypes : declareAll h.types = .ok h₀)
    (hbuild : h₀.addParents h.requests = .ok h)
    (hwritable : ∀ l ∈ h.requests, l.2.Writable) (hsayable : ∀ l ∈ h.requests, Sayable l.2) :
    (ofDeclarations (h.entries.map Entry.declaration)).run = some (.ok h.finalize) := by
  refine ofDeclarations_eq_ok.2 ⟨h₀, h.requests, h, ?_, ?_, hbuild, rfl⟩
  · rw [entries, List.map_map, List.map_map]
    exact htypes
  · rw [writtenParents_entries]
    exact (readAs_written hwritable).2 ⟨rfl, hsayable⟩

/-- **A dump can be reloaded exactly if no parent is too deep or too long for a text.** Take
    declarations that are accepted and whose hierarchy records no `_` in a parent. What its dump
    declares, the recorded parents written out, is accepted again and builds the same hierarchy,
    with all relatives in the same order, if and only if the recorded parents are nested no deeper
    than a text may be and are written with less than 4 GiB. The texts that were given are shorter
    than that. -/
theorem dump_reloads (e : (ofDeclarations decls).run = some (.ok h)) (hplain : h.PlainParents)
    (hgiven : ∀ d ∈ decls, ∀ text ∈ d.parents, byteLength text.toList < UInt32.size) :
    (ofDeclarations (h.entries.map Entry.declaration)).run = some (.ok h) ↔
      ∀ entry ∈ h.entries, ∀ parent ∈ entry.parents,
        parent.depth ≤ maxDepth ∧ byteLength parent.text.toList < UInt32.size := by
  obtain ⟨h₀, links, k, htypes, hread, hlinks, rfl⟩ := ofDeclarations_eq_ok.1 e
  rw [entries_finalize]
  replace hplain : k.PlainParents := by rwa [PlainParents, nodes_finalize] at hplain
  obtain ⟨hr₀, -⟩ := reachable_of_declareAll htypes
  obtain ⟨hr, same, -, -⟩ := addParents_keeps hr₀ hlinks
  have hs := sound_of_reachable hr
  have fit := fitting_of_reachable hr
  have hdeclared : k.types = decls.map fun d => (d.name, d.params) :=
    same.types_eq.trans (types_declareAll htypes)
  obtain ⟨hdecl, hbuild⟩ :=
    addParents_requests htypes hlinks (grouped_of_readAs hs hdeclared hread) hplain
  -- what was read can be written, so that only depth and length are left to ask for
  have R₀ : Readable h₀ :=
    typesOnly_declareAll htypes ▸ readable_typesOnly (sound_of_reachable hr₀)
  have hshort : ∀ text ∈ writtenParents decls, byteLength text.2.toList < UInt32.size := by
    intro text ht
    obtain ⟨d, hd, ht⟩ := List.mem_flatMap.1 ht
    obtain ⟨s, hs, rfl⟩ := List.mem_map.1 ht
    exact hgiven d hd s hs
  have R := readable_of_readAs hr₀ R₀ hshort hread hlinks
  have hwritable := R.writable_requests hs fit hplain
  have hiff := forall_requests (h := k) (P := Sayable)
  simp only [Sayable, Ty.depth, Ty.text_app] at hiff
  rw [← hiff]
  exact ⟨sayable_of_reloaded hwritable, ofDeclarations_entries hdecl hbuild hwritable⟩

/-- A crate is a bin of `int`; that it is a box is said shortly, and that it is a bin twice. -/
def stock : List Declaration := [
  ⟨"int", [], []⟩,
  ⟨"box", [⟨"t", .covariant⟩], []⟩,
  ⟨"bin", [⟨"s", .covariant⟩], ["box[s]"]⟩,
  ⟨"crate", [], ["bin[int]", "box", "bin"]⟩]

/-- The dump says of which things the crate is a box, and names each parent once. It builds the same
    hierarchy. -/
theorem stock_reloads : ∃ h, (ofDeclarations stock).run = some (.ok h) ∧ h.PlainParents ∧
    h.entries.map Entry.declaration = [
      ⟨"int", [], []⟩,
      ⟨"box", [⟨"t", .covariant⟩], []⟩,
      ⟨"bin", [⟨"s", .covariant⟩], ["box[s]"]⟩,
      ⟨"crate", [], ["bin[int]", "box[int]"]⟩] ∧
    (ofDeclarations (h.entries.map Entry.declaration)).run = some (.ok h) := by
  let links : List (String × Ty) := [("bin", .app ⟨"box", [.var (.free "s")]⟩),
    ("crate", .app ⟨"bin", [.app ⟨"int", []⟩]⟩), ("crate", .app ⟨"box", []⟩),
    ("crate", .app ⟨"bin", []⟩)]
  let h₀ := (declareAll (stock.map fun d => (d.name, d.params))).toOption.getD empty
  let k := (h₀.addParents links).toOption.getD empty
  have hread : ReadAs (writtenParents stock) links :=
    .cons ⟨rfl, rfl⟩ (.cons ⟨rfl, rfl⟩ (.cons ⟨rfl, rfl⟩ (.cons ⟨rfl, rfl⟩ .nil)))
  have hlinks : h₀.addParents links = .ok k := eq_ok_getD (by decide +kernel) empty
  have e : (ofDeclarations stock).run = some (.ok k.finalize) :=
    ofDeclarations_eq_ok.2 ⟨h₀, links, k, rfl, hread, hlinks, rfl⟩
  have hplain : k.finalize.PlainParents := by
    rw [PlainParents, nodes_finalize]
    decide
  refine ⟨k.finalize, e, hplain, ?_, (dump_reloads e hplain (by decide)).2 ?_⟩
  · rw [entries_finalize]
    decide +kernel
  · rw [entries_finalize]
    decide +kernel

/-- An instance in so many containers. -/
def contained : Nat → Ty → Ty
  | 0, t => t
  | depth + 1, t => .app ⟨"con", [contained depth t]⟩

theorem text_contained (depth : Nat) (t : Ty) :
    (contained (depth + 1) t).text = "con" ++ "[" ++ (contained depth t).text ++ "]" := by
  rw [contained, Ty.text_app, App.text, Ty.texts, Ty.texts, App.frame, commaList_singleton]

/-- Each container takes five bytes. -/
theorem byteLength_contained (depth : Nat) (t : Ty) :
    byteLength (contained depth t).text.toList = byteLength t.text.toList + 5 * depth := by
  induction depth with
  | zero => rfl
  | succ depth ih =>
      rw [text_contained, String.toList_append, String.toList_append, String.toList_append,
        byteLength_append, byteLength_append, byteLength_append, ih]
      simp only [show byteLength "con".toList = 3 from rfl, show byteLength "[".toList = 1 from rfl,
        show byteLength "]".toList = 1 from rfl]
      omega

theorem writable_singleton {head : String} (hhead : IsHead head) {t : Ty} (ht : t.Writable) :
    (Ty.app ⟨head, [t]⟩).Writable := by
  refine ⟨?_, .app hhead.short (List.forall_mem_singleton.2 ht.short)⟩
  rw [Ty.isExpressible]
  exact App.isExpressible_iff.2 ⟨hhead.name, Ty.fitTogether_singleton t,
    List.forall_mem_singleton.2 ht.expressible⟩

theorem writable_contained {t : Ty} (ht : t.Writable) (depth : Nat) :
    (contained depth t).Writable := by
  induction depth with
  | zero => exact ht
  | succ depth ih => exact writable_singleton ⟨by decide, by decide⟩ ih

/-- As many containers as a text may have, and a type that puts one more into them. That it is a
    container itself is said shortly. -/
def containedDeeper : List Declaration := [
  ⟨"con", [⟨"t", .invariant⟩], []⟩,
  ⟨"deep", [⟨"t", .invariant⟩], [(contained maxDepth (.var (.free "t"))).text]⟩,
  ⟨"deeper", [⟨"t", .invariant⟩], ["deep[con[t]]", "con"]⟩]

/-- The recorded parent has one level more than a text may have, so the dump is refused. -/
theorem containedDeeper_not_reloaded : ∃ h, (ofDeclarations containedDeeper).run = some (.ok h) ∧
    h.PlainParents ∧
      ∀ k, (ofDeclarations (h.entries.map Entry.declaration)).run ≠ some (.ok k) := by
  let links : List (String × Ty) := [("deep", contained maxDepth (.var (.free "t"))),
    ("deeper", .app ⟨"deep", [.app ⟨"con", [.var (.free "t")]⟩]⟩), ("deeper", .app ⟨"con", []⟩)]
  let h₀ := (declareAll (containedDeeper.map fun d => (d.name, d.params))).toOption.getD empty
  let k := (h₀.addParents links).toOption.getD empty
  have hvar : (Ty.var (.free "t")).Writable :=
    ⟨by decide, .var (by decide) (List.forall_mem_nil _) (List.forall_mem_nil _)⟩
  have hread : ReadAs (writtenParents containedDeeper) links := by
    refine .cons ⟨rfl, (ofText_text_eq_ok (writable_contained hvar maxDepth)).2 ⟨rfl, ?_, ?_⟩⟩
      (.cons ⟨rfl, rfl⟩ (.cons ⟨rfl, rfl⟩ .nil))
    · decide +kernel
    · rw [byteLength_contained]
      decide
  have hlinks : h₀.addParents links = .ok k := eq_ok_getD (by decide +kernel) empty
  have hrequests : k.requests = [("deep", contained maxDepth (.var (.free "t"))),
      ("deeper", .app ⟨"deep", [.app ⟨"con", [.var (.free "t")]⟩]⟩),
      ("deeper", contained (maxDepth + 1) (.var (.free "t")))] := by decide +kernel
  have hwritable : ∀ l ∈ k.requests, l.2.Writable := by
    rw [hrequests]
    refine List.forall_mem_cons.2 ⟨writable_contained hvar _, List.forall_mem_cons.2 ⟨?_,
      List.forall_mem_singleton.2 (writable_contained hvar _)⟩⟩
    exact writable_singleton ⟨by decide, by decide⟩ (writable_contained hvar 1)
  have hdeep : ¬ ∀ l ∈ k.requests, l.2.depth ≤ maxDepth := by decide +kernel
  refine ⟨k.finalize, ofDeclarations_eq_ok.2 ⟨h₀, links, k, rfl, hread, hlinks, rfl⟩, ?_, ?_⟩
  · rw [PlainParents, nodes_finalize]
    decide +kernel
  · intro k' e
    rw [entries_finalize] at e
    exact hdeep fun l hl => (sayable_of_reloaded hwritable e l hl).1

end Hierarchy

end Lineage
