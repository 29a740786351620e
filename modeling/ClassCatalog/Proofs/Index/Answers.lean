import ClassCatalog.Proofs.Index.Handles

/-! An index under handles gives the answers of the index under texts, whatever the name table
holds besides. -/

namespace ClassCatalog

open NameTable (Entry)

variable {t : NameTable}

/-- Every answer of `h` has the texts of the answer of `i`. -/
structure HandleIndex.Shows (t : NameTable) (h : HandleIndex) (i : Index) : Prop where
  classes : h.classes.map (·.resolve t) = i.classes
  classByName : ∀ e : t.Entry, (h.classByName e.name).map (·.resolve t) = i.find? e.text
  classNamed : ∀ text, (h.classNamed text).map (·.resolve t) = i.find? text
  annotationRefs : ∀ e : t.Entry, (h.annotationRefs e.name).map
    (fun ref => ⟨t.text ref.owner, ref.slot⟩) = i.annotationRefs e.text
  annotations : ∀ e : t.Entry, (h.annotationsNamed e.name).map (·.rename t.text)
    = i.annotationsNamed e.text
  annotationNames : h.annotationNames.map t.text = i.annotationNames
  subclasses : ∀ e : t.Entry, (h.directSubclasses e.name).map (·.resolve t)
    = i.directSubclasses e.text
  implementors : ∀ e : t.Entry, (h.directImplementors e.name).map (·.resolve t)
    = i.directImplementors e.text

namespace HandleTable.Lists

open HandleIndex (build)

variable {os : List (ClassDecl t.Entry)} {texts : ClassTable} {table : HandleTable}
  (h : Lists os texts table)

include h

theorem links_build : (build t table).links
    = ⟨.pushAll ∅ ((os.map (ClassDecl.rename Entry.name)).flatMap HandleLinks.refPairs),
      .pushAll ∅ ((os.map (ClassDecl.rename Entry.name)).flatMap ClassDecl.superclassPlaces),
      .pushAll ∅ ((os.map (ClassDecl.rename Entry.name)).flatMap ClassDecl.interfacePlaces)⟩ := by
  have hpass : ∀ (js : List (ClassDecl t.Entry)) (links : HandleLinks), (∀ k ∈ js, k ∈ os) →
      (js.map (·.name.name)).foldl
          (fun (links : HandleLinks) n => (table.get? n).elim links links.note) links
        = (js.map (ClassDecl.rename Entry.name)).foldl HandleLinks.note links := by
    intro js
    induction js with
    | nil => exact fun _ _ => rfl
    | cons k js ih =>
      intro links hjs
      simp only [List.map_cons, List.foldl_cons, h.get k (hjs k List.mem_cons_self),
        Option.elim_some]
      exact ih _ fun j hj => hjs j (List.mem_cons_of_mem k hj)
  rw [build, h.order, hpass os _ fun _ hk => hk, HandleLinks.foldl_note]
  rfl

theorem map_findAll (es : List t.Entry) :
    ((build t table).findAll (es.map Entry.name)).map (·.resolve t)
      = (es.map Entry.text).filterMap texts.find? := by
  rw [HandleIndex.findAll, List.filterMap_map, List.filterMap_map, List.map_filterMap]
  exact List.filterMap_congr fun e _ => h.find e

theorem annotationRefs_handle (e : t.Entry) : (build t table).annotationRefs e.name
    = (placesOf ClassDecl.annotationPlaces os e).map fun (owner, slot) =>
      (⟨owner.name, slot⟩ : HandleRef) := by
  rw [HandleIndex.annotationRefs, h.links_build]
  exact handleGroup_eq os refPairs_rename e

theorem annotationRefs_text (e : t.Entry) : (Index.ofTable texts).annotationRefs e.text
    = (placesOf ClassDecl.annotationPlaces os e).map fun (owner, slot) =>
      (⟨owner.text, slot⟩ : AnnotationRef) := by
  have hgroup : (Index.ofTable texts).annotationRefs e.text
      = (Grouping.ofPairs (texts.classes.flatMap Links.annotationPairs)).group e.text := rfl
  rw [hgroup, ← h.text]
  exact textGroup_eq os annotationPairs_rename e

theorem map_annotationAt? (e : t.Entry) (slot : Nat) :
    ((build t table).annotationAt? ⟨e.name, slot⟩).map (·.rename t.text)
      = (Index.ofTable texts).annotationAt? ⟨e.text, slot⟩ := by
  have hclass : (Index.ofTable texts).find? e.text = (table.get? e.name).map (·.resolve t) :=
    (h.find e).symm
  have htable : (build t table).table.get? e.name = table.get? e.name := rfl
  simp only [HandleIndex.annotationAt?, Index.annotationAt?, hclass, htable]
  cases table.get? e.name with
  | none => rfl
  | some c =>
    have hannotations : (c.resolve t).annotations = c.annotations.map (·.rename t.text) := by
      have hresolve : c.resolve t = c.rename t.text := rfl
      rw [hresolve, ClassDecl.rename_eq]
    simp [hannotations]

theorem annotations_eq (e : t.Entry) :
    ((build t table).annotationsNamed e.name).map (·.rename t.text)
      = (Index.ofTable texts).annotationsNamed e.text := by
  rw [HandleIndex.annotationsNamed, Index.annotationsNamed, h.annotationRefs_handle,
    h.annotationRefs_text, List.filterMap_map, List.filterMap_map, List.map_filterMap]
  exact List.filterMap_congr fun place _ => h.map_annotationAt? place.1 place.2

theorem subclasses_eq (e : t.Entry) :
    ((build t table).directSubclasses e.name).map (·.resolve t)
      = (Index.ofTable texts).directSubclasses e.text := by
  have hhandle := handleGroup_eq os (ClassDecl.superclassPlaces_rename (Entry.name (t := t))) e
  have htext := textGroup_eq os (ClassDecl.superclassPlaces_rename (Entry.text (t := t))) e
  have hgroup : (Index.ofTable texts).directSubclasses e.text
      = ((Grouping.ofPairs (texts.classes.flatMap ClassDecl.superclassPlaces)).group
        e.text).filterMap texts.find? := rfl
  rw [HandleIndex.directSubclasses, h.links_build, hhandle, h.map_findAll, hgroup, ← h.text, htext]

theorem implementors_eq (e : t.Entry) :
    ((build t table).directImplementors e.name).map (·.resolve t)
      = (Index.ofTable texts).directImplementors e.text := by
  have hhandle := handleGroup_eq os (ClassDecl.interfacePlaces_rename (Entry.name (t := t))) e
  have htext := textGroup_eq os (ClassDecl.interfacePlaces_rename (Entry.text (t := t))) e
  have hgroup : (Index.ofTable texts).directImplementors e.text
      = ((Grouping.ofPairs (texts.classes.flatMap ClassDecl.interfacePlaces)).group
        e.text).filterMap texts.find? := rfl
  rw [HandleIndex.directImplementors, h.links_build, hhandle, h.map_findAll, hgroup, ← h.text,
    htext]

theorem classes_eq : (build t table).classes.map (·.resolve t) = texts.classes := by
  have horder : (build t table).order.toList = (os.map (·.name)).map Entry.name := by
    show HandleIndex.inTextOrder t table.keys = _
    rw [h.order, List.map_map]
    rfl
  have hname : (os.map (·.name)).map Entry.text = texts.classes.map (·.name) := by
    rw [← h.text, List.map_map, List.map_map]
    rfl
  rw [HandleIndex.classes, horder, h.map_findAll, hname]
  exact (Index.ofTable texts).filterMap_find?_of_mem fun c hc => hc

theorem mem_byAnnotation_iff (n : Name) : n ∈ (build t table).links.byAnnotation.keys
    ↔ ∃ k ∈ os, ∃ a ∈ k.annotations, a.name.name = n := by
  rw [h.links_build, Std.HashMap.mem_keys, HandleGroups.mem_pushAll_iff, List.flatMap_map]
  simp only [refPairs_rename, ClassDecl.annotationPlaces, Std.HashMap.not_mem_empty, false_or,
    List.mem_flatMap, List.mem_map]
  constructor
  · rintro ⟨ref, k, hk, _, ⟨⟨a, slot⟩, ha, rfl⟩, heq⟩
    exact ⟨k, hk, a, List.fst_mem_of_mem_zipIdx ha, congrArg Prod.fst heq⟩
  · rintro ⟨k, hk, a, ha, rfl⟩
    obtain ⟨slot, hslot⟩ := List.mem_iff_getElem?.1 ha
    exact ⟨_, k, hk, _, ⟨(a, slot), List.mem_zipIdx_iff_getElem?.2 hslot, rfl⟩, rfl⟩

theorem annotationNames_eq :
    (build t table).annotationNames.map t.text = (Index.ofTable texts).annotationNames := by
  have hissued : ∀ n ∈ (build t table).links.byAnnotation.keys, ∃ e : t.Entry, e.name = n := by
    intro n hn
    obtain ⟨k, _, a, _, rfl⟩ := (h.mem_byAnnotation_iff n).1 hn
    exact ⟨a.name, rfl⟩
  obtain ⟨es, hes, hordered, hmem⟩ := exists_inTextOrder Std.HashMap.nodup_keys hissued
  have htexts : (build t table).annotationNames.map t.text = es.map Entry.text := by
    have hnames : (build t table).annotationNames = es.map Entry.name := hes
    rw [hnames, List.map_map]
    exact List.map_congr_left fun e _ => e.text_name
  rw [htexts]
  refine eq_of_ordered hordered (Index.ordered_annotationNames _) fun text => ?_
  have hclasses : (Index.ofTable texts).classes = os.map (ClassDecl.rename Entry.text) :=
    h.text.symm
  rw [Index.mem_annotationNames_iff, hclasses, List.mem_map]
  constructor
  · rintro ⟨e, he, rfl⟩
    obtain ⟨k, hk, a, ha, hname⟩ := (h.mem_byAnnotation_iff e.name).1 ((hmem e).1 he)
    refine ⟨_, List.mem_map_of_mem hk, a.rename Entry.text, ?_, ?_⟩
    · rw [ClassDecl.rename_eq]
      exact List.mem_map_of_mem ha
    · exact congrArg Entry.text (Entry.name_injective hname)
  · rintro ⟨c, hc, a, ha, rfl⟩
    obtain ⟨k, hk, rfl⟩ := List.mem_map.1 hc
    rw [ClassDecl.rename_eq] at ha
    obtain ⟨b, hb, rfl⟩ := List.mem_map.1 ha
    exact ⟨b.name, (hmem _).2 ((h.mem_byAnnotation_iff _).2 ⟨k, hk, b, hb, rfl⟩), rfl⟩

theorem order_getElem? (place : Nat) :
    (build t table).order[place]? = os[place]?.map (·.name.name) := by
  have hlist : (build t table).order = (os.map (·.name.name)).toArray :=
    congrArg List.toArray h.order
  rw [hlist, List.getElem?_toArray, List.getElem?_map]

theorem side_eq {place : Nat} {k : ClassDecl t.Entry} (hk : os[place]? = some k) (text : String) :
    (build t table).side text place = compare k.name.text text := by
  rw [HandleIndex.side, h.order_getElem?, hk]
  exact congrArg (compare · text) k.name.text_name

theorem classNamed_of_mem {k : ClassDecl t.Entry} (hk : k ∈ os) :
    (build t table).classNamed k.name.text = some (k.rename Entry.name) := by
  obtain ⟨place, hplace⟩ := List.mem_iff_getElem?.1 hk
  have hlt : place < os.length := (List.getElem?_eq_some_iff.1 hplace).1
  have hsize : (build t table).order.size = os.length := by
    have hlength := congrArg List.length h.order
    rw [List.length_map] at hlength
    exact hlength
  have hordered : os.Pairwise fun a b => compare a.name.text b.name.text = .lt := by
    have hclasses := texts.ordered_classes
    rw [← h.text, ClassTable.Ordered, List.pairwise_map] at hclasses
    exact hclasses
  have hbefore : ∀ p < place, (build t table).side k.name.text p = .lt := by
    intro p hp
    have hget := List.getElem?_eq_getElem (Nat.lt_trans hp hlt)
    rw [h.side_eq hget]
    have hpair := List.pairwise_iff_getElem.1 hordered p place (Nat.lt_trans hp hlt) hlt hp
    rwa [(List.getElem?_eq_some_iff.1 hplace).2] at hpair
  have hafter : ∀ p, place < p → p < (build t table).order.size →
      (build t table).side k.name.text p = .gt := by
    intro p hp hend
    rw [hsize] at hend
    rw [h.side_eq (List.getElem?_eq_getElem hend), Std.OrientedCmp.gt_iff_lt]
    have hpair := List.pairwise_iff_getElem.1 hordered place p hlt hend hp
    rwa [(List.getElem?_eq_some_iff.1 hplace).2] at hpair
  have hself : (build t table).side k.name.text place = .eq := by
    rw [h.side_eq hplace]
    exact Std.ReflCmp.compare_self
  have hsearch := binarySearch_of_eq (Nat.zero_le place) (by rwa [hsize]) hself hbefore hafter
  have hnamed : (build t table).classNamed k.name.text
      = ((build t table).order[place]?).bind table.get? := by
    rw [HandleIndex.classNamed, hsearch]
    rfl
  rw [hnamed, h.order_getElem?, hplace]
  exact h.get k hk

theorem exists_of_classNamed {text : String} {c : ClassDecl Name}
    (hc : (build t table).classNamed text = some c) : ∃ k ∈ os, k.name.text = text := by
  obtain ⟨place, hsearch, hc⟩ := Option.bind_eq_some_iff.1 hc
  obtain ⟨n, hn, _⟩ := Option.bind_eq_some_iff.1 hc
  rw [h.order_getElem?, Option.map_eq_some_iff] at hn
  obtain ⟨k, hk, _⟩ := hn
  have hside := side_of_binarySearch hsearch
  rw [h.side_eq hk] at hside
  exact ⟨k, List.mem_of_getElem? hk, Std.LawfulEqCmp.eq_of_compare hside⟩

theorem classNamed_eq (text : String) :
    ((build t table).classNamed text).map (·.resolve t) = texts.find? text := by
  by_cases hex : ∃ k ∈ os, k.name.text = text
  · obtain ⟨k, hk, rfl⟩ := hex
    rw [h.classNamed_of_mem hk, ← h.find, h.get k hk]
  · have hnone : (build t table).classNamed text = none := by
      by_contra hsome
      obtain ⟨c, hc⟩ := Option.ne_none_iff_exists'.1 hsome
      exact hex (h.exists_of_classNamed hc)
    rw [hnone, Option.map_none]
    symm
    refine Option.eq_none_iff_forall_ne_some.2 fun c hc => hex ?_
    have hmem := (Index.ofTable texts).find?_eq_some_iff text c
    obtain ⟨hclass, hname⟩ := hmem.1 hc
    have hlist : c ∈ os.map (ClassDecl.rename Entry.text) := h.text ▸ hclass
    obtain ⟨k, hk, rfl⟩ := List.mem_map.1 hlist
    exact ⟨k, hk, hname⟩

theorem shows : (build t table).Shows t (Index.ofTable texts) where
  classes := h.classes_eq
  classByName := h.find
  classNamed := h.classNamed_eq
  annotationRefs e := by
    rw [h.annotationRefs_handle, h.annotationRefs_text, List.map_map]
    refine List.map_congr_left fun place _ => ?_
    simp [Entry.text_name]
  annotations := h.annotations_eq
  annotationNames := h.annotationNames_eq
  subclasses := h.subclasses_eq
  implementors := h.implementors_eq

end HandleTable.Lists

theorem HandleIndex.Shows.congr {h : HandleIndex} {i j : Index} (hshows : h.Shows t i)
    (hsame : i.SameAnswers j) : h.Shows t j := by
  obtain ⟨hclasses, hrefs, hannotations, hnames, hsubclasses, himplementors, hfind⟩ := hsame
  constructor
  · rw [← hclasses, hshows.classes]
  · rw [← hfind]
    exact hshows.classByName
  · rw [← hfind]
    exact hshows.classNamed
  · rw [← hrefs]
    exact hshows.annotationRefs
  · rw [← hannotations]
    exact hshows.annotations
  · rw [← hnames, hshows.annotationNames]
  · rw [← hsubclasses]
    exact hshows.subclasses
  · rw [← himplementors]
    exact hshows.implementors

theorem HandleTable.exists_shows (ks : List (ClassDecl t.Entry)) {j : Index}
    (hj : Index.ofClasses (ks.map (ClassDecl.rename Entry.text)) = .ok j) :
    ∃ table, HandleTable.ofClasses t (ks.map (ClassDecl.rename Entry.name)) = .ok table
      ∧ (HandleIndex.build t table).Shows t j := by
  rw [Index.ofClasses] at hj
  rcases holds_empty.insertAll ks with ⟨texts, table, ls, htexts, htable, hold⟩ | ⟨e, htexts, _⟩
  · rw [htexts] at hj
    obtain rfl : Index.ofTable texts = j := Except.ok.inj hj
    obtain ⟨os, hlists⟩ := hold.exists_lists
    exact ⟨table, htable, hlists.shows⟩
  · rw [htexts] at hj
    cases hj

/-- Classes of different names make an index that answers as a scan does. The answers depend
neither on the order in which the classes come nor on the name table that holds their names. -/
theorem Index.scans_of_nodup {cs : List (ClassDecl String)} (h : (cs.map (·.name)).Nodup) :
    ∃ i, ofClasses cs = .ok i ∧ i.Scans cs
      ∧ (∀ ds : List (ClassDecl String), ds.Perm cs →
        ∃ j, ofClasses ds = .ok j ∧ j.SameAnswers i)
      ∧ ∀ (t : NameTable) (ks : List (ClassDecl t.Entry)),
        (ks.map (ClassDecl.rename Entry.text)).Perm cs →
          ∃ table, HandleTable.ofClasses t (ks.map (ClassDecl.rename Entry.name)) = .ok table
            ∧ (HandleIndex.build t table).Shows t i := by
  obtain ⟨i, hi, _⟩ := ofClasses_of_nodup h
  have hperm : i.classes.Perm cs := perm_of_ofClasses hi
  have hsame : ∀ ds : List (ClassDecl String), ds.Perm cs →
      ∃ j, ofClasses ds = .ok j ∧ j.SameAnswers i := by
    intro ds hds
    obtain ⟨j, hj, _⟩ := ofClasses_of_nodup (((hds.map (·.name)).nodup_iff).2 h)
    have hclasses : j.classes.Perm i.classes := (perm_of_ofClasses hj).trans (hds.trans hperm.symm)
    exact ⟨j, hj, sameAnswers_of_classes (classes_eq_of_perm hclasses)⟩
  refine ⟨i, hi, i.scans hperm, hsame, fun t ks hks => ?_⟩
  obtain ⟨j, hj, hanswers⟩ := hsame _ hks
  obtain ⟨table, htable, hshows⟩ := HandleTable.exists_shows ks hj
  exact ⟨table, htable, hshows.congr hanswers⟩

def relatives : List (ClassDecl String) :=
  [{ ClassDecl.bare "B" ⟨0x21⟩ with
      superName := some "A"
      interfaces := [.named "I", .named "I"]
      annotations := [⟨"M", true, none, []⟩, ⟨"N", true, none, []⟩, ⟨"M", false, none, []⟩] },
    { ClassDecl.bare "A" ⟨0x21⟩ with annotations := [⟨"M", true, none, []⟩] }]

theorem Index.scans_of_nodup_relatives : ∃ i, ofClasses relatives = .ok i
    ∧ i.classes = relatives.reverse ∧ i.annotationRefs "M" = [⟨"A", 0⟩, ⟨"B", 0⟩, ⟨"B", 2⟩]
    ∧ (i.directSubclasses "A").map (·.name) = ["B"]
    ∧ (i.directImplementors "I").map (·.name) = ["B", "B"]
    ∧ ∀ (t : NameTable) (ks : List (ClassDecl t.Entry)),
      (ks.map (ClassDecl.rename Entry.text)).Perm relatives →
        ∃ table, HandleTable.ofClasses t (ks.map (ClassDecl.rename Entry.name)) = .ok table
          ∧ (HandleIndex.build t table).Shows t i := by
  have hnodup : (relatives.map (·.name)).Nodup := by decide
  obtain ⟨i, hi, hscans, _, hshows⟩ := scans_of_nodup hnodup
  have hordered : ClassTable.Ordered relatives.reverse := List.pairwise_pair.2 (by decide)
  have hclasses : i.classes = relatives.reverse := by
    refine i.ordered_classes.eq_of_mem_iff hordered fun c => ?_
    rw [hscans.classes.mem_iff, List.mem_reverse]
  refine ⟨i, hi, hclasses, ?_, ?_, ?_, hshows⟩
  · rw [hscans.annotationRefs, hclasses]
    decide
  · rw [hscans.subclasses, hclasses]
    decide
  · rw [hscans.implementors, hclasses]
    decide

end ClassCatalog
