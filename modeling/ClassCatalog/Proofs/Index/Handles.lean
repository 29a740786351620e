import ClassCatalog.Index.Handles
import ClassCatalog.Proofs.HandleTable
import ClassCatalog.Proofs.ClassFile.Renaming
import ClassCatalog.Proofs.Index.Scans

/-! What an index under handles is built from: groups that are filled in one pass, the order of
texts, and a search in this order. Classes under handles and the same classes under texts come to
the same groups in the same order. -/

namespace ClassCatalog

open NameTable (Entry)

namespace HandleGroups

variable {β : Type}

def pushAll (g : HandleGroups β) (pairs : List (Name × β)) : HandleGroups β :=
  pairs.foldl (fun g pair => g.push pair.1 pair.2) g

theorem group_push (g : HandleGroups β) (key other : Name) (value : β) :
    (g.push key value).group other
      = if key = other then g.group other ++ [value] else g.group other := by
  have hget : (g.push key value).get? other
      = if key == other then some (g.group key ++ [value]) else g.get? other :=
    Std.HashMap.getElem?_alter
  rw [group, hget]
  by_cases heq : key = other
  · simp [heq]
  · simp [heq, group]

theorem group_pushAll (g : HandleGroups β) (pairs : List (Name × β)) (key : Name) :
    (g.pushAll pairs).group key = g.group key ++ (pairs.filter (·.1 = key)).map (·.2) := by
  induction pairs generalizing g with
  | nil => simp [pushAll]
  | cons pair pairs ih =>
    have hstep : g.pushAll (pair :: pairs) = (g.push pair.1 pair.2).pushAll pairs := rfl
    rw [hstep, ih, group_push]
    by_cases heq : pair.1 = key
    · simp [heq]
    · simp [heq]

theorem mem_pushAll_iff (g : HandleGroups β) (pairs : List (Name × β)) (key : Name) :
    key ∈ g.pushAll pairs ↔ key ∈ g ∨ ∃ value, (key, value) ∈ pairs := by
  induction pairs generalizing g with
  | nil => simp [pushAll]
  | cons pair pairs ih =>
    have hstep : g.pushAll (pair :: pairs) = (g.push pair.1 pair.2).pushAll pairs := rfl
    have hmem : key ∈ g.push pair.1 pair.2 ↔ pair.1 = key ∨ key ∈ g := by
      rw [push, Std.HashMap.mem_alter]
      by_cases heq : pair.1 = key
      · simp [heq]
      · simp [heq]
    rw [hstep, ih, hmem]
    simp only [List.mem_cons, exists_or]
    have hpair : (∃ value, (key, value) = pair) ↔ pair.1 = key := by
      constructor
      · rintro ⟨value, rfl⟩
        rfl
      · rintro rfl
        exact ⟨pair.2, rfl⟩
    rw [hpair]
    exact or_assoc.trans or_left_comm

theorem pushAll_append (g : HandleGroups β) (ps qs : List (Name × β)) :
    g.pushAll (ps ++ qs) = (g.pushAll ps).pushAll qs := List.foldl_append

end HandleGroups

namespace ClassDecl

variable {α β : Type}

def annotationPlaces (c : ClassDecl α) : List (α × α × Nat) :=
  c.annotations.zipIdx.map fun (a, slot) => (a.name, c.name, slot)

def superclassPlaces (c : ClassDecl α) : List (α × α) := c.superName.toList.map (·, c.name)

def interfacePlaces (c : ClassDecl α) : List (α × α) := c.interfaceNames.map (·, c.name)

theorem annotationPlaces_rename (f : α → β) (c : ClassDecl α) :
    (c.rename f).annotationPlaces = c.annotationPlaces.map (Prod.map f (Prod.map f id)) := by
  rw [annotationPlaces, rename_eq, annotationPlaces, List.zipIdx_map, List.map_map, List.map_map]
  refine List.map_congr_left fun entry _ => ?_
  obtain ⟨a, slot⟩ := entry
  simp [AnnotationUse.rename_eq]

theorem superclassPlaces_rename (f : α → β) (c : ClassDecl α) :
    (c.rename f).superclassPlaces = c.superclassPlaces.map (Prod.map f f) := by
  rw [superclassPlaces, rename_eq, superclassPlaces]
  cases c.superName <;> rfl

theorem interfacePlaces_rename (f : α → β) (c : ClassDecl α) :
    (c.rename f).interfacePlaces = c.interfacePlaces.map (Prod.map f f) := by
  have hnames : (c.rename f).interfaceNames = c.interfaceNames.map f := by
    simp [interfaceNames, rename_eq, List.filterMap_map, Ty.name?_rename, List.map_filterMap]
  rw [interfacePlaces, hnames, interfacePlaces, List.map_map, List.map_map]
  have hname : (c.rename f).name = f c.name := rfl
  rw [hname]
  rfl

end ClassDecl

theorem filter_map_key {α β γ δ : Type} [DecidableEq α] [DecidableEq β] {f : α → β}
    (hf : Function.Injective f) (g : γ → δ) (ps : List (α × γ)) (key : α) :
    ((ps.map (Prod.map f g)).filter (·.1 = f key)).map (·.2)
      = ((ps.filter (·.1 = key)).map (·.2)).map g := by
  induction ps with
  | nil => rfl
  | cons p ps ih =>
    by_cases heq : p.1 = key
    · simpa [heq] using ih
    · simpa [heq, hf.eq_iff] using ih

namespace HandleLinks

def refPairs (c : ClassDecl Name) : List (Name × HandleRef) :=
  c.annotationPlaces.map (Prod.map id fun (owner, slot) => ⟨owner, slot⟩)

theorem note_eq (links : HandleLinks) (c : ClassDecl Name) :
    links.note c = ⟨links.byAnnotation.pushAll (refPairs c),
      links.subclasses.pushAll c.superclassPlaces,
      links.implementors.pushAll c.interfacePlaces⟩ := by
  have hrefs : HandleLinks.byAnnotation (links.note c) = links.byAnnotation.pushAll (refPairs c) := by
    rw [refPairs, ClassDecl.annotationPlaces, HandleGroups.pushAll, List.foldl_map, List.foldl_map]
    rfl
  have hsuper : (links.note c).subclasses = links.subclasses.pushAll c.superclassPlaces := by
    rw [note, ClassDecl.superclassPlaces]
    cases c.superName <;> rfl
  have hinterfaces : (links.note c).implementors
      = links.implementors.pushAll c.interfacePlaces := by
    rw [ClassDecl.interfacePlaces, HandleGroups.pushAll, List.foldl_map]
    rfl
  rw [← hrefs, ← hsuper, ← hinterfaces]

theorem foldl_note (cs : List (ClassDecl Name)) (links : HandleLinks) :
    cs.foldl note links = ⟨links.byAnnotation.pushAll (cs.flatMap refPairs),
      links.subclasses.pushAll (cs.flatMap ClassDecl.superclassPlaces),
      links.implementors.pushAll (cs.flatMap ClassDecl.interfacePlaces)⟩ := by
  induction cs generalizing links with
  | nil => rfl
  | cons c cs ih =>
    rw [List.foldl_cons, ih, note_eq]
    simp only [List.flatMap_cons, HandleGroups.pushAll_append]

end HandleLinks

theorem binarySearch_of_eq {side : Nat → Ordering} {low high place : Nat} (hlow : low ≤ place)
    (hhigh : place < high) (heq : side place = .eq) (hlt : ∀ p < place, side p = .lt)
    (hgt : ∀ p, place < p → p < high → side p = .gt) : binarySearch side low high = some place := by
  fun_induction binarySearch side low high with
  | case1 low high hlt' middle hmiddle =>
    have hle : ¬ middle < place := fun h => by
      rw [hlt middle h] at hmiddle
      cases hmiddle
    have hge : ¬ place < middle := fun h => by
      rw [hgt middle h (by omega)] at hmiddle
      cases hmiddle
    exact congrArg some (by omega)
  | case2 low high hlt' middle hmiddle ih =>
    have hne : middle ≠ place := fun h => by
      rw [h, heq] at hmiddle
      cases hmiddle
    have hge : ¬ place < middle := fun h => by
      rw [hgt middle h (by omega)] at hmiddle
      cases hmiddle
    exact ih (by omega) hhigh hgt
  | case3 low high hlt' middle hmiddle ih =>
    have hne : middle ≠ place := fun h => by
      rw [h, heq] at hmiddle
      cases hmiddle
    have hle : ¬ middle < place := fun h => by
      rw [hlt middle h] at hmiddle
      cases hmiddle
    exact ih hlow (by omega) fun p hp hpm => hgt p hp (by omega)
  | case4 low high hnone => omega

theorem side_of_binarySearch {side : Nat → Ordering} {low high place : Nat}
    (h : binarySearch side low high = some place) : side place = .eq := by
  fun_induction binarySearch side low high with
  | case1 low high _ middle hmiddle =>
    obtain rfl : middle = place := Option.some.inj h
    exact hmiddle
  | case2 low high _ middle _ ih => exact ih h
  | case3 low high _ middle _ ih => exact ih h
  | case4 => cases h

theorem eq_of_ordered {xs ys : List String} (hxs : xs.Pairwise fun a b => compare a b = .lt)
    (hys : ys.Pairwise fun a b => compare a b = .lt) (h : ∀ x, x ∈ xs ↔ x ∈ ys) : xs = ys := by
  have hnodup : ∀ {zs : List String}, (zs.Pairwise fun a b => compare a b = .lt) → zs.Nodup := by
    intro zs hzs
    refine hzs.imp fun {a b} hlt heq => ?_
    have hself : compare b b = .eq := Std.ReflCmp.compare_self
    rw [heq, hself] at hlt
    cases hlt
  have hperm : xs.Perm ys := (List.perm_ext_iff_of_nodup (hnodup hxs) (hnodup hys)).2 h
  refine hperm.eq_of_pairwise (fun a b _ _ hab hba => ?_) hxs hys
  exact absurd hba (Std.OrientedCmp.not_lt_of_lt hab)

variable {t : NameTable}

theorem exists_inTextOrder {ns : List Name} (hnodup : ns.Nodup)
    (hissued : ∀ n ∈ ns, ∃ e : t.Entry, e.name = n) :
    ∃ es : List t.Entry, HandleIndex.inTextOrder t ns = es.map Entry.name
      ∧ (es.map Entry.text).Pairwise (fun a b => compare a b = .lt)
      ∧ ∀ e, e ∈ es ↔ e.name ∈ ns := by
  have hperm : (HandleIndex.inTextOrder t ns).Perm ns := List.mergeSort_perm _ _
  have hsorted : (HandleIndex.inTextOrder t ns).Pairwise fun m n =>
      (compare (t.text m) (t.text n)).isLE :=
    List.pairwise_mergeSort (fun _ _ _ => Std.TransCmp.isLE_trans)
      (fun _ _ => HandleTable.isLE_total _ _) _
  have hentries : HandleIndex.inTextOrder t ns ∈ Set.range (List.map (Entry.name (t := t))) := by
    rw [Set.range_list_map]
    exact fun n hn => hissued n (hperm.mem_iff.1 hn)
  obtain ⟨es, hes⟩ := hentries
  refine ⟨es, hes.symm, ?_, fun e => ?_⟩
  · have hboth := hsorted.and (hperm.nodup_iff.2 hnodup)
    rw [← hes, List.pairwise_map] at hboth
    rw [List.pairwise_map]
    refine hboth.imp fun {a b} hab => ?_
    obtain ⟨hle, hne⟩ := hab
    rw [Entry.text_name, Entry.text_name] at hle
    refine HandleTable.lt_of_isLE_of_ne hle fun heq => hne ?_
    rw [Entry.text_injective heq]
  · rw [← hperm.mem_iff, ← hes, List.mem_map_of_injective Entry.name_injective]

structure HandleTable.Lists (os : List (ClassDecl t.Entry)) (texts : ClassTable)
    (table : HandleTable) : Prop where
  order : HandleIndex.inTextOrder t table.keys = os.map (·.name.name)
  text : os.map (ClassDecl.rename Entry.text) = texts.classes
  get : ∀ k ∈ os, table.get? k.name.name = some (k.rename Entry.name)
  find : ∀ e : t.Entry, (table.get? e.name).map (·.resolve t) = texts.find? e.text

namespace HandleTable.Holds

variable {ks : List (ClassDecl t.Entry)} {texts : ClassTable} {table : HandleTable}

theorem map_get? (h : Holds ks texts table) (e : t.Entry) :
    (table.get? e.name).map (·.resolve t) = texts.find? e.text := by
  have hhandle : table.get? e.name = _ := h.handle e.name
  rw [hhandle, h.text, find?_text_eq, Option.map_map]
  congr 1
  funext k
  exact k.resolve_rename

theorem exists_lists (h : Holds ks texts table) :
    ∃ os : List (ClassDecl t.Entry), Lists os texts table := by
  have hvalid := h.valid
  obtain ⟨os, hos⟩ := hvalid.exists_rename
  have htexts : os.map (ClassDecl.rename Entry.text) = texts.classes := by
    rw [← h.map_resolve, ← hos, List.map_map]
    exact List.map_congr_left fun k _ => k.resolve_rename.symm
  have hget : ∀ k ∈ os, table.get? k.name.name = some (k.rename Entry.name) := by
    intro k hk
    have hmem : k.rename Entry.name ∈ table.classes t := by
      rw [← hos]
      exact List.mem_map_of_mem hk
    obtain ⟨n, hn⟩ := mem_classes_iff.1 hmem
    obtain rfl : k.name.name = n := hvalid.keyed n _ hn
    exact hn
  have hissued : ∀ n ∈ table.keys, ∃ e : t.Entry, e.name = n := by
    intro n hn
    obtain ⟨c, hc⟩ := Option.isSome_iff_exists.1
      (Std.HashMap.mem_iff_isSome_getElem?.1 (Std.HashMap.mem_keys.1 hn))
    obtain ⟨k, rfl⟩ := hvalid.issued n c hc
    exact ⟨k.name, hvalid.keyed n _ hc⟩
  obtain ⟨es, hes, hordered, hmem⟩ := exists_inTextOrder Std.HashMap.nodup_keys hissued
  -- Both orders are strict orders of the same texts.
  have heq : es.map Entry.text = os.map (·.name.text) := by
    refine eq_of_ordered hordered ?_ fun text => ?_
    · have hclasses := texts.ordered_classes
      rw [← htexts, ClassTable.Ordered, List.pairwise_map] at hclasses
      rw [List.pairwise_map]
      exact hclasses
    · simp only [List.mem_map]
      constructor
      · rintro ⟨e, he, rfl⟩
        obtain ⟨c, hc⟩ := Option.isSome_iff_exists.1
          (Std.HashMap.mem_iff_isSome_getElem?.1 (Std.HashMap.mem_keys.1 ((hmem e).1 he)))
        have hlist : c ∈ os.map (ClassDecl.rename Entry.name) := by
          rw [hos]
          exact mem_classes_iff.2 ⟨_, hc⟩
        obtain ⟨k, hk, rfl⟩ := List.mem_map.1 hlist
        have hname : k.name.name = e.name := hvalid.keyed _ _ hc
        exact ⟨k, hk, congrArg Entry.text (Entry.name_injective hname)⟩
      · rintro ⟨k, hk, rfl⟩
        refine ⟨k.name, (hmem _).2 (Std.HashMap.mem_keys.2 ?_), rfl⟩
        exact Std.HashMap.mem_iff_isSome_getElem?.2 (Option.isSome_iff_exists.2 ⟨_, hget k hk⟩)
  have hentries : es = os.map (·.name) := by
    refine List.map_injective_iff.2 Entry.text_injective ?_
    rw [heq, List.map_map]
    rfl
  refine ⟨os, ?_, htexts, hget, h.map_get?⟩
  rw [hes, hentries, List.map_map]
  rfl

end HandleTable.Holds

section Groups

variable {γ δ : Type} {places : ClassDecl t.Entry → List (t.Entry × γ)}
  (os : List (ClassDecl t.Entry))

def placesOf (places : ClassDecl t.Entry → List (t.Entry × γ)) (os : List (ClassDecl t.Entry))
    (e : t.Entry) : List γ :=
  ((os.flatMap places).filter (·.1 = e)).map (·.2)

theorem handleGroup_eq {pairs : ClassDecl Name → List (Name × δ)} {g : γ → δ}
    (h : ∀ k, pairs (k.rename Entry.name) = (places k).map (Prod.map Entry.name g)) (e : t.Entry) :
    (HandleGroups.pushAll ∅ ((os.map (ClassDecl.rename Entry.name)).flatMap pairs)).group e.name
      = (placesOf places os e).map g := by
  have hempty : HandleGroups.group (β := δ) ∅ e.name = [] := by simp [HandleGroups.group]
  have hpairs : (os.map (ClassDecl.rename Entry.name)).flatMap pairs
      = (os.flatMap places).map (Prod.map Entry.name g) := by
    rw [List.flatMap_map, List.map_flatMap]
    exact List.flatMap_congr fun k _ => h k
  rw [HandleGroups.group_pushAll, hempty, List.nil_append, hpairs,
    filter_map_key Entry.name_injective, placesOf]

theorem textGroup_eq {pairs : ClassDecl String → List (String × δ)} {g : γ → δ}
    (h : ∀ k, pairs (k.rename Entry.text) = (places k).map (Prod.map Entry.text g)) (e : t.Entry) :
    (Grouping.ofPairs ((os.map (ClassDecl.rename Entry.text)).flatMap pairs)).group e.text
      = (placesOf places os e).map g := by
  have hpairs : (os.map (ClassDecl.rename Entry.text)).flatMap pairs
      = (os.flatMap places).map (Prod.map Entry.text g) := by
    rw [List.flatMap_map, List.map_flatMap]
    exact List.flatMap_congr fun k _ => h k
  rw [Grouping.group_ofPairs, hpairs, filter_map_key Entry.text_injective, placesOf]

end Groups

theorem refPairs_rename (k : ClassDecl t.Entry) :
    HandleLinks.refPairs (k.rename Entry.name) = k.annotationPlaces.map
      (Prod.map Entry.name fun (owner, slot) => (⟨owner.name, slot⟩ : HandleRef)) := by
  rw [HandleLinks.refPairs, ClassDecl.annotationPlaces_rename, List.map_map]
  rfl

theorem annotationPairs_rename (k : ClassDecl t.Entry) :
    Links.annotationPairs (k.rename Entry.text) = k.annotationPlaces.map
      (Prod.map Entry.text fun (owner, slot) => (⟨owner.text, slot⟩ : AnnotationRef)) := by
  have hpairs : Links.annotationPairs (k.rename Entry.text)
      = (k.rename Entry.text).annotationPlaces.map
        (Prod.map id fun (owner, slot) => (⟨owner, slot⟩ : AnnotationRef)) := by
    rw [ClassDecl.annotationPlaces, List.map_map]
    rfl
  rw [hpairs, ClassDecl.annotationPlaces_rename, List.map_map]
  rfl

end ClassCatalog
