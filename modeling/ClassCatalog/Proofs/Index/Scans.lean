import Mathlib.Data.List.Basic
import ClassCatalog.Proofs.Index.ClassTable
import ClassCatalog.Proofs.TextOrder

/-! What an index answers is what a scan of its classes in the order of their names finds. -/

namespace ClassCatalog

namespace Grouping

variable {β : Type}

theorem get?_add (pair : String × β) (g : Grouping β) (key : String) :
    (add pair g).get? key = if pair.1 = key then some (pair.2 :: g.group pair.1) else g.get? key := by
  show (g.alter pair.1 _)[key]? = _
  rw [Std.TreeMap.getElem?_alter]
  simp only [Std.LawfulEqCmp.compare_eq_iff_eq]
  rfl

theorem group_ofPairs (pairs : List (String × β)) (key : String) :
    (ofPairs pairs).group key = (pairs.filter (·.1 = key)).map (·.2) := by
  induction pairs with
  | nil => rfl
  | cons pair pairs ih =>
    rw [ofPairs, List.foldr_cons, group, get?_add]
    by_cases hkey : pair.1 = key
    · rw [if_pos hkey, hkey, List.filter_cons_of_pos (by simpa using hkey), List.map_cons, ← ih]
      rfl
    · rw [if_neg hkey, List.filter_cons_of_neg (by simpa using hkey)]
      exact ih

theorem mem_keys_ofPairs (pairs : List (String × β)) (key : String) :
    key ∈ (ofPairs pairs).keys ↔ ∃ value, (key, value) ∈ pairs := by
  rw [Std.TreeMap.mem_keys, Std.TreeMap.mem_iff_isSome_getElem?]
  induction pairs with
  | nil => simp [ofPairs]
  | cons pair pairs ih =>
    have hget : (ofPairs (pair :: pairs))[key]?
        = if pair.1 = key then some (pair.2 :: (ofPairs pairs).group pair.1)
          else (ofPairs pairs)[key]? := get?_add pair _ key
    rw [hget]
    by_cases hkey : pair.1 = key
    · rw [if_pos hkey]
      refine ⟨fun _ => ⟨pair.2, ?_⟩, fun _ => rfl⟩
      rw [← hkey]
      exact List.mem_cons_self
    · rw [if_neg hkey, ih]
      refine exists_congr fun value => ?_
      have hne : (key, value) ≠ pair := fun heq => hkey (congrArg Prod.fst heq).symm
      simp [hne]

end Grouping

namespace Index

/-- Every question to the index is answered as by looking through all its classes, which are
`cs` in the order of the bytes of their names. -/
structure Scans (i : Index) (cs : List (ClassDecl String)) : Prop where
  classes : i.classes.Perm cs
  ordered : i.classes.Pairwise fun c d => utf8 c.name < utf8 d.name
  annotationRefs : ∀ name, i.annotationRefs name = i.classes.flatMap fun c =>
    (c.annotations.zipIdx.filter (·.1.name = name)).map fun (_, slot) => ⟨c.name, slot⟩
  annotations : ∀ name, i.annotationsNamed name
    = i.classes.flatMap fun c => c.annotations.filter (·.name = name)
  resolved : ∀ name, (i.annotationRefs name).map i.annotationAt?
    = (i.annotationsNamed name).map some
  annotationNames : ∀ name, name ∈ i.annotationNames
    ↔ ∃ c ∈ cs, ∃ a ∈ c.annotations, a.name = name
  namesOrdered : i.annotationNames.Pairwise fun m n => utf8 m < utf8 n
  subclasses : ∀ name, i.directSubclasses name
    = i.classes.filter (·.superName = some name)
  /-- A class is listed as often as it lists the interface. -/
  implementors : ∀ name, i.directImplementors name
    = i.classes.flatMap fun c => List.replicate (c.interfaceNames.count name) c
  find : ∀ name c, i.find? name = some c ↔ c ∈ cs ∧ c.name = name

variable (i : Index)

theorem find?_eq_some_iff (name : String) (c : ClassDecl String) :
    i.find? name = some c ↔ c ∈ i.classes ∧ c.name = name := by
  have hmem : c ∈ i.classes ↔ i.find? c.name = some c := i.table.mem_classes_iff c
  constructor
  · intro h
    obtain rfl : c.name = name := ClassTable.find?_name h
    exact ⟨hmem.2 h, rfl⟩
  · rintro ⟨hc, rfl⟩
    exact hmem.1 hc

theorem filterMap_find?_of_mem {cs : List (ClassDecl String)} (h : ∀ c ∈ cs, c ∈ i.classes) :
    (cs.map (·.name)).filterMap i.find? = cs := by
  have hfind : ∀ c ∈ cs, i.find? c.name = some c := fun c hc =>
    (i.find?_eq_some_iff c.name c).2 ⟨h c hc, rfl⟩
  rw [List.filterMap_map]
  exact (List.filterMap_congr hfind).trans List.filterMap_some

theorem filter_annotationPairs (c : ClassDecl String) (name : String) :
    ((Links.annotationPairs c).filter (·.1 = name)).map (·.2)
      = (c.annotations.zipIdx.filter (·.1.name = name)).map fun (_, slot) => ⟨c.name, slot⟩ := by
  rw [Links.annotationPairs, List.filter_map, List.map_map]
  rfl

theorem filter_superclassPairs (c : ClassDecl String) (name : String) :
    ((Links.superclassPairs c).filter (·.1 = name)).map (·.2)
      = if c.superName = some name then [c.name] else [] := by
  rw [Links.superclassPairs]
  cases c.superName with
  | none => rfl
  | some superName =>
    by_cases heq : superName = name
    · simp [heq]
    · simp [heq]

theorem filter_interfacePairs (c : ClassDecl String) (name : String) :
    ((Links.interfacePairs c).filter (·.1 = name)).map (·.2)
      = List.replicate (c.interfaceNames.count name) c.name := by
  rw [Links.interfacePairs, List.filter_map, List.map_map]
  have hmatch : ((fun x : String × String => decide (x.1 = name)) ∘ (·, c.name)) = (· == name) := by
    funext x
    exact (beq_eq_decide x name).symm
  have hname : ((·.2) ∘ (·, c.name) : String → String) = fun _ => c.name := rfl
  rw [hmatch, hname, List.filter_beq, List.map_replicate]

theorem group_flatMap {β : Type} (pairs : ClassDecl String → List (String × β)) (name : String)
    (cs : List (ClassDecl String)) : (Grouping.ofPairs (cs.flatMap pairs)).group name
      = cs.flatMap fun c => ((pairs c).filter (·.1 = name)).map (·.2) := by
  rw [Grouping.group_ofPairs, List.filter_flatMap, List.map_flatMap]

theorem annotationRefs_eq (name : String) : i.annotationRefs name = i.classes.flatMap fun c =>
    (c.annotations.zipIdx.filter (·.1.name = name)).map fun (_, slot) => ⟨c.name, slot⟩ := by
  rw [annotationRefs, i.agree, Links.ofClasses, group_flatMap]
  simp only [filter_annotationPairs]
  rfl

theorem directSubclasses_eq (name : String) :
    i.directSubclasses name = i.classes.filter (·.superName = some name) := by
  have hgroup : i.links.subclasses.group name
      = (i.classes.filter (·.superName = some name)).map (·.name) := by
    rw [i.agree, Links.ofClasses, group_flatMap]
    simp only [filter_superclassPairs]
    show i.classes.flatMap _ = _
    induction i.classes with
    | nil => rfl
    | cons c cs ih =>
      rw [List.flatMap_cons, ih]
      by_cases hsuper : c.superName = some name
      · simp [hsuper]
      · simp [hsuper]
  show (i.links.subclasses.group name).filterMap i.find? = _
  rw [hgroup]
  exact i.filterMap_find?_of_mem fun c hc => List.mem_of_mem_filter hc

theorem directImplementors_eq (name : String) : i.directImplementors name
    = i.classes.flatMap fun c => List.replicate (c.interfaceNames.count name) c := by
  have hgroup : i.links.implementors.group name
      = (i.classes.flatMap fun c => List.replicate (c.interfaceNames.count name) c).map
        (·.name) := by
    rw [i.agree, Links.ofClasses, group_flatMap, List.map_flatMap]
    simp only [filter_interfacePairs, List.map_replicate]
    rfl
  show (i.links.implementors.group name).filterMap i.find? = _
  rw [hgroup]
  refine i.filterMap_find?_of_mem fun c hc => ?_
  obtain ⟨d, hd, hrep⟩ := List.mem_flatMap.1 hc
  rwa [(List.mem_replicate.1 hrep).2]

theorem map_annotationAt? {c : ClassDecl String} (h : c ∈ i.classes) (name : String) :
    ((c.annotations.zipIdx.filter (·.1.name = name)).map fun (_, slot) =>
        i.annotationAt? ⟨c.name, slot⟩)
      = (c.annotations.filter (·.name = name)).map some := by
  have hfind : i.find? c.name = some c := (i.find?_eq_some_iff _ _).2 ⟨h, rfl⟩
  have hat : ∀ entry ∈ c.annotations.zipIdx.filter (·.1.name = name),
      i.annotationAt? ⟨c.name, entry.2⟩ = some entry.1 := by
    intro entry hentry
    rw [annotationAt?, hfind]
    exact List.mem_zipIdx_iff_getElem?.1 (List.mem_of_mem_filter hentry)
  have hfst : (c.annotations.zipIdx.filter (·.1.name = name)).map (·.1)
      = c.annotations.filter (·.name = name) := by
    conv_rhs => rw [← List.zipIdx_map_fst 0 c.annotations, List.filter_map]
    rfl
  rw [← hfst, List.map_map]
  exact List.map_congr_left hat

theorem map_annotationAt?_refs (name : String) : (i.annotationRefs name).map i.annotationAt?
    = (i.classes.flatMap fun c => c.annotations.filter (·.name = name)).map some := by
  rw [annotationRefs_eq, List.map_flatMap, List.map_flatMap]
  refine List.flatMap_congr fun c hc => ?_
  rw [List.map_map]
  exact i.map_annotationAt? hc name

theorem annotationsNamed_eq (name : String) : i.annotationsNamed name
    = i.classes.flatMap fun c => c.annotations.filter (·.name = name) := by
  have hmap := i.map_annotationAt?_refs name
  have hids := congrArg (List.filterMap id) hmap
  rw [List.filterMap_map, List.filterMap_map] at hids
  simpa [annotationsNamed] using hids

theorem mem_annotationNames_iff (name : String) : name ∈ i.annotationNames
    ↔ ∃ c ∈ i.classes, ∃ a ∈ c.annotations, a.name = name := by
  rw [annotationNames, i.agree, Links.ofClasses, Grouping.mem_keys_ofPairs]
  constructor
  · rintro ⟨ref, href⟩
    obtain ⟨c, hc, hpair⟩ := List.mem_flatMap.1 href
    obtain ⟨⟨a, slot⟩, hentry, heq⟩ := List.mem_map.1 hpair
    exact ⟨c, hc, a, List.fst_mem_of_mem_zipIdx hentry, congrArg Prod.fst heq⟩
  · rintro ⟨c, hc, a, ha, rfl⟩
    obtain ⟨slot, hslot⟩ := List.mem_iff_getElem?.1 ha
    refine ⟨⟨c.name, slot⟩, List.mem_flatMap.2 ⟨c, hc, List.mem_map.2 ⟨(a, slot), ?_, rfl⟩⟩⟩
    exact List.mem_zipIdx_iff_getElem?.2 hslot

theorem ordered_annotationNames :
    i.annotationNames.Pairwise fun m n => compare m n = .lt := Std.TreeMap.ordered_keys

theorem scans {cs : List (ClassDecl String)} (h : i.classes.Perm cs) : i.Scans cs where
  classes := h
  ordered := i.ordered_classes.imp utf8_lt_of_compare
  annotationRefs := i.annotationRefs_eq
  annotations := i.annotationsNamed_eq
  resolved name := by rw [i.annotationsNamed_eq, i.map_annotationAt?_refs]
  annotationNames name := by simp only [i.mem_annotationNames_iff, h.mem_iff]
  namesOrdered := i.ordered_annotationNames.imp utf8_lt_of_compare
  subclasses := i.directSubclasses_eq
  implementors := i.directImplementors_eq
  find name c := by rw [i.find?_eq_some_iff, h.mem_iff]

structure SameAnswers (i j : Index) : Prop where
  classes : i.classes = j.classes
  annotationRefs : i.annotationRefs = j.annotationRefs
  annotations : i.annotationsNamed = j.annotationsNamed
  annotationNames : i.annotationNames = j.annotationNames
  subclasses : i.directSubclasses = j.directSubclasses
  implementors : i.directImplementors = j.directImplementors
  find : i.find? = j.find?

variable {i}

theorem sameAnswers_of_classes {j : Index} (h : i.classes = j.classes) : i.SameAnswers j where
  classes := h
  annotationRefs := by
    funext name
    rw [annotationRefs_eq, annotationRefs_eq, h]
  annotations := by
    funext name
    rw [annotationsNamed_eq, annotationsNamed_eq, h]
  annotationNames := by
    have hlinks : i.links = j.links := i.agree.trans ((congrArg Links.ofClasses h).trans j.agree.symm)
    rw [annotationNames, annotationNames, hlinks]
  subclasses := by
    funext name
    rw [directSubclasses_eq, directSubclasses_eq, h]
  implementors := by
    funext name
    rw [directImplementors_eq, directImplementors_eq, h]
  find := by
    funext name
    refine Option.ext fun c => ?_
    rw [find?_eq_some_iff, find?_eq_some_iff, h]

theorem classes_eq_of_perm {j : Index} (h : i.classes.Perm j.classes) : i.classes = j.classes :=
  i.ordered_classes.eq_of_mem_iff j.ordered_classes fun _ => h.mem_iff

end Index

end ClassCatalog
