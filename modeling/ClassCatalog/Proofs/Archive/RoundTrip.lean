import ClassCatalog.Proofs.Archive.Delimited
import ClassCatalog.Proofs.Archive.Records
import ClassCatalog.Proofs.Independence

/-! What was written is read back, unless its types are too deep or too many. -/

namespace ClassCatalog.Archive

def writtenTypes (v : Version) (cs : List (ClassDecl String)) : List (Ty String) :=
  cs.flatMap fun c => (ClassRecord.ofClass v c).items.filterMap Item.ty?

def symbolsOfClasses (v : Version) (cs : List (ClassDecl String)) : Symbols String :=
  symbolsOf (cs.map (ClassRecord.ofClass v))

/-- The nodes that are built when some classes are read back: for each type of the table those
of its parts, and for each type of a class all of its own. -/
def builtNodes (v : Version) (cs : List (ClassDecl String)) : Nat :=
  (symbolsOfClasses v cs).tableNodes + ((writtenTypes v cs).map Ty.nodes).sum

structure WithinLimits (v : Version) (cs : List (ClassDecl String)) : Prop where
  depth : ∀ t ∈ writtenTypes v cs, t.depth ≤ maxTypeDepth
  nodes : builtNodes v cs ≤ nodeBudget (writeClasses v cs).length

theorem Item.totalNodes_eq (items : List (Item String)) :
    totalNodes items = ((items.filterMap ty?).map Ty.nodes).sum := by
  induction items with
  | nil => rfl
  | cons i items ih =>
    have hcons : totalNodes (i :: items) = i.nodes + totalNodes items := rfl
    rw [hcons, ih, nodes, List.filterMap_cons]
    cases i.ty? with
    | none => exact Nat.zero_add _
    | some t => rfl

section Classes

variable {v : Version} {cs : List (ClassDecl String)}

theorem mem_writtenTypes {c : ClassDecl String} (hc : c ∈ cs) {i : Item String}
    (hi : i ∈ (ClassRecord.ofClass v c).items) {t : Ty String} (ht : i.ty? = some t) :
    t ∈ writtenTypes v cs :=
  List.mem_flatMap.2 ⟨c, hc, List.mem_filterMap.2 ⟨i, hi, ht⟩⟩

/-- No type of the table is too deep if none of those that were written is: the others are
parts of these. -/
theorem depth_tables_iff :
    (∀ t ∈ (symbolsOfClasses v cs).types.values.toList, t.depth ≤ maxTypeDepth)
      ↔ ∀ t ∈ writtenTypes v cs, t.depth ≤ maxTypeDepth := by
  constructor
  · intro h t ht
    obtain ⟨c, hc, hmem⟩ := List.mem_flatMap.1 ht
    obtain ⟨i, hi, hty⟩ := List.mem_filterMap.1 hmem
    obtain ⟨k, hk⟩ := (in_symbolsOf (List.mem_map_of_mem hc) hi).type t hty
    exact h t (Array.mem_toList_iff.2 (Array.mem_of_getElem? hk))
  · intro h t ht
    have hall : AllTypes (·.depth ≤ maxTypeDepth) (cs.map (ClassRecord.ofClass v)) := by
      intro i hi u hu
      obtain ⟨r, hr, hmem⟩ := List.mem_flatMap.1 hi
      obtain ⟨c, hc, rfl⟩ := List.mem_map.1 hr
      exact h u (mem_writtenTypes hc hmem hu)
    have hclosed := closed_symbolsOf (fun u hu p hp => Ty.depth_le_of_mem_parts hu hp) hall
    obtain ⟨k, hk⟩ := Array.getElem?_of_mem (Array.mem_toList_iff.1 ht)
    exact hclosed.holds k t hk

theorem closed_symbolsOfClasses : (symbolsOfClasses v cs).Closed fun _ => True :=
  closed_symbolsOf (fun _ _ _ _ => trivial) fun _ _ _ _ => trivial

theorem found_symbolsOfClasses (hnames : (symbolsOfClasses v cs).names.size < UInt64.size)
    (htypes : (symbolsOfClasses v cs).types.size < UInt64.size) {c : ClassDecl String} (hc : c ∈ cs)
    {i : Item String} (hi : i ∈ (ClassRecord.ofClass v c).items) :
    i.Found (symbolsOfClasses v cs).readTables (symbolsOfClasses v cs) := by
  have hin : i.In (symbolsOfClasses v cs) := in_symbolsOf (List.mem_map_of_mem hc) hi
  constructor
  · intro text htext
    exact ReadTables.findsName_of_hasName rfl hnames (hin.name text htext)
  · intro t ht
    obtain ⟨k, hk⟩ := hin.type t ht
    have hvalues : (symbolsOfClasses v cs).types.values.toList
        = (symbolsOfClasses v cs).types.values.toList ++ [] := (List.append_nil _).symm
    refine ReadTables.findsType_of_lt hvalues htypes hk ?_
    rw [Array.length_toList]
    exact Numbering.lt_size_of_value? hk

def bodyBytes (v : Version) (cs : List (ClassDecl String)) : List UInt8 :=
  (symbolsOfClasses v cs).bytes id ++ (Varint.encode cs.length
    ++ cs.flatMap fun c => ClassRecord.bytes (symbolsOfClasses v cs) (.ofClass v c))

theorem reads_body (h : ∀ c ∈ cs, Storable c) :
    Metered.Reads (readBody v) (bodyBytes v cs) (builtNodes v cs)
      (∀ t ∈ writtenTypes v cs, t.depth ≤ maxTypeDepth) (cs.map v.keep) := by
  intro hlength
  have hsizes := (symbolsOfClasses v cs).sizes_le_length_bytes
  have hbytes : ((symbolsOfClasses v cs).bytes id).length ≤ (bodyBytes v cs).length := by
    rw [bodyBytes, List.length_append]
    omega
  have hnames : (symbolsOfClasses v cs).names.size < UInt64.size := by omega
  have htypes : (symbolsOfClasses v cs).types.size < UInt64.size := by omega
  have hclass : ∀ c ∈ cs, Metered.Reads (readClass (symbolsOfClasses v cs).readTables v)
      (ClassRecord.bytes (symbolsOfClasses v cs) (.ofClass v c))
      (Item.totalNodes (ClassRecord.ofClass v c).items) True (v.keep c) := fun c hc =>
    reads_class (h c hc) fun i hi => found_symbolsOfClasses hnames htypes hc hi
  have hpos : ∀ c ∈ cs, 0 < (ClassRecord.bytes (symbolsOfClasses v cs) (.ofClass v c)).length := by
    intro c _
    have hhead : 0 < (Item.encodeAll (symbolsOfClasses v cs) (headItems v c)).length :=
      Item.length_encodeAll_pos rfl _
    simp only [ClassRecord.bytes, ClassRecord.ofClass, List.length_append]
    omega
  have hread := (ReadTables.reads_tables closed_symbolsOfClasses).bind
    (f := fun tables => counted (readClass tables v))
    (Metered.Reads.counted _ _ _ v.keep cs hpos hclass)
  refine hread.congr rfl ?_ ?_ hlength
  · rw [builtNodes, writtenTypes, ← Item.totalNodes_flatMap, Item.totalNodes_eq,
      List.filterMap_flatMap]
  · rw [depth_tables_iff]
    simp

theorem takes_header (v : Version) :
    readHeader.Takes (magic ++ [UInt8.ofNat v.number]) v := by
  intro rest offset
  cases v <;> rfl

theorem writeClasses_eq (v : Version) (cs : List (ClassDecl String)) :
    writeClasses v cs = magic ++ [UInt8.ofNat v.number] ++ bodyBytes v cs := by
  simp [writeClasses, encodeClasses, bodyBytes, symbolsOfClasses, List.flatMap_map]

theorem readClasses_eq (v : Version) (body : List UInt8) :
    readClasses (magic ++ [UInt8.ofNat v.number] ++ body)
      = (((readBody v).run (nodeBudget (body.length + 5))).run ⟨body, 5⟩ >>= fun r => do
        unless r.2.atEnd do throw (.trailingBytes r.2.rest.length)
        return r.1.1) := by
  have hlength : (magic ++ [UInt8.ofNat v.number] ++ body).length = body.length + 5 := by
    rw [List.length_append, Nat.add_comm]
    rfl
  rw [readClasses, hlength, Cursor.ofBytes, takes_header v body 0]
  rfl

theorem readClasses_writeClasses (h : ∀ c ∈ cs, Storable c)
    (hlength : (writeClasses v cs).length < UInt64.size) :
    WithinLimits v cs ∧ readClasses (writeClasses v cs) = .ok (cs.map v.keep)
      ∨ ¬ WithinLimits v cs ∧ ∃ e : ArchiveError, e.IsTypeLimit
        ∧ readClasses (writeClasses v cs) = .error e := by
  have hbody : (bodyBytes v cs).length < UInt64.size := by
    rw [writeClasses_eq, List.length_append] at hlength
    omega
  have hlimits : WithinLimits v cs ↔ (∀ t ∈ writtenTypes v cs, t.depth ≤ maxTypeDepth)
      ∧ builtNodes v cs ≤ nodeBudget ((bodyBytes v cs).length + 5) := by
    have htotal : (writeClasses v cs).length = (bodyBytes v cs).length + 5 := by
      rw [writeClasses_eq, List.length_append, Nat.add_comm]
      rfl
    rw [← htotal]
    exact ⟨fun hl => ⟨hl.depth, hl.nodes⟩, fun hl => ⟨hl.1, hl.2⟩⟩
  have hreads := reads_body h hbody (nodeBudget ((bodyBytes v cs).length + 5)) [] 5
  rw [List.append_nil] at hreads
  rw [hlimits, writeClasses_eq, readClasses_eq]
  rcases hreads with ⟨hdepth, hnodes, hok⟩ | ⟨hnot, e, he, herror⟩
  · exact .inl ⟨⟨hdepth, hnodes⟩, by rw [hok]; rfl⟩
  · exact .inr ⟨hnot, e, he, by rw [herror]; rfl⟩

end Classes

theorem ordered_map_keep {cs : List (ClassDecl String)} (v : Version)
    (h : ClassTable.Ordered cs) : ClassTable.Ordered (cs.map v.keep) := by
  rw [ClassTable.Ordered, List.pairwise_map]
  refine h.imp fun {a b} hab => ?_
  rw [v.keep_name, v.keep_name]
  exact hab

theorem read_write_cases {v : Version} {i : Index} (h : ∀ c ∈ i.classes, Storable c)
    (hlength : (write v i).length < UInt64.size) :
    (WithinLimits v i.classes ∧ ∃ j, read (write v i) = .ok j ∧ j.classes = i.classes.map v.keep)
      ∨ ¬ WithinLimits v i.classes ∧ ∃ e : ArchiveError, e.IsTypeLimit
        ∧ read (write v i) = .error e := by
  rcases readClasses_writeClasses h hlength with ⟨hlimits, hok⟩ | ⟨hnot, e, he, herror⟩
  · exact .inl ⟨hlimits, read_of_classes hok (ordered_map_keep v i.ordered_classes)⟩
  · refine .inr ⟨hnot, e, he, ?_⟩
    rw [read, write, herror]
    rfl

theorem run_readInto {bytes : List UInt8} {i : Index} (h : read bytes = .ok i) (t : NameTable) :
    ∃ cs u, (readInto bytes).run.run t = (.ok cs, u) ∧ cs.map (·.resolve u) = i.classes := by
  have houtcome := textOutcome_readInto bytes t
  rw [h, textOutcome] at houtcome
  cases hrun : (readInto bytes).run.run t with
  | mk result u =>
    rw [hrun] at houtcome
    cases result with
    | error e => cases houtcome
    | ok cs => exact ⟨cs, u, rfl, Except.ok.inj houtcome⟩

/-- Within the limits, every version gives back exactly what it keeps: as an index, and with
handles in any name table that does not become full. -/
theorem read_write {v : Version} {i : Index} (hstorable : ∀ c ∈ i.classes, Storable c)
    (hlength : (write v i).length < UInt64.size) (hlimits : WithinLimits v i.classes) :
    (∃ j, read (write v i) = .ok j ∧ j.classes = i.classes.map v.keep)
      ∧ ∀ t : NameTable, ∃ cs u, (readInto (write v i)).run.run t = (.ok cs, u)
        ∧ cs.map (·.resolve u) = i.classes.map v.keep := by
  rcases read_write_cases hstorable hlength with ⟨_, j, hread, hclasses⟩ | ⟨hnot, _⟩
  · refine ⟨⟨j, hread, hclasses⟩, fun t => ?_⟩
    obtain ⟨cs, u, hrun, hresolve⟩ := run_readInto hread t
    exact ⟨cs, u, hrun, hresolve.trans hclasses⟩
  · exact absurd hlimits hnot

theorem Symbols.addType_of_leaf {t : Ty String} (h : t.parts = [] ∧ t.name? = none)
    (s : Symbols String) : addType t s = { s with types := s.types.add t } := by
  have henter : enter t id s = { s with types := s.types.add t } := by
    rw [enter]
    split
    · next n hn => rw [Numbering.add_of_slot? hn]
    · rfl
  cases t with
  | primitive p => exact henter
  | void => exact henter
  | wildcard e => exact henter
  | named n => cases h.2
  | typeVariable n => cases h.2
  | unresolved n => cases h.2
  | array d c => cases h.1
  | parameterized n as => cases h.2
  | inner o n as => cases h.1
  | typeParameter n i bs => cases h.2
  | bounded e b => cases h.1

theorem Item.foldl_addTo_of_leaves {items : List (Item String)}
    (h : ∀ i ∈ items, ∀ t ∈ i.ty?, t.parts = [] ∧ t.name? = none) (s : Symbols String) :
    items.foldl addTo s = ⟨(items.filterMap text?).foldl Numbering.add s.names,
      (items.filterMap ty?).foldl Numbering.add s.types⟩ := by
  induction items generalizing s with
  | nil => rfl
  | cons i items ih =>
    have hi := h i List.mem_cons_self
    rw [List.foldl_cons, ih fun j hj => h j (List.mem_cons_of_mem i hj)]
    cases i with
    | raw bytes => rfl
    | name text => rfl
    | name? text => cases text <;> rfl
    | type t => rw [addTo, Symbols.addType_of_leaf (hi t rfl)]; rfl
    | type? t =>
      cases t with
      | none => rfl
      | some t => rw [addTo, Symbols.addType_of_leaf (hi t rfl)]; rfl

theorem symbols_describedClass (v : Version) :
    (symbolsOfClasses v [describedClass]).names.values.toList = ["A", "v"]
      ∧ (symbolsOfClasses v [describedClass]).types.values.toList = [.primitive .int] := by
  have hleaves : ∀ i ∈ [ClassRecord.ofClass v describedClass].flatMap ClassRecord.items,
      ∀ t ∈ i.ty?, t.parts = [] ∧ t.name? = none := by
    cases v <;> decide
  rw [symbolsOfClasses, symbolsOf, List.map_singleton, Item.foldl_addTo_of_leaves hleaves,
    Numbering.toList_values_foldl_add, Numbering.toList_values_foldl_add]
  cases v <;> exact ⟨by decide, by decide⟩

theorem bytes_describedClass (v : Version) :
    (symbolsOfClasses v [describedClass]).bytes id = describedTables := by
  obtain ⟨hnames, htypes⟩ := symbols_describedClass v
  rw [Symbols.bytes, Numbering.size, Numbering.size, ← Array.length_toList, ← Array.length_toList,
    hnames, htypes]
  rfl

structure RefersTo (s : Symbols String) : Prop where
  a : s.nameBytes "A" = [0]
  a? : s.nameBytes? (some "A") = [1]
  v : s.nameBytes "v" = [1]
  int : s.typeBytes (.primitive .int) = [0]

theorem refersTo_describedClass (v : Version) : RefersTo (symbolsOfClasses v [describedClass]) := by
  obtain ⟨hnames, htypes⟩ := symbols_describedClass v
  have ha : (symbolsOfClasses v [describedClass]).names.slot "A" = 0 :=
    Numbering.slot_of_value? (by rw [Numbering.value?, ← Array.getElem?_toList, hnames]; rfl)
  have hv : (symbolsOfClasses v [describedClass]).names.slot "v" = 1 :=
    Numbering.slot_of_value? (by rw [Numbering.value?, ← Array.getElem?_toList, hnames]; rfl)
  have hint : (symbolsOfClasses v [describedClass]).types.slot (.primitive .int) = 0 :=
    Numbering.slot_of_value? (by rw [Numbering.value?, ← Array.getElem?_toList, htypes]; rfl)
  exact ⟨congrArg Varint.encode ha, congrArg (fun n => Varint.encode (n + 1)) ha,
    congrArg Varint.encode hv, congrArg Varint.encode hint⟩

def describedHeadV1 : List UInt8 := [0, 33, 0, 0, 0, 0, 1, 1, 2, 0, 1, 1, 1, 0, 1, 0, 0, 0]

def describedArchiveV1 : List UInt8 :=
  [0x43, 0x4C, 0x53, 0x50, 1] ++ describedTables ++ [1] ++ describedHeadV1 ++ [1, 10]
    ++ onParameterBytes

section RefersTo

variable {s : Symbols String} (h : RefersTo s)

include h

theorem encodeAll_describedHeadV1 :
    Item.encodeAll s (headItems .v1 describedClass) = describedHeadV1 := by
  have hitems : Item.encodeAll s (headItems .v1 describedClass)
      = s.nameBytes "A" ++ ([33, 0, 0, 0, 0, 1] ++ (s.nameBytes "v" ++ ([2]
        ++ (s.typeBytes (.primitive .int) ++ ([1] ++ (s.nameBytes "v" ++ ([1]
        ++ (s.typeBytes (.primitive .int) ++ ([1] ++ (s.typeBytes (.primitive .int)
        ++ [0, 0])))))))))) := rfl
  rw [hitems, h.a, h.v, h.int]
  rfl

theorem encodeAll_describedHead :
    Item.encodeAll s (headItems .v3 describedClass) = describedHead := by
  have hitems : Item.encodeAll s (headItems .v3 describedClass)
      = s.nameBytes "A" ++ ([33, 0, 0, 0, 0, 1] ++ (s.nameBytes "v" ++ ([2]
        ++ (s.typeBytes (.primitive .int) ++ ([1] ++ (s.nameBytes "v" ++ ([1]
        ++ (s.typeBytes (.primitive .int) ++ ([1] ++ (s.typeBytes (.primitive .int)
        ++ ([0, 0, 1] ++ (s.nameBytes? (some "A") ++ ([1, 0x5A, 1, 1] ++ (s.nameBytes "v"
        ++ (s.typeBytes (.primitive .int) ++ [0, 0, 0, 0, 1]))))))))))))))) := rfl
  rw [hitems, h.a, h.a?, h.v, h.int]
  rfl

theorem encodeAll_onComponent : Item.encodeAll s (useItems onComponent) = onComponentBytes := by
  have hitems : Item.encodeAll s (useItems onComponent)
      = s.nameBytes "A" ++ ([1, 5] ++ (s.nameBytes "v" ++ ([1] ++ (s.nameBytes "v"
        ++ ([0x5B, 3, 0x49, 2, 0x40] ++ (s.nameBytes "A" ++ ([0, 0, 0x63]
        ++ (s.typeBytes (.primitive .int) ++ [])))))))) := rfl
  rw [hitems, h.a, h.v, h.int]
  rfl

theorem encodeAll_onParameter : Item.encodeAll s (useItems onParameter) = onParameterBytes := by
  have hitems : Item.encodeAll s (useItems onParameter)
      = s.nameBytes "A" ++ ([0, 4, 2, 0, 0x16, 0, 0]
        ++ (s.typeBytes (.primitive .int) ++ [0])) := rfl
  rw [hitems, h.a, h.int]
  rfl

end RefersTo

theorem writeClasses_describedClass : writeClasses .v3 [describedClass] = describedArchive := by
  have h := refersTo_describedClass .v3
  have hclass : ∀ s : Symbols String, ClassRecord.bytes s (.ofClass .v3 describedClass)
      = Item.encodeAll s (headItems .v3 describedClass) ++ [2]
        ++ (ClassRecord.recordBytes s (useItems onComponent)
          ++ (ClassRecord.recordBytes s (useItems onParameter) ++ [])) := fun s => rfl
  rw [writeClasses_eq, bodyBytes, bytes_describedClass, List.flatMap_singleton, hclass,
    ClassRecord.recordBytes, ClassRecord.recordBytes, encodeAll_describedHead h,
    encodeAll_onComponent h, encodeAll_onParameter h]
  rfl

theorem writeClasses_describedClass_v1 : writeClasses .v1 [describedClass] = describedArchiveV1 := by
  have h := refersTo_describedClass .v1
  have hclass : ∀ s : Symbols String, ClassRecord.bytes s (.ofClass .v1 describedClass)
      = Item.encodeAll s (headItems .v1 describedClass) ++ [1]
        ++ (ClassRecord.recordBytes s (useItems onParameter) ++ []) := fun s => rfl
  rw [writeClasses_eq, bodyBytes, bytes_describedClass, List.flatMap_singleton, hclass,
    ClassRecord.recordBytes, encodeAll_describedHeadV1 h, encodeAll_onParameter h]
  rfl

theorem withinLimits_describedClass (v : Version) : WithinLimits v [describedClass] := by
  constructor
  · cases v <;> decide
  · have htable : (symbolsOfClasses v [describedClass]).tableNodes = 0 := by
      rw [Symbols.tableNodes, (symbols_describedClass v).2]
      rfl
    have htypes : ((writtenTypes v [describedClass]).map Ty.nodes).sum ≤ 6 := by
      cases v <;> decide
    rw [builtNodes, htable, nodeBudget]
    omega

/-- The third version keeps all of the class. The first has no components, so it leaves out the
annotation on one, and of a method it has only the types. -/
theorem read_write_describedClass : ∃ i, Index.ofClasses [describedClass] = .ok i
    ∧ write .v3 i = describedArchive
    ∧ (∃ j, read (write .v3 i) = .ok j ∧ j.classes = [describedClass])
    ∧ (∃ j, read (write .v1 i) = .ok j ∧ j.classes = [{ describedClass with
        methods := [⟨"v", ⟨1⟩, [], [.primitive .int], .primitive .int, [], [], none⟩]
        components := []
        annotations := [onParameter]
        hasNoArgsConstructor := false }])
    ∧ ∃ cs u, (readInto (write .v3 i)).run.run .fresh = (.ok cs, u)
      ∧ cs.map (·.resolve u) = [describedClass] := by
  obtain ⟨i, hi, hclasses⟩ := Index.ofClasses_of_ordered (List.pairwise_singleton _ describedClass)
  have hstorable : ∀ c ∈ i.classes, Storable c := by
    rw [hclasses]
    intro c hc
    obtain rfl := List.mem_singleton.1 hc
    exact ⟨by decide, by decide, by decide, by decide⟩
  have hwrite : write .v3 i = describedArchive := by
    rw [write, hclasses, writeClasses_describedClass]
  have hwriteV1 : write .v1 i = describedArchiveV1 := by
    rw [write, hclasses, writeClasses_describedClass_v1]
  have hlimits : ∀ v, WithinLimits v i.classes := by
    rw [hclasses]
    exact withinLimits_describedClass
  have hthird := read_write (v := .v3) hstorable (by rw [hwrite]; decide) (hlimits .v3)
  have hfirst := read_write (v := .v1) hstorable (by rw [hwriteV1]; decide) (hlimits .v1)
  rw [hclasses] at hthird hfirst
  exact ⟨i, hi, hwrite, hthird.1, hfirst.1, hthird.2 .fresh⟩

end ClassCatalog.Archive
