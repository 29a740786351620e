import ClassCatalog.Archive.TypeTable
import ClassCatalog.Proofs.Archive.Metering
import ClassCatalog.Proofs.Archive.SymbolTables

/-! Reading the tables of a written archive gives back its symbols, each type with the number of
its nodes and its depth. -/

namespace ClassCatalog.Archive

def TypeEntry.ofTy (t : Ty String) : TypeEntry := ⟨t, t.nodes, t.depth⟩

theorem foldl_nodes_eq (ts : List (Ty String)) :
    ts.foldl (fun nodes t => nodes + t.nodes) 1 = 1 + (ts.map Ty.nodes).sum :=
  calc ts.foldl (fun nodes t => nodes + t.nodes) 1
    _ = (ts.map Ty.nodes).foldl (· + ·) (1 + 0) := List.foldl_map.symm
    _ = 1 + (ts.map Ty.nodes).foldl (· + ·) 0 := List.foldl_assoc
    _ = 1 + (ts.map Ty.nodes).sum := by rw [List.sum_eq_foldl_nat]

theorem TypeEntry.branch_parts (t : Ty String) : branch t (t.parts.map ofTy) = ofTy t := by
  have hdepth : t.parts.foldl (fun depth part => max depth (part.depth + 1)) 1 = t.depth := by
    have hfold := Ty.foldl_depth_eq t.parts (Nat.le_refl 1)
    rwa [Nat.max_eq_right (Nat.le_add_right 1 _), ← Ty.depth_eq t] at hfold
  rw [branch, List.foldl_map, List.foldl_map]
  change TypeEntry.mk t (t.parts.foldl (fun nodes part => nodes + part.nodes) 1)
    (t.parts.foldl (fun depth part => max depth (part.depth + 1)) 1) = _
  rw [foldl_nodes_eq, ← Ty.nodes_eq, hdepth, ofTy]

namespace ReadTables

variable {tables : ReadTables} {s : Symbols String}

structure FindsName (tables : ReadTables) (s : Symbols String) (name : String) : Prop where
  fits : s.names.slot name + 1 < UInt64.size
  found : tables.names[s.names.slot name]? = some name

/-- The reading tables have a type in the slot that the written tables give it. -/
structure FindsType (tables : ReadTables) (s : Symbols String) (t : Ty String) : Prop where
  fits : s.types.slot t + 1 < UInt64.size
  found : tables.types[s.types.slot t]? = some (.ofTy t)

theorem takes_name {text : String} (h : tables.FindsName s text) :
    tables.name.Takes (s.nameBytes text) text := by
  have hat : tables.nameAt (s.names.slot text) = .ok text := by rw [nameAt, h.found]
  have hvarint := Scanner.takes_varint (n := s.names.slot text) (Nat.lt_of_succ_lt h.fits)
  refine hvarint.bind_check ?_
  show Scanner.Takes (liftM (tables.nameAt (s.names.slot text))) [] text
  rw [hat]
  exact Scanner.Takes.pure text

theorem takes_name? {text : Option String} (h : ∀ t ∈ text, tables.FindsName s t) :
    tables.name?.Takes (s.nameBytes? text) text := by
  have hslot : ∀ n ∈ text.map s.names.slot, n + 1 < UInt64.size := by
    intro n hn
    obtain ⟨t, ht, rfl⟩ := Option.map_eq_some_iff.1 hn
    exact (h t ht).fits
  refine (Scanner.takes_optional hslot).bind_check ?_
  cases text with
  | none => exact Scanner.Takes.pure none
  | some t =>
    have hat : tables.nameAt (s.names.slot t) = .ok t := by rw [nameAt, (h t rfl).found]
    rw [Option.map_some, Option.mapM_some, hat]
    exact Scanner.Takes.pure (some t)

theorem run_typeAt {slot : Nat} {entry : TypeEntry} (h : tables.types[slot]? = some entry)
    (budget : Nat) (c : Cursor) :
    ((tables.typeAt slot).run budget).run c
      = if budget < entry.nodes then .error (.typeTooLarge slot)
        else .ok ((entry.ty, budget - entry.nodes), c) := by
  have hat : tables.entryAt slot = .ok entry := by rw [entryAt, h]
  have hrun : ((tables.typeAt slot).run budget).run c
      = ((if budget < entry.nodes then do
            throw (.typeTooLarge slot)
            set (budget - entry.nodes)
            pure entry.ty
          else do
            set (budget - entry.nodes)
            pure entry.ty : Metered (Ty String)).run budget).run c := by
    rw [typeAt, hat]
    rfl
  rw [hrun]
  split <;> rfl

theorem run_childAt {slot : Nat} {entry : TypeEntry} (h : tables.types[slot]? = some entry)
    (self budget : Nat) (c : Cursor) :
    ((tables.childAt self slot).run budget).run c
      = if maxTypeDepth < entry.depth + 1 then .error (.typeTooDeep self)
        else if budget < entry.nodes then .error (.typeTooLarge slot)
        else .ok ((entry, budget - entry.nodes), c) := by
  have hat : tables.entryAt slot = .ok entry := by rw [entryAt, h]
  have hrun : ((tables.childAt self slot).run budget).run c
      = ((if maxTypeDepth < entry.depth + 1 then do
            throw (.typeTooDeep self)
            let ty ← tables.typeAt slot
            pure { entry with ty := ty }
          else do
            let ty ← tables.typeAt slot
            pure { entry with ty := ty } : Metered TypeEntry).run budget).run c := by
    rw [childAt, hat]
    rfl
  rw [hrun]
  split
  · rfl
  · rw [Metered.run_bind, run_typeAt h]
    split <;> rfl

theorem reads_typeAt {t : Ty String} (h : tables.FindsType s t) :
    Metered.Reads (tables.typeAt (s.types.slot t)) [] t.nodes True t := by
  intro _ budget rest offset
  rw [run_typeAt h.found]
  by_cases hlt : budget < t.nodes
  · exact .inr ⟨fun hcost => absurd hcost.2 (Nat.not_le.2 hlt), .typeTooLarge _, trivial,
      if_pos hlt⟩
  · exact .inl ⟨trivial, Nat.not_lt.1 hlt, if_neg hlt⟩

theorem reads_childAt {t : Ty String} (h : tables.FindsType s t) (self : Nat) :
    Metered.Reads (tables.childAt self (s.types.slot t)) [] t.nodes (t.depth + 1 ≤ maxTypeDepth)
      (.ofTy t) := by
  intro _ budget rest offset
  rw [run_childAt h.found]
  by_cases hdeep : maxTypeDepth < t.depth + 1
  · exact .inr ⟨fun hfit => absurd hfit.1 (Nat.not_le.2 hdeep), .typeTooDeep self, trivial,
      if_pos hdeep⟩
  · by_cases hlt : budget < t.nodes
    · exact .inr ⟨fun hcost => absurd hcost.2 (Nat.not_le.2 hlt), .typeTooLarge _, trivial,
        (if_neg hdeep).trans (if_pos hlt)⟩
    · exact .inl ⟨Nat.not_lt.1 hdeep, Nat.not_lt.1 hlt, (if_neg hdeep).trans (if_neg hlt)⟩

theorem takes_slot {t : Ty String} (h : tables.FindsType s t) :
    Scanner.varint.Takes (s.typeBytes t) (s.types.slot t) :=
  Scanner.takes_varint (Nat.lt_of_succ_lt h.fits)

theorem takes_slot? {t : Option (Ty String)} (h : ∀ u ∈ t, tables.FindsType s u) :
    Scanner.optional.Takes (s.typeBytes? t) (t.map s.types.slot) := by
  apply Scanner.takes_optional
  intro n hn
  obtain ⟨u, hu, rfl⟩ := Option.map_eq_some_iff.1 hn
  exact (h u hu).fits

theorem reads_type {t : Ty String} (h : tables.FindsType s t) :
    Metered.Reads tables.type (s.typeBytes t) t.nodes True t :=
  Metered.Reads.lift_check (takes_slot h) (reads_typeAt h)

def optionNodes (t : Option (Ty String)) : Nat := t.elim 0 Ty.nodes

theorem reads_type? {t : Option (Ty String)} (h : ∀ u ∈ t, tables.FindsType s u) :
    Metered.Reads tables.type? (s.typeBytes? t) (optionNodes t) True t := by
  refine Metered.Reads.lift_check (takes_slot? h) ?_
  cases t with
  | none => exact Metered.Reads.pure none
  | some u => exact (reads_typeAt (h u rfl)).map some

theorem reads_child {t : Ty String} (h : tables.FindsType s t) (self : Nat) :
    Metered.Reads (do tables.childAt self (← Scanner.varint)) (s.typeBytes t) t.nodes
      (t.depth + 1 ≤ maxTypeDepth) (.ofTy t) :=
  Metered.Reads.lift_check (takes_slot h) (reads_childAt h self)

theorem reads_child? {t : Option (Ty String)} (h : ∀ u ∈ t, tables.FindsType s u) (self : Nat) :
    Metered.Reads (tables.child? self) (s.typeBytes? t) (optionNodes t)
      (∀ u ∈ t, u.depth + 1 ≤ maxTypeDepth) (t.map .ofTy) := by
  refine Metered.Reads.lift_check (takes_slot? h) ?_
  cases t with
  | none => exact (Metered.Reads.pure none).congr rfl rfl (by simp)
  | some u => exact ((reads_childAt (h u rfl) self).map some).congr rfl rfl (by simp)

theorem length_typeBytes_pos (t : Ty String) : 0 < (s.typeBytes t).length :=
  Varint.length_encode_pos _

theorem reads_children {ts : List (Ty String)} (h : ∀ t ∈ ts, tables.FindsType s t) (self : Nat) :
    Metered.Reads (tables.children self) (s.typesBytes ts) (ts.map Ty.nodes).sum
      (∀ t ∈ ts, t.depth + 1 ≤ maxTypeDepth) (ts.map .ofTy) :=
  Metered.Reads.counted s.typeBytes Ty.nodes _ TypeEntry.ofTy ts
    (fun t _ => length_typeBytes_pos t) fun t ht => reads_child (h t ht) self

end ReadTables

namespace TypeEntry

variable {tables : ReadTables} {s : Symbols String} {name : String}

theorem map_ty_map_ofTy (ts : List (Ty String)) : (ts.map ofTy).map (·.ty) = ts := by
  rw [List.map_map]
  exact List.map_id ts

theorem reads_label (h : tables.FindsName s name) (kind : String → Ty String) :
    Metered.Reads (do return leaf (kind (← tables.name))) (s.nameBytes name) 0 True
      (leaf (kind name)) :=
  (Metered.Reads.lift (ReadTables.takes_name h)).map fun name => leaf (kind name)

theorem reads_array {c : Ty String} (h : tables.FindsType s c) (self : Nat) (d : UInt8) :
    Metered.Reads (do
        let component ← tables.childAt self (← Scanner.varint)
        let dimensions ← Scanner.byte
        return branch (.array dimensions component.ty) [component])
      (s.typeBytes c ++ [d]) c.nodes (c.depth + 1 ≤ maxTypeDepth)
      (branch (.array d c) [ofTy c]) := by
  have hdimensions := (Metered.Reads.lift (Scanner.takes_byte d)).map fun dimensions =>
    branch (.array dimensions c) [ofTy c]
  have hcomponent := (ReadTables.reads_childAt h self).bind
    (f := fun component => do return branch (.array (← Scanner.byte) component.ty) [component])
    hdimensions
  exact (Metered.Reads.lift_bind (ReadTables.takes_slot h) hcomponent).congr rfl
    (Nat.add_zero _) (iff_of_eq (and_true _))

theorem reads_parameterized {owner : Option (Ty String)} {arguments : List (Ty String)}
    (hname : tables.FindsName s name) (howner : ∀ o ∈ owner, tables.FindsType s o)
    (harguments : ∀ a ∈ arguments, tables.FindsType s a) (self : Nat) :
    Metered.Reads (do
        let name ← tables.name
        let owner ← tables.child? self
        return parameterized name owner (← tables.children self))
      (s.nameBytes name ++ (s.typeBytes? owner ++ s.typesBytes arguments))
      (ReadTables.optionNodes owner + (arguments.map Ty.nodes).sum)
      ((∀ o ∈ owner, o.depth + 1 ≤ maxTypeDepth) ∧ ∀ a ∈ arguments, a.depth + 1 ≤ maxTypeDepth)
      (parameterized name (owner.map ofTy) (arguments.map ofTy)) :=
  Metered.Reads.lift_bind (ReadTables.takes_name hname)
    ((ReadTables.reads_child? howner self).bind ((ReadTables.reads_children harguments self).map _))

theorem reads_typeParameter {bounds : List (Ty String)} (hname : tables.FindsName s name)
    (hbounds : ∀ b ∈ bounds, tables.FindsType s b) (self : Nat) (implicitObject : Bool) :
    Metered.Reads (do
        let name ← tables.name
        let implicitObject ← Scanner.bool
        let bounds ← tables.children self
        return branch (.typeParameter name implicitObject (bounds.map (·.ty))) bounds)
      (s.nameBytes name ++ (boolByte implicitObject :: s.typesBytes bounds))
      (bounds.map Ty.nodes).sum (∀ b ∈ bounds, b.depth + 1 ≤ maxTypeDepth)
      (branch (.typeParameter name implicitObject bounds) (bounds.map ofTy)) := by
  have hchildren := (ReadTables.reads_children hbounds self).map fun bounds =>
    branch (.typeParameter name implicitObject (bounds.map (·.ty))) bounds
  rw [map_ty_map_ofTy] at hchildren
  exact Metered.Reads.lift_bind (ReadTables.takes_name hname)
    (Metered.Reads.lift_bind (Scanner.takes_bool implicitObject) hchildren)

theorem reads_wildcard {bound : Option (Ty String)} (hbound : ∀ b ∈ bound, tables.FindsType s b)
    (self : Nat) (isExtends : Bool) :
    Metered.Reads (do
        let isExtends ← Scanner.bool
        return wildcard isExtends (← tables.child? self))
      (boolByte isExtends :: s.typeBytes? bound) (ReadTables.optionNodes bound)
      (∀ b ∈ bound, b.depth + 1 ≤ maxTypeDepth) (wildcard isExtends (bound.map ofTy)) :=
  Metered.Reads.lift_bind (Scanner.takes_bool isExtends)
    ((ReadTables.reads_child? hbound self).map (wildcard isExtends))

theorem parameterized_none (n : String) (as : List (Ty String)) :
    parameterized n none (as.map ofTy) = ofTy (.parameterized n as) := by
  rw [parameterized, map_ty_map_ofTy]
  exact branch_parts (.parameterized n as)

theorem parameterized_some (o : Ty String) (n : String) (as : List (Ty String)) :
    parameterized n (some (ofTy o)) (as.map ofTy) = ofTy (.inner o n as) := by
  rw [parameterized, map_ty_map_ofTy]
  exact branch_parts (.inner o n as)

theorem reads_record {t : Ty String} (hname : ∀ label ∈ t.name?, tables.FindsName s label)
    (hparts : ∀ p ∈ t.parts, tables.FindsType s p) :
    Metered.Reads (read tables) (s.typeRecord t) (t.parts.map Ty.nodes).sum
      (t.depth ≤ maxTypeDepth) (ofTy t) := by
  rw [propext (Ty.depth_le_iff t (by decide) : t.depth ≤ maxTypeDepth ↔ _)]
  -- The kind comes first; its byte decides which branch of the reader is taken.
  refine Metered.Reads.lift_bind (Scanner.takes_byte _) ?_
  cases t with
  | primitive p =>
    have hp := (Metered.Reads.lift (Scanner.takes_byte (UInt8.ofNat p.code))).map fun _ =>
      leaf (.primitive p)
    cases p <;> exact hp.congr rfl rfl (by simp [Ty.parts])
  | void => exact (Metered.Reads.pure _).congr rfl rfl (by simp [Ty.parts])
  | named n => exact (reads_label (hname n rfl) .named).congr rfl rfl (by simp [Ty.parts])
  | typeVariable n =>
    exact (reads_label (hname n rfl) .typeVariable).congr rfl rfl (by simp [Ty.parts])
  | unresolved n =>
    exact (reads_label (hname n rfl) .unresolved).congr rfl rfl (by simp [Ty.parts])
  | array d c =>
    rw [← branch_parts]
    exact (reads_array (hparts c (by simp [Ty.parts])) _ d).congr rfl (by simp [Ty.parts])
      (by simp [Ty.parts])
  | parameterized n as =>
    rw [← parameterized_none]
    have howner : ∀ u ∈ (none : Option (Ty String)), tables.FindsType s u := by simp
    exact (reads_parameterized (hname n rfl) howner hparts _).congr (by simp [Ty.parts])
      (by simp [ReadTables.optionNodes, Ty.parts]) (by simp [Ty.parts])
  | inner o n as =>
    rw [← parameterized_some]
    have howner : ∀ u ∈ some o, tables.FindsType s u := by simpa using hparts o List.mem_cons_self
    have harguments := fun p hp => hparts p (List.mem_cons_of_mem o hp)
    exact (reads_parameterized (hname n rfl) howner harguments _).congr
      (by simp) (by simp [ReadTables.optionNodes, Ty.parts]) (by simp [Ty.parts])
  | typeParameter n i bs =>
    rw [← branch_parts]
    exact (reads_typeParameter (hname n rfl) hparts _ i).congr (by simp [Ty.parts]) rfl .rfl
  | wildcard e =>
    have hbound : ∀ u ∈ (none : Option (Ty String)), tables.FindsType s u := by simp
    exact (reads_wildcard hbound _ e).congr rfl rfl (by simp [Ty.parts])
  | bounded e b =>
    have hbound : ∀ u ∈ some b, tables.FindsType s u := by simpa using hparts b (by simp [Ty.parts])
    rw [← branch_parts]
    exact (reads_wildcard hbound _ e).congr rfl (by simp [ReadTables.optionNodes, Ty.parts])
      (by simp [Ty.parts])

end TypeEntry

theorem Scanner.takes_times {α ι : Type} {item : Scanner α} (enc : ι → List UInt8)
    (value : ι → α) (xs : List ι) (h : ∀ x ∈ xs, item.Takes (enc x) (value x)) :
    (times xs.length item).Takes (xs.flatMap enc) (xs.map value) := by
  induction xs with
  | nil => exact Takes.pure []
  | cons x xs ih =>
    have hrest := ih fun y hy => h y (List.mem_cons_of_mem x hy)
    have hmore := (h x List.mem_cons_self).bind
      (f := fun a => do return a :: (← times xs.length item)) (hrest.map (value x :: ·))
    rwa [← List.flatMap_cons, ← List.map_cons] at hmore

theorem length_textBytes_pos (text : String) : 0 < (textBytes text).length := by
  have h := Varint.length_encode_pos text.toUTF8.data.toList.length
  rw [textBytes, List.length_append]
  omega

theorem takes_texts {texts : List String} (h : (texts.flatMap textBytes).length < UInt64.size) :
    (Scanner.counted Scanner.text).Takes (Varint.encode texts.length ++ texts.flatMap textBytes)
      texts := by
  have hcount : texts.length ≤ (texts.flatMap textBytes).length :=
    length_le_length_flatMap fun text _ => length_textBytes_pos text
  have htexts := Scanner.takes_times textBytes id texts fun text ht =>
    Scanner.takes_text (Nat.lt_of_le_of_lt (length_le_of_mem_flatMap ht) h)
  rw [List.map_id] at htexts
  exact (Scanner.takes_varint (Nat.lt_of_le_of_lt hcount h)).count_bind hcount htexts

namespace Symbols

def readTables (s : Symbols String) : ReadTables :=
  ⟨s.names.values, (s.types.values.toList.map TypeEntry.ofTy).toArray⟩

/-- What building the types of the table costs: the nodes of the parts of each. -/
def tableNodes (s : Symbols String) : Nat :=
  (s.types.values.toList.map fun t => (t.parts.map Ty.nodes).sum).sum

theorem size_names_le (s : Symbols String) :
    s.names.size ≤ (s.names.values.toList.flatMap textBytes).length := by
  have h : s.names.values.toList.length ≤ (s.names.values.toList.flatMap textBytes).length :=
    length_le_length_flatMap fun text _ => length_textBytes_pos text
  rwa [Array.length_toList] at h

theorem size_types_le (s : Symbols String) :
    s.types.size ≤ (s.types.values.toList.flatMap s.typeRecord).length := by
  have h : s.types.values.toList.length ≤ (s.types.values.toList.flatMap s.typeRecord).length :=
    length_le_length_flatMap fun t _ => Nat.succ_pos _
  rwa [Array.length_toList] at h

theorem bytes_id (s : Symbols String) :
    s.bytes id = Varint.encode s.names.size ++ s.names.values.toList.flatMap textBytes
      ++ Varint.encode s.types.size ++ s.types.values.toList.flatMap s.typeRecord := rfl

theorem sizes_le_length_bytes (s : Symbols String) :
    s.names.size ≤ (s.bytes id).length ∧ s.types.size ≤ (s.bytes id).length := by
  have hnames := s.size_names_le
  have htypes := s.size_types_le
  simp only [bytes_id, List.length_append]
  omega

end Symbols

namespace ReadTables

variable {s : Symbols String}

theorem findsName_of_hasName {tables : ReadTables} (hnames : tables.names = s.names.values)
    (hsize : s.names.size < UInt64.size) {name : String} (h : s.HasName name) :
    tables.FindsName s name := by
  obtain ⟨k, hk⟩ := h
  have hlt := Numbering.lt_size_of_value? hk
  constructor
  · rw [Numbering.slot_of_value? hk]
    omega
  · rw [hnames, Numbering.slot_of_value? hk]
    exact hk

theorem findsType_of_lt {done todo : List (Ty String)}
    (hvalues : s.types.values.toList = done ++ todo)
    (hsize : s.types.size < UInt64.size) {names : Array String} {t : Ty String} {k : Nat}
    (hk : s.types.value? k = some t) (hlt : k < done.length) :
    (⟨names, (done.map TypeEntry.ofTy).toArray⟩ : ReadTables).FindsType s t := by
  have hat : (done ++ todo)[k]? = some t := by
    rw [← hvalues, Array.getElem?_toList]
    exact hk
  rw [List.getElem?_append_left hlt] at hat
  have hbound := Numbering.lt_size_of_value? hk
  constructor
  · rw [Numbering.slot_of_value? hk]
    omega
  · rw [Numbering.slot_of_value? hk, List.getElem?_toArray, List.getElem?_map, hat]
    rfl

theorem reads_readTypes (hclosed : s.Closed fun _ => True) (hnames : s.names.size < UInt64.size)
    (htypes : s.types.size < UInt64.size) (done todo : List (Ty String))
    (hvalues : s.types.values.toList = done ++ todo) :
    Metered.Reads (readTypes todo.length ⟨s.names.values, (done.map .ofTy).toArray⟩)
      (todo.flatMap s.typeRecord) (todo.map fun t => (t.parts.map Ty.nodes).sum).sum
      (∀ t ∈ todo, t.depth ≤ maxTypeDepth)
      ⟨s.names.values, ((done ++ todo).map .ofTy).toArray⟩ := by
  induction todo generalizing done with
  | nil =>
    rw [List.append_nil]
    exact (Metered.Reads.pure _).congr rfl rfl (by simp)
  | cons t todo ih =>
    have hslot : s.types.value? done.length = some t := by
      rw [Numbering.value?, ← Array.getElem?_toList, hvalues]
      simp
    have hlabel : ∀ label ∈ t.name?,
        FindsName ⟨s.names.values, (done.map .ofTy).toArray⟩ s label := fun label hl =>
      findsName_of_hasName rfl hnames (hclosed.name _ t hslot label hl)
    have hparts : ∀ p ∈ t.parts,
        FindsType ⟨s.names.values, (done.map .ofTy).toArray⟩ s p := by
      intro p hp
      obtain ⟨k, hlt, hk⟩ := hclosed.parts _ t hslot p hp
      exact findsType_of_lt hvalues htypes hk hlt
    have hrecord := TypeEntry.reads_record hlabel hparts
    have hrest := ih (done ++ [t]) (by rw [hvalues, List.append_assoc, List.singleton_append])
    rw [List.map_append, List.map_singleton, ← List.push_toArray, List.append_assoc,
      List.singleton_append] at hrest
    exact (hrecord.bind hrest).congr (by simp) (by simp) (by simp)

theorem reads_tables (hclosed : s.Closed fun _ => True) :
    Metered.Reads ReadTables.read (s.bytes id) s.tableNodes
      (∀ t ∈ s.types.values.toList, t.depth ≤ maxTypeDepth) s.readTables := by
  intro hlength
  obtain ⟨hnames, htypes⟩ := s.sizes_le_length_bytes
  have hlengths : (s.names.values.toList.flatMap textBytes).length < UInt64.size := by
    simp only [Symbols.bytes_id, List.length_append] at hlength
    omega
  have hread := Metered.Reads.lift_bind (takes_texts hlengths)
    (f := fun names => do ReadTables.readTypes (← Scanner.count) ⟨names.toArray, #[]⟩)
    (Metered.Reads.count_bind (by rw [Array.length_toList]; exact s.size_types_le)
      (reads_readTypes hclosed (by omega) (by omega) [] s.types.values.toList rfl))
  refine hread.congr ?_ rfl .rfl hlength
  simp [Symbols.bytes_id, Numbering.size]

end ReadTables

end ClassCatalog.Archive
