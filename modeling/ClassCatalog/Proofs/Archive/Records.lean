import ClassCatalog.Archive.Write
import ClassCatalog.Proofs.Archive.Items
import ClassCatalog.Proofs.Archive.Kept

/-! The items of values, members, annotations and whole classes are read back. -/

namespace ClassCatalog

namespace Value

variable {ν : Type}

theorem membersDepth_le_iff (members : List (ν × Value ν)) (d : Nat) :
    membersDepth members ≤ d ↔ ∀ m ∈ members, m.2.depth ≤ d := by
  induction members with
  | nil => simp [membersDepth]
  | cons m members ih =>
    obtain ⟨n, v⟩ := m
    rw [membersDepth, Nat.max_le, ih, List.forall_mem_cons]

theorem elementsDepth_le_iff (elements : List (Value ν)) (d : Nat) :
    elementsDepth elements ≤ d ↔ ∀ v ∈ elements, v.depth ≤ d := by
  induction elements with
  | nil => simp [elementsDepth]
  | cons v elements ih => rw [elementsDepth, Nat.max_le, ih, List.forall_mem_cons]

end Value

namespace Archive

def memberItems (m : String × Value String) : List (Item String) := .name m.1 :: valueItems m.2

theorem membersParts_eq (members : List (String × Value String)) :
    membersParts members = members.flatMap memberItems := by
  induction members with
  | nil => rfl
  | cons m members ih =>
    obtain ⟨n, v⟩ := m
    rw [membersParts, ih]
    rfl

theorem elementsParts_eq (elements : List (Value String)) :
    elementsParts elements = elements.flatMap valueItems := by
  induction elements with
  | nil => rfl
  | cons v elements ih =>
    rw [elementsParts, ih]
    rfl

variable {tables : ReadTables} {s : Symbols String}

theorem restores_members {value : Metered (Value String)} {members : List (String × Value String)}
    (h : ∀ m ∈ members, Restores tables s value (valueItems m.2) m.2) :
    Restores tables s (readMembers tables value) (membersItems members) members := by
  have hmembers : Restores tables s (readMembers tables value)
      (Item.counted memberItems members) (members.map id) :=
    Restores.counted memberItems id members (fun m _ => Item.length_encodeAll_pos rfl _)
      fun m hm => (Restores.name m.1).cons ((h m hm).map fun v => (m.1, v))
  rw [List.map_id, Item.counted, ← membersParts_eq] at hmembers
  exact hmembers

theorem restores_elements {value : Metered (Value String)} {elements : List (Value String)}
    (h : ∀ v ∈ elements, Restores tables s value (valueItems v) v) :
    Restores tables s (counted value) (.number elements.length :: elementsParts elements)
      elements := by
  have helements : Restores tables s (counted value) (Item.counted valueItems elements)
      (elements.map id) :=
    Restores.counted valueItems id elements (fun v _ => Item.length_encodeAll_pos rfl _) h
  rw [List.map_id, Item.counted, ← elementsParts_eq] at helements
  exact helements

theorem restores_signedIn {z least greatest : Int} (hl : least ≤ z) (hg : z ≤ greatest)
    (hleast : Int64.minValue.toInt ≤ least) (hgreatest : greatest ≤ Int64.maxValue.toInt) :
    Restores tables s (liftM (Scanner.signedIn least greatest)) [.signed z] z :=
  Restores.raw (Scanner.takes_signedIn (Zigzag.encode_lt (by omega) (by omega)) hl hg)

theorem restores_value {levels : Nat} {v : Value String} (h : v.depth ≤ levels) :
    Restores tables s (readValue tables levels) (valueItems v) v := by
  induction levels generalizing v with
  | zero =>
    have hpos : 0 < v.depth := by
      cases v <;> simp only [Value.depth] <;> omega
    omega
  | succ levels ih =>
    refine (Restores.byte (UInt8.ofNat v.tag.toNat)).cons ?_
    cases v with
    | byte v =>
      have hv : Restores tables s (liftM (Scanner.signedIn (-128) 127)) [.signed v.toInt] v.toInt :=
        restores_signedIn v.le_toInt (Int.le_of_lt_add_one v.toInt_lt) (by decide) (by decide)
      exact hv.map_back (fun z => Value.byte (Int8.ofInt z)) (by rw [Int8.ofInt_toInt])
    | short v =>
      have hv : Restores tables s (liftM (Scanner.signedIn (-32768) 32767)) [.signed v.toInt]
          v.toInt :=
        restores_signedIn v.le_toInt (Int.le_of_lt_add_one v.toInt_lt) (by decide) (by decide)
      exact hv.map_back (fun z => Value.short (Int16.ofInt z)) (by rw [Int16.ofInt_toInt])
    | int v =>
      have hv : Restores tables s (liftM (Scanner.signedIn (-2147483648) 2147483647))
          [.signed v.toInt] v.toInt :=
        restores_signedIn v.le_toInt (Int.le_of_lt_add_one v.toInt_lt) (by decide) (by decide)
      exact hv.map_back (fun z => Value.int (Int32.ofInt z)) (by rw [Int32.ofInt_toInt])
    | long v =>
      have hv : Restores tables s (liftM Scanner.signed) [.signed v.toInt] v.toInt :=
        Restores.raw (Scanner.takes_signed (Zigzag.encode_lt v.minValue_le_toInt v.toInt_le))
      exact hv.map_back (fun z => Value.long (Int64.ofInt z)) (by rw [Int64.ofInt_toInt])
    | char v =>
      have hv : Restores tables s (liftM (Scanner.varintBelow UInt16.size)) [.number v.toNat] v.toNat :=
        Restores.number v.toNat_lt (by decide)
      exact hv.map_back (fun n => Value.char (UInt16.ofNat n)) (by rw [UInt16.ofNat_toNat])
    | float v =>
      exact (Restores.raw (Scanner.takes_single v.bits.toNat_lt)).map_back
        (fun n => Value.float ⟨UInt32.ofNat n⟩) (by rw [UInt32.ofNat_toNat])
    | double v =>
      exact (Restores.raw (Scanner.takes_double v.bits.toNat_lt)).map_back
        (fun n => Value.double ⟨UInt64.ofNat n⟩) (by rw [UInt64.ofNat_toNat])
    | boolean v => exact (Restores.bool v).map Value.boolean
    | string text => exact (Restores.name text).map Value.string
    | classLiteral ty => exact (Restores.type ty).map Value.classLiteral
    | enumConstant type constant =>
      exact (Restores.name type).cons ((Restores.name constant).map (Value.enumConstant type))
    | nested name visible members =>
      rw [Value.depth, Nat.add_comm, Nat.add_le_add_iff_right, Value.membersDepth_le_iff] at h
      have hmembers := restores_members fun m hm => ih (h m hm)
      exact (Restores.name name).cons
        ((Restores.bool visible).cons (hmembers.map (Value.nested name visible)))
    | array elements =>
      rw [Value.depth, Nat.add_comm, Nat.add_le_add_iff_right, Value.elementsDepth_le_iff] at h
      exact (restores_elements fun v hv => ih (h v hv)).map Value.array

theorem restores_index (i : UInt32) : Restores tables s readIndex [.number i.toNat] i :=
  (Restores.number i.toNat_lt (by decide)).map_back _ UInt32.ofNat_toNat

theorem restores_word (w : UInt16) : Restores tables s readWord [.number w.toNat] w :=
  (Restores.number w.toNat_lt (by decide)).map_back _ UInt16.ofNat_toNat

def declarationTag : DeclRef String → Nat
  | .type _ => 0
  | .field .. => 1
  | .method .. => 2
  | .component .. => 5

def declarationParts : DeclRef String → List (Item String)
  | .type _ => []
  | .field _ name | .component _ name => [.name name]
  | .method _ index => [.number index.toNat]

theorem declarationItems_eq (d : DeclRef String) :
    declarationItems d = .code (declarationTag d) :: declarationParts d := by
  cases d <;> rfl

variable {v : Version}

theorem restores_declaration {d : DeclRef String} (h : v.holdsRef d = true) :
    Restores tables s
      (readDeclaration tables v d.declaringClass (UInt8.ofNat (declarationTag d)).toNat)
      (declarationParts d) (some d) := by
  cases d with
  | type c => exact Restores.pure (some (DeclRef.type c))
  | field c name => exact (Restores.name name).map fun n => some (DeclRef.field c n)
  | method c index => exact (restores_index index).map fun i => some (DeclRef.method c i)
  | component c name =>
    show Restores tables s (if v.hasComponents then _ else _) _ _
    rw [if_pos (show v.hasComponents = true from h)]
    exact (Restores.name name).map fun n => some (DeclRef.component c n)

theorem restores_use (u : TypeUse) :
    Restores tables s readUse (.byte u.code :: useParts u) (some u) := by
  refine (Restores.byte u.code).cons ?_
  cases u with
  | classTypeParameter p =>
    exact (Restores.byte p).map fun p => some (TypeUse.classTypeParameter p)
  | methodTypeParameter p =>
    exact (Restores.byte p).map fun p => some (TypeUse.methodTypeParameter p)
  | supertype i => exact (restores_word i).map fun i => some (TypeUse.supertype i)
  | classTypeParameterBound p b =>
    exact (Restores.byte p).cons
      ((Restores.byte b).map fun b => some (TypeUse.classTypeParameterBound p b))
  | methodTypeParameterBound p b =>
    exact (Restores.byte p).cons
      ((Restores.byte b).map fun b => some (TypeUse.methodTypeParameterBound p b))
  | field => exact Restores.pure (some TypeUse.field)
  | returnType => exact Restores.pure (some TypeUse.returnType)
  | receiver => exact Restores.pure (some TypeUse.receiver)
  | formalParameter p => exact (Restores.byte p).map fun p => some (TypeUse.formalParameter p)
  | thrown i => exact (restores_word i).map fun i => some (TypeUse.thrown i)

theorem restores_step (step : PathStep) :
    Restores tables s readStep (stepItems step) step := by
  refine (Restores.byte step.code.1).cons ((Restores.byte step.code.2).bind ?_)
  simp only [PathStep.ofCode?_code]
  exact Restores.pure step

theorem restores_path (path : List PathStep) :
    Restores tables s (counted readStep) (Item.counted stepItems path) path := by
  have hsteps : Restores tables s (counted readStep) (Item.counted stepItems path)
      (path.map id) :=
    Restores.counted stepItems id path (fun step _ => Item.length_encodeAll_pos rfl _)
      fun step _ => restores_step step
  rwa [List.map_id] at hsteps

theorem restores_typeTarget {t : TypeTarget String} (h : v.holdsRef t.enclosing = true) :
    Restores tables s (readTypeTarget tables v t.enclosing.declaringClass) (typeTargetItems t)
      (some t) := by
  have hitems : typeTargetItems t = .code (declarationTag t.enclosing) ::
      (declarationParts t.enclosing ++ ((.byte t.use.code :: useParts t.use)
        ++ (Item.counted stepItems t.path ++ [.type t.ty]))) := by
    rw [typeTargetItems, declarationItems_eq]
    simp only [List.cons_append, List.append_assoc]
  rw [hitems]
  refine (Restores.byte _).cons ((restores_declaration h).bind ?_)
  refine (restores_use t.use).bind ((restores_path t.path).bind ?_)
  exact (Restores.type t.ty).map fun ty => some (TypeTarget.mk t.enclosing t.use t.path ty)

theorem restores_target {target : Option (Target String)} {owner : String}
    (howner : ∀ t ∈ target, t.declaringClass = owner)
    (hholds : ∀ t ∈ target, v.holdsRef t.belongsTo = true) :
    Restores tables s (readTarget tables v owner) (targetItems target) (some target) := by
  cases target with
  | none => exact (Restores.byte 6).cons (Restores.pure (some none))
  | some t =>
    have ht := hholds t rfl
    rw [← howner t rfl]
    cases t with
    | parameter c method position =>
      exact (Restores.byte 3).cons ((restores_index method).cons
        ((restores_word position).map fun p => some (some (Target.parameter c method p))))
    | typeUse t =>
      refine (Restores.byte 4).cons ?_
      exact (restores_typeTarget ht).map fun t => t.map fun t => some (Target.typeUse t)
    | declaration d =>
      show Restores tables s (readTarget tables v d.declaringClass) (declarationItems d) _
      rw [declarationItems_eq]
      refine (Restores.byte _).cons ?_
      cases d <;> exact (restores_declaration ht).map fun d =>
        d.map fun d => some (Target.declaration d)

theorem restores_useOf {a : AnnotationUse String} {owner : String}
    (howner : ∀ t ∈ a.target, t.declaringClass = owner) (hholds : v.holds a = true)
    (hdepth : Value.membersDepth a.members ≤ maxValueDepth) :
    Restores tables s (readUseOf tables v owner) (useItems a) (some a) := by
  have hitems : useItems a = .name a.name :: .bool a.visible ::
      (targetItems a.target ++ membersItems a.members) := by
    simp [useItems]
  rw [Value.membersDepth_le_iff] at hdepth
  rw [hitems]
  refine (Restores.name a.name).cons ((Restores.bool a.visible).cons ?_)
  refine (restores_target howner ((v.holds_iff a).1 hholds)).bind ?_
  exact (restores_members fun m hm => restores_value (hdepth m hm)).map fun members =>
    some (AnnotationUse.mk a.name a.visible a.target members)

theorem restores_field (f : FieldDecl String) :
    Restores tables s (readField tables) (fieldItems f) f := by
  refine (Restores.name f.name).cons ((Restores.flags f.flags).cons ?_)
  exact (Restores.type f.ty).map fun ty => FieldDecl.mk f.name f.flags ty

theorem restores_component (k : ComponentDecl String) :
    Restores tables s (readComponent tables) (componentItems k) k :=
  (Restores.name k.name).cons ((Restores.type k.ty).map fun ty => ComponentDecl.mk k.name ty)

theorem restores_methodDetails {m : MethodDecl String}
    (hdefault : ∀ value ∈ m.default, value.depth ≤ maxValueDepth) :
    Restores tables s (readMethodDetails tables v) (if v.hasDetails then methodDetails m else [])
      (if v.hasDetails then m.parameterNames else [], if v.hasDetails then m.default else none) := by
  unfold readMethodDetails
  cases hv : v.hasDetails with
  | false => exact Restores.pure ([], none)
  | true =>
    have hnames : Restores tables s (counted (liftM tables.name?))
        (Item.counted (fun name => [.name? name]) m.parameterNames) (m.parameterNames.map id) :=
      Restores.counted _ id m.parameterNames (fun name _ => Item.length_encodeAll_pos rfl _)
        fun name _ => Restores.name? name
    rw [List.map_id] at hnames
    simp only [↓reduceIte, methodDetails]
    refine hnames.bind ?_
    cases hd : m.default with
    | none => exact (Restores.bool false).cons (Restores.pure (m.parameterNames, none))
    | some value =>
      refine (Restores.bool true).cons ?_
      exact (restores_value (hdefault value hd)).map fun value => (m.parameterNames, some value)

theorem restores_method {m : MethodDecl String}
    (hdefault : ∀ value ∈ m.default, value.depth ≤ maxValueDepth) :
    Restores tables s (readMethod tables v) (methodItems v m) (v.keepMethod m) := by
  have hitems : methodItems v m = .name m.name :: .flags m.flags :: .type m.returnType ::
      (Item.types m.parameters ++ (Item.types m.exceptions ++ (Item.types m.typeParameters
        ++ if v.hasDetails then methodDetails m else []))) := by
    simp [methodItems]
  rw [hitems]
  refine (Restores.name m.name).cons ((Restores.flags m.flags).cons ?_)
  refine (Restores.type m.returnType).cons ((Restores.typeList m.parameters).bind ?_)
  refine (Restores.typeList m.exceptions).bind ((Restores.typeList m.typeParameters).bind ?_)
  rw [v.keepMethod_eq]
  exact (restores_methodDetails hdefault).map fun d =>
    MethodDecl.mk m.name m.flags m.typeParameters m.parameters m.returnType m.exceptions d.1 d.2

theorem restores_methods {methods : List (MethodDecl String)}
    (hdefault : ∀ m ∈ methods, ∀ value ∈ m.default, value.depth ≤ maxValueDepth) {index : Nat}
    (hindex : index + methods.length ≤ UInt32.size) :
    Restores tables s (readMethods tables v methods.length index)
      (methods.flatMap (methodItems v)) (methods.map v.keepMethod) := by
  induction methods generalizing index with
  | nil => exact Restores.pure []
  | cons m methods ih =>
    rw [List.length_cons] at hindex
    have hm := hdefault m List.mem_cons_self
    have hlt : index < UInt32.size := by omega
    have hnext : index + 1 + methods.length ≤ UInt32.size := by omega
    have hrest := ih (fun k hk => hdefault k (List.mem_cons_of_mem m hk)) hnext
    show Restores tables s (do
      unless index < UInt32.size do throw (.badReference "method" index)
      let method ← readMethod tables v
      return method :: (← readMethods tables v methods.length (index + 1))) _ _
    rw [if_pos hlt]
    exact (restores_method hm).bind (hrest.map fun ms => v.keepMethod m :: ms)

theorem restores_nesting (n : Nesting String) :
    Restores tables s (readNesting tables) (nestingItems n) n := by
  obtain ⟨kind, enclosingClass, simpleName, enclosingMethod⟩ := n
  have hrest : Restores tables s (do
      let enclosingClass ← tables.name?
      let simpleName ← tables.name?
      if ← Scanner.bool then
        let owner ← tables.name
        let name ← tables.name
        let descriptor ← tables.name
        return ⟨kind, enclosingClass, simpleName, some ⟨owner, name, descriptor⟩⟩
      else return ⟨kind, enclosingClass, simpleName, none⟩)
      (.name? enclosingClass :: .name? simpleName :: enclosingItems enclosingMethod)
      (⟨kind, enclosingClass, simpleName, enclosingMethod⟩ : Nesting String) := by
    refine (Restores.name? enclosingClass).cons ((Restores.name? simpleName).cons ?_)
    cases enclosingMethod with
    | none => exact (Restores.bool false).cons (Restores.pure _)
    | some e =>
      refine (Restores.bool true).cons ((Restores.name e.owner).cons ?_)
      refine (Restores.name e.name).cons ?_
      exact (Restores.name e.descriptor).map fun d =>
        Nesting.mk kind enclosingClass simpleName (some ⟨e.owner, e.name, d⟩)
  refine (Restores.byte (UInt8.ofNat kind.code)).cons ?_
  cases kind <;> exact hrest

theorem restores_components (components : List (ComponentDecl String)) :
    Restores tables s (readComponents tables v)
      (if v.hasComponents then Item.counted componentItems components else [])
      (if v.hasComponents then components else []) := by
  unfold readComponents
  split
  · have hall : Restores tables s (counted (readComponent tables))
        (Item.counted componentItems components) (components.map id) :=
      Restores.counted componentItems id components
        (fun k _ => Item.length_encodeAll_pos rfl _) fun k _ => restores_component k
    rwa [List.map_id] at hall
  · exact Restores.pure []

theorem restores_classDetails (c : ClassDecl String) :
    Restores tables s (readClassDetails tables v)
      (if v.hasDetails then nestingItems c.nesting ++ [.bool c.hasNoArgsConstructor] else [])
      (if v.hasDetails then c.nesting else .topLevel,
        if v.hasDetails then c.hasNoArgsConstructor else false) := by
  unfold readClassDetails
  split
  · exact (restores_nesting c.nesting).bind
      ((Restores.bool c.hasNoArgsConstructor).map fun b => (c.nesting, b))
  · exact Restores.pure (Nesting.topLevel, false)

theorem restores_fields (fields : List (FieldDecl String)) :
    Restores tables s (counted (readField tables)) (Item.counted fieldItems fields) fields := by
  have hall : Restores tables s (counted (readField tables)) (Item.counted fieldItems fields)
      (fields.map id) :=
    Restores.counted fieldItems id fields (fun f _ => Item.length_encodeAll_pos rfl _)
      fun f _ => restores_field f
  rwa [List.map_id] at hall

/-- Classes that an archive can hold. Its targets leave out their class, methods are counted by
32 bits, and values nest only so deep. -/
structure Storable (c : ClassDecl String) : Prop where
  targets : ∀ a ∈ c.annotations, ∀ t ∈ a.target, t.declaringClass = c.name
  methods : c.methods.length ≤ UInt32.size
  members : ∀ a ∈ c.annotations, Value.membersDepth a.members ≤ maxValueDepth
  defaults : ∀ m ∈ c.methods, ∀ value ∈ m.default, value.depth ≤ maxValueDepth

theorem restores_head {c : ClassDecl String} (h : Storable c) :
    Restores tables s (readHead tables v) (headItems v c)
      { v.keep c with annotations := [] } := by
  have hitems : headItems v c = .name c.name :: .flags c.flags :: .name? c.superName ::
      .type? c.superType :: (Item.types c.interfaces ++ (Item.types c.typeParameters
        ++ (Item.counted fieldItems c.fields ++ (.number c.methods.length ::
          (c.methods.flatMap (methodItems v)
            ++ ((if v.hasComponents then Item.counted componentItems c.components else [])
              ++ if v.hasDetails then nestingItems c.nesting ++ [.bool c.hasNoArgsConstructor]
                else [])))))) := by
    simp [headItems, Item.counted]
  have hcount : c.methods.length ≤ (Item.encodeAll s (c.methods.flatMap (methodItems v))).length := by
    rw [Item.encodeAll_flatMap]
    exact length_le_length_flatMap fun m _ => Item.length_encodeAll_pos rfl _
  rw [hitems, v.keep_eq]
  refine (Restores.name c.name).cons ((Restores.flags c.flags).cons ?_)
  refine (Restores.name? c.superName).cons ((Restores.type? c.superType).cons ?_)
  refine (Restores.typeList c.interfaces).bind ((Restores.typeList c.typeParameters).bind ?_)
  refine (restores_fields c.fields).bind (Restores.count ?_ ?_)
  · rw [Item.encodeAll_append, List.length_append]
    omega
  · have hindex : 0 + c.methods.length ≤ UInt32.size := by
      rw [Nat.zero_add]
      exact h.methods
    refine (restores_methods h.defaults hindex).bind ((restores_components c.components).bind ?_)
    exact (restores_classDetails c).map fun d => ClassDecl.mk c.name c.flags c.superName
      c.superType c.interfaces c.typeParameters c.fields (c.methods.map v.keepMethod)
      (if v.hasComponents then c.components else []) [] d.1 d.2

theorem reads_annotation {a : AnnotationUse String} {owner : String}
    (howner : ∀ t ∈ a.target, t.declaringClass = owner) (hholds : v.holds a = true)
    (hdepth : Value.membersDepth a.members ≤ maxValueDepth)
    (hfound : ∀ i ∈ useItems a, i.Found tables s) :
    Metered.Reads (do
        let body ← Scanner.bytes (← Scanner.count)
        within body (readUseOf tables v owner))
      (ClassRecord.recordBytes s (useItems a)) (Item.totalNodes (useItems a)) True (some a) := by
  intro hlength
  have hbody : (Item.encodeAll s (useItems a)).length < UInt64.size := by
    simp only [ClassRecord.recordBytes, List.length_append] at hlength
    omega
  have huse := restores_useOf howner hholds hdepth hfound
  exact Metered.Reads.count_bind (Nat.le_refl _)
    (Metered.Reads.lift_check (Scanner.takes_bytes _) (huse.within hbody)) hlength

theorem reads_annotations {c : ClassDecl String} (h : Storable c)
    (hfound : ∀ a ∈ c.annotations.filter v.holds, ∀ i ∈ useItems a, i.Found tables s) :
    Metered.Reads (readAnnotations tables v c.name)
      (Varint.encode (c.annotations.filter v.holds).length
        ++ (c.annotations.filter v.holds).flatMap fun a => ClassRecord.recordBytes s (useItems a))
      ((c.annotations.filter v.holds).map fun a => Item.totalNodes (useItems a)).sum True
      (c.annotations.filter v.holds) := by
  have hpos : ∀ a ∈ c.annotations.filter v.holds,
      0 < (ClassRecord.recordBytes s (useItems a)).length := by
    intro a _
    have hlength := Varint.length_encode_pos (Item.encodeAll s (useItems a)).length
    rw [ClassRecord.recordBytes, List.length_append]
    omega
  have hrecords := Metered.Reads.counted (fun a => ClassRecord.recordBytes s (useItems a)) _ _
    some (c.annotations.filter v.holds) hpos fun a ha => by
      obtain ⟨hmem, hholds⟩ := List.mem_filter.1 ha
      exact reads_annotation (h.targets a hmem) hholds (h.members a hmem) (hfound a ha)
  have hsome : (c.annotations.filter v.holds).filterMap (id ∘ some)
      = c.annotations.filter v.holds := List.filterMap_some
  have hmap := hrecords.map fun uses => uses.filterMap id
  rw [List.filterMap_map, hsome] at hmap
  exact hmap.congr rfl rfl (by simp)

theorem reads_class {c : ClassDecl String} (h : Storable c)
    (hfound : ∀ i ∈ (ClassRecord.ofClass v c).items, i.Found tables s) :
    Metered.Reads (readClass tables v) (ClassRecord.bytes s (.ofClass v c))
      (Item.totalNodes (ClassRecord.ofClass v c).items) True (v.keep c) := by
  -- All that counts of the head is its name and what it becomes with annotations.
  obtain ⟨head, hhead, hname, hfull⟩ : ∃ head : ClassDecl String,
      Metered.Reads (readHead tables v) (Item.encodeAll s (headItems v c))
        (Item.totalNodes (headItems v c)) True head
      ∧ head.name = c.name
      ∧ { head with annotations := c.annotations.filter v.holds } = v.keep c := by
    refine ⟨_, restores_head h fun i hi => hfound i (List.mem_append_left _ hi), ?_, ?_⟩
    · exact v.keep_name c
    · rw [v.filter_holds]
  have huses : ∀ a ∈ c.annotations.filter v.holds, ∀ i ∈ useItems a, i.Found tables s := by
    intro a ha i hi
    refine hfound i (List.mem_append_right _ (List.mem_flatten.2 ⟨useItems a, ?_, hi⟩))
    exact List.mem_map_of_mem ha
  have hannotations := reads_annotations h huses
  rw [← hname] at hannotations
  have hmap := hannotations.map fun annotations => { head with annotations := annotations }
  have hboth : Metered.Reads (readClass tables v) _ _ _ _ := Metered.Reads.bind hhead hmap
  rw [hfull] at hboth
  refine hboth.congr ?_ ?_ (by simp)
  · simp only [ClassRecord.bytes, ClassRecord.ofClass, List.flatMap_map, List.length_map,
      List.append_assoc]
  · rw [ClassRecord.items, Item.totalNodes_append, ClassRecord.ofClass, ← List.flatMap_def,
      Item.totalNodes_flatMap]

end Archive

end ClassCatalog
