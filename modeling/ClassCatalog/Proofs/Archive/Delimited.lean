import ClassCatalog.Archive.Write
import ClassCatalog.Proofs.Archive.Steady
import ClassCatalog.Proofs.Archive.TypeRecords
import ClassCatalog.Proofs.Index.ClassTable

/-! An archive says itself where it ends: nothing shorter is one, and nothing may follow it. -/

namespace ClassCatalog.Archive

open ArchiveError (IsShortage)
open Metered (Persists)
open Scanner

namespace ReadTables

variable (tables : ReadTables)

theorem steady_name : Steady IsShortage tables.name :=
  steady_varint.bind fun slot => .lift (tables.nameAt slot)

theorem steady_name? : Steady IsShortage tables.name? := by
  refine steady_optional.bind fun slot => ?_
  cases slot with
  | none => exact .pure none
  | some slot =>
    rw [Option.mapM_some]
    exact (Steady.lift (tables.nameAt slot)).mapped some

theorem persists_typeAt (slot : Nat) : Persists (tables.typeAt slot) := by
  cases h : tables.types[slot]? with
  | none =>
    have hat : tables.entryAt slot = .error (.badReference "type" slot) := by rw [entryAt, h]
    rw [typeAt, hat]
    exact .fail _
  | some entry =>
    intro budget budget' hle front more offset
    rw [run_typeAt h, run_typeAt h]
    by_cases hless : budget < entry.nodes
    · exact .inr ⟨.typeTooLarge slot, if_pos hless, .inl trivial⟩
    · have hless' : ¬ budget' < entry.nodes := by omega
      have hleft : budget - entry.nodes ≤ budget' - entry.nodes := by omega
      exact .inl ⟨(entry.ty, budget - entry.nodes), (entry.ty, budget' - entry.nodes), front, offset,
        ⟨rfl, hleft⟩, if_neg hless, if_neg hless'⟩

theorem persists_type : Persists tables.type :=
  (Persists.lift steady_varint).bind tables.persists_typeAt

theorem persists_type? : Persists tables.type? :=
  (Persists.lift steady_optional).bind (Persists.optionMapM tables.persists_typeAt)

theorem persists_typeList : Persists tables.typeList := tables.persists_type.counted

theorem persists_childAt (self slot : Nat) : Persists (tables.childAt self slot) := by
  refine (Persists.liftExcept (tables.entryAt slot)).bind fun entry => ?_
  have hrest := (tables.persists_typeAt slot).map fun ty => { entry with ty := ty }
  exact .ite ((Persists.fail _).bind fun _ => hrest) hrest

theorem persists_children (self : Nat) : Persists (tables.children self) :=
  ((Persists.lift steady_varint).bind (tables.persists_childAt self)).counted

theorem persists_child? (self : Nat) : Persists (tables.child? self) :=
  (Persists.lift steady_optional).bind (Persists.optionMapM (tables.persists_childAt self))

end ReadTables

theorem TypeEntry.persists_read (tables : ReadTables) : Persists (read tables) := by
  refine (Persists.lift steady_byte).bind fun tag => ?_
  have hname := Persists.lift tables.steady_name
  dsimp only
  cases TyKind.ofCode? tag.toNat with
  | none => exact .fail _
  | some kind =>
    cases kind with
    | primitive =>
      refine (Persists.lift steady_byte).bind fun code => ?_
      cases Primitive.ofCode? code.toNat with
      | none => exact .fail _
      | some p => exact .pure _
    | void => exact .pure _
    | named => exact hname.map _
    | typeVariable => exact hname.map _
    | unresolved => exact hname.map _
    | array =>
      refine (Persists.lift steady_varint).bind fun slot => ?_
      exact (tables.persists_childAt _ slot).bind fun component => (Persists.lift steady_byte).map _
    | parameterized =>
      refine hname.bind fun name => (tables.persists_child? _).bind fun owner => ?_
      exact (tables.persists_children _).map _
    | typeParameter =>
      refine hname.bind fun name => (Persists.lift steady_bool).bind fun implicitObject => ?_
      exact (tables.persists_children _).map _
    | wildcard =>
      exact (Persists.lift steady_bool).bind fun isExtends => (tables.persists_child? _).map _

theorem ReadTables.persists_readTypes (n : Nat) (tables : ReadTables) :
    Persists (readTypes n tables) := by
  induction n generalizing tables with
  | zero => exact .pure tables
  | succ n ih => exact (TypeEntry.persists_read tables).bind fun entry => ih _

theorem ReadTables.persists_read : Persists read :=
  (Persists.lift (steady_counted steady_text)).bind fun _ =>
    (Persists.lift steady_count).bind fun n => persists_readTypes n _

section Classes

variable (tables : ReadTables)

theorem persists_readFlags : Persists readFlags := (Persists.lift (steady_varintBelow _)).map _

theorem persists_readMembers {value : Metered (Value String)} (h : Persists value) :
    Persists (readMembers tables value) :=
  ((Persists.lift tables.steady_name).bind fun _ => h.map _).counted

theorem persists_readValue (levels : Nat) : Persists (readValue tables levels) := by
  induction levels with
  | zero => exact (Persists.lift steady_byte).bind fun _ => .fail _
  | succ levels ih =>
    refine (Persists.lift steady_byte).bind fun tag => ?_
    split
    · exact (Persists.lift (steady_signedIn _ _)).map _
    · exact (Persists.lift (steady_signedIn _ _)).map _
    · exact (Persists.lift (steady_signedIn _ _)).map _
    · exact (Persists.lift steady_signed).map _
    · exact (Persists.lift (steady_varintBelow _)).map _
    · exact (Persists.lift steady_single).map _
    · exact (Persists.lift steady_double).map _
    · exact (Persists.lift steady_bool).map _
    · exact (Persists.lift tables.steady_name).map _
    · exact tables.persists_type.map _
    · have hname := Persists.lift tables.steady_name
      exact hname.bind fun _ => hname.map _
    · refine (Persists.lift tables.steady_name).bind fun name => ?_
      exact (Persists.lift steady_bool).bind fun visible => (persists_readMembers tables ih).map _
    · exact ih.counted.map _
    · exact .fail _

theorem persists_readField : Persists (readField tables) :=
  (Persists.lift tables.steady_name).bind fun _ => persists_readFlags.bind fun _ =>
    tables.persists_type.map _

theorem persists_readMethodDetails (version : Version) :
    Persists (readMethodDetails tables version) := by
  have hdefault : ∀ names, Persists (do
      if ← Scanner.bool then
        return (names, some (← readValue tables maxValueDepth))
      else return (names, none) : Metered (List (Option String) × Option (Value String))) := by
    intro names
    refine (Persists.lift steady_bool).bind fun hasDefault => ?_
    exact .ite ((persists_readValue tables maxValueDepth).map _) (.pure _)
  exact .ite ((Persists.lift tables.steady_name?).counted.bind hdefault) (.pure _)

theorem persists_readMethod (version : Version) : Persists (readMethod tables version) := by
  refine (Persists.lift tables.steady_name).bind fun name => persists_readFlags.bind fun flags => ?_
  refine tables.persists_type.bind fun returnType => ?_
  refine tables.persists_typeList.bind fun parameters => ?_
  refine tables.persists_typeList.bind fun exceptions => ?_
  refine tables.persists_typeList.bind fun typeParameters => ?_
  exact (persists_readMethodDetails tables version).map _

theorem persists_readMethods (version : Version) (n index : Nat) :
    Persists (readMethods tables version n index) := by
  induction n generalizing index with
  | zero => exact .pure []
  | succ n ih =>
    have hrest : Persists (do
        let method ← readMethod tables version
        return method :: (← readMethods tables version n (index + 1))) :=
      (persists_readMethod tables version).bind fun method => (ih (index + 1)).map _
    exact .ite hrest ((Persists.fail _).bind fun _ => hrest)

theorem persists_readComponents (version : Version) : Persists (readComponents tables version) := by
  have hcomponent : Persists (readComponent tables) :=
    (Persists.lift tables.steady_name).bind fun _ => tables.persists_type.map _
  exact .ite hcomponent.counted (.pure [])

theorem persists_readNesting : Persists (readNesting tables) := by
  refine (Persists.lift steady_byte).bind fun tag => ?_
  have hname := Persists.lift tables.steady_name
  have hname? := Persists.lift tables.steady_name?
  dsimp only
  cases NestingKind.ofCode? tag.toNat with
  | none => exact .fail _
  | some kind =>
    refine hname?.bind fun enclosing => hname?.bind fun simpleName => ?_
    refine (Persists.lift steady_bool).bind fun hasMethod => .ite ?_ (.pure _)
    exact hname.bind fun owner => hname.bind fun name => hname.map _

theorem persists_readClassDetails (version : Version) :
    Persists (readClassDetails tables version) :=
  .ite ((persists_readNesting tables).bind fun _ => (Persists.lift steady_bool).map _) (.pure _)

theorem persists_readIndex : Persists readIndex := (Persists.lift (steady_varintBelow _)).map _

theorem persists_readWord : Persists readWord := (Persists.lift (steady_varintBelow _)).map _

theorem persists_readDeclaration (version : Version) (owner : String) (tag : Nat) :
    Persists (readDeclaration tables version owner tag) := by
  unfold readDeclaration
  split
  · exact .pure _
  · exact (Persists.lift tables.steady_name).map _
  · exact persists_readIndex.map _
  · exact .ite ((Persists.lift tables.steady_name).map _) (.pure none)
  · exact .pure none

theorem persists_readUse : Persists readUse := by
  refine (Persists.lift steady_byte).bind fun tag => ?_
  split
  · exact (Persists.lift steady_byte).map _
  · exact (Persists.lift steady_byte).map _
  · exact persists_readWord.map _
  · exact (Persists.lift steady_byte).bind fun _ => (Persists.lift steady_byte).map _
  · exact (Persists.lift steady_byte).bind fun _ => (Persists.lift steady_byte).map _
  · exact .pure _
  · exact .pure _
  · exact .pure _
  · exact (Persists.lift steady_byte).map _
  · exact persists_readWord.map _
  · exact .pure none

theorem persists_readStep : Persists readStep := by
  refine (Persists.lift steady_byte).bind fun kind => ?_
  refine (Persists.lift steady_byte).bind fun argument => ?_
  split
  · exact .pure _
  · exact .fail _

theorem persists_readTypeTarget (version : Version) (owner : String) :
    Persists (readTypeTarget tables version owner) := by
  refine (Persists.lift steady_byte).bind fun tag => ?_
  refine (persists_readDeclaration tables version owner _).bind fun enclosing => ?_
  split
  · exact .pure none
  · refine persists_readUse.bind fun use => ?_
    split
    · exact .pure none
    · exact persists_readStep.counted.bind fun path => tables.persists_type.map _

theorem persists_readTarget (version : Version) (owner : String) :
    Persists (readTarget tables version owner) := by
  refine (Persists.lift steady_byte).bind fun tag => ?_
  split
  · exact .pure _
  · exact persists_readIndex.bind fun _ => persists_readWord.map _
  · exact (persists_readTypeTarget tables version owner).map _
  · exact (persists_readDeclaration tables version owner _).map _

theorem persists_readUseOf (version : Version) (owner : String) :
    Persists (readUseOf tables version owner) := by
  refine (Persists.lift tables.steady_name).bind fun name => ?_
  refine (Persists.lift steady_bool).bind fun visible => ?_
  refine (persists_readTarget tables version owner).bind fun target => ?_
  split
  · exact .pure none
  · exact (persists_readMembers tables (persists_readValue tables maxValueDepth)).map _

theorem persists_readAnnotations (version : Version) (owner : String) :
    Persists (readAnnotations tables version owner) := by
  have huse : Persists (do
      let body ← Scanner.bytes (← Scanner.count)
      within body (readUseOf tables version owner)) :=
    (Persists.lift steady_count).bind fun n => (Persists.lift (steady_bytes n)).bind
      (persists_readUseOf tables version owner).within
  exact huse.counted.map _

theorem persists_readHead (version : Version) : Persists (readHead tables version) := by
  refine (Persists.lift tables.steady_name).bind fun name => persists_readFlags.bind fun flags => ?_
  refine (Persists.lift tables.steady_name?).bind fun superName => ?_
  refine tables.persists_type?.bind fun superType => ?_
  refine tables.persists_typeList.bind fun interfaces => ?_
  refine tables.persists_typeList.bind fun typeParameters => ?_
  refine (persists_readField tables).counted.bind fun fields => ?_
  refine (Persists.lift steady_count).bind fun n => ?_
  refine (persists_readMethods tables version n 0).bind fun methods => ?_
  refine (persists_readComponents tables version).bind fun components => ?_
  exact (persists_readClassDetails tables version).map _

theorem persists_readClass (version : Version) : Persists (readClass tables version) :=
  (persists_readHead tables version).bind fun head =>
    (persists_readAnnotations tables version head.name).map _

end Classes

theorem steady_readHeader : Steady IsShortage readHeader := by
  refine (steady_bytes 4).bind fun found => ?_
  have hversion : Steady IsShortage (do
      Version.ofNumber (← Scanner.byte).toNat) := steady_byte.bind fun _ => .lift _
  exact .ite hversion ((Steady.fail _).bind fun _ => hversion)

theorem persists_readBody (version : Version) : Persists (readBody version) :=
  ReadTables.persists_read.bind fun tables => (persists_readClass tables version).counted

def readWithin (budget : Nat) : Scanner (List (ClassDecl String) × Nat) :=
  readHeader >>= fun version => (readBody version).run budget

theorem prolongs_readWithin {budget budget' : Nat} (hle : budget ≤ budget') :
    Prolongs IsShortage (fun r r' => r.1 = r'.1 ∧ r.2 ≤ r'.2) (readWithin budget)
      (readWithin budget') := by
  refine Prolongs.bind steady_readHeader ?_
  rintro version _ rfl
  exact persists_readBody version budget budget' hle

theorem readClasses_eq_bind (bytes : List UInt8) : readClasses bytes
    = ((readWithin (nodeBudget bytes.length)).run (.ofBytes bytes) >>= fun r =>
      if r.2.atEnd then .ok r.1.1 else .error (.trailingBytes r.2.rest.length)) := by
  rw [readClasses, readWithin, StateT.run_bind]
  cases readHeader.run (.ofBytes bytes) with
  | error e => rfl
  | ok r =>
    obtain ⟨version, c⟩ := r
    show (((readBody version).run (nodeBudget bytes.length)).run c >>= _)
      = (((readBody version).run (nodeBudget bytes.length)).run c >>= _)
    cases ((readBody version).run (nodeBudget bytes.length)).run c with
    | error e => rfl
    | ok s =>
      show (if s.2.atEnd then _ else _) = if s.2.atEnd then _ else _
      split <;> rfl

theorem readWithin_of_readClasses {bytes : List UInt8} {cs : List (ClassDecl String)}
    (h : readClasses bytes = .ok cs) : ∃ left offset,
      (readWithin (nodeBudget bytes.length)).run (.ofBytes bytes)
        = .ok ((cs, left), ⟨[], offset⟩) := by
  rw [readClasses_eq_bind] at h
  obtain ⟨⟨⟨cs', left⟩, rest, offset⟩, hrun, hend⟩ := bind_eq_ok h
  cases rest with
  | nil =>
    cases hend
    exact ⟨left, offset, hrun⟩
  | cons b rest => cases hend

theorem read_of_classes {bytes : List UInt8} {cs : List (ClassDecl String)}
    (h : readClasses bytes = .ok cs) (hordered : ClassTable.Ordered cs) :
    ∃ i, read bytes = .ok i ∧ i.classes = cs := by
  obtain ⟨i, hi, hclasses⟩ := Index.ofClasses_of_ordered hordered
  refine ⟨i, ?_, hclasses⟩
  rw [read, h]
  show (Index.ofClasses cs).mapError ArchiveError.indexing = .ok i
  rw [hi]
  rfl

/-- No part of an archive that reading accepts is accepted, and the refusal is always that of
malformed input; neither is anything longer, since bytes are left over. -/
theorem delimited_of_read {bytes : List UInt8} {i : Index} (h : read bytes = .ok i) :
    (∀ front, front <+: bytes → front ≠ bytes →
        ∃ e : ArchiveError, read front = .error e ∧ e.category = .malformedInput)
      ∧ ∀ more, more ≠ [] → read (bytes ++ more) = .error (.trailingBytes more.length) := by
  obtain ⟨cs, hclasses, _⟩ := bind_eq_ok h
  obtain ⟨left, offset, hrun⟩ := readWithin_of_readClasses hclasses
  constructor
  · rintro front ⟨more, rfl⟩ hne
    have hmore : more ≠ [] := fun hnil => hne (by rw [hnil, List.append_nil])
    -- The budget goes by the length, so the shorter run has the smaller one.
    have hbudget : nodeBudget front.length ≤ nodeBudget (front ++ more).length := by
      rw [nodeBudget, nodeBudget, List.length_append]
      omega
    obtain ⟨e, he, herror⟩ := (prolongs_readWithin hbudget).error_of_run hrun rfl hmore
    have hfront : (readWithin (nodeBudget front.length)).run (.ofBytes front) = .error e := herror
    refine ⟨e, ?_, ArchiveError.category_of_isShortage he⟩
    rw [read, readClasses_eq_bind, hfront]
    rfl
  · intro more hmore
    have hbudget : nodeBudget bytes.length ≤ nodeBudget (bytes ++ more).length := by
      rw [nodeBudget, nodeBudget, List.length_append]
      omega
    obtain ⟨⟨_, left'⟩, ⟨rfl, _⟩, hlong⟩ := (prolongs_readWithin hbudget).run_append hrun more
    have hlong' : (readWithin (nodeBudget (bytes ++ more).length)).run (.ofBytes (bytes ++ more))
        = _ := hlong
    rw [read, readClasses_eq_bind, hlong']
    cases more with
    | nil => exact absurd rfl hmore
    | cons b more => rfl

def onComponent : AnnotationUse String where
  name := "A"
  visible := true
  target := some (.declaration (.component "A" "v"))
  members := [("v", .array [.int 1, .nested "A" false [], .classLiteral (.primitive .int)])]

def onParameter : AnnotationUse String where
  name := "A"
  visible := false
  target := some (.typeUse ⟨.method "A" 0, .formalParameter 0, [], .primitive .int⟩)
  members := []

def describedClass : ClassDecl String :=
  { ClassDecl.bare "A" ⟨33⟩ with
    fields := [⟨"v", ⟨2⟩, .primitive .int⟩]
    methods := [⟨"v", ⟨1⟩, [], [.primitive .int], .primitive .int, [], [some "A"],
      some (.boolean true)⟩]
    components := [⟨"v", .primitive .int⟩]
    annotations := [onComponent, onParameter]
    hasNoArgsConstructor := true }

def describedTables : List UInt8 := [2, 1, 65, 1, 118, 1, 0, 4]

def describedHead : List UInt8 :=
  [0, 33, 0, 0, 0, 0, 1, 1, 2, 0, 1, 1, 1, 0, 1, 0, 0, 0, 1, 1, 1, 0x5A, 1, 1, 1, 0, 0, 0, 0, 0, 1]

def onComponentBytes : List UInt8 := [0, 1, 5, 1, 1, 1, 0x5B, 3, 0x49, 2, 0x40, 0, 0, 0, 0x63, 0]

def onParameterBytes : List UInt8 := [0, 0, 4, 2, 0, 0x16, 0, 0, 0, 0]

/-- An archive of the class in the third version, up to the number of annotations. -/
def describedFront : List UInt8 :=
  [0x43, 0x4C, 0x53, 0x50, 3] ++ describedTables ++ [1] ++ describedHead

def describedArchive : List UInt8 :=
  describedFront ++ [2, 16] ++ onComponentBytes ++ [10] ++ onParameterBytes

theorem readClasses_describedArchive : readClasses describedArchive = .ok [describedClass] := by
  rfl

theorem exists_read_describedArchive :
    ∃ i, read describedArchive = .ok i ∧ i.classes = [describedClass] :=
  read_of_classes readClasses_describedArchive (List.pairwise_singleton _ _)

theorem delimited_describedArchive :
    (∃ i, read describedArchive = .ok i ∧ i.classes = [describedClass])
      ∧ (∃ e : ArchiveError, read (describedArchive.take 63) = .error e
        ∧ e.category = .malformedInput)
      ∧ read (describedArchive ++ [0]) = .error (.trailingBytes 1) := by
  obtain ⟨i, hread, hclasses⟩ := exists_read_describedArchive
  obtain ⟨hshort, hlong⟩ := delimited_of_read hread
  exact ⟨⟨i, hread, hclasses⟩, hshort _ (List.take_prefix _ _) (by decide),
    hlong [0] (by decide)⟩

end ClassCatalog.Archive
