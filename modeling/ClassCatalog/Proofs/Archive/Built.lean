import ClassCatalog.Proofs.Archive.Accounting

/-! The types of a class, and that reading an archive builds exactly these: it pays once for every
node of every type that it hands on, and for nothing else. -/

namespace ClassCatalog

section Types

variable {ν : Type}

namespace Value

mutual

def types : Value ν → List (Ty ν)
  | classLiteral t => [t]
  | nested _ _ members => membersTypes members
  | array elements => elementsTypes elements
  | _ => []

def membersTypes : List (ν × Value ν) → List (Ty ν)
  | [] => []
  | (_, v) :: rest => v.types ++ membersTypes rest

def elementsTypes : List (Value ν) → List (Ty ν)
  | [] => []
  | v :: rest => v.types ++ elementsTypes rest

end

theorem membersTypes_eq (members : List (ν × Value ν)) :
    membersTypes members = members.flatMap fun m => m.2.types := by
  induction members with
  | nil => rfl
  | cons m members ih =>
    obtain ⟨n, v⟩ := m
    rw [membersTypes, ih]
    rfl

theorem elementsTypes_eq (elements : List (Value ν)) :
    elementsTypes elements = elements.flatMap types := by
  induction elements with
  | nil => rfl
  | cons v elements ih =>
    rw [elementsTypes, ih]
    rfl

end Value

def Target.types : Target ν → List (Ty ν)
  | declaration _ | parameter .. => []
  | typeUse t => [t.ty]

def AnnotationUse.types (a : AnnotationUse ν) : List (Ty ν) :=
  a.target.toList.flatMap Target.types ++ Value.membersTypes a.members

def MethodDecl.types (m : MethodDecl ν) : List (Ty ν) :=
  [m.returnType] ++ m.parameters ++ m.exceptions ++ m.typeParameters
    ++ m.default.toList.flatMap Value.types

namespace ClassDecl

def headTypes (c : ClassDecl ν) : List (Ty ν) :=
  c.superType.toList ++ c.interfaces ++ c.typeParameters ++ c.fields.map (·.ty)
    ++ c.methods.flatMap MethodDecl.types ++ c.components.map (·.ty)

def types (c : ClassDecl ν) : List (Ty ν) :=
  c.headTypes ++ c.annotations.flatMap AnnotationUse.types

end ClassDecl

end Types

namespace Archive

open Metered (Builds)
open Scanner

variable {α β : Type}

theorem Metered.Builds.of_eq {known : Ty String → Prop} {held : List (Ty String)} {m : Nat}
    {p : Metered α} {types types' : α → List (Ty String)} (h : Builds known held m p types)
    (heq : ∀ a, types' a = types a) : Builds known held m p types' := by
  rw [funext heq]
  exact h

/-- An entry that says of its type what is true of it, and whose type is not too deep. -/
structure TypeEntry.IsSound (e : TypeEntry) : Prop where
  shape : e = ofTy e.ty
  depth : e.ty.depth ≤ maxTypeDepth

namespace ReadTables

def Sound (tables : ReadTables) : Prop := ∀ e ∈ tables.types, e.IsSound

def Knows (tables : ReadTables) (t : Ty String) : Prop := ∃ e ∈ tables.types, e.ty = t

theorem local_name (tables : ReadTables) : Local 1 tables.name tables.name :=
  local_varint.check fun slot => .lift (tables.nameAt slot)

theorem local_name? (tables : ReadTables) : Local 1 tables.name? tables.name? := by
  refine local_optional.check fun slot => ?_
  cases slot with
  | none => exact .pure none
  | some slot =>
    rw [Option.mapM_some, ← bind_pure_comp]
    exact (Local.lift (tables.nameAt slot)).map some

section

variable {tables : ReadTables} (h : tables.Sound)
include h

theorem builds_typeAt (slot : Nat) : Builds tables.Knows [] 0 (tables.typeAt slot) fun t => [t] := by
  intro budget c ty left c' hrun
  cases hentry : tables.types[slot]? with
  | none =>
    have hat : tables.entryAt slot = .error (.badReference "type" slot) := by rw [entryAt, hentry]
    rw [typeAt, hat] at hrun
    cases hrun
  | some entry =>
    have hmem : entry ∈ tables.types := Array.mem_of_getElem? hentry
    have hnodes : entry.nodes = entry.ty.nodes := congrArg TypeEntry.nodes (h entry hmem).shape
    rw [run_typeAt hentry] at hrun
    split at hrun
    · cases hrun
    · cases hrun
      refine ⟨[], [entry.ty], rfl, Nat.zero_le _, rfl, ?_, ?_⟩
      · exact List.forall_mem_singleton.2 ⟨entry, hmem, rfl⟩
      · intro budget rest offset
        rw [run_typeAt hentry, List.map_singleton, List.sum_singleton, ← hnodes]
        by_cases hless : budget < entry.nodes
        · exact .inr ⟨hless, slot, if_pos hless⟩
        · exact .inl ⟨Nat.not_lt.1 hless, if_neg hless⟩

theorem builds_type : Builds tables.Knows [] 1 tables.type fun t => [t] :=
  .scan_bind local_varint (builds_typeAt h)

theorem builds_type? : Builds tables.Knows [] 1 tables.type? Option.toList := by
  refine .scan_bind local_optional fun slot => (Builds.optionMapM (builds_typeAt h) slot).of_eq ?_
  intro t
  cases t <;> rfl

theorem builds_typeList : Builds tables.Knows [] 1 tables.typeList id :=
  (builds_type h).counted.of_eq fun ts => (List.flatMap_singleton' ts).symm

theorem builds_childAt (self slot : Nat) :
    Builds tables.Knows [] 0 (tables.childAt self slot) fun e => [e.ty] := by
  refine (Builds.scan (Local.lift (tables.entryAt slot))).bind fun entry => ?_
  have hrest : Builds tables.Knows [] 0 (do
      let ty ← tables.typeAt slot
      return { entry with ty := ty }) fun e => [e.ty] := (builds_typeAt h slot).map _ fun ty => rfl
  exact .ite ((Builds.fail _).bind fun _ => hrest) hrest

theorem builds_children (self : Nat) :
    Builds tables.Knows [] 1 (tables.children self) fun es => es.map (·.ty) := by
  have hchild : Builds tables.Knows [] 1 (do tables.childAt self (← Scanner.varint))
      fun e => [e.ty] := .scan_bind local_varint (builds_childAt h self)
  exact hchild.counted.of_eq fun es => List.map_eq_flatMap

theorem builds_child? (self : Nat) :
    Builds tables.Knows [] 1 (tables.child? self) fun e => (e.map (·.ty)).toList := by
  refine .scan_bind local_optional fun slot =>
    (Builds.optionMapM (builds_childAt h self) slot).of_eq ?_
  intro e
  cases e <;> rfl

theorem yields_childAt (self slot : Nat) : Metered.Yields (tables.childAt self slot) fun e =>
    e = .ofTy e.ty ∧ e.ty.depth + 1 ≤ maxTypeDepth := by
  intro budget c r c' hrun
  cases hentry : tables.types[slot]? with
  | none =>
    have hat : tables.entryAt slot = .error (.badReference "type" slot) := by rw [entryAt, hentry]
    rw [childAt, hat] at hrun
    cases hrun
  | some entry =>
    have hshape := (h entry (Array.mem_of_getElem? hentry)).shape
    have hdepth : entry.depth = entry.ty.depth := congrArg TypeEntry.depth hshape
    rw [run_childAt hentry] at hrun
    split at hrun
    · cases hrun
    · next hshallow =>
      split at hrun
      · cases hrun
      · cases hrun
        rw [hdepth] at hshallow
        exact ⟨hshape, Nat.not_lt.1 hshallow⟩

end

end ReadTables

namespace TypeEntry

variable {tables : ReadTables}

theorem isSound_leaf {t : Ty String} (ht : t.parts = []) : (leaf t).IsSound := by
  have hnodes : t.nodes = 1 := by rw [Ty.nodes_eq, ht, List.map_nil, List.sum_nil, Nat.add_zero]
  have hdepth : t.depth = 1 := by
    rw [Ty.depth_eq, ht]
    rfl
  refine ⟨?_, ?_⟩
  · show leaf t = ⟨t, t.nodes, t.depth⟩
    rw [hnodes, hdepth, leaf]
  · show t.depth ≤ maxTypeDepth
    rw [hdepth]
    decide

theorem isSound_branch {t : Ty String} {parts : List TypeEntry} (ht : t.parts = parts.map (·.ty))
    (hparts : ∀ e ∈ parts, e = ofTy e.ty ∧ e.ty.depth + 1 ≤ maxTypeDepth) :
    (branch t parts).IsSound := by
  have hshape : parts = t.parts.map ofTy := by
    rw [ht, List.map_map]
    refine (List.map_id parts).symm.trans (List.map_congr_left fun e he => ?_)
    exact (hparts e he).1
  have hbranch : branch t parts = ofTy t := by rw [hshape, branch_parts]
  refine ⟨hbranch, ?_⟩
  show t.depth ≤ maxTypeDepth
  rw [Ty.depth_le_iff t (by decide), ht]
  exact List.forall_mem_map.2 fun e he => (hparts e he).2

theorem parts_parameterized (name : String) (owner : Option TypeEntry)
    (arguments : List TypeEntry) : (parameterized name owner arguments).ty.parts
      = (owner.map (·.ty)).toList ++ arguments.map (·.ty) := by
  cases owner <;> rfl

theorem parts_wildcard (isExtends : Bool) (bound : Option TypeEntry) :
    (wildcard isExtends bound).ty.parts = (bound.map (·.ty)).toList := by
  cases bound <;> rfl

section

variable (h : tables.Sound)
include h

/-- An entry pays for its parts when it is read, and for itself wherever it is used. -/
theorem builds_read : Builds tables.Knows [] 1 (read tables) fun e => e.ty.parts := by
  have hname := tables.local_name
  refine .scan_bind local_byte fun tag => ?_
  dsimp only
  cases TyKind.ofCode? tag.toNat with
  | none => exact .fail _
  | some kind =>
    cases kind with
    | primitive =>
      refine .loose (.scan_bind local_byte fun code => ?_)
      cases Primitive.ofCode? code.toNat with
      | none => exact .fail _
      | some p => exact .pure rfl
    | void => exact .pure rfl
    | named => exact .loose (.scan_map _ hname fun n => rfl)
    | typeVariable => exact .loose (.scan_map _ hname fun n => rfl)
    | unresolved => exact .loose (.scan_map _ hname fun n => rfl)
    | array =>
      refine .loose (.scan_bind local_varint fun slot => ?_)
      refine (ReadTables.builds_childAt h _ slot).bind fun component => ?_
      exact .loose (.scan_map _ local_byte fun d => rfl)
    | parameterized =>
      refine .loose (.scan_bind hname fun name => ?_)
      refine (ReadTables.builds_child? h _).loose.bind fun owner => ?_
      exact .loose ((ReadTables.builds_children h _).map _ (parts_parameterized name owner))
    | typeParameter =>
      refine .loose (.scan_bind hname fun name => ?_)
      refine .loose (.scan_bind local_bool fun implicitObject => ?_)
      exact .loose ((ReadTables.builds_children h _).map _ fun bounds => rfl)
    | wildcard =>
      refine .loose (.scan_bind local_bool fun isExtends => ?_)
      exact .loose ((ReadTables.builds_child? h _).map _ (parts_wildcard isExtends))

theorem yields_read : Metered.Yields (read tables) IsSound := by
  have hchild := ReadTables.yields_childAt h
  have hchildren : ∀ self, Metered.Yields (tables.children self) fun es =>
      ∀ e ∈ es, e = ofTy e.ty ∧ e.ty.depth + 1 ≤ maxTypeDepth :=
    fun self => Metered.Yields.counted (.after fun slot => hchild self slot)
  have hchild? : ∀ self, Metered.Yields (tables.child? self) fun es =>
      ∀ e ∈ es, e = ofTy e.ty ∧ e.ty.depth + 1 ≤ maxTypeDepth := by
    refine fun self => .after fun slot => ?_
    cases slot with
    | none => exact .pure (by simp)
    | some slot =>
      rw [Option.mapM_some, ← bind_pure_comp]
      exact (hchild self slot).bind fun e he => .pure (by simpa using he)
  refine .after fun tag => ?_
  dsimp only
  cases TyKind.ofCode? tag.toNat with
  | none => exact .fail _
  | some kind =>
    cases kind with
    | primitive =>
      refine .after fun code => ?_
      cases Primitive.ofCode? code.toNat with
      | none => exact .fail _
      | some p => exact .pure (isSound_leaf rfl)
    | void => exact .pure (isSound_leaf rfl)
    | named => exact .after fun n => .pure (isSound_leaf rfl)
    | typeVariable => exact .after fun n => .pure (isSound_leaf rfl)
    | unresolved => exact .after fun n => .pure (isSound_leaf rfl)
    | array =>
      refine .after fun slot => (hchild _ slot).bind fun component hcomponent => ?_
      exact .after fun d => .pure (isSound_branch rfl (List.forall_mem_singleton.2 hcomponent))
    | parameterized =>
      refine .after fun name => (hchild? _).bind fun owner howner => ?_
      refine (hchildren _).bind fun arguments harguments => .pure ?_
      cases owner with
      | none => exact isSound_branch rfl harguments
      | some owner =>
        exact isSound_branch rfl (List.forall_mem_cons.2 ⟨howner owner rfl, harguments⟩)
    | typeParameter =>
      refine .after fun name => .after fun implicitObject => ?_
      exact (hchildren _).bind fun bounds hbounds => .pure (isSound_branch rfl hbounds)
    | wildcard =>
      refine .after fun isExtends => (hchild? _).bind fun bound hbound => .pure ?_
      cases bound with
      | none => exact isSound_leaf rfl
      | some bound => exact isSound_branch rfl (List.forall_mem_singleton.2 (hbound bound rfl))

end

end TypeEntry

namespace ReadTables

/-- The parts of all types of the table: what was paid for when it was read. -/
def parts (tables : ReadTables) : List (Ty String) := tables.types.toList.flatMap (·.ty.parts)

theorem Sound.push {tables : ReadTables} (h : tables.Sound) {entry : TypeEntry}
    (hentry : entry.IsSound) : Sound { tables with types := tables.types.push entry } := by
  intro e he
  rcases Array.mem_push.1 he with hold | rfl
  · exact h e hold
  · exact hentry

theorem parts_push (tables : ReadTables) (entry : TypeEntry) :
    parts { tables with types := tables.types.push entry } = tables.parts ++ entry.ty.parts := by
  simp [parts]

theorem yields_readTypes (n : Nat) {tables : ReadTables} (h : tables.Sound) :
    Metered.Yields (readTypes n tables) Sound := by
  induction n generalizing tables with
  | zero => exact .pure h
  | succ n ih => exact (TypeEntry.yields_read h).bind fun entry hentry => ih (h.push hentry)

theorem builds_readTypes (n : Nat) {tables : ReadTables} (h : tables.Sound) :
    Builds (fun _ => True) tables.parts n (readTypes n tables) parts := by
  induction n generalizing tables with
  | zero => exact .pure rfl
  | succ n ih =>
    have hentry : Builds (fun _ => True) [] 1 (TypeEntry.read tables) fun e => e.ty.parts :=
      (TypeEntry.builds_read h).known_mono fun _ _ => trivial
    have hmore : ∀ entry : TypeEntry, entry.IsSound → Builds (fun _ => True)
        (tables.parts ++ entry.ty.parts) n
        (readTypes n { tables with types := tables.types.push entry }) parts := by
      intro entry hsound
      rw [← parts_push]
      exact ih (h.push hsound)
    have hall := Builds.bind_of (TypeEntry.yields_read h) hentry hmore
    exact hall.mono (Nat.le_of_eq (Nat.add_comm n 1))

theorem sound_empty (names : Array String) : Sound ⟨names, #[]⟩ := by simp [Sound]

theorem yields_read : Metered.Yields read Sound :=
  .after fun names => .after fun n => yields_readTypes n (sound_empty names.toArray)

theorem builds_read : Builds (fun _ => True) [] 1 read parts :=
  .scan_bind (local_counted local_text) fun names =>
    (Builds.count_bind fun n => builds_readTypes n (sound_empty names.toArray)).loose

end ReadTables

theorem builds_readFlags {known : Ty String → Prop} :
    Builds known [] 1 readFlags fun _ => [] :=
  .scan_map _ (local_varintBelow _) fun _ => rfl

theorem builds_readIndex {known : Ty String → Prop} :
    Builds known [] 1 readIndex fun _ => [] :=
  .scan_map _ (local_varintBelow _) fun _ => rfl

theorem builds_readWord {known : Ty String → Prop} : Builds known [] 1 readWord fun _ => [] :=
  .scan_map _ (local_varintBelow _) fun _ => rfl

section Classes

variable {tables : ReadTables} (h : tables.Sound) (version : Version)
include h

omit h in
theorem builds_readMembers {value : Metered (Value String)}
    (hvalue : Builds tables.Knows [] 1 value Value.types) :
    Builds tables.Knows [] 1 (readMembers tables value) Value.membersTypes := by
  have hmember : Builds tables.Knows [] 1 (do
      let name ← tables.name
      return (name, ← value)) fun m : String × Value String => m.2.types :=
    .scan_bind tables.local_name fun name => .loose (hvalue.map _ fun v => rfl)
  exact hmember.counted.of_eq Value.membersTypes_eq

theorem builds_readValue (levels : Nat) :
    Builds tables.Knows [] 1 (readValue tables levels) Value.types := by
  have hname := tables.local_name
  induction levels with
  | zero => exact .scan_bind local_byte fun _ => .fail _
  | succ levels ih =>
    refine .scan_bind local_byte fun tag => ?_
    split
    · exact .loose (.scan_map _ (local_signedIn _ _) fun _ => rfl)
    · exact .loose (.scan_map _ (local_signedIn _ _) fun _ => rfl)
    · exact .loose (.scan_map _ (local_signedIn _ _) fun _ => rfl)
    · exact .loose (.scan_map _ local_signed fun _ => rfl)
    · exact .loose (.scan_map _ (local_varintBelow _) fun _ => rfl)
    · exact .loose (.scan_map _ local_single fun _ => rfl)
    · exact .loose (.scan_map _ local_double fun _ => rfl)
    · exact .loose (.scan_map _ local_bool fun _ => rfl)
    · exact .loose (.scan_map _ hname fun _ => rfl)
    · exact .loose ((ReadTables.builds_type h).map _ fun _ => rfl)
    · exact .loose (.scan_bind hname fun type => .loose (.scan_map _ hname fun _ => rfl))
    · refine .loose (.scan_bind hname fun name => .loose (.scan_bind local_bool fun visible => ?_))
      exact .loose ((builds_readMembers ih).map _ fun members => rfl)
    · exact .loose (ih.counted.map _ Value.elementsTypes_eq)
    · exact .fail _

theorem builds_readField : Builds tables.Knows [] 1 (readField tables) fun f => [f.ty] :=
  .scan_bind tables.local_name fun _ => .loose <| builds_readFlags.bind fun _ =>
    .loose ((ReadTables.builds_type h).map _ fun _ => rfl)

theorem builds_readMethodDetails :
    Builds tables.Knows [] 0 (readMethodDetails tables version)
      fun r => r.2.toList.flatMap Value.types := by
  have hname? := tables.local_name?
  have hdefault : ∀ names : List (Option String), Builds tables.Knows [] 0 (do
      if ← Scanner.bool then
        return (names, some (← readValue tables maxValueDepth))
      else return (names, none)) fun r => r.2.toList.flatMap Value.types := by
    refine fun names => .loose (.scan_bind local_bool fun hasDefault => .ite ?_ (.pure rfl))
    exact .loose ((builds_readValue h maxValueDepth).map _ fun v => List.append_nil _)
  refine .ite ?_ (.pure rfl)
  have hnames : Builds tables.Knows [] 1 (counted (liftM tables.name?)) fun _ => [] :=
    (Builds.scan hname?).counted.of_eq fun names => by simp
  exact .loose (hnames.bind hdefault)

theorem builds_readMethod :
    Builds tables.Knows [] 1 (readMethod tables version) MethodDecl.types := by
  have hlist := (ReadTables.builds_typeList h).loose
  refine .scan_bind tables.local_name fun name => ?_
  refine .loose (builds_readFlags.bind fun flags => ?_)
  refine .loose ((ReadTables.builds_type h).bind fun returnType => ?_)
  refine hlist.bind fun parameters => hlist.bind fun exceptions => ?_
  refine hlist.bind fun typeParameters => ?_
  exact (builds_readMethodDetails h version).map _ fun details => rfl

theorem builds_readMethods (n index : Nat) :
    Builds tables.Knows [] n (readMethods tables version n index)
      fun ms => ms.flatMap MethodDecl.types := by
  induction n generalizing index with
  | zero => exact .pure rfl
  | succ n ih =>
    have hmore : ∀ method, Builds tables.Knows ([] ++ method.types) n (do
        return method :: (← readMethods tables version n (index + 1)))
          fun ms => ms.flatMap MethodDecl.types :=
      fun method => (ih (index + 1)).map _ fun ms => rfl
    have hall := Builds.bind_of (P := fun _ => True) (fun _ _ _ _ _ => trivial)
      (builds_readMethod h version) fun method _ => hmore method
    have hrest := hall.mono (Nat.le_of_eq (Nat.add_comm n 1))
    exact .ite hrest ((Builds.fail _).bind fun _ => hrest.loose)

theorem builds_readComponents :
    Builds tables.Knows [] 0 (readComponents tables version) fun ks => ks.map (·.ty) := by
  have hcomponent : Builds tables.Knows [] 1 (readComponent tables) fun k => [k.ty] :=
    .scan_bind tables.local_name fun name =>
      .loose ((ReadTables.builds_type h).map _ fun ty => rfl)
  exact .ite (.loose (hcomponent.counted.of_eq fun ks => List.map_eq_flatMap)) (.pure rfl)

omit h in
theorem builds_readClassDetails :
    Builds tables.Knows [] 0 (readClassDetails tables version) fun _ => [] := by
  have hname := tables.local_name
  have hname? := tables.local_name?
  have hnesting : Builds tables.Knows [] 0 (readNesting tables) fun _ => [] := by
    refine .loose (.scan_bind local_byte fun tag => ?_)
    dsimp only
    cases NestingKind.ofCode? tag.toNat with
    | none => exact .fail _
    | some kind =>
      refine .loose (.scan_bind hname? fun enclosing => ?_)
      refine .loose (.scan_bind hname? fun simpleName => ?_)
      refine .loose (.scan_bind local_bool fun hasMethod => .ite ?_ (.pure rfl))
      refine .loose (.scan_bind hname fun owner => .loose (.scan_bind hname fun name => ?_))
      exact .loose (.scan_map _ hname fun _ => rfl)
  refine .ite (hnesting.bind fun nesting => ?_) (.pure rfl)
  exact .loose (.scan_map _ local_bool fun _ => rfl)

omit h in
theorem builds_readDeclaration (owner : String) (tag : Nat) :
    Builds tables.Knows [] 0 (readDeclaration tables version owner tag) fun _ => [] := by
  have hname := tables.local_name
  unfold readDeclaration
  split
  · exact .pure rfl
  · exact .loose (.scan_map _ hname fun _ => rfl)
  · exact .loose (builds_readIndex.map _ fun _ => rfl)
  · exact .ite (.loose (.scan_map _ hname fun _ => rfl)) (.pure rfl)
  · exact .pure rfl

omit h in
theorem builds_readUse : Builds tables.Knows [] 1 readUse fun _ => [] := by
  refine .scan_bind local_byte fun tag => ?_
  split
  · exact .loose (.scan_map _ local_byte fun _ => rfl)
  · exact .loose (.scan_map _ local_byte fun _ => rfl)
  · exact .loose (builds_readWord.map _ fun _ => rfl)
  · exact .loose (.scan_bind local_byte fun _ => .loose (.scan_map _ local_byte fun _ => rfl))
  · exact .loose (.scan_bind local_byte fun _ => .loose (.scan_map _ local_byte fun _ => rfl))
  · exact .pure rfl
  · exact .pure rfl
  · exact .pure rfl
  · exact .loose (.scan_map _ local_byte fun _ => rfl)
  · exact .loose (builds_readWord.map _ fun _ => rfl)
  · exact .pure rfl

omit h in
theorem builds_readStep : Builds tables.Knows [] 1 readStep fun _ => [] := by
  refine .scan_bind local_byte fun kind => .loose (.scan_bind local_byte fun argument => ?_)
  split
  · exact .pure rfl
  · exact .fail _

theorem builds_readTypeTarget (owner : String) :
    Builds tables.Knows [] 1 (readTypeTarget tables version owner)
      fun t => (t.map (·.ty)).toList := by
  refine .scan_bind local_byte fun tag => ?_
  refine (builds_readDeclaration version owner tag.toNat).bind fun enclosing => ?_
  cases enclosing with
  | none => exact .pure rfl
  | some enclosing =>
    refine .loose (builds_readUse.bind fun use => ?_)
    cases use with
    | none => exact .pure rfl
    | some use =>
      have hpath : Builds tables.Knows [] 1 (counted readStep) fun _ => [] :=
        builds_readStep.counted.of_eq fun steps => by simp
      refine .loose (hpath.bind fun path => ?_)
      exact .loose ((ReadTables.builds_type h).map _ fun ty => rfl)

theorem builds_readTarget (owner : String) :
    Builds tables.Knows [] 1 (readTarget tables version owner)
      fun t => t.join.toList.flatMap Target.types := by
  refine .scan_bind local_byte fun tag => ?_
  split
  · exact .pure rfl
  · exact .loose (builds_readIndex.bind fun method =>
      .loose (builds_readWord.map _ fun position => rfl))
  · refine .loose ((builds_readTypeTarget h version owner).map _ fun t => ?_)
    cases t <;> rfl
  · refine (builds_readDeclaration version owner tag.toNat).map _ fun d => ?_
    cases d <;> rfl

theorem builds_readUseOf (owner : String) :
    Builds tables.Knows [] 1 (readUseOf tables version owner)
      fun a => a.toList.flatMap AnnotationUse.types := by
  refine .scan_bind tables.local_name fun name => ?_
  refine .loose (.scan_bind local_bool fun visible => ?_)
  refine .loose ((builds_readTarget h version owner).bind fun target => ?_)
  cases target with
  | none => exact .pure rfl
  | some target =>
    have hmembers := builds_readMembers (builds_readValue h maxValueDepth)
    exact .loose (hmembers.map _ fun members => List.append_nil _)

theorem builds_record (owner : String) :
    Builds tables.Knows [] 1 (do
      let body ← Scanner.bytes (← Scanner.count)
      within body (readUseOf tables version owner))
        fun a => a.toList.flatMap AnnotationUse.types :=
  .count_bind fun n => .scan_bind (local_bytes n) (builds_readUseOf h version owner).within

theorem builds_readAnnotations (owner : String) :
    Builds tables.Knows [] 1 (readAnnotations tables version owner)
      fun as => as.flatMap AnnotationUse.types := by
  refine (builds_record h version owner).counted.map _ fun uses => ?_
  induction uses with
  | nil => rfl
  | cons use uses ih =>
    cases use with
    | none => exact ih
    | some a =>
      show a.types ++ _ = (a.types ++ []) ++ _
      rw [List.append_nil]
      exact congrArg (a.types ++ ·) ih

theorem builds_readHead : Builds tables.Knows [] 1 (readHead tables version)
    ClassDecl.headTypes := by
  have hlist := (ReadTables.builds_typeList h).loose
  have hfields : Builds tables.Knows [] 1 (counted (readField tables)) fun fs => fs.map (·.ty) :=
    (builds_readField h).counted.of_eq fun fs => List.map_eq_flatMap
  refine .scan_bind tables.local_name fun name => ?_
  refine .loose (builds_readFlags.bind fun flags => ?_)
  refine .loose (.scan_bind tables.local_name? fun superName => ?_)
  refine .loose ((ReadTables.builds_type? h).bind fun superType => ?_)
  refine hlist.bind fun interfaces => hlist.bind fun typeParameters => ?_
  refine hfields.loose.bind fun fields => ?_
  -- Each method takes a byte, so the count looks no further than the methods.
  refine .loose (.count_bind fun n => (builds_readMethods h version n 0).bind fun methods => ?_)
  refine (builds_readComponents h version).bind fun components => ?_
  refine (builds_readClassDetails version).map _ fun details => ?_
  exact (List.append_nil _).symm

theorem builds_readClass : Builds tables.Knows [] 1 (readClass tables version)
    ClassDecl.types :=
  (builds_readHead h version).bind fun head =>
    .loose ((builds_readAnnotations h version head.name).map _ fun _ => rfl)

end Classes

end Archive

end ClassCatalog
