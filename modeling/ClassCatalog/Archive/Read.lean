import ClassCatalog.Archive.TypeTable
import ClassCatalog.Archive.Version
import ClassCatalog.Index

/-! Reading an index from an archive. What a version does not hold gets its default, and
annotations of a kind that the version does not know are stepped over. -/

namespace ClassCatalog.Archive

def maxValueDepth : Nat := 128

variable (tables : ReadTables)

def readFlags : Metered AccessFlags := do return ⟨UInt16.ofNat (← Scanner.varintBelow UInt16.size)⟩

def readMembers (value : Metered (Value String)) : Metered (List (String × Value String)) :=
  counted do
    let name ← tables.name
    return (name, ← value)

def readValue : Nat → Metered (Value String)
  | 0 => do throw (.invalidTag "deeply nested annotation value" (← Scanner.byte).toNat)
  | levels + 1 => do
    let tag ← Scanner.byte
    match Char.ofNat tag.toNat with
    | 'B' => return .byte (Int8.ofInt (← Scanner.signedIn (-128) 127))
    | 'S' => return .short (Int16.ofInt (← Scanner.signedIn (-32768) 32767))
    | 'I' => return .int (Int32.ofInt (← Scanner.signedIn (-2147483648) 2147483647))
    | 'J' => return .long (Int64.ofInt (← Scanner.signed))
    | 'C' => return .char (UInt16.ofNat (← Scanner.varintBelow UInt16.size))
    | 'F' => return .float ⟨UInt32.ofNat (← Scanner.single)⟩
    | 'D' => return .double ⟨UInt64.ofNat (← Scanner.double)⟩
    | 'Z' => return .boolean (← Scanner.bool)
    | 's' => return .string (← tables.name)
    | 'c' => return .classLiteral (← tables.type)
    | 'e' => do
      let type ← tables.name
      return .enumConstant type (← tables.name)
    | '@' => do
      let name ← tables.name
      let visible ← Scanner.bool
      return .nested name visible (← readMembers tables (readValue levels))
    | '[' => return .array (← counted (readValue levels))
    | _ => throw (.invalidTag "element value" tag.toNat)

def readField : Metered (FieldDecl String) := do
  let name ← tables.name
  let flags ← readFlags
  return ⟨name, flags, ← tables.type⟩

def readMethodDetails (version : Version) :
    Metered (List (Option String) × Option (Value String)) := do
  if version.hasDetails then
    let parameterNames ← counted tables.name?
    if ← Scanner.bool then
      return (parameterNames, some (← readValue tables maxValueDepth))
    else return (parameterNames, none)
  else return ([], none)

def readMethod (version : Version) : Metered (MethodDecl String) := do
  let name ← tables.name
  let flags ← readFlags
  let returnType ← tables.type
  let parameters ← tables.typeList
  let exceptions ← tables.typeList
  let typeParameters ← tables.typeList
  let (parameterNames, default) ← readMethodDetails tables version
  return ⟨name, flags, typeParameters, parameters, returnType, exceptions, parameterNames, default⟩

/-- `n` methods from position `index` on. A position takes 32 bits. -/
def readMethods (version : Version) : Nat → Nat → Metered (List (MethodDecl String))
  | 0, _ => pure []
  | n + 1, index => do
    unless index < UInt32.size do throw (.badReference "method" index)
    let method ← readMethod tables version
    return method :: (← readMethods version n (index + 1))

def readComponent : Metered (ComponentDecl String) := do
  let name ← tables.name
  return ⟨name, ← tables.type⟩

def readComponents (version : Version) : Metered (List (ComponentDecl String)) :=
  if version.hasComponents then counted (readComponent tables) else return []

def readNesting : Metered (Nesting String) := do
  let tag := (← Scanner.byte).toNat
  match NestingKind.ofCode? tag with
  | none => throw (.invalidTag "nesting kind" tag)
  | some kind => do
    let enclosingClass ← tables.name?
    let simpleName ← tables.name?
    if ← Scanner.bool then
      let owner ← tables.name
      let name ← tables.name
      let descriptor ← tables.name
      return ⟨kind, enclosingClass, simpleName, some ⟨owner, name, descriptor⟩⟩
    else return ⟨kind, enclosingClass, simpleName, none⟩

def readClassDetails (version : Version) : Metered (Nesting String × Bool) := do
  if version.hasDetails then
    let nesting ← readNesting tables
    return (nesting, ← Scanner.bool)
  else return (.topLevel, false)

def readIndex : Metered UInt32 := do return UInt32.ofNat (← Scanner.varintBelow UInt32.size)

def readWord : Metered UInt16 := do return UInt16.ofNat (← Scanner.varintBelow UInt16.size)

def readDeclaration (version : Version) (owner : String) : Nat → Metered (Option (DeclRef String))
  | 0 => return some (.type owner)
  | 1 => return some (.field owner (← tables.name))
  | 2 => return some (.method owner (← readIndex))
  | 5 =>
    if version.hasComponents then return some (.component owner (← tables.name)) else return none
  | _ => return none

def readUse : Metered (Option TypeUse) := do
  match (← Scanner.byte).toNat with
  | 0x00 => return some (.classTypeParameter (← Scanner.byte))
  | 0x01 => return some (.methodTypeParameter (← Scanner.byte))
  | 0x10 => return some (.supertype (← readWord))
  | 0x11 => do
    let parameter ← Scanner.byte
    return some (.classTypeParameterBound parameter (← Scanner.byte))
  | 0x12 => do
    let parameter ← Scanner.byte
    return some (.methodTypeParameterBound parameter (← Scanner.byte))
  | 0x13 => return some .field
  | 0x14 => return some .returnType
  | 0x15 => return some .receiver
  | 0x16 => return some (.formalParameter (← Scanner.byte))
  | 0x17 => return some (.thrown (← readWord))
  | _ => return none

def readStep : Metered PathStep := do
  let kind ← Scanner.byte
  let argument ← Scanner.byte
  match PathStep.ofCode? kind argument with
  | some step => return step
  | none => throw (.invalidTag "type path step" kind.toNat)

def readTypeTarget (version : Version) (owner : String) :
    Metered (Option (TypeTarget String)) := do
  match ← readDeclaration tables version owner (← Scanner.byte).toNat with
  | none => return none
  | some enclosing => do
    match ← readUse with
    | none => return none
    | some use => do
      let path ← counted readStep
      return some ⟨enclosing, use, path, ← tables.type⟩

def readTarget (version : Version) (owner : String) :
    Metered (Option (Option (Target String))) := do
  match (← Scanner.byte).toNat with
  | 6 => return some none
  | 3 => do
    let method ← readIndex
    return some (some (.parameter owner method (← readWord)))
  | 4 => return (← readTypeTarget tables version owner).map fun t => some (.typeUse t)
  | tag => return (← readDeclaration tables version owner tag).map fun d => some (.declaration d)

def readUseOf (version : Version) (owner : String) : Metered (Option (AnnotationUse String)) := do
  let name ← tables.name
  let visible ← Scanner.bool
  match ← readTarget tables version owner with
  | none => return none
  | some target => do
    let members ← readMembers tables (readValue tables maxValueDepth)
    return some ⟨name, visible, target, members⟩

/-- The annotations of a class, each in a record of its own. What follows one in its record is
left to later versions. -/
def readAnnotations (version : Version) (owner : String) :
    Metered (List (AnnotationUse String)) := do
  let uses ← counted do
    let body ← Scanner.bytes (← Scanner.count)
    within body (readUseOf tables version owner)
  return uses.filterMap id

def readHead (version : Version) : Metered (ClassDecl String) := do
  let name ← tables.name
  let flags ← readFlags
  let superName ← tables.name?
  let superType ← tables.type?
  let interfaces ← tables.typeList
  let typeParameters ← tables.typeList
  let fields ← counted (readField tables)
  let methods ← readMethods tables version (← Scanner.count) 0
  let components ← readComponents tables version
  let (nesting, hasNoArgsConstructor) ← readClassDetails tables version
  return ⟨name, flags, superName, superType, interfaces, typeParameters, fields, methods,
    components, [], nesting, hasNoArgsConstructor⟩

def readClass (version : Version) : Metered (ClassDecl String) := do
  let head ← readHead tables version
  let annotations ← readAnnotations tables version head.name
  return { head with annotations := annotations }

def readHeader : Scanner Version := do
  let found ← Scanner.bytes 4
  unless found = magic do throw (.invalidMagic found)
  Version.ofNumber (← Scanner.byte).toNat

def readBody (version : Version) : Metered (List (ClassDecl String)) := do
  let tables ← ReadTables.read
  counted (readClass tables version)

def readClasses (bytes : List UInt8) : Except ArchiveError (List (ClassDecl String)) := do
  let (version, cursor) ← readHeader.run (.ofBytes bytes)
  let ((classes, _), cursor) ← ((readBody version).run (nodeBudget bytes.length)).run cursor
  unless cursor.atEnd do throw (.trailingBytes cursor.rest.length)
  return classes

def read (bytes : List UInt8) : Except ArchiveError Index := do
  (Index.ofClasses (← readClasses bytes)).mapError .indexing

end ClassCatalog.Archive
