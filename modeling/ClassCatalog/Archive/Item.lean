import ClassCatalog.Archive.Symbols
import ClassCatalog.Archive.Version
import ClassCatalog.ClassDecl

/-! What an archive holds of a class, as a list of items: plain bytes and references to names and
types. The symbols of a class and its bytes are both read off its items, in the same order. -/

namespace ClassCatalog.Archive

inductive Item (ν : Type) where
  | raw (bytes : List UInt8)
  | name (n : ν)
  | name? (n : Option ν)
  | type (ty : Ty ν)
  | type? (ty : Option (Ty ν))

variable {ν : Type}

namespace Item

def byte (b : UInt8) : Item ν := raw [b]

def code (n : Nat) : Item ν := byte (UInt8.ofNat n)

def bool (b : Bool) : Item ν := byte (boolByte b)

def number (n : Nat) : Item ν := raw (Varint.encode n)

def signed (z : Int) : Item ν := number (Zigzag.encode z)

def flags (f : AccessFlags) : Item ν := number f.bits.toNat

def addTo [DecidableEq ν] [Hashable ν] (s : Symbols ν) : Item ν → Symbols ν
  | raw _ | name? none | type? none => s
  | name text | name? (some text) => s.addName text
  | type ty | type? (some ty) => s.addType ty

def encode [DecidableEq ν] [Hashable ν] (s : Symbols ν) : Item ν → List UInt8
  | raw bytes => bytes
  | name text => s.nameBytes text
  | name? text => s.nameBytes? text
  | type ty => s.typeBytes ty
  | type? ty => s.typeBytes? ty

def encodeAll [DecidableEq ν] [Hashable ν] (s : Symbols ν) (items : List (Item ν)) : List UInt8 :=
  items.flatMap (encode s)

def counted {α : Type} (items : α → List (Item ν)) (as : List α) : List (Item ν) :=
  number as.length :: as.flatMap items

def types (ts : List (Ty ν)) : List (Item ν) := counted (fun t => [type t]) ts

end Item

mutual

def valueParts : Value ν → List (Item ν)
  | .byte v => [.signed v.toInt]
  | .short v => [.signed v.toInt]
  | .int v => [.signed v.toInt]
  | .long v => [.signed v.toInt]
  | .char v => [.number v.toNat]
  | .float v => [.raw (littleEndianBytes 4 v.bits.toNat)]
  | .double v => [.raw (littleEndianBytes 8 v.bits.toNat)]
  | .boolean v => [.bool v]
  | .string text => [.name text]
  | .classLiteral ty => [.type ty]
  | .enumConstant type constant => [.name type, .name constant]
  | .nested name visible members =>
    .name name :: .bool visible :: .number members.length :: membersParts members
  | .array elements => .number elements.length :: elementsParts elements

def membersParts : List (ν × Value ν) → List (Item ν)
  | [] => []
  | (name, v) :: rest => .name name :: .code v.tag.toNat :: (valueParts v ++ membersParts rest)

def elementsParts : List (Value ν) → List (Item ν)
  | [] => []
  | v :: rest => .code v.tag.toNat :: (valueParts v ++ elementsParts rest)

end

def valueItems (v : Value ν) : List (Item ν) := .code v.tag.toNat :: valueParts v

def membersItems (members : List (ν × Value ν)) : List (Item ν) :=
  .number members.length :: membersParts members

def declarationItems : DeclRef ν → List (Item ν)
  | .type _ => [.code 0]
  | .field _ name => [.code 1, .name name]
  | .method _ index => [.code 2, .number index.toNat]
  | .component _ name => [.code 5, .name name]

def useParts : TypeUse → List (Item ν)
  | .classTypeParameter position | .methodTypeParameter position | .formalParameter position =>
    [.byte position]
  | .supertype index | .thrown index => [.number index.toNat]
  | .classTypeParameterBound parameter bound | .methodTypeParameterBound parameter bound =>
    [.byte parameter, .byte bound]
  | .field | .returnType | .receiver => []

def stepItems (step : PathStep) : List (Item ν) := [.byte step.code.1, .byte step.code.2]

def typeTargetItems (t : TypeTarget ν) : List (Item ν) :=
  declarationItems t.enclosing ++ .byte t.use.code :: useParts t.use
    ++ Item.counted stepItems t.path ++ [.type t.ty]

def targetItems : Option (Target ν) → List (Item ν)
  | none => [.code 6]
  | some (.declaration d) => declarationItems d
  | some (.parameter _ method position) =>
    [.code 3, .number method.toNat, .number position.toNat]
  | some (.typeUse t) => .code 4 :: typeTargetItems t

def useItems (a : AnnotationUse ν) : List (Item ν) :=
  [.name a.name, .bool a.visible] ++ targetItems a.target ++ membersItems a.members

/-- Whether a version can hold an annotation: what stands on or in a record component needs one
that has components. -/
def Version.holds (v : Version) (a : AnnotationUse ν) : Bool :=
  v.hasComponents ||
    match a.target.map Target.belongsTo with
    | some (.component ..) => false
    | _ => true

def fieldItems (f : FieldDecl ν) : List (Item ν) := [.name f.name, .flags f.flags, .type f.ty]

def methodDetails (m : MethodDecl ν) : List (Item ν) :=
  Item.counted (fun name => [.name? name]) m.parameterNames
    ++ match m.default with
      | none => [.bool false]
      | some value => .bool true :: valueItems value

def methodItems (v : Version) (m : MethodDecl ν) : List (Item ν) :=
  [.name m.name, .flags m.flags, .type m.returnType] ++ Item.types m.parameters
    ++ Item.types m.exceptions ++ Item.types m.typeParameters
    ++ if v.hasDetails then methodDetails m else []

def componentItems (k : ComponentDecl ν) : List (Item ν) := [.name k.name, .type k.ty]

def enclosingItems : Option (EnclosingMethod ν) → List (Item ν)
  | none => [.bool false]
  | some e => [.bool true, .name e.owner, .name e.name, .name e.descriptor]

def nestingItems (n : Nesting ν) : List (Item ν) :=
  [.code n.kind.code, .name? n.enclosingClass, .name? n.simpleName]
    ++ enclosingItems n.enclosingMethod

def headItems (v : Version) (c : ClassDecl ν) : List (Item ν) :=
  [.name c.name, .flags c.flags, .name? c.superName, .type? c.superType]
    ++ Item.types c.interfaces ++ Item.types c.typeParameters
    ++ Item.counted fieldItems c.fields ++ Item.counted (methodItems v) c.methods
    ++ (if v.hasComponents then Item.counted componentItems c.components else [])
    ++ if v.hasDetails then nestingItems c.nesting ++ [.bool c.hasNoArgsConstructor] else []

end ClassCatalog.Archive
