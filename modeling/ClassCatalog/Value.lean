import ClassCatalog.Ieee
import ClassCatalog.Ty.Equality

/-! The values that annotation members take, over an arbitrary type `ν` of names. -/

namespace ClassCatalog

inductive Value (ν : Type) where
  | byte (v : Int8)
  | char (unit : UInt16)
  | short (v : Int16)
  | int (v : Int32)
  | long (v : Int64)
  | float (v : Single)
  | double (v : Double)
  | boolean (v : Bool)
  | string (text : ν)
  | classLiteral (ty : Ty ν)
  | enumConstant (type constant : ν)
  /-- An annotation as a value. It stands on nothing, and has the visibility it is read with. -/
  | nested (name : ν) (visible : Bool) (members : List (ν × Value ν))
  | array (elements : List (Value ν))
  deriving Repr

namespace Value

variable {ν : Type}

def tag : Value ν → Char
  | byte _ => 'B'
  | char _ => 'C'
  | short _ => 'S'
  | int _ => 'I'
  | long _ => 'J'
  | float _ => 'F'
  | double _ => 'D'
  | boolean _ => 'Z'
  | string _ => 's'
  | classLiteral _ => 'c'
  | enumConstant .. => 'e'
  | nested .. => '@'
  | array _ => '['

def label : Value ν → String
  | byte _ => "byte"
  | char _ => "char"
  | short _ => "short"
  | int _ => "int"
  | long _ => "long"
  | float _ => "float"
  | double _ => "double"
  | boolean _ => "boolean"
  | string _ => "string"
  | classLiteral _ => "class"
  | enumConstant .. => "enum"
  | nested .. => "nested annotation"
  | array _ => "array"

private def wrongValue (v : Value ν) (expected : String) : WrongKind := ⟨expected, v.label⟩

def asString : Value ν → Except WrongKind ν
  | string text => .ok text
  | v => .error (wrongValue v "string")

def asLong : Value ν → Except WrongKind Int64
  | byte v => .ok v.toInt64
  | char v => .ok v.toUInt64.toInt64
  | short v => .ok v.toInt64
  | int v => .ok v.toInt64
  | long v => .ok v
  | v => .error (wrongValue v "integral value")

def asInt : Value ν → Except WrongKind Int32
  | byte v => .ok v.toInt32
  | char v => .ok v.toUInt32.toInt32
  | short v => .ok v.toInt32
  | int v => .ok v
  | v => .error (wrongValue v "int")

def asDouble : Value ν → Except WrongKind Double
  | float v => .ok v.toDouble
  | double v => .ok v
  | v => .error (wrongValue v "floating point value")

def asBoolean : Value ν → Except WrongKind Bool
  | boolean v => .ok v
  | v => .error (wrongValue v "boolean")

def asClass : Value ν → Except WrongKind (Ty ν)
  | classLiteral ty => .ok ty
  | v => .error (wrongValue v "class")

def asEnum : Value ν → Except WrongKind (ν × ν)
  | enumConstant type constant => .ok (type, constant)
  | v => .error (wrongValue v "enum")

def asNested : Value ν → Except WrongKind (ν × List (ν × Value ν))
  | nested name _ members => .ok (name, members)
  | v => .error (wrongValue v "nested annotation")

def asArray : Value ν → Except WrongKind (List (Value ν))
  | array elements => .ok elements
  | v => .error (wrongValue v "array")

section Equality

variable [DecidableEq ν]

mutual

def same : Value ν → Value ν → Bool
  | byte a, byte b => a = b
  | char a, char b => a = b
  | short a, short b => a = b
  | int a, int b => a = b
  | long a, long b => a = b
  | float a, float b => a.numberEq b
  | double a, double b => a.numberEq b
  | boolean a, boolean b => a = b
  | string a, string b => a = b
  | classLiteral a, classLiteral b => a = b
  | enumConstant t a, enumConstant u b => t = u && a = b
  | nested n v ms, nested m w ns => n = m && v = w && sameMembers ms ns
  | array as, array bs => sameElements as bs
  | _, _ => false

def sameMembers : List (ν × Value ν) → List (ν × Value ν) → Bool
  | [], [] => true
  | (n, a) :: as, (m, b) :: bs => n = m && a.same b && sameMembers as bs
  | _, _ => false

def sameElements : List (Value ν) → List (Value ν) → Bool
  | [], [] => true
  | a :: as, b :: bs => a.same b && sameElements as bs
  | _, _ => false

end

end Equality

mutual

def depth : Value ν → Nat
  | nested _ _ members => 1 + membersDepth members
  | array elements => 1 + elementsDepth elements
  | _ => 1

def membersDepth : List (ν × Value ν) → Nat
  | [] => 0
  | (_, v) :: rest => max v.depth (membersDepth rest)

def elementsDepth : List (Value ν) → Nat
  | [] => 0
  | v :: rest => max v.depth (elementsDepth rest)

end

end Value

end ClassCatalog
