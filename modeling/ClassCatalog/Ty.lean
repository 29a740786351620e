import ClassCatalog.Category

/-! Types as class files name them, over an arbitrary type `ν` of names. A type variable is
written in full only where it is declared; every use refers to it by identifier, so types are
finite trees. -/

namespace ClassCatalog

inductive Primitive where
  | boolean | byte | char | short | int | long | float | double
  deriving DecidableEq, Repr

namespace Primitive

def all : List Primitive := [boolean, byte, char, short, int, long, float, double]

def keyword : Primitive → String
  | boolean => "boolean"
  | byte => "byte"
  | char => "char"
  | short => "short"
  | int => "int"
  | long => "long"
  | float => "float"
  | double => "double"

def letter : Primitive → Char
  | boolean => 'Z'
  | byte => 'B'
  | char => 'C'
  | short => 'S'
  | int => 'I'
  | long => 'J'
  | float => 'F'
  | double => 'D'

def ofLetter? : Char → Option Primitive
  | 'Z' => some boolean
  | 'B' => some byte
  | 'C' => some char
  | 'S' => some short
  | 'I' => some int
  | 'J' => some long
  | 'F' => some float
  | 'D' => some double
  | _ => none

def code : Primitive → Nat
  | boolean => 0
  | byte => 1
  | char => 2
  | short => 3
  | int => 4
  | long => 5
  | float => 6
  | double => 7

def ofCode? (n : Nat) : Option Primitive := all[n]?

theorem ofLetter?_letter (p : Primitive) : ofLetter? p.letter = some p := by cases p <;> rfl

end Primitive

inductive TyKind where
  | primitive | void | named | array | parameterized | typeParameter | typeVariable | unresolved
  | wildcard
  deriving DecidableEq, Repr

namespace TyKind

def all : List TyKind :=
  [primitive, void, named, array, parameterized, typeParameter, typeVariable, unresolved, wildcard]

def label : TyKind → String
  | primitive => "primitive type"
  | void => "void"
  | named => "class type"
  | array => "array type"
  | parameterized => "parameterized type"
  | typeParameter => "type variable"
  | typeVariable => "type variable reference"
  | unresolved => "unresolved type variable"
  | wildcard => "wildcard type"

def code : TyKind → Nat
  | primitive => 0
  | void => 1
  | named => 2
  | array => 3
  | parameterized => 4
  | typeParameter => 5
  | typeVariable => 6
  | unresolved => 7
  | wildcard => 8

def ofCode? (n : Nat) : Option TyKind := all[n]?

end TyKind

inductive Ty (ν : Type) where
  | primitive (p : Primitive)
  | void
  | named (name : ν)
  | array (dimensions : UInt8) (component : Ty ν)
  | parameterized (name : ν) (arguments : List (Ty ν))
  | inner (owner : Ty ν) (name : ν) (arguments : List (Ty ν))
  /-- The declaration of a type parameter. `implicitObject` says that its class bound was left
  out; bound positions in class files count the missing bound. -/
  | typeParameter (identifier : ν) (implicitObject : Bool) (bounds : List (Ty ν))
  | typeVariable (identifier : ν)
  /-- A use of a variable that no scope declares. -/
  | unresolved (identifier : ν)
  | wildcard (isExtends : Bool)
  | bounded (isExtends : Bool) (bound : Ty ν)
  deriving Repr

namespace Ty

variable {ν : Type}

def kind : Ty ν → TyKind
  | primitive _ => .primitive
  | void => .void
  | named _ => .named
  | array .. => .array
  | parameterized .. | inner .. => .parameterized
  | typeParameter .. => .typeParameter
  | typeVariable _ => .typeVariable
  | unresolved _ => .unresolved
  | wildcard _ | bounded .. => .wildcard

def name? : Ty ν → Option ν
  | named n | typeVariable n | unresolved n | parameterized n _ | inner _ n _
  | typeParameter n _ _ => some n
  | primitive _ | void | array .. | wildcard _ | bounded .. => none

/-- An array over `component`. Arrays of arrays are one array of more dimensions, at most 255. -/
def arrayOf (dimensions : UInt8) : Ty ν → Ty ν
  | array others component =>
    array (UInt8.ofNat (min 255 (others.toNat + dimensions.toNat))) component
  | component => array dimensions component

def isParameterized (t : Ty ν) : Bool := t.kind = .parameterized

def declaredNames (parameters : List (Ty ν)) : List ν :=
  parameters.filterMap fun
    | typeParameter n _ _ => some n
    | _ => none

private def wrongTy (t : Ty ν) (expected : TyKind) : WrongKind := ⟨expected.label, t.kind.label⟩

def asPrimitive : Ty ν → Except WrongKind Primitive
  | primitive p => .ok p
  | t => .error (wrongTy t .primitive)

def asClass : Ty ν → Except WrongKind ν
  | named n => .ok n
  | t => .error (wrongTy t .named)

def asArray : Ty ν → Except WrongKind (UInt8 × Ty ν)
  | array d c => .ok (d, c)
  | t => .error (wrongTy t .array)

def asParameterized : Ty ν → Except WrongKind (ν × List (Ty ν))
  | parameterized n as | inner _ n as => .ok (n, as)
  | t => .error (wrongTy t .parameterized)

def asTypeParameter : Ty ν → Except WrongKind (ν × List (Ty ν))
  | typeParameter n _ bs => .ok (n, bs)
  | t => .error (wrongTy t .typeParameter)

def asWildcard : Ty ν → Except WrongKind Bool
  | wildcard e | bounded e _ => .ok e
  | t => .error (wrongTy t .wildcard)

/-- The place in `bounds` of a bound as class files count it. -/
def boundSlot (implicitObject : Bool) (position : UInt8) : Option Nat :=
  match implicitObject, position.toNat with
  | true, 0 => none
  | true, n + 1 => some n
  | false, n => some n

def bound? (t : Ty ν) (position : UInt8) : Option (Ty ν) :=
  match t with
  | typeParameter _ implicitObject bounds => do bounds[← boundSlot implicitObject position]?
  | _ => none

mutual

def nodes : Ty ν → Nat
  | array _ c => 1 + c.nodes
  | parameterized _ as => 1 + listNodes as
  | inner o _ as => 1 + o.nodes + listNodes as
  | typeParameter _ _ bs => 1 + listNodes bs
  | bounded _ b => 1 + b.nodes
  | primitive _ | void | named _ | typeVariable _ | unresolved _ | wildcard _ => 1

def listNodes : List (Ty ν) → Nat
  | [] => 0
  | t :: ts => t.nodes + listNodes ts

end

mutual

def depth : Ty ν → Nat
  | array _ c => 1 + c.depth
  | parameterized _ as => 1 + listDepth as
  | inner o _ as => 1 + max o.depth (listDepth as)
  | typeParameter _ _ bs => 1 + listDepth bs
  | bounded _ b => 1 + b.depth
  | primitive _ | void | named _ | typeVariable _ | unresolved _ | wildcard _ => 1

def listDepth : List (Ty ν) → Nat
  | [] => 0
  | t :: ts => max t.depth (listDepth ts)

end

end Ty

end ClassCatalog
