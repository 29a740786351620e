import ClassCatalog.ClassDecl
import ClassCatalog.ClassFile.ConstantPool
import ClassCatalog.ClassFile.Descriptor

/-! Annotations and their member values as class files write them. -/

namespace ClassCatalog.ClassFile

namespace ElementValue

def integerIn (pool : ConstantPool) (tag : Char) (least greatest : Int) (index : Nat) :
    Except DecodeError Int := do
  let value := (← pool.integer index).toInt
  if least ≤ value ∧ value ≤ greatest then return value
  else throw (.constantOutOfRange tag value)

def body (pool : ConstantPool) (element : Reader (Value String)) :
    Reader (String × List (String × Value String)) := do
  let name ← Descriptor.parseClass (← pool.utf8 (← Reader.u2))
  let members ← Reader.counted do
    let member ← pool.utf8 (← Reader.u2)
    return (member, ← element)
  return (name, members)

def read (pool : ConstantPool) (visible : Bool) : Nat → Reader (Value String)
  | 0 => throw (.nestingTooDeep .elementValue)
  | levels + 1 => do
    let tag ← Reader.byte
    match Char.ofNat tag.toNat with
    | 'B' => return .byte (Int8.ofInt (← integerIn pool 'B' (-128) 127 (← Reader.u2)))
    | 'C' => return .char (UInt16.ofInt (← integerIn pool 'C' 0 65535 (← Reader.u2)))
    | 'S' => return .short (Int16.ofInt (← integerIn pool 'S' (-32768) 32767 (← Reader.u2)))
    | 'I' => return .int (← pool.integer (← Reader.u2))
    | 'Z' => return .boolean ((← pool.integer (← Reader.u2)) != 0)
    | 'J' => return .long (← pool.long (← Reader.u2))
    | 'F' => return .float (← pool.float (← Reader.u2))
    | 'D' => return .double (← pool.double (← Reader.u2))
    | 's' => return .string (← pool.utf8 (← Reader.u2))
    | 'e' => do
      let type ← Descriptor.parseClass (← pool.utf8 (← Reader.u2))
      return .enumConstant type (← pool.utf8 (← Reader.u2))
    | 'c' => return .classLiteral (← Descriptor.parseReturn (← pool.utf8 (← Reader.u2)))
    | '@' => do
      let (name, members) ← body pool (read pool visible levels)
      return .nested name visible members
    | '[' => return .array (← Reader.counted (read pool visible levels))
    | _ => throw (.invalidElementTag tag)

def readDefault (pool : ConstantPool) : Reader (Value String) :=
  read pool true Nested.elementValue.limit

end ElementValue

namespace Annotations

def readOne (pool : ConstantPool) (visible : Bool) : Reader (AnnotationUse String) := do
  let (name, members) ←
    ElementValue.body pool (ElementValue.read pool visible (Nested.elementValue.limit - 1))
  return ⟨name, visible, none, members⟩

def read (pool : ConstantPool) (target : Target String) (visible : Bool) :
    Reader (List (AnnotationUse String)) :=
  Reader.counted do return { ← readOne pool visible with target := some target }

def readTables (pool : ConstantPool) (owner : String) (method : UInt32) (visible : Bool) :
    Nat → Nat → Reader (List (AnnotationUse String))
  | 0, _ => pure []
  | n + 1, position => do
    let target : Target String := .parameter owner method (UInt16.ofNat (min 65535 position))
    let here ← read pool target visible
    return here ++ (← readTables pool owner method visible n (position + 1))

/-- The tables of a method with `arity` parameters. Fewer tables than parameters leave out the
first ones. -/
def readParameters (pool : ConstantPool) (owner : String) (method : UInt32) (arity : Nat)
    (visible : Bool) : Reader (List (AnnotationUse String)) := do
  let count ← Reader.u1
  readTables pool owner method visible count (arity - count)

end Annotations

structure TypeEntry (ν : Type) where
  use : TypeUse
  path : List PathStep
  body : AnnotationUse ν

namespace TypeEntry

inductive Location where
  | declared (use : TypeUse)
  | code
  | unknown

def readLocation : Reader Location := do
  match ← Reader.u1 with
  | 0x00 => return .declared (.classTypeParameter (← Reader.byte))
  | 0x01 => return .declared (.methodTypeParameter (← Reader.byte))
  | 0x10 => return .declared (.supertype (← Reader.word))
  | 0x11 => do
    let parameter ← Reader.byte
    return .declared (.classTypeParameterBound parameter (← Reader.byte))
  | 0x12 => do
    let parameter ← Reader.byte
    return .declared (.methodTypeParameterBound parameter (← Reader.byte))
  | 0x13 => return .declared .field
  | 0x14 => return .declared .returnType
  | 0x15 => return .declared .receiver
  | 0x16 => return .declared (.formalParameter (← Reader.byte))
  | 0x17 => return .declared (.thrown (← Reader.word))
  | target =>
    if target = 0x40 ∨ target = 0x41 then
      let entries ← Reader.u2
      Reader.skip (entries * 6)
      return .code
    else if 0x42 ≤ target ∧ target ≤ 0x46 then
      Reader.skip 2
      return .code
    else if 0x47 ≤ target ∧ target ≤ 0x4B then
      Reader.skip 3
      return .code
    else return .unknown

def readPath : Reader (Option (List PathStep)) := do
  let steps ← times (← Reader.u1) do
    let kind ← Reader.byte
    return PathStep.ofCode? kind (← Reader.byte)
  return steps.mapM id

/-- `n` entries, or those before an unknown location, which has an unknown size. -/
def readMany (pool : ConstantPool) (visible : Bool) : Nat → Reader (List (TypeEntry String))
  | 0 => pure []
  | n + 1 => do
    match ← readLocation with
    | .unknown => return []
    | .code => do
      let _ ← readPath
      let _ ← Annotations.readOne pool visible
      readMany pool visible n
    | .declared use => do
      let path ← readPath
      let body ← Annotations.readOne pool visible
      let rest ← readMany pool visible n
      match path with
      | some path => return ⟨use, path, body⟩ :: rest
      | none => return rest

def read (pool : ConstantPool) (visible : Bool) :
    Reader (List (TypeEntry String)) := do
  readMany pool visible (← Reader.u2)

end TypeEntry

end ClassCatalog.ClassFile
