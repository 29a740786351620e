import ClassCatalog.ClassFile.ModifiedUtf8
import ClassCatalog.ClassFile.Reader
import ClassCatalog.Ieee

/-! The constant pool. Entries are numbered from one, and long and double entries take two
numbers. References between entries are checked only where they are followed, so they may point
forward. -/

namespace ClassCatalog.ClassFile

inductive LinkKind where
  | string | fieldRef | methodRef | interfaceMethodRef | methodHandle | methodType | dynamic
  | invokeDynamic | module | package
  deriving DecidableEq, Repr

inductive Constant where
  | utf8 (bytes : List UInt8)
  | integer (value : Int32)
  | float (value : Single)
  | long (value : Int64)
  | double (value : Double)
  | classRef (name : Nat)
  | nameAndType (name descriptor : Nat)
  | link (kind : LinkKind)
  deriving DecidableEq, Repr

def LinkKind.label : LinkKind → String
  | string => "String"
  | fieldRef => "Fieldref"
  | methodRef => "Methodref"
  | interfaceMethodRef => "InterfaceMethodref"
  | methodHandle => "MethodHandle"
  | methodType => "MethodType"
  | dynamic => "Dynamic"
  | invokeDynamic => "InvokeDynamic"
  | module => "Module"
  | package => "Package"

namespace Constant

def label : Constant → String
  | utf8 _ => "Utf8"
  | integer _ => "Integer"
  | float _ => "Float"
  | long _ => "Long"
  | double _ => "Double"
  | classRef _ => "Class"
  | nameAndType .. => "NameAndType"
  | link kind => kind.label

def isWide : Constant → Bool
  | long _ | double _ => true
  | _ => false

def readLink (size : Nat) (kind : LinkKind) : Reader Constant := do
  Reader.skip size
  return link kind

def read (index : Nat) : Reader Constant := do
  let tag ← Reader.u1
  match tag with
  | 1 => return utf8 (← Reader.bytes (← Reader.u2))
  | 3 => return integer (Int32.ofNat (← Reader.u4))
  | 4 => return float ⟨UInt32.ofNat (← Reader.u4)⟩
  | 5 => return long (Int64.ofNat (← Reader.u8))
  | 6 => return double ⟨UInt64.ofNat (← Reader.u8)⟩
  | 7 => return classRef (← Reader.u2)
  | 8 => readLink 2 .string
  | 9 => readLink 4 .fieldRef
  | 10 => readLink 4 .methodRef
  | 11 => readLink 4 .interfaceMethodRef
  | 12 => do
    let name ← Reader.u2
    return nameAndType name (← Reader.u2)
  | 15 => readLink 3 .methodHandle
  | 16 => readLink 2 .methodType
  | 17 => readLink 4 .dynamic
  | 18 => readLink 4 .invokeDynamic
  | 19 => readLink 2 .module
  | 20 => readLink 2 .package
  | tag => throw (.invalidConstantTag index tag)

end Constant

/-- Entries by number; number zero and the second number of a wide entry hold none. -/
structure ConstantPool where
  slots : Array (Option Constant)

namespace ConstantPool

def readFrom (count : Nat) : Nat → Array (Option Constant) → Reader (Array (Option Constant))
  | 0, slots => pure slots
  | fuel + 1, slots =>
    if slots.size < count then do
      let entry ← Constant.read slots.size
      if entry.isWide then
        if slots.size + 1 < count then readFrom count fuel ((slots.push (some entry)).push none)
        else throw (.badConstantIndex (slots.size + 1))
      else readFrom count fuel (slots.push (some entry))
    else pure slots

def read : Reader ConstantPool := do
  let count ← Reader.u2
  return ⟨← readFrom count count #[none]⟩

def get (pool : ConstantPool) (index : Nat) : Except DecodeError Constant :=
  match pool.slots[index]? with
  | some (some entry) => .ok entry
  | _ => .error (.badConstantIndex index)

def utf8 (pool : ConstantPool) (index : Nat) : Except DecodeError String := do
  match ← pool.get index with
  | .utf8 bytes =>
    match ModifiedUtf8.decode bytes with
    | some text => return text
    | none => throw (.invalidModifiedUtf8 index)
  | other => throw (.wrongConstantKind index "Utf8" other.label)

def className (pool : ConstantPool) (index : Nat) : Except DecodeError String := do
  match ← pool.get index with
  | .classRef name => pool.utf8 name
  | other => throw (.wrongConstantKind index "Class" other.label)

/-- Number zero stands for an absent text. -/
def utf8? (pool : ConstantPool) (index : Nat) : Except DecodeError (Option String) :=
  if index = 0 then .ok none else some <$> pool.utf8 index

def className? (pool : ConstantPool) (index : Nat) : Except DecodeError (Option String) :=
  if index = 0 then .ok none else some <$> pool.className index

def nameAndType (pool : ConstantPool) (index : Nat) : Except DecodeError (String × String) := do
  match ← pool.get index with
  | .nameAndType name descriptor => do
    let name ← pool.utf8 name
    return (name, ← pool.utf8 descriptor)
  | other => throw (.wrongConstantKind index "NameAndType" other.label)

def integer (pool : ConstantPool) (index : Nat) : Except DecodeError Int32 := do
  match ← pool.get index with
  | .integer value => return value
  | other => throw (.wrongConstantKind index "Integer" other.label)

def long (pool : ConstantPool) (index : Nat) : Except DecodeError Int64 := do
  match ← pool.get index with
  | .long value => return value
  | other => throw (.wrongConstantKind index "Long" other.label)

def float (pool : ConstantPool) (index : Nat) : Except DecodeError Single := do
  match ← pool.get index with
  | .float value => return value
  | other => throw (.wrongConstantKind index "Float" other.label)

def double (pool : ConstantPool) (index : Nat) : Except DecodeError Double := do
  match ← pool.get index with
  | .double value => return value
  | other => throw (.wrongConstantKind index "Double" other.label)

end ConstantPool

end ClassCatalog.ClassFile
