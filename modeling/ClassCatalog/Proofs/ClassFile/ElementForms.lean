import ClassCatalog.Proofs.ClassFile.Container
import ClassCatalog.Proofs.ClassFile.DescriptorGrammar

/-! Annotations and their values with the numbers of the constants that they refer to, the bytes of
each, and what it stands for. -/

namespace ClassCatalog.ClassFile

open Descriptor (ClassName FieldForm MethodForm)

namespace Descriptor.ClassName

def descriptor (n : ClassName) : String := String.ofList (Base.named n).chars

def binary (n : ClassName) : String := binaryName (String.ofList n.chars)

theorem parseClass_descriptor (n : ClassName) : parseClass n.descriptor = .ok n.binary := by
  rw [parseClass, orMalformed_eq_ok_iff, className_eq_some_iff]
  exact ⟨n, String.toList_ofList, rfl⟩

end Descriptor.ClassName

inductive PlainForm where
  | byte (v : Int8)
  | char (unit : UInt16)
  | short (v : Int16)
  | int (v : Int32)
  | long (v : Int64)
  | float (v : Single)
  | double (v : Double)
  | boolean (v : Bool)
  | string (text : String)
  | classLiteral (type : Option FieldForm)

namespace PlainForm

def value : PlainForm → Value String
  | byte v => .byte v
  | char unit => .char unit
  | short v => .short v
  | int v => .int v
  | long v => .long v
  | float v => .float v
  | double v => .double v
  | boolean v => .boolean v
  | string text => .string text
  | classLiteral type => .classLiteral (MethodForm.resultTy type)

/-- The constant says the value. Any number but zero is true. -/
inductive SaidBy : PlainForm → Constant → Prop where
  | byte {v : Int8} {n : Int32} (h : n.toInt = v.toInt) : SaidBy (byte v) (.integer n)
  | char {unit : UInt16} {n : Int32} (h : n.toInt = unit.toNat) : SaidBy (char unit) (.integer n)
  | short {v : Int16} {n : Int32} (h : n.toInt = v.toInt) : SaidBy (short v) (.integer n)
  | int (v : Int32) : SaidBy (int v) (.integer v)
  | long (v : Int64) : SaidBy (long v) (.long v)
  | float (v : Single) : SaidBy (float v) (.float v)
  | double (v : Double) : SaidBy (double v) (.double v)
  | boolean (n : Int32) : SaidBy (boolean (n != 0)) (.integer n)
  | string {text : String} {bytes : List UInt8} (h : ModifiedUtf8.decode bytes = some text) :
    SaidBy (string text) (.utf8 bytes)
  | classLiteral {type : Option FieldForm} {bytes : List UInt8}
    (h : ModifiedUtf8.decode bytes = some (String.ofList (MethodForm.resultChars type))) :
    SaidBy (classLiteral type) (.utf8 bytes)

def HeldBy (pool : ConstantPool) (index : UInt16) (v : PlainForm) : Prop :=
  ∃ c, pool.get index.toNat = .ok c ∧ v.SaidBy c

end PlainForm

def letterByte (letter : Char) : UInt8 := UInt8.ofNat letter.toNat

structure Numbered (α : Type) where
  index : UInt16
  item : α

inductive ElementForm where
  | plain (v : Numbered PlainForm)
  | enumConstant (type : Numbered ClassName) (constant : Numbered String)
  | nested (type : Numbered ClassName) (members : List (Numbered String × ElementForm))
  | array (elements : List ElementForm)

structure AnnotationForm where
  type : Numbered ClassName
  members : List (Numbered String × ElementForm)

namespace ElementForm

mutual

def value (visible : Bool) : ElementForm → Value String
  | plain v => v.item.value
  | enumConstant type constant => .enumConstant type.item.binary constant.item
  | nested type members => .nested type.item.binary visible (membersValue visible members)
  | array elements => .array (elementsValue visible elements)

def membersValue (visible : Bool) :
    List (Numbered String × ElementForm) → List (String × Value String)
  | [] => []
  | (name, f) :: members => (name.item, f.value visible) :: membersValue visible members

def elementsValue (visible : Bool) : List ElementForm → List (Value String)
  | [] => []
  | f :: elements => f.value visible :: elementsValue visible elements

end

mutual

def bytes : ElementForm → List UInt8
  | plain v => letterByte v.item.value.tag :: wordBytes v.index
  | enumConstant type constant =>
    letterByte 'e' :: (wordBytes type.index ++ wordBytes constant.index)
  | nested type members =>
    letterByte '@'
      :: (wordBytes type.index ++ (bigEndianBytes 2 members.length ++ membersBytes members))
  | array elements => letterByte '[' :: (bigEndianBytes 2 elements.length ++ elementsBytes elements)

def membersBytes : List (Numbered String × ElementForm) → List UInt8
  | [] => []
  | (name, f) :: members => (wordBytes name.index ++ f.bytes) ++ membersBytes members

def elementsBytes : List ElementForm → List UInt8
  | [] => []
  | f :: elements => f.bytes ++ elementsBytes elements

end

def memberValue (visible : Bool) (m : Numbered String × ElementForm) : String × Value String :=
  (m.1.item, m.2.value visible)

def memberBytes (m : Numbered String × ElementForm) : List UInt8 :=
  wordBytes m.1.index ++ m.2.bytes

theorem membersValue_eq (visible : Bool) (members : List (Numbered String × ElementForm)) :
    membersValue visible members = members.map (memberValue visible) := by
  induction members with
  | nil => rfl
  | cons m members ih =>
    rw [membersValue, ih]
    rfl

theorem elementsValue_eq (visible : Bool) (elements : List ElementForm) :
    elementsValue visible elements = elements.map (value visible) := by
  induction elements with
  | nil => rfl
  | cons f elements ih =>
    rw [elementsValue, ih]
    rfl

theorem membersBytes_eq (members : List (Numbered String × ElementForm)) :
    membersBytes members = members.flatMap memberBytes := by
  induction members with
  | nil => rfl
  | cons m members ih =>
    rw [membersBytes, ih]
    rfl

theorem elementsBytes_eq (elements : List ElementForm) :
    elementsBytes elements = elements.flatMap bytes := by
  induction elements with
  | nil => rfl
  | cons f elements ih =>
    rw [elementsBytes, ih]
    rfl

/-- All that the value refers to is there, and no list is too long for its count. Nothing is asked
of values that are `levels` or more levels down. -/
def WellFormed (pool : ConstantPool) : Nat → ElementForm → Prop
  | 0, _ => True
  | _ + 1, plain v => v.item.HeldBy pool v.index
  | _ + 1, enumConstant type constant =>
    (PlainForm.string type.item.descriptor).HeldBy pool type.index
      ∧ (PlainForm.string constant.item).HeldBy pool constant.index
  | levels + 1, nested type members =>
    (PlainForm.string type.item.descriptor).HeldBy pool type.index
      ∧ members.length < UInt16.size
      ∧ ∀ m ∈ members,
        (PlainForm.string m.1.item).HeldBy pool m.1.index ∧ m.2.WellFormed pool levels
  | levels + 1, array elements =>
    elements.length < UInt16.size ∧ ∀ f ∈ elements, f.WellFormed pool levels

end ElementForm

namespace AnnotationForm

def use (visible : Bool) (a : AnnotationForm) : AnnotationUse String where
  name := a.type.item.binary
  visible := visible
  target := none
  members := a.members.map (ElementForm.memberValue visible)

def bytes (a : AnnotationForm) : List UInt8 :=
  wordBytes a.type.index ++ countedBytes ElementForm.memberBytes a.members

/-- Nothing is asked of values that are more than `levels` levels down. -/
structure WellFormed (pool : ConstantPool) (levels : Nat) (a : AnnotationForm) : Prop where
  type : (PlainForm.string a.type.item.descriptor).HeldBy pool a.type.index
  fits : a.members.length < UInt16.size
  members : ∀ m ∈ a.members,
    (PlainForm.string m.1.item).HeldBy pool m.1.index ∧ m.2.WellFormed pool levels

end AnnotationForm

namespace ElementForm

theorem value_nested (visible : Bool) (type : Numbered ClassName)
    (members : List (Numbered String × ElementForm)) :
    (nested type members).value visible
      = .nested type.item.binary visible (members.map (memberValue visible)) := by
  rw [value, membersValue_eq]

theorem value_array (visible : Bool) (elements : List ElementForm) :
    (array elements).value visible = .array (elements.map (value visible)) := by
  rw [value, elementsValue_eq]

theorem bytes_nested (type : Numbered ClassName)
    (members : List (Numbered String × ElementForm)) :
    (nested type members).bytes = letterByte '@' :: (AnnotationForm.mk type members).bytes := by
  rw [bytes, membersBytes_eq]
  rfl

theorem bytes_array (elements : List ElementForm) :
    (array elements).bytes = letterByte '[' :: countedBytes bytes elements := by
  rw [bytes, elementsBytes_eq]
  rfl

end ElementForm

end ClassCatalog.ClassFile
