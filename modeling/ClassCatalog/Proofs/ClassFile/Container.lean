import Mathlib.Algebra.Ring.Nat
import ClassCatalog.ClassFile.Decode

/-! A class file as the list of its parts, and the bytes that they make. The numbers of the
constant pool are counted on the list of its entries, so that what a number means is said before
anything is read. -/

namespace ClassCatalog.ClassFile

def bigEndianBytes : Nat → Nat → List UInt8
  | 0, _ => []
  | width + 1, n => bigEndianBytes width (n / 256) ++ [UInt8.ofNat (n % 256)]

def wordBytes (w : UInt16) : List UInt8 := bigEndianBytes 2 w.toNat

namespace LinkKind

def tag : LinkKind → UInt8
  | string => 8
  | fieldRef => 9
  | methodRef => 10
  | interfaceMethodRef => 11
  | methodHandle => 15
  | methodType => 16
  | dynamic => 17
  | invokeDynamic => 18
  | module => 19
  | package => 20

def payloadSize : LinkKind → Nat
  | string | methodType | module | package => 2
  | methodHandle => 3
  | fieldRef | methodRef | interfaceMethodRef | dynamic | invokeDynamic => 4

end LinkKind

/-- An entry with all that its bytes say, also where reading steps over them. -/
inductive PoolEntry where
  | utf8 (text : List UInt8) (fits : text.length < UInt16.size)
  | integer (value : Int32)
  | float (value : Single)
  | long (value : Int64)
  | double (value : Double)
  | classRef (name : UInt16)
  | nameAndType (name descriptor : UInt16)
  | link (kind : LinkKind) (payload : List UInt8) (fits : payload.length = kind.payloadSize)

namespace PoolEntry

def constant : PoolEntry → Constant
  | utf8 text _ => .utf8 text
  | integer value => .integer value
  | float value => .float value
  | long value => .long value
  | double value => .double value
  | classRef name => .classRef name.toNat
  | nameAndType name descriptor => .nameAndType name.toNat descriptor.toNat
  | link kind _ _ => .link kind

def bytes : PoolEntry → List UInt8
  | utf8 text _ => 1 :: (bigEndianBytes 2 text.length ++ text)
  | integer value => 3 :: bigEndianBytes 4 value.toUInt32.toNat
  | float value => 4 :: bigEndianBytes 4 value.bits.toNat
  | long value => 5 :: bigEndianBytes 8 value.toUInt64.toNat
  | double value => 6 :: bigEndianBytes 8 value.bits.toNat
  | classRef name => 7 :: wordBytes name
  | nameAndType name descriptor => 12 :: (wordBytes name ++ wordBytes descriptor)
  | link kind payload _ => kind.tag :: payload

def width : PoolEntry → Nat
  | long _ | double _ => 2
  | _ => 1

def widths (entries : List PoolEntry) : Nat := (entries.map width).sum

/-- The entry of a number. Numbers start with one. -/
def At (entries : List PoolEntry) (index : Nat) (e : PoolEntry) : Prop :=
  ∃ front back, entries = front ++ e :: back ∧ index = 1 + widths front

/-- The text of a number. -/
def Spells (entries : List PoolEntry) (index : Nat) (text : String) : Prop :=
  ∃ bytes fits, At entries index (.utf8 bytes fits) ∧ ModifiedUtf8.decode bytes = some text

def NamesClass (entries : List PoolEntry) (index : Nat) (text : String) : Prop :=
  ∃ name : UInt16, At entries index (.classRef name) ∧ Spells entries name.toNat text

end PoolEntry

open PoolEntry (At Spells NamesClass widths)

structure AttributeEntry where
  name : UInt16
  body : List UInt8
  fits : body.length < UInt32.size := by decide

namespace AttributeEntry

def bytes (a : AttributeEntry) : List UInt8 :=
  wordBytes a.name ++ (bigEndianBytes 4 a.body.length ++ a.body)

/-- The name is a text, and the body of a signature is the number of a text. -/
def Refers (entries : List PoolEntry) (a : AttributeEntry) : Prop :=
  ∃ name, Spells entries a.name.toNat name ∧ (name = "Signature" →
    a.body.length = 2 ∧ ∃ text, Spells entries (bigEndian a.body) text)

def IsLast (entries : List PoolEntry) (table : List AttributeEntry) (name : String)
    (body : List UInt8) : Prop :=
  ∃ front a back, table = front ++ a :: back ∧ Spells entries a.name.toNat name ∧ a.body = body
    ∧ ∀ b ∈ back, ¬ Spells entries b.name.toNat name

end AttributeEntry

def countedBytes {α : Type} (bytes : α → List UInt8) (items : List α) : List UInt8 :=
  bigEndianBytes 2 items.length ++ items.flatMap bytes

structure MemberEntry where
  flags : UInt16
  name : UInt16
  descriptor : UInt16
  attributes : List AttributeEntry
  fits : attributes.length < UInt16.size := by decide

namespace MemberEntry

def bytes (m : MemberEntry) : List UInt8 :=
  wordBytes m.flags ++ (wordBytes m.name ++ (wordBytes m.descriptor
    ++ countedBytes AttributeEntry.bytes m.attributes))

structure Refers (entries : List PoolEntry) (m : MemberEntry) : Prop where
  name : ∃ text, Spells entries m.name.toNat text
  descriptor : ∃ text, Spells entries m.descriptor.toNat text
  attributes : ∀ a ∈ m.attributes, a.Refers entries

end MemberEntry

structure Container where
  minor : UInt16
  major : UInt16
  entries : List PoolEntry
  flags : UInt16
  name : UInt16
  superName : Option UInt16
  interfaces : List UInt16
  fields : List MemberEntry
  methods : List MemberEntry
  attributes : List AttributeEntry
  entries_fit : widths entries < UInt16.size - 1 := by decide
  interfaces_fit : interfaces.length < UInt16.size := by decide
  fields_fit : fields.length < UInt16.size := by decide
  methods_fit : methods.length < UInt16.size := by decide
  attributes_fit : attributes.length < UInt16.size := by decide

namespace Container

def headerBytes (file : Container) : List UInt8 :=
  [0xCA, 0xFE, 0xBA, 0xBE] ++ (wordBytes file.minor ++ wordBytes file.major)

def poolBytes (file : Container) : List UInt8 :=
  bigEndianBytes 2 (1 + widths file.entries) ++ file.entries.flatMap PoolEntry.bytes

def bytes (file : Container) : List UInt8 :=
  file.headerBytes ++ (file.poolBytes ++ (wordBytes file.flags ++ (wordBytes file.name
    ++ (wordBytes (file.superName.getD 0) ++ (countedBytes wordBytes file.interfaces
      ++ (countedBytes MemberEntry.bytes file.fields
        ++ (countedBytes MemberEntry.bytes file.methods
          ++ countedBytes AttributeEntry.bytes file.attributes)))))))

/-- Every number that is used leads to an entry of the right kind, with a text. -/
structure Refers (file : Container) : Prop where
  name : ∃ text, NamesClass file.entries file.name.toNat text
  superName : ∀ index ∈ file.superName, ∃ text, NamesClass file.entries index.toNat text
  interfaces : ∀ index ∈ file.interfaces, ∃ text, NamesClass file.entries index.toNat text
  fields : ∀ m ∈ file.fields, m.Refers file.entries
  methods : ∀ m ∈ file.methods, m.Refers file.entries
  attributes : ∀ a ∈ file.attributes, a.Refers file.entries

end Container

end ClassCatalog.ClassFile
