import ClassCatalog.Archive.Varint
import ClassCatalog.Numbering
import ClassCatalog.Ty.Equality

/-! The tables that a written archive refers to. A type enters the table after its parts, so a
record of the type table refers only to earlier ones. The names may be texts or handles; nothing
is asked of them but whether they are equal, until their texts are written. -/

namespace ClassCatalog.Archive

variable {ν : Type} [DecidableEq ν] [Hashable ν]

structure Symbols (ν : Type) [DecidableEq ν] [Hashable ν] where
  names : Numbering ν
  types : Numbering (Ty ν)

namespace Symbols

def empty : Symbols ν := ⟨.empty, .empty⟩

def addName (name : ν) (s : Symbols ν) : Symbols ν := { s with names := s.names.add name }

/-- Adds a type after what `parts` adds; a known type has its parts in the table. -/
def enter (t : Ty ν) (parts : Symbols ν → Symbols ν) (s : Symbols ν) : Symbols ν :=
  match s.types.slot? t with
  | some _ => s
  | none =>
    let s := parts s
    { s with types := s.types.add t }

mutual

def addType : Ty ν → Symbols ν → Symbols ν
  | .primitive p => enter (.primitive p) id
  | .void => enter .void id
  | .named n => enter (.named n) (addName n)
  | .array d c => enter (.array d c) (addType c)
  | .parameterized n as => enter (.parameterized n as) (addTypes as ∘ addName n)
  | .inner o n as => enter (.inner o n as) (addTypes as ∘ addType o ∘ addName n)
  | .typeParameter n i bs => enter (.typeParameter n i bs) (addTypes bs ∘ addName n)
  | .typeVariable n => enter (.typeVariable n) (addName n)
  | .unresolved n => enter (.unresolved n) (addName n)
  | .wildcard e => enter (.wildcard e) id
  | .bounded e b => enter (.bounded e b) (addType b)

def addTypes : List (Ty ν) → Symbols ν → Symbols ν
  | [] => id
  | t :: ts => addTypes ts ∘ addType t

end

end Symbols

def boolByte (b : Bool) : UInt8 := if b then 1 else 0

def textBytes (text : String) : List UInt8 :=
  let bytes := text.toUTF8.data.toList
  Varint.encode bytes.length ++ bytes

namespace Symbols

def nameBytes (s : Symbols ν) (name : ν) : List UInt8 := Varint.encode (s.names.slot name)

def typeBytes (s : Symbols ν) (t : Ty ν) : List UInt8 := Varint.encode (s.types.slot t)

def typesBytes (s : Symbols ν) (ts : List (Ty ν)) : List UInt8 :=
  Varint.encode ts.length ++ ts.flatMap s.typeBytes

/-- A reference that may be absent: zero for none and otherwise one more than the slot. -/
def optionalBytes (slot : Option Nat) : List UInt8 := Varint.encode (slot.elim 0 (· + 1))

def typeBytes? (s : Symbols ν) (t : Option (Ty ν)) : List UInt8 :=
  optionalBytes (t.map s.types.slot)

def nameBytes? (s : Symbols ν) (name : Option ν) : List UInt8 :=
  optionalBytes (name.map s.names.slot)

def partBytes (s : Symbols ν) : Ty ν → List UInt8
  | .primitive p => [UInt8.ofNat p.code]
  | .void => []
  | .named n | .typeVariable n | .unresolved n => s.nameBytes n
  | .array d c => s.typeBytes c ++ [d]
  | .parameterized n as => s.nameBytes n ++ s.typeBytes? none ++ s.typesBytes as
  | .inner o n as => s.nameBytes n ++ s.typeBytes? (some o) ++ s.typesBytes as
  | .typeParameter n i bs => s.nameBytes n ++ [boolByte i] ++ s.typesBytes bs
  | .wildcard e => [boolByte e] ++ s.typeBytes? none
  | .bounded e b => [boolByte e] ++ s.typeBytes? (some b)

def typeRecord (s : Symbols ν) (t : Ty ν) : List UInt8 :=
  UInt8.ofNat t.kind.code :: s.partBytes t

def bytes (text : ν → String) (s : Symbols ν) : List UInt8 :=
  Varint.encode s.names.size ++ s.names.values.toList.flatMap (fun name => textBytes (text name))
    ++ Varint.encode s.types.size ++ s.types.values.toList.flatMap s.typeRecord

end Symbols

end ClassCatalog.Archive
