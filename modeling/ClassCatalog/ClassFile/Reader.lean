import ClassCatalog.Bytes.Cursor
import ClassCatalog.ClassFile.Error

/-! Reading numbers and byte strings of class files, most significant byte first. -/

namespace ClassCatalog.ClassFile

abbrev Reader := StateT Cursor (Except DecodeError)

namespace Reader

def value {α : Type} (p : Reader α) (bytes : List UInt8) : Except DecodeError α :=
  (p.run (.ofBytes bytes)).map (·.1)

def bytes (n : Nat) : Reader (List UInt8) := fun c =>
  match c.take? n with
  | some r => .ok r
  | none => .error (.unexpectedEnd c.offset (n - c.rest.length))

def skip (n : Nat) : Reader Unit := do
  let _ ← bytes n

def u1 : Reader Nat := bigEndian <$> bytes 1

def u2 : Reader Nat := bigEndian <$> bytes 2

def u4 : Reader Nat := bigEndian <$> bytes 4

def u8 : Reader Nat := bigEndian <$> bytes 8

def byte : Reader UInt8 := UInt8.ofNat <$> u1

def word : Reader UInt16 := UInt16.ofNat <$> u2

def sized : Reader (List UInt8) := do bytes (← u4)

def counted {α : Type} (item : Reader α) : Reader (List α) := do times (← u2) item

end Reader

end ClassCatalog.ClassFile
