import ClassCatalog.Archive.Error
import ClassCatalog.Archive.Varint
import ClassCatalog.Bytes.Cursor

/-! Reading the numbers and texts of an archive. -/

namespace ClassCatalog.Archive

abbrev Scanner := StateT Cursor (Except ArchiveError)

namespace Scanner

def offset : Scanner Nat := do return (← get).offset

def bytes (n : Nat) : Scanner (List UInt8) := fun c =>
  match c.take? n with
  | some r => .ok r
  | none => .error (.unexpectedEnd c.offset)

def byte : Scanner UInt8 := fun c =>
  match c.rest with
  | b :: rest => .ok (b, ⟨rest, c.offset + 1⟩)
  | [] => .error (.unexpectedEnd c.offset)

def bool : Scanner Bool := do
  match (← byte).toNat with
  | 0 => return false
  | 1 => return true
  | tag => throw (.invalidTag "boolean" tag)

/-- At most `n` digits of a number that starts at `start`; a digit that could be the tenth may be
only zero or one. -/
def digits (start : Nat) : Nat → Scanner Nat
  | 0 => throw (.varintOverflow start)
  | n + 1 => do
    let b ← byte
    let digit := b.toNat % 128
    if n = 0 ∧ 1 < digit then throw (.varintOverflow start)
    if b.toNat < 128 then return digit
    return digit + 128 * (← digits start n)

def varint : Scanner Nat := do digits (← offset) 10

def varintBelow (limit : Nat) : Scanner Nat := do
  let start ← offset
  let n ← varint
  if n < limit then return n else throw (.varintOverflow start)

def signed : Scanner Int := do return Zigzag.decode (← varint)

def signedIn (least greatest : Int) : Scanner Int := do
  let start ← offset
  let z ← signed
  if least ≤ z ∧ z ≤ greatest then return z else throw (.varintOverflow start)

/-- The number of elements that follow. Each takes a byte, so there are no more than bytes. -/
def count : Scanner Nat := do
  let start ← offset
  let n ← varint
  if ((← get).take? n).isSome then return n else throw (.unexpectedEnd start)

/-- A reference to a table, zero for none and otherwise one more than the slot. -/
def optional : Scanner (Option Nat) := do
  match ← varint with
  | 0 => return none
  | n + 1 => return some n

def single : Scanner Nat := do return littleEndian (← bytes 4)

def double : Scanner Nat := do return littleEndian (← bytes 8)

def text : Scanner String := do
  let length ← count
  let start ← offset
  match String.fromUTF8? ⟨(← bytes length).toArray⟩ with
  | some s => return s
  | none => throw (.invalidUtf8 start)

def counted {α : Type} (item : Scanner α) : Scanner (List α) := do times (← count) item

end Scanner

end ClassCatalog.Archive
