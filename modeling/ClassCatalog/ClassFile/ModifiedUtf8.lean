/-! The text encoding of class files: each UTF-16 unit takes one byte when it is between 1 and
127, two when it is zero or below 2048, and three otherwise. Longer forms than needed are read
as well. -/

namespace ClassCatalog.ModifiedUtf8

def continuation? (b : UInt8) : Option Nat :=
  if 0x80 ≤ b.toNat ∧ b.toNat < 0xC0 then some (b.toNat - 0x80) else none

def units? : List UInt8 → Option (List Nat)
  | [] => some []
  | b :: rest =>
    if 1 ≤ b.toNat ∧ b.toNat < 0x80 then (units? rest).map (b.toNat :: ·)
    else if 0xC0 ≤ b.toNat ∧ b.toNat < 0xE0 then
      match rest with
      | b1 :: rest => do
        let low ← continuation? b1
        return ((b.toNat - 0xC0) * 64 + low) :: (← units? rest)
      | [] => none
    else if 0xE0 ≤ b.toNat ∧ b.toNat < 0xF0 then
      match rest with
      | b1 :: b2 :: rest => do
        let middle ← continuation? b1
        let low ← continuation? b2
        return ((b.toNat - 0xE0) * 4096 + middle * 64 + low) :: (← units? rest)
      | _ => none
    else none

def isHigh (u : Nat) : Bool := 0xD800 ≤ u && u < 0xDC00

def isLow (u : Nat) : Bool := 0xDC00 ≤ u && u < 0xE000

def chars? : List Nat → Option (List Char)
  | [] => some []
  | u :: rest =>
    if isHigh u then
      match rest with
      | v :: rest =>
        if isLow v then
          (chars? rest).map (Char.ofNat (0x10000 + (u - 0xD800) * 1024 + (v - 0xDC00)) :: ·)
        else none
      | [] => none
    else if isLow u then none
    else (chars? rest).map (Char.ofNat u :: ·)

def decodeUnits (bytes : List UInt8) : Option String := do
  return String.ofList (← chars? (← units? bytes))

def isPlain (b : UInt8) : Bool := 0 < b.toNat && b.toNat < 0x80

/-- Plain ASCII is its own text; all else goes through UTF-16 units. -/
def decode (bytes : List UInt8) : Option String :=
  if bytes.all isPlain then some (String.ofList (bytes.map fun b => Char.ofNat b.toNat))
  else decodeUnits bytes

def charUnits (c : Char) : List Nat :=
  if c.toNat < 0x10000 then [c.toNat]
  else [0xD800 + (c.toNat - 0x10000) / 1024, 0xDC00 + (c.toNat - 0x10000) % 1024]

def encodeUnit (u : Nat) : List UInt8 :=
  if 1 ≤ u ∧ u < 0x80 then [UInt8.ofNat u]
  else if u < 0x800 then [UInt8.ofNat (0xC0 + u / 64), UInt8.ofNat (0x80 + u % 64)]
  else [UInt8.ofNat (0xE0 + u / 4096), UInt8.ofNat (0x80 + u / 64 % 64),
    UInt8.ofNat (0x80 + u % 64)]

def encode (text : String) : List UInt8 := (text.toList.flatMap charUnits).flatMap encodeUnit

end ClassCatalog.ModifiedUtf8
