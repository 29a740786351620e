/-! Binary floating-point numbers of the two standard widths, kept as their bits. -/

namespace ClassCatalog

namespace Ieee

structure Format where
  fractionBits : Nat
  exponentBits : Nat
  deriving DecidableEq, Repr

namespace Format

def single : Format := ⟨23, 8⟩

def double : Format := ⟨52, 11⟩

def bias (f : Format) : Nat := Nat.pow 2 (f.exponentBits - 1) - 1

def maxExponent (f : Format) : Nat := Nat.pow 2 f.exponentBits - 1

end Format

structure Fields where
  negative : Bool
  exponent : Nat
  fraction : Nat
  deriving DecidableEq, Repr

namespace Fields

def ofBits (f : Format) (bits : Nat) : Fields where
  negative := bits / Nat.pow 2 (f.fractionBits + f.exponentBits) % 2 = 1
  exponent := bits / Nat.pow 2 f.fractionBits % Nat.pow 2 f.exponentBits
  fraction := bits % Nat.pow 2 f.fractionBits

def toBits (f : Format) (x : Fields) : Nat :=
  (if x.negative then Nat.pow 2 (f.fractionBits + f.exponentBits) else 0)
    + x.exponent * Nat.pow 2 f.fractionBits + x.fraction

def isNaN (f : Format) (x : Fields) : Bool := x.exponent = f.maxExponent ∧ x.fraction ≠ 0

def isZero (x : Fields) : Bool := x.exponent = 0 ∧ x.fraction = 0

def magnitude (f : Format) (x : Fields) : Nat × Int :=
  if x.exponent = 0 then (x.fraction, 1 - (f.bias + f.fractionBits : Nat))
  else (Nat.pow 2 f.fractionBits + x.fraction, x.exponent - (f.bias + f.fractionBits : Nat))

/-- Equality of numbers: the zeros are equal, and what is not a number equals nothing. -/
def numberEq (f : Format) (x y : Fields) : Bool :=
  !x.isNaN f && !y.isNaN f && (x = y || (x.isZero && y.isZero))

/-- The single-width number `x` in double width. What is not a number keeps its sign and payload
and becomes quiet. -/
def widen (x : Fields) : Fields :=
  if x.exponent = Format.single.maxExponent then
    ⟨x.negative, Format.double.maxExponent,
      if x.fraction = 0 then 0 else x.fraction % Nat.pow 2 22 * Nat.pow 2 29 + Nat.pow 2 51⟩
  else if x.exponent = 0 then
    if x.fraction = 0 then ⟨x.negative, 0, 0⟩
    else
      let top := x.fraction.log2
      ⟨x.negative, top + 874, (x.fraction - Nat.pow 2 top) * Nat.pow 2 (52 - top)⟩
  else ⟨x.negative, x.exponent + 896, x.fraction * Nat.pow 2 29⟩

end Fields

end Ieee

structure Single where
  bits : UInt32
  deriving DecidableEq, Repr

structure Double where
  bits : UInt64
  deriving DecidableEq, Repr

namespace Single

def fields (x : Single) : Ieee.Fields := .ofBits .single x.bits.toNat

def numberEq (x y : Single) : Bool := x.fields.numberEq .single y.fields

def toDouble (x : Single) : Double := ⟨UInt64.ofNat (x.fields.widen.toBits .double)⟩

end Single

namespace Double

def fields (x : Double) : Ieee.Fields := .ofBits .double x.bits.toNat

def numberEq (x y : Double) : Bool := x.fields.numberEq .double y.fields

end Double

end ClassCatalog
