/-! Lower-case hexadecimal numerals. -/

namespace ClassCatalog.Text

def hexDigit (n : Nat) : Char :=
  if n < 10 then Char.ofNat ('0'.toNat + n) else Char.ofNat ('a'.toNat + n - 10)

def hexPadded : Nat → Nat → List Char
  | 0, _ => []
  | width + 1, n => hexPadded width (n / 16) ++ [hexDigit (n % 16)]

def hex (width n : Nat) : String := String.ofList (hexPadded width n)

def hexShort (n : Nat) : String :=
  String.ofList (Nat.toDigits 16 n)

end ClassCatalog.Text
