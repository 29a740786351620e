import ClassCatalog.Decimal.Shortest

/-! Decimal numbers as text. -/

namespace ClassCatalog.Decimal

/-- Which numbers are written without an exponent: those whose first digit has an exponent from
`least` up to, but not including, `limit`. -/
structure Style where
  least : Int
  limit : Int

def positional (ds : List Char) (e : Int) : String :=
  if e < 0 then
    "0." ++ String.ofList (List.replicate (-e - 1).toNat '0' ++ ds)
  else
    let whole := e.toNat + 1
    let front := ds.take whole ++ List.replicate (whole - ds.length) '0'
    let back := ds.drop whole
    String.ofList front ++ "." ++ (if back.isEmpty then "0" else String.ofList back)

def scientific (ds : List Char) (e : Int) : String :=
  let back := ds.drop 1
  String.ofList (ds.take 1) ++ (if back.isEmpty then "" else "." ++ String.ofList back)
    ++ "e" ++ toString e

def render (style : Style) (d : Decimal) : String :=
  let ds := Nat.toDigits 10 d.digits
  let e := d.exponent + (ds.length : Int) - 1
  if style.least ≤ e ∧ e < style.limit then positional ds e else scientific ds e

def renderNumber (style : Style) (f : Ieee.Format) (x : Ieee.Fields) : String :=
  if x.isNaN f then "NaN"
  else
    (if x.negative then "-" else "")
      ++ (if x.exponent = f.maxExponent then "inf"
          else if x.isZero then "0.0"
          else (shortest f x).render style)

end ClassCatalog.Decimal
