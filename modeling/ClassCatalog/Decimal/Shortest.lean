import ClassCatalog.Ieee

/-! The shortest decimal that lies in the rounding interval of a binary number, and of the
shortest ones the nearest. On each decimal grid only the two neighbours of the number can be
nearest, so grids are tried from the coarsest and the first one with a neighbour in the interval
decides. -/

namespace ClassCatalog

/-- Stands for `digits * 10 ^ exponent`. -/
structure Decimal where
  digits : Nat
  exponent : Int
  deriving DecidableEq, Repr

namespace Decimal

/-- A positive number `value / unit` with the interval from `low / unit` to `high / unit` of the
reals that round to it. -/
structure Interval where
  low : Nat
  value : Nat
  high : Nat
  unit : Nat
  closed : Bool

def Interval.ofFields (f : Ieee.Format) (x : Ieee.Fields) : Interval :=
  let (m, q) := x.magnitude f
  let below := if x.fraction = 0 ∧ 1 < x.exponent then 1 else 2
  let scale := Nat.pow 2 (q - 2).toNat
  { low := (4 * m - below) * scale
    value := 4 * m * scale
    high := (4 * m + 2) * scale
    unit := Nat.pow 2 (2 - q).toNat
    closed := m % 2 = 0 }

def Interval.scale (i : Interval) (p : Int) : Interval :=
  let up := Nat.pow 10 (-p).toNat
  { i with
    low := i.low * up
    value := i.value * up
    high := i.high * up
    unit := i.unit * Nat.pow 10 p.toNat }

def Interval.holds (i : Interval) (n : Nat) : Bool :=
  if i.closed then i.low ≤ n * i.unit ∧ n * i.unit ≤ i.high
  else i.low < n * i.unit ∧ n * i.unit < i.high

/-- The neighbour of the value in the interval, the nearer one if both are; a tie goes up. -/
def Interval.neighbour? (i : Interval) : Option Nat :=
  let n := i.value / i.unit
  match i.holds n, i.holds (n + 1) with
  | true, true => some (if 2 * (i.value - n * i.unit) < i.unit then n else n + 1)
  | true, false => some n
  | false, true => some (n + 1)
  | false, false => none

def Interval.exponentFrom (i : Interval) : Nat → Int → Int
  | 0, e => e
  | fuel + 1, e =>
    let s := i.scale e
    if s.unit ≤ s.value then e else i.exponentFrom fuel (e - 1)

/-- The exponent of the first decimal digit. No number of either width reaches `10 ^ 309` or lies
below `10 ^ -324`. -/
def Interval.leadingExponent (i : Interval) : Int := i.exponentFrom 640 309

def Interval.search (i : Interval) : Nat → Int → Decimal
  | 0, p => ⟨(i.scale p).value / (i.scale p).unit, p⟩
  | grids + 1, p =>
    match (i.scale p).neighbour? with
    | some n => if n = 10 then ⟨1, p + 1⟩ else ⟨n, p⟩
    | none => i.search grids (p - 1)

/-- Seventeen digits always suffice. -/
def shortest (f : Ieee.Format) (x : Ieee.Fields) : Decimal :=
  let i := Interval.ofFields f x
  i.search 17 i.leadingExponent

end Decimal

end ClassCatalog
