import ClassCatalog.Ty

/-! Type paths: the steps from a type to the part of it that an annotation stands on. -/

namespace ClassCatalog

inductive PathStep where
  | arrayElement
  | nested
  | wildcardBound
  | argument (position : UInt8)
  deriving DecidableEq, Repr

namespace PathStep

def ofCode? (kind argument : UInt8) : Option PathStep :=
  match kind.toNat with
  | 0 => some .arrayElement
  | 1 => some .nested
  | 2 => some .wildcardBound
  | 3 => some (.argument argument)
  | _ => none

def code : PathStep → UInt8 × UInt8
  | arrayElement => (0, 0)
  | nested => (1, 0)
  | wildcardBound => (2, 0)
  | argument position => (3, position)

theorem ofCode?_code (s : PathStep) : ofCode? s.code.1 s.code.2 = some s := by cases s <;> rfl

end PathStep

namespace Ty

variable {ν : Type}

def ownerChain : Ty ν → List (Ty ν)
  | t@(inner owner _ _) => owner.ownerChain ++ [t]
  | t => [t]

/-- The type `depth` levels inside the outermost class. A type without an owner is the innermost
class by itself and takes any number of nesting steps. -/
def level (depth : Nat) : Ty ν → Option (Ty ν)
  | t@(inner ..) => t.ownerChain[depth]?
  | t => some t

def step : PathStep → Ty ν → Option (Ty ν)
  | .arrayElement, array dimensions component =>
    if 1 < dimensions then some (array (dimensions - 1) component) else some component
  | .wildcardBound, bounded _ bound => some bound
  | .argument position, parameterized _ arguments => arguments[position.toNat]?
  | .argument position, inner _ _ arguments => arguments[position.toNat]?
  | _, _ => none

def navigateFrom (depth : Nat) (t : Ty ν) : List PathStep → Option (Ty ν)
  | [] => t.level depth
  | .nested :: path => navigateFrom (depth + 1) t path
  | s :: path => do
    let part ← (← t.level depth).step s
    navigateFrom 0 part path

def navigate (t : Ty ν) (path : List PathStep) : Option (Ty ν) := t.navigateFrom 0 path

end Ty

end ClassCatalog
