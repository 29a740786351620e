import ClassCatalog.Ty

/-! Type variables in scope. -/

namespace ClassCatalog.Ty

variable {ν : Type} [DecidableEq ν]

mutual

/-- The type seen where the variables of `scope` are declared: those that were unresolved and are
among them are known. -/
def bindIn (scope : List ν) : Ty ν → Ty ν
  | primitive p => primitive p
  | void => void
  | named n => named n
  | array d c => array d (c.bindIn scope)
  | parameterized n as => parameterized n (listBindIn scope as)
  | inner o n as => inner (o.bindIn scope) n (listBindIn scope as)
  | typeParameter n i bs => typeParameter n i (listBindIn scope bs)
  | typeVariable n => typeVariable n
  | unresolved n => if n ∈ scope then typeVariable n else unresolved n
  | wildcard e => wildcard e
  | bounded e b => bounded e (b.bindIn scope)

def listBindIn (scope : List ν) : List (Ty ν) → List (Ty ν)
  | [] => []
  | t :: ts => t.bindIn scope :: listBindIn scope ts

end

end ClassCatalog.Ty
