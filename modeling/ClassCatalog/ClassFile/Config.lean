/-! Which class files are accepted, and whether annotations without runtime visibility are kept. -/

namespace ClassCatalog.ClassFile

structure Config where
  minMajor : Nat
  maxMajor : Nat
  invisible : Bool
  deriving DecidableEq, Repr

namespace Config

def standard : Config := ⟨45, 69, true⟩

def acceptsMajor (c : Config) (major : Nat) : Bool := c.minMajor ≤ major && major ≤ c.maxMajor

end Config

end ClassCatalog.ClassFile
