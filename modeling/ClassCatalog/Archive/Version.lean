import ClassCatalog.Archive.Error

/-! The versions of the archive format. The second added record components; the third added
parameter names, annotation defaults, nesting and the mark of a constructor without arguments. -/

namespace ClassCatalog.Archive

inductive Version where
  | v1 | v2 | v3
  deriving DecidableEq, Repr

namespace Version

def number : Version → Nat
  | v1 => 1
  | v2 => 2
  | v3 => 3

def ofNumber : Nat → Except ArchiveError Version
  | 1 => .ok v1
  | 2 => .ok v2
  | 3 => .ok v3
  | n => .error (.unsupportedVersion n)

def current : Version := v3

def hasComponents (v : Version) : Bool := 2 ≤ v.number

def hasDetails (v : Version) : Bool := 3 ≤ v.number

end Version

def magic : List UInt8 := [0x43, 0x4C, 0x53, 0x50]

end ClassCatalog.Archive
