/-! The categories under which failures are reported, and the failure of a narrowing. -/

namespace ClassCatalog

inductive Category where
  | malformedInput
  | unsupportedVersion
  | duplicateClass
  | wrongKind
  deriving DecidableEq, Repr

def Category.label : Category → String
  | malformedInput => "malformed input"
  | unsupportedVersion => "unsupported version"
  | duplicateClass => "duplicate class"
  | wrongKind => "wrong kind"

structure WrongKind where
  expected : String
  found : String
  deriving DecidableEq, Repr

namespace WrongKind

def message (e : WrongKind) : String := "expected " ++ e.expected ++ ", found " ++ e.found

def category (_ : WrongKind) : Category := .wrongKind

end WrongKind

end ClassCatalog
