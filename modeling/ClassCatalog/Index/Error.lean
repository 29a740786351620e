import ClassCatalog.ClassFile.Error

/-! Why a class cannot be added to an index. -/

namespace ClassCatalog

inductive IndexError where
  | decode (error : DecodeError)
  | duplicateClass (name : String)
  deriving DecidableEq, Repr

namespace IndexError

def message : IndexError → String
  | decode error => "malformed class file: " ++ error.message
  | duplicateClass name => "class `" ++ name ++ "` is already indexed"

def category : IndexError → Category
  | decode error => error.category
  | duplicateClass _ => .duplicateClass

end IndexError

end ClassCatalog
