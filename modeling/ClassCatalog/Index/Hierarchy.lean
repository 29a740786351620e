import ClassCatalog.Index.Reach

/-! Which classes are below a class, and which implement an interface. -/

namespace ClassCatalog

/-- How the names of an index hang together. -/
structure Hierarchy (α : Type) where
  subclasses : Steps α
  implementors : Steps α
  isInterface? : α → Option Bool

namespace Hierarchy

variable {α : Type} [BEq α] [Hashable α] [LawfulBEq α] (h : Hierarchy α)

def below (name : α) : Std.HashSet α := h.subclasses.closure (h.subclasses.next name)

def interfaces (name : α) : Std.HashSet α :=
  (h.implementors.only (h.isInterface? · = some true)).closure [name]

/-- Adds a class and all below it. What is below a class that was found has been found with it. -/
def find (found : Std.HashSet α) (name : α) : Std.HashSet α :=
  if found.contains name then found else found.insert name ∪ h.below name

def implementing (name : α) : Std.HashSet α :=
  let listing := (h.interfaces name).toList.flatMap h.implementors.next
  (listing.filter (h.isInterface? · = some false)).foldl h.find ∅

end Hierarchy

end ClassCatalog
