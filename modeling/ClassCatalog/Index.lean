import ClassCatalog.Index.ClassTable
import ClassCatalog.Index.Grouping
import ClassCatalog.Index.Hierarchy

/-! An index: classes by name, and the ways to find them by annotation, superclass and
interface. Every list is in the order of class names. -/

namespace ClassCatalog

/-- One annotation: the class that holds it and its place in the list of that class. -/
structure AnnotationRef where
  owner : String
  slot : Nat
  deriving DecidableEq, Repr

structure Links where
  byAnnotation : Grouping AnnotationRef
  subclasses : Grouping String
  implementors : Grouping String

namespace Links

def annotationPairs (c : ClassDecl String) : List (String × AnnotationRef) :=
  c.annotations.zipIdx.map fun (a, slot) => (a.name, ⟨c.name, slot⟩)

def superclassPairs (c : ClassDecl String) : List (String × String) :=
  c.superName.toList.map (·, c.name)

def interfacePairs (c : ClassDecl String) : List (String × String) :=
  c.interfaceNames.map (·, c.name)

def ofClasses (cs : List (ClassDecl String)) : Links where
  byAnnotation := .ofPairs (cs.flatMap annotationPairs)
  subclasses := .ofPairs (cs.flatMap superclassPairs)
  implementors := .ofPairs (cs.flatMap interfacePairs)

end Links

structure Index where
  table : ClassTable
  links : Links
  agree : links = .ofClasses table.classes

namespace Index

def ofTable (t : ClassTable) : Index := ⟨t, .ofClasses t.classes, rfl⟩

def empty : Index := ofTable .empty

def ofClasses (cs : List (ClassDecl String)) : Except IndexError Index :=
  ofTable <$> ClassTable.empty.insertAll cs

def withClasses (i : Index) (cs : List (ClassDecl String)) : Except IndexError Index :=
  ofTable <$> i.table.insertAll cs

def size (i : Index) : Nat := i.table.size

def isEmpty (i : Index) : Bool := i.size = 0

def classes (i : Index) : List (ClassDecl String) := i.table.classes

def find? (i : Index) (name : String) : Option (ClassDecl String) := i.table.find? name

private def findAll (i : Index) (names : List String) : List (ClassDecl String) :=
  names.filterMap i.find?

def annotationRefs (i : Index) (name : String) : List AnnotationRef :=
  i.links.byAnnotation.group name

def annotationAt? (i : Index) (ref : AnnotationRef) : Option (AnnotationUse String) := do
  (← i.find? ref.owner).annotations[ref.slot]?

def annotationsNamed (i : Index) (name : String) : List (AnnotationUse String) :=
  (i.annotationRefs name).filterMap i.annotationAt?

def annotationNames (i : Index) : List String := i.links.byAnnotation.keys

def directSubclasses (i : Index) (name : String) : List (ClassDecl String) :=
  i.findAll (i.links.subclasses.group name)

def directImplementors (i : Index) (name : String) : List (ClassDecl String) :=
  i.findAll (i.links.implementors.group name)

def hierarchy (i : Index) : Hierarchy String where
  subclasses := i.links.subclasses.steps
  implementors := i.links.implementors.steps
  isInterface? name := (i.find? name).map (·.flags.has .accInterface)

def select (i : Index) (names : Std.HashSet String) : List (ClassDecl String) :=
  i.classes.filter fun c => names.contains c.name

def allSubclasses (i : Index) (name : String) : List (ClassDecl String) :=
  i.select (i.hierarchy.below name)

/-- Classes that implement the interface in any way: through interfaces below it, or below a
class that does. -/
def allImplementors (i : Index) (name : String) : List (ClassDecl String) :=
  i.select (i.hierarchy.implementing name)

def field? (i : Index) (owner name : String) : Option (FieldDecl String) := do
  (← i.find? owner).field? name

def method? (i : Index) (owner : String) (index : Nat) : Option (MethodDecl String) := do
  (← i.find? owner).methods[index]?

def component? (i : Index) (owner name : String) : Option (ComponentDecl String) := do
  (← i.find? owner).component? name

def componentAnnotations (i : Index) (owner name : String) : List (AnnotationUse String) :=
  match i.find? owner with
  | none => []
  | some c => c.componentAnnotations name

end Index

end ClassCatalog
