import ClassCatalog.Index.Hierarchy
import ClassCatalog.Interned

/-! An index whose names are handles of a name table. Handles have no order of their own, so the
classes are put in the order of their texts once, and every list is filled by one pass over them
in this order. -/

namespace ClassCatalog

/-- Values under handles, each group in the order in which its values came. -/
abbrev HandleGroups (β : Type) := Std.HashMap Name (List β)

namespace HandleGroups

variable {β : Type}

def push (g : HandleGroups β) (key : Name) (value : β) : HandleGroups β :=
  g.alter key fun group => some (group.getD [] ++ [value])

def group (g : HandleGroups β) (key : Name) : List β := (g.get? key).getD []

def steps (g : HandleGroups Name) : Steps Name where
  next := g.group
  finite := by
    refine ⟨g.toList.flatMap (·.2), fun key value hvalue => ?_⟩
    rw [group] at hvalue
    cases hget : g.get? key with
    | none =>
      rw [hget] at hvalue
      exact absurd hvalue List.not_mem_nil
    | some values =>
      rw [hget] at hvalue
      refine List.mem_flatMap.2 ⟨(key, values), ?_, hvalue⟩
      exact Std.HashMap.mem_toList_iff_getElem?_eq_some.2 hget

end HandleGroups

/-- A place from `low` on and before `high` at which `side` finds what is looked for; at the
others it tells whether the place is too far left or right. -/
def binarySearch (side : Nat → Ordering) (low high : Nat) : Option Nat :=
  if low < high then
    let middle := low + (high - low) / 2
    match side middle with
    | .eq => some middle
    | .lt => binarySearch side (middle + 1) high
    | .gt => binarySearch side low middle
  else none
termination_by high - low

structure HandleRef where
  owner : Name
  slot : Nat
  deriving DecidableEq, Repr

structure HandleLinks where
  byAnnotation : HandleGroups HandleRef
  subclasses : HandleGroups Name
  implementors : HandleGroups Name

namespace HandleLinks

def empty : HandleLinks := ⟨∅, ∅, ∅⟩

def note (links : HandleLinks) (c : ClassDecl Name) : HandleLinks where
  byAnnotation := c.annotations.zipIdx.foldl (fun g (a, slot) => g.push a.name ⟨c.name, slot⟩)
    links.byAnnotation
  subclasses :=
    match c.superName with
    | some superName => links.subclasses.push superName c.name
    | none => links.subclasses
  implementors := c.interfaceNames.foldl (fun g interface => g.push interface c.name)
    links.implementors

end HandleLinks

structure HandleIndex where
  names : NameTable
  table : HandleTable
  order : Array Name
  links : HandleLinks

namespace HandleIndex

def inTextOrder (t : NameTable) (ns : List Name) : List Name :=
  ns.mergeSort fun m n => (compare (t.text m) (t.text n)).isLE

def build (t : NameTable) (table : HandleTable) : HandleIndex :=
  let order := inTextOrder t table.keys
  let links := order.foldl (fun links n => (table.get? n).elim links links.note) .empty
  ⟨t, table, order.toArray, links⟩

def extend (t : NameTable) (table : HandleTable) (cs : List (ClassDecl Name)) :
    Except IndexError HandleIndex :=
  let (outcome, table) := (HandleTable.insertAll t cs).run.run table
  outcome.map fun _ => build t table

def ofClasses (t : NameTable) (cs : List (ClassDecl Name)) : Except IndexError HandleIndex :=
  extend t ∅ cs

def withClasses (i : HandleIndex) (cs : List (ClassDecl Name)) : Except IndexError HandleIndex :=
  extend i.names i.table cs

def findAll (i : HandleIndex) (ns : List Name) : List (ClassDecl Name) :=
  ns.filterMap i.table.get?

def classes (i : HandleIndex) : List (ClassDecl Name) := i.findAll i.order.toList

def classByName (i : HandleIndex) (n : Name) : Option (ClassDecl Name) := i.table.get? n

def side (i : HandleIndex) (text : String) (place : Nat) : Ordering :=
  (i.order[place]?).elim .gt fun n => compare (i.names.text n) text

/-- Looks a text up among the classes. The name table is not asked for its handle. -/
def classNamed (i : HandleIndex) (text : String) : Option (ClassDecl Name) := do
  let place ← binarySearch (i.side text) 0 i.order.size
  i.table.get? (← i.order[place]?)

def annotationRefs (i : HandleIndex) (n : Name) : List HandleRef := i.links.byAnnotation.group n

def annotationAt? (i : HandleIndex) (ref : HandleRef) : Option (AnnotationUse Name) := do
  (← i.table.get? ref.owner).annotations[ref.slot]?

def annotationsNamed (i : HandleIndex) (n : Name) : List (AnnotationUse Name) :=
  (i.annotationRefs n).filterMap i.annotationAt?

def annotationNames (i : HandleIndex) : List Name :=
  inTextOrder i.names i.links.byAnnotation.keys

def directSubclasses (i : HandleIndex) (n : Name) : List (ClassDecl Name) :=
  i.findAll (i.links.subclasses.group n)

def directImplementors (i : HandleIndex) (n : Name) : List (ClassDecl Name) :=
  i.findAll (i.links.implementors.group n)

def hierarchy (i : HandleIndex) : Hierarchy Name where
  subclasses := i.links.subclasses.steps
  implementors := i.links.implementors.steps
  isInterface? n := (i.table.get? n).map (·.flags.has .accInterface)

def select (i : HandleIndex) (ns : Std.HashSet Name) : List (ClassDecl Name) :=
  i.findAll (inTextOrder i.names ns.toList)

def allSubclasses (i : HandleIndex) (n : Name) : List (ClassDecl Name) :=
  i.select (i.hierarchy.below n)

def allImplementors (i : HandleIndex) (n : Name) : List (ClassDecl Name) :=
  i.select (i.hierarchy.implementing n)

end HandleIndex

end ClassCatalog
