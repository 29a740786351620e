import ClassCatalog.Archive.Scanner
import ClassCatalog.Ty

/-! The tables of an archive, and types read from them. Every reference to a type stands for its
whole tree, so reading is metered: it may build only so many nodes. -/

namespace ClassCatalog.Archive

structure TypeEntry where
  ty : Ty String
  nodes : Nat
  depth : Nat

structure ReadTables where
  names : Array String
  types : Array TypeEntry

/-- Reading that pays for the type nodes it builds. The state is how many more it may build. -/
abbrev Metered := StateT Nat Scanner

def nodeBudget (length : Nat) : Nat := 256 * length + 0x100000

def maxTypeDepth : Nat := 256

/-- Reads a record of its own from `body`, whose offsets count from its start. -/
def within {α : Type} (body : List UInt8) (p : Metered α) : Metered α := fun budget cursor =>
  match (p.run budget).run (.ofBytes body) with
  | .ok (result, _) => .ok (result, cursor)
  | .error e => .error e

def counted {α : Type} (item : Metered α) : Metered (List α) := do times (← Scanner.count) item

namespace ReadTables

def nameAt (tables : ReadTables) (slot : Nat) : Except ArchiveError String :=
  match tables.names[slot]? with
  | some text => .ok text
  | none => .error (.badReference "string" slot)

def name (tables : ReadTables) : Scanner String := do tables.nameAt (← Scanner.varint)

def name? (tables : ReadTables) : Scanner (Option String) := do
  (← Scanner.optional).mapM (tables.nameAt ·)

def entryAt (tables : ReadTables) (slot : Nat) : Except ArchiveError TypeEntry :=
  match tables.types[slot]? with
  | some entry => .ok entry
  | none => .error (.badReference "type" slot)

def typeAt (tables : ReadTables) (slot : Nat) : Metered (Ty String) := do
  let entry ← tables.entryAt slot
  let left ← get
  if left < entry.nodes then throw (.typeTooLarge slot)
  set (left - entry.nodes)
  return entry.ty

def type (tables : ReadTables) : Metered (Ty String) := do tables.typeAt (← Scanner.varint)

def type? (tables : ReadTables) : Metered (Option (Ty String)) := do
  (← Scanner.optional).mapM (tables.typeAt ·)

def typeList (tables : ReadTables) : Metered (List (Ty String)) := counted tables.type

def childAt (tables : ReadTables) (self slot : Nat) : Metered TypeEntry := do
  let entry ← tables.entryAt slot
  if maxTypeDepth < entry.depth + 1 then throw (.typeTooDeep self)
  let ty ← tables.typeAt slot
  return { entry with ty := ty }

def children (tables : ReadTables) (self : Nat) : Metered (List TypeEntry) :=
  counted do tables.childAt self (← Scanner.varint)

def child? (tables : ReadTables) (self : Nat) : Metered (Option TypeEntry) := do
  (← Scanner.optional).mapM (tables.childAt self ·)

end ReadTables

namespace TypeEntry

def leaf (ty : Ty String) : TypeEntry := ⟨ty, 1, 1⟩

def branch (ty : Ty String) (parts : List TypeEntry) : TypeEntry where
  ty := ty
  nodes := parts.foldl (fun nodes part => nodes + part.nodes) 1
  depth := parts.foldl (fun depth part => max depth (part.depth + 1)) 1

def parameterized (name : String) (owner : Option TypeEntry) (arguments : List TypeEntry) :
    TypeEntry :=
  let types := arguments.map (·.ty)
  match owner with
  | some owner => branch (.inner owner.ty name types) (owner :: arguments)
  | none => branch (.parameterized name types) arguments

def wildcard (isExtends : Bool) : Option TypeEntry → TypeEntry
  | some bound => branch (.bounded isExtends bound.ty) [bound]
  | none => leaf (.wildcard isExtends)

def read (tables : ReadTables) : Metered TypeEntry := do
  let self := tables.types.size
  let tag := (← Scanner.byte).toNat
  match TyKind.ofCode? tag with
  | none => throw (.invalidTag "type" tag)
  | some .primitive => do
    let code := (← Scanner.byte).toNat
    match Primitive.ofCode? code with
    | some p => return leaf (.primitive p)
    | none => throw (.invalidTag "primitive type" code)
  | some .void => return leaf .void
  | some .named => return leaf (.named (← tables.name))
  | some .typeVariable => return leaf (.typeVariable (← tables.name))
  | some .unresolved => return leaf (.unresolved (← tables.name))
  | some .array => do
    let component ← tables.childAt self (← Scanner.varint)
    let dimensions ← Scanner.byte
    return branch (.array dimensions component.ty) [component]
  | some .parameterized => do
    let name ← tables.name
    let owner ← tables.child? self
    return parameterized name owner (← tables.children self)
  | some .typeParameter => do
    let name ← tables.name
    let implicitObject ← Scanner.bool
    let bounds ← tables.children self
    return branch (.typeParameter name implicitObject (bounds.map (·.ty))) bounds
  | some .wildcard => do
    let isExtends ← Scanner.bool
    return wildcard isExtends (← tables.child? self)

end TypeEntry

def ReadTables.readTypes : Nat → ReadTables → Metered ReadTables
  | 0, tables => pure tables
  | n + 1, tables => do
    let entry ← TypeEntry.read tables
    readTypes n { tables with types := tables.types.push entry }

def ReadTables.read : Metered ReadTables := do
  let names ← Scanner.counted Scanner.text
  readTypes (← Scanner.count) ⟨names.toArray, #[]⟩

end ClassCatalog.Archive
