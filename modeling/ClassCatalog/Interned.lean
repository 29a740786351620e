import Std.Data.HashMap
import ClassCatalog.Archive.Read
import ClassCatalog.Archive.Write
import ClassCatalog.ClassFile.Decode
import ClassCatalog.NameTable

/-! Classes whose names are handles of a name table, reading them into one and writing them from
it. Names that were read are compared as handles from then on. -/

namespace ClassCatalog

def ClassDecl.intern (c : ClassDecl String) : StateM NameTable (ClassDecl Name) :=
  c.mapNames (m := StateM NameTable) NameTable.intern

def ClassDecl.resolve (t : NameTable) (c : ClassDecl Name) : ClassDecl String :=
  Id.run (c.mapNames (m := Id) t.text)

def internAll (cs : List (ClassDecl String)) : StateM NameTable (List (ClassDecl Name)) :=
  cs.mapM ClassDecl.intern

def ClassFile.Draft.intern (d : Draft String) : StateM NameTable (Draft Name) :=
  d.mapNames (m := StateM NameTable) NameTable.intern

/-- Decodes a class file into the table. A file that is refused leaves no name. -/
def ClassFile.decodeInto (config : Config) (bytes : List UInt8) :
    ExceptT DecodeError (StateM NameTable) (ClassDecl Name) := do
  let stated ← ExceptT.mk (pure (draft config bytes))
  let init ← ExceptT.lift (NameTable.intern MethodDecl.constructorName)
  let stated ← ExceptT.lift stated.intern
  return stated.finish init (← get).text

abbrev HandleTable := Std.HashMap Name (ClassDecl Name)

namespace HandleTable

def insertNew (t : NameTable) (table : HandleTable) (c : ClassDecl Name) :
    Except IndexError HandleTable :=
  if table.contains c.name then .error (.duplicateClass (t.text c.name))
  else .ok (table.insert c.name c)

def ofClasses (t : NameTable) (cs : List (ClassDecl Name)) : Except IndexError HandleTable :=
  cs.foldlM (insertNew t) ∅

/-- Adds classes to a table in place. When a handle is taken, the classes that were added, under
the handles `added`, are removed again. -/
def insertFrom (t : NameTable) (added : List Name) :
    List (ClassDecl Name) → ExceptT IndexError (StateM HandleTable) Unit
  | [] => pure ()
  | c :: cs => do
    let table ← getThe HandleTable
    if table.contains c.name then
      set (added.foldl (·.erase ·) table)
      throw (.duplicateClass (t.text c.name))
    else
      set (table.insert c.name c)
      insertFrom t (c.name :: added) cs

def insertAll (t : NameTable) (cs : List (ClassDecl Name)) :
    ExceptT IndexError (StateM HandleTable) Unit :=
  insertFrom t [] cs

def classes (t : NameTable) (table : HandleTable) : List (ClassDecl Name) :=
  (table.toList.map (·.2)).mergeSort fun a b => (compare (t.text a.name) (t.text b.name)).isLE

end HandleTable

def Archive.readInto (bytes : List UInt8) :
    ExceptT ArchiveError (StateM NameTable) (List (ClassDecl Name)) := do
  let cs ← ExceptT.mk (pure (readClasses bytes))
  let cs ← ExceptT.lift (internAll cs)
  let t ← get
  let table ← ExceptT.mk (pure ((HandleTable.ofClasses t cs).mapError .indexing))
  return table.classes t

def Archive.writeFrom (v : Version) (t : NameTable) (cs : List (ClassDecl Name)) : List UInt8 :=
  encodeClasses t.text v cs

end ClassCatalog
