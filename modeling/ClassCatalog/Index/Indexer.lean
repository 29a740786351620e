import ClassCatalog.Index.Builder
import ClassCatalog.Interned

/-! Collecting classes under handles. The calls change the state, and the name table may grow
also by a call that fails. -/

namespace ClassCatalog

structure Indexer where
  names : NameTable
  config : ClassFile.Config
  table : HandleTable

structure HandleReport where
  indexed : List Name
  failures : List BatchFailure

namespace Indexer

def start (names : NameTable) (config : ClassFile.Config) : Indexer := ⟨names, config, ∅⟩

def classTexts (s : Indexer) : List (ClassDecl String) :=
  (s.table.classes s.names).map (·.resolve s.names)

def addClass (c : ClassDecl Name) : ExceptT IndexError (StateM Indexer) Name := do
  let s ← getThe Indexer
  let table ← ExceptT.mk (pure (HandleTable.insertNew s.names s.table c))
  set { s with table := table }
  return c.name

def addClasses (cs : List (ClassDecl Name)) : ExceptT IndexError (StateM Indexer) Unit := do
  let s ← getThe Indexer
  let (outcome, table) := (HandleTable.insertAll s.names cs).run.run s.table
  set { s with table := table }
  ExceptT.mk (pure outcome)

def decode (bytes : List UInt8) : StateM Indexer (Except DecodeError (ClassDecl Name)) := do
  let s ← get
  let (decoded, names) := (ClassFile.decodeInto s.config bytes).run.run s.names
  set { s with names := names }
  return decoded

def addDecoded (decoded : Except DecodeError (ClassDecl Name)) :
    ExceptT IndexError (StateM Indexer) Name := do
  addClass (← ExceptT.mk (pure (decoded.mapError .decode)))

def indexClass (bytes : List UInt8) : ExceptT IndexError (StateM Indexer) Name := do
  addDecoded (← ExceptT.lift (decode bytes))

def takeDecoded (report : HandleReport)
    (pair : ClassSource × Except DecodeError (ClassDecl Name)) : StateM Indexer HandleReport := do
  match ← (addDecoded pair.2).run with
  | .ok n => return { report with indexed := report.indexed ++ [n] }
  | .error error =>
    return { report with failures := report.failures ++ [⟨pair.1.origin, error⟩] }

def addBatch (sources : List ClassSource) (decoded : List (Except DecodeError (ClassDecl Name))) :
    StateM Indexer HandleReport :=
  (sources.zip decoded).foldlM takeDecoded ⟨[], []⟩

def indexBatch (sources : List ClassSource) : StateM Indexer HandleReport := do
  addBatch sources (← sources.mapM fun source => decode source.bytes)

end Indexer

end ClassCatalog
