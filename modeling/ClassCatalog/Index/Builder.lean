import ClassCatalog.ClassFile.Decode
import ClassCatalog.Index

/-! Collecting classes for an index. A step that fails leaves the collection as it was. -/

namespace ClassCatalog

structure ClassSource where
  origin : String
  bytes : List UInt8

structure BatchFailure where
  origin : String
  error : IndexError
  deriving DecidableEq, Repr

/-- What became of the sources of a batch: the names of the classes added and the failures, each
in the order of the sources. -/
structure BatchReport where
  indexed : List String
  failures : List BatchFailure

def BatchReport.isClean (r : BatchReport) : Bool := r.failures.isEmpty

structure Builder where
  config : ClassFile.Config
  /-- How many decoders may work at a time; no result depends on it. -/
  threads : Nat
  table : ClassTable

namespace Builder

def start (config : ClassFile.Config) (threads : Nat) : Builder := ⟨config, threads, .empty⟩

def size (b : Builder) : Nat := b.table.size

def isEmpty (b : Builder) : Bool := b.size = 0

def contains (b : Builder) (name : String) : Bool := b.table.contains name

def add (b : Builder) (c : ClassDecl String) : Except IndexError Builder := do
  return { b with table := ← b.table.insert c }

def addAll (b : Builder) (cs : List (ClassDecl String)) : Except IndexError Builder := do
  return { b with table := ← b.table.insertAll cs }

def addDecoded (b : Builder) (decoded : Except DecodeError (ClassDecl String)) :
    Except IndexError (String × Builder) := do
  let c ← decoded.mapError .decode
  return (c.name, ← b.add c)

def indexClass (b : Builder) (bytes : List UInt8) : Except IndexError (String × Builder) :=
  b.addDecoded (ClassFile.decode b.config bytes)

def takeDecoded : BatchReport × Builder → ClassSource × Except DecodeError (ClassDecl String) →
    BatchReport × Builder
  | (report, b), (source, decoded) =>
    match b.addDecoded decoded with
    | .ok (name, b) => ({ report with indexed := report.indexed ++ [name] }, b)
    | .error error =>
      ({ report with failures := report.failures ++ [⟨source.origin, error⟩] }, b)

def decodeAll (b : Builder) (sources : List ClassSource) :
    List (Except DecodeError (ClassDecl String)) :=
  sources.map fun source => ClassFile.decode b.config source.bytes

/-- Decodes all sources first and then adds what can be added, in the order of the sources, and
reports the rest. -/
def indexBatch (b : Builder) (sources : List ClassSource) : BatchReport × Builder :=
  (sources.zip (b.decodeAll sources)).foldl takeDecoded (⟨[], []⟩, b)

def complete (b : Builder) : Index := .ofTable b.table

end Builder

end ClassCatalog
