import ClassCatalog.Archive.Read
import ClassCatalog.Archive.Write
import ClassCatalog.Command.Arguments
import ClassCatalog.Files.Search
import ClassCatalog.Index.Builder

/-! What the commands do with files. -/

namespace ClassCatalog.Command

variable {m : Type → Type} [Monad m] [MonadFiles m]

abbrev Action (m : Type → Type) := ExceptT Failure m

def readFile (path : String) : Action m (List UInt8) := do
  let result ← ExceptT.lift (MonadFiles.read path)
  ExceptT.mk (pure (result.mapError (.read path)))

def writeFile (path : String) (bytes : List UInt8) : Action m Unit := do
  let result ← ExceptT.lift (MonadFiles.write path bytes)
  ExceptT.mk (pure (result.mapError (.write path)))

def filesOfInput (path : String) : Action m (List String) := do
  match ← ExceptT.lift (MonadFiles.look path) with
  | some tree => return Files.filesOf path tree
  | none => throw (.missingInput path)

def discover (inputs : List String) : Action m (List String) := do
  let found ← inputs.mapM filesOfInput
  return Files.Path.sortUnique found.flatten

def readSource (path : String) : Action m ClassSource := do return ⟨path, ← readFile path⟩

structure IndexOutcome where
  files : Nat
  classes : Nat
  failures : List BatchFailure
  version : Archive.Version
  bytesWritten : Nat

/-- Decodes the class files under the inputs and writes their index. Files that cannot be
indexed are reported, and the index has the others. -/
def index (o : IndexOptions) : Action m IndexOutcome := do
  let files ← discover o.inputs
  if files.isEmpty then throw .noClassFiles
  let sources ← files.mapM readSource
  let (report, builder) := (Builder.start o.config o.threads).indexBatch sources
  let bytes := Archive.write o.version builder.complete
  writeFile o.output bytes
  return ⟨files.length, builder.size, report.failures, o.version, bytes.length⟩

def load (path : String) : Action m Index := do
  let bytes ← readFile path
  ExceptT.mk (pure ((Archive.read bytes).mapError (.archive path)))

def inspect (o : InspectOptions) : Action m (ClassDecl String) := do
  let bytes ← readFile o.path
  ExceptT.mk (pure ((ClassFile.decode o.config bytes).mapError (.decode o.path)))

def indexWith (arguments : List String) : Action m (IndexOptions × IndexOutcome) := do
  let o ← ExceptT.mk (pure ((IndexOptions.parse arguments).mapError .usage))
  return (o, ← index o)

def inspectWith (arguments : List String) : Action m (ClassDecl String) := do
  inspect (← ExceptT.mk (pure ((InspectOptions.parse arguments).mapError .usage)))

end ClassCatalog.Command
