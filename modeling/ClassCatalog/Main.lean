import ClassCatalog.Command.Program

/-! The program on the files of the machine. -/

namespace ClassCatalog.Command

/-- The fault behind a system error. Error numbers may come with their sign changed. -/
def faultOf : IO.Error → Files.Fault
  | .noFileOrDirectory _ _ _ => .notFound
  | .permissionDenied _ _ _ => .permissionDenied
  | .inappropriateType _ code details =>
    if code = 20 ∨ code = -20 then .notDirectory
    else if code = 21 ∨ code = -21 then .isDirectory
    else .other details
  | .invalidArgument _ code details =>
    if code = 36 ∨ code = -36 then .nameTooLong else .other details
  | error => .other error.toString

/-- What an entry of a directory is, with all below it. A directory that cannot be read counts as
empty. -/
partial def lookAt (entry : IO.FS.DirEntry) : IO (String × Files.Tree Unit) := do
  if ← entry.path.isDir then
    let entries ← try entry.path.readDir catch _ => pure #[]
    return (entry.fileName, .directory (← entries.toList.mapM lookAt))
  else return (entry.fileName, .file ())

def lookAtPath (path : String) : IO (Option (Files.Tree Unit)) := do
  try
    let place ← IO.FS.realPath path
    match (← place.metadata).type with
    | .dir => return some (.directory (← (← place.readDir).toList.mapM lookAt))
    | .file => return some (.file ())
    | _ => return none
  catch _ => return none

instance : MonadFiles IO where
  look := lookAtPath
  read path := do
    try return .ok (← IO.FS.readBinFile path).data.toList
    catch error => return .error (faultOf error)
  write path bytes := do
    try return .ok (← IO.FS.writeBinFile path ⟨bytes.toArray⟩)
    catch error => return .error (faultOf error)

end ClassCatalog.Command

def main (arguments : List String) : IO UInt32 := do
  let exit ← (ClassCatalog.Command.run arguments : IO ClassCatalog.Command.Exit)
  IO.print exit.out
  IO.eprint exit.err
  return exit.code.toUInt32
