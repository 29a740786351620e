import ClassCatalog.Files.Tree

/-! What commands ask of a file system, and the class files under paths. -/

namespace ClassCatalog

class MonadFiles (m : Type → Type) where
  look : String → m (Option (Files.Tree Unit))
  read : String → m (Except Files.Fault (List UInt8))
  write : String → List UInt8 → m (Except Files.Fault Unit)

namespace Files

mutual

/-- The class files below the directory `path`. Hidden entries are passed over. -/
def classFilesIn (path : String) : List (String × Tree Unit) → List String
  | [] => []
  | (name, t) :: rest => classFilesAt path name t ++ classFilesIn path rest

def classFilesAt (path name : String) : Tree Unit → List String
  | .file _ =>
    if !Path.isHidden name && Path.hasExtension "class" name then [Path.join path name] else []
  | .directory entries =>
    if Path.isHidden name then [] else classFilesIn (Path.join path name) entries

end

/-- The files that an input stands for: a file stands for itself, a directory for the class
files below it. -/
def filesOf (path : String) : Tree Unit → List String
  | .file _ => [path]
  | .directory entries => classFilesIn path entries

end Files

end ClassCatalog
