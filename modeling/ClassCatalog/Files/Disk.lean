import ClassCatalog.Files.Search

/-! Disks, and how paths lead to files on them. -/

namespace ClassCatalog.Files

/-- A tree from the root down, and the directory in it where relative paths start. -/
structure Disk where
  root : Tree (List UInt8)
  working : List String

namespace Disk

def start (disk : Disk) (path : String) : Except Fault (List String) :=
  if path.toList.contains '\x00' then .error .nullInName
  else if path = "" then .error .notFound
  else if Path.maxSize < path.utf8ByteSize then .error .nameTooLong
  else .ok (if Path.isAbsolute path then [] else disk.working)

def find (disk : Disk) (path : String) : Except Fault (Tree (List UInt8)) := do
  let place ← disk.root.walk (← disk.start path) (Path.segments path)
  match disk.root.at? place with
  | none => throw .notFound
  | some (.file content) =>
    if Path.endsWithSlash path then throw .notDirectory else return .file content
  | some (.directory entries) => return .directory entries

def read (disk : Disk) (path : String) : Except Fault (List UInt8) := do
  match ← disk.find path with
  | .file content => return content
  | .directory _ => throw .isDirectory

def write (disk : Disk) (path : String) (content : List UInt8) : Except Fault Disk := do
  let start ← disk.start path
  let segments := Path.segments path
  match segments.getLast? with
  | none => throw .isDirectory
  | some name => do
    let place ← disk.root.walk start segments.dropLast
    match disk.root.at? place with
    | none => throw .notFound
    | some (.file _) => throw .notDirectory
    | some (.directory entries) =>
      if name = "." ∨ name = ".." ∨ Path.endsWithSlash path then throw .isDirectory
      if Path.maxNameSize < name.utf8ByteSize then throw .nameTooLong
      match (Tree.directory entries).child? name with
      | some (.directory _) => throw .isDirectory
      | _ => return { disk with root := disk.root.put (place ++ [name]) (.file content) }

/-- A disk with an empty working directory and nothing else. The name of that directory is
hidden, so that a search from above passes over it. -/
def empty : Disk := ⟨.directory [(".work", .directory [])], [".work"]⟩

def addDirectory (disk : Disk) (path : String) : Disk :=
  { disk with root := (disk.root.makeDirectories disk.working (Path.segments path)).1 }

def addFile (disk : Disk) (path : String) (content : List UInt8) : Disk :=
  let segments := Path.segments path
  match segments.getLast? with
  | none => disk
  | some name =>
    let (root, place) := disk.root.makeDirectories disk.working segments.dropLast
    { disk with root := root.put (Path.step place name) (.file content) }

def ofEntries (entries : List (String × Option (List UInt8))) : Disk :=
  entries.foldl (fun disk (path, content) =>
    match content with
    | some content => disk.addFile path content
    | none => disk.addDirectory path) empty

end Disk

instance : MonadFiles (StateM Disk) where
  look path := do return ((← get).find path).toOption.map Tree.shape
  read path := do return (← get).read path
  write path bytes := do
    match (← get).write path bytes with
    | .ok disk => set disk; return .ok ()
    | .error fault => return .error fault

end ClassCatalog.Files
