import ClassCatalog.Files.Path

/-! Trees of files and directories, and the places in them. -/

namespace ClassCatalog.Files

inductive Fault where
  | notFound
  | notDirectory
  | isDirectory
  | permissionDenied
  | nameTooLong
  | nullInName
  | other (message : String)
  deriving DecidableEq, Repr

def Fault.message : Fault → String
  | notFound => "No such file or directory (os error 2)"
  | notDirectory => "Not a directory (os error 20)"
  | isDirectory => "Is a directory (os error 21)"
  | permissionDenied => "Permission denied (os error 13)"
  | nameTooLong => "File name too long (os error 36)"
  | nullInName => "file name contained an unexpected NUL byte"
  | other message => message

/-- Files hold `β`; names of a directory are different. -/
inductive Tree (β : Type) where
  | file (content : β)
  | directory (entries : List (String × Tree β))

namespace Tree

variable {β : Type}

def child? (name : String) : Tree β → Option (Tree β)
  | file _ => none
  | directory entries => (entries.find? (·.1 = name)).map (·.2)

def at? : List String → Tree β → Option (Tree β)
  | [], t => some t
  | name :: names, t => do at? names (← t.child? name)

def setChild (t : Tree β) (name : String) (node : Tree β) : Tree β :=
  match t with
  | file content => file content
  | directory entries =>
    if entries.any (·.1 = name) then
      directory (entries.map fun e => if e.1 = name then (name, node) else e)
    else directory (entries ++ [(name, node)])

def put (t : Tree β) (names : List String) (node : Tree β) : Tree β :=
  match names with
  | [] => node
  | name :: names =>
    t.setChild name (((t.child? name).getD (directory [])).put names node)

def putDirectory (names : List String) (t : Tree β) : Tree β :=
  if (t.at? names).isSome then t else t.put names (directory [])

/-- Makes the directories that segments lead through from a place, where they are missing. The
second component is the last place. -/
def makeDirectories : List String → List String → Tree β → Tree β × List String
  | place, [], t => (t, place)
  | place, segment :: rest, t =>
    let next := Path.step place segment
    makeDirectories next rest (t.putDirectory next)

def walk (t : Tree β) : List String → List String → Except Fault (List String)
  | place, [] => .ok place
  | place, segment :: rest =>
    match t.at? place with
    | none => .error .notFound
    | some (file _) => .error .notDirectory
    | some (directory entries) =>
      if Path.maxNameSize < segment.utf8ByteSize then .error .nameTooLong
      else if segment = "." ∨ segment = ".." ∨ entries.any (·.1 = segment) then
        t.walk (Path.step place segment) rest
      else .error .notFound

mutual

def shape : Tree β → Tree Unit
  | file _ => file ()
  | directory entries => directory (entriesShape entries)

def entriesShape : List (String × Tree β) → List (String × Tree Unit)
  | [] => []
  | (name, t) :: rest => (name, t.shape) :: entriesShape rest

end

end Tree

end ClassCatalog.Files
