import ClassCatalog.Text.Split

/-! Paths of files. A path keeps its text; two paths that differ only in repeated slashes, or in
inner parts that stay where they are, are equal. -/

namespace ClassCatalog.Files

inductive Part where
  | root
  | here
  | parent
  | name (text : String)
  deriving DecidableEq, Repr

namespace Part

def rank : Part → Nat
  | root => 0
  | here => 1
  | parent => 2
  | name _ => 3

def text : Part → String
  | name text => text
  | root | here | parent => ""

def compare (a b : Part) : Ordering := (Ord.compare a.rank b.rank).then (Ord.compare a.text b.text)

end Part

namespace Path

def segments (path : String) : List String := (path.splitOn "/").filter (· ≠ "")

def isAbsolute (path : String) : Bool := path.toList.head? = some '/'

def endsWithSlash (path : String) : Bool := path.toList.getLast? = some '/'

def maxNameSize : Nat := 255

def maxSize : Nat := 4095

/-- The place that a segment leads to from a place, where places are lists of names from the
root. Nothing is above the root. -/
def step (place : List String) (segment : String) : List String :=
  if segment = "." then place else if segment = ".." then place.dropLast else place ++ [segment]

def partOf (segment : String) : Part :=
  if segment = "." then .here else if segment = ".." then .parent else .name segment

/-- The parts of a path. A part that stays where it is counts only as the first one. -/
def parts (path : String) : List Part :=
  let all := (segments path).map partOf
  if isAbsolute path then .root :: all.filter (· ≠ .here)
  else all.take 1 ++ (all.drop 1).filter (· ≠ .here)

def compareParts : List Part → List Part → Ordering
  | [], [] => .eq
  | [], _ :: _ => .lt
  | _ :: _, [] => .gt
  | a :: as, b :: bs => (a.compare b).then (compareParts as bs)

def compare (a b : String) : Ordering := compareParts (parts a) (parts b)

def join (directory name : String) : String :=
  if endsWithSlash directory then directory ++ name else directory ++ "/" ++ name

def isHidden (name : String) : Bool := name.toList.head? = some '.'

def hasExtension (extension name : String) : Bool :=
  match Text.splitLast '.' name.toList with
  | some (stem, found) => !stem.isEmpty && found = extension.toList
  | none => false

def dropRepeats : List String → List String
  | [] => []
  | a :: rest =>
    match dropRepeats rest with
    | [] => [a]
    | b :: kept => if compare a b = .eq then a :: kept else a :: b :: kept

def sortUnique (paths : List String) : List String :=
  dropRepeats (paths.mergeSort fun a b => (compare a b).isLE)

end Path

end ClassCatalog.Files
