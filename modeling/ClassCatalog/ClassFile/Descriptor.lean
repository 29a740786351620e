import ClassCatalog.ClassFile.Error
import ClassCatalog.Text.Split
import ClassCatalog.Ty

/-! Field and method descriptors, such as `[Ljava/lang/String;` and `(IJ)V`. -/

namespace ClassCatalog.ClassFile

def binaryName (internal : String) : String := Text.replace '/' '.' internal

namespace Descriptor

def baseType : List Char → Option (Ty String × List Char)
  | 'L' :: cs =>
    match cs.takeWhile (· != ';'), cs.dropWhile (· != ';') with
    | name@(_ :: _), ';' :: rest => some (.named (binaryName (String.ofList name)), rest)
    | _, _ => none
  | c :: cs => (Primitive.ofLetter? c).map fun p => (.primitive p, cs)
  | [] => none

/-- A field type has at most 255 array brackets before its base type. -/
def fieldType (cs : List Char) : Option (Ty String × List Char) :=
  let dimensions := (cs.takeWhile (· == '[')).length
  if 255 < dimensions then none
  else do
    let (base, rest) ← baseType (cs.dropWhile (· == '['))
    return (if dimensions = 0 then base else base.arrayOf (UInt8.ofNat dimensions), rest)

def returnType : List Char → Option (Ty String × List Char)
  | 'V' :: cs => some (.void, cs)
  | cs => fieldType cs

/-- Field types up to a closing parenthesis. Each takes a character, so the length of the text
is enough fuel. -/
def parameters : Nat → List Char → Option (List (Ty String) × List Char)
  | _, ')' :: cs => some ([], cs)
  | 0, _ => none
  | fuel + 1, cs => do
    let (ty, rest) ← fieldType cs
    let (tys, rest) ← parameters fuel rest
    return (ty :: tys, rest)

def complete {α : Type} : Option (α × List Char) → Option α
  | some (a, []) => some a
  | _ => none

def method : List Char → Option (List (Ty String) × Ty String)
  | '(' :: cs => do
    let (tys, rest) ← parameters cs.length cs
    let result ← complete (returnType rest)
    return (tys, result)
  | _ => none

def orMalformed {α : Type} (descriptor : String) : Option α → Except DecodeError α
  | some a => .ok a
  | none => .error (.invalidDescriptor descriptor)

def parseField (descriptor : String) : Except DecodeError (Ty String) :=
  orMalformed descriptor (complete (fieldType descriptor.toList))

def parseMethod (descriptor : String) : Except DecodeError (List (Ty String) × Ty String) :=
  orMalformed descriptor (method descriptor.toList)

def parseReturn (descriptor : String) : Except DecodeError (Ty String) :=
  orMalformed descriptor (complete (returnType descriptor.toList))

/-- The name between a first `L` and a last `;`. No other `;` may stand in it. -/
def className : List Char → Option String
  | 'L' :: cs =>
    if cs.getLast? = some ';' ∧ cs.dropLast ≠ [] ∧ ';' ∉ cs.dropLast then
      some (binaryName (String.ofList cs.dropLast))
    else none
  | _ => none

def parseClass (descriptor : String) : Except DecodeError String :=
  orMalformed descriptor (className descriptor.toList)

end Descriptor

end ClassCatalog.ClassFile
