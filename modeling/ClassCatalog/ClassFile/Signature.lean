import ClassCatalog.ClassFile.Descriptor
import ClassCatalog.Ty.Scope

/-! Generic signatures of classes, methods and fields. Uses of type variables are bound when all
type parameters have been read, so that a bound may name a variable that is declared later in the
list. -/

namespace ClassCatalog.ClassFile

namespace Signature

structure Scan where
  rest : List Char
  offset : Nat

inductive Fault where
  | at (position : Nat) (fault : SignatureFault)
  | tooDeep

abbrev Parser := StateT Scan (Except Fault)

namespace Parser

variable {α : Type}

def fail (fault : SignatureFault) : Parser α := do throw (.at (← get).offset fault)

def peek : Parser (Option Char) := do return (← get).rest.head?

def eat (c : Char) : Parser Bool := do
  let s ← get
  match s.rest with
  | d :: rest =>
    if d = c then
      set (⟨rest, s.offset + c.utf8Size⟩ : Scan)
      return true
    else return false
  | [] => return false

def expect (c : Char) (fault : SignatureFault) : Parser Unit := do
  unless ← eat c do fail fault

def identifier (stops : List Char) : Parser String := do
  let s ← get
  let name := s.rest.takeWhile (!stops.contains ·)
  match s.rest.dropWhile (!stops.contains ·) with
  | [] => fail .unterminatedIdentifier
  | rest =>
    if name.isEmpty then fail .emptyIdentifier
    else
      let text := String.ofList name
      set (⟨rest, s.offset + text.utf8ByteSize⟩ : Scan)
      return text

def whileFuel (again : Parser Bool) (item : Parser α) : Nat → Parser (List α)
  | 0 => fail .trailing
  | fuel + 1 => do
    if ← again then
      let a ← item
      return a :: (← whileFuel again item fuel)
    else return []

/-- Reads items as long as `again` says so. A round that goes on takes a character, so there are
no more rounds than characters, and one that stops. -/
def repeatWhile (again : Parser Bool) (item : Parser α) : Parser (List α) := do
  whileFuel again item ((← get).rest.length + 1)

def upTo (close : Char) (item : Parser α) : Parser (List α) :=
  repeatWhile (do return !(← eat close)) item

def atEnd : Parser Bool := do return (← get).rest.isEmpty

def finish : Parser Unit := do
  unless ← atEnd do fail .trailing

end Parser

open Signature.Parser

def typeVariable : Parser (Ty String) := do
  expect 'T' .expectedTypeVariable
  let name ← identifier [';']
  let _ ← eat ';'
  return .unresolved name

def typeArgument (reference : Parser (Ty String)) : Parser (Ty String) := do
  if ← eat '*' then return .wildcard true
  else if ← eat '+' then return .bounded true (← reference)
  else if ← eat '-' then return .bounded false (← reference)
  else
    match ← peek with
    | some _ => reference
    | none => fail .unterminatedArguments

def typeArguments (reference : Parser (Ty String)) : Parser (List (Ty String)) := do
  if ← eat '<' then
    let arguments ← upTo '>' (typeArgument reference)
    if arguments.isEmpty then fail .emptyArguments else return arguments
  else return []

/-- The type of a class-type segment: the class `name` in `outer`, applied to `arguments`. An
outer type is kept only if it has arguments, or is itself kept in one that has. -/
def segmentType (outer : Option (Ty String)) (name : String) (arguments : List (Ty String)) :
    Ty String :=
  match outer with
  | some owner => if owner.isParameterized then .inner owner name arguments else plain
  | none => plain
where
  plain : Ty String := if arguments.isEmpty then .named name else .parameterized name arguments

/-- Segments after the first identifier; `internal` is the name so far, inner segments joined to
it by `$`. Each further segment takes a character, which bounds the fuel. -/
def segments (reference : Parser (Ty String)) :
    Nat → String → Option (Ty String) → Parser (Ty String)
  | 0, _, _ => fail .missingSemicolon
  | fuel + 1, internal, outer => do
    let arguments ← typeArguments reference
    let current := segmentType outer (binaryName internal) arguments
    if ← eat '.' then
      let simple ← identifier ['<', '.', ';']
      segments reference fuel (internal ++ "$" ++ simple) (some current)
    else return current

def classType (reference : Parser (Ty String)) : Parser (Ty String) := do
  expect 'L' .expectedClassType
  let first ← identifier ['<', '.', ';']
  let ty ← segments reference ((← get).rest.length + 1) first none
  expect ';' .missingSemicolon
  return ty

def dimensions : Nat → Parser Nat
  | 0 => do
    if ← eat '[' then fail .tooManyDimensions
    return 0
  | fuel + 1 => do
    if ← eat '[' then return (← dimensions fuel) + 1
    return 0

def javaType (reference : Parser (Ty String)) : Parser (Ty String) := do
  match (← peek).bind Primitive.ofLetter? with
  | some p => do
    let _ ← eat p.letter
    return .primitive p
  | none => reference

def referenceType : Nat → Parser (Ty String)
  | 0 => throw .tooDeep
  | levels + 1 => do
    match ← peek with
    | some 'L' => classType (referenceType levels)
    | some 'T' => typeVariable
    | some '[' => do
      let count ← dimensions 255
      return (← javaType (referenceType levels)).arrayOf (UInt8.ofNat count)
    | _ => fail .expectedReferenceType

def typeParameter (reference : Parser (Ty String)) : Parser (Ty String) := do
  let name ← identifier [':', '>', ';']
  expect ':' .missingBoundColon
  let hasClassBound := (← peek).any fun c => c = 'L' ∨ c = 'T' ∨ c = '['
  let classBound ← if hasClassBound then List.singleton <$> reference else pure []
  let others ← repeatWhile (eat ':') reference
  return .typeParameter name (!hasClassBound) (classBound ++ others)

def typeParameters (reference : Parser (Ty String)) : Parser (List (Ty String)) := do
  if ← eat '<' then
    let parameters ← upTo '>' (typeParameter reference)
    if parameters.isEmpty then fail .emptyTypeParameters else return parameters
  else return []

def reference : Parser (Ty String) := referenceType Nested.signature.limit

def run {α : Type} (p : Parser α) (signature : String) : Except DecodeError α :=
  match p.run ⟨signature.toList, 0⟩ with
  | .ok (a, _) => .ok a
  | .error (.at position fault) => .error (.invalidSignature signature position fault)
  | .error .tooDeep => .error (.nestingTooDeep .signature)

end Signature

structure ClassSignature (ν : Type) where
  typeParameters : List (Ty ν)
  superclass : Ty ν
  interfaces : List (Ty ν)

structure MethodSignature (ν : Type) where
  typeParameters : List (Ty ν)
  parameters : List (Ty ν)
  returnType : Ty ν
  exceptions : List (Ty ν)

namespace ClassSignature

variable {ν : Type}

def scope (s : ClassSignature ν) : List ν := Ty.declaredNames s.typeParameters

def bound [DecidableEq ν] (s : ClassSignature ν) : ClassSignature ν where
  typeParameters := Ty.listBindIn s.scope s.typeParameters
  superclass := s.superclass.bindIn s.scope
  interfaces := Ty.listBindIn s.scope s.interfaces

end ClassSignature

namespace MethodSignature

variable {ν : Type}

def scope (outer : List ν) (s : MethodSignature ν) : List ν :=
  Ty.declaredNames s.typeParameters ++ outer

def boundIn [DecidableEq ν] (outer : List ν) (s : MethodSignature ν) : MethodSignature ν where
  typeParameters := Ty.listBindIn (s.scope outer) s.typeParameters
  parameters := Ty.listBindIn (s.scope outer) s.parameters
  returnType := s.returnType.bindIn (s.scope outer)
  exceptions := Ty.listBindIn (s.scope outer) s.exceptions

end MethodSignature

namespace Signature

open Signature.Parser

def classBody : Parser (ClassSignature String) := do
  let typeParameters ← typeParameters reference
  let superclass ← classType reference
  let interfaces ← repeatWhile (do return !(← atEnd)) (classType reference)
  return ⟨typeParameters, superclass, interfaces⟩

def methodBody : Parser (MethodSignature String) := do
  let typeParameters ← typeParameters reference
  expect '(' .missingParameters
  let parameters ← upTo ')' (javaType reference)
  let returnType ← if ← eat 'V' then pure .void else javaType reference
  let exceptions ← repeatWhile (eat '^') do
    if (← peek) = some 'T' then typeVariable else classType reference
  finish
  return ⟨typeParameters, parameters, returnType, exceptions⟩

def fieldBody : Parser (Ty String) := do
  let ty ← reference
  finish
  return ty

def parseClass (signature : String) : Except DecodeError (ClassSignature String) := do
  return (← run classBody signature).bound

def parseMethod (classScope : List String) (signature : String) :
    Except DecodeError (MethodSignature String) := do
  return (← run methodBody signature).boundIn classScope

def parseField (classScope : List String) (signature : String) :
    Except DecodeError (Ty String) := do
  return (← run fieldBody signature).bindIn classScope

end Signature

end ClassCatalog.ClassFile
