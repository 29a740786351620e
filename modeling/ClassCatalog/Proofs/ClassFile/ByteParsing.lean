import ClassCatalog.ClassFile.Signature
import ClassCatalog.Proofs.BytePositions
import ClassCatalog.Proofs.Loop

/-! The parsers of signatures and descriptors in the form that walks over the bytes of a text. A
position is a number of bytes, a part of the text is cut out between two positions, and only its
own test ends a loop. -/

namespace ClassCatalog.ClassFile

inductive Stop where
  | fault (e : DecodeError)
  | outOfRange
  /-- A position inside of a character. -/
  | offBoundary
  | notClosed

/-- A parser that moves a position, and need not come to an end. -/
abbrev ByteParser := StateT Nat (ExceptT Stop Part)

namespace ByteParser

variable {α β : Type}

def refuse (error : Nat → DecodeError) : ByteParser α := do throw (.fault (error (← get)))

def next : Except Stop ((α ⊕ β) × Nat) → Except Stop (α × Nat) ⊕ (β × Nat)
  | .ok (.inl a, pos) => .inl (.ok (a, pos))
  | .ok (.inr b, pos) => .inr (b, pos)
  | .error e => .inl (.error e)

def repeatUntil (round : β → ByteParser (α ⊕ β)) (b : β) : ByteParser α := fun pos =>
  ExceptT.mk (loop (fun s => next <$> ((round s.1).run s.2).run) (b, pos))

def collect (again : ByteParser Bool) (item : ByteParser α) : List α → ByteParser (List α) :=
  repeatUntil fun items => do
    if ← again then return .inr (items ++ [← item])
    else return .inl items

def whileDo (again : ByteParser Bool) (item : ByteParser α) : ByteParser (List α) :=
  collect again item []

variable (text : String)

def peek : ByteParser (Option UInt8) := do return (utf8 text)[← get]?

def skip : ByteParser Unit := modify (· + 1)

def eat (c : Char) : ByteParser Bool := do
  if (← peek text) = some (ascii c) then
    skip
    return true
  else return false

def atEnd : ByteParser Bool := do return (utf8 text).length ≤ (← get)

def restBytes : ByteParser (List UInt8) := do
  let pos ← get
  if pos ≤ (utf8 text).length then return (utf8 text).drop pos else throw .outOfRange

def slice (start stop : Nat) : ByteParser String :=
  if IsBoundary text start ∧ IsBoundary text stop then
    match String.fromUTF8? ⟨(((utf8 text).take stop).drop start).toArray⟩ with
    | some part => pure part
    | none => throw .outOfRange
  else throw .offBoundary

def bracketsFrom (tooMany : Nat → DecodeError) : Nat → ByteParser Nat :=
  repeatUntil fun count => do
    if ← eat text '[' then
      if count < 255 then return .inr (count + 1) else refuse tooMany
    else return .inl count

def brackets (tooMany : Nat → DecodeError) : ByteParser Nat := bracketsFrom text tooMany 0

end ByteParser

namespace Signature.Bytewise

open ByteParser

variable {α : Type} (text : String) (scope : List String) (reference : ByteParser (Ty String))

def fail (fault : SignatureFault) : ByteParser α := refuse (.invalidSignature text · fault)

def expect (c : Char) (fault : SignatureFault) : ByteParser Unit := do
  unless ← eat text c do fail text fault

def finish : ByteParser Unit := do
  unless ← atEnd text do fail text .trailing

def upToStop (start : Nat) : Option Nat → ByteParser String
  | none => fail text .unterminatedIdentifier
  | some 0 => fail text .emptyIdentifier
  | some length => do
    set (start + length)
    slice text start (start + length)

def identifier (stops : List Char) : ByteParser String := do
  let start ← get
  upToStop text start ((← restBytes text).findIdx? (stopByte stops))

def typeVariable : ByteParser (Ty String) := do
  expect text 'T' .expectedTypeVariable
  let name ← identifier text [';']
  skip
  return if name ∈ scope then .typeVariable name else .unresolved name

def typeArgument : ByteParser (Ty String) := do
  match ← peek text with
  | some b =>
    if b = ascii '*' then
      skip
      return .wildcard true
    else if b = ascii '+' ∨ b = ascii '-' then
      skip
      return .bounded (b = ascii '+') (← reference)
    else reference
  | none => fail text .unterminatedArguments

def bracketed (item : ByteParser α) (empty : SignatureFault) : ByteParser (List α) := do
  if ← eat text '<' then
    let items ← whileDo (do return !(← eat text '>')) item
    if items.isEmpty then fail text empty else return items
  else return []

def typeArguments : ByteParser (List (Ty String)) :=
  bracketed text (typeArgument text reference) .emptyArguments

def segments : String × Option (Ty String) → ByteParser (Ty String) :=
  repeatUntil fun s => do
    let arguments ← typeArguments text reference
    let current := segmentType s.2 (binaryName s.1) arguments
    if ← eat text '.' then
      let simple ← identifier text ['<', '.', ';']
      return .inr (s.1 ++ "$" ++ simple, some current)
    else return .inl current

def classType : ByteParser (Ty String) := do
  expect text 'L' .expectedClassType
  let first ← identifier text ['<', '.', ';']
  let ty ← segments text reference (first, none)
  expect text ';' .missingSemicolon
  return ty

def javaType : ByteParser (Ty String) := do
  match (← peek text).bind fun b => Primitive.ofLetter? (Char.ofNat b.toNat) with
  | some p =>
    skip
    return .primitive p
  | none => reference

def referenceType : Nat → ByteParser (Ty String)
  | 0 => refuse fun _ => .nestingTooDeep .signature
  | levels + 1 => do
    let next ← peek text
    if next = some (ascii 'L') then classType text (referenceType levels)
    else if next = some (ascii 'T') then typeVariable text scope
    else if next = some (ascii '[') then
      let count ← brackets text (.invalidSignature text · .tooManyDimensions)
      return (← javaType text (referenceType levels)).arrayOf (UInt8.ofNat count)
    else fail text .expectedReferenceType

def typeParameter : ByteParser (Ty String) := do
  let name ← identifier text [':', '>', ';']
  expect text ':' .missingBoundColon
  let hasClassBound := (← peek text).any fun b => b = ascii 'L' ∨ b = ascii 'T' ∨ b = ascii '['
  let classBound ← if hasClassBound then List.singleton <$> reference else pure []
  let others ← whileDo (eat text ':') reference
  return .typeParameter name (!hasClassBound) (classBound ++ others)

def typeParameters : ByteParser (List (Ty String)) :=
  bracketed text (typeParameter text reference) .emptyTypeParameters

def anyReference : ByteParser (Ty String) := referenceType text scope Nested.signature.limit

def classBody : ByteParser (ClassSignature String) := do
  let typeParameters ← typeParameters text (anyReference text scope)
  let superclass ← classType text (anyReference text scope)
  let interfaces ← whileDo (do return !(← atEnd text)) (classType text (anyReference text scope))
  return ⟨typeParameters, superclass, interfaces⟩

def parametersFrom (item : ByteParser α) (items : List α) : ByteParser (List α) := do
  let all ← collect (do return (← peek text) ≠ some (ascii ')')) item items
  unless ← eat text ')' do throw .notClosed
  return all

def methodBody : ByteParser (MethodSignature String) := do
  let typeParameters ← typeParameters text (anyReference text scope)
  expect text '(' .missingParameters
  let parameters ← parametersFrom text (javaType text (anyReference text scope)) []
  let returnType ←
    if ← eat text 'V' then pure .void else javaType text (anyReference text scope)
  let exceptions ← whileDo (eat text '^') do
    if (← peek text) = some (ascii 'T') then typeVariable text scope
    else classType text (anyReference text scope)
  finish text
  return ⟨typeParameters, parameters, returnType, exceptions⟩

def fieldBody : ByteParser (Ty String) := do
  let ty ← anyReference text scope
  finish text
  return ty

def declared : ExceptT Stop Part (List String) := do
  return Ty.declaredNames (← (typeParameters text (anyReference text [])).run' 0)

def parseClass : ExceptT Stop Part (ClassSignature String) := do
  (classBody text (← declared text)).run' 0

def parseMethod (classScope : List String) : ExceptT Stop Part (MethodSignature String) := do
  (methodBody text ((← declared text) ++ classScope)).run' 0

def parseField (classScope : List String) : ExceptT Stop Part (Ty String) :=
  (fieldBody text classScope).run' 0

end Signature.Bytewise

namespace Descriptor.Bytewise

open ByteParser

variable {α : Type} (text : String)

def fail : ByteParser α := refuse fun _ => .invalidDescriptor text

def bump : ByteParser (Option UInt8) := do
  match ← peek text with
  | some b =>
    skip
    return some b
  | none => return none

def restText : ByteParser (List UInt8) := do
  let pos ← get
  if IsBoundary text pos then return (utf8 text).drop pos else throw .offBoundary

def className : ByteParser String := do
  let start ← get
  match (← restText text).findIdx? (stopByte [';']) with
  | none => fail text
  | some 0 => fail text
  | some length =>
    set (start + length + 1)
    slice text start (start + length)

def primitive (letter : UInt8) : ByteParser (Ty String) :=
  match Primitive.ofLetter? (Char.ofNat letter.toNat) with
  | some p => return .primitive p
  | none => fail text

def baseType : ByteParser (Ty String) := do
  match ← bump text with
  | some b =>
    if b = ascii 'L' then return .named (binaryName (← className text)) else primitive text b
  | none => fail text

def fieldType : ByteParser (Ty String) := do
  let count ← brackets text fun _ => .invalidDescriptor text
  let base ← baseType text
  return if count = 0 then base else base.arrayOf (UInt8.ofNat count)

end Descriptor.Bytewise

end ClassCatalog.ClassFile
