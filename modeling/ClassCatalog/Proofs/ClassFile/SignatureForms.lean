import ClassCatalog.ClassFile.Signature
import ClassCatalog.Proofs.Ty.WellFormed

/-! Signatures as trees: the text of each, the types that it denotes where some type variables are
in scope, and how deep its reference types nest. -/

namespace ClassCatalog.ClassFile.Signature

structure Identifier where
  chars : List Char
  ne_nil : chars ≠ []
  clean : ∀ c ∈ chars, c ∉ ['.', ';', '[', '/', '<', '>', ':']

def Identifier.text (i : Identifier) : String := String.ofList i.chars

structure Dimensions where
  count : Nat
  pos : 1 ≤ count
  le : count ≤ 255

mutual

inductive ClassForm where
  | outermost (package : List Identifier) (name : Identifier) (arguments : List ArgumentForm)
  | member (outer : ClassForm) (name : Identifier) (arguments : List ArgumentForm)

inductive ArgumentForm where
  | anything
  | bounded (isExtends : Bool) (bound : ReferenceForm)
  | exactly (type : ReferenceForm)

inductive ReferenceForm where
  | named (type : NamedForm)
  | array (dimensions : Dimensions) (component : NamedForm)
  | primitiveArray (dimensions : Dimensions) (component : Primitive)

inductive NamedForm where
  | typeVariable (name : Identifier)
  | classType (type : ClassForm)

end

def bracketed : List Char → List Char
  | [] => []
  | c :: cs => '<' :: (c :: cs ++ ['>'])

theorem bracketed_of_ne_nil {cs : List Char} (h : cs ≠ []) :
    bracketed cs = '<' :: (cs ++ ['>']) := by
  cases cs with
  | nil => exact absurd rfl h
  | cons c cs => rfl

mutual

def ClassForm.chars : ClassForm → List Char
  | .outermost package name arguments =>
    package.flatMap (fun i => i.chars ++ ['/']) ++ name.chars
      ++ bracketed (argumentsChars arguments)
  | .member outer name arguments =>
    outer.chars ++ '.' :: name.chars ++ bracketed (argumentsChars arguments)

def ArgumentForm.chars : ArgumentForm → List Char
  | .anything => ['*']
  | .bounded true bound => '+' :: bound.chars
  | .bounded false bound => '-' :: bound.chars
  | .exactly type => type.chars

def argumentsChars : List ArgumentForm → List Char
  | [] => []
  | a :: as => a.chars ++ argumentsChars as

def ReferenceForm.chars : ReferenceForm → List Char
  | .named type => type.chars
  | .array dimensions component => List.replicate dimensions.count '[' ++ component.chars
  | .primitiveArray dimensions p => List.replicate dimensions.count '[' ++ [p.letter]

def NamedForm.chars : NamedForm → List Char
  | .typeVariable name => 'T' :: (name.chars ++ [';'])
  | .classType type => 'L' :: (type.chars ++ [';'])

end

namespace ClassForm

def binaryChars : ClassForm → List Char
  | outermost package name _ => package.flatMap (fun i => i.chars ++ ['.']) ++ name.chars
  | member outer name _ => outer.binaryChars ++ '$' :: name.chars

def isGeneric : ClassForm → Bool
  | outermost _ _ arguments => !arguments.isEmpty
  | member outer _ arguments => outer.isGeneric || !arguments.isEmpty

end ClassForm

def applied (name : List Char) : List (Ty String) → Ty String
  | [] => .named (String.ofList name)
  | t :: ts => .parameterized (String.ofList name) (t :: ts)

mutual

/-- The class around a member class is kept only if it is generic. -/
def ClassForm.ty (scope : List String) : ClassForm → Ty String
  | c@(.outermost _ _ arguments) => applied c.binaryChars (argumentsTy scope arguments)
  | c@(.member outer _ arguments) =>
    if outer.isGeneric then
      .inner (outer.ty scope) (String.ofList c.binaryChars) (argumentsTy scope arguments)
    else applied c.binaryChars (argumentsTy scope arguments)

def ArgumentForm.ty (scope : List String) : ArgumentForm → Ty String
  | .anything => .wildcard true
  | .bounded isExtends bound => .bounded isExtends (bound.ty scope)
  | .exactly type => type.ty scope

def argumentsTy (scope : List String) : List ArgumentForm → List (Ty String)
  | [] => []
  | a :: as => a.ty scope :: argumentsTy scope as

def ReferenceForm.ty (scope : List String) : ReferenceForm → Ty String
  | .named type => type.ty scope
  | .array dimensions component => .array (UInt8.ofNat dimensions.count) (component.ty scope)
  | .primitiveArray dimensions p => .array (UInt8.ofNat dimensions.count) (.primitive p)

def NamedForm.ty (scope : List String) : NamedForm → Ty String
  | .typeVariable name =>
    if name.text ∈ scope then .typeVariable name.text else .unresolved name.text
  | .classType type => type.ty scope

end

def ReferenceForm.text (r : ReferenceForm) : String := String.ofList r.chars

mutual

def ClassForm.levels : ClassForm → Nat
  | .outermost _ _ arguments => argumentsLevels arguments
  | .member outer _ arguments => max outer.levels (argumentsLevels arguments)

def ArgumentForm.levels : ArgumentForm → Nat
  | .anything => 0
  | .bounded _ bound => bound.levels
  | .exactly type => type.levels

def argumentsLevels : List ArgumentForm → Nat
  | [] => 0
  | a :: as => max a.levels (argumentsLevels as)

def ReferenceForm.levels : ReferenceForm → Nat
  | .named type => type.levels
  | .array _ component => component.levels + 1
  | .primitiveArray .. => 1

def NamedForm.levels : NamedForm → Nat
  | .typeVariable _ => 1
  | .classType type => type.levels + 1

end

structure ParameterForm where
  name : Identifier
  classBound : Option ReferenceForm
  interfaceBounds : List ReferenceForm
  is_bounded : classBound.isSome ∨ interfaceBounds ≠ []

namespace ParameterForm

def bounds (p : ParameterForm) : List ReferenceForm := p.classBound.toList ++ p.interfaceBounds

def chars (p : ParameterForm) : List Char :=
  p.name.chars ++ ':' :: (p.classBound.toList.flatMap ReferenceForm.chars
    ++ p.interfaceBounds.flatMap fun b => ':' :: b.chars)

def ty (scope : List String) (p : ParameterForm) : Ty String :=
  .typeParameter p.name.text p.classBound.isNone (p.bounds.map (ReferenceForm.ty scope))

end ParameterForm

def declared (ps : List ParameterForm) : List String := ps.map (·.name.text)

def parametersChars (ps : List ParameterForm) : List Char :=
  bracketed (ps.flatMap ParameterForm.chars)

inductive JavaForm where
  | primitive (p : Primitive)
  | reference (type : ReferenceForm)

namespace JavaForm

def chars : JavaForm → List Char
  | primitive p => [p.letter]
  | reference type => type.chars

def ty (scope : List String) : JavaForm → Ty String
  | primitive p => .primitive p
  | reference type => type.ty scope

def levels : JavaForm → Nat
  | primitive _ => 0
  | reference type => type.levels

end JavaForm

structure ClassSignatureForm where
  typeParameters : List ParameterForm
  superclass : ClassForm
  interfaces : List ClassForm

namespace ClassSignatureForm

def text (s : ClassSignatureForm) : String :=
  String.ofList (parametersChars s.typeParameters
    ++ (s.superclass :: s.interfaces).flatMap fun c => (NamedForm.classType c).chars)

def types (s : ClassSignatureForm) : ClassSignature String where
  typeParameters := s.typeParameters.map (ParameterForm.ty (declared s.typeParameters))
  superclass := s.superclass.ty (declared s.typeParameters)
  interfaces := s.interfaces.map (ClassForm.ty (declared s.typeParameters))

/-- No reference type nests deeper than is allowed. -/
structure WithinLimit (s : ClassSignatureForm) : Prop where
  typeParameters : ∀ p ∈ s.typeParameters, ∀ b ∈ p.bounds, b.levels ≤ Nested.signature.limit
  superclass : s.superclass.levels ≤ Nested.signature.limit
  interfaces : ∀ c ∈ s.interfaces, c.levels ≤ Nested.signature.limit

end ClassSignatureForm

structure MethodSignatureForm where
  typeParameters : List ParameterForm
  parameters : List JavaForm
  result : Option JavaForm
  exceptions : List NamedForm

namespace MethodSignatureForm

def resultChars : Option JavaForm → List Char
  | none => ['V']
  | some type => type.chars

def resultTy (scope : List String) : Option JavaForm → Ty String
  | none => .void
  | some type => type.ty scope

def text (s : MethodSignatureForm) : String :=
  String.ofList (parametersChars s.typeParameters
    ++ '(' :: (s.parameters.flatMap JavaForm.chars ++ ')' :: (resultChars s.result
    ++ s.exceptions.flatMap fun e => '^' :: e.chars)))

def scope (classScope : List String) (s : MethodSignatureForm) : List String :=
  declared s.typeParameters ++ classScope

def types (classScope : List String) (s : MethodSignatureForm) : MethodSignature String where
  typeParameters := s.typeParameters.map (ParameterForm.ty (s.scope classScope))
  parameters := s.parameters.map (JavaForm.ty (s.scope classScope))
  returnType := resultTy (s.scope classScope) s.result
  exceptions := s.exceptions.map (NamedForm.ty (s.scope classScope))

/-- No reference type nests deeper than is allowed. A thrown type itself does not count. -/
structure WithinLimit (s : MethodSignatureForm) : Prop where
  typeParameters : ∀ p ∈ s.typeParameters, ∀ b ∈ p.bounds, b.levels ≤ Nested.signature.limit
  parameters : ∀ t ∈ s.parameters, t.levels ≤ Nested.signature.limit
  result : ∀ t ∈ s.result, t.levels ≤ Nested.signature.limit
  exceptions : ∀ e ∈ s.exceptions, e.levels ≤ Nested.signature.limit + 1

end MethodSignatureForm

end ClassCatalog.ClassFile.Signature
