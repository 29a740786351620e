import ClassCatalog.ClassFile.ElementValue

/-! Which type an annotation on a type stands on. This is known only when all members are. -/

namespace ClassCatalog.ClassFile

variable {ν : Type}

structure PendingTypeUse (ν : Type) where
  enclosing : DeclRef ν
  entry : TypeEntry ν

/-- The class seen from inside, applied to its own type parameters. -/
def receiverType (c : ClassDecl ν) : Ty ν :=
  if c.typeParameters.isEmpty then .named c.name
  else .parameterized c.name ((c.typeParameters.filterMap Ty.name?).map .typeVariable)

def typeParameterBound (parameters : List (Ty ν)) (parameter bound : UInt8) : Option (Ty ν) := do
  (← parameters[parameter.toNat]?).bound? bound

variable [DecidableEq ν] (init : ν)

/-- The type of a method that a type use means. A constructor returns what it constructs. The
positions of formal parameters do not count the first `hidden` parameters. -/
def methodBaseType (c : ClassDecl ν) (m : MethodDecl ν) (hidden : Nat) : TypeUse → Option (Ty ν)
  | .methodTypeParameter position => m.typeParameters[position.toNat]?
  | .methodTypeParameterBound parameter bound =>
    typeParameterBound m.typeParameters parameter bound
  | .returnType => some (if m.name = init then receiverType c else m.returnType)
  | .receiver => some (receiverType c)
  | .formalParameter position => m.parameters[hidden + position.toNat]?
  | .thrown index => m.exceptions[index.toNat]?
  | _ => none

theorem methodBaseType_returnType (c : ClassDecl ν) (m : MethodDecl ν) (hidden : Nat) :
    methodBaseType init c m hidden .returnType
      = some (if m.name = init then receiverType c else m.returnType) := rfl

theorem methodBaseType_receiver (c : ClassDecl ν) (m : MethodDecl ν) (hidden : Nat) :
    methodBaseType init c m hidden .receiver = some (receiverType c) := rfl

def baseType (c : ClassDecl ν) (hidden : Nat) : DeclRef ν → TypeUse → Option (Ty ν)
  | .type _, .classTypeParameter position => c.typeParameters[position.toNat]?
  | .type _, .supertype index =>
    if index = TypeUse.superclass then c.superType else c.interfaces[index.toNat]?
  | .type _, .classTypeParameterBound parameter bound =>
    typeParameterBound c.typeParameters parameter bound
  | .field _ name, .field => (c.field? name).map (·.ty)
  | .component _ name, .field => (c.component? name).map (·.ty)
  | .method _ index, use => do methodBaseType init c (← c.methods[index.toNat]?) hidden use
  | _, _ => none

def PendingTypeUse.resolve (c : ClassDecl ν) (hidden : Nat) (p : PendingTypeUse ν) :
    Option (AnnotationUse ν) := do
  let base ← baseType init c hidden p.enclosing p.entry.use
  let ty ← base.navigate p.entry.path
  return { p.entry.body with
    target := some (.typeUse ⟨p.enclosing, p.entry.use, p.entry.path, ty⟩) }

end ClassCatalog.ClassFile
