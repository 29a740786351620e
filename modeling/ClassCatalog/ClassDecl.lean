import ClassCatalog.AccessFlags
import ClassCatalog.Target
import ClassCatalog.Value

/-! Classes with their members and annotations, over an arbitrary type `ν` of names. All
annotations of a class, also those of its members, are in one list; the target of each says
where it stands. -/

namespace ClassCatalog

structure AnnotationUse (ν : Type) where
  name : ν
  visible : Bool
  target : Option (Target ν)
  members : List (ν × Value ν)
  deriving Repr

structure FieldDecl (ν : Type) where
  name : ν
  flags : AccessFlags
  ty : Ty ν
  deriving Repr

structure MethodDecl (ν : Type) where
  name : ν
  flags : AccessFlags
  typeParameters : List (Ty ν)
  parameters : List (Ty ν)
  returnType : Ty ν
  exceptions : List (Ty ν)
  /-- Empty when the class was compiled without parameter names. -/
  parameterNames : List (Option ν)
  default : Option (Value ν)
  deriving Repr

structure ComponentDecl (ν : Type) where
  name : ν
  ty : Ty ν
  deriving Repr

inductive NestingKind where
  | topLevel | memberClass | localClass | anonymousClass
  deriving DecidableEq, Repr

namespace NestingKind

def all : List NestingKind := [topLevel, memberClass, localClass, anonymousClass]

def code : NestingKind → Nat
  | topLevel => 0
  | memberClass => 1
  | localClass => 2
  | anonymousClass => 3

def ofCode? (n : Nat) : Option NestingKind := all[n]?

end NestingKind

structure EnclosingMethod (ν : Type) where
  owner : ν
  name : ν
  descriptor : ν
  deriving DecidableEq, Repr

structure Nesting (ν : Type) where
  kind : NestingKind
  enclosingClass : Option ν
  simpleName : Option ν
  enclosingMethod : Option (EnclosingMethod ν)
  deriving DecidableEq, Repr

structure ClassDecl (ν : Type) where
  name : ν
  flags : AccessFlags
  superName : Option ν
  superType : Option (Ty ν)
  interfaces : List (Ty ν)
  typeParameters : List (Ty ν)
  fields : List (FieldDecl ν)
  methods : List (MethodDecl ν)
  components : List (ComponentDecl ν)
  annotations : List (AnnotationUse ν)
  nesting : Nesting ν
  hasNoArgsConstructor : Bool
  deriving Repr

def Nesting.topLevel {ν : Type} : Nesting ν := ⟨.topLevel, none, none, none⟩

namespace AnnotationUse

variable {ν : Type} [DecidableEq ν]

def member? (a : AnnotationUse ν) (name : ν) : Option (Value ν) :=
  (a.members.find? (·.1 = name)).map (·.2)

/-- Equality of content, with numbers compared as numbers. -/
def same (a b : AnnotationUse ν) : Bool :=
  a.name = b.name && a.visible = b.visible && a.target = b.target
    && Value.sameMembers a.members b.members

def sameList : List (AnnotationUse ν) → List (AnnotationUse ν) → Bool
  | [], [] => true
  | a :: as, b :: bs => a.same b && sameList as bs
  | _, _ => false

end AnnotationUse

namespace MethodDecl

variable {ν : Type}

def parameterName? (m : MethodDecl ν) (position : Nat) : Option ν :=
  m.parameterNames[position]?.join

/-- The positions of the parameters. A position takes 16 bits, and parameters beyond have none. -/
def positions (m : MethodDecl ν) : List Nat := List.range (min m.parameters.length UInt16.size)

def constructorName : String := "<init>"

def isConstructor (m : MethodDecl String) : Bool := m.name = constructorName

def isStaticInitializer (m : MethodDecl String) : Bool := m.name = "<clinit>"

end MethodDecl

namespace ClassDecl

variable {ν : Type}

def bare (name : ν) (flags : AccessFlags) : ClassDecl ν :=
  ⟨name, flags, none, none, [], [], [], [], [], [], .topLevel, false⟩

def ref (c : ClassDecl ν) : DeclRef ν := .type c.name

def fieldRef (c : ClassDecl ν) (f : FieldDecl ν) : DeclRef ν := .field c.name f.name

def methodRef (c : ClassDecl ν) (index : Nat) : DeclRef ν := .method c.name (UInt32.ofNat index)

def componentRef (c : ClassDecl ν) (k : ComponentDecl ν) : DeclRef ν := .component c.name k.name

def parameterTarget (c : ClassDecl ν) (index position : Nat) : Target ν :=
  .parameter c.name (UInt32.ofNat index) (UInt16.ofNat position)

/-- What tells fields, methods and components apart: class and name, so that the overloads of a
method are one. -/
def memberKey (c : ClassDecl ν) (name : ν) : ν × ν := (c.name, name)

def parameterKey (c : ClassDecl ν) (index position : Nat) : ν × Nat × Nat :=
  (c.name, index, position)

def interfaceNames (c : ClassDecl ν) : List ν := c.interfaces.filterMap Ty.name?

def isRecord (c : ClassDecl String) : Bool := c.superName = some "java.lang.Record"

section Lookup

variable [DecidableEq ν]

def field? (c : ClassDecl ν) (name : ν) : Option (FieldDecl ν) :=
  c.fields.find? (·.name = name)

def methodsNamed (c : ClassDecl ν) (name : ν) : List (MethodDecl ν × Nat) :=
  c.methods.zipIdx.filter (·.1.name = name)

def method? (c : ClassDecl ν) (name : ν) (parameters : List (Ty ν)) :
    Option (MethodDecl ν × Nat) :=
  (c.methodsNamed name).find? (·.1.parameters = parameters)

def component? (c : ClassDecl ν) (name : ν) : Option (ComponentDecl ν) :=
  c.components.find? (·.name = name)

/-- The field behind a component of the class `owner`; other classes hold none. -/
def backingField? (c : ClassDecl ν) (owner : ν) (k : ComponentDecl ν) : Option (FieldDecl ν) :=
  if c.name = owner then c.field? k.name else none

def annotationOnClass? (c : ClassDecl ν) (name : ν) : Option (AnnotationUse ν) :=
  c.annotations.find? fun a => a.name = name && a.target = some (.declaration c.ref)

def annotationsNamed (c : ClassDecl ν) (name : ν) : List (AnnotationUse ν) :=
  c.annotations.filter (·.name = name)

def annotationsOn (c : ClassDecl ν) (target : Target ν) : List (AnnotationUse ν) :=
  c.annotations.filter (·.target = some target)

def declaredOn (c : ClassDecl ν) (d : DeclRef ν) : List (AnnotationUse ν) :=
  c.annotationsOn (.declaration d)

def annotationsWithin (c : ClassDecl ν) (d : DeclRef ν) : List (AnnotationUse ν) :=
  c.annotations.filter fun a => a.target.map Target.belongsTo = some d

/-- The annotations on a record component or, when it has none, on the field behind it. -/
def componentAnnotations (c : ClassDecl ν) (name : ν) : List (AnnotationUse ν) :=
  match c.component? name with
  | none => []
  | some _ =>
    match c.declaredOn (.component c.name name) with
    | [] => c.declaredOn (.field c.name name)
    | found => found

/-- Equality of classes. Members are identified by their class and name alone. -/
def same (a b : ClassDecl ν) : Bool :=
  a.name = b.name && a.flags = b.flags && a.superName = b.superName
    && a.superType = b.superType && a.interfaces = b.interfaces
    && a.typeParameters = b.typeParameters
    && a.fields.map (a.memberKey ·.name) = b.fields.map (b.memberKey ·.name)
    && a.methods.map (a.memberKey ·.name) = b.methods.map (b.memberKey ·.name)
    && a.components.map (a.memberKey ·.name) = b.components.map (b.memberKey ·.name)
    && AnnotationUse.sameList a.annotations b.annotations
    && a.nesting = b.nesting && a.hasNoArgsConstructor = b.hasNoArgsConstructor

end Lookup

end ClassDecl

end ClassCatalog
