import ClassCatalog.ClassFile.Signature
import ClassCatalog.ClassFile.TypeUses
import ClassCatalog.Rename

/-! A class as its file states it, and what follows from comparing its names: which type variables
are bound, which methods are constructors, and which of their parameters no source declares. The
names may be texts or handles; nothing is asked of them but whether they are equal, and the text
of a parameter's class. -/

namespace ClassCatalog.ClassFile

structure Supertypes (ν : Type) where
  typeParameters : List (Ty ν)
  superType : Option (Ty ν)
  interfaces : List (Ty ν)

namespace Supertypes

variable {ν : Type}

def scope (s : Supertypes ν) : List ν := Ty.declaredNames s.typeParameters

def bound [DecidableEq ν] (s : Supertypes ν) : Supertypes ν where
  typeParameters := Ty.listBindIn s.scope s.typeParameters
  superType := s.superType.map (Ty.bindIn s.scope)
  interfaces := Ty.listBindIn s.scope s.interfaces

end Supertypes

/-- A method. Without a signature its types are those of its descriptor, and `erased` are the
parameters of the descriptor in any case. -/
structure MethodDraft (ν : Type) where
  name : ν
  flags : AccessFlags
  types : MethodSignature ν
  parameterNames : List (Option ν)
  default : Option (Value ν)
  erased : List (Ty ν)
  hasSignature : Bool

def MethodDraft.decl {ν : Type} [DecidableEq ν] (outer : List ν) (m : MethodDraft ν) :
    MethodDecl ν where
  name := m.name
  flags := m.flags
  typeParameters := (m.types.boundIn outer).typeParameters
  parameters := (m.types.boundIn outer).parameters
  returnType := (m.types.boundIn outer).returnType
  exceptions := (m.types.boundIn outer).exceptions
  parameterNames := m.parameterNames
  default := m.default

structure Draft (ν : Type) where
  name : ν
  flags : AccessFlags
  superName : Option ν
  types : Supertypes ν
  fields : List (FieldDecl ν)
  methods : List (MethodDraft ν)
  components : List (ComponentDecl ν)
  annotations : List (AnnotationUse ν)
  typeUses : List (PendingTypeUse ν)
  nesting : Nesting ν

namespace Draft

variable {ν : Type} [DecidableEq ν]

/-- Whether `outer` is the class around a member class that is not static: its constructors take
the enclosing instance first. -/
def isEnclosing (d : Draft ν) (outer : ν) : Bool :=
  d.nesting.kind = .memberClass && !d.flags.has .accStatic && d.nesting.enclosingClass = some outer

def isNoArgs (d : Draft ν) : List (Ty ν) → Bool
  | [] => true
  | [.named outer] => d.isEnclosing outer
  | _ => false

/-- The number of first constructor parameters that no source declares: the enclosing instance,
or the name and position of an enum constant. -/
def hiddenParameters (text : ν → String) (d : Draft ν) : List (Ty ν) → Nat
  | .named first :: rest =>
    if d.isEnclosing first then 1
    else if d.flags.has .accEnum ∧ text first = "java.lang.String"
        ∧ rest.head? = some (.primitive .int) then 2
    else 0
  | _ => 0

/-- The hidden parameters of a declaration. The types of a signature have none. -/
def hiddenIn (init : ν) (text : ν → String) (d : Draft ν) : DeclRef ν → Nat
  | .method _ index =>
    match d.methods[index.toNat]? with
    | some m => if m.name = init && !m.hasSignature then d.hiddenParameters text m.erased else 0
    | none => 0
  | _ => 0

def decl (init : ν) (d : Draft ν) : ClassDecl ν where
  name := d.name
  flags := d.flags
  superName := d.superName
  superType := d.types.bound.superType
  interfaces := d.types.bound.interfaces
  typeParameters := d.types.bound.typeParameters
  fields := d.fields.map fun f => { f with ty := f.ty.bindIn d.types.scope }
  methods := d.methods.map (·.decl d.types.scope)
  components := d.components.map fun k => { k with ty := k.ty.bindIn d.types.scope }
  annotations := d.annotations
  nesting := d.nesting
  hasNoArgsConstructor := d.methods.any fun m => m.name = init && d.isNoArgs m.erased

/-- The class, where `init` is the name of constructors and `text` gives the text of a name.
Annotations on declarations come first, those on types after them. -/
def finish (init : ν) (text : ν → String) (d : Draft ν) : ClassDecl ν :=
  let c := d.decl init
  { c with
    annotations := d.annotations
      ++ d.typeUses.filterMap fun u => u.resolve init c (d.hiddenIn init text u.enclosing) }

end Draft

section Rename

variable {m : Type → Type} [Monad m] {α β : Type}

def Supertypes.mapNames (f : α → m β) (s : Supertypes α) : m (Supertypes β) := do
  let typeParameters ← Ty.listMapNames f s.typeParameters
  let superType ← s.superType.mapM (Ty.mapNames f)
  return ⟨typeParameters, superType, ← Ty.listMapNames f s.interfaces⟩

def MethodSignature.mapNames (f : α → m β) (s : MethodSignature α) : m (MethodSignature β) := do
  let typeParameters ← Ty.listMapNames f s.typeParameters
  let parameters ← Ty.listMapNames f s.parameters
  let returnType ← s.returnType.mapNames f
  return ⟨typeParameters, parameters, returnType, ← Ty.listMapNames f s.exceptions⟩

def MethodDraft.mapNames (f : α → m β) (d : MethodDraft α) : m (MethodDraft β) := do
  let name ← f d.name
  let types ← d.types.mapNames f
  let parameterNames ← d.parameterNames.mapM (Option.mapM f)
  let default ← d.default.mapM (Value.mapNames f)
  return ⟨name, d.flags, types, parameterNames, default, ← Ty.listMapNames f d.erased,
    d.hasSignature⟩

def TypeEntry.mapNames (f : α → m β) (e : TypeEntry α) : m (TypeEntry β) := do
  return ⟨e.use, e.path, ← e.body.mapNames f⟩

def PendingTypeUse.mapNames (f : α → m β) (p : PendingTypeUse α) : m (PendingTypeUse β) := do
  let enclosing ← p.enclosing.mapNames f
  return ⟨enclosing, ← p.entry.mapNames f⟩

def Draft.mapNames (f : α → m β) (d : Draft α) : m (Draft β) := do
  let name ← f d.name
  let superName ← d.superName.mapM f
  let types ← d.types.mapNames f
  let fields ← d.fields.mapM (FieldDecl.mapNames f)
  let methods ← d.methods.mapM (MethodDraft.mapNames f)
  let components ← d.components.mapM (ComponentDecl.mapNames f)
  let annotations ← d.annotations.mapM (AnnotationUse.mapNames f)
  let typeUses ← d.typeUses.mapM (PendingTypeUse.mapNames f)
  let nesting ← d.nesting.mapNames f
  return ⟨name, d.flags, superName, types, fields, methods, components, annotations, typeUses,
    nesting⟩

end Rename

end ClassCatalog.ClassFile
