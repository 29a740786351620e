import ClassCatalog.ClassDecl

/-! Replacing every name of a class, in order, by the result of an action. -/

namespace ClassCatalog

variable {m : Type → Type} [Monad m] {α β : Type}

namespace Ty

mutual

def mapNames (f : α → m β) : Ty α → m (Ty β)
  | primitive p => pure (.primitive p)
  | void => pure .void
  | named n => do return .named (← f n)
  | array d c => do return .array d (← c.mapNames f)
  | parameterized n as => do
    let n ← f n
    return .parameterized n (← listMapNames f as)
  | inner o n as => do
    let o ← o.mapNames f
    let n ← f n
    return .inner o n (← listMapNames f as)
  | typeParameter n i bs => do
    let n ← f n
    return .typeParameter n i (← listMapNames f bs)
  | typeVariable n => do return .typeVariable (← f n)
  | unresolved n => do return .unresolved (← f n)
  | wildcard e => pure (.wildcard e)
  | bounded e b => do return .bounded e (← b.mapNames f)

def listMapNames (f : α → m β) : List (Ty α) → m (List (Ty β))
  | [] => pure []
  | t :: ts => do
    let t ← t.mapNames f
    return t :: (← listMapNames f ts)

end

end Ty

namespace Value

mutual

def mapNames (f : α → m β) : Value α → m (Value β)
  | byte v => pure (.byte v)
  | char v => pure (.char v)
  | short v => pure (.short v)
  | int v => pure (.int v)
  | long v => pure (.long v)
  | float v => pure (.float v)
  | double v => pure (.double v)
  | boolean v => pure (.boolean v)
  | string t => do return .string (← f t)
  | classLiteral t => do return .classLiteral (← t.mapNames f)
  | enumConstant t c => do
    let t ← f t
    return .enumConstant t (← f c)
  | nested n v ms => do
    let n ← f n
    return .nested n v (← membersMapNames f ms)
  | array es => do return .array (← elementsMapNames f es)

def membersMapNames (f : α → m β) : List (α × Value α) → m (List (β × Value β))
  | [] => pure []
  | (n, v) :: rest => do
    let n ← f n
    let v ← v.mapNames f
    return (n, v) :: (← membersMapNames f rest)

def elementsMapNames (f : α → m β) : List (Value α) → m (List (Value β))
  | [] => pure []
  | v :: rest => do
    let v ← v.mapNames f
    return v :: (← elementsMapNames f rest)

end

end Value

def DeclRef.mapNames (f : α → m β) : DeclRef α → m (DeclRef β)
  | .type n => do return .type (← f n)
  | .field c n => do
    let c ← f c
    return .field c (← f n)
  | .method c i => do return .method (← f c) i
  | .component c n => do
    let c ← f c
    return .component c (← f n)

def Target.mapNames (f : α → m β) : Target α → m (Target β)
  | .declaration d => do return .declaration (← d.mapNames f)
  | .parameter c i p => do return .parameter (← f c) i p
  | .typeUse t => do
    let enclosing ← t.enclosing.mapNames f
    return .typeUse ⟨enclosing, t.use, t.path, ← t.ty.mapNames f⟩

def AnnotationUse.mapNames (f : α → m β) (a : AnnotationUse α) : m (AnnotationUse β) := do
  let name ← f a.name
  let target ← a.target.mapM (Target.mapNames f)
  let members ← Value.membersMapNames f a.members
  return ⟨name, a.visible, target, members⟩

def FieldDecl.mapNames (f : α → m β) (d : FieldDecl α) : m (FieldDecl β) := do
  let name ← f d.name
  return ⟨name, d.flags, ← d.ty.mapNames f⟩

def MethodDecl.mapNames (f : α → m β) (d : MethodDecl α) : m (MethodDecl β) := do
  let name ← f d.name
  let typeParameters ← Ty.listMapNames f d.typeParameters
  let parameters ← Ty.listMapNames f d.parameters
  let returnType ← d.returnType.mapNames f
  let exceptions ← Ty.listMapNames f d.exceptions
  let parameterNames ← d.parameterNames.mapM (Option.mapM f)
  let default ← d.default.mapM (Value.mapNames f)
  return ⟨name, d.flags, typeParameters, parameters, returnType, exceptions, parameterNames,
    default⟩

def ComponentDecl.mapNames (f : α → m β) (d : ComponentDecl α) : m (ComponentDecl β) := do
  let name ← f d.name
  return ⟨name, ← d.ty.mapNames f⟩

def EnclosingMethod.mapNames (f : α → m β) (e : EnclosingMethod α) : m (EnclosingMethod β) := do
  let owner ← f e.owner
  let name ← f e.name
  return ⟨owner, name, ← f e.descriptor⟩

def Nesting.mapNames (f : α → m β) (n : Nesting α) : m (Nesting β) := do
  let enclosingClass ← n.enclosingClass.mapM f
  let simpleName ← n.simpleName.mapM f
  let enclosingMethod ← n.enclosingMethod.mapM (EnclosingMethod.mapNames f)
  return ⟨n.kind, enclosingClass, simpleName, enclosingMethod⟩

def ClassDecl.mapNames (f : α → m β) (c : ClassDecl α) : m (ClassDecl β) := do
  let name ← f c.name
  let superName ← c.superName.mapM f
  let superType ← c.superType.mapM (Ty.mapNames f)
  let interfaces ← Ty.listMapNames f c.interfaces
  let typeParameters ← Ty.listMapNames f c.typeParameters
  let fields ← c.fields.mapM (FieldDecl.mapNames f)
  let methods ← c.methods.mapM (MethodDecl.mapNames f)
  let components ← c.components.mapM (ComponentDecl.mapNames f)
  let annotations ← c.annotations.mapM (AnnotationUse.mapNames f)
  let nesting ← c.nesting.mapNames f
  return ⟨name, c.flags, superName, superType, interfaces, typeParameters, fields, methods,
    components, annotations, nesting, c.hasNoArgsConstructor⟩

end ClassCatalog
