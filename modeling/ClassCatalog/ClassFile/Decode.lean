import ClassCatalog.ClassFile.Draft
import ClassCatalog.ClassFile.Nesting

/-! From the parts of a class file to the class. -/

namespace ClassCatalog.ClassFile

structure Context where
  pool : ConstantPool
  invisible : Bool
  name : String

structure Decoded (α : Type) where
  decl : α
  annotations : List (AnnotationUse String)
  typeUses : List (PendingTypeUse String)

def Attributes.readList {α : Type} (attributes : Attributes) (name : String)
    (p : Reader (List α)) : Except DecodeError (List α) :=
  match attributes.body? name with
  | none => .ok []
  | some body => p.value body

def Attributes.variableType (attributes : Attributes) (descriptor : String) :
    Except DecodeError (Ty String) :=
  match attributes.signature with
  | some signature => Signature.run Signature.fieldBody signature
  | none => Descriptor.parseField descriptor

namespace Context

/-- What `p` reads from the visible attribute and then, if it is wanted, from the invisible one. -/
def readBoth {α : Type} (ctx : Context) (attributes : Attributes) (kind : String)
    (p : Bool → Reader (List α)) : Except DecodeError (List α) := do
  let visible ← attributes.readList ("RuntimeVisible" ++ kind) (p true)
  if ctx.invisible then
    return visible ++ (← attributes.readList ("RuntimeInvisible" ++ kind) (p false))
  else return visible

def declaredOn (ctx : Context) (attributes : Attributes) (d : DeclRef String) :
    Except DecodeError (List (AnnotationUse String)) :=
  ctx.readBoth attributes "Annotations" (Annotations.read ctx.pool (.declaration d))

def typeUsesIn (ctx : Context) (attributes : Attributes) (d : DeclRef String) :
    Except DecodeError (List (PendingTypeUse String)) := do
  let entries ← ctx.readBoth attributes "TypeAnnotations" (TypeEntry.read ctx.pool)
  return entries.map (⟨d, ·⟩)

def field (ctx : Context) (m : MemberLayout) : Except DecodeError (Decoded (FieldDecl String)) := do
  let ty ← m.attributes.variableType m.descriptor
  let ref : DeclRef String := .field ctx.name m.name
  let annotations ← ctx.declaredOn m.attributes ref
  let typeUses ← ctx.typeUsesIn m.attributes ref
  return ⟨⟨m.name, m.flags, ty⟩, annotations, typeUses⟩

def exceptions (ctx : Context) (attributes : Attributes) : Except DecodeError (List (Ty String)) :=
  attributes.readList "Exceptions" (Reader.counted do
    return .named (binaryName (← ctx.pool.className (← Reader.u2))))

def parameterNames (ctx : Context) (attributes : Attributes) :
    Except DecodeError (List (Option String)) :=
  attributes.readList "MethodParameters" do
    times (← Reader.u1) do
      let name ← Reader.u2
      let _ ← Reader.u2
      ctx.pool.utf8? name

/-- The types of a method. A signature lists what is thrown only if one of the types is generic;
otherwise `thrown` holds. -/
def methodTypes (signature : Option String) (erased : List (Ty String) × Ty String)
    (thrown : List (Ty String)) : Except DecodeError (MethodSignature String) :=
  match signature with
  | none => .ok ⟨[], erased.1, erased.2, thrown⟩
  | some signature => do
    let s ← Signature.run Signature.methodBody signature
    return { s with exceptions := if s.exceptions.isEmpty then thrown else s.exceptions }

def method (ctx : Context) (index : Nat) (m : MemberLayout) :
    Except DecodeError (Decoded (MethodDraft String)) := do
  let erased ← Descriptor.parseMethod m.descriptor
  let thrown ← ctx.exceptions m.attributes
  let types ← methodTypes m.attributes.signature erased thrown
  let default ← (m.attributes.body? "AnnotationDefault").mapM
    (ElementValue.readDefault ctx.pool).value
  let parameterNames ← ctx.parameterNames m.attributes
  let decl : MethodDraft String :=
    ⟨m.name, m.flags, types, parameterNames, default, erased.1, m.attributes.signature.isSome⟩
  let slot := UInt32.ofNat index
  let ref : DeclRef String := .method ctx.name slot
  let declared ← ctx.declaredOn m.attributes ref
  let onParameters ← ctx.readBoth m.attributes "ParameterAnnotations"
    (Annotations.readParameters ctx.pool ctx.name slot types.parameters.length)
  let typeUses ← ctx.typeUsesIn m.attributes ref
  return ⟨decl, declared ++ onParameters, typeUses⟩

def methodsFrom (ctx : Context) : Nat → List MemberLayout →
    Except DecodeError (List (Decoded (MethodDraft String)))
  | _, [] => .ok []
  | index, m :: ms => do
    let decoded ← ctx.method index m
    return decoded :: (← ctx.methodsFrom (index + 1) ms)

def component (ctx : Context) : Reader (Decoded (ComponentDecl String)) := do
  let name ← ctx.pool.utf8 (← Reader.u2)
  let descriptor ← ctx.pool.utf8 (← Reader.u2)
  let attributes ← Attributes.read ctx.pool
  let ty ← attributes.variableType descriptor
  let ref : DeclRef String := .component ctx.name name
  let annotations ← ctx.declaredOn attributes ref
  let typeUses ← ctx.typeUsesIn attributes ref
  return ⟨⟨name, ty⟩, annotations, typeUses⟩

def components (ctx : Context) (attributes : Attributes) :
    Except DecodeError (List (Decoded (ComponentDecl String))) :=
  match attributes.body? "Record" with
  | none => .ok []
  | some body => do
    let (components, cursor) ← (Reader.counted ctx.component).run (.ofBytes body)
    unless cursor.atEnd do throw (.attributeLength "Record" body.length cursor.offset)
    return components

end Context

def Layout.supertypes (layout : Layout) : Except DecodeError (Supertypes String) :=
  match layout.attributes.signature with
  | some signature => do
    let s ← Signature.run Signature.classBody signature
    return ⟨s.typeParameters, some s.superclass, s.interfaces⟩
  | none =>
    .ok ⟨[], layout.superName.map fun n => .named (binaryName n),
      layout.interfaces.map fun n => .named (binaryName n)⟩

/-- The class that a class file states. Its annotations are in the order class, fields, methods,
record components. -/
def Layout.draft (invisible : Bool) (layout : Layout) : Except DecodeError (Draft String) := do
  let name := binaryName layout.name
  let ⟨nesting, flags⟩ ← layout.nesting
  let types ← layout.supertypes
  let ctx : Context := ⟨layout.pool, invisible, name⟩
  let onClass ← ctx.declaredOn layout.attributes (.type name)
  let classTypeUses ← ctx.typeUsesIn layout.attributes (.type name)
  let fields ← layout.fields.mapM ctx.field
  let methods ← ctx.methodsFrom 0 layout.methods
  let components ← ctx.components layout.attributes
  return {
    name := name
    flags := flags
    superName := layout.superName.map binaryName
    types := types
    fields := fields.map (·.decl)
    methods := methods.map (·.decl)
    components := components.map (·.decl)
    annotations := onClass ++ fields.flatMap (·.annotations) ++ methods.flatMap (·.annotations)
      ++ components.flatMap (·.annotations)
    typeUses := classTypeUses ++ fields.flatMap (·.typeUses) ++ methods.flatMap (·.typeUses)
      ++ components.flatMap (·.typeUses)
    nesting := nesting }

def draft (config : Config) (bytes : List UInt8) : Except DecodeError (Draft String) := do
  (← Layout.parse config bytes).draft config.invisible

def decode (config : Config) (bytes : List UInt8) : Except DecodeError (ClassDecl String) := do
  return (← draft config bytes).finish MethodDecl.constructorName id

end ClassCatalog.ClassFile
