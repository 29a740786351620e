import ClassCatalog.ClassDecl
import ClassCatalog.ClassFile.Descriptor
import ClassCatalog.ClassFile.Layout

/-! How a class is nested in others. -/

namespace ClassCatalog.ClassFile

/-- What is known so far: the nesting, and the flags, which the entry of a nested class replaces
by those of its source. -/
structure NestingState where
  nesting : Nesting String
  flags : AccessFlags

namespace NestingState

def describe (s : NestingState) (outer simpleName : Option String) (flags : AccessFlags) :
    NestingState :=
  let nesting : Nesting String := { s.nesting with simpleName := simpleName }
  match outer, simpleName with
  | some outer, _ =>
    ⟨{ nesting with kind := .memberClass, enclosingClass := some (binaryName outer) }, flags⟩
  | none, some _ => ⟨{ nesting with kind := .localClass }, flags⟩
  | none, none => ⟨{ nesting with kind := .anonymousClass }, flags⟩

def readEntries (pool : ConstantPool) (name : String) : Nat → NestingState → Reader NestingState
  | 0, s => pure s
  | n + 1, s => do
    let inner ← Reader.u2
    let outer ← Reader.u2
    let simple ← Reader.u2
    let flags ← Reader.word
    if (← pool.className inner) = name then
      let simpleName ← pool.utf8? simple
      let outerName ← pool.className? outer
      readEntries pool name n (s.describe outerName simpleName ⟨flags⟩)
    else readEntries pool name n s

/-- Takes in the enclosing class and method. The class counts only if none is known. -/
def enclose (s : NestingState) (owner : String) (method : Option (String × String)) :
    NestingState :=
  { s with
    nesting :=
      { s.nesting with
        kind :=
          if s.nesting.kind = .topLevel then
            if s.nesting.simpleName.isSome then .localClass else .anonymousClass
          else s.nesting.kind
        enclosingClass := some (s.nesting.enclosingClass.getD owner)
        enclosingMethod := method.map fun (name, descriptor) => ⟨owner, name, descriptor⟩ } }

def readEnclosing (pool : ConstantPool) (s : NestingState) : Reader NestingState := do
  let owner ← pool.className (← Reader.u2)
  let method ← Reader.u2
  if method = 0 then return s.enclose (binaryName owner) none
  else return s.enclose (binaryName owner) (some (← pool.nameAndType method))

end NestingState

def Layout.nesting (layout : Layout) : Except DecodeError NestingState := do
  let start : NestingState := ⟨.topLevel, layout.flags⟩
  let described ←
    match layout.attributes.body? "InnerClasses" with
    | none => pure start
    | some body =>
      Reader.value (do
        NestingState.readEntries layout.pool layout.name (← Reader.u2) start) body
  match layout.attributes.body? "EnclosingMethod" with
  | none => return described
  | some body => (described.readEnclosing layout.pool).value body

end ClassCatalog.ClassFile
