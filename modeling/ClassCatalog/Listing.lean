import ClassCatalog.Index
import ClassCatalog.Value.Display

/-! Listings of classes. A listing has a section for the class and for each member; the
annotations of a section stand under its heading. -/

namespace ClassCatalog.Listing

inductive Place where
  | declared
  | typeUse (target : TypeTarget String)
  | parameter (position : Nat)

structure Entry where
  place : Place
  use : AnnotationUse String

def Entry.text (e : Entry) : String :=
  match e.place with
  | .declared => e.use.display
  | .typeUse t => e.use.display ++ " on " ++ t.use.display ++ ": " ++ t.ty.display
  | .parameter position => "parameter " ++ toString position ++ " " ++ e.use.display

structure Section where
  subject : DeclRef String
  heading : List String
  indent : Nat
  entries : List Entry

def indented (n : Nat) (line : String) : String := String.ofList (List.replicate n ' ') ++ line

def Section.lines (s : Section) : List String :=
  s.heading ++ s.entries.map fun e => indented s.indent e.text

def typeUseIn? (d : DeclRef String) (a : AnnotationUse String) : Option Entry :=
  match a.target with
  | some (.typeUse t) => if t.enclosing = d then some ⟨.typeUse t, a⟩ else none
  | _ => none

def entriesOf (c : ClassDecl String) (d : DeclRef String) : List Entry :=
  (c.declaredOn d).map (Entry.mk .declared) ++ c.annotations.filterMap (typeUseIn? d)

def parameterEntries (c : ClassDecl String) (m : MethodDecl String) (index : Nat) : List Entry :=
  m.positions.flatMap fun position =>
    (c.annotationsOn (c.parameterTarget index position)).map (Entry.mk (.parameter position))

def modifiers (table : List (AccessFlags × String)) (flags : AccessFlags) : String :=
  String.join (table.map fun (flag, word) => if flags.has flag then word ++ " " else "")

def accessWords : List (AccessFlags × String) :=
  [(.accPublic, "public"), (.accProtected, "protected"), (.accPrivate, "private")]

def classWords : List (AccessFlags × String) :=
  accessWords ++ [(.accAbstract, "abstract"), (.accStatic, "static"), (.accFinal, "final")]

def fieldWords : List (AccessFlags × String) :=
  accessWords ++ [(.accStatic, "static"), (.accFinal, "final"), (.accVolatile, "volatile"),
    (.accTransient, "transient")]

def methodWords : List (AccessFlags × String) :=
  classWords ++ [(.accSynchronized, "synchronized"), (.accNative, "native")]

/-- The flags of a class that are listed. Every interface is abstract. -/
def listedFlags (flags : AccessFlags) : AccessFlags :=
  if flags.has .accInterface then flags.without .accAbstract else flags

def keyword (c : ClassDecl String) : String :=
  if c.flags.has .accAnnotationType then "@interface"
  else if c.flags.has .accInterface then "interface"
  else if c.flags.has .accEnum then "enum"
  else if c.isRecord then "record"
  else "class"

def nestingWords : NestingKind → Option String
  | .topLevel => none
  | .memberClass => some "member of"
  | .localClass => some "local class in"
  | .anonymousClass => some "anonymous class in"

def nestingLine? (n : Nesting String) : Option String :=
  (nestingWords n.kind).map fun words =>
    words ++ n.enclosingClass.elim "" (" " ++ ·)
      ++ n.enclosingMethod.elim "" fun e => " " ++ e.name ++ e.descriptor

def classLine (c : ClassDecl String) : String :=
  modifiers classWords (listedFlags c.flags) ++ keyword c ++ " " ++ c.name
    ++ Ty.displayArguments c.typeParameters

def interfacesLine? (interfaces : List (Ty String)) : Option String :=
  if interfaces.isEmpty then none else some ("implements " ++ Ty.displayList interfaces)

def classHeading (c : ClassDecl String) : List String :=
  let under := (c.superType.map fun t => "extends " ++ t.display).toList
    ++ (interfacesLine? c.interfaces).toList ++ (nestingLine? c.nesting).toList
  classLine c :: under.map (indented 2)

def fieldLine (f : FieldDecl String) : String :=
  "field " ++ modifiers fieldWords f.flags ++ f.ty.display ++ " " ++ f.name

def componentLine (k : ComponentDecl String) : String :=
  "component " ++ k.ty.display ++ " " ++ k.name

def parameterText (m : MethodDecl String) (ty : Ty String) (position : Nat) : String :=
  ty.display ++ (m.parameterName? position).elim "" (" " ++ ·)

def parametersText (m : MethodDecl String) : String :=
  ", ".intercalate (List.zipWith (parameterText m) m.parameters m.positions)

def methodLine (m : MethodDecl String) : String :=
  "method " ++ modifiers methodWords m.flags
    ++ (if m.typeParameters.isEmpty then "" else Ty.displayArguments m.typeParameters ++ " ")
    ++ m.returnType.display ++ " " ++ m.name ++ "(" ++ parametersText m ++ ")"
    ++ if m.exceptions.isEmpty then "" else " throws " ++ Ty.displayList m.exceptions

def methodHeading (m : MethodDecl String) : List String :=
  indented 2 (methodLine m) :: m.default.toList.map fun v => indented 4 ("default " ++ v.display)

def classSection (c : ClassDecl String) : Section :=
  ⟨c.ref, classHeading c, 2, entriesOf c c.ref⟩

def fieldSection (c : ClassDecl String) (f : FieldDecl String) : Section :=
  ⟨c.fieldRef f, [indented 2 (fieldLine f)], 4, entriesOf c (c.fieldRef f)⟩

def componentSection (c : ClassDecl String) (k : ComponentDecl String) : Section :=
  ⟨c.componentRef k, [indented 2 (componentLine k)], 4, entriesOf c (c.componentRef k)⟩

def methodSection (c : ClassDecl String) (m : MethodDecl String) (index : Nat) : Section :=
  ⟨c.methodRef index, methodHeading m, 4,
    entriesOf c (c.methodRef index) ++ parameterEntries c m index⟩

def sections (c : ClassDecl String) : List Section :=
  classSection c :: (c.fields.map (fieldSection c) ++ c.components.map (componentSection c)
    ++ c.methods.zipIdx.map fun (m, index) => methodSection c m index)

def joinLines (lines : List String) : String := String.join (lines.map (· ++ "\n"))

def ofClass (c : ClassDecl String) : String := joinLines ((sections c).flatMap Section.lines)

def countLine (n : Nat) : String := toString n ++ if n = 1 then " class" else " classes"

def ofIndex (i : Index) : String :=
  joinLines [countLine i.size] ++ String.join (i.classes.map fun c => "\n" ++ ofClass c)

end ClassCatalog.Listing
