import ClassCatalog.ClassDecl
import ClassCatalog.Decimal.Style
import ClassCatalog.Text.Escape
import ClassCatalog.Ty.Display

/-! Annotations and their values in the syntax of source code. -/

namespace ClassCatalog

def Decimal.Style.listed : Decimal.Style := ⟨-4, 16⟩

namespace Value

/-- A code unit between quotes; half of a surrogate pair is no character and is shown by its
number. -/
def displayUnit (unit : UInt16) : String :=
  let n := unit.toNat
  if 0xD800 ≤ n ∧ n ≤ 0xDFFF then "'\\u" ++ Text.hex 4 n ++ "'"
  else "'" ++ Text.escapeChar (Char.ofNat n) ++ "'"

def visibilityMark (visible : Bool) : String := if visible then "" else " (invisible)"

mutual

def display : Value String → String
  | byte v => "(byte) " ++ toString v.toInt
  | char unit => displayUnit unit
  | short v => "(short) " ++ toString v.toInt
  | int v => toString v.toInt
  | long v => toString v.toInt ++ "L"
  | float v => Decimal.renderNumber .listed .single v.fields ++ "f"
  | double v => Decimal.renderNumber .listed .double v.fields
  | boolean v => if v then "true" else "false"
  | string text => "\"" ++ Text.escape text ++ "\""
  | classLiteral ty => ty.display ++ ".class"
  | enumConstant type constant => type ++ "." ++ constant
  | nested name visible members => "@" ++ name ++ displayMembers members ++ visibilityMark visible
  | array [] => "\x7b\x7d"
  | array (v :: rest) => "\x7b" ++ v.display ++ displayMore rest ++ "\x7d"

/-- Members in parentheses, or nothing. A single member named `value` stands without its name. -/
def displayMembers : List (String × Value String) → String
  | [] => ""
  | (name, v) :: rest =>
    if name = "value" ∧ rest.isEmpty then "(" ++ v.display ++ ")"
    else "(" ++ name ++ " = " ++ v.display ++ displayMoreMembers rest ++ ")"

def displayMoreMembers : List (String × Value String) → String
  | [] => ""
  | (name, v) :: rest => ", " ++ name ++ " = " ++ v.display ++ displayMoreMembers rest

def displayMore : List (Value String) → String
  | [] => ""
  | v :: rest => ", " ++ v.display ++ displayMore rest

end

end Value

def AnnotationUse.display (a : AnnotationUse String) : String :=
  "@" ++ a.name ++ Value.displayMembers a.members ++ Value.visibilityMark a.visible

def TypeUse.display : TypeUse → String
  | classTypeParameter position | methodTypeParameter position =>
    "type parameter " ++ toString position.toNat
  | supertype index =>
    if index = superclass then "superclass" else "interface " ++ toString index.toNat
  | classTypeParameterBound parameter bound | methodTypeParameterBound parameter bound =>
    "bound " ++ toString bound.toNat ++ " of type parameter " ++ toString parameter.toNat
  | field => "field type"
  | returnType => "return type"
  | receiver => "receiver"
  | formalParameter position => "parameter " ++ toString position.toNat
  | thrown index => "throws " ++ toString index.toNat

end ClassCatalog
