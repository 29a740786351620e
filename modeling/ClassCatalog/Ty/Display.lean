import ClassCatalog.Text.Split
import ClassCatalog.Ty

/-! Types in the syntax of source code. -/

namespace ClassCatalog.Ty

mutual

def display : Ty String → String
  | primitive p => p.keyword
  | void => "void"
  | named n | typeVariable n | unresolved n => n
  | array dimensions component =>
    component.display ++ String.join (List.replicate dimensions.toNat "[]")
  | parameterized n arguments => n ++ displayArguments arguments
  | inner owner n arguments =>
    owner.display ++ "." ++ Text.afterLast '$' n ++ displayArguments arguments
  | typeParameter n _ bounds => n ++ displayBounds " extends " bounds
  | wildcard _ => "?"
  | bounded isExtends bound => (if isExtends then "? extends " else "? super ") ++ bound.display

def displayArguments : List (Ty String) → String
  | [] => ""
  | t :: ts => "<" ++ t.display ++ displayMore ts ++ ">"

def displayMore : List (Ty String) → String
  | [] => ""
  | t :: ts => ", " ++ t.display ++ displayMore ts

def displayBounds (lead : String) : List (Ty String) → String
  | [] => ""
  | t :: ts => lead ++ t.display ++ displayBounds " & " ts

end

def displayList (types : List (Ty String)) : String := ", ".intercalate (types.map display)

end ClassCatalog.Ty
