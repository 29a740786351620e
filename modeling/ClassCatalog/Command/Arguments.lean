import ClassCatalog.Archive.Version
import ClassCatalog.ClassFile.Config
import ClassCatalog.Command.Failure

/-! The arguments of the commands. A long flag takes its value after an equals sign or from the
next argument, a short one from the next argument only. -/

namespace ClassCatalog.Command

def number? (limit : Nat) (text : String) : Option Nat :=
  let digits := match text.toList with
    | '+' :: rest => rest
    | all => all
  if digits.isEmpty || !digits.all Char.isDigit then none
  else
    let n := digits.foldl (fun n c => n * 10 + (c.toNat - '0'.toNat)) 0
    if n < limit then some n else none

def splitFlag (argument : String) : String × Option String :=
  match argument.toList with
  | '-' :: '-' :: _ =>
    match Text.splitFirst '=' argument.toList with
    | some (flag, value) => (String.ofList flag, some (String.ofList value))
    | none => (argument, none)
  | _ => (argument, none)

def startsWithDash (argument : String) : Bool := argument.toList.head? = some '-'

structure IndexOptions where
  inputs : List String
  output : String
  version : Archive.Version
  includeInvisible : Bool
  /-- How many decoders may work at a time; zero leaves it open. -/
  threads : Nat
  deriving DecidableEq, Repr

namespace IndexOptions

def default : IndexOptions := ⟨[], "index.clsp", .current, true, 0⟩

def config (o : IndexOptions) : ClassFile.Config :=
  { ClassFile.Config.standard with invisible := o.includeInvisible }

end IndexOptions

inductive Setting where
  | output
  | formatVersion
  | threads
  deriving DecidableEq, Repr

namespace Setting

def ofFlag? : String → Option Setting
  | "-o" => some output
  | "--output" => some output
  | "--format-version" => some formatVersion
  | "--threads" => some threads
  | _ => none

def apply (o : IndexOptions) (value : String) : Setting → Except Misuse IndexOptions
  | output => .ok { o with output := value }
  | formatVersion =>
    match number? UInt8.size value with
    | none => .error (.notVersion value)
    | some n =>
      match Archive.Version.ofNumber n with
      | .ok version => .ok { o with version := version }
      | .error error => .error (.wrongVersion error)
  | threads =>
    match number? UInt64.size value with
    | none => .error (.notThreadCount value)
    | some n => .ok { o with threads := n }

end Setting

namespace IndexOptions

def plain (o : IndexOptions) (argument flag : String) : Except Misuse IndexOptions :=
  if flag = "--no-invisible" then .ok { o with includeInvisible := false }
  else if startsWithDash argument && argument ≠ "-" then .error (.unknownOption argument)
  else .ok { o with inputs := o.inputs ++ [argument] }

/-- Takes up arguments from left to right, so that the last one of a kind counts. -/
def addAll (o : IndexOptions) : List String → Except Misuse IndexOptions
  | [] => .ok o
  | argument :: rest =>
    let (flag, inline) := splitFlag argument
    match Setting.ofFlag? flag, inline, rest with
    | none, _, rest => do addAll (← o.plain argument flag) rest
    | some setting, some value, rest => do addAll (← setting.apply o value) rest
    | some setting, none, value :: rest => do addAll (← setting.apply o value) rest
    | some _, none, [] => .error (.missingValue flag)

def parse (arguments : List String) : Except Misuse IndexOptions := do
  let o ← default.addAll arguments
  if o.inputs.isEmpty then throw .missingInput
  return o

end IndexOptions

structure InspectOptions where
  path : String
  includeInvisible : Bool
  deriving DecidableEq, Repr

namespace InspectOptions

def config (o : InspectOptions) : ClassFile.Config :=
  { ClassFile.Config.standard with invisible := o.includeInvisible }

def addAll (path : Option String) (includeInvisible : Bool) :
    List String → Except Misuse InspectOptions
  | [] =>
    match path with
    | some path => .ok ⟨path, includeInvisible⟩
    | none => .error .missingClassFile
  | argument :: rest =>
    if argument = "--no-invisible" then addAll path false rest
    else if startsWithDash argument then .error (.unknownOption argument)
    else if path.isNone then addAll (some argument) includeInvisible rest
    else .error .manyClassFiles

def parse (arguments : List String) : Except Misuse InspectOptions := addAll none true arguments

end InspectOptions

end ClassCatalog.Command
