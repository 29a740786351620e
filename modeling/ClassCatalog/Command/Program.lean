import ClassCatalog.Command.Actions
import ClassCatalog.Listing

/-! The program as a whole: from its arguments to its exit code and the lines it prints. -/

namespace ClassCatalog.Command

structure Exit where
  code : Nat
  out : String
  err : String
  deriving DecidableEq, Repr

namespace Exit

def success (out : String) : Exit := ⟨0, out, ""⟩

def failed (lines : List String) : Exit := ⟨1, "", Listing.joinLines lines⟩

def ofFailure (failure : Failure) : Exit :=
  let hint := match failure with
    | .usage _ => ["Run `clasp help` for usage."]
    | _ => []
  failed (("error: " ++ failure.message) :: hint)

end Exit

def version : String := "0.1.0-alpha.1"

def indexOptionLines : List String :=
  ["  -o <path>               Output file (default: index.clsp)",
    "  --format-version=<n>    Write an older index format: 1, 2, 3",
    "  --no-invisible          Drop CLASS-retention annotations",
    "  --threads=<n>           Decoder threads (default: all cores)"]

def usageLines : List String :=
  ["clasp - offline index of JVM class files",
    "",
    "Usage: clasp <command> [options]",
    "",
    "Commands:",
    "  index <path>...      Decode .class files under the paths and write an index",
    "  dump <index.clsp>    List the classes, members and annotations of an index",
    "  inspect <file.class> Decode one class file and list it",
    "  help                 Show this help message",
    "  version              Show version information",
    "",
    "Index options:"]
    ++ indexOptionLines
    ++ ["",
    "Logging:",
    "  CLASP_LOG=<filter>      tracing filter, e.g. `debug` or `clasp_index=info`"]

def usage : String := Listing.joinLines usageLines

def indexUsageLines : List String :=
  ["Usage: clasp index <path>... [options]", "", "Options:"] ++ indexOptionLines

/-- The report of `index`. Files that were left out make the run fail, after the index is
written. -/
def Exit.ofIndex (o : IndexOptions) (outcome : IndexOutcome) : Exit where
  code := if outcome.failures.isEmpty then 0 else 1
  out := Listing.joinLines
    ["indexed " ++ toString outcome.classes ++ " classes from " ++ toString outcome.files
      ++ " files into " ++ o.output ++ " (format v" ++ toString outcome.version.number ++ ", "
      ++ toString outcome.bytesWritten ++ " bytes)"]
  err := Listing.joinLines
    ((outcome.failures.map fun f => "error: " ++ f.origin ++ ": " ++ f.error.message)
      ++ if outcome.failures.isEmpty then []
        else [toString outcome.failures.length ++ " files failed to decode"])

variable {m : Type → Type} [Monad m] [MonadFiles m]

def report {α : Type} (action : Action m α) (exit : α → Exit) : m Exit := do
  match ← action.run with
  | .ok result => return exit result
  | .error failure => return .ofFailure failure

def run : List String → m Exit
  | [] => return .success usage
  | command :: rest =>
    match command with
    | "index" =>
      if rest.isEmpty then return .failed indexUsageLines
      else report (indexWith rest) fun (o, outcome) => .ofIndex o outcome
    | "dump" =>
      match rest with
      | [path] => report (load path) fun i => .success (Listing.ofIndex i)
      | _ => return .failed ["Usage: clasp dump <index.clsp>"]
    | "inspect" =>
      if rest.isEmpty then return .failed ["Usage: clasp inspect <file.class> [--no-invisible]"]
      else report (inspectWith rest) fun c => .success (Listing.ofClass c)
    | "help" | "--help" | "-h" => return .success usage
    | "version" | "--version" | "-V" => return .success (Listing.joinLines ["clasp " ++ version])
    | _ =>
      return ⟨1, usage, Listing.joinLines ["Unknown command: " ++ command, ""]⟩

end ClassCatalog.Command
