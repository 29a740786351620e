import ClassCatalog.Archive.Error
import ClassCatalog.Files.Tree

/-! Why a command cannot do its work. Class files that `index` leaves out are no failure of the
command. -/

namespace ClassCatalog.Command

inductive Misuse where
  | missingValue (flag : String)
  | notVersion (value : String)
  | wrongVersion (error : ArchiveError)
  | notThreadCount (value : String)
  | unknownOption (argument : String)
  | missingInput
  | missingClassFile
  | manyClassFiles
  deriving DecidableEq, Repr

def Misuse.message : Misuse → String
  | missingValue flag => flag ++ " requires a value"
  | notVersion value => "--format-version: `" ++ value ++ "` is not a version"
  | wrongVersion error => "--format-version: " ++ error.message
  | notThreadCount value => "--threads: `" ++ value ++ "` is not a thread count"
  | unknownOption argument => "unknown option `" ++ argument ++ "`"
  | missingInput => "missing input path"
  | missingClassFile => "missing class file path"
  | manyClassFiles => "inspect takes a single class file"

inductive Failure where
  | usage (misuse : Misuse)
  | missingInput (path : String)
  | noClassFiles
  | read (path : String) (fault : Files.Fault)
  | write (path : String) (fault : Files.Fault)
  | decode (path : String) (error : DecodeError)
  | archive (path : String) (error : ArchiveError)
  deriving DecidableEq, Repr

namespace Failure

def readMessage (path : String) : Files.Fault → String
  | .notFound => "cannot find file '" ++ path ++ "'"
  | .permissionDenied => "permission denied reading '" ++ path ++ "'"
  | fault => "error reading '" ++ path ++ "': " ++ fault.message

def message : Failure → String
  | usage misuse => misuse.message
  | missingInput path => "cannot find '" ++ path ++ "'"
  | noClassFiles => "no .class files found under the given paths"
  | read path fault => readMessage path fault
  | write path fault => "error writing '" ++ path ++ "': " ++ fault.message
  | decode path error => "'" ++ path ++ "': " ++ error.message
  | archive path error => "'" ++ path ++ "': " ++ error.message

end Failure

end ClassCatalog.Command
