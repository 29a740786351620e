import ClassCatalog.Index.Error

/-! Why an archive cannot be read. -/

namespace ClassCatalog

/-- Without the error of a full name table, as in `NameTable.intern`. -/
inductive ArchiveError where
  | invalidMagic (found : List UInt8)
  | unsupportedVersion (version : Nat)
  | unexpectedEnd (offset : Nat)
  | invalidUtf8 (offset : Nat)
  | badReference (table : String) (slot : Nat)
  | invalidTag (what : String) (tag : Nat)
  | varintOverflow (offset : Nat)
  | typeTooDeep (slot : Nat)
  | typeTooLarge (slot : Nat)
  | trailingBytes (count : Nat)
  | indexing (error : IndexError)
  deriving DecidableEq, Repr

namespace ArchiveError

def message : ArchiveError → String
  | invalidMagic found =>
    "not a clasp index (magic [" ++ ", ".intercalate (found.map fun b => Text.hex 2 b.toNat) ++ "])"
  | unsupportedVersion version =>
    "unsupported index format version " ++ toString version ++ " (supported: 1..=3)"
  | unexpectedEnd offset => "unexpected end of index data at offset " ++ toString offset
  | invalidUtf8 offset => "invalid UTF-8 string at offset " ++ toString offset
  | badReference table slot => table ++ " reference " ++ toString slot ++ " is out of range"
  | invalidTag what tag => "invalid " ++ what ++ " tag " ++ toString tag
  | varintOverflow offset => "varint at offset " ++ toString offset ++ " overflows its target type"
  | typeTooDeep slot => "type " ++ toString slot ++ " nests deeper than 256 levels"
  | typeTooLarge slot => "type " ++ toString slot ++ " expands past the node limit for this input"
  | trailingBytes count => toString count ++ " bytes after the last class"
  | indexing error => error.message

def category : ArchiveError → Category
  | unsupportedVersion _ => .unsupportedVersion
  | indexing error => error.category
  | _ => .malformedInput

end ArchiveError

end ClassCatalog
