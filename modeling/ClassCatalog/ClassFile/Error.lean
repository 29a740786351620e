import ClassCatalog.Category
import ClassCatalog.Text.Escape

/-! Why a class file cannot be decoded. -/

namespace ClassCatalog

inductive SignatureFault where
  | unterminatedIdentifier
  | emptyIdentifier
  | emptyTypeParameters
  | missingBoundColon
  | expectedReferenceType
  | tooManyDimensions
  | expectedTypeVariable
  | expectedClassType
  | missingSemicolon
  | unterminatedArguments
  | emptyArguments
  | missingParameters
  | trailing
  deriving DecidableEq, Repr

def SignatureFault.message : SignatureFault → String
  | unterminatedIdentifier => "unterminated identifier"
  | emptyIdentifier => "empty identifier"
  | emptyTypeParameters => "empty type parameter list"
  | missingBoundColon => "expected `:` after type parameter"
  | expectedReferenceType => "expected reference type"
  | tooManyDimensions => "too many array dimensions"
  | expectedTypeVariable => "expected type variable"
  | expectedClassType => "expected class type"
  | missingSemicolon => "expected `;` after class type"
  | unterminatedArguments => "unterminated type arguments"
  | emptyArguments => "empty type argument list"
  | missingParameters => "expected `(`"
  | trailing => "trailing characters"

inductive Nested where
  | signature
  | elementValue
  deriving DecidableEq, Repr

namespace Nested

def label : Nested → String
  | signature => "signature"
  | elementValue => "annotation value"

def limit : Nested → Nat
  | signature => 256
  | elementValue => 128

end Nested

/-- Without the error of a full name table, as in `NameTable.intern`. -/
inductive DecodeError where
  | unexpectedEnd (offset needed : Nat)
  | invalidMagic (magic : Nat)
  | unsupportedVersion (major minor : Nat)
  | invalidConstantTag (index tag : Nat)
  | badConstantIndex (index : Nat)
  | wrongConstantKind (index : Nat) (expected found : String)
  | invalidModifiedUtf8 (index : Nat)
  | invalidDescriptor (descriptor : String)
  | invalidSignature (signature : String) (position : Nat) (fault : SignatureFault)
  | invalidElementTag (tag : UInt8)
  | constantOutOfRange (tag : Char) (value : Int)
  | attributeLength (name : String) (declared consumed : Nat)
  | nestingTooDeep (what : Nested)
  | trailingBytes (count : Nat)
  deriving DecidableEq, Repr

namespace DecodeError

def message : DecodeError → String
  | unexpectedEnd offset needed =>
    "unexpected end of input at offset " ++ toString offset ++ " (needed " ++ toString needed
      ++ " more bytes)"
  | invalidMagic magic => "invalid class file magic 0x" ++ Text.hex 8 magic
  | unsupportedVersion major minor =>
    "unsupported class file version " ++ toString major ++ "." ++ toString minor
  | invalidConstantTag index tag =>
    "invalid constant pool tag " ++ toString tag ++ " at index " ++ toString index
  | badConstantIndex index =>
    "constant pool index " ++ toString index ++ " is out of range or unusable"
  | wrongConstantKind index expected found =>
    "constant pool index " ++ toString index ++ ": expected " ++ expected ++ ", found " ++ found
  | invalidModifiedUtf8 index =>
    "constant pool index " ++ toString index ++ " is not valid modified UTF-8"
  | invalidDescriptor descriptor => "malformed descriptor `" ++ descriptor ++ "`"
  | invalidSignature signature position fault =>
    "malformed signature `" ++ signature ++ "` at " ++ toString position ++ ": " ++ fault.message
  | invalidElementTag tag => "invalid element value tag " ++ Text.quoteChar (Char.ofNat tag.toNat)
  | constantOutOfRange tag value =>
    "constant " ++ toString value ++ " does not fit element value tag " ++ Text.quoteChar tag
  | attributeLength name declared consumed =>
    "attribute `" ++ name ++ "` declares " ++ toString declared ++ " bytes but "
      ++ toString consumed ++ " were read"
  | nestingTooDeep what =>
    what.label ++ " nested deeper than " ++ toString what.limit ++ " levels"
  | trailingBytes count => "trailing bytes after class file (" ++ toString count ++ " bytes)"

def category (_ : DecodeError) : Category := .malformedInput

end DecodeError

end ClassCatalog
