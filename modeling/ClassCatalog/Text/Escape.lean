import ClassCatalog.Text.Hex

/-! Characters as printable ASCII, and characters between quotes in a message. -/

namespace ClassCatalog.Text

def codePoint (c : Char) : String := "\\u\x7b" ++ hexShort c.toNat ++ "\x7d"

/-- Printable ASCII stands for itself; tab, line ends, quotes and the backslash have short forms;
all else is written as a code point. -/
def escapeChar (c : Char) : String :=
  if c = '\t' then "\\t"
  else if c = '\r' then "\\r"
  else if c = '\n' then "\\n"
  else if c = '\'' then "\\'"
  else if c = '"' then "\\\""
  else if c = '\\' then "\\\\"
  else if 0x20 ≤ c.toNat ∧ c.toNat ≤ 0x7e then c.toString
  else codePoint c

def escape (text : String) : String := String.join (text.toList.map escapeChar)

def isHidden (c : Char) : Bool :=
  c.toNat < 0x20 || (0x7f ≤ c.toNat && c.toNat ≤ 0xa0) || c.toNat == 0xad

def quoteChar (c : Char) : String :=
  let inside :=
    if c = '\x00' then "\\0"
    else if c = '\t' then "\\t"
    else if c = '\r' then "\\r"
    else if c = '\n' then "\\n"
    else if c = '\'' then "\\'"
    else if c = '\\' then "\\\\"
    else if isHidden c then codePoint c
    else c.toString
  "'" ++ inside ++ "'"

end ClassCatalog.Text
