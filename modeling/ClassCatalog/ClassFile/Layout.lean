import ClassCatalog.AccessFlags
import ClassCatalog.ClassFile.Config
import ClassCatalog.ClassFile.ConstantPool

/-! A class file split into its parts, before any attribute but the signature is looked into. -/

namespace ClassCatalog.ClassFile

/-- The attributes of a table: the text of its last signature, and the bodies of the others with
the last one first. -/
structure Attributes where
  signature : Option String
  bodies : List (String × List UInt8)

namespace Attributes

def body? (attributes : Attributes) (name : String) : Option (List UInt8) :=
  (attributes.bodies.find? (·.1 = name)).map (·.2)

def signatureText (pool : ConstantPool) (body : List UInt8) : Except DecodeError String :=
  if body.length = 2 then pool.utf8 (bigEndian body)
  else .error (.attributeLength "Signature" body.length 2)

def add (pool : ConstantPool) (attributes : Attributes) (name : String) (body : List UInt8) :
    Except DecodeError Attributes :=
  if name = "Signature" then do
    return { attributes with signature := some (← signatureText pool body) }
  else .ok { attributes with bodies := (name, body) :: attributes.bodies }

def readMore (pool : ConstantPool) : Nat → Attributes → Reader Attributes
  | 0, attributes => pure attributes
  | n + 1, attributes => do
    let name ← pool.utf8 (← Reader.u2)
    let body ← Reader.sized
    readMore pool n (← attributes.add pool name body)

def read (pool : ConstantPool) : Reader Attributes := do
  readMore pool (← Reader.u2) ⟨none, []⟩

end Attributes

structure MemberLayout where
  flags : AccessFlags
  name : String
  descriptor : String
  attributes : Attributes

def MemberLayout.read (pool : ConstantPool) : Reader MemberLayout := do
  let flags ← Reader.word
  let name ← pool.utf8 (← Reader.u2)
  let descriptor ← pool.utf8 (← Reader.u2)
  let attributes ← Attributes.read pool
  return ⟨⟨flags⟩, name, descriptor, attributes⟩

structure Layout where
  pool : ConstantPool
  flags : AccessFlags
  name : String
  superName : Option String
  interfaces : List String
  fields : List MemberLayout
  methods : List MemberLayout
  attributes : Attributes

namespace Layout

def magic : Nat := 0xCAFEBABE

def readHeader (config : Config) : Reader Unit := do
  let found ← Reader.u4
  unless found = magic do throw (.invalidMagic found)
  let minor ← Reader.u2
  let major ← Reader.u2
  unless config.acceptsMajor major do throw (.unsupportedVersion major minor)

def read (config : Config) : Reader Layout := do
  readHeader config
  let pool ← ConstantPool.read
  let flags ← Reader.word
  let name ← pool.className (← Reader.u2)
  let superName ← pool.className? (← Reader.u2)
  let interfaces ← Reader.counted do pool.className (← Reader.u2)
  let fields ← Reader.counted (MemberLayout.read pool)
  let methods ← Reader.counted (MemberLayout.read pool)
  let attributes ← Attributes.read pool
  return ⟨pool, ⟨flags⟩, name, superName, interfaces, fields, methods, attributes⟩

def parse (config : Config) (bytes : List UInt8) : Except DecodeError Layout := do
  let (layout, cursor) ← (read config).run (.ofBytes bytes)
  unless cursor.atEnd do throw (.trailingBytes cursor.rest.length)
  return layout

end Layout

end ClassCatalog.ClassFile
