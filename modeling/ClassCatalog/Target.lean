import ClassCatalog.Ty.Equality
import ClassCatalog.Ty.Path

/-! What an annotation stands on. Targets refer to declarations by name or position and never
hold them. -/

namespace ClassCatalog

/-- A reference to a declaration: methods by their position in the class, since overloads share
a name, all else by name. -/
inductive DeclRef (ν : Type) where
  | type (name : ν)
  | field (owner name : ν)
  | method (owner : ν) (index : UInt32)
  | component (owner name : ν)
  deriving DecidableEq, Repr

theorem DeclRef.method_ofNat_inj {ν : Type} {owner : ν} {i j : Nat} (hi : i < UInt32.size)
    (hj : j < UInt32.size) :
    DeclRef.method owner (UInt32.ofNat i) = .method owner (UInt32.ofNat j) ↔ i = j := by
  constructor
  · intro h
    injection h with _ hindex
    have hnat := congrArg UInt32.toNat hindex
    rwa [UInt32.toNat_ofNat_of_lt' hi, UInt32.toNat_ofNat_of_lt' hj] at hnat
  · rintro rfl
    rfl

def DeclRef.declaringClass {ν : Type} : DeclRef ν → ν
  | type c | field c _ | method c _ | component c _ => c

inductive Usage where
  | plain | supertype | methodParameter | typeParameter | typeParameterBound | thrown
  deriving DecidableEq, Repr

namespace Usage

def label : Usage → String
  | plain => "empty type target"
  | supertype => "class extends type target"
  | methodParameter => "method parameter type target"
  | typeParameter => "type parameter type target"
  | typeParameterBound => "type parameter bound type target"
  | thrown => "throws type target"

def isPositional : Usage → Bool
  | methodParameter | typeParameter | typeParameterBound | thrown => true
  | plain | supertype => false

end Usage

inductive TypeUse where
  | classTypeParameter (position : UInt8)
  | methodTypeParameter (position : UInt8)
  /-- The interface at `index`, or the superclass at 65535. -/
  | supertype (index : UInt16)
  | classTypeParameterBound (parameter bound : UInt8)
  | methodTypeParameterBound (parameter bound : UInt8)
  | field
  | returnType
  | receiver
  | formalParameter (position : UInt8)
  | thrown (index : UInt16)
  deriving DecidableEq, Repr

namespace TypeUse

def superclass : UInt16 := 0xFFFF

def code : TypeUse → UInt8
  | classTypeParameter _ => 0x00
  | methodTypeParameter _ => 0x01
  | supertype _ => 0x10
  | classTypeParameterBound .. => 0x11
  | methodTypeParameterBound .. => 0x12
  | field => 0x13
  | returnType => 0x14
  | receiver => 0x15
  | formalParameter _ => 0x16
  | thrown _ => 0x17

def usage : TypeUse → Usage
  | classTypeParameter _ | methodTypeParameter _ => .typeParameter
  | supertype _ => .supertype
  | classTypeParameterBound .. | methodTypeParameterBound .. => .typeParameterBound
  | field | returnType | receiver => .plain
  | formalParameter _ => .methodParameter
  | thrown _ => .thrown

def position? : TypeUse → Option Nat
  | classTypeParameter p | methodTypeParameter p | formalParameter p
  | classTypeParameterBound p _ | methodTypeParameterBound p _ => some p.toNat
  | thrown p => some p.toNat
  | supertype _ | field | returnType | receiver => none

private def wrongUse (u : TypeUse) (expected : Usage) : WrongKind :=
  ⟨expected.label, u.usage.label⟩

def asTypeParameter : TypeUse → Except WrongKind UInt8
  | classTypeParameter p | methodTypeParameter p => .ok p
  | u => .error (wrongUse u .typeParameter)

def asTypeParameterBound : TypeUse → Except WrongKind (UInt8 × UInt8)
  | classTypeParameterBound p b | methodTypeParameterBound p b => .ok (p, b)
  | u => .error (wrongUse u .typeParameterBound)

def asSupertype : TypeUse → Except WrongKind UInt16
  | supertype i => .ok i
  | u => .error (wrongUse u .supertype)

def asMethodParameter : TypeUse → Except WrongKind UInt8
  | formalParameter p => .ok p
  | u => .error (wrongUse u .methodParameter)

def asThrown : TypeUse → Except WrongKind UInt16
  | thrown i => .ok i
  | u => .error (wrongUse u .thrown)

def asPlain : TypeUse → Except WrongKind Bool
  | field | returnType => .ok false
  | receiver => .ok true
  | u => .error (wrongUse u .plain)

end TypeUse

structure TypeTarget (ν : Type) where
  enclosing : DeclRef ν
  use : TypeUse
  path : List PathStep
  ty : Ty ν
  deriving DecidableEq, Repr

inductive Target (ν : Type) where
  | declaration (ref : DeclRef ν)
  | parameter (owner : ν) (method : UInt32) (position : UInt16)
  | typeUse (target : TypeTarget ν)
  deriving DecidableEq, Repr

namespace Target

variable {ν : Type}

def label : Target ν → String
  | declaration (.type _) => "class"
  | declaration (.field ..) => "field"
  | declaration (.method ..) => "method"
  | declaration (.component ..) => "record component"
  | parameter .. => "method parameter"
  | typeUse _ => "type"

def declaringClass : Target ν → ν
  | declaration d => d.declaringClass
  | parameter c _ _ => c
  | typeUse t => t.enclosing.declaringClass

/-- The declaration that a target is, or lies in: parameters lie in their method. -/
def belongsTo : Target ν → DeclRef ν
  | declaration d => d
  | parameter c m _ => .method c m
  | typeUse t => t.enclosing

private def wrongTarget (t : Target ν) (expected : String) : WrongKind := ⟨expected, t.label⟩

def asClass : Target ν → Except WrongKind ν
  | declaration (.type c) => .ok c
  | t => .error (wrongTarget t "class")

def asField : Target ν → Except WrongKind (ν × ν)
  | declaration (.field c n) => .ok (c, n)
  | t => .error (wrongTarget t "field")

def asMethod : Target ν → Except WrongKind (ν × UInt32)
  | declaration (.method c i) => .ok (c, i)
  | t => .error (wrongTarget t "method")

def asParameter : Target ν → Except WrongKind (ν × UInt32 × UInt16)
  | parameter c m p => .ok (c, m, p)
  | t => .error (wrongTarget t "method parameter")

def asComponent : Target ν → Except WrongKind (ν × ν)
  | declaration (.component c n) => .ok (c, n)
  | t => .error (wrongTarget t "record component")

def asTypeUse : Target ν → Except WrongKind (TypeTarget ν)
  | typeUse t => .ok t
  | t => .error (wrongTarget t "type")

end Target

end ClassCatalog
