/-! The flag word of classes and members. Bits without a meaning are kept. -/

namespace ClassCatalog

structure AccessFlags where
  bits : UInt16
  deriving DecidableEq, Repr

namespace AccessFlags

def accPublic : AccessFlags := ⟨0x0001⟩
def accPrivate : AccessFlags := ⟨0x0002⟩
def accProtected : AccessFlags := ⟨0x0004⟩
def accStatic : AccessFlags := ⟨0x0008⟩
def accFinal : AccessFlags := ⟨0x0010⟩
def accSynchronized : AccessFlags := ⟨0x0020⟩
def accVolatile : AccessFlags := ⟨0x0040⟩
def accTransient : AccessFlags := ⟨0x0080⟩
def accNative : AccessFlags := ⟨0x0100⟩
def accInterface : AccessFlags := ⟨0x0200⟩
def accAbstract : AccessFlags := ⟨0x0400⟩
def accSynthetic : AccessFlags := ⟨0x1000⟩
def accAnnotationType : AccessFlags := ⟨0x2000⟩
def accEnum : AccessFlags := ⟨0x4000⟩

def has (flags flag : AccessFlags) : Bool := flags.bits &&& flag.bits == flag.bits

def without (flags flag : AccessFlags) : AccessFlags := ⟨flags.bits &&& ~~~flag.bits⟩

end AccessFlags

end ClassCatalog
