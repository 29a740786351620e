/-! Numbers in base 128, least significant digit first; every byte but the last has its high bit
set. Signed numbers are folded into unsigned ones so that small magnitudes stay small. -/

namespace ClassCatalog.Archive

namespace Varint

/-- The digits of `n`, if there are at most `fuel + 1`. -/
def digits : Nat → Nat → List UInt8
  | 0, n => [UInt8.ofNat (n % 128)]
  | fuel + 1, n =>
    if n < 128 then [UInt8.ofNat n] else UInt8.ofNat (n % 128 + 128) :: digits fuel (n / 128)

def encode (n : Nat) : List UInt8 := digits n n

end Varint

namespace Zigzag

def encode : Int → Nat
  | .ofNat n => 2 * n
  | .negSucc n => 2 * n + 1

def decode (n : Nat) : Int := if n % 2 = 0 then .ofNat (n / 2) else .negSucc (n / 2)

theorem decode_encode (z : Int) : decode (encode z) = z := by
  cases z with
  | ofNat n => simp [encode, decode]
  | negSucc n =>
    have h : (2 * n + 1) % 2 ≠ 0 := by omega
    have h' : (2 * n + 1) / 2 = n := by omega
    simp only [encode, decode, if_neg h, h']

theorem encode_decode (n : Nat) : encode (decode n) = n := by
  simp only [decode]
  split
  · simp only [encode]
    omega
  · simp only [encode]
    omega

end Zigzag

def littleEndianBytes : Nat → Nat → List UInt8
  | 0, _ => []
  | width + 1, n => UInt8.ofNat (n % 256) :: littleEndianBytes width (n / 256)

end ClassCatalog.Archive
