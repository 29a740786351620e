/-! A position in a byte string: the bytes still to be read and how many were read before them. -/

namespace ClassCatalog

structure Cursor where
  rest : List UInt8
  offset : Nat
  deriving DecidableEq, Repr

namespace Cursor

def ofBytes (bytes : List UInt8) : Cursor := ⟨bytes, 0⟩

def atEnd (c : Cursor) : Bool := c.rest.isEmpty

def take? (n : Nat) (c : Cursor) : Option (List UInt8 × Cursor) :=
  let front := c.rest.take n
  if front.length = n then some (front, ⟨c.rest.drop n, c.offset + n⟩) else none

theorem take?_eq_some {n : Nat} {c d : Cursor} {front : List UInt8}
    (h : c.take? n = some (front, d)) :
    c.rest = front ++ d.rest ∧ front.length = n ∧ d.offset = c.offset + n := by
  simp only [take?] at h
  split at h
  · next hlen =>
    cases h
    exact ⟨(List.take_append_drop n c.rest).symm, hlen, rfl⟩
  · cases h

theorem take?_append (front rest : List UInt8) (offset : Nat) :
    take? front.length ⟨front ++ rest, offset⟩ = some (front, ⟨rest, offset + front.length⟩) := by
  simp [take?]

theorem take?_eq_none_iff (n : Nat) (c : Cursor) : c.take? n = none ↔ c.rest.length < n := by
  simp only [take?, List.length_take]
  split
  · constructor
    · intro h
      cases h
    · omega
  · constructor
    · omega
    · intro
      rfl

end Cursor

def bigEndian (bytes : List UInt8) : Nat := bytes.foldl (fun n b => n * 256 + b.toNat) 0

def littleEndian : List UInt8 → Nat
  | [] => 0
  | b :: bytes => b.toNat + 256 * littleEndian bytes

def times {m : Type → Type} [Monad m] {α : Type} : Nat → m α → m (List α)
  | 0, _ => pure []
  | n + 1, p => do
    let a ← p
    return a :: (← times n p)

end ClassCatalog
