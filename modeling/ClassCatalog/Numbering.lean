import Std.Data.HashMap

/-! Distinct values numbered in the order in which they first came. The slot of a value and the
value of a slot are kept side by side, and the type says that they agree. -/

namespace ClassCatalog

structure Numbering (α : Type) [BEq α] [Hashable α] where
  values : Array α
  slots : Std.HashMap α Nat
  agree : ∀ (a : α) (n : Nat), slots[a]? = some n ↔ values[n]? = some a

namespace Numbering

variable {α : Type} [BEq α] [Hashable α] [LawfulBEq α]

def empty : Numbering α where
  values := #[]
  slots := ∅
  agree := by simp

def size (t : Numbering α) : Nat := t.values.size

def slot? (t : Numbering α) (a : α) : Option Nat := t.slots[a]?

def value? (t : Numbering α) (n : Nat) : Option α := t.values[n]?

omit [LawfulBEq α] in
theorem slot?_eq_some_iff (t : Numbering α) (a : α) (n : Nat) :
    t.slot? a = some n ↔ t.value? n = some a := t.agree a n

/-- Gives a new value the next slot; a value that has a slot keeps it. -/
def add (t : Numbering α) (a : α) : Numbering α :=
  match h : t.slots[a]? with
  | some _ => t
  | none =>
    { values := t.values.push a
      slots := t.slots.insert a t.values.size
      agree := by
        intro b n
        have hb := t.agree b n
        rw [Std.HashMap.getElem?_insert, Array.getElem?_push]
        by_cases hab : a = b
        · subst hab
          have fresh : t.values[n]? ≠ some a := fun hn => by
            rw [(t.agree a n).2 hn] at h
            cases h
          by_cases hn : n = t.values.size
          · simp [hn]
          · simp [hn, fresh, Ne.symm hn]
        · have lt : t.values[n]? = some b → n ≠ t.values.size := by
            intro hn hs
            simp [hs] at hn
          by_cases hn : n = t.values.size
          · subst hn
            simp [hab, hb]
          · simp [hab, hn, hb] }

def number (t : Numbering α) (a : α) : Nat × Numbering α :=
  ((t.slot? a).getD t.size, t.add a)

def slot (t : Numbering α) (a : α) : Nat := (t.slot? a).getD 0

end Numbering

end ClassCatalog
