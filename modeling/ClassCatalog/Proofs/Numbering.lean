import Mathlib.Data.List.Nodup
import ClassCatalog.Numbering

/-! A numbering only grows: values keep their slots, and adding a value gives it one. -/

namespace ClassCatalog.Numbering

variable {α : Type} [BEq α] [Hashable α]

/-- `u` has all values of `t` in the same slots. -/
def Extends (t u : Numbering α) : Prop := ∀ n a, t.value? n = some a → u.value? n = some a

theorem Extends.refl (t : Numbering α) : t.Extends t := fun _ _ h => h

theorem Extends.trans {t u w : Numbering α} (h : t.Extends u) (h' : u.Extends w) : t.Extends w :=
  fun n a hn => h' n a (h n a hn)

theorem Extends.slot? {t u : Numbering α} (h : t.Extends u) {a : α} {n : Nat}
    (hn : t.slot? a = some n) : u.slot? a = some n :=
  (u.slot?_eq_some_iff a n).2 (h n a ((t.slot?_eq_some_iff a n).1 hn))

theorem Extends.isPrefix {t u : Numbering α} (h : t.Extends u) :
    t.values.toList <+: u.values.toList := by
  rw [List.prefix_iff_getElem?]
  intro n hn
  have hvalue : t.value? n = some t.values.toList[n] := by simp [value?]
  rw [Array.getElem?_toList]
  exact h n _ hvalue

theorem slot_of_value? {t : Numbering α} {a : α} {n : Nat} (h : t.value? n = some a) :
    t.slot a = n := by
  rw [slot, (t.slot?_eq_some_iff a n).2 h, Option.getD_some]

theorem lt_size_of_value? {t : Numbering α} {a : α} {n : Nat} (h : t.value? n = some a) :
    n < t.size := by
  obtain ⟨hn, _⟩ := Array.getElem?_eq_some_iff.1 h
  exact hn

theorem slot_le_size (t : Numbering α) (a : α) : t.slot a ≤ t.size := by
  rw [slot]
  cases h : t.slot? a with
  | none => exact Nat.zero_le _
  | some n => exact Nat.le_of_lt (lt_size_of_value? ((t.slot?_eq_some_iff a n).1 h))

theorem slot?_eq_none {t : Numbering α} {a : α} (h : a ∉ t.values) : t.slot? a = none := by
  cases hs : t.slot? a with
  | none => rfl
  | some n => exact absurd (Array.mem_of_getElem? ((t.slot?_eq_some_iff a n).1 hs)) h

theorem nodup_values (t : Numbering α) :
    t.values.toList.Nodup := by
  rw [List.nodup_iff_getElem?_ne_getElem?]
  intro i j hij hj heq
  have hvalue : t.value? j = some t.values.toList[j] := by simp [value?]
  have hvalue' : t.value? i = some t.values.toList[j] := by
    rw [value?, ← Array.getElem?_toList, heq, List.getElem?_eq_getElem hj]
  have hslot := (t.slot?_eq_some_iff _ _).2 hvalue
  have hslot' := (t.slot?_eq_some_iff _ _).2 hvalue'
  have heq' : some i = some j := hslot'.symm.trans hslot
  exact absurd (Option.some.inj heq') (Nat.ne_of_lt hij)

variable [LawfulBEq α]

theorem add_of_slot? {t : Numbering α} {a : α} {n : Nat} (h : t.slot? a = some n) :
    t.add a = t := by
  rw [add]
  split
  · rfl
  · next hnone =>
    rw [slot?, hnone] at h
    cases h

theorem values_add_of_new {t : Numbering α} {a : α} (h : t.slot? a = none) :
    (t.add a).values = t.values.push a := by
  rw [add]
  split
  · next n hn =>
    rw [slot?, hn] at h
    cases h
  · rfl

theorem slot?_add_of_new {t : Numbering α} {a : α} (h : t.slot? a = none) (b : α) :
    (t.add a).slot? b = if a == b then some t.size else t.slot? b := by
  rw [add]
  split
  · next n hn =>
    rw [slot?, hn] at h
    cases h
  · exact Std.HashMap.getElem?_insert

theorem extends_add (t : Numbering α) (a : α) : t.Extends (t.add a) := by
  intro n b hn
  cases h : t.slot? a with
  | some m => rwa [add_of_slot? h]
  | none =>
    have hlt : n < t.values.size := lt_size_of_value? hn
    rw [value?, values_add_of_new h, Array.getElem?_push_lt hlt, ← Array.getElem?_eq_getElem hlt]
    exact hn

theorem value?_add_cases {t : Numbering α} {a b : α} {n : Nat}
    (h : (t.add a).value? n = some b) : t.value? n = some b ∨ n = t.size ∧ b = a := by
  cases hslot : t.slot? a with
  | some m =>
    rw [add_of_slot? hslot] at h
    exact .inl h
  | none =>
    rw [value?, values_add_of_new hslot, Array.getElem?_push] at h
    split at h
    · next hn =>
      cases h
      exact .inr ⟨hn, rfl⟩
    · exact .inl h

theorem slot?_add_self (t : Numbering α) (a : α) :
    (t.add a).slot? a = some ((t.slot? a).getD t.size) := by
  cases h : t.slot? a with
  | some n =>
    rw [add_of_slot? h]
    exact h
  | none =>
    rw [slot?_eq_some_iff, value?, values_add_of_new h]
    exact Array.getElem?_push_size

theorem toList_values_add (t : Numbering α) (a : α) : (t.add a).values.toList
    = if a ∈ t.values.toList then t.values.toList else t.values.toList ++ [a] := by
  split
  · next hmem =>
    obtain ⟨n, hn⟩ := Array.getElem?_of_mem (Array.mem_toList_iff.1 hmem)
    rw [add_of_slot? ((t.slot?_eq_some_iff a n).2 hn)]
  · next hmem =>
    rw [values_add_of_new (slot?_eq_none fun h => hmem (Array.mem_toList_iff.2 h)),
      Array.toList_push]

theorem toList_values_foldl_add (as : List α) (t : Numbering α) : (as.foldl add t).values.toList
    = as.foldl (fun values a => if a ∈ values then values else values ++ [a]) t.values.toList := by
  induction as generalizing t with
  | nil => rfl
  | cons a as ih => rw [List.foldl_cons, ih, toList_values_add, List.foldl_cons]

end ClassCatalog.Numbering
