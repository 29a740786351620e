import ClassCatalog.Ty

/-! Types are equal when they have the same tree, and this can be decided. -/

namespace ClassCatalog.Ty

variable {ν : Type}

section Equality

variable [DecidableEq ν]

mutual

def beq : Ty ν → Ty ν → Bool
  | primitive p, primitive q => p = q
  | void, void => true
  | named n, named m => n = m
  | array d c, array e k => d = e && c.beq k
  | parameterized n as, parameterized m bs => n = m && listBeq as bs
  | inner o n as, inner p m bs => n = m && o.beq p && listBeq as bs
  | typeParameter n i as, typeParameter m j bs => n = m && i = j && listBeq as bs
  | typeVariable n, typeVariable m => n = m
  | unresolved n, unresolved m => n = m
  | wildcard e, wildcard f => e = f
  | bounded e b, bounded f c => e = f && b.beq c
  | _, _ => false

def listBeq : List (Ty ν) → List (Ty ν) → Bool
  | [], [] => true
  | a :: as, b :: bs => a.beq b && listBeq as bs
  | _, _ => false

end

mutual

theorem beq_self (t : Ty ν) : t.beq t = true := by
  cases t with
  | primitive | void | named | typeVariable | unresolved | wildcard => simp [beq]
  | array d c => simp [beq, beq_self c]
  | parameterized n as => simp [beq, listBeq_self as]
  | inner o n as => simp [beq, beq_self o, listBeq_self as]
  | typeParameter n i bs => simp [beq, listBeq_self bs]
  | bounded e b => simp [beq, beq_self b]

theorem listBeq_self (ts : List (Ty ν)) : listBeq ts ts = true := by
  cases ts with
  | nil => rfl
  | cons t ts => simp [listBeq, beq_self t, listBeq_self ts]

end

mutual

theorem eq_of_beq {a b : Ty ν} (h : a.beq b = true) : a = b := by
  cases a with
  | primitive | void | named | typeVariable | unresolved | wildcard =>
    cases b <;> simp_all [beq]
  | array d c =>
    cases b with
    | array e k =>
      simp only [beq, Bool.and_eq_true, decide_eq_true_eq] at h
      rw [h.1, eq_of_beq h.2]
    | _ => simp [beq] at h
  | parameterized n as =>
    cases b with
    | parameterized m bs =>
      simp only [beq, Bool.and_eq_true, decide_eq_true_eq] at h
      rw [h.1, eq_of_listBeq h.2]
    | _ => simp [beq] at h
  | inner o n as =>
    cases b with
    | inner p m bs =>
      simp only [beq, Bool.and_eq_true, decide_eq_true_eq] at h
      rw [h.1.1, eq_of_beq h.1.2, eq_of_listBeq h.2]
    | _ => simp [beq] at h
  | typeParameter n i as =>
    cases b with
    | typeParameter m j bs =>
      simp only [beq, Bool.and_eq_true, decide_eq_true_eq] at h
      rw [h.1.1, h.1.2, eq_of_listBeq h.2]
    | _ => simp [beq] at h
  | bounded e c =>
    cases b with
    | bounded f k =>
      simp only [beq, Bool.and_eq_true, decide_eq_true_eq] at h
      rw [h.1, eq_of_beq h.2]
    | _ => simp [beq] at h

theorem eq_of_listBeq {as bs : List (Ty ν)} (h : listBeq as bs = true) : as = bs := by
  cases as with
  | nil => cases bs with
    | nil => rfl
    | cons => cases h
  | cons a as => cases bs with
    | nil => cases h
    | cons b bs =>
      simp only [listBeq, Bool.and_eq_true] at h
      rw [eq_of_beq h.1, eq_of_listBeq h.2]

end

instance : DecidableEq (Ty ν) := fun a b =>
  if h : a.beq b = true then isTrue (eq_of_beq h)
  else isFalse fun e => h (e ▸ beq_self a)

end Equality

section Hash

variable [Hashable ν]

mutual

def hash : Ty ν → UInt64
  | primitive p => mixHash 1 (UInt64.ofNat p.code)
  | void => 2
  | named n => mixHash 3 (Hashable.hash n)
  | array d c => mixHash (mixHash 4 d.toUInt64) c.hash
  | parameterized n as => mixHash (mixHash 5 (Hashable.hash n)) (listHash as)
  | inner o n as => mixHash (mixHash (mixHash 6 o.hash) (Hashable.hash n)) (listHash as)
  | typeParameter n i bs => mixHash (mixHash (mixHash 7 (Hashable.hash n)) (Hashable.hash i))
      (listHash bs)
  | typeVariable n => mixHash 8 (Hashable.hash n)
  | unresolved n => mixHash 9 (Hashable.hash n)
  | wildcard e => mixHash 10 (Hashable.hash e)
  | bounded e b => mixHash (mixHash 11 (Hashable.hash e)) b.hash

def listHash : List (Ty ν) → UInt64
  | [] => 12
  | t :: ts => mixHash t.hash (listHash ts)

end

instance : Hashable (Ty ν) := ⟨hash⟩

end Hash

end ClassCatalog.Ty
