import ClassCatalog.Archive.TypeTable
import ClassCatalog.Proofs.Archive.Scanning
import ClassCatalog.Proofs.Ty.Parts

/-! What metered reading takes, gives and costs. Reading of well-written bytes either succeeds
or meets one of the two limits on types, and it is known beforehand which. -/

namespace ClassCatalog

def ArchiveError.IsTypeLimit : ArchiveError → Prop
  | typeTooDeep _ | typeTooLarge _ => True
  | _ => False

namespace Archive.Metered

variable {α β ι : Type}

/-- `p` takes `bytes` from the front of any input that starts with them, gives `a` and pays for
`cost` nodes. It fails when it cannot pay or when some type is too deep, that is unless `fits`. -/
def Reads (p : Metered α) (bytes : List UInt8) (cost : Nat) (fits : Prop) (a : α) : Prop :=
  bytes.length < UInt64.size → ∀ budget rest offset,
    (fits ∧ cost ≤ budget ∧ (p.run budget).run ⟨bytes ++ rest, offset⟩
        = .ok ((a, budget - cost), ⟨rest, offset + bytes.length⟩))
      ∨ ¬ (fits ∧ cost ≤ budget) ∧ ∃ e : ArchiveError, e.IsTypeLimit
        ∧ (p.run budget).run ⟨bytes ++ rest, offset⟩ = .error e

theorem Reads.congr {p : Metered α} {bytes bytes' : List UInt8} {cost cost' : Nat}
    {fits fits' : Prop} {a : α} (h : Reads p bytes cost fits a) (hbytes : bytes = bytes')
    (hcost : cost = cost') (hfits : fits ↔ fits') : Reads p bytes' cost' fits' a := by
  subst hbytes hcost
  rwa [propext hfits] at h

theorem run_bind (p : Metered α) (f : α → Metered β) (budget : Nat) (c : Cursor) :
    ((p >>= f).run budget).run c
      = ((p.run budget).run c >>= fun r => ((f r.1.1).run r.1.2).run r.2) := rfl

theorem run_lift (p : Scanner α) (budget : Nat) (c : Cursor) :
    ((liftM p : Metered α).run budget).run c
      = (p.run c >>= fun r => .ok ((r.1, budget), r.2)) := rfl

theorem Reads.lift {p : Scanner α} {bytes : List UInt8} {a : α} (h : p.Takes bytes a) :
    Reads (liftM p) bytes 0 True a := by
  intro _ budget rest offset
  refine .inl ⟨trivial, Nat.zero_le _, ?_⟩
  rw [run_lift, h]
  rfl

theorem Reads.pure (a : α) : Reads (Pure.pure a) [] 0 True a :=
  fun _ _ _ _ => .inl ⟨trivial, Nat.zero_le _, rfl⟩

theorem Reads.bind {p : Metered α} {f : α → Metered β} {front back : List UInt8}
    {cost cost' : Nat} {fits fits' : Prop} {a : α} {b : β} (hp : Reads p front cost fits a)
    (hf : Reads (f a) back cost' fits' b) :
    Reads (p >>= f) (front ++ back) (cost + cost') (fits ∧ fits') b := by
  intro hlength budget rest offset
  rw [List.length_append] at hlength
  rw [run_bind, List.append_assoc]
  rcases hp (by omega) budget (back ++ rest) offset with ⟨hfits, hcost, hrun⟩ | ⟨hnot, e, he, hrun⟩
  · rw [hrun]
    rcases hf (by omega) (budget - cost) rest (offset + front.length) with
      ⟨hfits', hcost', hrun'⟩ | ⟨hnot', e, he, hrun'⟩
    · refine .inl ⟨⟨hfits, hfits'⟩, by omega, ?_⟩
      rw [List.length_append, ← Nat.add_assoc, ← Nat.sub_sub]
      exact hrun'
    · refine .inr ⟨?_, e, he, hrun'⟩
      rintro ⟨⟨_, hfits'⟩, hboth⟩
      exact hnot' ⟨hfits', by omega⟩
  · rw [hrun]
    refine .inr ⟨?_, e, he, rfl⟩
    rintro ⟨⟨hfits, _⟩, hboth⟩
    exact hnot ⟨hfits, by omega⟩

theorem Reads.lift_bind {p : Scanner α} {f : α → Metered β} {front back : List UInt8}
    {cost : Nat} {fits : Prop} {a : α} {b : β} (hp : p.Takes front a)
    (hf : Reads (f a) back cost fits b) :
    Reads (liftM p >>= f) (front ++ back) cost fits b :=
  ((Reads.lift hp).bind hf).congr rfl (Nat.zero_add cost) (by simp)

theorem Reads.lift_check {p : Scanner α} {f : α → Metered β} {bytes : List UInt8} {cost : Nat}
    {fits : Prop} {a : α} {b : β} (hp : p.Takes bytes a) (hf : Reads (f a) [] cost fits b) :
    Reads (liftM p >>= f) bytes cost fits b :=
  (Reads.lift_bind hp hf).congr (List.append_nil bytes) rfl .rfl

theorem Reads.map {p : Metered α} {bytes : List UInt8} {cost : Nat} {fits : Prop} {a : α}
    (f : α → β) (h : Reads p bytes cost fits a) :
    Reads (do return f (← p)) bytes cost fits (f a) :=
  (h.bind (Reads.pure (f a))).congr (List.append_nil bytes) (Nat.add_zero cost) (by simp)

theorem Reads.count_bind {f : Nat → Metered β} {n : Nat} {back : List UInt8} {cost : Nat}
    {fits : Prop} {b : β} (hback : n ≤ back.length) (hf : Reads (f n) back cost fits b) :
    Reads (liftM Scanner.count >>= f) (Varint.encode n ++ back) cost fits b := by
  intro hlength budget rest offset
  rw [List.length_append] at hlength
  have hrest : n ≤ (back ++ rest).length := by
    rw [List.length_append]
    omega
  have hcount := Scanner.run_count (Scanner.takes_varint (n := n) (by omega)) hrest offset
  rw [run_bind, run_lift, List.append_assoc, hcount, List.length_append, ← Nat.add_assoc]
  exact hf (by omega) budget rest _

theorem Reads.times {item : Metered α} (enc : ι → List UInt8) (cost : ι → Nat) (fits : ι → Prop)
    (value : ι → α) (xs : List ι)
    (h : ∀ x ∈ xs, Reads item (enc x) (cost x) (fits x) (value x)) :
    Reads (ClassCatalog.times xs.length item) (xs.flatMap enc) (xs.map cost).sum
      (∀ x ∈ xs, fits x) (xs.map value) := by
  induction xs with
  | nil => exact (Reads.pure []).congr rfl rfl (by simp)
  | cons x xs ih =>
    have hrest := ih fun y hy => h y (List.mem_cons_of_mem x hy)
    have hmore := (h x List.mem_cons_self).bind
      (f := fun a => do return a :: (← ClassCatalog.times xs.length item)) (hrest.map (value x :: ·))
    exact hmore.congr (by simp) (by simp) (by simp)

theorem Reads.counted {item : Metered α} (enc : ι → List UInt8) (cost : ι → Nat)
    (fits : ι → Prop) (value : ι → α) (xs : List ι) (hpos : ∀ x ∈ xs, 0 < (enc x).length)
    (h : ∀ x ∈ xs, Reads item (enc x) (cost x) (fits x) (value x)) :
    Reads (Archive.counted item) (Varint.encode xs.length ++ xs.flatMap enc)
      (xs.map cost).sum (∀ x ∈ xs, fits x) (xs.map value) :=
  Reads.count_bind (length_le_length_flatMap hpos) (Reads.times enc cost fits value xs h)

theorem run_within_of_ok {p : Metered α} {body : List UInt8} {budget : Nat} {r : α × Nat}
    {c : Cursor} (h : (p.run budget).run ⟨body, 0⟩ = .ok (r, c)) (cursor : Cursor) :
    ((Archive.within body p).run budget).run cursor = .ok (r, cursor) := by
  rw [StateT.run, StateT.run, Archive.within, Cursor.ofBytes, h]

theorem run_within_of_error {p : Metered α} {body : List UInt8} {budget : Nat} {e : ArchiveError}
    (h : (p.run budget).run ⟨body, 0⟩ = .error e) (cursor : Cursor) :
    ((Archive.within body p).run budget).run cursor = .error e := by
  rw [StateT.run, StateT.run, Archive.within, Cursor.ofBytes, h]

theorem Reads.within {p : Metered α} {body : List UInt8} {cost : Nat} {fits : Prop} {a : α}
    (hlength : body.length < UInt64.size) (h : Reads p body cost fits a) :
    Reads (Archive.within body p) [] cost fits a := by
  intro _ budget rest offset
  have hbody := h hlength budget [] 0
  rw [List.append_nil] at hbody
  rcases hbody with ⟨hfits, hcost, hok⟩ | ⟨hnot, e, he, herror⟩
  · exact .inl ⟨hfits, hcost, run_within_of_ok hok _⟩
  · exact .inr ⟨hnot, e, he, run_within_of_error herror _⟩

end Archive.Metered

end ClassCatalog
