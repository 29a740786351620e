import ClassCatalog.Proofs.ClassFile.Division
import ClassCatalog.Proofs.Loop

/-! The numbers of the constant pool, for any bytes. What was read is a list of entries, each under
the number that is counted for it; the numbers between them hold nothing. Counting goes on in a
word of sixteen bits, which never overflows. -/

namespace ClassCatalog.ClassFile

open PoolEntry (At widths)

namespace ConstantPool

def next? (index : UInt16) : Option UInt16 :=
  if index.toNat + 1 < UInt16.size then some (index + 1) else none

/-- The state of the loop that counts in words: the number of the next entry, the entries so far
and the position. -/
abbrev WordState := UInt16 × Array (Option Constant) × Cursor

/-- One round of reading entries until `count` numbers are taken. It ends the loop with an outcome,
and with none if the word overflows. -/
def wordRound (count : UInt16) : WordState →
    Option (Except DecodeError (Array (Option Constant) × Cursor)) ⊕ WordState
  | (index, slots, c) =>
    if index < count then
      match (Constant.read index.toNat).run c with
      | .error e => .inl (some (.error e))
      | .ok (entry, d) =>
        match next? index with
        | none => .inl none
        | some second =>
          if entry.isWide then
            if second < count then
              match next? second with
              | none => .inl none
              | some third => .inr (third, (slots.push (some entry)).push none, d)
            else .inl (some (.error (.badConstantIndex second.toNat)))
          else .inr (second, slots.push (some entry), d)
    else .inl (some (.ok (slots, c)))

def readWords (count : UInt16) :
    WordState → Part (Option (Except DecodeError (Array (Option Constant) × Cursor))) :=
  loop fun s => .some (wordRound count s)

theorem next?_of_lt {index count : UInt16} (h : index < count) :
    next? index = some (index + 1) ∧ (index + 1).toNat = index.toNat + 1 := by
  have hlt : index.toNat + 1 < UInt16.size :=
    Nat.lt_of_le_of_lt (UInt16.lt_iff_toNat_lt.1 h) count.toNat_lt
  exact ⟨if_pos hlt, by rw [UInt16.toNat_add]; exact Nat.mod_eq_of_lt hlt⟩

/-- The word holds the number of entries that are there, so it stays below the count. -/
theorem readWords_eq {count index : UInt16} {slots : Array (Option Constant)} {fuel : Nat}
    (hindex : index.toNat = slots.size) (hfuel : count.toNat ≤ slots.size + fuel) (c : Cursor) :
    readWords count (index, slots, c)
      = .some (some ((readFrom count.toNat fuel slots).run c)) := by
  induction fuel generalizing index slots c with
  | zero =>
    have hdone : ¬ index < count := by
      rw [UInt16.lt_iff_toNat_lt]
      omega
    exact loop_stop (by rw [wordRound, if_neg hdone]; rfl)
  | succ fuel ih =>
    rw [readFrom, ← hindex]
    by_cases hlt : index < count
    · obtain ⟨hnext, hnextNat⟩ := next?_of_lt hlt
      rw [if_pos (UInt16.lt_iff_toNat_lt.1 hlt), StateT.run_bind]
      cases hread : (Constant.read index.toNat).run c with
      | error e => exact loop_stop (by rw [wordRound, if_pos hlt, hread]; rfl)
      | ok r =>
        obtain ⟨entry, d⟩ := r
        rw [← hnextNat]
        show readWords count (index, slots, c)
          = .some (some ((if entry.isWide then
              if (index + 1).toNat < count.toNat then
                readFrom count.toNat fuel ((slots.push (some entry)).push none)
              else throw (.badConstantIndex (index + 1).toNat)
            else readFrom count.toNat fuel (slots.push (some entry))).run d))
        by_cases hwide : entry.isWide = true
        · rw [if_pos hwide]
          by_cases hroom : index + 1 < count
          · obtain ⟨hthird, hthirdNat⟩ := next?_of_lt hroom
            have hsize : (index + 1 + 1).toNat = ((slots.push (some entry)).push none).size := by
              simp only [Array.size_push]
              omega
            rw [if_pos (UInt16.lt_iff_toNat_lt.1 hroom), ← ih hsize (by omega)]
            exact loop_next (by simp only [wordRound, hlt, hread, hnext, hwide, hroom, hthird]; rfl)
          · rw [if_neg (mt UInt16.lt_iff_toNat_lt.2 hroom)]
            exact loop_stop (by simp only [wordRound, hlt, hread, hnext, hwide, hroom]; rfl)
        · have hsize : (index + 1).toNat = (slots.push (some entry)).size := by
            rw [Array.size_push]
            omega
          rw [if_neg hwide, ← ih hsize (by omega)]
          exact loop_next (by simp only [wordRound, hlt, hread, hnext, hwide]; rfl)
    · rw [if_neg (mt UInt16.lt_iff_toNat_lt.2 hlt)]
      exact loop_stop (by rw [wordRound, if_neg hlt]; rfl)

def readInWords (c : Cursor) : Part (Option (Except DecodeError (ConstantPool × Cursor))) :=
  match Reader.word.run c with
  | .error e => .some (some (.error e))
  | .ok (count, d) => (readWords count (1, #[none], d)).map fun outcome =>
    outcome.map fun r => r.map fun s => (⟨s.1⟩, s.2)

theorem readInWords_eq (c : Cursor) : readInWords c = .some (some (ConstantPool.read.run c)) := by
  have hword : Reader.word.run c = (Reader.u2.run c).map fun r => (UInt16.ofNat r.1, r.2) := rfl
  rw [readInWords, hword, ConstantPool.read, StateT.run_bind]
  cases hcount : Reader.u2.run c with
  | error e => rfl
  | ok r =>
    obtain ⟨_, d⟩ := r
    obtain ⟨front, _, w, _, rfl⟩ := Reader.consumes_u2 c _ d hcount
    have hloop : readWords w (1, #[none], d)
        = .some (some ((readFrom w.toNat w.toNat #[none]).run d)) :=
      readWords_eq rfl (Nat.le_add_left _ _) d
    simp only [Except.map, UInt16.ofNat_toNat, hloop, Part.map_some, Option.map_some]
    show _ = Part.some (some ((readFrom w.toNat w.toNat #[none]
      >>= fun slots => pure (ConstantPool.mk slots)).run d))
    rw [StateT.run_bind]
    cases (readFrom w.toNat w.toNat #[none]).run d <;> rfl

end ConstantPool

namespace Reader

variable {α β : Type}

def Unnumbered (p : Reader α) : Prop := ∀ c k, p.run c ≠ .error (.badConstantIndex k)

namespace Unnumbered

theorem pure (a : α) : Unnumbered (Pure.pure a) := nofun

theorem bind {p : Reader α} {k : α → Reader β} (hp : p.Unnumbered) (hk : ∀ a, (k a).Unnumbered) :
    (p >>= k).Unnumbered := by
  intro c index hrun
  rw [StateT.run_bind] at hrun
  cases hfirst : p.run c with
  | error e =>
    rw [hfirst] at hrun
    cases hrun
    exact hp c index hfirst
  | ok r =>
    rw [hfirst] at hrun
    exact hk r.1 r.2 index hrun

theorem bytes (n : Nat) : (bytes n).Unnumbered := by
  intro c index hrun
  simp only [Reader.bytes, StateT.run] at hrun
  split at hrun <;> cases hrun

theorem number (n : Nat) : (bigEndian <$> Reader.bytes n : Reader Nat).Unnumbered := by
  rw [← bind_pure_comp]
  exact (bytes n).bind fun _ => pure _

theorem readLink (size : Nat) (kind : LinkKind) : (Constant.readLink size kind).Unnumbered :=
  ((bytes size).bind fun _ => pure _).bind fun _ => pure _

theorem read (index : Nat) : (Constant.read index).Unnumbered := by
  refine (number 1).bind fun tag => ?_
  split
  · exact (number 2).bind fun n => (bytes n).bind fun _ => pure _
  iterate 2 exact (number 4).bind fun _ => pure _
  iterate 2 exact (number 8).bind fun _ => pure _
  · exact (number 2).bind fun _ => pure _
  iterate 4 exact readLink _ _
  · exact (number 2).bind fun _ => (number 2).bind fun _ => pure _
  iterate 6 exact readLink _ _
  · exact nofun

end Unnumbered

end Reader

namespace PoolEntry

open Reader

theorem isWide_iff (e : PoolEntry) : e.constant.isWide = true ↔ e.width = 2 := by
  cases e <;> simp [constant, Constant.isWide, width]

theorem refuses_readFrom {entries : List PoolEntry} {e : PoolEntry} {count fuel : Nat}
    (slots : Array (Option Constant)) (hwide : e.width = 2)
    (hcount : slots.size + widths entries + 1 = count) (hfuel : entries.length < fuel)
    (rest : List UInt8) (offset : Nat) :
    (ConstantPool.readFrom count fuel slots).run
      ⟨entries.flatMap bytes ++ (e.bytes ++ rest), offset⟩ = .error (.badConstantIndex count) := by
  have hsize : (Array.mk (slots.toList ++ entries.flatMap PoolEntry.slots)).size + 1 = count := by
    rw [List.size_toArray, List.length_append, length_flatMap_slots, Array.length_toList, hcount]
  obtain ⟨left, hleft⟩ : ∃ left, fuel - entries.length = left + 1 :=
    ⟨fuel - entries.length - 1, by omega⟩
  rw [run_readFrom slots (by omega) (Nat.le_of_lt hfuel), hleft, ConstantPool.readFrom,
    if_pos (by omega), run_bind_of_ok (e.takes_read _ rest _), if_pos (e.isWide_iff.2 hwide),
    if_neg (by omega), hsize]
  rfl

/-- The pool refuses a number only for a wide entry that has the last one. -/
theorem badIndex_of_readFrom {count fuel : Nat} {slots : Array (Option Constant)}
    (hsize : slots.size ≤ count) {c : Cursor} {index : Nat}
    (hrun : (ConstantPool.readFrom count fuel slots).run c = .error (.badConstantIndex index)) :
    index = count ∧ ∃ (entries : List PoolEntry) (e : PoolEntry) (rest : List UInt8),
      e.width = 2 ∧ slots.size + widths entries + 1 = count
        ∧ c.rest = entries.flatMap bytes ++ (e.bytes ++ rest) := by
  induction fuel generalizing slots c with
  | zero => cases hrun
  | succ fuel ih =>
    rw [ConstantPool.readFrom] at hrun
    split at hrun
    · next hlt =>
      rw [StateT.run_bind] at hrun
      cases hread : (Constant.read slots.size).run c with
      | error e =>
        rw [hread] at hrun
        cases hrun
        exact absurd hread (Unnumbered.read slots.size c index)
      | ok r =>
        obtain ⟨entry, d⟩ := r
        obtain ⟨_, hrest, e, rfl, rfl⟩ := consumes_read slots.size c entry d hread
        rw [hread] at hrun
        replace hrun : (if e.constant.isWide then
              if slots.size + 1 < count then
                ConstantPool.readFrom count fuel ((slots.push (some e.constant)).push none)
              else throw (.badConstantIndex (slots.size + 1))
            else ConstantPool.readFrom count fuel (slots.push (some e.constant))).run d
          = .error (.badConstantIndex index) := hrun
        have hwidth := e.width_eq
        split at hrun
        · next hwide =>
          rw [if_pos hwide] at hwidth
          split at hrun
          · next hroom =>
            obtain ⟨hindex, entries, last, rest, hlast, hcount, hmore⟩ :=
              ih (by simp only [Array.size_push]; omega) hrun
            simp only [Array.size_push] at hcount
            refine ⟨hindex, e :: entries, last, rest, hlast, ?_, ?_⟩
            · rw [widths_cons]
              omega
            · rw [hrest, hmore, List.flatMap_cons, List.append_assoc]
          · cases hrun
            exact ⟨by omega, [], e, d.rest, hwidth, by rw [show widths [] = 0 from rfl]; omega, hrest⟩
        · next hnarrow =>
          rw [if_neg hnarrow] at hwidth
          obtain ⟨hindex, entries, last, rest, hlast, hcount, hmore⟩ :=
            ih (by rw [Array.size_push]; exact hlt) hrun
          rw [Array.size_push] at hcount
          refine ⟨hindex, e :: entries, last, rest, hlast, ?_, ?_⟩
          · rw [widths_cons]
            omega
          · rw [hrest, hmore, List.flatMap_cons, List.append_assoc]
    · cases hrun

theorem takes_counted_pool {n : Nat} {entries : List PoolEntry} (hn : n < UInt16.size)
    (hcount : 1 + widths entries = max n 1) :
    ConstantPool.read.Takes (bigEndianBytes 2 n ++ entries.flatMap bytes) (pool entries) := by
  refine (takes_number 2 hn).bind ?_
  have hlength := length_le_widths entries
  rcases Nat.eq_zero_or_pos n with rfl | hpos
  · obtain rfl : entries = [] := List.eq_nil_of_length_eq_zero (by omega)
    exact takes_pure _
  · have hsize : (#[none] : Array (Option Constant)).size + widths entries = n :=
      hcount.trans (Nat.max_eq_left hpos)
    exact (takes_readFrom #[none] hsize (by omega)).bind_last (takes_pure _)

theorem consumes_counted_pool : ConstantPool.read.Consumes fun front found =>
    ∃ n entries, n < UInt16.size ∧ 1 + widths entries = max n 1 ∧ found = pool entries
      ∧ front = bigEndianBytes 2 n ++ entries.flatMap bytes := by
  refine (consumes_number 2).bind ?_
  rintro _ n ⟨rfl, hn⟩
  rcases Nat.eq_zero_or_pos n with rfl | hpos
  · exact .pure ⟨0, [], hn, rfl, rfl, rfl⟩
  · refine (consumes_readFrom #[none] hpos (Nat.le_add_left _ _)).bind ?_
    rintro _ _ ⟨entries, rfl, rfl, hcount⟩
    have hmax : 1 + widths entries = max n 1 := by
      rw [Nat.max_eq_left hpos]
      exact hcount
    exact .pure ⟨n, entries, hn, hmax, rfl, by rw [List.append_nil]⟩

theorem run_pool_eq_ok_iff (c d : Cursor) (found : ConstantPool) :
    ConstantPool.read.run c = .ok (found, d)
      ↔ ∃ n entries, n < UInt16.size ∧ 1 + widths entries = max n 1 ∧ found = pool entries
        ∧ c = ⟨(bigEndianBytes 2 n ++ entries.flatMap bytes) ++ d.rest, c.offset⟩
        ∧ d.offset = c.offset + (bigEndianBytes 2 n ++ entries.flatMap bytes).length := by
  constructor
  · intro hrun
    obtain ⟨front, hrest, n, entries, hn, hcount, rfl, rfl⟩ := consumes_counted_pool c found d hrun
    have htakes := takes_counted_pool hn hcount d.rest c.offset
    rw [← hrest, hrun] at htakes
    refine ⟨n, entries, hn, hcount, rfl, by rw [← hrest], ?_⟩
    exact congrArg Cursor.offset (Prod.mk.inj (Except.ok.inj htakes)).2
  · rintro ⟨n, entries, hn, hcount, rfl, hc, hd⟩
    rw [hc, takes_counted_pool hn hcount, ← hd]

theorem run_pool_eq_badIndex_iff (c : Cursor) (index : Nat) :
    ConstantPool.read.run c = .error (.badConstantIndex index)
      ↔ ∃ (entries : List PoolEntry) (e : PoolEntry) (rest : List UInt8),
        e.width = 2 ∧ 1 + widths entries + 1 = index ∧ index < UInt16.size
          ∧ c.rest = bigEndianBytes 2 index ++ (entries.flatMap bytes ++ (e.bytes ++ rest)) := by
  rw [ConstantPool.read, StateT.run_bind]
  constructor
  · intro hrun
    cases hcount : u2.run c with
    | error e =>
      rw [hcount] at hrun
      cases hrun
      exact absurd hcount (Unnumbered.number 2 c index)
    | ok r =>
      obtain ⟨n, d⟩ := r
      obtain ⟨_, hrest, rfl, hn⟩ := consumes_number 2 c n d hcount
      rw [hcount] at hrun
      replace hrun : (ConstantPool.readFrom n n #[none]
          >>= fun slots => pure (ConstantPool.mk slots)).run d = .error (.badConstantIndex index) :=
        hrun
      rw [StateT.run_bind] at hrun
      rcases Nat.eq_zero_or_pos n with rfl | hpos
      · cases hrun
      · cases hloop : (ConstantPool.readFrom n n #[none]).run d with
        | error e =>
          rw [hloop] at hrun
          cases hrun
          obtain ⟨rfl, entries, e, rest, hwide, hsize, hmore⟩ := badIndex_of_readFrom hpos hloop
          exact ⟨entries, e, rest, hwide, hsize, hn, by rw [hrest, hmore]⟩
        | ok r =>
          rw [hloop] at hrun
          cases hrun
  · rintro ⟨entries, e, rest, hwide, hindex, hlt, hrest⟩
    have hcount := takes_number 2 hlt (entries.flatMap bytes ++ (e.bytes ++ rest)) c.offset
    rw [← hrest] at hcount
    have hfuel : entries.length < index := by
      have hlength := length_le_widths entries
      omega
    have hrefuses := refuses_readFrom #[none] hwide hindex hfuel rest
      (c.offset + (bigEndianBytes 2 index).length)
    rw [show u2.run c = _ from hcount]
    show (ConstantPool.readFrom index index #[none]
      >>= fun slots => pure (ConstantPool.mk slots)).run _ = _
    rw [StateT.run_bind, hrefuses]
    rfl

theorem size_pool (entries : List PoolEntry) : (pool entries).slots.size = 1 + widths entries := by
  rw [pool, List.size_toArray, List.length_cons, length_flatMap_slots, Nat.add_comm]

theorem first_or_second (entries : List PoolEntry) {k : Nat} (h : k < widths entries) :
    ∃ front e back, entries = front ++ e :: back
      ∧ (k = widths front ∨ e.width = 2 ∧ k = widths front + 1) := by
  induction entries generalizing k with
  | nil => exact absurd h (Nat.not_lt_zero k)
  | cons e entries ih =>
    have hwidth := e.width_eq
    rw [widths_cons] at h
    by_cases hk : k < e.width
    · refine ⟨[], e, entries, rfl, ?_⟩
      rw [show widths [] = 0 from rfl]
      split at hwidth <;> omega
    · obtain ⟨front, last, back, rfl, hpos⟩ := ih (show k - e.width < widths entries by omega)
      refine ⟨e :: front, last, back, rfl, ?_⟩
      rw [widths_cons]
      omega

theorem widths_append (front back : List PoolEntry) :
    widths (front ++ back) = widths front + widths back := by
  rw [widths, List.map_append, List.sum_append, widths, widths]

theorem not_at_second {entries : List PoolEntry} {first : Nat} {e : PoolEntry}
    (h : At entries first e) (hwide : e.width = 2) (other : PoolEntry) :
    ¬ At entries (first + 1) other := by
  obtain ⟨front, back, rfl, rfl⟩ := h
  rintro ⟨front', back', hentries, hindex⟩
  have hother : ((front ++ e :: back).flatMap slots)[widths front + 1]?
      = some (some other.constant) :=
    (getElem?_slots_iff _ _ _).2 ⟨front', other, back', hentries, by omega, rfl⟩
  have hslots : e.slots = [some e.constant, none] := if_pos (e.isWide_iff.2 hwide)
  rw [List.flatMap_append, List.flatMap_cons, hslots, ← length_flatMap_slots front,
    List.getElem?_append_right (Nat.le_add_right _ 1), Nat.add_sub_cancel_left] at hother
  cases hother

theorem get_eq_error_iff (entries : List PoolEntry) (index : Nat) :
    (pool entries).get index = .error (.badConstantIndex index)
      ↔ index = 0 ∨ (∃ first e, At entries first e ∧ e.width = 2 ∧ index = first + 1)
        ∨ 1 + widths entries ≤ index := by
  have hnone : (pool entries).get index = .error (.badConstantIndex index)
      ↔ ∀ e, ¬ At entries index e := by
    constructor
    · intro herror e hat
      have hok := (get_pool_iff entries index _).2 ⟨e, hat, rfl⟩
      rw [herror] at hok
      cases hok
    · intro hnot
      cases hget : (pool entries).get index with
      | ok c =>
        obtain ⟨e, hat, _⟩ := (get_pool_iff entries index c).1 hget
        exact absurd hat (hnot e)
      | error e =>
        rw [ConstantPool.get] at hget
        split at hget
        · cases hget
        · exact hget.symm
  rw [hnone]
  constructor
  · intro hnot
    by_contra hother
    obtain ⟨front, e, back, rfl, hfirst | ⟨hwide, hsecond⟩⟩ :=
      first_or_second entries (show index - 1 < widths entries by omega)
    · exact hnot e ⟨front, back, rfl, by omega⟩
    · exact hother (.inr (.inl ⟨_, e, ⟨front, back, rfl, rfl⟩, hwide, by omega⟩))
  · rintro (rfl | ⟨first, e, hat, hwide, rfl⟩ | hbeyond) other hother
    · obtain ⟨_, _, _, hindex⟩ := hother
      omega
    · exact not_at_second hat hwide other hother
    · obtain ⟨front, back, rfl, rfl⟩ := hother
      have hpos := other.width_pos
      rw [widths_append, widths_cons] at hbeyond
      omega

variable {entries : List PoolEntry} {index : Nat}

theorem className_of_at {name : UInt16} (h : At entries index (.classRef name)) :
    (pool entries).className index = (pool entries).utf8 name.toNat := by
  rw [ConstantPool.className, (get_pool_iff _ _ _).2 ⟨_, h, rfl⟩]
  rfl

theorem nameAndType_of_at {name descriptor : UInt16}
    (h : At entries index (.nameAndType name descriptor)) :
    (pool entries).nameAndType index = (do
      let text ← (pool entries).utf8 name.toNat
      return (text, ← (pool entries).utf8 descriptor.toNat)) := by
  rw [ConstantPool.nameAndType, (get_pool_iff _ _ _).2 ⟨_, h, rfl⟩]
  rfl

theorem utf8_of_at {text : List UInt8} {fits : text.length < UInt16.size}
    (h : At entries index (.utf8 text fits)) :
    (pool entries).utf8 index = match ModifiedUtf8.decode text with
      | some t => .ok t
      | none => .error (.invalidModifiedUtf8 index) := by
  rw [ConstantPool.utf8, (get_pool_iff _ _ _).2 ⟨_, h, rfl⟩]
  show (match ModifiedUtf8.decode text with
    | some t => return t
    | none => throw (.invalidModifiedUtf8 index) : Except DecodeError String) = _
  split <;> rfl

end PoolEntry

namespace ConstantPool

open PoolEntry (pool)

/-- Reading the pool counts in sixteen bits, which never overflow. The bytes that are read as a
pool are those of a count and of entries that fill the numbers below it; each entry stands under
the number that follows from the widths of those before it, and a number that begins no entry is
refused. So is a wide entry that begins with the last number. A number that an entry refers to is
looked up in the whole pool. -/
theorem numbering_exact :
    (∀ c, readInWords c = .some (some (ConstantPool.read.run c)))
      ∧ (∀ c d found, ConstantPool.read.run c = .ok (found, d)
        ↔ ∃ n entries, n < UInt16.size ∧ 1 + widths entries = max n 1 ∧ found = pool entries
          ∧ c = ⟨(bigEndianBytes 2 n ++ entries.flatMap PoolEntry.bytes) ++ d.rest, c.offset⟩
          ∧ d.offset
            = c.offset + (bigEndianBytes 2 n ++ entries.flatMap PoolEntry.bytes).length)
      ∧ (∀ entries : List PoolEntry, (pool entries).slots.size = 1 + widths entries)
      ∧ (∀ entries index constant, (pool entries).get index = .ok constant
        ↔ ∃ e, At entries index e ∧ e.constant = constant)
      ∧ (∀ entries index, (pool entries).get index = .error (.badConstantIndex index)
        ↔ index = 0 ∨ (∃ first e, At entries first e ∧ e.width = 2 ∧ index = first + 1)
          ∨ 1 + widths entries ≤ index)
      ∧ (∀ c index, ConstantPool.read.run c = .error (.badConstantIndex index)
        ↔ ∃ (entries : List PoolEntry) (e : PoolEntry) (rest : List UInt8),
          e.width = 2 ∧ 1 + widths entries + 1 = index ∧ index < UInt16.size
            ∧ c.rest = bigEndianBytes 2 index
              ++ (entries.flatMap PoolEntry.bytes ++ (e.bytes ++ rest)))
      ∧ ∀ entries index,
        (∀ text fits, At entries index (.utf8 text fits) →
          (pool entries).utf8 index = match ModifiedUtf8.decode text with
            | some t => .ok t
            | none => .error (.invalidModifiedUtf8 index))
        ∧ (∀ name, At entries index (.classRef name) →
          (pool entries).className index = (pool entries).utf8 name.toNat)
        ∧ ∀ name descriptor, At entries index (.nameAndType name descriptor) →
          (pool entries).nameAndType index = (do
            let text ← (pool entries).utf8 name.toNat
            return (text, ← (pool entries).utf8 descriptor.toNat)) :=
  ⟨readInWords_eq, PoolEntry.run_pool_eq_ok_iff, PoolEntry.size_pool, PoolEntry.get_pool_iff,
    PoolEntry.get_eq_error_iff, PoolEntry.run_pool_eq_badIndex_iff, fun _ _ =>
      ⟨fun _ _ => PoolEntry.utf8_of_at, fun _ => PoolEntry.className_of_at,
        fun _ _ => PoolEntry.nameAndType_of_at⟩⟩

theorem length_letter_lt : ([65] : List UInt8).length < UInt16.size := by decide

def forwardEntries : List PoolEntry :=
  [.classRef 4, .long 0, .utf8 [65] length_letter_lt, .nameAndType 4 4]

theorem numbering_exact_forwardEntries :
    (PoolEntry.At forwardEntries 1 (.classRef 4)
        ∧ PoolEntry.At forwardEntries 4 (.utf8 [65] length_letter_lt)
        ∧ PoolEntry.At forwardEntries 5 (.nameAndType 4 4))
      ∧ (pool forwardEntries).className 1 = .ok "A"
      ∧ (pool forwardEntries).nameAndType 5 = .ok ("A", "A") := by
  have hclass : PoolEntry.At forwardEntries 1 (.classRef 4) := ⟨[], _, rfl, rfl⟩
  have htext : PoolEntry.At forwardEntries 4 (.utf8 [65] length_letter_lt) :=
    ⟨[.classRef 4, .long 0], _, rfl, rfl⟩
  have hpair : PoolEntry.At forwardEntries 5 (.nameAndType 4 4) :=
    ⟨[.classRef 4, .long 0, .utf8 [65] length_letter_lt], [], rfl, rfl⟩
  obtain ⟨-, -, -, -, -, -, hlookup⟩ := numbering_exact
  have hread : (pool forwardEntries).utf8 4 = .ok "A" := (hlookup _ 4).1 _ _ htext
  refine ⟨⟨hclass, htext, hpair⟩, ?_, ?_⟩
  · exact ((hlookup _ 1).2.1 4 hclass).trans hread
  · rw [(hlookup _ 5).2.2 4 4 hpair]
    change (do
      let text ← (pool forwardEntries).utf8 4
      return (text, ← (pool forwardEntries).utf8 4)) = _
    rw [hread]
    rfl

example :
    let entries : List PoolEntry := [.long 0, .utf8 [65] length_letter_lt, .classRef 3]
    (pool entries).className 4 = .ok "A"
      ∧ (pool entries).get 2 = .error (.badConstantIndex 2) := by decide

end ConstantPool

end ClassCatalog.ClassFile
