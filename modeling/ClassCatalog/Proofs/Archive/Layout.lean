import ClassCatalog.Proofs.Archive.Resources

/-! The layout of an archive: which of its bytes are the header, the tables, the head of a class
and the records of its annotations. Every archive that reading accepts has a layout, and a layout
says by itself what reading its bytes gives and what it costs. -/

namespace ClassCatalog.Archive

open Metered (Builds Costs)
open Scanner

variable {α ι : Type}

/-- Bytes that `p` reads, what it gives and what it pays. -/
structure Piece (p : Metered α) where
  bytes : List UInt8
  cost : Nat
  value : α
  costs : p.Costs bytes cost value

namespace Metered

/-- Every run of `p` reads the bytes of some `ι` and gives its value. -/
def Parses (p : Metered α) (enc : ι → List UInt8) (value : ι → α) : Prop :=
  ∀ budget c a left c', (p.run budget).run c = .ok ((a, left), c') →
    ∃ x, c.rest = enc x ++ c'.rest ∧ value x = a

theorem Builds.parses {known : Ty String → Prop} {m : Nat} {p : Metered α}
    {types : α → List (Ty String)} (h : Builds known [] m p types) :
    Parses p (Piece.bytes (p := p)) Piece.value := by
  intro budget c a left c' hrun
  obtain ⟨front, built, hrest, _, _, _, hcosts⟩ := h budget c a left c' hrun
  exact ⟨⟨front, _, a, hcosts⟩, hrest, rfl⟩

variable {enc : ι → List UInt8} {value : ι → α} {p : Metered α}

theorem Parses.times (h : Parses p enc value) (n : Nat) {budget left : Nat} {c c' : Cursor}
    {as : List α} (hrun : ((ClassCatalog.times n p).run budget).run c = .ok ((as, left), c')) :
    ∃ xs : List ι, xs.length = n ∧ c.rest = xs.flatMap enc ++ c'.rest ∧ xs.map value = as := by
  induction n generalizing budget c as with
  | zero =>
    cases hrun
    exact ⟨[], rfl, rfl, rfl⟩
  | succ n ih =>
    rw [ClassCatalog.times, run_bind] at hrun
    obtain ⟨⟨⟨a, budget'⟩, d⟩, hfirst, hrun⟩ := bind_eq_ok hrun
    rw [run_bind] at hrun
    obtain ⟨⟨⟨as', left'⟩, d'⟩, hmore, heq⟩ := bind_eq_ok hrun
    cases heq
    obtain ⟨x, hrest, rfl⟩ := h budget c a budget' d hfirst
    obtain ⟨xs, rfl, hrest', rfl⟩ := ih hmore
    refine ⟨x :: xs, rfl, ?_, rfl⟩
    rw [hrest, hrest', List.flatMap_cons, List.append_assoc]

theorem Parses.counted (h : Parses p enc value) {budget left : Nat} {c c' : Cursor} {as : List α}
    (hrun : ((Archive.counted p).run budget).run c = .ok ((as, left), c')) :
    ∃ (count : List UInt8) (xs : List ι), varint.Takes count xs.length
      ∧ c.rest = count ++ (xs.flatMap enc ++ c'.rest) ∧ xs.map value = as := by
  rw [Archive.counted, run_bind, run_lift] at hrun
  obtain ⟨_, hfirst, hrun⟩ := bind_eq_ok hrun
  obtain ⟨⟨n, d⟩, hcount, heq⟩ := bind_eq_ok hfirst
  cases heq
  obtain ⟨count, hrest, _, htakes⟩ := local_varint c n d (run_count_eq_ok hcount).1
  obtain ⟨xs, rfl, hrest', hvalues⟩ := h.times n hrun
  exact ⟨count, xs, htakes, hrest.trans (congrArg (count ++ ·) hrest'), hvalues⟩

end Metered

theorem Scanner.length_pos_of_takes_varint {front : List UInt8} {n : Nat}
    (h : varint.Takes front n) : 0 < front.length := by
  obtain ⟨front', hrest, hleast, _⟩ := local_varint _ _ _ (h [] 0)
  have hfront : front = front' := List.append_cancel_right hrest
  rw [hfront]
  exact hleast

theorem local_readHeader : Local 4 readHeader readHeader := by
  refine (local_bytes 4).check fun found => ?_
  have hversion : Local 0 (do Version.ofNumber (← Scanner.byte).toNat)
      (do Version.ofNumber (← Scanner.byte).toNat) :=
    (local_byte.check fun _ => .lift _).mono (Nat.zero_le 1)
  dsimp only
  split
  · exact hversion
  · exact (Local.fail (n := 0) _ _).check fun _ => hversion

def readRecord (tables : ReadTables) (version : Version) (owner : String) :
    Metered (Option (AnnotationUse String)) := do
  let body ← Scanner.bytes (← Scanner.count)
  within body (readUseOf tables version owner)

/-- A record: its size, what is read of it and the rest. -/
structure RecordLayout (tables : ReadTables) (version : Version) (owner : String) where
  size : List UInt8
  used : Piece (readUseOf tables version owner)
  rest : List UInt8
  size_takes : varint.Takes size (used.bytes ++ rest).length

namespace RecordLayout

variable {tables : ReadTables} {version : Version} {owner : String}

def bytes (r : RecordLayout tables version owner) : List UInt8 :=
  r.size ++ (r.used.bytes ++ r.rest)

theorem length_bytes_pos (r : RecordLayout tables version owner) : 0 < r.bytes.length := by
  have hsize := length_pos_of_takes_varint r.size_takes
  rw [bytes, List.length_append]
  omega

theorem costs (r : RecordLayout tables version owner) :
    Costs (readRecord tables version owner) r.bytes r.used.cost r.used.value := by
  have hwithin := r.used.costs.within r.rest
  have hbody := Costs.scan_bind (f := fun body => within body (readUseOf tables version owner))
    (takes_bytes (r.used.bytes ++ r.rest)) hwithin
  rw [List.append_nil] at hbody
  exact .count_bind r.size_takes (Nat.le_refl _) hbody

theorem parses (hsound : tables.Sound) : Metered.Parses (readRecord tables version owner) bytes
    (fun r : RecordLayout tables version owner => r.used.value) := by
  intro budget c a left c' hrun
  rw [readRecord, Metered.run_bind, Metered.run_lift] at hrun
  obtain ⟨_, hfirst, hrun⟩ := bind_eq_ok hrun
  obtain ⟨⟨n, d⟩, hcount, heq⟩ := bind_eq_ok hfirst
  cases heq
  obtain ⟨size, hrest, _, htakes⟩ := local_varint c n d (run_count_eq_ok hcount).1
  rw [Metered.run_bind, Metered.run_lift] at hrun
  obtain ⟨_, hfirst, hrun⟩ := bind_eq_ok hrun
  obtain ⟨⟨body, d'⟩, hbody, heq⟩ := bind_eq_ok hfirst
  cases heq
  simp only [Scanner.bytes, StateT.run] at hbody
  split at hbody
  · next r hr =>
    cases hbody
    obtain ⟨hrest', hlength, _⟩ := Cursor.take?_eq_some hr
    simp only [within, StateT.run] at hrun
    split at hrun
    · next result stop hresult =>
      cases hrun
      obtain ⟨used, hused, hvalue⟩ :=
        (builds_readUseOf hsound version owner).parses _ _ _ _ _ hresult
      have hsize : body = used.bytes ++ stop.rest := hused
      rw [← hlength, hsize] at htakes
      refine ⟨⟨size, used, stop.rest, htakes⟩, ?_, hvalue⟩
      rw [hrest, hrest', bytes, ← hsize, List.append_assoc]
    · cases hrun
  · cases hbody

end RecordLayout

structure ClassLayout (tables : ReadTables) (version : Version) where
  head : Piece (readHead tables version)
  count : List UInt8
  records : List (RecordLayout tables version head.value.name)
  count_takes : varint.Takes count records.length

namespace ClassLayout

variable {tables : ReadTables} {version : Version}

def bytes (k : ClassLayout tables version) : List UInt8 :=
  k.head.bytes ++ (k.count ++ k.records.flatMap RecordLayout.bytes)

def cost (k : ClassLayout tables version) : Nat :=
  k.head.cost + (k.records.map fun r => r.used.cost).sum

def value (k : ClassLayout tables version) : ClassDecl String :=
  { k.head.value with annotations := k.records.filterMap fun r => r.used.value }

theorem length_bytes_pos (k : ClassLayout tables version) : 0 < k.bytes.length := by
  have hcount := length_pos_of_takes_varint k.count_takes
  rw [bytes, List.length_append, List.length_append]
  omega

theorem costs_annotations (k : ClassLayout tables version) :
    Costs (readAnnotations tables version k.head.value.name)
      (k.count ++ k.records.flatMap RecordLayout.bytes) (k.records.map fun r => r.used.cost).sum
      (k.records.filterMap fun r => r.used.value) := by
  have hrecords := Costs.counted (fun r : RecordLayout tables version k.head.value.name => r.costs)
    (fun r _ => r.length_bytes_pos) k.count_takes
  have hfilter := hrecords.map (List.filterMap id)
  rw [List.filterMap_map] at hfilter
  exact hfilter

theorem costs (k : ClassLayout tables version) :
    Costs (readClass tables version) k.bytes k.cost k.value := by
  have hmore := k.costs_annotations.map fun annotations =>
    { k.head.value with annotations := annotations }
  unfold readClass bytes cost value
  exact k.head.costs.bind hmore

theorem parses (hsound : tables.Sound) :
    Metered.Parses (readClass tables version) bytes
      (fun k : ClassLayout tables version => k.value) := by
  intro budget c a left c' hrun
  rw [readClass, Metered.run_bind] at hrun
  obtain ⟨⟨⟨_, budget'⟩, d⟩, hhead, hrun⟩ := bind_eq_ok hrun
  obtain ⟨head, hrest, rfl⟩ := (builds_readHead hsound version).parses _ _ _ _ _ hhead
  rw [Metered.run_bind] at hrun
  obtain ⟨⟨⟨annotations, left'⟩, d'⟩, hannotations, heq⟩ := bind_eq_ok hrun
  cases heq
  rw [readAnnotations, Metered.run_bind] at hannotations
  obtain ⟨⟨⟨uses, left'⟩, d'⟩, hrecords, heq⟩ := bind_eq_ok hannotations
  cases heq
  obtain ⟨count, records, htakes, hrest', rfl⟩ := (RecordLayout.parses hsound).counted hrecords
  refine ⟨⟨head, count, records, htakes⟩, ?_, ?_⟩
  · rw [hrest, hrest', bytes, List.append_assoc, List.append_assoc]
  · have hfilter : List.filterMap id (records.map fun r => r.used.value)
        = records.filterMap fun r => r.used.value := List.filterMap_map
    exact congrArg (fun as => { head.value with annotations := as }) hfilter.symm

end ClassLayout

structure ArchiveLayout where
  header : List UInt8
  version : Version
  tables : Piece ReadTables.read
  count : List UInt8
  classes : List (ClassLayout tables.value version)
  header_takes : readHeader.Takes header version
  count_takes : varint.Takes count classes.length

namespace ArchiveLayout

def bytes (l : ArchiveLayout) : List UInt8 :=
  l.header ++ (l.tables.bytes ++ (l.count ++ l.classes.flatMap ClassLayout.bytes))

/-- The nodes of all types that reading builds. -/
def cost (l : ArchiveLayout) : Nat := l.tables.cost + (l.classes.map ClassLayout.cost).sum

def values (l : ArchiveLayout) : List (ClassDecl String) := l.classes.map ClassLayout.value

/-- Whether the archive is accepted is a matter of the budget alone. -/
theorem readClasses_bytes (l : ArchiveLayout) :
    l.cost ≤ nodeBudget l.bytes.length ∧ readClasses l.bytes = .ok l.values
      ∨ nodeBudget l.bytes.length < l.cost
        ∧ ∃ slot, readClasses l.bytes = .error (.typeTooLarge slot) := by
  have hclasses := Costs.counted (fun k : ClassLayout l.tables.value l.version => k.costs)
    (fun k _ => k.length_bytes_pos) l.count_takes
  have hbody : Costs (readBody l.version)
      (l.tables.bytes ++ (l.count ++ l.classes.flatMap ClassLayout.bytes)) l.cost l.values :=
    l.tables.costs.bind (f := fun tables => counted (readClass tables l.version)) hclasses
  have hheader := l.header_takes
    (l.tables.bytes ++ (l.count ++ l.classes.flatMap ClassLayout.bytes)) 0
  have hrun : (readWithin (nodeBudget l.bytes.length)).run (.ofBytes l.bytes)
      = ((readBody l.version).run (nodeBudget l.bytes.length)).run
        ⟨l.tables.bytes ++ (l.count ++ l.classes.flatMap ClassLayout.bytes),
          0 + l.header.length⟩ := by
    rw [readWithin, StateT.run_bind]
    show (readHeader.run ⟨l.bytes, 0⟩ >>= _) = _
    rw [bytes, hheader]
    rfl
  rw [readClasses_eq_bind, hrun]
  have hcases := hbody (nodeBudget l.bytes.length) [] (0 + l.header.length)
  rw [List.append_nil] at hcases
  rcases hcases with ⟨hcost, hok⟩ | ⟨hless, slot, herror⟩
  · rw [hok]
    exact .inl ⟨hcost, rfl⟩
  · rw [herror]
    exact .inr ⟨hless, slot, rfl⟩

end ArchiveLayout

theorem exists_layout {bytes : List UInt8} {cs : List (ClassDecl String)}
    (h : readClasses bytes = .ok cs) : ∃ l : ArchiveLayout, l.bytes = bytes ∧ l.values = cs := by
  obtain ⟨run, rfl⟩ := exists_wholeRun h
  obtain ⟨header, hheader, _, htakes⟩ := local_readHeader _ _ _ run.header_eq
  obtain ⟨tables, htables, hvalue⟩ := ReadTables.builds_read.parses _ _ _ _ _ run.tables_eq
  have hclasses := run.classes_eq
  have hsound := run.sound
  rw [← hvalue] at hclasses hsound
  obtain ⟨count, classes, hcount, hrest, hvalues⟩ :=
    (ClassLayout.parses hsound).counted hclasses
  refine ⟨⟨header, run.version, tables, count, classes, htakes, hcount⟩, ?_, hvalues⟩
  rw [htables, hrest, List.append_nil] at hheader
  exact hheader.symm

end ClassCatalog.Archive
