import ClassCatalog.Proofs.Archive.Layout

/-! Archives of later versions. A record whose target is not known is stepped over, whatever comes
after the tag that says so, and so is what follows an annotation in its record. Adding such bytes
does not change the index, as long as the archive does not become shorter: the budget for types
goes by its length. -/

namespace ClassCatalog.Archive

open Metered (Costs)
open Scanner

def ReadTables.RefersToName (tables : ReadTables) (ref : List UInt8) : Prop :=
  ∃ slot, varint.Takes ref slot ∧ slot < tables.names.size

theorem ReadTables.RefersToName.takes {tables : ReadTables} {ref : List UInt8}
    (h : tables.RefersToName ref) : ∃ text, tables.name.Takes ref text := by
  obtain ⟨slot, htakes, hslot⟩ := h
  have hname : tables.nameAt slot = .ok tables.names[slot] := by
    rw [nameAt, Array.getElem?_eq_getElem hslot]
  refine ⟨tables.names[slot], htakes.bind_check ?_⟩
  rw [hname]
  exact .pure _

def Version.declarationTags (v : Version) : List UInt8 :=
  if v.hasComponents then [0, 1, 2, 5] else [0, 1, 2]

def Version.targetTags (v : Version) : List UInt8 := v.declarationTags ++ [3, 4, 6]

def useTags : List UInt8 := [0x00, 0x01, 0x10, 0x11, 0x12, 0x13, 0x14, 0x15, 0x16, 0x17]

section Unknown

variable (tables : ReadTables) (version : Version)

/-- A declaration: its tag and what comes with it. -/
inductive Declares : UInt8 → List UInt8 → Prop
  | type : Declares 0 []
  | field {ref : List UInt8} (href : tables.RefersToName ref) : Declares 1 ref
  | method {index : List UInt8} {n : Nat} (hindex : varint.Takes index n) (hn : n < UInt32.size) :
    Declares 2 index
  | component {ref : List UInt8} (hversion : version.hasComponents)
    (href : tables.RefersToName ref) : Declares 5 ref

/-- A target that the version does not define, up to the tag that says so. -/
inductive UnknownTarget : List UInt8 → Prop
  | target {tag : UInt8} (htag : tag ∉ version.targetTags) : UnknownTarget [tag]
  | enclosing {tag : UInt8} (htag : tag ∉ version.declarationTags) : UnknownTarget [4, tag]
  | use {enclosing tag : UInt8} {operand : List UInt8}
    (henclosing : Declares tables version enclosing operand) (htag : tag ∉ useTags) :
    UnknownTarget (4 :: enclosing :: (operand ++ [tag]))

/-- A record up to the tag of its target that is not known. -/
def UnknownStart (start : List UInt8) : Prop :=
  ∃ ref visible target, tables.RefersToName ref ∧ UnknownTarget tables version target
    ∧ start = ref ++ ([boolByte visible] ++ target)

variable {tables version} (owner : String)

theorem not_toNat_eq_of_not_mem {tags : List UInt8} {tag : UInt8} {n : Nat} (h : tag ∉ tags)
    (hmem : UInt8.ofNat n ∈ tags) : tag.toNat ≠ n := by
  rintro rfl
  rw [UInt8.ofNat_toNat] at hmem
  exact h hmem

theorem readDeclaration_of_unknown {tag : UInt8} (h : tag ∉ version.declarationTags) :
    readDeclaration tables version owner tag.toNat = pure none := by
  have hbase : tag ∉ ([0, 1, 2] : List UInt8) := by
    intro hmem
    apply h
    rw [Version.declarationTags]
    split
    · exact List.mem_append_left [5] hmem
    · exact hmem
  unfold readDeclaration
  split
  · next htag => exact absurd htag (not_toNat_eq_of_not_mem hbase (by decide))
  · next htag => exact absurd htag (not_toNat_eq_of_not_mem hbase (by decide))
  · next htag => exact absurd htag (not_toNat_eq_of_not_mem hbase (by decide))
  · next htag =>
    split
    · next hversion =>
      rw [Version.declarationTags, if_pos hversion] at h
      exact absurd htag (not_toNat_eq_of_not_mem h (by decide))
    · rfl
  · rfl

theorem Declares.costs {tag : UInt8} {operand : List UInt8}
    (h : Declares tables version tag operand) :
    ∃ d, Costs (readDeclaration tables version owner tag.toNat) operand 0 (some d) := by
  cases h with
  | type => exact ⟨DeclRef.type owner, Costs.pure _⟩
  | field href =>
    obtain ⟨text, htext⟩ := href.takes
    exact ⟨DeclRef.field owner text, (Costs.scan htext).map fun n => some (DeclRef.field owner n)⟩
  | @method _ n hindex hn =>
    have hread : Costs readIndex operand 0 (UInt32.ofNat n) :=
      (Costs.scan (hindex.below hn)).map UInt32.ofNat
    exact ⟨DeclRef.method owner (UInt32.ofNat n), hread.map fun n => some (DeclRef.method owner n)⟩
  | component hversion href =>
    obtain ⟨text, htext⟩ := href.takes
    have hread : Costs (readDeclaration tables version owner 5) operand 0
        (some (.component owner text)) := by
      rw [readDeclaration, if_pos hversion]
      exact (Costs.scan htext).map fun n => some (DeclRef.component owner n)
    exact ⟨_, hread⟩

theorem costs_readUse_of_unknown {tag : UInt8} (h : tag ∉ useTags) :
    Costs readUse [tag] 0 none := by
  refine .scan_bind (takes_byte tag) ?_
  split
  case h_11 => exact .pure none
  all_goals
    next htag => exact absurd htag (not_toNat_eq_of_not_mem h (by decide))

theorem UnknownTarget.costs {target : List UInt8} (h : UnknownTarget tables version target) :
    Costs (readTarget tables version owner) target 0 none := by
  cases h with
  | @target tag htag =>
    have hdeclaration : tag ∉ version.declarationTags :=
      fun hmem => htag (List.mem_append_left _ hmem)
    have hother : tag ∉ ([3, 4, 6] : List UInt8) := fun hmem => htag (List.mem_append_right _ hmem)
    refine .scan_bind (takes_byte tag) ?_
    split
    · next hsix => exact absurd hsix (not_toNat_eq_of_not_mem hother (by decide))
    · next hthree => exact absurd hthree (not_toNat_eq_of_not_mem hother (by decide))
    · next hfour => exact absurd hfour (not_toNat_eq_of_not_mem hother (by decide))
    · rw [readDeclaration_of_unknown owner hdeclaration]
      exact .pure none
  | @enclosing tag htag =>
    have htype : Costs (readTypeTarget tables version owner) [tag] 0 none := by
      refine .scan_bind (takes_byte tag) ?_
      rw [readDeclaration_of_unknown owner htag]
      exact .pure none
    exact .scan_bind (takes_byte 4) (htype.map _)
  | @use enclosing tag operand henclosing htag =>
    obtain ⟨d, hd⟩ := henclosing.costs owner
    have htype : Costs (readTypeTarget tables version owner) (enclosing :: (operand ++ [tag])) 0
        none := by
      refine .scan_bind (takes_byte enclosing) (hd.free_bind ?_)
      exact (costs_readUse_of_unknown htag).free_check (.pure none)
    exact .scan_bind (takes_byte 4) (htype.map _)

/-- Where the target is not known, nothing more is read and nothing has been paid. -/
theorem UnknownStart.costs {start : List UInt8} (h : UnknownStart tables version start) :
    Costs (readUseOf tables version owner) start 0 none := by
  obtain ⟨ref, visible, target, href, htarget, rfl⟩ := h
  obtain ⟨text, htext⟩ := href.takes
  refine .scan_bind htext (.scan_bind (takes_bool visible) ?_)
  exact (htarget.costs owner).free_check (.pure none)

end Unknown

section Successor

variable {tables : ReadTables} {version : Version} {owner : String}

def RecordLayout.unknown {start : List UInt8} (h : UnknownStart tables version start)
    (rest size : List UInt8) (hsize : varint.Takes size (start ++ rest).length) :
    RecordLayout tables version owner where
  size := size
  used := ⟨start, 0, none, h.costs owner⟩
  rest := rest
  size_takes := hsize

def RecordLayout.withRest (r : RecordLayout tables version owner) (rest size : List UInt8)
    (hsize : varint.Takes size (r.used.bytes ++ rest).length) :
    RecordLayout tables version owner :=
  { r with rest := rest, size := size, size_takes := hsize }

/-- Records as a later version may write them: with one more that is not known, at any place, or
with more bytes in one, anywhere after what is read of it. -/
inductive Succeeds : List (RecordLayout tables version owner) →
    List (RecordLayout tables version owner) → Prop
  | insert (before after : List (RecordLayout tables version owner)) {start : List UInt8}
    (h : UnknownStart tables version start) (rest size : List UInt8)
    (hsize : varint.Takes size (start ++ rest).length) :
    Succeeds (before ++ after) (before ++ .unknown h rest size hsize :: after)
  | extend (before after : List (RecordLayout tables version owner))
    (r : RecordLayout tables version owner) {front back : List UInt8}
    (hrest : r.rest = front ++ back) (more size : List UInt8)
    (hsize : varint.Takes size (r.used.bytes ++ (front ++ more ++ back)).length) :
    Succeeds (before ++ r :: after)
      (before ++ r.withRest (front ++ more ++ back) size hsize :: after)

variable {records records' : List (RecordLayout tables version owner)}

theorem Succeeds.cost_eq (h : Succeeds records records') :
    (records'.map fun r => r.used.cost).sum = (records.map fun r => r.used.cost).sum := by
  cases h with
  | insert before after h rest size hsize =>
    rw [List.map_append, List.map_append, List.map_cons, List.sum_append_nat, List.sum_append_nat,
      List.sum_cons]
    exact congrArg (_ + ·) (Nat.zero_add _)
  | extend before after r hrest more size hsize =>
    simp only [List.map_append, List.map_cons]
    rfl

theorem Succeeds.filterMap_eq (h : Succeeds records records') :
    records'.filterMap (fun r => r.used.value) = records.filterMap (fun r => r.used.value) := by
  cases h with
  | insert before after h rest size hsize =>
    rw [List.filterMap_append, List.filterMap_append]
    rfl
  | extend before after r hrest more size hsize => simp only [List.filterMap_append]; rfl

def sizeDigits (records : List (RecordLayout tables version owner)) : List UInt8 :=
  records.flatMap (·.size)

theorem Succeeds.length_le (h : Succeeds records records') :
    (records.flatMap RecordLayout.bytes).length + (sizeDigits records').length
      ≤ (records'.flatMap RecordLayout.bytes).length + (sizeDigits records).length := by
  cases h with
  | insert before after h rest size hsize =>
    simp only [sizeDigits, RecordLayout.bytes, RecordLayout.unknown, List.flatMap_append,
      List.flatMap_cons, List.length_append]
    omega
  | extend before after r hrest more size hsize =>
    simp only [sizeDigits, RecordLayout.bytes, RecordLayout.withRest, hrest, List.flatMap_append,
      List.flatMap_cons, List.length_append]
    omega

def ClassLayout.withRecords (k : ClassLayout tables version) (count : List UInt8)
    (records : List (RecordLayout tables version k.head.value.name))
    (hcount : varint.Takes count records.length) : ClassLayout tables version :=
  { k with count := count, records := records, count_takes := hcount }

def ArchiveLayout.setClass (l : ArchiveLayout) (place : Nat)
    (k : ClassLayout l.tables.value l.version) : ArchiveLayout :=
  { l with
    classes := l.classes.set place k
    count_takes := by
      rw [List.length_set]
      exact l.count_takes }

theorem map_set_of_eq {ι κ : Type} (f : ι → κ) {xs : List ι} {place : Nat} {x y : ι}
    (h : xs[place]? = some x) (hy : f y = f x) : (xs.set place y).map f = xs.map f := by
  obtain ⟨hlt, rfl⟩ := List.getElem?_eq_some_iff.1 h
  have hmap : place < (xs.map f).length := by rwa [List.length_map]
  rw [List.map_set, hy, ← List.getElem_map f (h := hmap), List.set_getElem_self]

theorem length_flatMap_set {ι κ : Type} (f : ι → List κ) {xs : List ι} {place : Nat} {x : ι}
    (h : xs[place]? = some x) (y : ι) :
    ((xs.set place y).flatMap f).length + (f x).length
      = (xs.flatMap f).length + (f y).length := by
  obtain ⟨hlt, rfl⟩ := List.getElem?_eq_some_iff.1 h
  obtain ⟨before, after, hxs, _, hset⟩ : ∃ before after, xs = before ++ xs[place] :: after
      ∧ before.length = place ∧ xs.set place y = before ++ y :: after := List.exists_of_set hlt
  rw [hset]
  conv in (xs.flatMap f) => rw [hxs]
  simp only [List.flatMap_append, List.flatMap_cons, List.length_append]
  omega

end Successor

/-- But for the digits of the numbers nothing gets shorter. -/
theorem ArchiveLayout.length_le {l : ArchiveLayout} {place : Nat}
    {k : ClassLayout l.tables.value l.version} (hplace : l.classes[place]? = some k)
    {count : List UInt8} {records : List (RecordLayout l.tables.value l.version k.head.value.name)}
    (hcount : varint.Takes count records.length) (h : Succeeds k.records records) :
    l.bytes.length + (count ++ sizeDigits records).length
      ≤ (l.setClass place (k.withRecords count records hcount)).bytes.length
        + (k.count ++ sizeDigits k.records).length := by
  have hset := length_flatMap_set ClassLayout.bytes hplace (k.withRecords count records hcount)
  have hrecords := h.length_le
  have hclass : (k.withRecords count records hcount).bytes
      = k.head.bytes ++ (count ++ records.flatMap RecordLayout.bytes) := rfl
  have hall : (l.setClass place (k.withRecords count records hcount)).bytes
      = l.header ++ (l.tables.bytes ++ (l.count
        ++ (l.classes.set place (k.withRecords count records hcount)).flatMap
          ClassLayout.bytes)) := rfl
  rw [hclass, ClassLayout.bytes] at hset
  rw [hall, bytes]
  simp only [List.length_append] at hset ⊢
  omega

/-- Whoever adds a record of a kind that is not known yet, or more to a record, leaves the index
as it is. Only if the archive got shorter, since numbers that were written with more digits than
they need have lost some, may its types now be too many for its length. -/
theorem read_of_succeeds {bytes : List UInt8} {i : Index} (h : read bytes = .ok i) :
    (∃ l : ArchiveLayout, l.bytes = bytes ∧ readClasses bytes = .ok l.values)
      ∧ ∀ l : ArchiveLayout, l.bytes = bytes → ∀ place k, l.classes[place]? = some k →
        ∀ count records (hcount : varint.Takes count records.length),
          Succeeds k.records records →
          let successor := (l.setClass place (k.withRecords count records hcount)).bytes
          l.cost ≤ nodeBudget successor.length ∧ read successor = .ok i
            ∨ (successor.length < bytes.length
                ∧ (count ++ sizeDigits records).length < (k.count ++ sizeDigits k.records).length)
              ∧ nodeBudget successor.length < l.cost
              ∧ ∃ slot, read successor = .error (.typeTooLarge slot) := by
  obtain ⟨cs, hcs, hof⟩ := classes_of_read h
  refine ⟨?_, ?_⟩
  · obtain ⟨l, rfl, rfl⟩ := exists_layout hcs
    exact ⟨l, rfl, hcs⟩
  · rintro l rfl place k hplace count records hcount hsucceeds
    have hvalue : (k.withRecords count records hcount).value = k.value :=
      congrArg (fun as => { k.head.value with annotations := as }) hsucceeds.filterMap_eq
    have hcost : (k.withRecords count records hcount).cost = k.cost :=
      congrArg (k.head.cost + ·) hsucceeds.cost_eq
    have hvalues : (l.setClass place (k.withRecords count records hcount)).values = l.values :=
      map_set_of_eq ClassLayout.value hplace hvalue
    have hcosts : (l.setClass place (k.withRecords count records hcount)).cost = l.cost :=
      congrArg (fun costs => l.tables.cost + costs.sum)
        (map_set_of_eq ClassLayout.cost hplace hcost)
    have hlength := ArchiveLayout.length_le hplace hcount hsucceeds
    dsimp only
    generalize l.setClass place (k.withRecords count records hcount) = l' at hvalues hcosts hlength
    rcases l.readClasses_bytes with ⟨hfits, hok⟩ | ⟨_, slot, herror⟩
    · rw [← hcosts]
      rcases l'.readClasses_bytes with ⟨hfits', hok'⟩ | ⟨hless, slot, herror'⟩
      · refine .inl ⟨hfits', ?_⟩
        rw [hok] at hcs
        rw [hvalues, Except.ok.inj hcs] at hok'
        rw [read, hok']
        show (Index.ofClasses cs).mapError ArchiveError.indexing = .ok i
        rw [hof]
        rfl
      · have hshorter : l'.bytes.length < l.bytes.length := by
          rw [nodeBudget] at hfits hless
          omega
        refine .inr ⟨⟨hshorter, by omega⟩, hless, slot, ?_⟩
        rw [read, herror']
        rfl
    · rw [herror] at hcs
      cases hcs

def describedReadTables : ReadTables := ⟨#["A", "v"], #[.leaf (.primitive .int)]⟩

theorem sound_describedReadTables : describedReadTables.Sound := by
  intro e he
  obtain rfl : e = .leaf (.primitive .int) := by simpa [describedReadTables] using he
  exact TypeEntry.isSound_leaf rfl

theorem costs_describedTables : Costs ReadTables.read describedTables 0 describedReadTables := by
  have hrun : (ReadTables.read.run 0).run (.ofBytes describedTables)
      = .ok ((describedReadTables, 0), ⟨[], 8⟩) := by cbv
  exact ReadTables.builds_read.costs_of_run hrun

theorem costs_describedHead : Costs (readHead describedReadTables .v3) describedHead 4
    { describedClass with annotations := [] } := by
  have hrun : ((readHead describedReadTables .v3).run 4).run (.ofBytes describedHead)
      = .ok (({ describedClass with annotations := [] }, 0), ⟨[], 31⟩) := by cbv
  exact (builds_readHead sound_describedReadTables .v3).costs_of_run hrun

theorem costs_onComponent : Costs (readUseOf describedReadTables .v3 "A") onComponentBytes 1
    (some onComponent) := by
  have hrun : ((readUseOf describedReadTables .v3 "A").run 1).run (.ofBytes onComponentBytes)
      = .ok ((some onComponent, 0), ⟨[], 16⟩) := by cbv
  exact (builds_readUseOf sound_describedReadTables .v3 "A").costs_of_run hrun

theorem costs_onParameter : Costs (readUseOf describedReadTables .v3 "A") onParameterBytes 1
    (some onParameter) := by
  have hrun : ((readUseOf describedReadTables .v3 "A").run 1).run (.ofBytes onParameterBytes)
      = .ok ((some onParameter, 0), ⟨[], 10⟩) := by cbv
  exact (builds_readUseOf sound_describedReadTables .v3 "A").costs_of_run hrun

def componentRecord : RecordLayout describedReadTables .v3 "A" where
  size := [16]
  used := ⟨onComponentBytes, 1, some onComponent, costs_onComponent⟩
  rest := []
  size_takes := takes_varint (n := 16) (by decide)

def parameterRecord : RecordLayout describedReadTables .v3 "A" where
  size := [10]
  used := ⟨onParameterBytes, 1, some onParameter, costs_onParameter⟩
  rest := []
  size_takes := takes_varint (n := 10) (by decide)

def describedClassLayout : ClassLayout describedReadTables .v3 where
  head := ⟨describedHead, 4, { describedClass with annotations := [] }, costs_describedHead⟩
  count := [2]
  records := [componentRecord, parameterRecord]
  count_takes := takes_varint (n := 2) (by decide)

def describedLayout : ArchiveLayout where
  header := [0x43, 0x4C, 0x53, 0x50, 3]
  version := .v3
  tables := ⟨describedTables, 0, describedReadTables, costs_describedTables⟩
  count := [1]
  classes := [describedClassLayout]
  header_takes := fun _ _ => rfl
  count_takes := takes_varint (n := 1) (by decide)

theorem unknownStart_described : UnknownStart describedReadTables .v3 [0, 0, 4, 0, 99] :=
  ⟨[0], false, [4, 0, 99], ⟨0, takes_varint (n := 0) (by decide), by decide⟩,
    .use .type (by decide), rfl⟩

/-- A third annotation between the two, on something unknown and with two bytes of which nothing
else is said; and two bytes more at the end of the second. -/
theorem read_of_succeeds_describedArchive : ∃ i, read describedArchive = .ok i
    ∧ i.classes = [describedClass]
    ∧ read (describedFront ++ [3, 16] ++ onComponentBytes ++ [7, 0, 0, 4, 0, 99, 7, 7]
      ++ [10] ++ onParameterBytes) = .ok i
    ∧ read (describedFront ++ [2, 16] ++ onComponentBytes ++ [12] ++ onParameterBytes ++ [9, 9])
      = .ok i := by
  obtain ⟨i, hread, hclasses⟩ := exists_read_describedArchive
  have hseven : varint.Takes [7] 7 := takes_varint (n := 7) (by decide)
  have htwelve : varint.Takes [12] 12 := takes_varint (n := 12) (by decide)
  have hthree : varint.Takes [3] 3 := takes_varint (n := 3) (by decide)
  have htwo : varint.Takes [2] 2 := takes_varint (n := 2) (by decide)
  have hinsert : Succeeds [componentRecord, parameterRecord]
      [componentRecord, .unknown unknownStart_described [7, 7] [7] hseven, parameterRecord] :=
    .insert [componentRecord] [parameterRecord] unknownStart_described [7, 7] [7] hseven
  have hrest : parameterRecord.rest = [] ++ [] := rfl
  have hextend : Succeeds [componentRecord, parameterRecord]
      [componentRecord, parameterRecord.withRest [9, 9] [12] htwelve] :=
    .extend [componentRecord] [] parameterRecord hrest [9, 9] [12] htwelve
  have hsuccessors := (read_of_succeeds hread).2 describedLayout rfl 0 describedClassLayout rfl
  refine ⟨i, hread, hclasses, ?_, ?_⟩
  · have hcases := hsuccessors [3]
      [componentRecord, .unknown unknownStart_described [7, 7] [7] hseven, parameterRecord]
      hthree hinsert
    rcases hcases with hok | ⟨hshort, _⟩
    · exact hok.2
    · have hlength : 82 < 74 := hshort.1
      exact absurd hlength (by decide)
  · have hcases := hsuccessors [2]
      [componentRecord, parameterRecord.withRest [9, 9] [12] htwelve] htwo hextend
    rcases hcases with hok | ⟨hshort, _⟩
    · exact hok.2
    · have hlength : 76 < 74 := hshort.1
      exact absurd hlength (by decide)

theorem costs_bareHead {tables : ReadTables} (hnames : tables.names = #["A"]) :
    Costs (readHead tables .v1) [0, 33, 0, 0, 0, 0, 0, 0] 0 (ClassDecl.bare "A" ⟨33⟩) := by
  obtain ⟨_, types⟩ := tables
  obtain rfl := hnames
  exact fun budget rest offset => .inl ⟨Nat.zero_le _, rfl⟩

section Bare

variable (tables : Piece ReadTables.read) (hnames : tables.value.names = #["A"])

def bareClass (count : List UInt8) (hcount : varint.Takes count 0) :
    ClassLayout tables.value .v1 where
  head := ⟨[0, 33, 0, 0, 0, 0, 0, 0], 0, ClassDecl.bare "A" ⟨33⟩, costs_bareHead hnames⟩
  count := count
  records := []
  count_takes := hcount

def bareLayout (count : List UInt8) (hcount : varint.Takes count 0) : ArchiveLayout where
  header := [0x43, 0x4C, 0x53, 0x50, 1]
  version := .v1
  tables := tables
  count := [1]
  classes := [bareClass tables hnames count hcount]
  header_takes := fun _ _ => rfl
  count_takes := takes_varint (n := 1) (by decide)

include hnames in
theorem unknownStart_bare : UnknownStart tables.value .v1 [0, 0, 99] := by
  have hslot : 0 < tables.value.names.size := by
    rw [hnames]
    decide
  exact ⟨[0], false, [99], ⟨0, takes_varint (n := 0) (by decide), hslot⟩,
    .target (by decide), rfl⟩

end Bare

/-- A type table that doubles a type again and again, nearly as often as the budget allows. -/
def crowdedTypes : List UInt8 :=
  [1, 1, 65, 21, 1]
    ++ [0, 1, 2, 3, 4, 5, 6, 7, 8, 9, 10, 11, 12, 13, 14, 15, 16, 17].flatMap
      (fun k => [4, 0, 0, 2, k, k])
    ++ [4, 0, 0, 2, 14, 10, 4, 0, 0, 2, 10, 9]

theorem run_crowdedTypes :
    ((ReadTables.read.run (nodeBudget 149)).run (.ofBytes crowdedTypes)).map
      (fun r => (r.1.1.names, r.1.2, r.2.rest)) = .ok (#["A"], 300, []) := by cbv

theorem exists_crowdedTables : ∃ tables : Piece ReadTables.read, tables.bytes = crowdedTypes
    ∧ tables.value.names = #["A"] ∧ tables.cost + 300 = nodeBudget 149 := by
  have hmap := run_crowdedTypes
  cases hrun : (ReadTables.read.run (nodeBudget 149)).run (.ofBytes crowdedTypes) with
  | error e =>
    rw [hrun] at hmap
    cases hmap
  | ok r =>
    obtain ⟨⟨tables, left⟩, rest, stop⟩ := r
    rw [hrun] at hmap
    have hresult : (tables.names, left, rest) = (#["A"], 300, []) := Except.ok.inj hmap
    obtain ⟨hnames, hmore⟩ := Prod.mk.inj hresult
    obtain ⟨rfl, rfl⟩ := Prod.mk.inj hmore
    have hcosts := ReadTables.builds_read.costs_of_run hrun
    have hpaid := hcosts.paid (List.append_nil _).symm hrun
    exact ⟨⟨crowdedTypes, _, tables, hcosts⟩, rfl, hnames, (Nat.add_comm ..).trans hpaid⟩

def crowdedFront : List UInt8 :=
  [0x43, 0x4C, 0x53, 0x50, 1] ++ crowdedTypes ++ [1, 0, 33, 0, 0, 0, 0, 0, 0]

def longZero : List UInt8 := [0x80, 0x80, 0x80, 0x80, 0x80, 0x80, 0x80, 0x80, 0x80, 0]

/-- Where zero annotations were counted with ten digits and one is counted with one digit, the
archive gets shorter by more than the new record is long, and its types are now too many. -/
theorem crowded_successor_refused :
    ∃ (l : ArchiveLayout) (i : Index) (k : ClassLayout l.tables.value l.version)
      (records : List (RecordLayout l.tables.value l.version k.head.value.name))
      (hcount : varint.Takes [1] records.length),
      l.bytes = crowdedFront ++ longZero ∧ read l.bytes = .ok i ∧ l.classes[0]? = some k
        ∧ Succeeds k.records records
        ∧ (l.setClass 0 (k.withRecords [1] records hcount)).bytes
          = crowdedFront ++ [1, 3, 0, 0, 99]
        ∧ ∃ slot, read (crowdedFront ++ [1, 3, 0, 0, 99]) = .error (.typeTooLarge slot) := by
  obtain ⟨tables, hbytes, hnames, hcost⟩ := exists_crowdedTables
  have hzero : varint.Takes longZero 0 := fun _ _ => rfl
  have hone : varint.Takes [1] 1 := takes_varint (n := 1) (by decide)
  have hthree : varint.Takes [3] 3 := takes_varint (n := 3) (by decide)
  have hstart := unknownStart_bare tables hnames
  have hsucceeds : Succeeds
      ([] : List (RecordLayout tables.value .v1 "A")) [.unknown hstart [] [3] hthree] :=
    .insert [] [] hstart [] [3] hthree
  let l := bareLayout tables hnames longZero hzero
  let k := bareClass tables hnames longZero hzero
  let l' := l.setClass 0 (k.withRecords [1] [.unknown hstart [] [3] hthree] hone)
  have hl : l.bytes = crowdedFront ++ longZero := by
    show [0x43, 0x4C, 0x53, 0x50, 1] ++ (tables.bytes ++ _) = _
    rw [hbytes]
    rfl
  have hl' : l'.bytes = crowdedFront ++ [1, 3, 0, 0, 99] := by
    show [0x43, 0x4C, 0x53, 0x50, 1] ++ (tables.bytes ++ _) = _
    rw [hbytes]
    rfl
  have hvalues : readClasses l.bytes = .ok [ClassDecl.bare "A" ⟨33⟩] := by
    rcases l.readClasses_bytes with ⟨_, hok⟩ | ⟨hless, _⟩
    · exact hok
    · have hless' : nodeBudget 149 < tables.cost := by
        rw [hl] at hless
        exact hless
      omega
  have hrefused : ∃ slot, readClasses l'.bytes = .error (.typeTooLarge slot) := by
    rcases l'.readClasses_bytes with ⟨hfits, _⟩ | ⟨_, herror⟩
    · have hfits' : tables.cost ≤ nodeBudget 144 := by
        rw [hl'] at hfits
        exact hfits
      have hbudget : nodeBudget 144 + 300 < nodeBudget 149 := by decide
      omega
    · exact herror
  obtain ⟨i, hread, _⟩ := read_of_classes hvalues (List.pairwise_singleton _ _)
  obtain ⟨slot, hslot⟩ := hrefused
  refine ⟨l, i, k, [.unknown hstart [] [3] hthree], hone, hl, hread, rfl, hsucceeds, hl', slot, ?_⟩
  rw [← hl', read, hslot]
  rfl

end ClassCatalog.Archive
