import Mathlib
import ClassCatalog.Proofs.Archive.Built
import ClassCatalog.Proofs.Archive.Delimited

/-! What reading an archive may cost: no type is deeper than 256 levels, no value deeper than 128,
and all types together have no more nodes than the length of the archive allows. The account is
exact: what is left of the budget and what was built always make up the whole of it. -/

namespace ClassCatalog

namespace Archive

def addSaturating (a b : Nat) : Nat := min (a + b) (2 ^ 64 - 1)

/-- The partial sums only grow, so to stop at the largest count on the way is to stop at it at the
end. -/
theorem foldl_addSaturating {ι : Type} (measure : ι → Nat) (xs : List ι) {start : Nat}
    (hstart : start ≤ 2 ^ 64 - 1) :
    xs.foldl (fun n x => addSaturating n (measure x)) start
      = min (start + (xs.map measure).sum) (2 ^ 64 - 1) := by
  induction xs generalizing start with
  | nil => exact (Nat.min_eq_left hstart).symm
  | cons x xs ih =>
    have hstep : addSaturating start (measure x) ≤ 2 ^ 64 - 1 := Nat.min_le_right ..
    rw [List.foldl_cons, ih hstep, List.map_cons, List.sum_cons, addSaturating]
    omega

/-- A run over a whole archive: the header, the tables and the classes, each from where the one
before it stopped and with what it left of the budget. -/
structure WholeRun (bytes : List UInt8) where
  version : Version
  afterHeader : Cursor
  tables : ReadTables
  left : Nat
  afterTables : Cursor
  classes : List (ClassDecl String)
  spare : Nat
  stop : Nat
  header_eq : readHeader.run (.ofBytes bytes) = .ok (version, afterHeader)
  tables_eq : (ReadTables.read.run (nodeBudget bytes.length)).run afterHeader
    = .ok ((tables, left), afterTables)
  classes_eq : ((counted (readClass tables version)).run left).run afterTables
    = .ok ((classes, spare), ⟨[], stop⟩)

theorem exists_wholeRun {bytes : List UInt8} {cs : List (ClassDecl String)}
    (h : readClasses bytes = .ok cs) : ∃ run : WholeRun bytes, run.classes = cs := by
  obtain ⟨spare, stop, hrun⟩ := readWithin_of_readClasses h
  rw [readWithin, StateT.run_bind] at hrun
  obtain ⟨⟨version, c⟩, hheader, hrun⟩ := bind_eq_ok hrun
  dsimp only at hrun
  rw [readBody, Metered.run_bind] at hrun
  obtain ⟨⟨⟨tables, left⟩, d⟩, htables, hclasses⟩ := bind_eq_ok hrun
  exact ⟨⟨version, c, tables, left, d, cs, spare, stop, hheader, htables, hclasses⟩, rfl⟩

namespace WholeRun

variable {bytes : List UInt8} (run : WholeRun bytes)

theorem sound : run.tables.Sound :=
  ReadTables.yields_read _ run.afterHeader _ run.afterTables run.tables_eq

theorem tables_paid :
    run.left + (run.tables.parts.map Ty.nodes).sum = nodeBudget bytes.length := by
  obtain ⟨front, built, hrest, _, hparts, _, hcosts⟩ :=
    ReadTables.builds_read _ _ _ _ _ run.tables_eq
  rw [hparts]
  exact hcosts.paid hrest run.tables_eq

theorem classes_paid :
    run.spare + ((run.classes.flatMap ClassDecl.types).map Ty.nodes).sum = run.left := by
  obtain ⟨front, built, hrest, _, htypes, _, hcosts⟩ :=
    (builds_readClass run.sound run.version).counted _ _ _ _ _ run.classes_eq
  dsimp only at htypes
  rw [htypes]
  exact hcosts.paid hrest run.classes_eq

theorem knows_of_mem {c : ClassDecl String} (hc : c ∈ run.classes) {t : Ty String}
    (ht : t ∈ c.types) : run.tables.Knows t := by
  obtain ⟨front, built, _, _, htypes, hknown, _⟩ :=
    (builds_readClass run.sound run.version).counted _ _ _ _ _ run.classes_eq
  rw [List.nil_append] at htypes
  apply hknown
  rw [← htypes]
  exact List.mem_flatMap.2 ⟨c, hc, ht⟩

theorem nodes_le_of_mem {e : TypeEntry} (he : e ∈ run.tables.types) :
    e.ty.nodes ≤ nodeBudget bytes.length + 1 := by
  have hparts : (e.ty.parts.map Ty.nodes).sum ≤ (run.tables.parts.map Ty.nodes).sum := by
    rw [ReadTables.parts, sum_map_flatMap]
    exact List.le_sum_of_mem (List.mem_map_of_mem (Array.mem_toList_iff.2 he))
  have hpaid := run.tables_paid
  rw [Ty.nodes_eq]
  omega

end WholeRun

/-- What the types and values of an index may be if it is read from `length` bytes. -/
structure WithinResources (length : Nat) (classes : List (ClassDecl String)) : Prop where
  depth : ∀ c ∈ classes, ∀ t ∈ c.types, t.depth ≤ 256
  nodes : ((classes.flatMap ClassDecl.types).map Ty.nodes).sum ≤ 256 * length + 2 ^ 20
  members : ∀ c ∈ classes, ∀ a ∈ c.annotations, ∀ m ∈ a.members, m.2.depth ≤ 128
  defaults : ∀ c ∈ classes, ∀ m ∈ c.methods, ∀ value ∈ m.default, value.depth ≤ 128

/-- The account of a run. Every entry of the type table says of its type what is true of it, also
where its nodes are counted with 64 bits; and what is left and what was built make up the budget,
so nothing was ever taken from a budget that did not have it. -/
structure WholeRun.Balanced {bytes : List UInt8} (run : WholeRun bytes) : Prop where
  nodes : ∀ e ∈ run.tables.types, e.nodes = e.ty.nodes
  depth : ∀ e ∈ run.tables.types, e.depth = e.ty.depth
  saturates : nodeBudget bytes.length + 1 < 2 ^ 64 → ∀ e ∈ run.tables.types,
    e.ty.parts.foldl (fun n part => addSaturating n part.nodes) 1 = e.nodes
  tables : run.left + (run.tables.parts.map Ty.nodes).sum = nodeBudget bytes.length
  classes : run.spare + ((run.classes.flatMap ClassDecl.types).map Ty.nodes).sum = run.left

theorem WholeRun.balanced {bytes : List UInt8} (run : WholeRun bytes) : run.Balanced where
  nodes e he := congrArg TypeEntry.nodes (run.sound e he).shape
  depth e he := congrArg TypeEntry.depth (run.sound e he).shape
  saturates hbudget e he := by
    have hnodes : e.nodes = e.ty.nodes := congrArg TypeEntry.nodes (run.sound e he).shape
    have hle := run.nodes_le_of_mem he
    rw [foldl_addSaturating Ty.nodes _ (by decide), ← Ty.nodes_eq, hnodes]
    omega
  tables := run.tables_paid
  classes := run.classes_paid

theorem WholeRun.withinResources {bytes : List UInt8} (run : WholeRun bytes)
    (hstorable : ∀ c ∈ run.classes, Storable c) :
    WithinResources bytes.length run.classes where
  depth c hc t ht := by
    obtain ⟨e, he, rfl⟩ := run.knows_of_mem hc ht
    exact (run.sound e he).depth
  nodes := by
    have htables := run.tables_paid
    have hclasses := run.classes_paid
    rw [nodeBudget] at htables
    omega
  members c hc a ha := (Value.membersDepth_le_iff _ _).1 ((hstorable c hc).members a ha)
  defaults c hc := (hstorable c hc).defaults

theorem WithinResources.of_perm {length : Nat} {cs ds : List (ClassDecl String)}
    (h : WithinResources length cs) (hperm : ds.Perm cs) : WithinResources length ds where
  depth c hc := h.depth c (hperm.mem_iff.1 hc)
  nodes := by
    rw [((hperm.flatMap_right ClassDecl.types).map Ty.nodes).sum_nat]
    exact h.nodes
  members c hc := h.members c (hperm.mem_iff.1 hc)
  defaults c hc := h.defaults c (hperm.mem_iff.1 hc)

theorem classes_of_read {bytes : List UInt8} {i : Index} (h : read bytes = .ok i) :
    ∃ cs, readClasses bytes = .ok cs ∧ Index.ofClasses cs = .ok i := by
  obtain ⟨cs, hcs, hindex⟩ := bind_eq_ok h
  refine ⟨cs, hcs, ?_⟩
  cases hof : Index.ofClasses cs with
  | error e =>
    rw [hof] at hindex
    cases hindex
  | ok j =>
    rw [hof] at hindex
    cases hindex
    rfl

/-- An index that reading accepts keeps to the limits of its archive, and the run that gave it
kept its account. -/
theorem withinResources_of_read {bytes : List UInt8} {i : Index} (h : read bytes = .ok i) :
    WithinResources bytes.length i.classes
      ∧ ∃ run : WholeRun bytes, i.classes.Perm run.classes ∧ run.Balanced := by
  obtain ⟨cs, hcs, hof⟩ := classes_of_read h
  obtain ⟨run, rfl⟩ := exists_wholeRun hcs
  have hperm := Index.perm_of_ofClasses hof
  exact ⟨(run.withinResources (storable_of_readClasses hcs)).of_perm hperm, run, hperm,
    run.balanced⟩

def nestedArchive : List UInt8 :=
  [0x43, 0x4C, 0x53, 0x50, 1, 2, 1, 65, 1, 102, 4, 0, 4, 3, 0, 1, 8, 1, 2, 4, 0, 0, 1, 2,
    1, 0, 33, 0, 0, 0, 0, 1, 1, 0, 3, 0, 0]

def nestedClass : ClassDecl String :=
  { ClassDecl.bare "A" ⟨33⟩ with
    fields := [⟨"f", ⟨0⟩, .parameterized "A" [.bounded true (.array 1 (.primitive .int))]⟩] }

theorem withinResources_nestedArchive : ∃ i, read nestedArchive = .ok i
    ∧ i.classes = [nestedClass]
    ∧ ((i.classes.flatMap ClassDecl.types).map Ty.nodes).sum = 4
    ∧ WithinResources nestedArchive.length i.classes
    ∧ ∃ run : WholeRun nestedArchive, i.classes.Perm run.classes ∧ run.Balanced := by
  have hnested : readClasses nestedArchive = .ok [nestedClass] := by cbv
  obtain ⟨i, hread, hclasses⟩ := read_of_classes hnested (List.pairwise_singleton _ nestedClass)
  refine ⟨i, hread, hclasses, ?_, withinResources_of_read hread⟩
  rw [hclasses]
  rfl

end Archive

end ClassCatalog
