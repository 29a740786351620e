import ClassCatalog.Proofs.Archive.Renaming
import ClassCatalog.Proofs.Archive.RoundTrip
import ClassCatalog.Proofs.Archive.Storable

/-! A written archive is determined by the classes alone: by their texts, not by their handles or
the order in which they came. Reading it and writing it again changes nothing. -/

namespace ClassCatalog

open NameTable (Entry)

namespace Archive

theorem holds_filter (v : Version) (c : ClassDecl String) :
    (v.keep c).annotations.filter v.holds = c.annotations.filter v.holds := by
  rw [v.keep_eq]
  exact (List.filter_filter ..).trans (by simp)

theorem methodItems_keep (v : Version) (m : MethodDecl String) :
    methodItems v (v.keepMethod m) = methodItems v m := by
  cases v <;> rfl

theorem headItems_keep (v : Version) (c : ClassDecl String) :
    headItems v (v.keep c) = headItems v c := by
  have hmethods : Item.counted (methodItems v) (c.methods.map v.keepMethod)
      = Item.counted (methodItems v) c.methods := by
    simp only [Item.counted, List.length_map, List.flatMap_map, methodItems_keep]
  rw [v.keep_eq]
  simp only [headItems, hmethods]
  cases v <;> rfl

theorem ofClass_keep (v : Version) (c : ClassDecl String) :
    ClassRecord.ofClass v (v.keep c) = .ofClass v c := by
  rw [ClassRecord.ofClass, ClassRecord.ofClass, headItems_keep, holds_filter]

theorem writeClasses_keep (v : Version) (cs : List (ClassDecl String)) :
    writeClasses v (cs.map v.keep) = writeClasses v cs := by
  have hrecords : (cs.map v.keep).map (ClassRecord.ofClass v) = cs.map (ClassRecord.ofClass v) := by
    simp only [List.map_map, Function.comp_def, ofClass_keep]
  rw [writeClasses, writeClasses, encodeClasses, encodeClasses, hrecords]

theorem write_of_read_write {v : Version} {bytes : List UInt8} {i j : Index}
    (hread : read bytes = .ok i) (hlength : (write v i).length < UInt64.size)
    (hagain : read (write v i) = .ok j) : write v j = write v i := by
  -- What was read can be stored, so the second reading gives what the version keeps of it.
  rcases read_write_cases (storable_of_read hread) hlength with
    ⟨_, k, hk, hclasses⟩ | ⟨_, e, _, herror⟩
  · obtain rfl : j = k := Except.ok.inj (hagain.symm.trans hk)
    rw [write, write, hclasses, writeClasses_keep]
  · rw [herror] at hagain
    cases hagain

theorem writeFrom_eq {t : NameTable} {table : HandleTable} (h : table.Valid t) (v : Version) :
    writeFrom v t (table.classes t) = writeClasses v ((table.classes t).map (·.resolve t)) := by
  -- Both are the archive of one list of classes over the entries of the name table.
  obtain ⟨ks, hks⟩ := h.exists_rename
  have htexts : (table.classes t).map (·.resolve t) = ks.map (ClassDecl.rename Entry.text) := by
    rw [← hks, List.map_map]
    exact List.map_congr_left fun k _ => k.resolve_rename
  have htext : t.text ∘ Entry.name = (Entry.text : t.Entry → String) := funext Entry.text_name
  calc writeFrom v t (table.classes t)
    _ = encodeClasses t.text v (ks.map (ClassDecl.rename Entry.name)) := by rw [hks, writeFrom]
    _ = encodeClasses Entry.text v ks := by
      rw [encodeClasses_rename Entry.name_injective, htext]
    _ = encodeClasses id v (ks.map (ClassDecl.rename Entry.text)) := by
      rw [encodeClasses_rename Entry.text_injective]
      rfl
    _ = writeClasses v ((table.classes t).map (·.resolve t)) := by rw [htexts, writeClasses]

theorem exists_table_of_run {bytes : List UInt8} {t u : NameTable} {cs : List (ClassDecl Name)}
    (h : (readInto bytes).run.run t = (.ok cs, u)) :
    ∃ (table : HandleTable) (i : Index), table.Valid u ∧ table.classes u = cs
      ∧ read bytes = .ok i ∧ cs.map (·.resolve u) = i.classes := by
  have houtcome := textOutcome_readInto bytes t
  rw [textOutcome, h] at houtcome
  cases hread : read bytes with
  | error e =>
    rw [hread] at houtcome
    cases houtcome
  | ok i =>
    rw [hread] at houtcome
    obtain ⟨texts, hclasses, -⟩ := bind_eq_ok hread
    obtain ⟨ks, -, hname⟩ := (interns_all texts t).2 _ (.refl _)
    rw [run_readInto_of_ok hclasses, Prod.mk.injEq, ← hname] at h
    obtain ⟨hresult, rfl⟩ := h
    cases htable : HandleTable.ofClasses _ (ks.map (ClassDecl.rename Entry.name)) with
    | error e =>
      rw [htable] at hresult
      cases hresult
    | ok table =>
      rw [htable] at hresult
      exact ⟨table, i, HandleTable.valid_ofClasses htable, Except.ok.inj hresult, rfl,
        Except.ok.inj houtcome⟩

theorem writeFrom_of_run {bytes : List UInt8} {t u : NameTable} {cs : List (ClassDecl Name)}
    (h : (readInto bytes).run.run t = (.ok cs, u)) (v : Version) :
    ∃ i, read bytes = .ok i ∧ writeFrom v u cs = write v i := by
  obtain ⟨table, i, hvalid, rfl, hread, hclasses⟩ := exists_table_of_run h
  exact ⟨i, hread, by rw [writeFrom_eq hvalid, hclasses, write]⟩

/-- Two tables of the same classes are one archive, in whatever order the classes were added and
whichever name tables hold their names. And classes that were read, from whatever bytes, and
written are written the same when they are read once more. Archives are byte strings whose length
a 64-bit number can hold. -/
theorem writeFrom_canonical (v : Version) :
    (∀ (t u : NameTable) (table table' : HandleTable), table.Valid t → table'.Valid u →
      (∀ c, c ∈ (table.classes t).map (·.resolve t) ↔ c ∈ (table'.classes u).map (·.resolve u)) →
      writeFrom v t (table.classes t) = writeFrom v u (table'.classes u))
    ∧ ∀ (bytes : List UInt8) (t u t' u' : NameTable) (cs cs' : List (ClassDecl Name)),
      (readInto bytes).run.run t = (.ok cs, u) →
      (writeFrom v u cs).length < UInt64.size →
      (readInto (writeFrom v u cs)).run.run t' = (.ok cs', u') →
      writeFrom v u' cs' = writeFrom v u cs := by
  constructor
  · intro t u table table' hvalid hvalid' hmem
    -- Both lists are in the order of the texts, so the same classes are the same list.
    have hsame := hvalid.ordered.eq_of_mem_iff hvalid'.ordered hmem
    rw [writeFrom_eq hvalid, writeFrom_eq hvalid', hsame]
  · intro bytes t u t' u' cs cs' hrun hlength hrun'
    obtain ⟨i, hread, hwrite⟩ := writeFrom_of_run hrun v
    rw [hwrite] at hlength hrun' ⊢
    obtain ⟨j, hread', hwrite'⟩ := writeFrom_of_run hrun' v
    rw [hwrite']
    exact write_of_read_write hread hlength hread'

def twoClasses : List (ClassDecl String) := [.bare "A" ⟨0x21⟩, .bare "B" ⟨0x21⟩]

def paddedArchive : List UInt8 :=
  [0x43, 0x4C, 0x53, 0x50, 3, 3, 1, 65, 1, 118, 1, 90, 1, 0, 4, 129, 0] ++ describedHead
    ++ [2, 16] ++ onComponentBytes ++ [10] ++ onParameterBytes

theorem read_paddedArchive : ∃ i, read paddedArchive = .ok i ∧ i.classes = [describedClass] := by
  have hpadded : readClasses paddedArchive = .ok [describedClass] := by rfl
  exact read_of_classes hpadded (List.pairwise_singleton _ _)

theorem writeFrom_canonical_padded :
    (∃ table table',
      HandleTable.ofClasses ((internAll twoClasses).run .fresh).2
        ((internAll twoClasses).run .fresh).1 = .ok table
      ∧ HandleTable.ofClasses ((internAll twoClasses.reverse).run .empty).2
        ((internAll twoClasses.reverse).run .empty).1 = .ok table'
      ∧ writeFrom .v3 ((internAll twoClasses).run .fresh).2
          (table.classes ((internAll twoClasses).run .fresh).2)
        = writeFrom .v3 ((internAll twoClasses.reverse).run .empty).2
          (table'.classes ((internAll twoClasses.reverse).run .empty).2))
    ∧ ∃ cs u cs' u', (readInto paddedArchive).run.run .fresh = (.ok cs, u)
      ∧ writeFrom .v3 u cs = describedArchive
      ∧ (readInto (writeFrom .v3 u cs)).run.run .empty = (.ok cs', u')
      ∧ writeFrom .v3 u' cs' = writeFrom .v3 u cs := by
  obtain ⟨hsame, hagain⟩ := writeFrom_canonical .v3
  constructor
  · obtain ⟨table, htable, hvalid, hmem⟩ := HandleTable.exists_ofClasses_interned
      (show (twoClasses.map (·.name)).Nodup by decide) .fresh
    obtain ⟨table', htable', hvalid', hmem'⟩ := HandleTable.exists_ofClasses_interned
      (show (twoClasses.reverse.map (·.name)).Nodup by decide) .empty
    refine ⟨table, table', htable, htable', hsame _ _ _ _ hvalid hvalid' fun c => ?_⟩
    rw [hmem, hmem', List.mem_reverse]
  · obtain ⟨i, hread, hclasses⟩ := read_paddedArchive
    obtain ⟨cs, u, hrun, -⟩ := run_readInto hread .fresh
    obtain ⟨j, hj, hwrite⟩ := writeFrom_of_run hrun .v3
    obtain rfl : i = j := Except.ok.inj (hread.symm.trans hj)
    have harchive : write .v3 i = describedArchive := by
      rw [write, hclasses, writeClasses_describedClass]
    have hlength : (write .v3 i).length < UInt64.size := by
      rw [harchive]
      decide
    have hlimits : WithinLimits .v3 i.classes := by
      rw [hclasses]
      exact withinLimits_describedClass .v3
    rcases read_write_cases (storable_of_read hread) hlength with ⟨_, k, hk, _⟩ | ⟨hnot, _⟩
    · obtain ⟨cs', u', hrun', -⟩ := run_readInto hk .empty
      rw [← hwrite] at hlength hrun' harchive
      exact ⟨cs, u, cs', u', hrun, harchive, hrun', hagain _ _ _ _ _ _ _ hrun hlength hrun'⟩
    · exact absurd hlimits hnot

end Archive

end ClassCatalog
