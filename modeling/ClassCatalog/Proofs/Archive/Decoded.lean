import ClassCatalog.Proofs.Archive.RoundTrip
import ClassCatalog.Proofs.ClassFile.Annotations
import ClassCatalog.Proofs.ClassFile.WildcardTower

/-! Archives of decoded classes. The values and targets of a decoded class can always be read
back. Its types can be too deep: a wildcard adds a level to a type, but not to the nesting of the
signature. -/

namespace ClassCatalog.Archive

open ClassFile (towerFile towerClass)

namespace Symbols

theorem values_add_tower {n : Nat} {types : Numbering (Ty String)}
    (h : types.values.toList = (List.range (n + 1)).map Ty.tower) :
    (types.add (Ty.tower (n + 1))).values.toList = (List.range (n + 2)).map Ty.tower := by
  have hnew : Ty.tower (n + 1) ∉ types.values := by
    rw [← Array.mem_toList_iff, h, List.mem_map]
    rintro ⟨k, hk, heq⟩
    rw [List.mem_range, Ty.tower_injective heq] at hk
    omega
  rw [Numbering.values_add_of_new (Numbering.slot?_eq_none hnew), Array.toList_push, h,
    List.range_succ (n := n + 1), List.map_append]
  rfl

theorem addType_tower (n : Nat) {s : Symbols String} (h : s.types.values = #[]) :
    (addType (Ty.tower n) s).names = s.names.add "A"
      ∧ (addType (Ty.tower n) s).types.values.toList = (List.range (n + 1)).map Ty.tower := by
  have hnone : ∀ t, s.types.slot? t = none := fun t => Numbering.slot?_eq_none (by simp [h])
  induction n generalizing s with
  | zero =>
    have henter : addType (Ty.tower 0) s = ⟨s.names.add "A", s.types.add (.named "A")⟩ := by
      rw [Ty.tower, addType, enter, hnone]
      rfl
    rw [henter, Numbering.values_add_of_new (hnone _), h]
    exact ⟨rfl, rfl⟩
  | succ n ih =>
    by_cases heven : n % 2 = 0
    · have henter : addType (Ty.tower (n + 1)) s
          = { addType (Ty.tower n) s with
              types := (addType (Ty.tower n) s).types.add (Ty.tower (n + 1)) } := by
        rw [Ty.tower, if_pos heven, addType, enter, hnone]
      rw [henter]
      exact ⟨(ih h hnone).1, values_add_tower (ih h hnone).2⟩
    · have henter : addType (Ty.tower (n + 1)) s
          = { addType (Ty.tower n) (s.addName "A") with
              types := (addType (Ty.tower n) (s.addName "A")).types.add (Ty.tower (n + 1)) } := by
        rw [Ty.tower, if_neg heven, addType, enter, hnone]
        rfl
      have htwice : (s.names.add "A").add "A" = s.names.add "A" :=
        Numbering.add_of_slot? (Numbering.slot?_add_self _ _)
      obtain ⟨hnames, htypes⟩ := ih (s := s.addName "A") h hnone
      rw [henter]
      exact ⟨hnames.trans htwice, values_add_tower htypes⟩

theorem length_nameBytes_le (s : Symbols String) (name : String) :
    (s.nameBytes name).length ≤ s.names.size + 1 :=
  Nat.le_trans (Varint.length_encode_le _) (Nat.succ_le_succ (Numbering.slot_le_size _ _))

theorem length_typeBytes_le (s : Symbols String) (t : Ty String) :
    (s.typeBytes t).length ≤ s.types.size + 1 :=
  Nat.le_trans (Varint.length_encode_le _) (Nat.succ_le_succ (Numbering.slot_le_size _ _))

theorem length_typeBytes?_le (s : Symbols String) (t : Ty String) :
    (s.typeBytes? (some t)).length ≤ s.types.size + 2 :=
  Nat.le_trans (Varint.length_encode_le _)
    (Nat.succ_le_succ (Nat.succ_le_succ (Numbering.slot_le_size _ _)))

theorem length_typeRecord_tower_le (s : Symbols String) (n : Nat) :
    (s.typeRecord (Ty.tower n)).length ≤ s.names.size + s.types.size + 5 := by
  have hname := s.length_nameBytes_le "A"
  cases n with
  | zero =>
    have hrecord : (s.typeRecord (Ty.tower 0)).length = 1 + (s.nameBytes "A").length :=
      Nat.add_comm _ _
    omega
  | succ n =>
    rw [Ty.tower]
    split
    · have hbound := s.length_typeBytes?_le (Ty.tower n)
      have hrecord : (s.typeRecord (.bounded true (Ty.tower n))).length
          = 2 + (s.typeBytes? (some (Ty.tower n))).length := by
        rw [Nat.add_comm]
        rfl
      omega
    · have hargument := s.length_typeBytes_le (Ty.tower n)
      have hrecord : s.typeRecord (.parameterized "A" [Ty.tower n])
          = 4 :: (s.nameBytes "A" ++ [0] ++ ([1] ++ (s.typeBytes (Ty.tower n) ++ []))) := rfl
      rw [hrecord]
      simp only [List.length_cons, List.length_append, List.length_nil]
      omega

end Symbols

section Tower

variable (n : Nat)

theorem tables_tower : (symbolsOfClasses .v3 [towerClass n]).names.values = #["X", "A"]
    ∧ (symbolsOfClasses .v3 [towerClass n]).types.values.toList
      = (List.range (n + 1)).map Ty.tower := by
  have hsymbols : symbolsOfClasses .v3 [towerClass n]
      = Symbols.addType (Ty.tower n) (Symbols.empty.addName "X") := rfl
  have hX : ((Numbering.empty : Numbering String).add "X").values = #["X"] :=
    Numbering.values_add_of_new (Numbering.slot?_eq_none (by simp [Numbering.empty]))
  have hA : (((Numbering.empty : Numbering String).add "X").add "A").values = #["X", "A"] := by
    rw [Numbering.values_add_of_new (Numbering.slot?_eq_none (by simp [hX])), hX]
    rfl
  obtain ⟨hnames, htypes⟩ := Symbols.addType_tower n (s := Symbols.empty.addName "X") rfl
  rw [hsymbols, hnames]
  exact ⟨hA, htypes⟩

theorem length_writeClasses_tower :
    (writeClasses .v3 [towerClass n]).length ≤ (n + 1) * (n + 8) + 3 * n + 40 := by
  obtain ⟨hnames, htypes⟩ := tables_tower n
  generalize hs : symbolsOfClasses .v3 [towerClass n] = s at hnames htypes
  have hnamesSize : s.names.size = 2 := by
    rw [Numbering.size, hnames]
    rfl
  have htypesSize : s.types.size = n + 1 := by
    rw [Numbering.size, ← Array.length_toList, htypes, List.length_map, List.length_range]
  have htexts : #["X", "A"].toList.flatMap textBytes = [1, 88, 1, 65] := by decide
  have hrecords : (s.types.values.toList.flatMap s.typeRecord).length ≤ (n + 1) * (n + 8) := by
    have hmost : ∀ t ∈ (List.range (n + 1)).map Ty.tower, (s.typeRecord t).length ≤ n + 8 := by
      intro t ht
      obtain ⟨k, _, rfl⟩ := List.mem_map.1 ht
      have hrecord := s.length_typeRecord_tower_le k
      omega
    have hlength := length_flatMap_le hmost
    rwa [List.length_map, List.length_range, ← htypes] at hlength
  have hclass : ClassRecord.bytes s (.ofClass .v3 (towerClass n))
      = s.nameBytes "X" ++ ([33, 0] ++ (s.typeBytes? (some (Ty.tower n))
        ++ [0, 0, 0, 0, 0, 0, 0, 0, 0, 0])) ++ [0] ++ [] := rfl
  have hX := s.length_nameBytes_le "X"
  have htower := s.length_typeBytes?_le (Ty.tower n)
  have hcount := Varint.length_encode_le (n + 1)
  have hone : (Varint.encode 1).length = 1 ∧ (Varint.encode 2).length = 1 := by decide
  rw [writeClasses_eq, bodyBytes, hs, Symbols.bytes_id, hnamesSize, htypesSize, hnames, htexts]
  simp only [magic, List.length_append, List.length_cons, List.length_nil, List.flatMap_cons,
    List.flatMap_nil, hclass, hone]
  omega

theorem indexed_tower (h : n ≤ 256) : ∃ i, Index.ofClasses [towerClass n] = .ok i
    ∧ i.classes = [towerClass n] ∧ (write .v3 i).length < UInt64.size := by
  obtain ⟨i, hi, hclasses⟩ := Index.ofClasses_of_ordered (List.pairwise_singleton _ (towerClass n))
  refine ⟨i, hi, hclasses, ?_⟩
  have hmost := length_writeClasses_tower n
  have hproduct : (n + 1) * (n + 8) ≤ 257 * 264 := Nat.mul_le_mul (by omega) (by omega)
  have hsize : 68656 < UInt64.size := by decide
  rw [write, hclasses]
  omega

end Tower

theorem withinLimits_tower : WithinLimits .v3 [towerClass 254] := by
  have htypes : writtenTypes .v3 [towerClass 254] = [Ty.tower 254] := rfl
  constructor
  · intro t ht
    rw [htypes, List.mem_singleton] at ht
    rw [ht, Ty.depth_tower]
    decide
  · have hnodes : builtNodes .v3 [towerClass 254] = 32640 := by
      rw [builtNodes, htypes, Symbols.tableNodes, (tables_tower 254).2]
      decide +kernel
    rw [hnodes, nodeBudget]
    omega

theorem not_withinLimits_tower : ¬ WithinLimits .v3 [towerClass 256] := by
  intro h
  have hdepth := h.depth (Ty.tower 256) List.mem_cons_self
  rw [Ty.depth_tower] at hdepth
  exact absurd hdepth (by decide)

/-- An archive of decoded classes of different names is read back exactly if its types are within
the limits of reading; no other limit is ever met. -/
theorem read_write_decoded (v : Version) {cs : List (ClassDecl String)}
    (hdecoded : ∀ c ∈ cs, ∃ config bytes, ClassFile.decode config bytes = .ok c)
    (hnames : (cs.map (·.name)).Nodup) :
    ∃ i, Index.ofClasses cs = .ok i ∧ (∀ c, c ∈ i.classes ↔ c ∈ cs)
      ∧ ((write v i).length < UInt64.size →
        (WithinLimits v i.classes
            ∧ ∃ j, read (write v i) = .ok j ∧ j.classes = i.classes.map v.keep)
          ∨ ¬ WithinLimits v i.classes
            ∧ ∃ e : ArchiveError, e.IsTypeLimit ∧ read (write v i) = .error e) := by
  obtain ⟨i, hi, hmem⟩ := Index.ofClasses_of_nodup hnames
  refine ⟨i, hi, hmem, fun hlength => read_write_cases (fun c hc => ?_) hlength⟩
  obtain ⟨config, bytes, hdecode⟩ := hdecoded c ((hmem c).1 hc)
  exact ClassFile.storable_of_decode hdecode

/-- The deepest tower that is read back. -/
theorem read_write_tower :
    ClassFile.decode .standard (towerFile 127) = .ok (towerClass 254)
      ∧ ∃ i, Index.ofClasses [towerClass 254] = .ok i
        ∧ ∃ j, read (write .v3 i) = .ok j ∧ j.classes = [towerClass 254] := by
  have hdecode : ClassFile.decode .standard (towerFile 127) = .ok (towerClass 254) :=
    ClassFile.decode_towerFile (by decide)
  have hdecoded : ∀ c ∈ [towerClass 254], ∃ config bytes,
      ClassFile.decode config bytes = .ok c := by
    intro c hc
    obtain rfl := List.mem_singleton.1 hc
    exact ⟨_, _, hdecode⟩
  obtain ⟨i, hi, _, hread⟩ := read_write_decoded .v3 hdecoded (List.pairwise_singleton _ _)
  obtain ⟨k, hk, hclasses, hlength⟩ := indexed_tower 254 (by decide)
  obtain rfl : i = k := Except.ok.inj (hi.symm.trans hk)
  rw [hclasses] at hread
  refine ⟨hdecode, i, hi, ?_⟩
  rcases hread hlength with ⟨_, j, hj, hkept⟩ | ⟨hnot, _⟩
  · exact ⟨j, hj, hkept⟩
  · exact absurd withinLimits_tower hnot

/-- One class type more, and the archive of the class cannot be read. -/
theorem read_write_towerTooDeep :
    ClassFile.decode .standard (towerFile 128) = .ok (towerClass 256)
      ∧ ∃ i, Index.ofClasses [towerClass 256] = .ok i
        ∧ ∃ e : ArchiveError, e.IsTypeLimit ∧ read (write .v3 i) = .error e := by
  have hdecode : ClassFile.decode .standard (towerFile 128) = .ok (towerClass 256) :=
    ClassFile.decode_towerFile (by decide)
  obtain ⟨i, hi, hclasses, hlength⟩ := indexed_tower 256 (by decide)
  have hstorable : ∀ c ∈ i.classes, Storable c := by
    rw [hclasses]
    intro c hc
    obtain rfl := List.mem_singleton.1 hc
    exact ClassFile.storable_of_decode hdecode
  refine ⟨hdecode, i, hi, ?_⟩
  rcases read_write_cases hstorable hlength with ⟨hlimits, _⟩ | ⟨_, herror⟩
  · rw [hclasses] at hlimits
    exact absurd hlimits not_withinLimits_tower
  · exact herror

end ClassCatalog.Archive
