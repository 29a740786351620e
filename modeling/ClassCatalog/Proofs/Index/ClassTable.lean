import ClassCatalog.Index
import ClassCatalog.Proofs.Outcome

/-! The classes of a table are in the order of their names, and this order and the classes
themselves are all there is to a table. -/

namespace ClassCatalog

namespace ClassTable

theorem find?_name {t : ClassTable} {name : String} {c : ClassDecl String}
    (h : t.find? name = some c) : c.name = name := t.keyed name c h

theorem classes_eq_map_toList (t : ClassTable) : t.classes = t.map.toList.map (·.2) := by
  have hfoldr : t.classes = t.map.foldr (fun _ c cs => c :: cs) [] := rfl
  rw [hfoldr, Std.TreeMap.foldr_eq_foldr_toList]
  induction t.map.toList with
  | nil => rfl
  | cons entry rest ih => rw [List.foldr_cons, ih, List.map_cons]

theorem mem_classes_iff (t : ClassTable) (c : ClassDecl String) :
    c ∈ t.classes ↔ t.find? c.name = some c := by
  rw [classes_eq_map_toList, List.mem_map]
  constructor
  · rintro ⟨⟨name, d⟩, hmem, rfl⟩
    have hfind : t.find? name = some d := Std.TreeMap.mem_toList_iff_getElem?_eq_some.1 hmem
    show t.find? d.name = some d
    rw [find?_name hfind]
    exact hfind
  · intro hfind
    exact ⟨(c.name, c), Std.TreeMap.mem_toList_iff_getElem?_eq_some.2 hfind, rfl⟩

def Ordered (cs : List (ClassDecl String)) : Prop :=
  cs.Pairwise fun a b => compare a.name b.name = .lt

theorem ordered_classes (t : ClassTable) : Ordered t.classes := by
  have hkeys : t.map.toList.Pairwise fun a b => compare a.1 b.1 = .lt :=
    Std.TreeMap.ordered_keys_toList
  rw [classes_eq_map_toList, Ordered, List.pairwise_map]
  refine hkeys.imp_of_mem fun {a b} ha hb hab => ?_
  have hname : ∀ entry ∈ t.map.toList, entry.2.name = entry.1 := fun entry hentry =>
    find?_name (Std.TreeMap.mem_toList_iff_getElem?_eq_some.1 hentry)
  rw [hname a ha, hname b hb]
  exact hab

theorem Ordered.nodup_names {cs : List (ClassDecl String)} (h : Ordered cs) :
    (cs.map (·.name)).Nodup := by
  rw [List.Nodup, List.pairwise_map]
  refine h.imp fun {a b} hab heq => ?_
  have heq' : compare a.name b.name = .eq := by rw [heq]; exact Std.ReflCmp.compare_self
  rw [heq'] at hab
  cases hab

theorem Ordered.nodup {cs : List (ClassDecl String)} (h : Ordered cs) : cs.Nodup :=
  List.Pairwise.of_map _ (fun _ _ hname heq => hname (congrArg _ heq)) h.nodup_names

theorem Ordered.eq_of_mem_iff {cs ds : List (ClassDecl String)} (hcs : Ordered cs)
    (hds : Ordered ds) (h : ∀ c, c ∈ cs ↔ c ∈ ds) : cs = ds := by
  have hperm : cs.Perm ds := (List.perm_ext_iff_of_nodup hcs.nodup hds.nodup).2 h
  refine hperm.eq_of_pairwise (fun a b _ _ hab hba => ?_) hcs hds
  exact absurd hba (Std.OrientedCmp.not_lt_of_lt hab)

theorem insert_of_new {t : ClassTable} {c : ClassDecl String} (h : t.find? c.name = none) :
    ∃ u, t.insert c = .ok u
      ∧ ∀ name, u.find? name = if c.name = name then some c else t.find? name := by
  have hnew : ¬ t.contains c.name := by
    rw [contains, Std.TreeMap.contains_eq_isSome_getElem?]
    show ¬ (t.find? c.name).isSome
    simp [h]
  rw [insert, if_neg hnew]
  refine ⟨_, rfl, fun name => ?_⟩
  show (t.map.insert c.name c)[name]? = _
  rw [Std.TreeMap.getElem?_insert]
  simp only [Std.LawfulEqCmp.compare_eq_iff_eq]
  rfl

theorem insertAll_of_new {t : ClassTable} {cs : List (ClassDecl String)}
    (hnodup : (cs.map (·.name)).Nodup) (hnew : ∀ c ∈ cs, t.find? c.name = none) :
    ∃ u, t.insertAll cs = .ok u
      ∧ ∀ c, c ∈ u.classes ↔ c ∈ t.classes ∨ c ∈ cs := by
  induction cs generalizing t with
  | nil => exact ⟨t, rfl, by simp⟩
  | cons c cs ih =>
    obtain ⟨u, hinsert, hfind⟩ := insert_of_new (hnew c List.mem_cons_self)
    rw [List.map_cons, List.nodup_cons] at hnodup
    have hnew' : ∀ d ∈ cs, u.find? d.name = none := by
      intro d hd
      have hne : c.name ≠ d.name := fun heq => hnodup.1 (heq ▸ List.mem_map_of_mem hd)
      rw [hfind, if_neg hne]
      exact hnew d (List.mem_cons_of_mem c hd)
    obtain ⟨w, hall, hmem⟩ := ih hnodup.2 hnew'
    refine ⟨w, ?_, fun d => ?_⟩
    · rw [insertAll, List.foldlM_cons, hinsert]
      exact hall
    · rw [hmem, mem_classes_iff, mem_classes_iff, hfind, List.mem_cons]
      by_cases hname : c.name = d.name
      · have hold := hnew c List.mem_cons_self
        rw [if_pos hname, ← hname, hold]
        simp [eq_comm]
      · have hne : d ≠ c := fun heq => hname (congrArg _ heq.symm)
        rw [if_neg hname]
        simp [hne]

theorem find?_of_insert {t u : ClassTable} {c : ClassDecl String} (h : t.insert c = .ok u) :
    t.find? c.name = none := by
  rw [insert] at h
  split at h
  · cases h
  · next hnew =>
    rw [contains, Std.TreeMap.contains_eq_isSome_getElem?] at hnew
    exact Option.not_isSome_iff_eq_none.1 hnew

theorem perm_of_insertAll {t u : ClassTable} {cs : List (ClassDecl String)}
    (h : t.insertAll cs = .ok u) : u.classes.Perm (cs ++ t.classes) := by
  induction cs generalizing t with
  | nil =>
    cases h
    exact .refl _
  | cons c cs ih =>
    rw [insertAll, List.foldlM_cons] at h
    obtain ⟨w, hinsert, hall⟩ := bind_eq_ok h
    have hnew := find?_of_insert hinsert
    obtain ⟨w', hw', hfind⟩ := insert_of_new hnew
    obtain rfl : w' = w := Except.ok.inj (hw'.symm.trans hinsert)
    have hout : c ∉ t.classes := by
      rw [mem_classes_iff, hnew]
      exact nofun
    have hperm : w'.classes.Perm (c :: t.classes) := by
      have hnodup : (c :: t.classes).Nodup := List.nodup_cons.2 ⟨hout, t.ordered_classes.nodup⟩
      refine (List.perm_ext_iff_of_nodup w'.ordered_classes.nodup hnodup).2 fun d => ?_
      rw [mem_classes_iff, hfind, List.mem_cons, mem_classes_iff]
      by_cases hname : c.name = d.name
      · rw [if_pos hname, ← hname, hnew]
        simp [eq_comm]
      · have hne : d ≠ c := fun heq => hname (congrArg _ heq.symm)
        rw [if_neg hname]
        simp [hne]
    exact (ih hall).trans ((hperm.append_left cs).trans List.perm_middle)

end ClassTable

namespace Index

theorem ordered_classes (i : Index) : ClassTable.Ordered i.classes := i.table.ordered_classes

theorem ofClasses_of_nodup {cs : List (ClassDecl String)} (h : (cs.map (·.name)).Nodup) :
    ∃ i, ofClasses cs = .ok i ∧ ∀ c, c ∈ i.classes ↔ c ∈ cs := by
  have hempty : ∀ c ∈ cs, ClassTable.empty.find? c.name = none := fun c _ =>
    Std.TreeMap.getElem?_emptyc
  obtain ⟨t, ht, hmem⟩ := ClassTable.insertAll_of_new h hempty
  refine ⟨ofTable t, ?_, fun c => ?_⟩
  · rw [ofClasses, ht]
    rfl
  · have hnone : c ∉ ClassTable.empty.classes := by
      rw [ClassTable.mem_classes_iff]
      exact nofun
    show c ∈ t.classes ↔ c ∈ cs
    simpa [hnone] using hmem c

theorem ofClasses_of_ordered {cs : List (ClassDecl String)} (h : ClassTable.Ordered cs) :
    ∃ i, ofClasses cs = .ok i ∧ i.classes = cs := by
  obtain ⟨i, hi, hmem⟩ := ofClasses_of_nodup h.nodup_names
  exact ⟨i, hi, i.ordered_classes.eq_of_mem_iff h hmem⟩

theorem perm_of_ofClasses {cs : List (ClassDecl String)} {i : Index}
    (h : ofClasses cs = .ok i) : i.classes.Perm cs := by
  cases htable : ClassTable.empty.insertAll cs with
  | error e =>
    rw [ofClasses, htable] at h
    cases h
  | ok t =>
    rw [ofClasses, htable] at h
    cases h
    have hempty : ClassTable.empty.classes = [] := by
      refine List.eq_nil_iff_forall_not_mem.2 fun c => ?_
      rw [ClassTable.mem_classes_iff]
      exact nofun
    have hperm := ClassTable.perm_of_insertAll htable
    rwa [hempty, List.append_nil] at hperm

end Index

end ClassCatalog
