import Mathlib.Data.Set.List
import ClassCatalog.Proofs.Index.ClassTable
import ClassCatalog.Proofs.Interned

/-! Classes under handles are the classes under the texts of their names: the two tables refuse
the same class, and list the same classes in the same order. -/

namespace ClassCatalog

open NameTable (Entry)

variable {t : NameTable}

theorem ClassDecl.resolve_rename (k : ClassDecl t.Entry) :
    (k.rename Entry.name).resolve t = k.rename Entry.text := by
  have hresolve : (k.rename Entry.name).resolve t = (k.rename Entry.name).rename t.text := rfl
  rw [hresolve, ClassDecl.rename_rename]
  exact congrArg k.rename (funext Entry.text_name)

namespace HandleTable

/-- Every class is under its own handle, and all its names are names of the table. -/
structure Valid (t : NameTable) (table : HandleTable) : Prop where
  keyed : ∀ (n : Name) (c : ClassDecl Name), table[n]? = some c → c.name = n
  issued : ∀ (n : Name) (c : ClassDecl Name), table[n]? = some c →
    ∃ k : ClassDecl t.Entry, k.rename Entry.name = c

variable {table : HandleTable}

theorem mem_classes_iff {c : ClassDecl Name} :
    c ∈ table.classes t ↔ ∃ n : Name, table[n]? = some c := by
  rw [classes, List.mem_mergeSort, List.mem_map]
  constructor
  · rintro ⟨⟨n, c⟩, hmem, rfl⟩
    exact ⟨n, Std.HashMap.mem_toList_iff_getElem?_eq_some.1 hmem⟩
  · rintro ⟨n, hn⟩
    exact ⟨(n, c), Std.HashMap.mem_toList_iff_getElem?_eq_some.2 hn, rfl⟩

theorem Valid.exists_rename (h : Valid t table) : ∃ ks : List (ClassDecl t.Entry),
    ks.map (ClassDecl.rename Entry.name) = table.classes t := by
  rw [← Set.mem_range, Set.range_list_map]
  intro c hc
  obtain ⟨n, hn⟩ := mem_classes_iff.1 hc
  exact h.issued n c hn

theorem Valid.nodup_names (h : Valid t table) : ((table.classes t).map (·.name)).Nodup := by
  -- The keys are distinct, and every class is under its own name.
  have hkeys : table.toList.Pairwise fun a b => (a.1 == b.1) = false :=
    Std.HashMap.distinct_keys_toList
  have hperm := (List.mergeSort_perm (table.toList.map (·.2)) fun a b =>
    (compare (t.text a.name) (t.text b.name)).isLE).map (·.name)
  rw [classes, hperm.nodup_iff, List.map_map, List.Nodup, List.pairwise_map]
  refine hkeys.imp_of_mem fun {a b} ha hb hab heq => ?_
  have hname : ∀ entry ∈ table.toList, entry.2.name = entry.1 := fun entry hentry =>
    h.keyed _ _ (Std.HashMap.mem_toList_iff_getElem?_eq_some.1 hentry)
  have heq' : a.2.name = b.2.name := heq
  rw [hname a ha, hname b hb] at heq'
  simp [heq'] at hab

theorem isLE_total (a b : String) : ((compare a b).isLE || (compare b a).isLE) = true := by
  cases h : compare a b with
  | lt => rfl
  | eq => rfl
  | gt => rw [Std.OrientedCmp.gt_iff_lt.1 h]; rfl

theorem lt_of_isLE_of_ne {a b : String} (h : (compare a b).isLE) (hne : a ≠ b) :
    compare a b = .lt := by
  cases hcompare : compare a b with
  | lt => rfl
  | eq => exact absurd (Std.LawfulEqCmp.eq_of_compare hcompare) hne
  | gt => rw [hcompare] at h; cases h

theorem Valid.ordered (h : Valid t table) :
    ClassTable.Ordered ((table.classes t).map (·.resolve t)) := by
  obtain ⟨ks, hks⟩ := h.exists_rename
  have hnodup := h.nodup_names
  have hsorted : (table.classes t).Pairwise fun a b =>
      (compare (t.text a.name) (t.text b.name)).isLE :=
    List.pairwise_mergeSort (fun _ _ _ => Std.TransCmp.isLE_trans) (fun a b => isLE_total _ _) _
  rw [← hks, List.pairwise_map] at hsorted
  rw [← hks, List.map_map, List.Nodup, List.pairwise_map] at hnodup
  rw [← hks, List.map_map, ClassTable.Ordered, List.pairwise_map]
  refine (hsorted.and hnodup).imp fun {a b} hboth => ?_
  obtain ⟨hle, hne⟩ := hboth
  -- Different handles have different texts, so the order of the texts is strict.
  have hname : a.name ≠ b.name := fun heq => hne (congrArg Entry.name heq)
  have htext : a.name.text ≠ b.name.text := fun heq => hname (Entry.text_injective heq)
  have hle' : (compare (t.text a.name.name) (t.text b.name.name)).isLE := hle
  rw [Entry.text_name, Entry.text_name] at hle'
  show compare ((a.rename Entry.name).resolve t).name ((b.rename Entry.name).resolve t).name = .lt
  rw [ClassDecl.resolve_rename, ClassDecl.resolve_rename]
  show compare a.name.text b.name.text = .lt
  exact lt_of_isLE_of_ne hle' htext

/-- Both tables hold the classes `ks`, one under the texts and one under the handles of their
names. -/
structure Holds (ks : List (ClassDecl t.Entry)) (texts : ClassTable) (table : HandleTable) :
    Prop where
  text : ∀ text, texts.find? text
    = (ks.find? (·.name.text = text)).map (ClassDecl.rename Entry.text)
  handle : ∀ n : Name, table[n]?
    = (ks.find? (·.name.name = n)).map (ClassDecl.rename Entry.name)

variable {ks : List (ClassDecl t.Entry)} {texts : ClassTable}

theorem find?_text_eq (ks : List (ClassDecl t.Entry)) (e : t.Entry) :
    ks.find? (·.name.text = e.text) = ks.find? (·.name.name = e.name) := by
  congr 1
  funext k
  exact decide_eq_decide.2
    (Entry.text_injective.eq_iff.trans Entry.name_injective.eq_iff.symm)

theorem Holds.contains_eq (h : Holds ks texts table) (e : t.Entry) :
    texts.contains e.text = table.contains e.name := by
  have htext : texts.contains e.text = (texts.find? e.text).isSome :=
    Std.TreeMap.contains_eq_isSome_getElem?
  rw [htext, Std.HashMap.contains_eq_isSome_getElem?, h.text, h.handle, find?_text_eq,
    Option.isSome_map, Option.isSome_map]

theorem Holds.insert (h : Holds ks texts table) (k : ClassDecl t.Entry) :
    (∃ texts' table', texts.insert (k.rename Entry.text) = .ok texts'
        ∧ insertNew t table (k.rename Entry.name) = .ok table' ∧ Holds (k :: ks) texts' table')
      ∨ ∃ e, texts.insert (k.rename Entry.text) = .error e
        ∧ insertNew t table (k.rename Entry.name) = .error e := by
  have hcontains : texts.contains k.name.text = table.contains k.name.name := h.contains_eq k.name
  by_cases hold : table.contains k.name.name
  · right
    refine ⟨.duplicateClass k.name.text, if_pos (hcontains.trans hold), ?_⟩
    rw [← Entry.text_name k.name]
    exact if_pos hold
  · left
    have hnone : texts.find? k.name.text = none := by
      rw [h.text, find?_text_eq, Option.map_eq_none_iff, ← Option.map_eq_none_iff, ← h.handle]
      exact Std.HashMap.getElem?_eq_none (by rwa [Std.HashMap.mem_iff_contains])
    obtain ⟨texts', hinsert, hfind⟩ := ClassTable.insert_of_new (c := k.rename Entry.text) hnone
    refine ⟨texts', _, hinsert, if_neg hold, fun text => ?_, fun n => ?_⟩
    · rw [hfind, h.text, List.find?_cons]
      by_cases heq : k.name.text = text
      · simp [heq, if_pos (show (k.rename Entry.text).name = text from heq)]
      · simp [heq, if_neg (show ¬ (k.rename Entry.text).name = text from heq)]
    · rw [Std.HashMap.getElem?_insert, h.handle, List.find?_cons]
      by_cases heq : k.name.name = n
      · simp [heq, show (k.rename Entry.name).name = n from heq]
      · simp [heq, show ¬ (k.rename Entry.name).name = n from heq]

theorem Holds.insertAll (h : Holds ks texts table) (js : List (ClassDecl t.Entry)) :
    (∃ texts' table' ls, texts.insertAll (js.map (ClassDecl.rename Entry.text)) = .ok texts'
        ∧ (js.map (ClassDecl.rename Entry.name)).foldlM (insertNew t) table = .ok table'
        ∧ Holds (t := t) ls texts' table')
      ∨ ∃ e, texts.insertAll (js.map (ClassDecl.rename Entry.text)) = .error e
        ∧ (js.map (ClassDecl.rename Entry.name)).foldlM (insertNew t) table = .error e := by
  induction js generalizing ks texts table with
  | nil => exact .inl ⟨texts, table, ks, rfl, rfl, h⟩
  | cons j js ih =>
    simp only [ClassTable.insertAll, List.map_cons, List.foldlM_cons]
    rcases h.insert j with ⟨texts', table', htexts, htable, hold⟩ | ⟨e, htexts, htable⟩
    · rw [htexts, htable]
      exact ih hold
    · rw [htexts, htable]
      exact .inr ⟨e, rfl, rfl⟩

theorem Holds.valid (h : Holds ks texts table) : Valid t table := by
  constructor
  · intro n c hc
    rw [h.handle, Option.map_eq_some_iff] at hc
    obtain ⟨k, hk, rfl⟩ := hc
    have hname := List.find?_some hk
    exact of_decide_eq_true hname
  · intro n c hc
    rw [h.handle, Option.map_eq_some_iff] at hc
    obtain ⟨k, _, rfl⟩ := hc
    exact ⟨k, rfl⟩

theorem Holds.map_resolve (h : Holds ks texts table) :
    (table.classes t).map (·.resolve t) = texts.classes := by
  refine h.valid.ordered.eq_of_mem_iff texts.ordered_classes fun c => ?_
  rw [ClassTable.mem_classes_iff, h.text, List.mem_map, Option.map_eq_some_iff]
  constructor
  · rintro ⟨d, hd, rfl⟩
    obtain ⟨n, hn⟩ := mem_classes_iff.1 hd
    rw [h.handle, Option.map_eq_some_iff] at hn
    obtain ⟨k, hk, rfl⟩ := hn
    have hname : k.name.name = n := by
      have hfound := List.find?_some hk
      exact of_decide_eq_true hfound
    rw [ClassDecl.resolve_rename]
    refine ⟨k, ?_, rfl⟩
    show ks.find? (·.name.text = k.name.text) = some k
    rw [find?_text_eq, hname]
    exact hk
  · rintro ⟨k, hk, rfl⟩
    refine ⟨k.rename Entry.name, mem_classes_iff.2 ⟨k.name.name, ?_⟩, k.resolve_rename⟩
    have hk' : ks.find? (·.name.text = k.name.text) = some k := hk
    rw [h.handle, ← find?_text_eq, hk']
    rfl

theorem holds_empty : Holds (t := t) [] ClassTable.empty ∅ :=
  ⟨fun _ => Std.TreeMap.getElem?_emptyc, fun _ => Std.HashMap.getElem?_empty⟩

theorem valid_ofClasses {ks : List (ClassDecl t.Entry)}
    (h : ofClasses t (ks.map (ClassDecl.rename Entry.name)) = .ok table) : Valid t table := by
  rw [ofClasses] at h
  rcases holds_empty.insertAll ks with ⟨_, table', _, _, htable, hold⟩ | ⟨e, _, htable⟩
  · obtain rfl : table = table' := Except.ok.inj (h.symm.trans htable)
    exact hold.valid
  · rw [htable] at h
    cases h

theorem map_classes_ofClasses (ks : List (ClassDecl t.Entry)) :
    (ofClasses t (ks.map (ClassDecl.rename Entry.name))).map
        (fun table => (table.classes t).map (·.resolve t))
      = (Index.ofClasses (ks.map (ClassDecl.rename Entry.text))).map Index.classes := by
  rw [ofClasses, Index.ofClasses]
  rcases holds_empty.insertAll ks with
    ⟨texts, table, ls, htexts, htable, hold⟩ | ⟨e, htexts, htable⟩
  · rw [htexts, htable]
    exact congrArg Except.ok hold.map_resolve
  · rw [htexts, htable]
    rfl

theorem exists_ofClasses_interned {cs : List (ClassDecl String)} (h : (cs.map (·.name)).Nodup)
    (t : NameTable) : ∃ table,
      ofClasses ((internAll cs).run t).2 ((internAll cs).run t).1 = .ok table
        ∧ Valid ((internAll cs).run t).2 table
        ∧ ∀ c, c ∈ (table.classes ((internAll cs).run t).2).map
          (·.resolve ((internAll cs).run t).2) ↔ c ∈ cs := by
  obtain ⟨ks, htext, hname⟩ := (interns_all cs t).2 _ (.refl _)
  obtain ⟨i, hi, hmem⟩ := Index.ofClasses_of_nodup h
  have hclasses := map_classes_ofClasses ks
  rw [htext, hi] at hclasses
  rw [← hname]
  cases htable : ofClasses ((internAll cs).run t).2 (ks.map (ClassDecl.rename Entry.name)) with
  | error e =>
    rw [htable] at hclasses
    cases hclasses
  | ok table =>
    rw [htable] at hclasses
    have hlist : (table.classes ((internAll cs).run t).2).map
        (·.resolve ((internAll cs).run t).2) = i.classes := Except.ok.inj hclasses
    exact ⟨table, rfl, valid_ofClasses htable, by rwa [hlist]⟩

end HandleTable

end ClassCatalog
