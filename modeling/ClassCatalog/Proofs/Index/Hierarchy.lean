import ClassCatalog.Proofs.Index.Answers
import ClassCatalog.Proofs.Index.Indexer
import ClassCatalog.Proofs.Index.Reach

/-! What an index says of classes at any depth, for classes under texts and under handles. Classes
may extend and list each other in circles. -/

namespace ClassCatalog

open NameTable (Entry)
open Relation (ReflTransGen TransGen)

variable {α : Type}

def ExtendsClass (cs : List (ClassDecl α)) (a b : α) : Prop :=
  ∃ c ∈ cs, c.name = b ∧ c.superName = some a

def ListsInterface (cs : List (ClassDecl α)) (a b : α) : Prop :=
  ∃ c ∈ cs, c.name = b ∧ a ∈ c.interfaceNames

/-- `b` is the name of an interface among the classes, which lists `a`. -/
def ExtendsInterface (cs : List (ClassDecl α)) (a b : α) : Prop :=
  ∃ c ∈ cs, c.name = b ∧ c.flags.has .accInterface ∧ a ∈ c.interfaceNames

/-- `answer` holds the classes of `cs` with the property `p`, each once, in the strict order of
the bytes of their names. -/
structure Selects (text : α → String) (cs : List (ClassDecl α)) (p : ClassDecl α → Prop)
    (answer : List (ClassDecl α)) : Prop where
  mem : ∀ c, c ∈ answer ↔ c ∈ cs ∧ p c
  ordered : answer.Pairwise fun c d => utf8 (text c.name) < utf8 (text d.name)

section Places

variable [DecidableEq α] (cs : List (ClassDecl α)) (a b : α)

theorem mem_superclassPlaces_iff :
    b ∈ ((cs.flatMap ClassDecl.superclassPlaces).filter (·.1 = a)).map (·.2)
      ↔ ExtendsClass cs a b := by
  simp only [List.mem_map, List.mem_filter, List.mem_flatMap, ClassDecl.superclassPlaces,
    Option.mem_toList, decide_eq_true_eq]
  constructor
  · rintro ⟨_, ⟨⟨c, hc, superName, hsuper, rfl⟩, rfl⟩, rfl⟩
    exact ⟨c, hc, rfl, hsuper⟩
  · rintro ⟨c, hc, rfl, hsuper⟩
    exact ⟨(a, c.name), ⟨⟨c, hc, a, hsuper, rfl⟩, rfl⟩, rfl⟩

theorem mem_interfacePlaces_iff :
    b ∈ ((cs.flatMap ClassDecl.interfacePlaces).filter (·.1 = a)).map (·.2)
      ↔ ListsInterface cs a b := by
  simp only [List.mem_map, List.mem_filter, List.mem_flatMap, ClassDecl.interfacePlaces,
    decide_eq_true_eq]
  constructor
  · rintro ⟨_, ⟨⟨c, hc, interface, hlists, rfl⟩, rfl⟩, rfl⟩
    exact ⟨c, hc, rfl, hlists⟩
  · rintro ⟨c, hc, rfl, hlists⟩
    exact ⟨(a, c.name), ⟨⟨c, hc, a, hlists, rfl⟩, rfl⟩, rfl⟩

end Places

namespace Hierarchy

structure IsOf (h : Hierarchy α) (cs : List (ClassDecl α)) : Prop where
  subclasses : ∀ a b, h.subclasses.Leads a b ↔ ExtendsClass cs a b
  implementors : ∀ a b, h.implementors.Leads a b ↔ ListsInterface cs a b
  isInterface : ∀ c ∈ cs, h.isInterface? c.name = some (c.flags.has .accInterface)

namespace IsOf

variable {h : Hierarchy α} {cs : List (ClassDecl α)} (hcs : h.IsOf cs)

include hcs

theorem subclasses_eq : h.subclasses.Leads = ExtendsClass cs := by
  funext a b
  exact propext (hcs.subclasses a b)

theorem subinterfaces_eq :
    (h.implementors.only (h.isInterface? · = some true)).Leads = ExtendsInterface cs := by
  funext a b
  rw [eq_iff_iff, Steps.only_leads_iff, hcs.implementors, decide_eq_true_eq]
  constructor
  · rintro ⟨⟨c, hc, rfl, hlists⟩, hinterface⟩
    rw [hcs.isInterface c hc] at hinterface
    exact ⟨c, hc, rfl, Option.some.inj hinterface, hlists⟩
  · rintro ⟨c, hc, rfl, hinterface, hlists⟩
    exact ⟨⟨c, hc, rfl, hlists⟩, (hcs.isInterface c hc).trans (congrArg some hinterface)⟩

variable [BEq α] [Hashable α] [LawfulBEq α]

theorem mem_below_iff (a b : α) : b ∈ h.below a ↔ TransGen (ExtendsClass cs) a b := by
  rw [Hierarchy.mem_below_iff, hcs.subclasses_eq]

theorem mem_implementing_iff (a b : α) : b ∈ h.implementing a
    ↔ ∃ d ∈ cs, d.flags.has .accInterface = false
      ∧ (∃ j ∈ d.interfaceNames, ReflTransGen (ExtendsInterface cs) a j)
      ∧ (b = d.name ∨ TransGen (ExtendsClass cs) d.name b) := by
  rw [Hierarchy.mem_implementing_iff, hcs.subclasses_eq, hcs.subinterfaces_eq]
  simp only [hcs.implementors, Relation.reflTransGen_iff_eq_or_transGen (r := ExtendsClass cs)]
  constructor
  · rintro ⟨j, _, hpath, ⟨d, hd, rfl, hj⟩, hclass, hbelow⟩
    rw [hcs.isInterface d hd] at hclass
    exact ⟨d, hd, Option.some.inj hclass, ⟨j, hj, hpath⟩, hbelow⟩
  · rintro ⟨d, hd, hclass, ⟨j, hj, hpath⟩, hbelow⟩
    have hkind : h.isInterface? d.name = some false :=
      (hcs.isInterface d hd).trans (congrArg some hclass)
    exact ⟨j, d.name, hpath, ⟨d, hd, rfl, hj⟩, hkind, hbelow⟩

end IsOf

end Hierarchy

namespace Index

variable (i : Index)

theorem isOf_hierarchy : i.hierarchy.IsOf i.classes where
  subclasses a b := by
    have hgroup : i.hierarchy.subclasses.next a
        = (Grouping.ofPairs (i.classes.flatMap ClassDecl.superclassPlaces)).group a := by
      show i.links.subclasses.group a = _
      rw [i.agree]
      rfl
    rw [Steps.Leads, hgroup, Grouping.group_ofPairs, mem_superclassPlaces_iff]
  implementors a b := by
    have hgroup : i.hierarchy.implementors.next a
        = (Grouping.ofPairs (i.classes.flatMap ClassDecl.interfacePlaces)).group a := by
      show i.links.implementors.group a = _
      rw [i.agree]
      rfl
    rw [Steps.Leads, hgroup, Grouping.group_ofPairs, mem_interfacePlaces_iff]
  isInterface c hc := by
    have hfind : i.find? c.name = some c := (i.find?_eq_some_iff _ _).2 ⟨hc, rfl⟩
    show (i.find? c.name).map _ = _
    rw [hfind, Option.map_some]

theorem selects_select (names : Std.HashSet String) :
    Selects id i.classes (·.name ∈ names) (i.select names) where
  mem c := by rw [select, List.mem_filter, Std.HashSet.mem_iff_contains]
  ordered := (i.ordered_classes.imp utf8_lt_of_compare).filter _

end Index

namespace HandleIndex

variable {t : NameTable} {table : HandleTable}

theorem mem_classes_build_iff (c : ClassDecl Name) :
    c ∈ (build t table).classes ↔ ∃ n, table.get? n = some c := by
  have horder : ∀ n, n ∈ (build t table).order.toList ↔ n ∈ table := by
    intro n
    show n ∈ inTextOrder t table.keys ↔ _
    rw [inTextOrder, List.mem_mergeSort, Std.HashMap.mem_keys]
  rw [classes, findAll, List.mem_filterMap]
  refine exists_congr fun n => ⟨And.right, fun hn => ⟨(horder n).2 ?_, hn⟩⟩
  exact Std.HashMap.mem_iff_isSome_getElem?.2 (Option.isSome_iff_exists.2 ⟨c, hn⟩)

theorem isOf_hierarchy (h : HandleTable.Valid t table) :
    (build t table).hierarchy.IsOf (build t table).classes := by
  obtain ⟨ks, texts, hold⟩ := h.exists_holds
  obtain ⟨os, hlists⟩ := hold.exists_lists
  have hclasses : (build t table).classes = os.map (ClassDecl.rename Entry.name) := by
    have horder : (build t table).order.toList = os.map (·.name.name) := hlists.order
    rw [classes, findAll, horder, List.filterMap_map, ← List.filterMap_eq_map]
    exact List.filterMap_congr hlists.get
  constructor
  · intro a b
    have hgroup : (build t table).hierarchy.subclasses.next a
        = (HandleGroups.pushAll ∅ ((build t table).classes.flatMap
          ClassDecl.superclassPlaces)).group a := by
      show (build t table).links.subclasses.group a = _
      rw [hlists.links_build, hclasses]
    have hempty : HandleGroups.group (β := Name) ∅ a = [] := by simp [HandleGroups.group]
    rw [Steps.Leads, hgroup, HandleGroups.group_pushAll, hempty, List.nil_append,
      mem_superclassPlaces_iff]
  · intro a b
    have hgroup : (build t table).hierarchy.implementors.next a
        = (HandleGroups.pushAll ∅ ((build t table).classes.flatMap
          ClassDecl.interfacePlaces)).group a := by
      show (build t table).links.implementors.group a = _
      rw [hlists.links_build, hclasses]
    have hempty : HandleGroups.group (β := Name) ∅ a = [] := by simp [HandleGroups.group]
    rw [Steps.Leads, hgroup, HandleGroups.group_pushAll, hempty, List.nil_append,
      mem_interfacePlaces_iff]
  · intro c hc
    obtain ⟨n, hn⟩ := (mem_classes_build_iff c).1 hc
    obtain rfl : c.name = n := h.keyed n c hn
    show (table.get? c.name).map _ = _
    rw [hn, Option.map_some]

theorem selects_select (h : HandleTable.Valid t table) (ns : Std.HashSet Name) :
    Selects t.text (build t table).classes (·.name ∈ ns) ((build t table).select ns) where
  mem c := by
    rw [mem_classes_build_iff, select, findAll, List.mem_filterMap]
    simp only [inTextOrder, List.mem_mergeSort, Std.HashSet.mem_toList]
    constructor
    · rintro ⟨n, hn, hc⟩
      obtain rfl : c.name = n := h.keyed n c hc
      exact ⟨⟨c.name, hc⟩, hn⟩
    · rintro ⟨⟨n, hc⟩, hn⟩
      obtain rfl : c.name = n := h.keyed n c hc
      exact ⟨c.name, hn, hc⟩
  ordered := by
    have hperm : (inTextOrder t ns.toList).Perm ns.toList := List.mergeSort_perm _ _
    have hsorted : (inTextOrder t ns.toList).Pairwise fun m n =>
        (compare (t.text m) (t.text n)).isLE :=
      List.pairwise_mergeSort (fun _ _ _ => Std.TransCmp.isLE_trans)
        (fun _ _ => HandleTable.isLE_total _ _) _
    have hnodup : (inTextOrder t ns.toList).Nodup := by
      refine hperm.nodup_iff.2 (Std.HashSet.distinct_toList.imp fun {m n} hne heq => ?_)
      simp [heq] at hne
    rw [select, findAll, List.pairwise_filterMap]
    refine (hsorted.and hnodup).imp fun {m n} hboth c hc d hd => ?_
    -- Handles of classes were issued, so that different ones have different texts.
    obtain ⟨k, rfl⟩ := h.issued m c hc
    obtain ⟨l, rfl⟩ := h.issued n d hd
    obtain rfl : k.name.name = m := h.keyed m _ hc
    obtain rfl : l.name.name = n := h.keyed n _ hd
    obtain ⟨hle, hne⟩ := hboth
    refine utf8_lt_of_compare (HandleTable.lt_of_isLE_of_ne hle fun heq => hne ?_)
    have htext : k.name.text = l.name.text := by
      rw [← Entry.text_name, ← Entry.text_name]
      exact heq
    rw [Entry.text_injective htext]

end HandleIndex

theorem Selects.congr {text : α → String} {cs answer : List (ClassDecl α)}
    {p q : ClassDecl α → Prop} (h : Selects text cs p answer) (hpq : ∀ c ∈ cs, (p c ↔ q c)) :
    Selects text cs q answer where
  mem c := (h.mem c).trans (and_congr_right (hpq c))
  ordered := h.ordered

theorem Selects.unique {text : α → String} {cs xs ys : List (ClassDecl α)}
    {p : ClassDecl α → Prop} (hxs : Selects text cs p xs) (hys : Selects text cs p ys) :
    xs = ys := by
  have hnodup : ∀ {zs : List (ClassDecl α)}, Selects text cs p zs → zs.Nodup := by
    intro zs hzs
    refine hzs.ordered.imp fun {c d} hlt heq => ?_
    rw [heq] at hlt
    exact List.lt_irrefl _ hlt
  have hmem : ∀ c, c ∈ xs ↔ c ∈ ys := fun c => (hxs.mem c).trans (hys.mem c).symm
  have hperm : xs.Perm ys := (List.perm_ext_iff_of_nodup (hnodup hxs) (hnodup hys)).2 hmem
  refine hperm.eq_of_pairwise (fun c d _ _ hcd hdc => ?_) hxs.ordered hys.ordered
  exact absurd hdc (List.lt_asymm hcd)

/-- The class is one that lists the interface `a` or one below it, or a subclass of such a class.
Interfaces below `a` are those that list `a`, or one below it, themselves. -/
def Implements (cs : List (ClassDecl α)) (subclassesOf : α → List (ClassDecl α)) (a : α)
    (c : ClassDecl α) : Prop :=
  ∃ d ∈ cs, d.flags.has .accInterface = false
    ∧ (∃ j ∈ d.interfaceNames, ReflTransGen (ExtendsInterface cs) a j)
    ∧ (c = d ∨ c ∈ subclassesOf d.name)

section Answers

variable [BEq α] [Hashable α] [LawfulBEq α] {h : Hierarchy α} {cs answer : List (ClassDecl α)}
  {text : α → String}

theorem Selects.subclasses (hcs : h.IsOf cs) {a : α}
    (hanswer : Selects text cs (·.name ∈ h.below a) answer) :
    Selects text cs (fun c => TransGen (ExtendsClass cs) a c.name) answer :=
  hanswer.congr fun c _ => hcs.mem_below_iff a c.name

theorem Selects.implementors (hcs : h.IsOf cs)
    (hnames : ∀ c ∈ cs, ∀ d ∈ cs, c.name = d.name → c = d) {a : α}
    (hanswer : Selects text cs (·.name ∈ h.implementing a) answer)
    {subclassesOf : α → List (ClassDecl α)}
    (hsubclasses : ∀ b, Selects text cs (fun c => TransGen (ExtendsClass cs) b c.name)
      (subclassesOf b)) :
    Selects text cs (Implements cs subclassesOf a) answer := by
  refine hanswer.congr fun c hc => ?_
  rw [hcs.mem_implementing_iff]
  refine exists_congr fun d => and_congr_right fun hd => and_congr_right fun _ => ?_
  refine and_congr_right fun _ => or_congr ⟨hnames c hc d hd, congrArg _⟩ ?_
  rw [(hsubclasses d.name).mem]
  exact (and_iff_right hc).symm

end Answers

theorem Index.selects_subclasses (i : Index) (r : String) : Selects id i.classes
    (fun c => TransGen (ExtendsClass i.classes) r c.name) (i.allSubclasses r) :=
  (i.selects_select _).subclasses i.isOf_hierarchy

theorem HandleIndex.selects_subclasses {t : NameTable} {table : HandleTable}
    (h : HandleTable.Valid t table) (r : Name) : Selects t.text (build t table).classes
      (fun c => TransGen (ExtendsClass (build t table).classes) r c.name)
      ((build t table).allSubclasses r) :=
  (selects_select h _).subclasses (isOf_hierarchy h)

/-- The subclasses of `r` are the classes at the end of a chain of superclasses that starts with
`r`, whether or not `r` is in the index and also when such chains go in circles. -/
theorem allSubclasses_follow_chains :
    (∀ (i : Index) (r : String), Selects id i.classes
        (fun c => TransGen (ExtendsClass i.classes) r c.name) (i.allSubclasses r))
      ∧ ∀ (t : NameTable) (table : HandleTable), HandleTable.Valid t table → ∀ r : Name,
        Selects t.text (HandleIndex.build t table).classes
          (fun c => TransGen (ExtendsClass (HandleIndex.build t table).classes) r c.name)
          ((HandleIndex.build t table).allSubclasses r) :=
  ⟨Index.selects_subclasses, fun _ _ h r => HandleIndex.selects_subclasses h r⟩

def circles : List (ClassDecl String) :=
  [{ ClassDecl.bare "A" ⟨0x21⟩ with superName := some "B", interfaces := [.named "J"] },
    { ClassDecl.bare "B" ⟨0x21⟩ with superName := some "A" },
    { ClassDecl.bare "C" ⟨0x21⟩ with superName := some "B", interfaces := [.named "I"] },
    { ClassDecl.bare "D" ⟨0x21⟩ with superName := some "java.lang.Object" },
    { ClassDecl.bare "I" ⟨0x601⟩ with
      superName := some "java.lang.Object", interfaces := [.named "J"] },
    { ClassDecl.bare "J" ⟨0x601⟩ with
      superName := some "java.lang.Object", interfaces := [.named "I"] }]

theorem ordered_circles : ClassTable.Ordered circles := by
  unfold ClassTable.Ordered
  decide

theorem exists_table_circles : ∃ (t : NameTable) (table : HandleTable), HandleTable.Valid t table
    ∧ ∀ c, c ∈ (table.classes t).map (·.resolve t) ↔ c ∈ circles := by
  obtain ⟨table, _, hvalid, hmem⟩ :=
    HandleTable.exists_ofClasses_interned ordered_circles.nodup_names .fresh
  exact ⟨_, table, hvalid, hmem⟩

theorem mem_of_chain {cs : List (ClassDecl α)} {names : List α}
    (hclosed : ∀ c ∈ cs, ∀ a ∈ names, c.superName = some a → c.name ∈ names) {a b : α}
    (ha : a ∈ names) (h : TransGen (ExtendsClass cs) a b) : b ∈ names := by
  have hstep : ∀ {a b : α}, a ∈ names → ExtendsClass cs a b → b ∈ names := by
    rintro a _ ha ⟨c, hc, rfl, hsuper⟩
    exact hclosed c hc a ha hsuper
  induction h with
  | single h => exact hstep ha h
  | tail _ h ih => exact hstep ih h

theorem circles_closed : ∀ c ∈ circles, ∀ a ∈ ["A", "B", "C"], c.superName = some a →
    c.name ∈ ["A", "B", "C"] := by decide

theorem mem_take_circles_iff (c : ClassDecl String) :
    c ∈ circles.take 3 ↔ c ∈ circles ∧ c.name ∈ ["A", "B", "C"] := by
  have hall : ∀ c ∈ circles.take 3, c.name ∈ ["A", "B", "C"] := by decide
  have hnames : ∀ c ∈ circles, c.name ∈ ["A", "B", "C"] → c ∈ circles.take 3 := by
    simp [circles, ClassDecl.bare]
  exact ⟨fun hc => ⟨List.mem_of_mem_take hc, hall c hc⟩, fun h => hnames c h.1 h.2⟩

theorem circles_chain : ∀ name ∈ ["A", "B", "C"], TransGen (ExtendsClass circles) "A" name := by
  have hA : ExtendsClass circles "B" "A" := ⟨_, List.mem_of_getElem? (i := 0) rfl, rfl, rfl⟩
  have hB : ExtendsClass circles "A" "B" := ⟨_, List.mem_of_getElem? (i := 1) rfl, rfl, rfl⟩
  have hC : ExtendsClass circles "B" "C" := ⟨_, List.mem_of_getElem? (i := 2) rfl, rfl, rfl⟩
  simp only [List.forall_mem_cons]
  exact ⟨.tail (.single hB) hA, .single hB, .tail (.single hB) hC, nofun⟩

theorem selects_take_circles {p : ClassDecl String → Prop}
    (h : ∀ c ∈ circles, p c ↔ c.name ∈ ["A", "B", "C"]) :
    Selects id circles p (circles.take 3) where
  mem c := (mem_take_circles_iff c).trans (and_congr_right fun hc => (h c hc).symm)
  ordered := by decide +kernel

theorem circles_subclasses (c : ClassDecl String) :
    TransGen (ExtendsClass circles) "A" c.name ↔ c.name ∈ ["A", "B", "C"] :=
  ⟨mem_of_chain circles_closed (by decide), circles_chain c.name⟩

theorem allSubclasses_follow_chains_circles : ∃ i, Index.ofClasses circles = .ok i
    ∧ i.allSubclasses "A" = circles.take 3
    ∧ ∃ (t : NameTable) (table : HandleTable), HandleTable.Valid t table
      ∧ (∀ c, c ∈ (table.classes t).map (·.resolve t) ↔ c ∈ circles)
      ∧ ∀ r, Selects t.text (HandleIndex.build t table).classes
        (fun c => TransGen (ExtendsClass (HandleIndex.build t table).classes) r c.name)
        ((HandleIndex.build t table).allSubclasses r) := by
  obtain ⟨i, hi, hclasses⟩ := Index.ofClasses_of_ordered ordered_circles
  obtain ⟨t, table, hvalid, hmem⟩ := exists_table_circles
  obtain ⟨htexts, hhandles⟩ := allSubclasses_follow_chains
  have hselects := htexts i "A"
  rw [hclasses] at hselects
  have hanswer := hselects.unique (selects_take_circles fun c _ => circles_subclasses c)
  exact ⟨i, hi, hanswer, t, table, hvalid, hmem, hhandles t table hvalid⟩

/-- The implementors of `a` are the classes, other than interfaces, that list an interface to which
a chain of interfaces leads from `a`, and the subclasses of these classes. -/
theorem allImplementors_follow_chains :
    (∀ (i : Index) (a : String), Selects id i.classes (Implements i.classes i.allSubclasses a)
        (i.allImplementors a))
      ∧ ∀ (t : NameTable) (table : HandleTable), HandleTable.Valid t table → ∀ a : Name,
        Selects t.text (HandleIndex.build t table).classes
          (Implements (HandleIndex.build t table).classes
            (HandleIndex.build t table).allSubclasses a)
          ((HandleIndex.build t table).allImplementors a) := by
  constructor
  · intro i a
    refine (i.selects_select _).implementors i.isOf_hierarchy ?_ i.selects_subclasses
    intro c hc d hd hname
    have hfind : i.find? c.name = some c := (i.find?_eq_some_iff _ _).2 ⟨hc, rfl⟩
    exact Option.some.inj (hfind.symm.trans ((i.find?_eq_some_iff _ _).2 ⟨hd, hname.symm⟩))
  · intro t table h a
    refine (HandleIndex.selects_select h _).implementors (HandleIndex.isOf_hierarchy h) ?_
      (HandleIndex.selects_subclasses h)
    intro c hc d hd hname
    obtain ⟨m, hm⟩ := (HandleIndex.mem_classes_build_iff c).1 hc
    obtain ⟨n, hn⟩ := (HandleIndex.mem_classes_build_iff d).1 hd
    obtain rfl : c.name = m := h.keyed m c hm
    obtain rfl : d.name = n := h.keyed n d hn
    rw [hname] at hm
    exact Option.some.inj (hm.symm.trans hn)

/-- The class `A` lists `J`, which lists `I`; all below `A` implement `I` with it, and `C` also
lists `I` itself. -/
theorem allImplementors_follow_chains_circles : ∃ i, Index.ofClasses circles = .ok i
    ∧ i.allImplementors "I" = circles.take 3
    ∧ ∃ (t : NameTable) (table : HandleTable), HandleTable.Valid t table
      ∧ (∀ c, c ∈ (table.classes t).map (·.resolve t) ↔ c ∈ circles)
      ∧ ∀ a, Selects t.text (HandleIndex.build t table).classes
        (Implements (HandleIndex.build t table).classes (HandleIndex.build t table).allSubclasses a)
        ((HandleIndex.build t table).allImplementors a) := by
  obtain ⟨i, hi, hclasses⟩ := Index.ofClasses_of_ordered ordered_circles
  obtain ⟨t, table, hvalid, hmem⟩ := exists_table_circles
  obtain ⟨htexts, hhandles⟩ := allImplementors_follow_chains
  have hselects := htexts i "I"
  rw [hclasses] at hselects
  have hbelow : ∀ a c, c ∈ i.allSubclasses a
      ↔ c ∈ circles ∧ TransGen (ExtendsClass circles) a c.name := by
    intro a c
    rw [(i.selects_subclasses a).mem, hclasses]
  have himplements : ∀ c ∈ circles, Implements circles i.allSubclasses "I" c
      ↔ c.name ∈ ["A", "B", "C"] := by
    intro c hc
    constructor
    · rintro ⟨d, hd, hclass, ⟨j, hj, _⟩, hcd⟩
      have hlisting : ∀ d ∈ circles, d.flags.has .accInterface = false → d.interfaceNames ≠ [] →
          d.name ∈ ["A", "B", "C"] := by decide
      have hname := hlisting d hd hclass (List.ne_nil_of_mem hj)
      rcases hcd with rfl | hcd
      · exact hname
      · exact mem_of_chain circles_closed hname ((hbelow _ _).1 hcd).2
    · intro hname
      have hJ : ExtendsInterface circles "I" "J" :=
        ⟨_, List.mem_of_getElem? (i := 5) rfl, rfl, by decide, by decide⟩
      refine ⟨_, List.mem_of_getElem? (i := 0) rfl, by decide, ⟨"J", by decide, .single hJ⟩, ?_⟩
      exact .inr ((hbelow _ _).2 ⟨hc, circles_chain _ hname⟩)
  have hanswer := hselects.unique (selects_take_circles himplements)
  exact ⟨i, hi, hanswer, t, table, hvalid, hmem, hhandles t table hvalid⟩

end ClassCatalog
