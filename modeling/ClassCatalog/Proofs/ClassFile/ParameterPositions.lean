import ClassCatalog.Proofs.ClassFile.ParameterTables

/-! Whether the annotations on parameters line up with the parameters of the method. They do unless
a table has more entries than the method has parameters, as when a signature leaves out the
parameters that no source declares. -/

namespace ClassCatalog.ClassFile

open Annotations (entryAt)

/-- Every annotation on a parameter is on one that there is, and of each table the entry at the
end stands on the last parameter of the method, the one before it on the last but one, and so on. -/
structure ParametersLineUp (ctx : Context) (layout : Layout) (c : ClassDecl String) : Prop where
  exist : ∀ a ∈ c.annotations, ∀ owner index position,
    a.target = some (.parameter owner index position) → owner = c.name
      ∧ ∃ m, c.methods[index.toNat]? = some m ∧ position.toNat < m.parameters.length
  fromEnd : ∀ (i : Nat) (l : MemberLayout) (m : MethodDecl String), layout.methods[i]? = some l →
    c.methods[i]? = some m → ∀ visible table,
      ctx.parameterTable l.attributes visible = .ok table → ∀ k < m.parameters.length,
        c.onParameter i (m.parameters.length - 1 - k) visible
          = (table.reverse[k]?.getD []).map
            (·.standing (c.parameterTarget i (m.parameters.length - 1 - k)))

/-- A table with more entries than its method has parameters is all empty. -/
def NoTableTooLong (ctx : Context) (layout : Layout) (c : ClassDecl String) : Prop :=
  ∀ (i : Nat) (l : MemberLayout) (m : MethodDecl String), layout.methods[i]? = some l →
    c.methods[i]? = some m → ∀ visible table,
      ctx.parameterTable l.attributes visible = .ok table →
        table.length ≤ m.parameters.length ∨ ∀ entry ∈ table, entry = []

def ParametersPlaced (ctx : Context) (layout : Layout) (c : ClassDecl String) : Prop :=
  ReadFrom (fun i l m => ctx.PlacesTables c.name c.annotations i l m.parameters.length)
    layout.methods c.methods

theorem Draft.annotationsOn_finish (d : Draft String) (init : String) (text : String → String)
    {t : Target String} (ht : ∀ u, t ≠ .typeUse u) :
    (d.finish init text).annotationsOn t = d.annotations.filter (·.target = some t) := by
  have htypeUses : (d.typeUses.filterMap fun u =>
      u.resolve init (d.decl init) (d.hiddenIn init text u.enclosing)).filter
        (·.target = some t) = [] := by
    rw [List.filter_eq_nil_iff]
    intro a ha
    obtain ⟨u, _, hresolve⟩ := List.mem_filterMap.1 ha
    obtain ⟨_, _, _, _, htarget, _⟩ := PendingTypeUse.resolve_eq_some hresolve
    rw [decide_eq_true_eq, htarget]
    exact fun heq => ht _ (Option.some.inj heq).symm
  show (d.annotations ++ _).filter _ = _
  rw [List.filter_append, htypeUses, List.append_nil]

theorem Draft.parametersPlaced_finish {ctx : Context} {layout : Layout} {d : Draft String}
    (h : ReadFrom (fun i l m => ctx.PlacesTables d.name d.annotations i l
      m.types.parameters.length) layout.methods d.methods) (init : String)
    (text : String → String) : ParametersPlaced ctx layout (d.finish init text) := by
  refine h.map _ fun i l m _ hplaces => ?_
  have hlength : (m.decl d.types.scope).parameters.length = m.types.parameters.length := by
    show (Ty.listBindIn _ _).length = _
    rw [Ty.listBindIn_eq_map, List.length_map]
  rw [hlength]
  refine ⟨hplaces.arity_lt, fun visible => ?_⟩
  obtain ⟨table, htable, hpositions⟩ := hplaces.tables visible
  refine ⟨table, htable, fun position hposition => ?_⟩
  refine Eq.trans (congrArg (List.filter _) ?_) (hpositions position hposition)
  exact d.annotationsOn_finish init text fun _ h => by cases h

section LineUp

variable {ctx : Context} {layout : Layout} {c : ClassDecl String} {n k : Nat}
  {table : List (List (AnnotationUse String))}

theorem entryAt_fromEnd (hle : table.length ≤ n) (hk : k < n) :
    entryAt (n - table.length) table (n - 1 - k) = table.reverse[k]?.getD [] := by
  unfold entryAt
  by_cases hcovered : k < table.length
  · have hindex : n - 1 - k - (n - table.length) = table.length - 1 - k := by omega
    rw [if_pos (by omega), hindex, List.getElem?_reverse hcovered]
  · have hnone : table.reverse[k]? = none :=
      List.getElem?_eq_none (by rw [List.length_reverse]; omega)
    rw [if_neg (by omega), hnone]
    rfl

theorem getD_of_empty {entries : List (List (AnnotationUse String))}
    (h : ∀ entry ∈ entries, entry = []) (i : Nat) : entries[i]?.getD [] = [] := by
  cases hentry : entries[i]? with
  | none => rfl
  | some entry => exact h entry (List.mem_of_getElem? hentry)

theorem entryAt_of_empty (h : ∀ entry ∈ table, entry = []) (start position : Nat) :
    entryAt start table position = [] := by
  unfold entryAt
  split
  · exact getD_of_empty h _
  · rfl

theorem exist_of_noTableTooLong (hplaced : ParametersPlaced ctx layout c)
    (h : NoTableTooLong ctx layout c) {a : AnnotationUse String} (ha : a ∈ c.annotations)
    {index : UInt32} {position : UInt16} (hindex : index.toNat < c.methods.length)
    (htarget : a.target = some (.parameter c.name index position)) :
    ∃ m, c.methods[index.toNat]? = some m ∧ position.toNat < m.parameters.length := by
  rw [hplaced.1] at hindex
  obtain ⟨m, hm, hplaces⟩ := hplaced.2 index.toNat _ (List.getElem?_eq_getElem hindex)
  obtain ⟨table, htable, hpositions⟩ := hplaces.tables a.visible
  refine ⟨m, hm, ?_⟩
  have hpositions := hpositions position.toNat position.toNat_lt
  rw [UInt32.ofNat_toNat, UInt16.ofNat_toNat] at hpositions
  have hmem : a ∈ (c.annotations.filter (·.target
      = some (.parameter c.name index position))).filter (·.visible = a.visible) :=
    List.mem_filter.2 ⟨List.mem_filter.2 ⟨ha, decide_eq_true htarget⟩, decide_eq_true rfl⟩
  rw [hpositions] at hmem
  obtain ⟨found, hfound, _⟩ := List.mem_map.1 hmem
  obtain ⟨hstart, entry, hentry, hin⟩ := Annotations.mem_entryAt hfound
  have hcovered := (List.getElem?_eq_some_iff.1 hentry).1
  rcases h _ _ m (List.getElem?_eq_getElem hindex) hm _ table htable with hle | hempty
  · omega
  · rw [hempty entry (List.mem_of_getElem? hentry)] at hin
    cases hin

theorem parametersLineUp_of_noTableTooLong (hplaced : ParametersPlaced ctx layout c)
    (howned : ∀ a ∈ c.annotations, ∀ t, a.target = some t → DeclRef.IsIn c t.belongsTo)
    (h : NoTableTooLong ctx layout c) : ParametersLineUp ctx layout c := by
  refine ⟨fun a ha owner index position htarget => ?_, fun i l m hl hm visible table htable => ?_⟩
  · obtain ⟨rfl, hindex⟩ : owner = c.name ∧ index.toNat < c.methods.length :=
      howned a ha _ htarget
    exact ⟨rfl, exist_of_noTableTooLong hplaced h ha hindex htarget⟩
  · intro k hk
    obtain ⟨found, hfound, hplaces⟩ := hplaced.2 i l hl
    obtain rfl : found = m := Option.some.inj (hfound.symm.trans hm)
    obtain ⟨read, hread, hpositions⟩ := hplaces.tables visible
    obtain rfl : read = table := Except.ok.inj (hread.symm.trans htable)
    have hposition : found.parameters.length - 1 - k < UInt16.size := by
      have hbound := hplaces.arity_lt
      omega
    refine (hpositions _ hposition).trans (congrArg _ ?_)
    rcases h i l found hl hm visible read htable with hle | hempty
    · exact entryAt_fromEnd hle hk
    · have hreversed : ∀ entry ∈ read.reverse, entry = [] :=
        fun entry hentry => hempty entry (List.mem_reverse.1 hentry)
      rw [entryAt_of_empty hempty, getD_of_empty hreversed]

section TooLong

variable {i j : Nat} {l : MemberLayout} {m : MethodDecl String} {visible : Bool}
  {entry : List (AnnotationUse String)}

theorem length_lt_of_parameterTable {attributes : Attributes}
    (h : ctx.parameterTable attributes visible = .ok table) : table.length < UInt16.size := by
  have hshort := (ctx.gives_parameterTable attributes visible table h).length
  have hsizes : UInt8.size ≤ UInt16.size := by decide
  omega

theorem onParameter_of_tooLong
    (hplaces : ctx.PlacesTables c.name c.annotations i l m.parameters.length)
    (htable : ctx.parameterTable l.attributes visible = .ok table)
    (hlong : m.parameters.length ≤ table.length) (hentry : table[j]? = some entry) :
    c.onParameter i j visible = entry.map (·.standing (c.parameterTarget i j)) := by
  obtain ⟨read, hread, hpositions⟩ := hplaces.tables visible
  obtain rfl : read = table := Except.ok.inj (hread.symm.trans htable)
  have hj := (List.getElem?_eq_some_iff.1 hentry).1
  refine (hpositions j (Nat.lt_trans hj (length_lt_of_parameterTable htable))).trans ?_
  rw [Nat.sub_eq_zero_of_le hlong, entryAt, if_pos (Nat.zero_le j), Nat.sub_zero, hentry]
  rfl

theorem eq_nil_of_beyond (h : ParametersLineUp ctx layout c) (hm : c.methods[i]? = some m)
    (hi : i < UInt32.size) (hj : j < UInt16.size) (hbeyond : m.parameters.length ≤ j)
    (hon : c.onParameter i j visible = entry.map (·.standing (c.parameterTarget i j))) :
    entry = [] := by
  rw [List.eq_nil_iff_forall_not_mem]
  intro a ha
  have hmem : a.standing (c.parameterTarget i j) ∈ c.onParameter i j visible := by
    rw [hon]
    exact List.mem_map_of_mem ha
  have hmem := (List.mem_filter.1 (List.mem_filter.1 hmem).1).1
  obtain ⟨_, other, hother, hlt⟩ := h.exist _ hmem _ _ _ rfl
  rw [UInt32.toNat_ofNat_of_lt' hi, hm] at hother
  cases hother
  rw [UInt16.toNat_ofNat_of_lt' hj] at hlt
  omega

theorem eq_nil_of_later (h : ParametersLineUp ctx layout c) (hl : layout.methods[i]? = some l)
    (hm : c.methods[i]? = some m) (htable : ctx.parameterTable l.attributes visible = .ok table)
    (hlong : m.parameters.length ≤ table.length) (hj : j < m.parameters.length)
    (hon : c.onParameter i j visible = entry.map (·.standing (c.parameterTarget i j)))
    (hlater : table[j + (table.length - m.parameters.length)]? = some []) : entry = [] := by
  have hwanted := h.fromEnd i l m hl hm visible table htable (m.parameters.length - 1 - j)
    (by omega)
  have hback : m.parameters.length - 1 - (m.parameters.length - 1 - j) = j := by omega
  have hforth : table.length - 1 - (m.parameters.length - 1 - j)
      = j + (table.length - m.parameters.length) := by omega
  rw [hback, hon, List.getElem?_reverse (by omega), hforth, hlater] at hwanted
  exact List.map_eq_nil_iff.1 hwanted

/-- In a table that is too long, the entry that is wanted on a position stands on a later one. So
there is nothing in any entry, from the last one back. -/
theorem noTableTooLong_of_parametersLineUp (hplaced : ParametersPlaced ctx layout c)
    (hcount : c.methods.length ≤ UInt32.size) (h : ParametersLineUp ctx layout c) :
    NoTableTooLong ctx layout c := by
  intro i l m hl hm visible table htable
  by_cases hle : table.length ≤ m.parameters.length
  · exact .inl hle
  have hlong : m.parameters.length ≤ table.length := by omega
  obtain ⟨found, hfound, hplaces⟩ := hplaced.2 i l hl
  obtain rfl : found = m := Option.some.inj (hfound.symm.trans hm)
  have hi := (List.getElem?_eq_some_iff.1 hm).1
  have hempty : ∀ d j entry, table.length - j = d → table[j]? = some entry → entry = [] := by
    intro d
    induction d using Nat.strong_induction_on with
    | _ d ih =>
      intro j entry hd hentry
      have hj := (List.getElem?_eq_some_iff.1 hentry).1
      have hon := onParameter_of_tooLong hplaces htable hlong hentry
      by_cases hbeyond : found.parameters.length ≤ j
      · exact eq_nil_of_beyond h hm (by omega)
          (Nat.lt_trans hj (length_lt_of_parameterTable htable)) hbeyond hon
      · obtain ⟨later, hlater⟩ : ∃ later,
            table[j + (table.length - found.parameters.length)]? = some later :=
          ⟨_, List.getElem?_eq_getElem (by omega)⟩
        have hnone : later = [] := ih _ (by omega) _ later rfl hlater
        rw [hnone] at hlater
        exact eq_nil_of_later h hl hm htable hlong (Nat.not_le.1 hbeyond) hon hlater
  right
  intro entry hentry
  obtain ⟨j, hj⟩ := List.mem_iff_getElem?.1 hentry
  exact hempty _ j entry rfl hj

end TooLong

end LineUp

/-- All that a decoded class has on parameters are the entries of the tables in its file: on the
last parameters of a method, if there are no more entries than parameters, and else on the first
positions. So they line up with the parameters exactly if no table is too long, an empty one
apart. -/
theorem parametersLineUp_iff_of_decode {config : Config} {bytes : List UInt8}
    {c : ClassDecl String} (h : decode config bytes = .ok c) :
    ∃ layout, Layout.parse config bytes = .ok layout
      ∧ ParametersPlaced ⟨layout.pool, config.invisible, c.name⟩ layout c
      ∧ (ParametersLineUp ⟨layout.pool, config.invisible, c.name⟩ layout c
        ↔ NoTableTooLong ⟨layout.pool, config.invisible, c.name⟩ layout c) := by
  obtain ⟨d, hdraft, hfinish⟩ := bind_eq_ok h
  obtain ⟨layout, hparse, hdraft⟩ := bind_eq_ok hdraft
  cases hfinish
  have hstands := layout.gives_stands config.invisible d hdraft
  have htyped := (layout.gives_wellTyped config.invisible d hdraft).finish
    MethodDecl.constructorName id
  have hcount := Layout.gives_parse config bytes layout hparse
  have hplaced := Draft.parametersPlaced_finish (layout.gives_placesTables config.invisible
    (Layout.gives_parse_short config bytes layout hparse) hcount d hdraft)
    MethodDecl.constructorName id
  have howned : ∀ a ∈ (d.finish MethodDecl.constructorName id).annotations, ∀ t,
      a.target = some t →
        DeclRef.IsIn (d.finish MethodDecl.constructorName id) t.belongsTo := by
    intro a ha t htarget
    obtain ⟨found, hfound, hresolves⟩ : ∃ found, a.target = some found
        ∧ Target.ResolvesIn (d.finish MethodDecl.constructorName id) d.hiddenAt found := by
      rcases Draft.mem_annotations_finish ha with hdeclared | ⟨u, hu, hresolve⟩
      · exact hstands.resolvesIn_declared hdeclared d.hiddenAt
      · exact hstands.resolvesIn_typeUse htyped hu hresolve
    obtain rfl : found = t := Option.some.inj (hfound.symm.trans htarget)
    exact hresolves.declaration
  refine ⟨layout, hparse, hplaced, noTableTooLong_of_parametersLineUp hplaced ?_,
    parametersLineUp_of_noTableTooLong hplaced howned⟩
  have hsizes : UInt16.size ≤ UInt32.size := by decide
  rw [hplaced.1]
  omega

/-- The file of an inner class `O$I` whose constructor takes an `O`, which its signature leaves
out, and an `S`. Its table of annotations on parameters has an entry for either, with `T` in that
for the second. -/
def outerTableFile : List UInt8 :=
  [0xCA, 0xFE, 0xBA, 0xBE, 0, 0, 0, 52, 0, 13] ++ utf8Bytes [79, 36, 73] ++ [7, 0, 1]
    ++ utf8Bytes [79] ++ [7, 0, 3] ++ utf8Bytes [60, 105, 110, 105, 116, 62]
    ++ utf8Bytes [40, 76, 79, 59, 76, 83, 59, 41, 86]
    ++ utf8Bytes [82, 117, 110, 116, 105, 109, 101, 86, 105, 115, 105, 98, 108, 101, 80, 97, 114,
      97, 109, 101, 116, 101, 114, 65, 110, 110, 111, 116, 97, 116, 105, 111, 110, 115]
    ++ utf8Bytes [76, 84, 59] ++ utf8Bytes [73, 110, 110, 101, 114, 67, 108, 97, 115, 115, 101, 115]
    ++ utf8Bytes [73] ++ utf8Bytes [83, 105, 103, 110, 97, 116, 117, 114, 101]
    ++ utf8Bytes [40, 76, 83, 59, 41, 86]
    ++ [0, 0, 0, 2, 0, 0, 0, 0, 0, 0, 0, 1, 0, 0, 0, 5, 0, 6, 0, 2, 0, 11, 0, 0, 0, 2, 0, 12]
    ++ [0, 7, 0, 0, 0, 9, 2, 0, 0, 0, 1, 0, 8, 0, 0]
    ++ [0, 1, 0, 9, 0, 0, 0, 10, 0, 1, 0, 2, 0, 4, 0, 10, 0, 1]

theorem decode_outerTableFile : ∃ c, decode .standard outerTableFile = .ok c
    ∧ c.methods.map (·.parameters) = [[.named "S"]]
    ∧ c.annotations.map (·.target) = [some (.parameter "O$I" 0 1)] := by
  have hclass : (decode .standard outerTableFile).toOption.map
      (fun c => (c.methods.map (·.parameters), c.annotations.map (·.target)))
        = some ([[.named "S"]], [some (.parameter "O$I" 0 1)]) := by
    decide +kernel
  obtain ⟨c, hc, hparts⟩ := Option.map_eq_some_iff.1 hclass
  obtain ⟨hmethods, hannotations⟩ := Prod.mk.inj hparts
  exact ⟨c, eq_ok_of_toOption hc, hmethods, hannotations⟩

theorem parametersLineUp_iff_outerTableFile : ∃ c, decode .standard outerTableFile = .ok c
    ∧ c.annotations.map (·.target) = [some (.parameter "O$I" 0 1)]
    ∧ ∃ layout, Layout.parse .standard outerTableFile = .ok layout
      ∧ ParametersPlaced ⟨layout.pool, Config.standard.invisible, c.name⟩ layout c
      ∧ (ParametersLineUp ⟨layout.pool, Config.standard.invisible, c.name⟩ layout c
        ↔ NoTableTooLong ⟨layout.pool, Config.standard.invisible, c.name⟩ layout c) := by
  obtain ⟨c, hdecode, _, hannotations⟩ := decode_outerTableFile
  exact ⟨c, hdecode, hannotations, parametersLineUp_iff_of_decode hdecode⟩

/-- The entries do not line up with the parameters. -/
theorem not_parametersLineUp_outerTableFile : ∃ c, decode .standard outerTableFile = .ok c
    ∧ ∀ ctx layout, ¬ ParametersLineUp ctx layout c := by
  obtain ⟨c, hdecode, hmethods, hannotations⟩ := decode_outerTableFile
  refine ⟨c, hdecode, fun ctx layout h => ?_⟩
  obtain ⟨a, ha, htarget⟩ : ∃ a ∈ c.annotations, a.target = some (.parameter "O$I" 0 1) :=
    List.mem_map.1 (hannotations ▸ List.mem_singleton_self _)
  obtain ⟨_, m, hm, hlt⟩ := h.exist a ha "O$I" 0 1 htarget
  have hparameters : (c.methods.map (·.parameters))[0]? = some m.parameters := by
    rw [List.getElem?_map]
    exact congrArg _ hm
  rw [hmethods] at hparameters
  have hone : [Ty.named "S"] = m.parameters := Option.some.inj hparameters
  rw [← hone] at hlt
  exact absurd hlt (by decide)

end ClassCatalog.ClassFile
