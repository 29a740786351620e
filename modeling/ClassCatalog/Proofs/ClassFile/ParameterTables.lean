import ClassCatalog.Proofs.ClassFile.TextLengths
import ClassCatalog.Proofs.ClassFile.Visibility

/-! Where the annotations on parameters stand. The entries of a table are placed on the last
positions of the method, or from the first one on if there are more entries than parameters. -/

namespace ClassCatalog

def AnnotationUse.standing (a : AnnotationUse String) (t : Target String) : AnnotationUse String :=
  { a with target := some t }

def ClassDecl.onParameter (c : ClassDecl String) (index position : Nat) (visible : Bool) :
    List (AnnotationUse String) :=
  (c.annotationsOn (c.parameterTarget index position)).filter (·.visible = visible)

namespace ClassFile

variable {α β : Type}

namespace Annotations

def readTable (pool : ConstantPool) (visible : Bool) :
    Reader (List (List (AnnotationUse String))) := do
  times (← Reader.u1) (Reader.counted (readOne pool visible))

/-- The entries of a table on the parameters from `position` on. -/
def placed (owner : String) (method : UInt32) : Nat → List (List (AnnotationUse String)) →
    List (AnnotationUse String)
  | _, [] => []
  | position, entry :: table =>
    entry.map (·.standing (.parameter owner method (UInt16.ofNat (min 65535 position))))
      ++ placed owner method (position + 1) table

def entryAt (start : Nat) (table : List (List (AnnotationUse String))) (position : Nat) :
    List (AnnotationUse String) :=
  if start ≤ position then table[position - start]?.getD [] else []

end Annotations

open Annotations (readTable placed entryAt)

def Context.parameterTable (ctx : Context) (attributes : Attributes) (visible : Bool) :
    Except DecodeError (List (List (AnnotationUse String))) :=
  if visible then
    attributes.readList "RuntimeVisibleParameterAnnotations" (readTable ctx.pool true)
  else if ctx.invisible then
    attributes.readList "RuntimeInvisibleParameterAnnotations" (readTable ctx.pool false)
  else .ok []

theorem times_map {m : Type → Type} [Monad m] [LawfulMonad m] (f : α → β) (p : m α) (n : Nat) :
    times n (f <$> p) = List.map f <$> times n p := by
  induction n with
  | zero => rw [times, times, map_pure, List.map_nil]
  | succ n ih => simp only [times, ih, bind_map_left, map_bind, map_pure, List.map_cons]

theorem run_map_eq_ok {σ ε : Type} {f : α → β} {p : StateT σ (Except ε) α} {s s' : σ} {b : β}
    (h : (f <$> p).run s = .ok (b, s')) : ∃ a, p.run s = .ok (a, s') ∧ b = f a := by
  rw [← bind_pure_comp, StateT.run_bind] at h
  obtain ⟨⟨a, s₁⟩, ha, h⟩ := bind_eq_ok h
  cases h
  exact ⟨a, ha, rfl⟩

theorem Reader.yields_u1 : Yields Reader.u1 (· < UInt8.size) := by
  refine Yields.mapped bigEndian ((Reader.yields_bytes 1).mono fun front hfront => ?_)
  have hlt := bigEndian_lt front
  rw [hfront] at hlt
  exact hlt

namespace Annotations

variable {pool : ConstantPool} {owner : String} {method : UInt32} {visible : Bool}

theorem read_eq (pool : ConstantPool) (target : Target String) (visible : Bool) :
    read pool target visible
      = List.map (·.standing target) <$> Reader.counted (readOne pool visible) := by
  have hone : (do return { ← readOne pool visible with target := some target })
      = (·.standing target) <$> readOne pool visible := by
    rw [map_eq_pure_bind]
    rfl
  rw [read, hone]
  simp only [Reader.counted, times_map, map_bind]

theorem placed_of_readTables {n position : Nat} {s s' : Cursor} {as : List (AnnotationUse String)}
    (h : (readTables pool owner method visible n position).run s = .ok (as, s')) :
    ∃ table, (times n (Reader.counted (readOne pool visible))).run s = .ok (table, s')
      ∧ table.length = n ∧ as = placed owner method position table := by
  induction n generalizing position s as with
  | zero =>
    cases h
    exact ⟨[], rfl, rfl, rfl⟩
  | succ n ih =>
    rw [readTables, StateT.run_bind] at h
    obtain ⟨⟨here, s₁⟩, hhere, h⟩ := bind_eq_ok h
    rw [StateT.run_bind] at h
    obtain ⟨⟨rest, s₂⟩, hrest, h⟩ := bind_eq_ok h
    cases h
    rw [read_eq] at hhere
    obtain ⟨entry, hentry, rfl⟩ := run_map_eq_ok hhere
    obtain ⟨table, htable, rfl, rfl⟩ := ih hrest
    refine ⟨entry :: table, ?_, rfl, rfl⟩
    rw [times, run_bind_of_ok hentry, run_bind_of_ok htable]
    rfl

theorem placed_of_readParameters {arity : Nat} {s s' : Cursor} {as : List (AnnotationUse String)}
    (h : (readParameters pool owner method arity visible).run s = .ok (as, s')) :
    ∃ table, (readTable pool visible).run s = .ok (table, s')
      ∧ as = placed owner method (arity - table.length) table := by
  rw [readParameters, StateT.run_bind] at h
  obtain ⟨⟨count, s₁⟩, hcount, h⟩ := bind_eq_ok h
  obtain ⟨table, htable, rfl, rfl⟩ := placed_of_readTables h
  refine ⟨table, ?_, rfl⟩
  rw [readTable, run_bind_of_ok hcount]
  exact htable

/-- What a table is like: of one visibility, and with fewer than 256 entries. -/
structure IsTable (visible : Bool) (table : List (List (AnnotationUse String))) : Prop where
  length : table.length < UInt8.size
  visible : ∀ entry ∈ table, ∀ a ∈ entry, a.visible = visible

theorem yields_readTable (pool : ConstantPool) (visible : Bool) :
    Yields (readTable pool visible) (IsTable visible) := by
  refine Reader.yields_u1.bind fun n hn => ?_
  have hentry := Reader.yields_counted (yields_readOne_visible pool visible)
  exact (hentry.times n).mono fun table h => ⟨h.1 ▸ hn, h.2⟩

theorem filter_standing (entry : List (AnnotationUse String)) (t target : Target String) :
    (entry.map (·.standing t)).filter (·.target = some target)
      = if t = target then entry.map (·.standing t) else [] := by
  split
  · next h =>
    rw [List.filter_eq_self]
    exact List.forall_mem_map.2 fun a _ => decide_eq_true (congrArg some h)
  · next h =>
    rw [List.filter_eq_nil_iff]
    refine List.forall_mem_map.2 fun a _ => ?_
    rw [decide_eq_true_eq]
    exact fun heq => h (Option.some.inj heq)

theorem parameter_eq_iff {i j : Nat} (hi : i < UInt16.size) (hj : j < UInt16.size) :
    Target.parameter owner method (UInt16.ofNat i) = .parameter owner method (UInt16.ofNat j)
      ↔ i = j := by
  constructor
  · intro h
    injection h with _ _ hposition
    have hnat := congrArg UInt16.toNat hposition
    rwa [UInt16.toNat_ofNat_of_lt' hi, UInt16.toNat_ofNat_of_lt' hj] at hnat
  · rintro rfl
    rfl

theorem filter_placed {start : Nat} {table : List (List (AnnotationUse String))}
    (hfits : start + table.length ≤ UInt16.size) {position : Nat}
    (hposition : position < UInt16.size) :
    (placed owner method start table).filter
        (·.target = some (.parameter owner method (UInt16.ofNat position)))
      = (entryAt start table position).map
        (·.standing (.parameter owner method (UInt16.ofNat position))) := by
  induction table generalizing start with
  | nil => simp [placed, entryAt]
  | cons entry table ih =>
    rw [List.length_cons] at hfits
    have hstart : start < UInt16.size := by omega
    have hmin : min 65535 start = start := Nat.min_eq_right (Nat.le_of_lt_succ hstart)
    rw [placed, List.filter_append, filter_standing, hmin, ih (by omega)]
    simp only [parameter_eq_iff hstart hposition]
    unfold entryAt
    rcases Nat.lt_trichotomy start position with hlt | rfl | hgt
    · have hindex : position - start = position - (start + 1) + 1 := by omega
      rw [if_neg (Nat.ne_of_lt hlt), if_pos (show start + 1 ≤ position from hlt),
        if_pos (Nat.le_of_lt hlt), hindex, List.getElem?_cons_succ, List.nil_append]
    · rw [if_pos rfl, if_neg (by omega), if_pos (Nat.le_refl start), Nat.sub_self,
        List.getElem?_cons_zero]
      simp
    · rw [if_neg (Nat.ne_of_gt hgt), if_neg (by omega), if_neg (by omega)]
      rfl

theorem mem_entryAt {start position : Nat} {table : List (List (AnnotationUse String))}
    {a : AnnotationUse String} (h : a ∈ entryAt start table position) :
    start ≤ position ∧ ∃ entry, table[position - start]? = some entry ∧ a ∈ entry := by
  unfold entryAt at h
  split at h
  · next hle =>
    cases hentry : table[position - start]? with
    | none =>
      rw [hentry] at h
      cases h
    | some entry =>
      rw [hentry] at h
      exact ⟨hle, entry, rfl, h⟩
  · cases h

theorem IsTable.filter_entryAt {seen : Bool} {table : List (List (AnnotationUse String))}
    (h : IsTable seen table) (start position : Nat) (target : Target String) :
    ((entryAt start table position).map (·.standing target)).filter (·.visible = visible)
      = if seen = visible then (entryAt start table position).map (·.standing target) else [] := by
  have hseen : ∀ a ∈ (entryAt start table position).map (·.standing target), a.visible = seen := by
    refine List.forall_mem_map.2 fun a ha => ?_
    obtain ⟨_, entry, hentry, hmem⟩ := mem_entryAt ha
    exact h.visible entry (List.mem_of_getElem? hentry) a hmem
  split
  · next heq =>
    rw [List.filter_eq_self]
    exact fun a ha => decide_eq_true ((hseen a ha).trans heq)
  · next hne =>
    rw [List.filter_eq_nil_iff]
    intro a ha
    rw [hseen a ha, decide_eq_true_eq]
    exact hne

end Annotations

namespace Context

variable (ctx : Context)

theorem placed_of_readList {attributes : Attributes} {name owner : String} {method : UInt32}
    {arity : Nat} {visible : Bool} {as : List (AnnotationUse String)}
    (h : attributes.readList name
      (Annotations.readParameters ctx.pool owner method arity visible) = .ok as) :
    ∃ table, attributes.readList name (readTable ctx.pool visible) = .ok table
      ∧ as = placed owner method (arity - table.length) table := by
  unfold Attributes.readList at h ⊢
  cases hbody : attributes.body? name with
  | none =>
    rw [hbody] at h
    cases h
    exact ⟨[], rfl, rfl⟩
  | some body =>
    rw [hbody] at h
    dsimp only at h ⊢
    unfold Reader.value at h ⊢
    cases hrun : (Annotations.readParameters ctx.pool owner method arity visible).run
        (.ofBytes body) with
    | error e =>
      rw [hrun] at h
      cases h
    | ok r =>
      rw [hrun] at h
      cases h
      obtain ⟨table, htable, hplaced⟩ := Annotations.placed_of_readParameters hrun
      exact ⟨table, congrArg (Except.map (·.1)) htable, hplaced⟩

theorem gives_onParameters (attributes : Attributes) (owner : String) (method : UInt32)
    (arity : Nat) :
    Gives (ctx.readBoth attributes "ParameterAnnotations"
      (Annotations.readParameters ctx.pool owner method arity)) fun as => ∃ tables : Bool → _,
        (∀ visible, ctx.parameterTable attributes visible = .ok (tables visible))
          ∧ as = placed owner method (arity - (tables true).length) (tables true)
            ++ placed owner method (arity - (tables false).length) (tables false) := by
  intro as has
  obtain ⟨seen, hseen, has⟩ := bind_eq_ok has
  obtain ⟨table, htable, rfl⟩ := ctx.placed_of_readList hseen
  split at has
  · next hwanted =>
    obtain ⟨unseen, hunseen, has⟩ := bind_eq_ok has
    obtain ⟨other, hother, rfl⟩ := ctx.placed_of_readList hunseen
    cases has
    refine ⟨fun visible => if visible then table else other, ?_, rfl⟩
    rintro (_ | _)
    · exact (if_pos hwanted).trans hother
    · exact htable
  · next hwanted =>
    cases has
    refine ⟨fun visible => if visible then table else [], ?_, (List.append_nil _).symm⟩
    rintro (_ | _)
    · exact if_neg hwanted
    · exact htable

theorem gives_parameterTable (attributes : Attributes) (visible : Bool) :
    Gives (ctx.parameterTable attributes visible) (Annotations.IsTable visible) := by
  have hread (name : String) (visible : Bool) : Gives (attributes.readList name
      (readTable ctx.pool visible)) (Annotations.IsTable visible) := by
    unfold Attributes.readList
    split
    · exact Gives.ok ⟨by decide, by simp⟩
    · exact Reader.gives_value (Annotations.yields_readTable ctx.pool visible) _
  unfold parameterTable
  cases visible with
  | true => exact hread _ true
  | false =>
    rw [if_neg Bool.false_ne_true]
    split
    · exact hread _ false
    · exact Gives.ok ⟨by decide, by simp⟩

/-- Among `annotations`, those on the parameters of the method at `index` are its two tables,
each in its place. -/
structure PlacesTables (name : String) (annotations : List (AnnotationUse String)) (index : Nat)
    (m : MemberLayout) (arity : Nat) : Prop where
  arity_lt : arity < UInt16.size
  tables : ∀ visible, ∃ table, ctx.parameterTable m.attributes visible = .ok table
    ∧ ∀ position < UInt16.size, (annotations.filter (·.target
        = some (.parameter name (UInt32.ofNat index) (UInt16.ofNat position)))).filter
          (·.visible = visible)
      = (entryAt (arity - table.length) table position).map
        (·.standing (.parameter name (UInt32.ofNat index) (UInt16.ofNat position)))

theorem gives_declaredOn_method (attributes : Attributes) (owner : String) (method : UInt32) :
    Gives (ctx.declaredOn attributes (.method owner method)) fun as => ∀ position,
      as.filter (·.target = some (.parameter owner method position)) = [] := by
  have hread (visible : Bool) : Yields (Annotations.read ctx.pool
      (.declaration (.method owner method)) visible) fun as =>
        ∀ a ∈ as, a.target = some (.declaration (.method owner method)) :=
    Reader.yields_counted ((Yields.any _).bind fun _ _ => Yields.pure rfl)
  intro as has position
  rw [List.filter_eq_nil_iff]
  intro a ha
  rw [ctx.gives_readBoth attributes _ hread as has a ha, decide_eq_true_eq]
  exact nofun

theorem gives_method_tables (index : Nat) {m : MemberLayout} (hshort : m.IsShort) :
    Gives (ctx.method index m) fun r =>
      r.decl.types.parameters.length < UInt16.size ∧ ∃ declared, ∃ tables : Bool → _,
        (∀ visible, ctx.parameterTable m.attributes visible = .ok (tables visible))
          ∧ (∀ position, declared.filter (·.target
            = some (.parameter ctx.name (UInt32.ofNat index) position)) = [])
          ∧ r.annotations = declared ++
            (placed ctx.name (UInt32.ofNat index)
                (r.decl.types.parameters.length - (tables true).length) (tables true)
              ++ placed ctx.name (UInt32.ofNat index)
                (r.decl.types.parameters.length - (tables false).length) (tables false)) := by
  refine (Descriptor.gives_length_parseMethod hshort.descriptor).bind fun erased herased => ?_
  refine (Gives.any _).bind fun thrown _ => ?_
  refine (gives_length_methodTypes hshort herased thrown).bind fun types htypes => ?_
  refine (Gives.any _).bind fun default _ => (Gives.any _).bind fun _ _ => ?_
  refine (ctx.gives_declaredOn_method m.attributes _ _).bind fun declared hdeclared => ?_
  refine (ctx.gives_onParameters m.attributes _ _ _).bind fun onParameters honParameters => ?_
  obtain ⟨tables, htables, rfl⟩ := honParameters
  exact (Gives.any _).bind fun _ _ =>
    Gives.ok ⟨htypes, declared, tables, htables, hdeclared, rfl⟩

theorem gives_method_placesTables (index : Nat) {m : MemberLayout} (hshort : m.IsShort) :
    Gives (ctx.method index m) fun r =>
      ctx.PlacesTables ctx.name r.annotations index m r.decl.types.parameters.length := by
  intro r hr
  obtain ⟨harity, declared, tables, hread, hdeclared, hannotations⟩ :=
    ctx.gives_method_tables index hshort r hr
  refine ⟨harity, fun visible => ⟨tables visible, hread visible, fun position hposition => ?_⟩⟩
  have htable (seen : Bool) : Annotations.IsTable seen (tables seen) :=
    ctx.gives_parameterTable m.attributes seen _ (hread seen)
  have hfits (seen : Bool) : r.decl.types.parameters.length - (tables seen).length
      + (tables seen).length ≤ UInt16.size := by
    have hlength := (htable seen).length
    have hsizes : UInt8.size ≤ UInt16.size := by decide
    omega
  rw [hannotations, List.filter_append, hdeclared, List.nil_append, List.filter_append,
    Annotations.filter_placed (hfits true) hposition,
    Annotations.filter_placed (hfits false) hposition, List.filter_append,
    (htable true).filter_entryAt, (htable false).filter_entryAt]
  cases visible with
  | true => rw [if_pos rfl, if_neg Bool.false_ne_true, List.append_nil]
  | false => rw [if_neg Bool.false_ne_true.symm, if_pos rfl, List.nil_append]

end Context

theorem flatMap_of_unique {ι : Type} {f : ι → List α} {xs : List ι} {i : Nat} {x : ι}
    (hx : xs[i]? = some x) (h : ∀ (j : Nat) (y : ι), xs[j]? = some y → j ≠ i → f y = []) :
    xs.flatMap f = f x := by
  induction xs generalizing i with
  | nil => cases hx
  | cons y xs ih =>
    rw [List.flatMap_cons]
    cases i with
    | zero =>
      cases hx
      have hrest : xs.flatMap f = [] := by
        rw [List.flatMap_eq_nil_iff]
        intro z hz
        obtain ⟨j, hj⟩ := List.mem_iff_getElem?.1 hz
        exact h (j + 1) z hj (Nat.succ_ne_zero j)
      rw [hrest, List.append_nil]
    | succ i =>
      rw [h 0 y rfl (Nat.succ_ne_zero i).symm, List.nil_append]
      exact ih hx fun j z hj hne => h (j + 1) z hj fun heq => hne (Nat.succ.inj heq)

section Elsewhere

variable {owner : String} {method : UInt32} {position : UInt16}

theorem filter_of_standsOn {ref : DeclRef String} {as : List (AnnotationUse String)}
    (h : ∀ a ∈ as, AnnotationUse.StandsOn ref a) (hne : .method owner method ≠ ref) :
    as.filter (·.target = some (.parameter owner method position)) = [] := by
  rw [List.filter_eq_nil_iff]
  intro a ha
  obtain ⟨⟨found, hfound, hbelongs, _⟩, _⟩ := h a ha
  rw [decide_eq_true_eq, hfound]
  intro heq
  cases heq
  exact hne hbelongs

theorem filter_flatMap_of_standsOn {rs : List (Decoded α)}
    (h : ∀ r ∈ rs, ∃ ref, r.StandsOn ref ∧ .method owner method ≠ ref) :
    (rs.flatMap (·.annotations)).filter
      (·.target = some (.parameter owner method position)) = [] := by
  rw [List.filter_flatMap, List.flatMap_eq_nil_iff]
  intro r hr
  obtain ⟨ref, hstands, hne⟩ := h r hr
  exact filter_of_standsOn hstands.annotations hne

end Elsewhere

theorem filter_flatMap_of_method {name : String} {rs : List (Decoded α)}
    (hcount : rs.length < UInt16.size)
    (h : ∀ (j : Nat) (r : Decoded α), rs[j]? = some r → r.StandsOn (.method name (UInt32.ofNat j)))
    {i : Nat} {r : Decoded α} (hr : rs[i]? = some r) (position : UInt16) :
    (rs.flatMap (·.annotations)).filter
        (·.target = some (.parameter name (UInt32.ofNat i) position))
      = r.annotations.filter
        (·.target = some (.parameter name (UInt32.ofNat i) position)) := by
  have hsize {j : Nat} {other : Decoded α} (hj : rs[j]? = some other) : j < UInt32.size :=
    Nat.lt_trans (Nat.lt_trans (List.getElem?_eq_some_iff.1 hj).1 hcount) (by decide)
  rw [List.filter_flatMap]
  refine flatMap_of_unique hr fun j other hj hne => filter_of_standsOn (h j other hj).annotations ?_
  rw [ne_eq, DeclRef.method_ofNat_inj (hsize hr) (hsize hj)]
  exact hne.symm

theorem Layout.gives_placesTables (invisible : Bool) {layout : Layout}
    (hshort : ∀ m ∈ layout.methods, m.IsShort) (hcount : layout.methods.length < UInt16.size) :
    Gives (layout.draft invisible) fun d => ReadFrom (fun i l m =>
      Context.PlacesTables ⟨layout.pool, invisible, d.name⟩ d.name d.annotations i l
        m.types.parameters.length) layout.methods d.methods := by
  refine (Gives.any _).bind fun s _ => (Gives.any _).bind fun types _ => ?_
  refine (Context.gives_declaredOn _ layout.attributes _).bind fun onClass honClass => ?_
  refine (Gives.any _).bind fun inClass _ => ?_
  refine (Gives.mapM fun m _ => Context.gives_field_standsOn _ m).bind fun fields hfields => ?_
  refine (Context.gives_methodsFrom _ (P := fun index m r =>
    r.StandsOn (.method (binaryName layout.name) (UInt32.ofNat index)) ∧ (m.IsShort →
      Context.PlacesTables _ (binaryName layout.name) r.annotations index m
        r.decl.types.parameters.length)) (fun index m r hr =>
      ⟨(Context.gives_method_standsOn _ index m r hr).standsOn,
        fun hm => Context.gives_method_placesTables _ index hm r hr⟩) 0 layout.methods).bind
    fun methods hmethods => ?_
  refine (Context.gives_components _ (Context.yields_component_standsOn _) layout.attributes).bind
    fun components hcomponents => Gives.ok ?_
  have hplaces := ReadFrom.of_places hmethods.1 hmethods.2
  refine ⟨by rw [List.length_map, hplaces.1], fun i l hl => ?_⟩
  have honMethods (j : Nat) (r : Decoded (MethodDraft String)) (hr : methods[j]? = some r) :
      r.StandsOn (.method (binaryName layout.name) (UInt32.ofNat j)) := by
    obtain ⟨_, _, hstands, _⟩ := hmethods.2 j r hr
    rwa [Nat.zero_add] at hstands
  obtain ⟨r, hr, _, hreads⟩ := hplaces.2 i l hl
  rw [Nat.zero_add] at hreads
  obtain ⟨harity, htables⟩ := hreads (hshort l (List.mem_of_getElem? hl))
  refine ⟨r.decl, by rw [List.getElem?_map, hr]; rfl, harity, fun visible => ?_⟩
  obtain ⟨table, htable, hpositions⟩ := htables visible
  refine ⟨table, htable, fun position hposition => ?_⟩
  rw [← hpositions position hposition]
  have hothers := filter_flatMap_of_method (by rw [hplaces.1]; exact hcount) honMethods hr
    (UInt16.ofNat position)
  congr 1
  show (onClass ++ fields.flatMap _ ++ methods.flatMap _ ++ components.flatMap _).filter _ = _
  rw [List.filter_append, List.filter_append, List.filter_append, hothers,
    filter_of_standsOn honClass nofun,
    filter_flatMap_of_standsOn fun r hr => ⟨_, hfields r hr, nofun⟩,
    filter_flatMap_of_standsOn fun r hr => ⟨_, hcomponents r hr, nofun⟩,
    List.append_nil, List.nil_append, List.nil_append]

end ClassFile

end ClassCatalog
