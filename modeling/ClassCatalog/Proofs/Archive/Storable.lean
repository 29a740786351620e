import ClassCatalog.Proofs.Archive.Records
import ClassCatalog.Proofs.Index.ClassTable

/-! What reading accepts can be written again: annotations stand on the class that they are read
with, methods have their positions, and values nest no deeper than they may. -/

namespace ClassCatalog.Archive

variable {α β : Type}

/-- Every result of `p`, from any budget and any place, has the property `Q`. -/
def Metered.Yields (p : Metered α) (Q : α → Prop) : Prop :=
  ∀ budget, ClassCatalog.Yields (p.run budget) fun r => Q r.1

namespace Metered.Yields

variable {P : α → Prop} {Q : β → Prop}

theorem pure {a : α} (h : P a) : Metered.Yields (Pure.pure a) P :=
  fun _ => ClassCatalog.Yields.pure h

theorem fail (e : ArchiveError) : Metered.Yields (throw e) P := fun _ => nofun

theorem bind {p : Metered α} {f : α → Metered β} (hp : Metered.Yields p P)
    (hf : ∀ a, P a → Metered.Yields (f a) Q) : Metered.Yields (p >>= f) Q := by
  intro budget
  rw [StateT.run_bind]
  exact (hp budget).bind fun r hr => hf r.1 hr r.2

theorem after {p : Metered α} {f : α → Metered β} (hf : ∀ a, Metered.Yields (f a) Q) :
    Metered.Yields (p >>= f) Q :=
  bind (P := fun _ => True) (fun _ _ _ _ _ => trivial) fun a _ => hf a

theorem map {p : Metered α} (f : α → β) (h : Metered.Yields p fun a => Q (f a)) :
    Metered.Yields (do return f (← p)) Q :=
  h.bind fun _ ha => pure ha

theorem ite {c : Prop} [Decidable c] {p q : Metered α} (hp : c → Metered.Yields p P)
    (hq : ¬ c → Metered.Yields q P) : Metered.Yields (if c then p else q) P := by
  split
  · next h => exact hp h
  · next h => exact hq h

theorem times {p : Metered α} (h : Metered.Yields p P) (n : Nat) :
    Metered.Yields (ClassCatalog.times n p) fun as => ∀ a ∈ as, P a := by
  induction n with
  | zero => exact pure (by simp)
  | succ n ih =>
    exact h.bind fun a ha => ih.bind fun as has => pure (List.forall_mem_cons.2 ⟨ha, has⟩)

theorem counted {p : Metered α} (h : Metered.Yields p P) :
    Metered.Yields (Archive.counted p) fun as => ∀ a ∈ as, P a :=
  after fun n => h.times n

theorem within {p : Metered α} (h : Metered.Yields p P) (body : List UInt8) :
    Metered.Yields (Archive.within body p) P := by
  intro budget cursor r cursor' hrun
  simp only [Archive.within, StateT.run] at hrun
  split at hrun
  · next result end' hresult =>
    cases hrun
    exact h budget _ _ _ hresult
  · cases hrun

end Metered.Yields

section Classes

variable (tables : ReadTables) (version : Version)

theorem yields_members {value : Metered (Value String)} {levels : Nat}
    (h : Metered.Yields value (·.depth ≤ levels)) :
    Metered.Yields (readMembers tables value) fun ms => Value.membersDepth ms ≤ levels := by
  have hmember : Metered.Yields (do
      let name ← tables.name
      return (name, ← value)) fun m : String × Value String => m.2.depth ≤ levels :=
    .after fun name => h.map fun v => (name, v)
  intro budget cursor r cursor' hrun
  exact (Value.membersDepth_le_iff _ _).2 (hmember.counted budget cursor r cursor' hrun)

theorem yields_value (levels : Nat) :
    Metered.Yields (readValue tables levels) (·.depth ≤ levels) := by
  induction levels with
  | zero => exact .after fun _ => .fail _
  | succ levels ih =>
    have hflat : 1 ≤ levels + 1 := Nat.succ_le_succ (Nat.zero_le levels)
    refine .after fun tag => ?_
    split
    -- Numbers, texts and class literals; then enum constants, nested annotations and arrays.
    iterate 10 exact .after fun _ => .pure hflat
    · exact .after fun _ => .after fun _ => .pure hflat
    · refine .after fun _ => .after fun _ => (yields_members tables ih).bind fun ms hms => .pure ?_
      rw [Value.depth]
      omega
    · refine ih.counted.bind fun elements helements => .pure ?_
      have hdepth := (Value.elementsDepth_le_iff _ _).2 helements
      rw [Value.depth]
      omega
    · exact .fail _

theorem yields_methodDetails : Metered.Yields (readMethodDetails tables version) fun r =>
    ∀ value ∈ r.2, value.depth ≤ maxValueDepth := by
  have hnone : ∀ names : List (Option String), Metered.Yields
      (pure (names, none) : Metered (List (Option String) × Option (Value String))) fun r =>
        ∀ value ∈ r.2, value.depth ≤ maxValueDepth := fun names => .pure (by simp)
  refine .ite (fun _ => .after fun names => .after fun present => ?_) fun _ => hnone []
  refine .ite (fun _ => ?_) fun _ => hnone names
  exact (yields_value tables maxValueDepth).bind fun v hv => .pure (by simpa using hv)

theorem yields_method : Metered.Yields (readMethod tables version) fun m =>
    ∀ value ∈ m.default, value.depth ≤ maxValueDepth := by
  refine .after fun _ => .after fun _ => .after fun _ => .after fun _ => .after fun _ => ?_
  exact .after fun _ => (yields_methodDetails tables version).map _

theorem yields_methods (n index : Nat) (hindex : index ≤ UInt32.size) :
    Metered.Yields (readMethods tables version n index) fun ms =>
      index + ms.length ≤ UInt32.size
        ∧ ∀ m ∈ ms, ∀ value ∈ m.default, value.depth ≤ maxValueDepth := by
  induction n generalizing index with
  | zero => exact .pure ⟨hindex, by simp⟩
  | succ n ih =>
    -- A position beyond 32 bits is refused before its method is read.
    refine .ite (fun hlt => ?_) fun _ => Metered.Yields.bind (.fail (P := fun _ => False) _) nofun
    refine (yields_method tables version).bind fun m hm => ?_
    refine (ih (index + 1) hlt).bind fun ms hms => .pure ⟨?_, List.forall_mem_cons.2 ⟨hm, hms.2⟩⟩
    rw [List.length_cons]
    omega

theorem yields_declaration (owner : String) (tag : Nat) :
    Metered.Yields (readDeclaration tables version owner tag) fun r =>
      ∀ d ∈ r, d.declaringClass = owner := by
  have hsome : ∀ d : DeclRef String, d.declaringClass = owner → Metered.Yields
      (pure (some d) : Metered (Option (DeclRef String))) fun r =>
        ∀ d ∈ r, d.declaringClass = owner := fun d hd => .pure (by simpa using hd)
  have hnone : Metered.Yields (pure none : Metered (Option (DeclRef String))) fun r =>
      ∀ d ∈ r, d.declaringClass = owner := .pure (by simp)
  unfold readDeclaration
  split
  · exact hsome _ rfl
  · exact .after fun _ => hsome _ rfl
  · exact .after fun _ => hsome _ rfl
  · exact .ite (fun _ => .after fun _ => hsome _ rfl) fun _ => hnone
  · exact hnone

theorem yields_typeTarget (owner : String) :
    Metered.Yields (readTypeTarget tables version owner) fun r =>
      ∀ t ∈ r, t.enclosing.declaringClass = owner := by
  have hnone : Metered.Yields (pure none : Metered (Option (TypeTarget String))) fun r =>
      ∀ t ∈ r, t.enclosing.declaringClass = owner := .pure (by simp)
  refine .after fun tag => (yields_declaration tables version owner _).bind fun d hd => ?_
  cases d with
  | none => exact hnone
  | some d =>
    refine .after fun use => ?_
    cases use with
    | none => exact hnone
    | some use => exact .after fun path => .after fun ty => .pure (by simpa using hd)

theorem yields_target (owner : String) :
    Metered.Yields (readTarget tables version owner) fun r =>
      ∀ target ∈ r, ∀ t ∈ target, t.declaringClass = owner := by
  refine .after fun tag => ?_
  split
  · exact .pure (by simp)
  · exact .after fun _ => .after fun _ => .pure (by simp [Target.declaringClass])
  · refine (yields_typeTarget tables version owner).bind fun r hr => .pure ?_
    cases r with
    | none => simp
    | some t => simpa [Target.declaringClass] using hr
  · refine (yields_declaration tables version owner _).bind fun r hr => .pure ?_
    cases r with
    | none => simp
    | some d => simpa [Target.declaringClass] using hr

def ReadWith (owner : String) (a : AnnotationUse String) : Prop :=
  (∀ t ∈ a.target, t.declaringClass = owner) ∧ Value.membersDepth a.members ≤ maxValueDepth

theorem yields_useOf (owner : String) :
    Metered.Yields (readUseOf tables version owner) fun r => ∀ a ∈ r, ReadWith owner a := by
  refine .after fun name => .after fun visible => ?_
  refine (yields_target tables version owner).bind fun target htarget => ?_
  cases target with
  | none => exact .pure (by simp)
  | some target =>
    refine (yields_members tables (yields_value tables maxValueDepth)).bind fun ms hms => .pure ?_
    intro a ha
    cases ha
    exact ⟨htarget target rfl, hms⟩

theorem yields_annotations (owner : String) :
    Metered.Yields (readAnnotations tables version owner) fun as => ∀ a ∈ as, ReadWith owner a := by
  have hrecord : Metered.Yields (do
      let body ← Scanner.bytes (← Scanner.count)
      within body (readUseOf tables version owner)) fun r => ∀ a ∈ r, ReadWith owner a :=
    .after fun _ => .after fun body => (yields_useOf tables version owner).within body
  refine hrecord.counted.bind fun uses huses => .pure fun a ha => ?_
  obtain ⟨r, hr, hsome⟩ := List.mem_filterMap.1 ha
  exact huses r hr a hsome

theorem yields_head : Metered.Yields (readHead tables version) fun c =>
    c.methods.length ≤ UInt32.size
      ∧ ∀ m ∈ c.methods, ∀ value ∈ m.default, value.depth ≤ maxValueDepth := by
  refine .after fun _ => .after fun _ => .after fun _ => .after fun _ => .after fun _ => ?_
  refine .after fun _ => .after fun _ => .after fun count => ?_
  refine (yields_methods tables version count 0 (Nat.zero_le _)).bind fun ms hms => ?_
  rw [Nat.zero_add] at hms
  exact .after fun _ => .after fun _ => .pure hms

theorem yields_class : Metered.Yields (readClass tables version) Storable := by
  refine (yields_head tables version).bind fun head hhead => ?_
  refine (yields_annotations tables version head.name).bind fun as has => .pure ?_
  exact ⟨fun a ha => (has a ha).1, hhead.1, fun a ha => (has a ha).2, hhead.2⟩

end Classes

theorem storable_of_readClasses {bytes : List UInt8} {cs : List (ClassDecl String)}
    (h : readClasses bytes = .ok cs) : ∀ c ∈ cs, Storable c := by
  obtain ⟨⟨version, cursor⟩, _, h⟩ := bind_eq_ok h
  obtain ⟨⟨⟨found, left⟩, cursor'⟩, hbody, h⟩ := bind_eq_ok h
  have hfound : ∀ c ∈ found, Storable c :=
    Metered.Yields.after (fun tables => (yields_class tables version).counted) _ cursor _ cursor'
      hbody
  simp only at h
  split at h
  · cases h
    exact hfound
  · cases h

theorem storable_of_read {bytes : List UInt8} {i : Index} (h : read bytes = .ok i) :
    ∀ c ∈ i.classes, Storable c := by
  obtain ⟨cs, hcs, hindex⟩ := bind_eq_ok h
  intro c hc
  cases hof : Index.ofClasses cs with
  | error e =>
    rw [hof] at hindex
    cases hindex
  | ok j =>
    rw [hof] at hindex
    cases hindex
    exact storable_of_readClasses hcs c ((Index.perm_of_ofClasses hof).mem_iff.1 hc)

end ClassCatalog.Archive
