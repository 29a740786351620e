import ClassCatalog.Proofs.Listing.Groups

/-! The lines of a listing: under the line of a declaration one for each annotation that belongs to
it. -/

namespace ClassCatalog

namespace Value

/-- Members in parentheses; one that is alone and named `value` stands without its name. -/
def membersText : List (String × Value String) → String
  | [] => ""
  | [("value", v)] => "(" ++ v.display ++ ")"
  | members =>
    "(" ++ ", ".intercalate (members.map fun m => m.1 ++ " = " ++ m.2.display) ++ ")"

theorem append_displayMoreMembers (text : String) (members : List (String × Value String)) :
    text ++ displayMoreMembers members
      = ", ".intercalate (text :: members.map fun m => m.1 ++ " = " ++ m.2.display) := by
  induction members generalizing text with
  | nil => rw [displayMoreMembers, String.append_empty, List.map_nil, String.intercalate_singleton]
  | cons member members ih =>
    obtain ⟨name, v⟩ := member
    rw [displayMoreMembers, List.map_cons, String.intercalate_cons_cons, ← ih]
    simp only [String.append_assoc]

theorem displayMembers_eq (members : List (String × Value String)) :
    displayMembers members = membersText members := by
  rcases members with _ | ⟨⟨name, v⟩, rest⟩
  · rfl
  have hall : "(" ++ name ++ " = " ++ v.display ++ displayMoreMembers rest ++ ")"
      = "(" ++ ", ".intercalate (((name, v) :: rest).map fun m => m.1 ++ " = " ++ m.2.display)
        ++ ")" := by
    rw [List.map_cons, ← append_displayMoreMembers]
    simp only [String.append_assoc]
  rw [displayMembers]
  split
  · next halone =>
    obtain ⟨rfl, hrest⟩ := halone
    rw [List.isEmpty_iff.1 hrest, membersText]
  · next hmore =>
    rw [hall, membersText]
    · exact nofun
    · rintro w h
      cases h
      exact hmore ⟨rfl, rfl⟩

end Value

/-- The annotation with what it says of the place where it stands. -/
def AnnotationUse.shown (a : AnnotationUse String) : String :=
  match a.target with
  | some (.typeUse u) => a.display ++ " on " ++ u.use.display ++ ": " ++ u.ty.display
  | some (.parameter _ _ position) =>
    "parameter " ++ toString position.toNat ++ " " ++ a.display
  | _ => a.display

def DeclRef.indent {ν : Type} : DeclRef ν → Nat
  | type _ => 2
  | _ => 4

/-- The line says which declaration of the class it begins. -/
inductive ClassDecl.Titles (c : ClassDecl String) : DeclRef String → String → Prop
  | type (words parameters : String) : Titles c c.ref (words ++ " " ++ c.name ++ parameters)
  | field (f : FieldDecl String) (words : String) :
    Titles c (c.fieldRef f) ("  field " ++ words ++ f.ty.display ++ " " ++ f.name)
  | component (k : ComponentDecl String) :
    Titles c (c.componentRef k) ("  component " ++ k.ty.display ++ " " ++ k.name)
  | method {m : MethodDecl String} {index : Nat} (hm : c.methods[index]? = some m)
    (words parameters exceptions : String) :
    Titles c (c.methodRef index) ("  method " ++ words ++ m.returnType.display ++ " " ++ m.name
      ++ "(" ++ parameters ++ ")" ++ exceptions)

namespace Listing

variable {c : ClassDecl String}

theorem Entry.StandsIn.text_eq {d : DeclRef String} {e : Entry} (h : e.StandsIn d) :
    e.text = e.use.shown := by
  obtain ⟨t, htarget, _, hplace⟩ := h
  rw [Entry.text, AnnotationUse.shown, hplace, htarget]
  cases t <;> rfl

theorem indented_append (n : Nat) (line more : String) :
    indented n (line ++ more) = indented n line ++ more := String.append_assoc.symm

theorem exists_title {s : Section} (hs : s ∈ sections c) :
    ∃ title more, s.heading = title :: more ∧ c.Titles s.subject title := by
  rcases List.mem_cons.1 hs with rfl | hmember
  · exact ⟨_, _, rfl, .type _ _⟩
  rcases List.mem_append.1 hmember with hvariable | hmethod
  · rcases List.mem_append.1 hvariable with hfield | hcomponent
    · obtain ⟨f, _, rfl⟩ := List.mem_map.1 hfield
      refine ⟨_, [], rfl, ?_⟩
      simp only [fieldLine, indented_append]
      exact .field f _
    · obtain ⟨k, _, rfl⟩ := List.mem_map.1 hcomponent
      refine ⟨_, [], rfl, ?_⟩
      simp only [componentLine, indented_append]
      exact .component k
  · obtain ⟨⟨m, index⟩, hm, rfl⟩ := List.mem_map.1 hmethod
    refine ⟨_, _, rfl, ?_⟩
    have htitle := ClassDecl.Titles.method (List.mk_mem_zipIdx_iff_getElem?.1 hm)
      (modifiers methodWords m.flags
        ++ if m.typeParameters.isEmpty then "" else Ty.displayArguments m.typeParameters ++ " ")
    simp only [methodLine, indented_append]
    simp only [← String.append_assoc] at htitle
    exact htitle _ _

theorem indent_of_mem {s : Section} (hs : s ∈ sections c) : s.indent = s.subject.indent := by
  rcases List.mem_cons.1 hs with rfl | hmember
  · rfl
  rcases List.mem_append.1 hmember with hvariable | hmethod
  · rcases List.mem_append.1 hvariable with hfield | hcomponent
    · obtain ⟨f, _, rfl⟩ := List.mem_map.1 hfield
      rfl
    · obtain ⟨k, _, rfl⟩ := List.mem_map.1 hcomponent
      rfl
  · obtain ⟨⟨m, index⟩, _, rfl⟩ := List.mem_map.1 hmethod
    rfl

theorem lines_of_mem (h : c.methods.length ≤ UInt32.size) {s : Section} (hs : s ∈ sections c) :
    s.lines = s.heading ++ (c.listed s.subject).map fun a => indented s.subject.indent a.shown := by
  have hentries : s.entries.map (fun e => indented s.indent e.text)
      = (s.entries.map (·.use)).map fun a => indented s.subject.indent a.shown := by
    rw [List.map_map]
    refine List.map_congr_left fun e he => ?_
    rw [(standsIn_sections s hs e he).text_eq, indent_of_mem hs]
    rfl
  rw [Section.lines, hentries, showsGroups_sections h s hs]

/-- Every target belongs to exactly one declaration. A listing goes through the declarations of
the class and under each through its parts, and prints there a line for every annotation on this
part, in their order. So each annotation is printed once, and in its place. -/
theorem listing_shows_each_once :
    (∀ t : Target String, t.BelongsTo t.belongsTo ∧ ∀ d, t.BelongsTo d → d = t.belongsTo)
      ∧ (∀ a : AnnotationUse String, a.display = "@" ++ a.name ++ Value.membersText a.members
        ++ if a.visible then "" else " (invisible)")
      ∧ ∀ c : ClassDecl String, c.Listable →
        ofClass c = String.join ((sections c).flatMap fun s => s.heading.map (· ++ "\n")
            ++ (c.listed s.subject).map fun a =>
              String.ofList (List.replicate s.subject.indent ' ') ++ a.shown ++ "\n")
          ∧ ((sections c).map (·.subject) = c.declarations
            ∧ ∀ s ∈ sections c, ∃ title more, s.heading = title :: more ∧ c.Titles s.subject title)
          ∧ (∀ s ∈ sections c, s.ShowsGroups c ∧ ∀ e ∈ s.entries, e.StandsIn s.subject)
          ∧ (∀ d, ∀ a ∈ c.listed d, ∃ t, a.target = some t ∧ t.BelongsTo d)
          ∧ (((sections c).flatMap (·.entries)).map (·.use)).Perm c.annotations
          ∧ (c.declarations.flatMap c.listed).Perm c.annotations := by
  refine ⟨fun t => ⟨Target.belongsTo_iff.2 rfl, fun d h => (Target.belongsTo_iff.1 h).symm⟩,
    fun a => ?_, fun c h => ⟨?_, ⟨subjects_sections c, fun s hs => exists_title hs⟩,
      fun s hs => ⟨showsGroups_sections h.methods s hs, standsIn_sections s hs⟩,
      fun d a ha => exists_belongsTo_of_listed ha, uses_sections_perm h, h.groups_perm⟩⟩
  · rw [← Value.displayMembers_eq]
    rfl
  · rw [ofClass, joinLines, List.map_flatMap]
    refine congrArg String.join (List.flatMap_congr fun s hs => ?_)
    rw [lines_of_mem h.methods hs, List.map_append, List.map_map]
    rfl

def annotatedRecord : ClassDecl String where
  __ := ClassDecl.bare "R" ⟨0⟩
  fields := [⟨"f", ⟨0⟩, .primitive .int⟩, ⟨"g", ⟨0⟩, .primitive .int⟩]
  components := [⟨"f", .primitive .int⟩]
  methods := [⟨"m", ⟨0⟩, [], [], .void, [], [], none⟩,
    ⟨"m", ⟨0⟩, [], [.named "S", .named "S"], .named "S", [], [], none⟩]
  annotations := [
    ⟨"A", true, some (.parameter "R" 1 1), []⟩,
    ⟨"B", true, some (.typeUse ⟨.method "R" 1, .returnType, [], .named "S"⟩), []⟩,
    ⟨"C", true, some (.declaration (.type "R")), []⟩,
    ⟨"D", true, some (.declaration (.field "R" "f")), []⟩,
    ⟨"E", true, some (.parameter "R" 1 0), []⟩,
    ⟨"F", true, some (.declaration (.component "R" "f")), [("value", .int 1)]⟩,
    ⟨"G", false, some (.declaration (.field "R" "f")), [("n", .int 1), ("m", .int 2)]⟩]

theorem listing_shows_each_once_annotatedRecord :
    annotatedRecord.Listable
      ∧ ofClass annotatedRecord = String.join (["class R", "  @C", "  field int f", "    @D",
          "    @G(n = 1, m = 2) (invisible)", "  field int g", "  component int f", "    @F(1)",
          "  method void m()", "  method S m(S, S)", "    @B on return type: S",
          "    parameter 0 @E", "    parameter 1 @A"].map (· ++ "\n"))
      ∧ (annotatedRecord.declarations.flatMap annotatedRecord.listed).Perm
        annotatedRecord.annotations := by
  have hlistable : annotatedRecord.Listable := by
    refine ⟨by decide, by decide, by decide, ?_⟩
    simp only [annotatedRecord, List.forall_mem_cons, List.not_mem_nil, Option.some.injEq,
      exists_eq_left', ClassDecl.Holds]
    exact ⟨⟨rfl, _, rfl, by decide⟩, by decide, by decide, by decide, ⟨rfl, _, rfl, by decide⟩,
      by decide, by decide, nofun⟩
  obtain ⟨htext, -, -, -, -, hperm⟩ := listing_shows_each_once.2.2 _ hlistable
  exact ⟨hlistable, by rw [htext]; decide +kernel, hperm⟩

end Listing

end ClassCatalog
