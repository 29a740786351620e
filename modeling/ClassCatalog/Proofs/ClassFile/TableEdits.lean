import Mathlib.Logic.Relation
import ClassCatalog.Proofs.ClassFile.Division

/-! Edits of attribute tables. An entry that nobody asks for, or whose place a later one takes, may
come and go, and entries of different names may change places: the last body of each name that is
asked for stays the same. -/

namespace ClassCatalog.ClassFile

open PoolEntry (Spells pool)

def recognizedNames : List String :=
  ["Signature", "InnerClasses", "EnclosingMethod", "Record", "Exceptions", "MethodParameters",
    "AnnotationDefault", "RuntimeVisibleAnnotations", "RuntimeInvisibleAnnotations",
    "RuntimeVisibleTypeAnnotations", "RuntimeInvisibleTypeAnnotations",
    "RuntimeVisibleParameterAnnotations", "RuntimeInvisibleParameterAnnotations"]

variable {entries : List PoolEntry}

theorem PoolEntry.spells_iff {index : Nat} {text : String} :
    Spells entries index text ↔ (pool entries).utf8 index = .ok text :=
  ⟨Spells.utf8, spells_of_utf8⟩

instance (index : Nat) (text : String) : Decidable (Spells entries index text) :=
  decidable_of_iff (((pool entries).utf8 index).toOption = some text) <| by
    rw [PoolEntry.spells_iff]
    cases (pool entries).utf8 index <;> simp [Except.toOption]

namespace AttributeEntry

/-- The entry stands in front of `back` without a say. No earlier entry of a name counts, but those
of signatures are looked up as well. -/
def Idle (entries : List PoolEntry) (back : List AttributeEntry) (a : AttributeEntry) : Prop :=
  ∃ name, Spells entries a.name.toNat name ∧ (name ∉ recognizedNames
    ∨ name ≠ "Signature" ∧ ∃ b ∈ back, Spells entries b.name.toNat name)

def DifferentNames (entries : List PoolEntry) (a b : AttributeEntry) : Prop :=
  ∀ name, Spells entries a.name.toNat name → ¬ Spells entries b.name.toNat name

/-- One edit of a table. -/
inductive Edited (entries : List PoolEntry) : List AttributeEntry → List AttributeEntry → Prop where
  | insert {front back : List AttributeEntry} {a : AttributeEntry} (h : a.Idle entries back) :
      Edited entries (front ++ back) (front ++ a :: back)
  | remove {front back : List AttributeEntry} {a : AttributeEntry} (h : a.Idle entries back) :
      Edited entries (front ++ a :: back) (front ++ back)
  | permute {front middle middle' back : List AttributeEntry} (h : middle.Perm middle')
      (hnames : middle.Pairwise (DifferentNames entries)) :
      Edited entries (front ++ (middle ++ back)) (front ++ (middle' ++ back))

def named (entries : List PoolEntry) (name : String) (table : List AttributeEntry) :
    List AttributeEntry :=
  table.filter fun a => Spells entries a.name.toNat name

section Named

variable {name : String} {table front back middle middle' : List AttributeEntry}
  {a : AttributeEntry} {body : List UInt8}

theorem named_append : named entries name (front ++ back)
    = named entries name front ++ named entries name back := List.filter_append ..

theorem named_cons_of_spells (h : Spells entries a.name.toNat name) :
    named entries name (a :: back) = a :: named entries name back := by
  rw [named, List.filter_cons_of_pos (by simpa using h), named]

theorem named_cons_of_not_spells (h : ¬ Spells entries a.name.toNat name) :
    named entries name (a :: back) = named entries name back := by
  rw [named, List.filter_cons_of_neg (by simpa using h), named]

theorem named_ne_nil_iff : named entries name table ≠ []
    ↔ ∃ a ∈ table, Spells entries a.name.toNat name := by
  simp [named]

theorem isLast_iff : IsLast entries table name body
    ↔ ∃ a, (named entries name table).getLast? = some a ∧ a.body = body := by
  induction table using List.reverseRecOn with
  | nil => simp [IsLast, named]
  | append_singleton table b ih =>
    rw [named_append]
    by_cases hb : Spells entries b.name.toNat name
    · rw [isLast_concat_of_spells hb, named_cons_of_spells hb]
      simp [named]
    · rw [isLast_concat_of_not_spells hb, named_cons_of_not_spells hb, ih]
      simp [named]

theorem getLast?_named_append (front : List AttributeEntry)
    (h : ∃ b ∈ back, Spells entries b.name.toNat name) :
    (named entries name (front ++ back)).getLast? = (named entries name back).getLast? := by
  rw [named_append, List.getLast?_append_of_ne_nil _ (named_ne_nil_iff.2 h)]

theorem getLast?_named_of_no_later (ha : Spells entries a.name.toNat name)
    (h : ¬ ∃ b ∈ back, Spells entries b.name.toNat name) :
    (named entries name (front ++ a :: back)).getLast? = some a := by
  have hnil : named entries name back = [] := by
    by_contra hne
    exact h (named_ne_nil_iff.1 hne)
  rw [named_append, named_cons_of_spells ha, hnil, List.getLast?_concat]

/-- Of two entries of one name in the same place, either both are the last ones or neither is. -/
theorem isLast_in_place {a' : AttributeEntry} (ha : Spells entries a.name.toNat name)
    (ha' : Spells entries a'.name.toNat name) :
    (∀ body, IsLast entries (front ++ a :: back) name body
        ↔ IsLast entries (front ++ a' :: back) name body)
      ∨ (∀ body, IsLast entries (front ++ a :: back) name body ↔ a.body = body)
        ∧ ∀ body, IsLast entries (front ++ a' :: back) name body ↔ a'.body = body := by
  by_cases hback : ∃ b ∈ back, Spells entries b.name.toNat name
  · left
    intro body
    have hlast := getLast?_named_append (front ++ [a]) hback
    have hlast' := getLast?_named_append (front ++ [a']) hback
    rw [List.append_assoc, List.singleton_append] at hlast hlast'
    rw [isLast_iff, isLast_iff, hlast, hlast']
  · right
    constructor
    · intro body
      rw [isLast_iff, getLast?_named_of_no_later ha hback]
      simp
    · intro body
      rw [isLast_iff, getLast?_named_of_no_later ha' hback]
      simp

theorem named_of_perm (h : middle.Perm middle')
    (hnames : middle.Pairwise (DifferentNames entries)) (name : String) :
    named entries name middle = named entries name middle' := by
  have hperm : (named entries name middle).Perm (named entries name middle') := h.filter _
  have hpairwise : (named entries name middle).Pairwise (DifferentNames entries) :=
    hnames.filter _
  have hspells : ∀ a ∈ named entries name middle, Spells entries a.name.toNat name :=
    fun a ha => of_decide_eq_true (List.mem_filter.1 ha).2
  rcases hone : named entries name middle with _ | ⟨a, _ | ⟨b, rest⟩⟩
  · rw [hone] at hperm
    exact hperm.nil_eq
  · rw [hone] at hperm
    exact (List.perm_singleton.1 hperm.symm).symm
  · rw [hone] at hpairwise hspells
    have hdifferent : DifferentNames entries a b := List.rel_of_pairwise_cons hpairwise (by simp)
    have ha : Spells entries a.name.toNat name := hspells a (by simp)
    have hb : Spells entries b.name.toNat name := hspells b (by simp)
    exact absurd hb (hdifferent name ha)

end Named

theorem Idle.getLast?_named {front back : List AttributeEntry} {a : AttributeEntry}
    (h : a.Idle entries back) {name : String} (hname : name ∈ recognizedNames) :
    (named entries name (front ++ a :: back)).getLast?
      = (named entries name (front ++ back)).getLast? := by
  obtain ⟨own, hown, hidle⟩ := h
  by_cases ha : Spells entries a.name.toNat name
  · obtain rfl := hown.unique ha
    obtain ⟨_, hback⟩ := hidle.resolve_left fun hnot => hnot hname
    have hlast := getLast?_named_append (front ++ [a]) hback
    rw [List.append_assoc, List.singleton_append] at hlast
    rw [hlast, getLast?_named_append front hback]
  · rw [named_append, named_cons_of_not_spells ha, named_append]

theorem Idle.refers {back : List AttributeEntry} {a : AttributeEntry} (h : a.Idle entries back) :
    a.Refers entries := by
  obtain ⟨name, hname, hidle⟩ := h
  refine ⟨name, hname, fun hsignature => ?_⟩
  subst hsignature
  rcases hidle with hnot | ⟨hne, _⟩
  · exact absurd (by decide) hnot
  · exact absurd rfl hne

/-- What one edit, and so any number of them, leaves as it is. -/
structure Keeps (entries : List PoolEntry) (table table' : List AttributeEntry) : Prop where
  refers : (∀ a ∈ table, a.Refers entries) → ∀ a ∈ table', a.Refers entries
  isLast : ∀ name ∈ recognizedNames, ∀ body,
    IsLast entries table name body ↔ IsLast entries table' name body

theorem Edited.keeps {table table' : List AttributeEntry} (h : Edited entries table table') :
    Keeps entries table table' := by
  cases h with
  | insert h =>
    constructor
    · intro hall a ha
      simp only [List.mem_append, List.mem_cons] at ha
      rcases ha with hfront | rfl | hback
      · exact hall a (List.mem_append_left _ hfront)
      · exact h.refers
      · exact hall a (List.mem_append_right _ hback)
    · intro name hname body
      rw [isLast_iff, isLast_iff, h.getLast?_named hname]
  | remove h =>
    constructor
    · intro hall a ha
      apply hall
      simp only [List.mem_append, List.mem_cons] at ha ⊢
      exact ha.imp_right .inr
    · intro name hname body
      rw [isLast_iff, isLast_iff, h.getLast?_named hname]
  | permute h hnames =>
    constructor
    · intro hall a ha
      apply hall
      simpa only [List.mem_append, h.mem_iff] using ha
    · intro name hname body
      rw [isLast_iff, isLast_iff]
      simp only [named_append, named_of_perm h hnames name]

theorem keeps_of_edits {table table' : List AttributeEntry}
    (h : Relation.ReflTransGen (Edited entries) table table') : Keeps entries table table' := by
  induction h with
  | refl => exact ⟨id, fun _ _ _ => Iff.rfl⟩
  | tail _ hstep ih =>
    have hkeeps := hstep.keeps
    exact ⟨hkeeps.refers ∘ ih.refers,
      fun name hname body => (ih.isLast name hname body).trans (hkeeps.isLast name hname body)⟩

theorem edits_replace {front back : List AttributeEntry} {a a' : AttributeEntry}
    (h : a.Idle entries back) (h' : a'.Idle entries back) :
    Relation.ReflTransGen (Edited entries) (front ++ a :: back) (front ++ a' :: back) :=
  .tail (.single (.remove h)) (.insert h')

end AttributeEntry

structure MemberEntry.Edited (entries : List PoolEntry) (m m' : MemberEntry) : Prop where
  flags : m'.flags = m.flags
  name : m'.name = m.name
  descriptor : m'.descriptor = m.descriptor
  attributes : Relation.ReflTransGen (AttributeEntry.Edited entries) m.attributes m'.attributes

theorem MemberEntry.Edited.refers {m m' : MemberEntry} (h : m.Edited entries m')
    (hm : m.Refers entries) : m'.Refers entries := by
  refine ⟨?_, ?_, (AttributeEntry.keeps_of_edits h.attributes).refers hm.attributes⟩
  · rw [h.name]
    exact hm.name
  · rw [h.descriptor]
    exact hm.descriptor

structure ComponentEntry where
  name : UInt16
  descriptor : UInt16
  attributes : List AttributeEntry
  fits : attributes.length < UInt16.size := by decide

namespace ComponentEntry

def bytes (k : ComponentEntry) : List UInt8 :=
  wordBytes k.name ++ (wordBytes k.descriptor ++ countedBytes AttributeEntry.bytes k.attributes)

structure Refers (entries : List PoolEntry) (k : ComponentEntry) : Prop where
  name : ∃ text, Spells entries k.name.toNat text
  descriptor : ∃ text, Spells entries k.descriptor.toNat text
  attributes : ∀ a ∈ k.attributes, a.Refers entries

structure Edited (entries : List PoolEntry) (k k' : ComponentEntry) : Prop where
  name : k'.name = k.name
  descriptor : k'.descriptor = k.descriptor
  attributes : Relation.ReflTransGen (AttributeEntry.Edited entries) k.attributes k'.attributes

theorem Edited.refers {k k' : ComponentEntry} (h : k.Edited entries k') (hk : k.Refers entries) :
    k'.Refers entries := by
  refine ⟨?_, ?_, (AttributeEntry.keeps_of_edits h.attributes).refers hk.attributes⟩
  · rw [h.name]
    exact hk.name
  · rw [h.descriptor]
    exact hk.descriptor

theorem delimits_bytes : Delimits bytes := by
  rintro ⟨name, descriptor, table, fits⟩ ⟨name', descriptor', table', fits'⟩ r s h
  simp only [bytes, List.append_assoc] at h
  obtain ⟨rfl, hdescriptor⟩ := delimits_wordBytes _ _ _ _ h
  obtain ⟨rfl, htable⟩ := delimits_wordBytes _ _ _ _ hdescriptor
  obtain ⟨rfl, hrest⟩ := AttributeEntry.delimits_bytes.counted fits fits' htable
  exact ⟨rfl, hrest⟩

open Reader

theorem consumes_read : (ComponentLayout.read (pool entries)).Consumes fun front _ =>
    ∃ k : ComponentEntry, front = k.bytes ∧ k.Refers entries := by
  refine consumes_u2.bind ?_
  rintro _ _ ⟨name, rfl, rfl⟩
  refine .lift_bind fun text htext => consumes_u2.bind ?_
  rintro _ _ ⟨descriptor, rfl, rfl⟩
  refine .lift_bind fun descriptorText hdescriptor => AttributeEntry.consumes_table.bind ?_
  rintro _ _ ⟨table, rfl, hfits, htable⟩
  refine .pure ⟨⟨name, descriptor, table, hfits⟩, by rw [List.append_nil, bytes], ?_⟩
  exact ⟨⟨text, PoolEntry.spells_of_utf8 htext⟩,
    ⟨descriptorText, PoolEntry.spells_of_utf8 hdescriptor⟩, htable⟩

structure Recovered (entries : List PoolEntry) (k : ComponentEntry) (l : ComponentLayout) :
    Prop where
  name : Spells entries k.name.toNat l.name
  descriptor : Spells entries k.descriptor.toNat l.descriptor
  attributes : AttributeEntry.Recovered entries k.attributes l.attributes

theorem takes_read {k : ComponentEntry} (h : k.Refers entries) :
    ∃ l, (ComponentLayout.read (pool entries)).Takes k.bytes l ∧ k.Recovered entries l := by
  obtain ⟨name, hname⟩ := h.name
  obtain ⟨descriptor, hdescriptor⟩ := h.descriptor
  obtain ⟨attributes, htakes, hattributes⟩ := AttributeEntry.takes_table k.fits h.attributes
  refine ⟨⟨name, descriptor, attributes⟩, ?_, ⟨hname, hdescriptor, hattributes⟩⟩
  refine (takes_u2 k.name).bind (.lift_bind hname.utf8 ?_)
  refine (takes_u2 k.descriptor).bind (.lift_bind hdescriptor.utf8 ?_)
  exact htakes.bind_last (takes_pure _)

end ComponentEntry

inductive ClassTableEdited (entries : List PoolEntry) :
    List AttributeEntry → List AttributeEntry → Prop where
  | table {table table' : List AttributeEntry} (h : AttributeEntry.Edited entries table table') :
      ClassTableEdited entries table table'
  | record {front back : List AttributeEntry} {a a' : AttributeEntry}
      {components components' : List ComponentEntry}
      (hname : Spells entries a.name.toNat "Record") (hname' : a'.name = a.name)
      (hfits : components.length < UInt16.size)
      (hbody : a.body = countedBytes ComponentEntry.bytes components)
      (hbody' : a'.body = countedBytes ComponentEntry.bytes components')
      (h : List.Forall₂ (ComponentEntry.Edited entries) components components') :
      ClassTableEdited entries (front ++ a :: back) (front ++ a' :: back)

structure Container.Edited (file file' : Container) : Prop where
  minor : file'.minor = file.minor
  major : file'.major = file.major
  entries : file'.entries = file.entries
  flags : file'.flags = file.flags
  name : file'.name = file.name
  superName : file'.superName = file.superName
  interfaces : file'.interfaces = file.interfaces
  fields : List.Forall₂ (MemberEntry.Edited file.entries) file.fields file'.fields
  methods : List.Forall₂ (MemberEntry.Edited file.entries) file.methods file'.methods
  attributes : Relation.ReflTransGen (ClassTableEdited file.entries) file.attributes
    file'.attributes

end ClassCatalog.ClassFile
