import ClassCatalog.Proofs.ClassFile.Division

/-! The nesting of a decoded class is consistent. The entries of the table of inner classes are
taken in one after another, and later ones may replace or keep what earlier ones said; the
enclosing method then fills what is missing. -/

namespace ClassCatalog

/-- The parts that a nesting of each kind has, and those that it has not. -/
structure Nesting.Consistent (n : Nesting String) : Prop where
  topLevel : n.kind = .topLevel →
    n.enclosingClass = none ∧ n.simpleName = none ∧ n.enclosingMethod = none
  memberClass : n.kind = .memberClass → n.enclosingClass.isSome
  localClass : n.kind = .localClass → n.simpleName.isSome
  anonymousClass : n.kind = .anonymousClass → n.simpleName = none
  enclosingMethod : n.enclosingMethod.isSome → n.enclosingClass.isSome

namespace ClassFile

open PoolEntry (Spells NamesClass pool)
open Reader

theorem Nesting.consistent_topLevel : (Nesting.topLevel : Nesting String).Consistent :=
  ⟨fun _ => ⟨rfl, rfl, rfl⟩, nofun, nofun, nofun, nofun⟩

namespace NestingState

variable {s : NestingState}

theorem kind_describe_ne (outer simpleName : Option String) (flags : AccessFlags) :
    (s.describe outer simpleName flags).nesting.kind ≠ .topLevel := by
  cases outer <;> cases simpleName <;> nofun

theorem flags_describe (outer simpleName : Option String) (flags : AccessFlags) :
    (s.describe outer simpleName flags).flags = flags := by
  cases outer <;> cases simpleName <;> rfl

/-- An entry decides the kind and the simple name together. The enclosing class of an earlier one
stays, so that an enclosing method never loses its class. -/
theorem consistent_describe (h : s.nesting.Consistent) (outer simpleName : Option String)
    (flags : AccessFlags) : (s.describe outer simpleName flags).nesting.Consistent := by
  cases outer with
  | some outer => exact ⟨nofun, fun _ => rfl, nofun, nofun, fun _ => rfl⟩
  | none =>
    cases simpleName with
    | some simpleName => exact ⟨nofun, nofun, fun _ => rfl, nofun, h.enclosingMethod⟩
    | none => exact ⟨nofun, nofun, nofun, fun _ => rfl, h.enclosingMethod⟩

theorem kind_enclose_ne (owner : String) (method : Option (String × String)) :
    (s.enclose owner method).nesting.kind ≠ .topLevel := by
  simp only [enclose]
  split
  · split <;> nofun
  · assumption

theorem consistent_enclose (h : s.nesting.Consistent) (owner : String)
    (method : Option (String × String)) : (s.enclose owner method).nesting.Consistent := by
  refine ⟨fun hkind => absurd hkind (kind_enclose_ne owner method), fun _ => rfl, ?_, ?_,
    fun _ => rfl⟩
  · intro hkind
    simp only [enclose] at hkind ⊢
    split at hkind
    · split at hkind
      · assumption
      · cases hkind
    · exact h.localClass hkind
  · intro hkind
    simp only [enclose] at hkind ⊢
    split at hkind
    · next htop => exact (h.topLevel htop).2.1
    · exact h.anonymousClass hkind

end NestingState

structure InnerClassEntry where
  inner : UInt16
  outer : UInt16
  simpleName : UInt16
  flags : UInt16

namespace InnerClassEntry

def bytes (e : InnerClassEntry) : List UInt8 :=
  wordBytes e.inner ++ (wordBytes e.outer ++ (wordBytes e.simpleName ++ wordBytes e.flags))

theorem delimits_bytes : Delimits bytes := by
  rintro ⟨inner, outer, simpleName, flags⟩ ⟨inner', outer', simpleName', flags'⟩ r s h
  simp only [bytes, List.append_assoc] at h
  obtain ⟨rfl, houter⟩ := delimits_wordBytes _ _ _ _ h
  obtain ⟨rfl, hsimple⟩ := delimits_wordBytes _ _ _ _ houter
  obtain ⟨rfl, hflags⟩ := delimits_wordBytes _ _ _ _ hsimple
  obtain ⟨rfl, hrest⟩ := delimits_wordBytes _ _ _ _ hflags
  exact ⟨rfl, hrest⟩

def Describes (file : Container) (e : InnerClassEntry) : Prop :=
  ∃ text, NamesClass file.entries file.name.toNat text ∧ NamesClass file.entries e.inner.toNat text

end InnerClassEntry

/-- `flags` are those of the last entry with the property `P`, or `given` if none has it. -/
def LastFlags (P : InnerClassEntry → Prop) (listed : List InnerClassEntry)
    (given flags : AccessFlags) : Prop :=
  (∃ front e back, listed = front ++ e :: back ∧ P e ∧ (∀ x ∈ back, ¬ P x) ∧ flags = ⟨e.flags⟩)
    ∨ (∀ e ∈ listed, ¬ P e) ∧ flags = given

namespace LastFlags

variable {P : InnerClassEntry → Prop} {e : InnerClassEntry} {listed : List InnerClassEntry}
  {given flags : AccessFlags}

theorem cons (h : LastFlags P listed ⟨e.flags⟩ flags) (he : P e) :
    LastFlags P (e :: listed) given flags := by
  rcases h with ⟨front, x, back, rfl, hx, hback, hflags⟩ | ⟨hnone, hflags⟩
  · exact .inl ⟨e :: front, x, back, rfl, hx, hback, hflags⟩
  · exact .inl ⟨[], e, listed, rfl, he, hnone, hflags⟩

theorem cons_not (h : LastFlags P listed given flags) (he : ¬ P e) :
    LastFlags P (e :: listed) given flags := by
  rcases h with ⟨front, x, back, rfl, hx, hback, hflags⟩ | ⟨hnone, hflags⟩
  · exact .inl ⟨e :: front, x, back, rfl, hx, hback, hflags⟩
  · exact .inr ⟨List.forall_mem_cons.2 ⟨he, hnone⟩, hflags⟩

end LastFlags

namespace NestingState

/-- What the entries `listed` make of the state `s`, where those with the property `P` are about
the class itself. -/
structure TakesIn (P : InnerClassEntry → Prop) (listed : List InnerClassEntry)
    (s s' : NestingState) : Prop where
  consistent : s.nesting.Consistent → s'.nesting.Consistent
  kind : s'.nesting.kind = .topLevel ↔ s.nesting.kind = .topLevel ∧ ∀ e ∈ listed, ¬ P e
  flags : LastFlags P listed s.flags s'.flags

theorem TakesIn.nil (P : InnerClassEntry → Prop) (s : NestingState) : TakesIn P [] s s :=
  ⟨id, by simp, .inr ⟨nofun, rfl⟩⟩

variable {entries : List PoolEntry} {name : String}

theorem consumes_readEntries (n : Nat) (s : NestingState) :
    (readEntries (pool entries) name n s).Consumes fun front s' =>
      ∃ listed : List InnerClassEntry, listed.length = n
        ∧ front = listed.flatMap InnerClassEntry.bytes
        ∧ TakesIn (fun e => NamesClass entries e.inner.toNat name) listed s s' := by
  induction n generalizing s with
  | zero => exact .pure ⟨[], rfl, rfl, .nil _ s⟩
  | succ n ih =>
    refine consumes_u2.bind ?_
    rintro _ _ ⟨inner, rfl, rfl⟩
    refine consumes_u2.bind ?_
    rintro _ _ ⟨outer, rfl, rfl⟩
    refine consumes_u2.bind ?_
    rintro _ _ ⟨simpleName, rfl, rfl⟩
    refine consumes_word.bind ?_
    rintro _ flags rfl
    refine .lift_bind fun found hfound => .ite (fun hown => ?_) fun hother => ?_
    · have hnames : NamesClass entries inner.toNat name :=
        hown ▸ PoolEntry.namesClass_of_className hfound
      refine .lift_bind fun simpleText _ => .lift_bind fun outerText _ => (ih _).mono ?_
      rintro _ s' ⟨listed, rfl, rfl, htakes⟩
      refine ⟨⟨inner, outer, simpleName, flags⟩ :: listed, rfl, ?_, ?_, ?_, ?_⟩
      · simp only [List.flatMap_cons, InnerClassEntry.bytes, List.append_assoc]
      · exact fun h => htakes.consistent (consistent_describe h _ _ _)
      · constructor
        · exact fun h => absurd (htakes.kind.1 h).1 (kind_describe_ne _ _ _)
        · exact fun h => absurd hnames (h.2 _ List.mem_cons_self)
      · have hflags := htakes.flags
        rw [flags_describe] at hflags
        exact hflags.cons (e := ⟨inner, outer, simpleName, flags⟩) hnames
    · have hnames : ¬ NamesClass entries inner.toNat name := fun h =>
        hother (Except.ok.inj (hfound.symm.trans h.className))
      refine (ih s).mono ?_
      rintro _ s' ⟨listed, rfl, rfl, htakes⟩
      refine ⟨⟨inner, outer, simpleName, flags⟩ :: listed, rfl, ?_, htakes.consistent, ?_, ?_⟩
      · simp only [List.flatMap_cons, InnerClassEntry.bytes, List.append_assoc]
      · rw [htakes.kind, List.forall_mem_cons]
        simp only [hnames, not_false_eq_true, true_and]
      · exact htakes.flags.cons_not (e := ⟨inner, outer, simpleName, flags⟩) hnames

theorem consumes_entries (s : NestingState) :
    (do readEntries (pool entries) name (← u2) s : Reader NestingState).Consumes fun front s' =>
      ∃ listed : List InnerClassEntry, listed.length < UInt16.size
        ∧ front = countedBytes InnerClassEntry.bytes listed
        ∧ TakesIn (fun e => NamesClass entries e.inner.toNat name) listed s s' := by
  refine (consumes_number 2).bind ?_
  rintro _ n ⟨rfl, hlt⟩
  refine (consumes_readEntries n s).mono ?_
  rintro _ s' ⟨listed, rfl, rfl, htakes⟩
  exact ⟨listed, hlt, rfl, htakes⟩

theorem yields_readEnclosing (pool : ConstantPool) (s : NestingState) :
    Yields (readEnclosing pool s) fun s' => ∃ owner method, s' = s.enclose owner method := by
  refine Yields.after fun _ => Yields.after fun owner => Yields.after fun method => ?_
  refine Yields.ite (fun _ => Yields.pure ⟨_, _, rfl⟩) fun _ => ?_
  exact Yields.after fun found => Yields.pure ⟨_, _, rfl⟩

end NestingState

theorem Reader.value_eq_ok {α : Type} {p : Reader α} {bytes : List UInt8} {a : α}
    (h : p.value bytes = .ok a) : ∃ d, p.run (.ofBytes bytes) = .ok (a, d) := by
  rw [Reader.value] at h
  cases hrun : p.run (.ofBytes bytes) with
  | error e =>
    rw [hrun] at h
    cases h
  | ok r =>
    rw [hrun] at h
    cases h
    exact ⟨r.2, rfl⟩

namespace Layout

def described (layout : Layout) : Except DecodeError NestingState :=
  match layout.attributes.body? "InnerClasses" with
  | none => .ok ⟨.topLevel, layout.flags⟩
  | some body =>
    Reader.value (do
      NestingState.readEntries layout.pool layout.name (← u2) ⟨.topLevel, layout.flags⟩) body

def enclosed (layout : Layout) (s : NestingState) : Except DecodeError NestingState :=
  match layout.attributes.body? "EnclosingMethod" with
  | none => .ok s
  | some body => (s.readEnclosing layout.pool).value body

theorem nesting_eq (layout : Layout) : layout.nesting = layout.described >>= layout.enclosed := by
  rw [nesting, described]
  cases layout.attributes.body? "InnerClasses" <;> rfl

end Layout

namespace Container

def ListsInner (file : Container) (listed : List InnerClassEntry) : Prop :=
  (∃ rest, AttributeEntry.IsLast file.entries file.attributes "InnerClasses"
      (countedBytes InnerClassEntry.bytes listed ++ rest) ∧ listed.length < UInt16.size)
    ∨ (∀ a ∈ file.attributes, ¬ Spells file.entries a.name.toNat "InnerClasses") ∧ listed = []

structure Nests (file : Container) (listed : List InnerClassEntry) (n : Nesting String)
    (flags : AccessFlags) : Prop where
  topLevel : n.kind = .topLevel ↔ (∀ e ∈ listed, ¬ e.Describes file)
    ∧ ∀ a ∈ file.attributes, ¬ Spells file.entries a.name.toNat "EnclosingMethod"
  consistent : n.Consistent
  flags : LastFlags (·.Describes file) listed ⟨file.flags⟩ flags

variable {file : Container} {layout : Layout}

theorem Recovered.listsInner_unique (h : file.Recovered layout)
    {listed listed' : List InnerClassEntry} (hl : file.ListsInner listed)
    (hl' : file.ListsInner listed') : listed' = listed := by
  have hnames : ("InnerClasses" : String) ≠ "Signature" := by decide
  rcases hl with ⟨rest, hlast, hfits⟩ | ⟨hnone, rfl⟩
  · rcases hl' with ⟨rest', hlast', hfits'⟩ | ⟨hnone', _⟩
    · have hbody := (h.attributes.body _ hnames _).2 hlast
      have hbody' := (h.attributes.body _ hnames _).2 hlast'
      have heq := Option.some.inj (hbody'.symm.trans hbody)
      exact (InnerClassEntry.delimits_bytes.counted hfits' hfits heq).1
    · obtain ⟨a, ha, hspells⟩ := hlast.exists_spells
      exact absurd hspells (hnone' a ha)
  · rcases hl' with ⟨rest', hlast', _⟩ | ⟨_, hnil⟩
    · obtain ⟨a, ha, hspells⟩ := hlast'.exists_spells
      exact absurd hspells (hnone a ha)
    · exact hnil

theorem Recovered.describes_iff (h : file.Recovered layout) (e : InnerClassEntry) :
    e.Describes file ↔ NamesClass file.entries e.inner.toNat layout.name := by
  constructor
  · rintro ⟨text, hclass, hinner⟩
    obtain rfl := hclass.unique h.name
    exact hinner
  · exact fun hinner => ⟨_, h.name, hinner⟩

theorem Recovered.gives_described (h : file.Recovered layout)
    (hpool : layout.pool = PoolEntry.pool file.entries) :
    Gives layout.described fun s => ∃ listed, file.ListsInner listed
      ∧ NestingState.TakesIn (·.Describes file) listed ⟨.topLevel, ⟨file.flags⟩⟩ s := by
  intro s hs
  have hname : ("InnerClasses" : String) ≠ "Signature" := by decide
  rw [Layout.described, h.flags] at hs
  cases hbody : layout.attributes.body? "InnerClasses" with
  | none =>
    rw [hbody] at hs
    cases hs
    have hnone := (h.attributes.body?_eq_none_iff hname).1 hbody
    exact ⟨[], .inr ⟨hnone, rfl⟩, .nil _ _⟩
  | some body =>
    rw [hbody] at hs
    obtain ⟨d, hrun⟩ := Reader.value_eq_ok hs
    rw [hpool] at hrun
    obtain ⟨_, hrest, listed, hfits, rfl, htakes⟩ := NestingState.consumes_entries _ _ _ _ hrun
    simp only [← h.describes_iff] at htakes
    have hlast := (h.attributes.body _ hname body).1 hbody
    exact ⟨listed, .inl ⟨d.rest, hrest ▸ hlast, hfits⟩, htakes⟩

theorem Recovered.gives_nesting (h : file.Recovered layout)
    (hpool : layout.pool = PoolEntry.pool file.entries) :
    Gives layout.nesting fun s =>
      ∃ listed, file.ListsInner listed ∧ file.Nests listed s.nesting s.flags := by
  intro s hs
  have hname : ("EnclosingMethod" : String) ≠ "Signature" := by decide
  rw [Layout.nesting_eq] at hs
  obtain ⟨described, hdescribed, hs⟩ := bind_eq_ok hs
  obtain ⟨listed, hlists, htakes⟩ := h.gives_described hpool described hdescribed
  have hconsistent := htakes.consistent Nesting.consistent_topLevel
  refine ⟨listed, hlists, ?_⟩
  rw [Layout.enclosed] at hs
  cases hbody : layout.attributes.body? "EnclosingMethod" with
  | none =>
    rw [hbody] at hs
    cases hs
    have hnone := (h.attributes.body?_eq_none_iff hname).1 hbody
    have hkind : s.nesting.kind = .topLevel ↔ ∀ e ∈ listed, ¬ e.Describes file :=
      htakes.kind.trans (and_iff_right rfl)
    exact ⟨hkind.trans (and_iff_left hnone).symm, hconsistent, htakes.flags⟩
  | some body =>
    rw [hbody] at hs
    obtain ⟨d, hrun⟩ := Reader.value_eq_ok hs
    obtain ⟨owner, method, rfl⟩ := NestingState.yields_readEnclosing _ _ _ _ _ hrun
    have hkind := NestingState.kind_enclose_ne (s := described) owner method
    obtain ⟨a, ha, hspells⟩ := ((h.attributes.body _ hname body).1 hbody).exists_spells
    have hthere : ¬ ∀ a ∈ file.attributes,
        ¬ Spells file.entries a.name.toNat "EnclosingMethod" := fun hnone => hnone a ha hspells
    exact ⟨iff_of_false hkind fun hnone => hthere hnone.2,
      NestingState.consistent_enclose hconsistent owner method, htakes.flags⟩

end Container

/-- The nesting of a class is consistent, whatever the entries of its table of inner classes and
with or without an enclosing method. -/
theorem nesting_of_decode {config : Config} {bytes : List UInt8} {c : ClassDecl String}
    (h : decode config bytes = .ok c) :
    ∃ (file : Container) (listed : List InnerClassEntry),
      file.bytes = bytes ∧ file.Refers ∧ file.ListsInner listed
        ∧ (∀ (file' : Container) (listed' : List InnerClassEntry),
          file'.bytes = bytes → file'.Refers → file'.ListsInner listed' →
            file' = file ∧ listed' = listed)
        ∧ file.Nests listed c.nesting c.flags := by
  obtain ⟨d, hdraft, hfinish⟩ := bind_eq_ok h
  obtain ⟨layout, hparse, hdraft⟩ := bind_eq_ok hdraft
  cases hfinish
  obtain ⟨file, ⟨hbytes, hrefers, hunique⟩, _, hpool, hrecovered⟩ := Container.of_parse hparse
  obtain ⟨hnesting, _⟩ := Layout.parts_of_draft hdraft
  obtain ⟨listed, hlists, hnests⟩ := hrecovered.gives_nesting hpool _ hnesting
  refine ⟨file, listed, hbytes, hrefers, hlists, fun file' listed' hbytes' hrefers' hlists' => ?_,
    hnests⟩
  obtain rfl := hunique file' hbytes' hrefers'
  exact ⟨rfl, hrecovered.listsInner_unique hlists hlists'⟩

/-- The file of a class `A`, listed twice: first as a member of `O` with a simple name, then without
both. Its enclosing method is somewhere in `P`. -/
def twiceListedFile : List UInt8 :=
  [0xCA, 0xFE, 0xBA, 0xBE, 0, 0, 0, 52, 0, 9] ++ utf8Bytes [65] ++ [7, 0, 1] ++ utf8Bytes [79]
    ++ [7, 0, 3] ++ utf8Bytes (ModifiedUtf8.encode "InnerClasses")
    ++ utf8Bytes (ModifiedUtf8.encode "EnclosingMethod") ++ utf8Bytes [80] ++ [7, 0, 7]
    ++ [0, 0x21, 0, 2, 0, 0, 0, 0, 0, 0, 0, 0, 0, 2]
    ++ [0, 5, 0, 0, 0, 18, 0, 2, 0, 2, 0, 4, 0, 1, 0, 2, 0, 2, 0, 0, 0, 0, 0, 8]
    ++ [0, 6, 0, 0, 0, 4, 0, 8, 0, 0]

/-- The second entry makes the class anonymous, but the enclosing class is that of the first. -/
theorem nesting_of_decode_twiceListed :
    ∃ c, decode .standard twiceListedFile = .ok c
      ∧ c.nesting = ⟨.anonymousClass, some "O", none, none⟩ ∧ c.flags = ⟨8⟩
      ∧ ∃ (file : Container) (listed : List InnerClassEntry),
        file.bytes = twiceListedFile ∧ file.Refers ∧ file.ListsInner listed
          ∧ (∀ (file' : Container) (listed' : List InnerClassEntry),
            file'.bytes = twiceListedFile → file'.Refers → file'.ListsInner listed' →
              file' = file ∧ listed' = listed)
          ∧ file.Nests listed c.nesting c.flags := by
  have hnesting : (decode .standard twiceListedFile).toOption.map
      (fun c => (c.nesting, c.flags)) = some (⟨.anonymousClass, some "O", none, none⟩, ⟨8⟩) := by
    decide +kernel
  obtain ⟨c, hc, heq⟩ := Option.map_eq_some_iff.1 hnesting
  have hdecode := eq_ok_of_toOption hc
  exact ⟨c, hdecode, (Prod.mk.inj heq).1, (Prod.mk.inj heq).2, nesting_of_decode hdecode⟩

end ClassFile

end ClassCatalog
