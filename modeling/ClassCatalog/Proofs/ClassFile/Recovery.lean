import Mathlib.Data.List.Induction
import ClassCatalog.Proofs.ClassFile.OwnTypes
import ClassCatalog.Proofs.ClassFile.PoolNumbers

/-! The parts of a class file come back from its bytes: the constants under their numbers, the
members in their order, and of each attribute table the last body of each name. -/

namespace ClassCatalog.ClassFile

open PoolEntry (At Spells NamesClass pool)
open Reader

variable {entries : List PoolEntry}

namespace AttributeEntry

section Last

variable {table : List AttributeEntry} {a : AttributeEntry} {name : String} {body : List UInt8}

theorem isLast_concat_of_spells (h : Spells entries a.name.toNat name) :
    IsLast entries (table ++ [a]) name body ↔ a.body = body := by
  constructor
  · rintro ⟨front, b, back, htable, _, hbody, hlast⟩
    -- Were another entry the last one, `a` would stand behind it with the same name.
    rcases List.eq_nil_or_concat back with rfl | ⟨back, c, rfl⟩
    · obtain ⟨_, hab⟩ := List.append_inj' htable rfl
      cases hab
      exact hbody
    · have hlasts : table ++ [a] = (front ++ b :: back) ++ [c] := by
        simpa using htable
      obtain ⟨_, hac⟩ := List.append_inj' hlasts rfl
      cases hac
      exact absurd h (hlast a (by simp))
  · rintro rfl
    exact ⟨table, a, [], rfl, h, rfl, by simp⟩

theorem isLast_concat_of_not_spells (h : ¬ Spells entries a.name.toNat name) :
    IsLast entries (table ++ [a]) name body ↔ IsLast entries table name body := by
  constructor
  · rintro ⟨front, b, back, htable, hname, hbody, hlast⟩
    rcases List.eq_nil_or_concat back with rfl | ⟨back, c, rfl⟩
    · obtain ⟨_, hab⟩ := List.append_inj' htable rfl
      cases hab
      exact absurd hname h
    · have hlasts : table ++ [a] = (front ++ b :: back) ++ [c] := by
        simpa using htable
      obtain ⟨hfront, _⟩ := List.append_inj' hlasts rfl
      exact ⟨front, b, back, hfront, hname, hbody, fun d hd => hlast d (by simp [hd])⟩
  · rintro ⟨front, b, back, rfl, hname, hbody, hlast⟩
    refine ⟨front, b, back ++ [a], by simp, hname, hbody, fun d hd => ?_⟩
    rcases List.mem_append.1 hd with hback | hone
    · exact hlast d hback
    · rwa [List.mem_singleton.1 hone]

theorem exists_isLast (ha : a ∈ table) (h : Spells entries a.name.toNat name) :
    ∃ body, IsLast entries table name body := by
  induction table using List.reverseRecOn with
  | nil => cases ha
  | append_singleton table b ih =>
    by_cases hb : Spells entries b.name.toNat name
    · exact ⟨b.body, (isLast_concat_of_spells hb).2 rfl⟩
    · rcases List.mem_append.1 ha with hfront | hone
      · obtain ⟨body, hlast⟩ := ih hfront
        exact ⟨body, (isLast_concat_of_not_spells hb).2 hlast⟩
      · rw [List.mem_singleton.1 hone] at h
        exact absurd h hb

theorem IsLast.exists_spells (h : IsLast entries table name body) :
    ∃ a ∈ table, Spells entries a.name.toNat name := by
  obtain ⟨front, a, back, rfl, hname, _⟩ := h
  exact ⟨a, by simp, hname⟩

end Last

/-- `attributes` holds the last body of each name in the table, and of the last signature its
text. -/
structure Recovered (entries : List PoolEntry) (table : List AttributeEntry)
    (attributes : Attributes) : Prop where
  signature : ∀ text, attributes.signature = some text
    ↔ ∃ body, IsLast entries table "Signature" body ∧ Spells entries (bigEndian body) text
  body : ∀ name, name ≠ "Signature" → ∀ body, attributes.body? name = some body
    ↔ IsLast entries table name body

theorem Recovered.body?_eq_none_iff {table : List AttributeEntry} {attributes : Attributes}
    (h : Recovered entries table attributes) {name : String} (hname : name ≠ "Signature") :
    attributes.body? name = none ↔ ∀ a ∈ table, ¬ Spells entries a.name.toNat name := by
  constructor
  · intro hnone a ha hspells
    obtain ⟨body, hlast⟩ := exists_isLast ha hspells
    rw [(h.body name hname body).2 hlast] at hnone
    cases hnone
  · intro hnone
    cases hbody : attributes.body? name with
    | none => rfl
    | some body =>
      obtain ⟨a, ha, hspells⟩ := ((h.body name hname body).1 hbody).exists_spells
      exact absurd hspells (hnone a ha)

theorem recovered_nil : Recovered entries [] ⟨none, []⟩ := by
  have hnone : ∀ name body, ¬ IsLast entries [] name body := by
    rintro name body ⟨front, a, back, hnil, _⟩
    simp at hnil
  refine ⟨fun text => ⟨nofun, ?_⟩, fun name _ body => ⟨nofun, fun h => absurd h (hnone _ _)⟩⟩
  rintro ⟨body, hlast, _⟩
  exact absurd hlast (hnone _ _)

theorem Recovered.add {table : List AttributeEntry} {attributes : Attributes}
    (h : Recovered entries table attributes) {a : AttributeEntry} (ha : a.Refers entries) :
    ∃ name next, Spells entries a.name.toNat name
      ∧ attributes.add (pool entries) name a.body = .ok next
      ∧ Recovered entries (table ++ [a]) next := by
  obtain ⟨name, hname, hsignature⟩ := ha
  have hother : ∀ other, other ≠ name → ¬ Spells entries a.name.toNat other :=
    fun other hne hspells => hne (hspells.unique hname)
  by_cases hsig : name = "Signature"
  · obtain ⟨hlength, text, htext⟩ := hsignature hsig
    subst hsig
    refine ⟨_, { attributes with signature := some text }, hname, ?_, ?_, ?_⟩
    · have hread : Attributes.signatureText (pool entries) a.body = .ok text := by
        rw [Attributes.signatureText, if_pos hlength, htext.utf8]
      rw [Attributes.add, if_pos rfl, hread]
      rfl
    · intro other
      constructor
      · intro heq
        obtain rfl : text = other := Option.some.inj heq
        exact ⟨a.body, (isLast_concat_of_spells hname).2 rfl, htext⟩
      · rintro ⟨body, hlast, hspells⟩
        obtain rfl : a.body = body := (isLast_concat_of_spells hname).1 hlast
        exact congrArg some (htext.unique hspells)
    · intro other hne body
      rw [isLast_concat_of_not_spells (hother other hne)]
      exact h.body other hne body
  · refine ⟨name, { attributes with bodies := (name, a.body) :: attributes.bodies }, hname,
      if_neg hsig, ?_, ?_⟩
    · intro text
      simp only [isLast_concat_of_not_spells (hother _ (Ne.symm hsig))]
      exact h.signature text
    · intro other hne body
      by_cases heq : other = name
      · subst heq
        rw [isLast_concat_of_spells hname]
        simp [Attributes.body?]
      · rw [isLast_concat_of_not_spells (hother other heq), ← h.body other hne body]
        simp [Attributes.body?, Ne.symm heq]

theorem takes_sized (a : AttributeEntry) :
    sized.Takes (bigEndianBytes 4 a.body.length ++ a.body) a.body :=
  (takes_number 4 a.fits).bind (takes_bytes a.body)

theorem takes_readMore {table rest : List AttributeEntry} {attributes : Attributes}
    (h : Recovered entries table attributes) (hrest : ∀ a ∈ rest, a.Refers entries) :
    ∃ all, (Attributes.readMore (pool entries) rest.length attributes).Takes
        (rest.flatMap bytes) all ∧ Recovered entries (table ++ rest) all := by
  induction rest generalizing table attributes with
  | nil => exact ⟨attributes, takes_pure _, by rwa [List.append_nil]⟩
  | cons a rest ih =>
    obtain ⟨name, next, hname, hadd, hnext⟩ := h.add (hrest a List.mem_cons_self)
    obtain ⟨all, htakes, hall⟩ := ih hnext fun b hb => hrest b (List.mem_cons_of_mem a hb)
    refine ⟨all, ?_, by rwa [List.append_assoc] at hall⟩
    rw [List.flatMap_cons, bytes, List.append_assoc]
    refine (takes_u2 a.name).bind (.lift_bind hname.utf8 ?_)
    exact a.takes_sized.bind (.lift_bind hadd htakes)

theorem takes_table {table : List AttributeEntry} (hfits : table.length < UInt16.size)
    (h : ∀ a ∈ table, a.Refers entries) :
    ∃ attributes, (Attributes.read (pool entries)).Takes (countedBytes bytes table) attributes
      ∧ Recovered entries table attributes := by
  obtain ⟨attributes, htakes, hall⟩ := takes_readMore recovered_nil h
  exact ⟨attributes, (takes_number 2 hfits).bind htakes, hall⟩

end AttributeEntry

theorem Reader.takes_counted {ι α : Type} {p : Reader α} {enc : ι → List UInt8}
    {R : ι → α → Prop} {xs : List ι} (hfits : xs.length < UInt16.size)
    (h : ∀ x ∈ xs, ∃ a, p.Takes (enc x) a ∧ R x a) :
    ∃ as, (counted p).Takes (countedBytes enc xs) as ∧ ReadFrom (fun _ => R) xs as := by
  suffices htimes : ∃ as, (times xs.length p).Takes (xs.flatMap enc) as
      ∧ ReadFrom (fun _ => R) xs as by
    obtain ⟨as, htakes, hfrom⟩ := htimes
    exact ⟨as, (takes_number 2 hfits).bind htakes, hfrom⟩
  clear hfits
  induction xs with
  | nil => exact ⟨[], takes_pure [], .nil⟩
  | cons x xs ih =>
    obtain ⟨a, ha, hR⟩ := h x List.mem_cons_self
    obtain ⟨as, has, hfrom⟩ := ih fun y hy => h y (List.mem_cons_of_mem x hy)
    exact ⟨a :: as, ha.bind (has.bind_last (takes_pure _)), .cons hR hfrom⟩

structure MemberEntry.Recovered (entries : List PoolEntry) (m : MemberEntry)
    (l : MemberLayout) : Prop where
  flags : l.flags = ⟨m.flags⟩
  name : Spells entries m.name.toNat l.name
  descriptor : Spells entries m.descriptor.toNat l.descriptor
  attributes : AttributeEntry.Recovered entries m.attributes l.attributes

theorem MemberEntry.takes_read {m : MemberEntry} (h : m.Refers entries) :
    ∃ l, (MemberLayout.read (pool entries)).Takes m.bytes l ∧ m.Recovered entries l := by
  obtain ⟨name, hname⟩ := h.name
  obtain ⟨descriptor, hdescriptor⟩ := h.descriptor
  obtain ⟨attributes, htakes, hattributes⟩ := AttributeEntry.takes_table m.fits h.attributes
  refine ⟨⟨⟨m.flags⟩, name, descriptor, attributes⟩, ?_, ⟨rfl, hname, hdescriptor, hattributes⟩⟩
  refine (takes_word m.flags).bind ?_
  refine (takes_u2 m.name).bind (.lift_bind hname.utf8 ?_)
  refine (takes_u2 m.descriptor).bind (.lift_bind hdescriptor.utf8 ?_)
  exact htakes.bind_last (takes_pure _)

theorem takes_className {index : UInt16} {text : String}
    (h : NamesClass entries index.toNat text) :
    (do (pool entries).className (← u2) : Reader String).Takes (wordBytes index) text :=
  (takes_u2 index).bind_last (by rw [h.className]; exact takes_pure text)

theorem PoolEntry.NamesClass.ne_zero {index : Nat} {text : String} (h : NamesClass entries index text) :
    index ≠ 0 := by
  obtain ⟨name, ⟨front, back, _, hindex⟩, _⟩ := h
  omega

theorem className?_of_refers {superName : Option UInt16}
    (h : ∀ index ∈ superName, ∃ text, NamesClass entries index.toNat text) :
    ∃ text, (pool entries).className? (superName.getD 0).toNat = .ok text
      ∧ Option.Rel (fun index => NamesClass entries index.toNat) superName text := by
  cases superName with
  | none => exact ⟨none, rfl, .none⟩
  | some index =>
    obtain ⟨text, htext⟩ := h index rfl
    refine ⟨some text, ?_, .some htext⟩
    rw [Option.getD_some, ConstantPool.className?, if_neg htext.ne_zero,
      htext.className]
    rfl

namespace Container

/-- `layout` has the parts of the file, all of them and in their order. -/
structure Recovered (file : Container) (layout : Layout) : Prop where
  pool : ∀ index c, layout.pool.get index = .ok c ↔ ∃ e, At file.entries index e ∧ e.constant = c
  flags : layout.flags = ⟨file.flags⟩
  name : NamesClass file.entries file.name.toNat layout.name
  superName : Option.Rel (fun index => NamesClass file.entries index.toNat) file.superName
    layout.superName
  interfaces : ReadFrom (fun _ index => NamesClass file.entries index.toNat) file.interfaces
    layout.interfaces
  fields : ReadFrom (fun _ => MemberEntry.Recovered file.entries) file.fields layout.fields
  methods : ReadFrom (fun _ => MemberEntry.Recovered file.entries) file.methods layout.methods
  attributes : AttributeEntry.Recovered file.entries file.attributes layout.attributes

variable {config : Config} {file : Container}

theorem takes_readHeader (h : config.acceptsMajor file.major.toNat) :
    (Layout.readHeader config).Takes file.headerBytes () := by
  have hmagic : u4.Takes [0xCA, 0xFE, 0xBA, 0xBE] Layout.magic :=
    takes_number 4 (n := Layout.magic) (by decide)
  refine hmagic.bind ?_
  rw [if_pos rfl]
  refine (takes_u2 file.minor).bind ((takes_u2 file.major).bind_last ?_)
  rw [if_pos h]
  exact takes_pure ()

theorem takes_read (hversion : config.acceptsMajor file.major.toNat) (h : file.Refers) :
    ∃ layout, (Layout.read config).Takes file.bytes layout ∧ file.Recovered layout := by
  obtain ⟨name, hname⟩ := h.name
  obtain ⟨superName, hsuper, hrel⟩ := className?_of_refers h.superName
  obtain ⟨interfaces, hinterfaces, hinterfacesFrom⟩ := takes_counted file.interfaces_fit
    (R := fun index => NamesClass file.entries index.toNat) fun index hindex => by
      obtain ⟨text, htext⟩ := h.interfaces index hindex
      exact ⟨text, takes_className htext, htext⟩
  obtain ⟨fields, hfields, hfieldsFrom⟩ := takes_counted file.fields_fit fun m hm =>
    MemberEntry.takes_read (h.fields m hm)
  obtain ⟨methods, hmethods, hmethodsFrom⟩ := takes_counted file.methods_fit fun m hm =>
    MemberEntry.takes_read (h.methods m hm)
  obtain ⟨attributes, hattributes, htable⟩ :=
    AttributeEntry.takes_table file.attributes_fit h.attributes
  refine ⟨⟨PoolEntry.pool file.entries, ⟨file.flags⟩, name, superName, interfaces, fields, methods,
    attributes⟩, ?_, ⟨PoolEntry.get_pool_iff _, rfl, hname, hrel, hinterfacesFrom, hfieldsFrom,
      hmethodsFrom, htable⟩⟩
  refine (takes_readHeader hversion).bind ((PoolEntry.takes_pool file.entries_fit).bind ?_)
  refine (takes_word file.flags).bind ?_
  refine (takes_u2 file.name).bind (.lift_bind hname.className ?_)
  refine (takes_u2 (file.superName.getD 0)).bind (.lift_bind hsuper ?_)
  refine hinterfaces.bind (hfields.bind (hmethods.bind ?_))
  exact hattributes.bind_last (takes_pure _)

theorem parse_bytes (hversion : config.acceptsMajor file.major.toNat) (h : file.Refers) :
    ∃ layout, Layout.parse config file.bytes = .ok layout ∧ file.Recovered layout := by
  obtain ⟨layout, htakes, hrecovered⟩ := takes_read hversion h
  refine ⟨layout, ?_, hrecovered⟩
  have hrun := htakes [] 0
  rw [List.append_nil] at hrun
  rw [Layout.parse, Cursor.ofBytes, hrun]
  rfl

end Container

theorem ReadFrom.comp {ι α β : Type} {P : Nat → ι → α → Prop} {Q : Nat → α → β → Prop}
    {xs : List ι} {as : List α} {bs : List β} (h : ReadFrom P xs as) (h' : ReadFrom Q as bs) :
    ReadFrom (fun i x b => ∃ a, P i x a ∧ Q i a b) xs bs := by
  refine ⟨h'.1.trans h.1, fun i x hx => ?_⟩
  obtain ⟨a, ha, hP⟩ := h.2 i x hx
  obtain ⟨b, hb, hQ⟩ := h'.2 i a ha
  exact ⟨b, hb, a, hP, hQ⟩

theorem Layout.gives_headings (invisible : Bool) (layout : Layout) :
    Gives (layout.draft invisible) fun d =>
      ReadFrom (fun _ l f => f.name = l.name ∧ f.flags = l.flags) layout.fields d.fields
        ∧ ReadFrom (fun _ l m => m.name = l.name ∧ m.flags = l.flags) layout.methods d.methods := by
  have hfield : ∀ (ctx : Context) l, Gives (ctx.field l) fun r =>
      r.decl.name = l.name ∧ r.decl.flags = l.flags := by
    intro ctx l
    refine (Gives.any _).bind fun _ _ => (Gives.any _).bind fun _ _ => ?_
    exact (Gives.any _).bind fun _ _ => Gives.ok ⟨rfl, rfl⟩
  have hmethod : ∀ (ctx : Context) index l, Gives (ctx.method index l) fun r =>
      r.decl.name = l.name ∧ r.decl.flags = l.flags := by
    intro ctx index l
    refine (Gives.any _).bind fun _ _ => (Gives.any _).bind fun _ _ => ?_
    refine (Gives.any _).bind fun _ _ => (Gives.any _).bind fun _ _ => ?_
    refine (Gives.any _).bind fun _ _ => (Gives.any _).bind fun _ _ => ?_
    refine (Gives.any _).bind fun _ _ => ?_
    exact (Gives.any _).bind fun _ _ => Gives.ok ⟨rfl, rfl⟩
  refine (Gives.any _).bind fun _ _ => (Gives.any _).bind fun _ _ => ?_
  refine (Gives.any _).bind fun _ _ => (Gives.any _).bind fun _ _ => ?_
  refine (ReadFrom.mapM (hfield _) layout.fields).bind fun fields hfields => ?_
  refine (Context.gives_methodsFrom _ (hmethod _) 0 layout.methods).bind fun methods hmethods => ?_
  refine (Gives.any _).bind fun _ _ => Gives.ok ⟨?_, ?_⟩
  · exact hfields.map _ fun _ _ _ _ h => h
  · exact (ReadFrom.of_places hmethods.1 hmethods.2).map _ fun _ _ _ _ h => h

theorem Layout.parts_of_draft {layout : Layout} {invisible : Bool} {d : Draft String}
    (h : layout.draft invisible = .ok d) :
    layout.nesting = .ok ⟨d.nesting, d.flags⟩
      ∧ ∃ rs, Context.components ⟨layout.pool, invisible, binaryName layout.name⟩ layout.attributes
        = .ok rs := by
  obtain ⟨⟨nesting, flags⟩, hnesting, h⟩ := bind_eq_ok h
  obtain ⟨types, _, h⟩ := bind_eq_ok h
  obtain ⟨onClass, _, h⟩ := bind_eq_ok h
  obtain ⟨classTypeUses, _, h⟩ := bind_eq_ok h
  obtain ⟨fields, _, h⟩ := bind_eq_ok h
  obtain ⟨methods, _, h⟩ := bind_eq_ok h
  obtain ⟨rs, hrs, h⟩ := bind_eq_ok h
  cases h
  exact ⟨hnesting, rs, hrs⟩

namespace Container

/-- Each field and each method of the file in its place, with its name and flags. The number by
which a method is referred to is its position. -/
structure HasMembers (file : Container) (c : ClassDecl String) : Prop where
  fields : ReadFrom (fun _ m f => Spells file.entries m.name.toNat f.name ∧ f.flags = ⟨m.flags⟩)
    file.fields c.fields
  methods : ReadFrom (fun i m f => Spells file.entries m.name.toNat f.name ∧ f.flags = ⟨m.flags⟩
    ∧ ∃ index, c.methodRef i = .method c.name index ∧ index.toNat = i) file.methods c.methods

variable {config : Config} {file : Container}

theorem Recovered.hasMembers {layout : Layout} (h : file.Recovered layout) (invisible : Bool) :
    Gives (layout.draft invisible) fun d =>
      file.HasMembers (d.finish MethodDecl.constructorName id) := by
  intro d hd
  obtain ⟨hfields, hmethods⟩ := layout.gives_headings invisible d hd
  refine ⟨?_, ?_⟩
  · refine (h.fields.comp hfields).map _ fun i m f _ hm => ?_
    obtain ⟨l, hl, hname, hflags⟩ := hm
    exact ⟨hname ▸ hl.name, hflags.trans hl.flags⟩
  · refine (h.methods.comp hmethods).map _ fun i m f hf hm => ?_
    obtain ⟨l, hl, hname, hflags⟩ := hm
    have hspells : Spells file.entries m.name.toNat f.name := hname ▸ hl.name
    refine ⟨hspells, hflags.trans hl.flags, UInt32.ofNat i, rfl, ?_⟩
    have hlt : i < d.methods.length := (List.getElem?_eq_some_iff.1 hf).1
    have hlength : d.methods.length = file.methods.length := (h.methods.comp hmethods).1
    have hfits : file.methods.length < UInt32.size := Nat.lt_trans file.methods_fit (by decide)
    exact UInt32.toNat_ofNat_of_lt (by omega)

/-- A class file whose numbers all lead somewhere is taken apart into its parts, and a class that
is decoded from it has its members. -/
theorem recovered_of_refers (hversion : config.acceptsMajor file.major.toNat) (h : file.Refers) :
    (∃ layout, Layout.parse config file.bytes = .ok layout ∧ file.Recovered layout)
      ∧ ∀ c, decode config file.bytes = .ok c → file.HasMembers c := by
  obtain ⟨layout, hparse, hrecovered⟩ := parse_bytes hversion h
  refine ⟨⟨layout, hparse, hrecovered⟩, fun c hc => ?_⟩
  obtain ⟨d, hdraft, hfinish⟩ := bind_eq_ok hc
  cases hfinish
  rw [draft, hparse] at hdraft
  exact hrecovered.hasMembers config.invisible d hdraft

def sample : Container where
  minor := 0
  major := 52
  entries := [
    .utf8 [65] (by decide), .classRef 1, .long 7, .utf8 [120] (by decide), .utf8 [74] (by decide),
    .utf8 (ModifiedUtf8.encode "RuntimeVisibleAnnotations") (by decide), .utf8 [102] (by decide),
    .utf8 [40, 41, 86] (by decide), .link .string [0, 5] rfl]
  flags := 0x21
  name := 2
  superName := none
  interfaces := [2]
  fields := [⟨0x19, 5, 6, [⟨7, [1], by decide⟩, ⟨7, [0, 0], by decide⟩], by decide⟩]
  methods := [⟨0x401, 8, 9, [], by decide⟩, ⟨1, 5, 9, [], by decide⟩]
  attributes := []

theorem recovered_of_refers_sample :
    (∃ layout, Layout.parse .standard sample.bytes = .ok layout ∧ sample.Recovered layout)
      ∧ ∃ c, decode .standard sample.bytes = .ok c ∧ sample.HasMembers c := by
  have hat : ∀ n e, sample.entries[n]? = some e →
      At sample.entries (1 + PoolEntry.widths (sample.entries.take n)) e := by
    intro n e he
    obtain ⟨hlt, rfl⟩ := List.getElem?_eq_some_iff.1 he
    exact ⟨_, _, (List.take_append_drop n _).symm.trans (by rw [List.drop_eq_getElem_cons hlt]), rfl⟩
  have hA : Spells sample.entries 1 "A" := ⟨_, _, hat 0 _ rfl, by decide +kernel⟩
  have hx : Spells sample.entries 5 "x" := ⟨_, _, hat 3 _ rfl, by decide +kernel⟩
  have hJ : Spells sample.entries 6 "J" := ⟨_, _, hat 4 _ rfl, by decide +kernel⟩
  have hmarks : Spells sample.entries 7 "RuntimeVisibleAnnotations" :=
    ⟨_, _, hat 5 _ rfl, by decide +kernel⟩
  have hf : Spells sample.entries 8 "f" := ⟨_, _, hat 6 _ rfl, by decide +kernel⟩
  have hV : Spells sample.entries 9 "()V" := ⟨_, _, hat 7 _ rfl, by decide +kernel⟩
  have hclass : NamesClass sample.entries 2 "A" := ⟨1, hat 1 _ rfl, hA⟩
  have hmark : ∀ body fits, (AttributeEntry.mk 7 body fits).Refers sample.entries :=
    fun body fits => ⟨_, hmarks, fun h => absurd h (by decide)⟩
  have hrefers : sample.Refers := by
    refine ⟨⟨_, hclass⟩, nofun, ?_, ?_, ?_, nofun⟩
    · intro index hindex
      obtain rfl : index = 2 := List.mem_singleton.1 hindex
      exact ⟨_, hclass⟩
    · intro m hm
      rw [List.mem_singleton.1 hm]
      refine ⟨⟨_, hx⟩, ⟨_, hJ⟩, ?_⟩
      simp [hmark]
    · intro m hm
      rcases List.mem_pair.1 hm with rfl | rfl
      · exact ⟨⟨_, hf⟩, ⟨_, hV⟩, nofun⟩
      · exact ⟨⟨_, hx⟩, ⟨_, hV⟩, nofun⟩
  have hversion : Config.standard.acceptsMajor sample.major.toNat := by decide
  have hsome : (decode .standard sample.bytes).toOption.isSome := by decide +kernel
  obtain ⟨c, hc⟩ := Option.isSome_iff_exists.1 hsome
  obtain ⟨hparse, hmembers⟩ := recovered_of_refers hversion hrefers
  have hdecode := eq_ok_of_toOption hc
  exact ⟨hparse, c, hdecode, hmembers c hdecode⟩

end Container

end ClassCatalog.ClassFile
