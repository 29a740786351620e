import ClassCatalog.Proofs.ClassFile.TableEdits
import ClassCatalog.Proofs.Independence

/-! The order of attributes does not matter, and unknown ones do not either. A class file whose
tables were edited decodes to the same class, since decoding looks at nothing in a table but the
signature and the last body of each name that it asks for. -/

namespace ClassCatalog.ClassFile

open PoolEntry (Spells NamesClass)
open Reader

/-- The body of this name is looked into as it stands. That of a record is a matter of its own. -/
def IsPlainName (name : String) : Prop :=
  name ∈ recognizedNames ∧ name ≠ "Signature" ∧ name ≠ "Record"

instance : DecidablePred IsPlainName :=
  fun name => inferInstanceAs <| Decidable <|
    name ∈ recognizedNames ∧ name ≠ "Signature" ∧ name ≠ "Record"

namespace Attributes

structure Agree (attributes attributes' : Attributes) : Prop where
  signature : attributes'.signature = attributes.signature
  body : ∀ name, IsPlainName name → attributes'.body? name = attributes.body? name

variable {attributes attributes' : Attributes} {α : Type}

theorem Agree.readList (h : attributes.Agree attributes') {name : String} (hname : IsPlainName name)
    (p : Reader (List α)) : attributes'.readList name p = attributes.readList name p := by
  rw [Attributes.readList, h.body name hname, Attributes.readList]

theorem Agree.variableType (h : attributes.Agree attributes') (descriptor : String) :
    attributes'.variableType descriptor = attributes.variableType descriptor := by
  rw [Attributes.variableType, h.signature, Attributes.variableType]

theorem Agree.readBoth (h : attributes.Agree attributes') (ctx : Context) {kind : String}
    (hvisible : IsPlainName ("RuntimeVisible" ++ kind))
    (hinvisible : IsPlainName ("RuntimeInvisible" ++ kind)) (p : Bool → Reader (List α)) :
    ctx.readBoth attributes' kind p = ctx.readBoth attributes kind p := by
  rw [Context.readBoth, h.readList hvisible, h.readList hinvisible, Context.readBoth]

theorem Agree.declaredOn (h : attributes.Agree attributes') (ctx : Context) (d : DeclRef String) :
    ctx.declaredOn attributes' d = ctx.declaredOn attributes d :=
  h.readBoth ctx (by decide) (by decide) _

theorem Agree.typeUsesIn (h : attributes.Agree attributes') (ctx : Context) (d : DeclRef String) :
    ctx.typeUsesIn attributes' d = ctx.typeUsesIn attributes d := by
  rw [Context.typeUsesIn, h.readBoth ctx (by decide) (by decide), Context.typeUsesIn]

end Attributes

structure MemberLayout.Agree (m m' : MemberLayout) : Prop where
  flags : m'.flags = m.flags
  name : m'.name = m.name
  descriptor : m'.descriptor = m.descriptor
  attributes : m.attributes.Agree m'.attributes

structure ComponentLayout.Agree (l l' : ComponentLayout) : Prop where
  name : l'.name = l.name
  descriptor : l'.descriptor = l.descriptor
  attributes : l.attributes.Agree l'.attributes

namespace Context

variable (ctx : Context)

theorem field_of_agree {m m' : MemberLayout} (h : m.Agree m') : ctx.field m' = ctx.field m := by
  simp only [field, h.flags, h.name, h.descriptor, h.attributes.variableType,
    h.attributes.declaredOn, h.attributes.typeUsesIn]

theorem method_of_agree (index : Nat) {m m' : MemberLayout} (h : m.Agree m') :
    ctx.method index m' = ctx.method index m := by
  have hthrown : ctx.exceptions m'.attributes = ctx.exceptions m.attributes :=
    h.attributes.readList (by decide) _
  have hnames : ctx.parameterNames m'.attributes = ctx.parameterNames m.attributes :=
    h.attributes.readList (by decide) _
  have hdefault := h.attributes.body "AnnotationDefault" (by decide)
  have hparameters : ∀ p : Bool → Reader (List (AnnotationUse String)),
      ctx.readBoth m'.attributes "ParameterAnnotations" p
        = ctx.readBoth m.attributes "ParameterAnnotations" p :=
    h.attributes.readBoth ctx (by decide) (by decide)
  simp only [method, h.flags, h.name, h.descriptor, h.attributes.signature, hthrown, hnames,
    hdefault, hparameters, h.attributes.declaredOn, h.attributes.typeUsesIn]

theorem mapM_field_of_agree {ms ms' : List MemberLayout}
    (h : List.Forall₂ MemberLayout.Agree ms ms') : ms'.mapM ctx.field = ms.mapM ctx.field := by
  induction h with
  | nil => rfl
  | cons h _ ih => rw [List.mapM_cons, ih, ctx.field_of_agree h, List.mapM_cons]

theorem methodsFrom_of_agree (index : Nat) {ms ms' : List MemberLayout}
    (h : List.Forall₂ MemberLayout.Agree ms ms') :
    ctx.methodsFrom index ms' = ctx.methodsFrom index ms := by
  induction h generalizing index with
  | nil => rfl
  | cons h _ ih => rw [methodsFrom, ih, ctx.method_of_agree index h, methodsFrom]

def componentOf (l : ComponentLayout) : Except DecodeError (Decoded (ComponentDecl String)) := do
  let ty ← l.attributes.variableType l.descriptor
  let annotations ← ctx.declaredOn l.attributes (.component ctx.name l.name)
  let typeUses ← ctx.typeUsesIn l.attributes (.component ctx.name l.name)
  return ⟨⟨l.name, ty⟩, annotations, typeUses⟩

theorem componentOf_of_agree {l l' : ComponentLayout} (h : l.Agree l') :
    ctx.componentOf l' = ctx.componentOf l := by
  simp only [componentOf, h.name, h.descriptor, h.attributes.variableType,
    h.attributes.declaredOn, h.attributes.typeUsesIn]

theorem run_component_iff {c d : Cursor} {r : Decoded (ComponentDecl String)} :
    ctx.component.run c = .ok (r, d)
      ↔ ∃ l, (ComponentLayout.read ctx.pool).run c = .ok (l, d) ∧ ctx.componentOf l = .ok r := by
  rw [component_eq]
  constructor
  · intro h
    rw [StateT.run_bind] at h
    obtain ⟨⟨l, c'⟩, hlayout, h⟩ := bind_eq_ok h
    obtain ⟨ty, hty, h⟩ := run_liftM_bind_eq_ok h
    obtain ⟨annotations, hannotations, h⟩ := run_liftM_bind_eq_ok h
    obtain ⟨typeUses, huses, h⟩ := run_liftM_bind_eq_ok h
    cases h
    refine ⟨l, hlayout, ?_⟩
    rw [componentOf, hty, hannotations, huses]
    rfl
  · rintro ⟨l, hlayout, h⟩
    obtain ⟨ty, hty, h⟩ := bind_eq_ok h
    obtain ⟨annotations, hannotations, h⟩ := bind_eq_ok h
    obtain ⟨typeUses, huses, h⟩ := bind_eq_ok h
    cases h
    rw [run_bind_of_ok hlayout, run_lift_of_ok hty, run_lift_of_ok hannotations,
      run_lift_of_ok huses]
    rfl

def readRecord (body : List UInt8) :
    Except DecodeError (List (Decoded (ComponentDecl String))) := do
  let (components, cursor) ← (counted ctx.component).run (.ofBytes body)
  unless cursor.atEnd do throw (.attributeLength "Record" body.length cursor.offset)
  return components

theorem components_eq (attributes : Attributes) : ctx.components attributes
    = match attributes.body? "Record" with
      | none => .ok []
      | some body => ctx.readRecord body := rfl

theorem readRecord_eq_ok_iff {body : List UInt8} {rs : List (Decoded (ComponentDecl String))} :
    ctx.readRecord body = .ok rs
      ↔ ∃ offset, (counted ctx.component).run (.ofBytes body) = .ok (rs, ⟨[], offset⟩) := by
  constructor
  · intro h
    obtain ⟨⟨found, rest, offset⟩, hrun, h⟩ := bind_eq_ok h
    cases rest with
    | nil =>
      cases h
      exact ⟨offset, hrun⟩
    | cons b rest => cases h
  · rintro ⟨offset, hrun⟩
    rw [readRecord, hrun]
    rfl

end Context

variable {entries : List PoolEntry}

theorem AttributeEntry.Recovered.agree {table table' : List AttributeEntry}
    {attributes attributes' : Attributes} (h : Recovered entries table attributes)
    (h' : Recovered entries table' attributes')
    (hlast : ∀ name ∈ recognizedNames, name ≠ "Record" → ∀ body,
      IsLast entries table name body ↔ IsLast entries table' name body) :
    attributes.Agree attributes' := by
  constructor
  · apply Option.ext
    intro text
    rw [h.signature, h'.signature]
    simp only [hlast "Signature" (by decide) (by decide)]
  · rintro name ⟨hname, hsignature, hrecord⟩
    apply Option.ext
    intro body
    rw [h.body name hsignature, h'.body name hsignature, hlast name hname hrecord]

theorem AttributeEntry.Recovered.agree_of_edits {table table' : List AttributeEntry}
    {attributes attributes' : Attributes} (h : Recovered entries table attributes)
    (h' : Recovered entries table' attributes')
    (hedits : Relation.ReflTransGen (Edited entries) table table') :
    attributes.Agree attributes' := by
  have hkeeps := keeps_of_edits hedits
  exact h.agree h' fun name hname _ => hkeeps.isLast name hname

theorem MemberEntry.Edited.agree {m m' : MemberEntry} {l l' : MemberLayout}
    (h : m.Edited entries m') (hl : m.Recovered entries l) (hl' : m'.Recovered entries l') :
    l.Agree l' := by
  have hname := hl'.name
  have hdescriptor := hl'.descriptor
  rw [h.name] at hname
  rw [h.descriptor] at hdescriptor
  refine ⟨?_, hname.unique hl.name, hdescriptor.unique hl.descriptor, ?_⟩
  · rw [hl.flags, hl'.flags, h.flags]
  · exact hl.attributes.agree_of_edits hl'.attributes h.attributes

theorem ComponentEntry.Edited.agree {k k' : ComponentEntry} {l l' : ComponentLayout}
    (h : k.Edited entries k') (hl : k.Recovered entries l) (hl' : k'.Recovered entries l') :
    l.Agree l' := by
  have hname := hl'.name
  have hdescriptor := hl'.descriptor
  rw [h.name] at hname
  rw [h.descriptor] at hdescriptor
  exact ⟨hname.unique hl.name, hdescriptor.unique hl.descriptor,
    hl.attributes.agree_of_edits hl'.attributes h.attributes⟩

def RecordKept (entries : List PoolEntry) (body body' : List UInt8) : Prop :=
  ∀ ctx : Context, ctx.pool = PoolEntry.pool entries → ∀ rs,
    ctx.readRecord body = .ok rs → ctx.readRecord body' = .ok rs

theorem Context.consumes_component (ctx : Context) (hpool : ctx.pool = PoolEntry.pool entries) :
    ctx.component.Consumes fun front _ =>
      ∃ k : ComponentEntry, front = k.bytes ∧ k.Refers entries := by
  intro c r d hrun
  obtain ⟨l, hl, _⟩ := ctx.run_component_iff.1 hrun
  rw [hpool] at hl
  exact ComponentEntry.consumes_read c l d hl

theorem Context.run_component_edited (ctx : Context) (hpool : ctx.pool = PoolEntry.pool entries)
    {k k' : ComponentEntry} (h : k.Edited entries k') (hk : k.Refers entries)
    {rest : List UInt8} {offset : Nat} {r : Decoded (ComponentDecl String)} {d : Cursor}
    (hrun : ctx.component.run ⟨k.bytes ++ rest, offset⟩ = .ok (r, d)) :
    (∃ stop, d = ⟨rest, stop⟩) ∧ ctx.component.Takes k'.bytes r := by
  obtain ⟨l, hl, hr⟩ := ctx.run_component_iff.1 hrun
  obtain ⟨l₁, htakes, hl₁⟩ := ComponentEntry.takes_read hk
  obtain ⟨l', htakes', hl'⟩ := ComponentEntry.takes_read (h.refers hk)
  rw [hpool, htakes rest offset] at hl
  obtain ⟨rfl, rfl⟩ := Prod.mk.inj (Except.ok.inj hl)
  refine ⟨⟨_, rfl⟩, fun rest' offset' => ctx.run_component_iff.2 ⟨l', ?_, ?_⟩⟩
  · rw [hpool]
    exact htakes' rest' offset'
  · rw [ctx.componentOf_of_agree (h.agree hl₁ hl')]
    exact hr

theorem Context.run_times_edited (ctx : Context) (hpool : ctx.pool = PoolEntry.pool entries)
    {ks ks' : List ComponentEntry} (h : List.Forall₂ (ComponentEntry.Edited entries) ks ks')
    (hks : ∀ k ∈ ks, k.Refers entries) {offset : Nat} {rs : List (Decoded (ComponentDecl String))}
    {d : Cursor}
    (hrun : (times ks.length ctx.component).run ⟨ks.flatMap ComponentEntry.bytes, offset⟩
      = .ok (rs, d)) :
    (times ks'.length ctx.component).Takes (ks'.flatMap ComponentEntry.bytes) rs := by
  induction h generalizing offset rs with
  | nil =>
    cases hrun
    exact takes_pure []
  | cons hedit _ ih =>
    obtain ⟨hk, hrest⟩ := List.forall_mem_cons.1 hks
    rw [List.flatMap_cons, List.length_cons, times, StateT.run_bind] at hrun
    obtain ⟨⟨r, c⟩, hfirst, hrun⟩ := bind_eq_ok hrun
    rw [StateT.run_bind] at hrun
    obtain ⟨⟨more, c'⟩, hmore, heq⟩ := bind_eq_ok hrun
    cases heq
    obtain ⟨⟨stop, rfl⟩, htakes⟩ := ctx.run_component_edited hpool hedit hk hfirst
    have hlater := ih hrest hmore
    rw [List.length_cons, times, List.flatMap_cons]
    exact htakes.bind (hlater.bind_last (takes_pure _))

theorem recordKept_of_edited {ks ks' : List ComponentEntry} (hfits : ks.length < UInt16.size)
    (h : List.Forall₂ (ComponentEntry.Edited entries) ks ks') :
    RecordKept entries (countedBytes ComponentEntry.bytes ks)
      (countedBytes ComponentEntry.bytes ks') := by
  intro ctx hpool rs hrs
  obtain ⟨offset, hrun⟩ := ctx.readRecord_eq_ok_iff.1 hrs
  obtain ⟨_, hfront, found, rfl, hfound, hrefers⟩ :=
    consumes_counted (ctx.consumes_component hpool) _ _ _ hrun
  -- What was read are the components that the body was made of.
  have hsame : countedBytes ComponentEntry.bytes ks ++ []
      = countedBytes ComponentEntry.bytes found ++ [] := by
    rw [List.append_nil]
    exact hfront
  obtain ⟨rfl, _⟩ := ComponentEntry.delimits_bytes.counted hfits hfound hsame
  have hcount : (counted ctx.component).run (.ofBytes (countedBytes ComponentEntry.bytes ks))
      = (times ks.length ctx.component).run ⟨ks.flatMap ComponentEntry.bytes, 0 + _⟩ :=
    run_bind_of_ok (takes_number 2 hfits _ 0)
  rw [hcount] at hrun
  have htimes := ctx.run_times_edited hpool h hrefers hrun
  have hfits' : ks'.length < UInt16.size := h.length_eq ▸ hfits
  have hall : (counted ctx.component).Takes (countedBytes ComponentEntry.bytes ks') rs :=
    (takes_number 2 hfits').bind htimes
  have hread := hall [] 0
  rw [List.append_nil] at hread
  exact ctx.readRecord_eq_ok_iff.2 ⟨_, hread⟩

structure ClassTableKeeps (entries : List PoolEntry) (table table' : List AttributeEntry) :
    Prop where
  refers : (∀ a ∈ table, a.Refers entries) → ∀ a ∈ table', a.Refers entries
  isLast : ∀ name ∈ recognizedNames, name ≠ "Record" → ∀ body,
    AttributeEntry.IsLast entries table name body ↔ AttributeEntry.IsLast entries table' name body
  record : ∀ body, AttributeEntry.IsLast entries table "Record" body →
    ∃ body', AttributeEntry.IsLast entries table' "Record" body' ∧ RecordKept entries body body'
  noRecord : ∀ body', AttributeEntry.IsLast entries table' "Record" body' →
    ∃ body, AttributeEntry.IsLast entries table "Record" body

theorem ClassTableEdited.keeps {table table' : List AttributeEntry}
    (h : ClassTableEdited entries table table') : ClassTableKeeps entries table table' := by
  cases h with
  | table h =>
    have hkeeps := h.keeps
    have hrecord := hkeeps.isLast "Record" (by decide)
    refine ⟨hkeeps.refers, fun name hname _ => hkeeps.isLast name hname, ?_, ?_⟩
    · exact fun body hbody => ⟨body, (hrecord body).1 hbody, fun _ _ _ hrs => hrs⟩
    · exact fun body hbody => ⟨body, (hrecord body).2 hbody⟩
  | @record front back a a' components components' hname hname' hfits hbody hbody' h =>
    have hspells' : Spells entries a'.name.toNat "Record" := by
      rw [hname']
      exact hname
    have hother : ∀ name, name ≠ "Record" → ¬ Spells entries a.name.toNat name :=
      fun name hne hspells => hne (hspells.unique hname)
    constructor
    · intro hall b hb
      simp only [List.mem_append, List.mem_cons] at hb
      rcases hb with hfront | rfl | hback
      · exact hall b (List.mem_append_left _ hfront)
      · exact ⟨"Record", hspells', fun heq => absurd heq (by decide)⟩
      · exact hall b (List.mem_append_right _ (List.mem_cons_of_mem _ hback))
    · intro name _ hne body
      have hnot := hother name hne
      have hnot' : ¬ Spells entries a'.name.toNat name := by
        rw [hname']
        exact hnot
      rw [AttributeEntry.isLast_iff, AttributeEntry.isLast_iff]
      simp only [AttributeEntry.named_append, AttributeEntry.named_cons_of_not_spells hnot,
        AttributeEntry.named_cons_of_not_spells hnot']
    · intro body hlast
      rcases AttributeEntry.isLast_in_place hname hspells' with hsame | ⟨hown, hown'⟩
      · exact ⟨body, (hsame body).1 hlast, fun _ _ _ hrs => hrs⟩
      · obtain rfl := (hown body).1 hlast
        refine ⟨a'.body, (hown' _).2 rfl, ?_⟩
        rw [hbody, hbody']
        exact recordKept_of_edited hfits h
    · intro body hlast
      rcases AttributeEntry.isLast_in_place hname hspells' with hsame | ⟨hown, _⟩
      · exact ⟨body, (hsame body).2 hlast⟩
      · exact ⟨a.body, (hown _).2 rfl⟩

theorem classTableKeeps_of_edits {table table' : List AttributeEntry}
    (h : Relation.ReflTransGen (ClassTableEdited entries) table table') :
    ClassTableKeeps entries table table' := by
  induction h with
  | refl =>
    exact ⟨id, fun _ _ _ _ => Iff.rfl, fun body hbody => ⟨body, hbody, fun _ _ _ hrs => hrs⟩,
      fun body hbody => ⟨body, hbody⟩⟩
  | tail _ hstep ih =>
    have hkeeps := hstep.keeps
    refine ⟨hkeeps.refers ∘ ih.refers, fun name hname hne body =>
      (ih.isLast name hname hne body).trans (hkeeps.isLast name hname hne body), ?_, ?_⟩
    · intro body hbody
      obtain ⟨middle, hmiddle, hfirst⟩ := ih.record body hbody
      obtain ⟨body', hbody', hsecond⟩ := hkeeps.record middle hmiddle
      exact ⟨body', hbody', fun ctx hpool rs hrs => hsecond ctx hpool rs (hfirst ctx hpool rs hrs)⟩
    · intro body' hbody'
      obtain ⟨middle, hmiddle⟩ := hkeeps.noRecord body' hbody'
      exact ih.noRecord middle hmiddle

structure Layout.Agree (layout layout' : Layout) : Prop where
  pool : layout'.pool = layout.pool
  flags : layout'.flags = layout.flags
  name : layout'.name = layout.name
  superName : layout'.superName = layout.superName
  interfaces : layout'.interfaces = layout.interfaces
  fields : List.Forall₂ MemberLayout.Agree layout.fields layout'.fields
  methods : List.Forall₂ MemberLayout.Agree layout.methods layout'.methods
  attributes : layout.attributes.Agree layout'.attributes
  components : ∀ ctx : Context, ctx.pool = layout.pool → ∀ rs,
    ctx.components layout.attributes = .ok rs → ctx.components layout'.attributes = .ok rs

theorem Layout.Agree.draft {layout layout' : Layout} (h : layout.Agree layout') {invisible : Bool}
    {d : Draft String} (hd : layout.draft invisible = .ok d) :
    layout'.draft invisible = .ok d := by
  have hnesting : layout'.nesting = layout.nesting := by
    simp only [Layout.nesting, h.flags, h.pool, h.name,
      h.attributes.body "InnerClasses" (by decide), h.attributes.body "EnclosingMethod" (by decide)]
  have hsupertypes : layout'.supertypes = layout.supertypes := by
    simp only [Layout.supertypes, h.attributes.signature, h.superName, h.interfaces]
  obtain ⟨nested, hn, hd⟩ := bind_eq_ok hd
  obtain ⟨types, ht, hd⟩ := bind_eq_ok hd
  obtain ⟨onClass, hc, hd⟩ := bind_eq_ok hd
  obtain ⟨classTypeUses, hu, hd⟩ := bind_eq_ok hd
  obtain ⟨fields, hf, hd⟩ := bind_eq_ok hd
  obtain ⟨methods, hm, hd⟩ := bind_eq_ok hd
  obtain ⟨components, hk, hd⟩ := bind_eq_ok hd
  have hk' := h.components _ rfl components hk
  cases hd
  simp only [Layout.draft, hnesting, hn, hsupertypes, ht, h.pool, h.name, h.superName,
    h.attributes.declaredOn, hc, h.attributes.typeUsesIn, hu,
    Context.mapM_field_of_agree _ h.fields, hf, Context.methodsFrom_of_agree _ _ h.methods, hm, hk']
  rfl

section Lists

variable {ι κ α β : Type} {E : ι → κ → Prop} {R : ι → α → Prop} {R' : κ → β → Prop}
  {xs : List ι} {ys : List κ} {as : List α} {bs : List β}

theorem ReadFrom.forall₂ (h : ReadFrom (fun _ => R) xs as) : List.Forall₂ R xs as := by
  induction xs generalizing as with
  | nil =>
    obtain rfl := List.length_eq_zero_iff.1 h.1
    exact .nil
  | cons x xs ih =>
    obtain ⟨hlength, hat⟩ := h
    cases as with
    | nil => cases hlength
    | cons a as =>
      obtain ⟨b, hb, hx⟩ := hat 0 x rfl
      obtain rfl : a = b := Option.some.inj hb
      exact .cons hx (ih ⟨Nat.succ.inj hlength, fun i y hy => hat (i + 1) y hy⟩)

theorem forall₂_of_read {S : α → β → Prop} (hE : List.Forall₂ E xs ys)
    (hR : List.Forall₂ R xs as) (hR' : List.Forall₂ R' ys bs)
    (h : ∀ x y a b, E x y → R x a → R' y b → S a b) : List.Forall₂ S as bs := by
  induction hE generalizing as bs with
  | nil =>
    cases hR
    cases hR'
    exact .nil
  | cons hxy _ ih =>
    cases hR with
    | cons hx hxs =>
      cases hR' with
      | cons hy hys => exact .cons (h _ _ _ _ hxy hx hy) (ih hxs hys)

theorem forall_of_edited {P : ι → Prop} {Q : κ → Prop} (hE : List.Forall₂ E xs ys)
    (h : ∀ x y, E x y → P x → Q y) (hxs : ∀ x ∈ xs, P x) : ∀ y ∈ ys, Q y := by
  induction hE with
  | nil => exact nofun
  | cons hxy _ ih =>
    obtain ⟨hx, hrest⟩ := List.forall_mem_cons.1 hxs
    exact List.forall_mem_cons.2 ⟨h _ _ hxy hx, ih hrest⟩

end Lists

namespace Container

variable {config : Config} {file file' : Container}

theorem Edited.refers (h : file.Edited file') (hfile : file.Refers) : file'.Refers := by
  constructor
  · rw [h.entries, h.name]
    exact hfile.name
  · rw [h.entries, h.superName]
    exact hfile.superName
  · rw [h.entries, h.interfaces]
    exact hfile.interfaces
  · rw [h.entries]
    exact forall_of_edited h.fields (fun _ _ hedit => hedit.refers) hfile.fields
  · rw [h.entries]
    exact forall_of_edited h.methods (fun _ _ hedit => hedit.refers) hfile.methods
  · rw [h.entries]
    exact (classTableKeeps_of_edits h.attributes).refers hfile.attributes

theorem eq_of_names {superName : Option UInt16} {text text' : Option String}
    (h : Option.Rel (fun index => NamesClass entries index.toNat) superName text)
    (h' : Option.Rel (fun index => NamesClass entries index.toNat) superName text') :
    text' = text := by
  cases h with
  | none =>
    cases h'
    rfl
  | some hname =>
    cases h' with
    | some hname' => exact congrArg some (hname'.unique hname)

theorem components_of_edits {table table' : List AttributeEntry}
    {attributes attributes' : Attributes}
    (h : Relation.ReflTransGen (ClassTableEdited entries) table table')
    (htable : AttributeEntry.Recovered entries table attributes)
    (htable' : AttributeEntry.Recovered entries table' attributes') (ctx : Context)
    (hpool : ctx.pool = PoolEntry.pool entries) {rs : List (Decoded (ComponentDecl String))}
    (hrs : ctx.components attributes = .ok rs) : ctx.components attributes' = .ok rs := by
  have hkeeps := classTableKeeps_of_edits h
  have hrecord := htable.body "Record" (by decide)
  have hrecord' := htable'.body "Record" (by decide)
  rw [Context.components_eq] at hrs ⊢
  cases hbody : attributes.body? "Record" with
  | none =>
    have hnone : attributes'.body? "Record" = none := by
      apply Option.eq_none_iff_forall_ne_some.2
      intro body' hbody'
      obtain ⟨body, hlast⟩ := hkeeps.noRecord body' ((hrecord' body').1 hbody')
      rw [(hrecord body).2 hlast] at hbody
      cases hbody
    rw [hbody] at hrs
    rw [hnone]
    exact hrs
  | some body =>
    obtain ⟨body', hlast', hkept⟩ := hkeeps.record body ((hrecord body).1 hbody)
    rw [hbody] at hrs
    rw [(hrecord' body').2 hlast']
    exact hkept ctx hpool rs hrs

theorem Edited.agree {layout layout' : Layout} (h : file.Edited file')
    (hpool : layout.pool = PoolEntry.pool file.entries)
    (hpool' : layout'.pool = PoolEntry.pool file'.entries) (hlayout : file.Recovered layout)
    (hlayout' : file'.Recovered layout') : layout.Agree layout' := by
  have hname := hlayout'.name
  have hsuper := hlayout'.superName
  have hinterfaces := hlayout'.interfaces.forall₂
  have hfields := hlayout'.fields.forall₂
  have hmethods := hlayout'.methods.forall₂
  have htable := hlayout'.attributes
  rw [h.entries] at hpool' hname hsuper hinterfaces hfields hmethods htable
  rw [h.name] at hname
  rw [h.superName] at hsuper
  rw [h.interfaces] at hinterfaces
  constructor
  · rw [hpool, hpool']
  · rw [hlayout.flags, hlayout'.flags, h.flags]
  · exact hname.unique hlayout.name
  · exact eq_of_names hlayout.superName hsuper
  · have hpairs := forall₂_of_read (S := fun text text' => text = text')
      (List.forall₂_same.2 fun index _ => rfl) hlayout.interfaces.forall₂ hinterfaces
      fun index index' text text' (heq : index = index') hnames hnames' =>
        hnames.unique (heq ▸ hnames')
    rw [List.forall₂_eq_eq_eq] at hpairs
    exact hpairs.symm
  · exact forall₂_of_read h.fields hlayout.fields.forall₂ hfields
      fun _ _ _ _ hedit => hedit.agree
  · exact forall₂_of_read h.methods hlayout.methods.forall₂ hmethods
      fun _ _ _ _ hedit => hedit.agree
  · exact hlayout.attributes.agree htable (classTableKeeps_of_edits h.attributes).isLast
  · intro ctx hctx rs hrs
    exact components_of_edits h.attributes hlayout.attributes htable ctx (hctx.trans hpool) hrs

end Container

theorem Container.Recovered.record {file : Container} {layout : Layout}
    (h : file.Recovered layout) (hpool : layout.pool = PoolEntry.pool file.entries)
    {invisible : Bool} {d : Draft String} (hd : layout.draft invisible = .ok d)
    {body : List UInt8}
    (hbody : AttributeEntry.IsLast file.entries file.attributes "Record" body) :
    ∃ components : List ComponentEntry, body = countedBytes ComponentEntry.bytes components
      ∧ components.length < UInt16.size ∧ ∀ k ∈ components, k.Refers file.entries := by
  obtain ⟨_, rs, hrs⟩ := Layout.parts_of_draft hd
  rw [Context.components_eq, (h.attributes.body "Record" (by decide) body).2 hbody] at hrs
  obtain ⟨offset, hrun⟩ := (Context.readRecord_eq_ok_iff _).1 hrs
  obtain ⟨_, hfront, components, rfl, hfits, hrefers⟩ :=
    consumes_counted (Context.consumes_component _ hpool) _ _ _ hrun
  exact ⟨components, hfront.trans (List.append_nil _), hfits, hrefers⟩

/-- A class file that is decoded has one division into parts, of its last record as well. Whatever
entries without a say are put into its tables or taken out of them, and however entries of
different names change their places, the result decodes to the same class, into whatever name
tables it is decoded. -/
theorem decode_of_edited {config : Config} {bytes : List UInt8} {c : ClassDecl String}
    (h : decode config bytes = .ok c) :
    ∃ file : Container, file.bytes = bytes ∧ file.Refers
      ∧ (∀ other : Container, other.bytes = bytes → other.Refers → other = file)
      ∧ (∀ body, AttributeEntry.IsLast file.entries file.attributes "Record" body →
        ∃ components : List ComponentEntry, body = countedBytes ComponentEntry.bytes components
          ∧ components.length < UInt16.size ∧ ∀ k ∈ components, k.Refers file.entries)
      ∧ ∀ file' : Container, file.Edited file' → decode config file'.bytes = .ok c
        ∧ ∀ t : NameTable,
          textOutcome (decodeInto config file'.bytes) ClassDecl.resolve t = .ok c := by
  obtain ⟨d, hdraft, hfinish⟩ := bind_eq_ok h
  obtain ⟨layout, hparse, hdraft⟩ := bind_eq_ok hdraft
  obtain ⟨file, ⟨hbytes, hrefers, hunique⟩, hversion, hpool, hrecovered⟩ :=
    Container.of_parse hparse
  refine ⟨file, hbytes, hrefers, hunique, fun body => hrecovered.record hpool hdraft, ?_⟩
  intro file' hedited
  rw [← hedited.major] at hversion
  obtain ⟨layout', hparse', hpool', hrecovered'⟩ :=
    Container.parse_of_refers hversion (hedited.refers hrefers)
  have hagree := hedited.agree hpool hpool' hrecovered hrecovered'
  have hdecode : decode config file'.bytes = .ok c := by
    rw [decode, draft, hparse']
    show (layout'.draft config.invisible >>= _) = _
    rw [hagree.draft hdraft]
    exact hfinish
  refine ⟨hdecode, fun t => ?_⟩
  rw [textOutcome_decodeInto]
  exact hdecode

def plainComponent : ComponentEntry := ⟨4, 5, [⟨6, [0, 1, 0, 8, 0, 0], by decide⟩], by decide⟩

def editedComponent : ComponentEntry :=
  ⟨4, 5, [⟨7, [1, 2], by decide⟩, ⟨6, [0, 1, 0, 8, 0, 0], by decide⟩], by decide⟩

def recordAttribute (k : ComponentEntry)
    (fits : (countedBytes ComponentEntry.bytes [k]).length < UInt32.size) : AttributeEntry :=
  ⟨3, countedBytes ComponentEntry.bytes [k], fits⟩

def plainRecord : Container where
  minor := 0
  major := 60
  entries := [
    .utf8 [82] (by decide), .classRef 1, .utf8 (ModifiedUtf8.encode "Record") (by decide),
    .utf8 [107] (by decide), .utf8 [73] (by decide),
    .utf8 (ModifiedUtf8.encode "RuntimeInvisibleAnnotations") (by decide), .utf8 [90] (by decide),
    .utf8 [76, 65, 59] (by decide)]
  flags := 0x31
  name := 2
  superName := none
  interfaces := []
  fields := [⟨2, 4, 5, [⟨6, [0, 1, 0, 8, 0, 0], by decide⟩, ⟨7, [], by decide⟩], by decide⟩]
  methods := []
  attributes := [recordAttribute plainComponent (by decide)]

/-- The same record with an earlier one that is no list of components, an entry `Z` in the table of
the component, and the attributes of the field the other way round. -/
def editedRecord : Container :=
  { plainRecord with
    fields := [⟨2, 4, 5, [⟨7, [], by decide⟩, ⟨6, [0, 1, 0, 8, 0, 0], by decide⟩], by decide⟩]
    fields_fit := by decide
    attributes := [⟨3, [255], by decide⟩, recordAttribute editedComponent (by decide)]
    attributes_fit := by decide }

theorem edited_editedRecord : plainRecord.Edited editedRecord := by
  have hrecord : Spells plainRecord.entries 3 "Record" := by decide +kernel
  have hmarks : Spells plainRecord.entries 6 "RuntimeInvisibleAnnotations" := by decide +kernel
  have hunknown : Spells plainRecord.entries 7 "Z" := by decide +kernel
  have hidle : ∀ back body fits,
      (AttributeEntry.mk 7 body fits).Idle plainRecord.entries back := by
    intro back body fits
    exact ⟨"Z", hunknown, .inl (by decide)⟩
  have hdifferent : ∀ body fits body' fits', AttributeEntry.DifferentNames plainRecord.entries
      ⟨6, body, fits⟩ ⟨7, body', fits'⟩ := by
    intro body fits body' fits' name hname hname'
    have hmark := hname.unique hmarks
    have hother := hname'.unique hunknown
    exact absurd (hmark.symm.trans hother) (by decide)
  have hearlier : ClassTableEdited plainRecord.entries plainRecord.attributes
      (⟨3, [255], by decide⟩ :: plainRecord.attributes) := by
    apply ClassTableEdited.table
    apply @AttributeEntry.Edited.insert _ [] plainRecord.attributes
    exact ⟨"Record", hrecord, .inr ⟨by decide, _, List.mem_cons_self, hrecord⟩⟩
  have hcomponent : plainComponent.Edited plainRecord.entries editedComponent :=
    ⟨rfl, rfl, .single (@AttributeEntry.Edited.insert _ [] _ _ (hidle _ _ _))⟩
  have hlater : ClassTableEdited plainRecord.entries
      ([⟨3, [255], by decide⟩] ++ recordAttribute plainComponent (by decide) :: [])
      ([⟨3, [255], by decide⟩] ++ recordAttribute editedComponent (by decide) :: []) :=
    .record hrecord rfl (by decide) rfl rfl (.cons hcomponent .nil)
  constructor
  case fields =>
    apply List.Forall₂.cons _ .nil
    refine ⟨rfl, rfl, rfl, .single ?_⟩
    apply @AttributeEntry.Edited.permute _ [] [_, _] [_, _] [] (List.Perm.swap _ _ _)
    exact List.pairwise_pair.2 (hdifferent _ _ _ _)
  case methods => exact .nil
  case attributes => exact .tail (.single hearlier) hlater
  all_goals rfl

theorem refers_plainRecord : plainRecord.Refers := by
  have hclass : NamesClass plainRecord.entries 2 "R" :=
    PoolEntry.namesClass_of_className (eq_ok_of_toOption (by decide +kernel))
  have hrecord : Spells plainRecord.entries 3 "Record" := by decide +kernel
  have hname : Spells plainRecord.entries 4 "k" := by decide +kernel
  have hdescriptor : Spells plainRecord.entries 5 "I" := by decide +kernel
  have hmarks : Spells plainRecord.entries 6 "RuntimeInvisibleAnnotations" := by decide +kernel
  have hunknown : Spells plainRecord.entries 7 "Z" := by decide +kernel
  refine ⟨⟨_, hclass⟩, nofun, nofun, ?_, nofun, ?_⟩
  · intro m hm
    obtain rfl := List.mem_singleton.1 hm
    refine ⟨⟨_, hname⟩, ⟨_, hdescriptor⟩, ?_⟩
    intro a ha
    rcases List.mem_pair.1 ha with rfl | rfl
    · exact ⟨_, hmarks, fun heq => absurd heq (by decide)⟩
    · exact ⟨_, hunknown, fun heq => absurd heq (by decide)⟩
  · intro a ha
    obtain rfl := List.mem_singleton.1 ha
    exact ⟨_, hrecord, fun heq => absurd heq (by decide)⟩

/-- The three edits at once leave the class with its two annotations as it is. -/
theorem decode_of_edited_record :
    ∃ c, decode .standard plainRecord.bytes = .ok c
      ∧ c.components.map (·.name) = ["k"] ∧ c.annotations.map (·.name) = ["A", "A"]
      ∧ plainRecord.Edited editedRecord ∧ decode .standard editedRecord.bytes = .ok c := by
  have hparts : (decode .standard plainRecord.bytes).toOption.map
      (fun c => (c.components.map (·.name), c.annotations.map (·.name)))
        = some (["k"], ["A", "A"]) := by
    decide +kernel
  obtain ⟨c, hc, heq⟩ := Option.map_eq_some_iff.1 hparts
  obtain ⟨hcomponents, hannotations⟩ := Prod.mk.inj heq
  have hdecode := eq_ok_of_toOption hc
  obtain ⟨file, _, _, hunique, _, hedits⟩ := decode_of_edited hdecode
  obtain rfl := hunique plainRecord rfl refers_plainRecord
  have hedited := (hedits editedRecord edited_editedRecord).1
  exact ⟨c, hdecode, hcomponents, hannotations, edited_editedRecord, hedited⟩

end ClassCatalog.ClassFile
