import ClassCatalog.Interned
import ClassCatalog.Proofs.ClassFile.Renaming
import ClassCatalog.Proofs.NameTable

/-! What was interned is, in every later table, one structure over the entries of the table, seen
with the texts of the entries before and with their handles after. -/

namespace ClassCatalog

variable {α β : Type}

/-- `p` extends the table, and its result has the property `r` in every later table. -/
def Interns (p : StateM NameTable α) (r : NameTable → α → Prop) : Prop :=
  ∀ t, t.Extends (p.run t).2 ∧ ∀ u, (p.run t).2.Extends u → r u (p.run t).1

namespace Interns

variable {r : NameTable → α → Prop} {q : NameTable → β → Prop}

theorem pure {a : α} (h : ∀ u, r u a) : Interns (Pure.pure a) r :=
  fun t => ⟨.refl t, fun u _ => h u⟩

theorem bind {p : StateM NameTable α} {f : α → StateM NameTable β} (hp : Interns p r)
    (hf : ∀ a, Interns (f a) fun u b => r u a → q u b) : Interns (p >>= f) q := by
  intro t
  obtain ⟨hext, hr⟩ := hp t
  obtain ⟨hext', hq⟩ := hf (p.run t).1 (p.run t).2
  exact ⟨hext.trans hext', fun u hu => hq u hu (hr u (hext'.trans hu))⟩

theorem map {p : StateM NameTable α} {f : α → β} (hp : Interns p r)
    (h : ∀ u a, r u a → q u (f a)) : Interns (f <$> p) q := by
  intro t
  obtain ⟨hext, hr⟩ := hp t
  exact ⟨hext, fun u hu => h u _ (hr u hu)⟩

theorem name (text : String) :
    Interns (NameTable.intern text) fun u n => ∃ e : u.Entry, e.text = text ∧ e.name = n :=
  fun t => ⟨t.extends_intern text, fun _ hu =>
    ⟨⟨_, text, rfl, hu _ _ (t.text?_intern_self text)⟩, rfl, rfl⟩⟩

variable {κ : NameTable → Type} {before : ∀ u, κ u → α} {after : ∀ u, κ u → β}

theorem mapM {intern : α → StateM NameTable β} (xs : List α)
    (h : ∀ x ∈ xs, Interns (intern x) fun u y => ∃ k, before u k = x ∧ after u k = y) :
    Interns (xs.mapM intern) fun u ys =>
      ∃ ks : List (κ u), ks.map (before u) = xs ∧ ks.map (after u) = ys := by
  induction xs with
  | nil => exact pure fun u => ⟨[], rfl, rfl⟩
  | cons x xs ih =>
    rw [List.mapM_cons]
    refine (h x List.mem_cons_self).bind fun y => ?_
    refine (ih fun z hz => h z (List.mem_cons_of_mem x hz)).bind fun ys => ?_
    exact pure fun u ⟨ks, hks, hks'⟩ ⟨k, hk, hk'⟩ =>
      ⟨k :: ks, by rw [List.map_cons, hk, hks], by rw [List.map_cons, hk', hks']⟩

theorem optionMapM {intern : α → StateM NameTable β} (x : Option α)
    (h : ∀ a ∈ x, Interns (intern a) fun u y => ∃ k, before u k = a ∧ after u k = y) :
    Interns (x.mapM intern) fun u y =>
      ∃ k : Option (κ u), k.map (before u) = x ∧ k.map (after u) = y := by
  cases x with
  | none => exact pure fun u => ⟨none, rfl, rfl⟩
  | some a =>
    rw [Option.mapM_some]
    exact (h a rfl).map fun u y ⟨k, hk, hk'⟩ => ⟨some k, congrArg some hk, congrArg some hk'⟩

end Interns

open NameTable (Entry)

mutual

theorem Ty.interns (t : Ty String) : Interns (t.mapNames NameTable.intern) fun u t' =>
    ∃ k : Ty u.Entry, k.rename Entry.text = t ∧ k.rename Entry.name = t' := by
  cases t with
  | primitive p => exact .pure fun u => ⟨.primitive p, rfl, rfl⟩
  | void => exact .pure fun u => ⟨.void, rfl, rfl⟩
  | wildcard e => exact .pure fun u => ⟨.wildcard e, rfl, rfl⟩
  | named n =>
    exact (Interns.name n).bind fun _ => .pure fun u ⟨n, hn, hn'⟩ =>
      ⟨.named n, congrArg _ hn, congrArg _ hn'⟩
  | typeVariable n =>
    exact (Interns.name n).bind fun _ => .pure fun u ⟨n, hn, hn'⟩ =>
      ⟨.typeVariable n, congrArg _ hn, congrArg _ hn'⟩
  | unresolved n =>
    exact (Interns.name n).bind fun _ => .pure fun u ⟨n, hn, hn'⟩ =>
      ⟨.unresolved n, congrArg _ hn, congrArg _ hn'⟩
  | array d c =>
    exact (Ty.interns c).bind fun _ => .pure fun u ⟨c, hc, hc'⟩ =>
      ⟨.array d c, congrArg _ hc, congrArg _ hc'⟩
  | bounded e b =>
    exact (Ty.interns b).bind fun _ => .pure fun u ⟨b, hb, hb'⟩ =>
      ⟨.bounded e b, congrArg _ hb, congrArg _ hb'⟩
  | parameterized n as =>
    refine (Interns.name n).bind fun _ => (Ty.interns_list as).bind fun _ => ?_
    exact .pure fun u ⟨as, has, has'⟩ ⟨n, hn, hn'⟩ => ⟨.parameterized n as,
      by rw [rename_parameterized, hn, has], by rw [rename_parameterized, hn', has']⟩
  | typeParameter n i bs =>
    refine (Interns.name n).bind fun _ => (Ty.interns_list bs).bind fun _ => ?_
    exact .pure fun u ⟨bs, hbs, hbs'⟩ ⟨n, hn, hn'⟩ => ⟨.typeParameter n i bs,
      by rw [rename_typeParameter, hn, hbs], by rw [rename_typeParameter, hn', hbs']⟩
  | inner o n as =>
    refine (Ty.interns o).bind fun _ => (Interns.name n).bind fun _ => ?_
    refine (Ty.interns_list as).bind fun _ => ?_
    exact .pure fun u ⟨as, has, has'⟩ ⟨n, hn, hn'⟩ ⟨o, ho, ho'⟩ => ⟨.inner o n as,
      by rw [rename_inner, ho, hn, has], by rw [rename_inner, ho', hn', has']⟩

theorem Ty.interns_list (ts : List (Ty String)) :
    Interns (Ty.listMapNames NameTable.intern ts) fun u ts' =>
      ∃ ks : List (Ty u.Entry), ks.map (Ty.rename Entry.text) = ts
        ∧ ks.map (Ty.rename Entry.name) = ts' := by
  cases ts with
  | nil => exact .pure fun u => ⟨[], rfl, rfl⟩
  | cons t ts =>
    refine (Ty.interns t).bind fun _ => (Ty.interns_list ts).bind fun _ => ?_
    exact .pure fun u ⟨ks, hks, hks'⟩ ⟨k, hk, hk'⟩ =>
      ⟨k :: ks, by rw [List.map_cons, hk, hks], by rw [List.map_cons, hk', hks']⟩

end

mutual

theorem Value.interns (v : Value String) : Interns (v.mapNames NameTable.intern) fun u v' =>
    ∃ k : Value u.Entry, k.rename Entry.text = v ∧ k.rename Entry.name = v' := by
  cases v with
  | byte v => exact .pure fun u => ⟨.byte v, rfl, rfl⟩
  | char v => exact .pure fun u => ⟨.char v, rfl, rfl⟩
  | short v => exact .pure fun u => ⟨.short v, rfl, rfl⟩
  | int v => exact .pure fun u => ⟨.int v, rfl, rfl⟩
  | long v => exact .pure fun u => ⟨.long v, rfl, rfl⟩
  | float v => exact .pure fun u => ⟨.float v, rfl, rfl⟩
  | double v => exact .pure fun u => ⟨.double v, rfl, rfl⟩
  | boolean v => exact .pure fun u => ⟨.boolean v, rfl, rfl⟩
  | string text =>
    exact (Interns.name text).bind fun _ => .pure fun u ⟨n, hn, hn'⟩ =>
      ⟨.string n, congrArg _ hn, congrArg _ hn'⟩
  | classLiteral ty =>
    exact ty.interns.bind fun _ => .pure fun u ⟨t, ht, ht'⟩ =>
      ⟨.classLiteral t, congrArg _ ht, congrArg _ ht'⟩
  | enumConstant type constant =>
    refine (Interns.name type).bind fun _ => (Interns.name constant).bind fun _ => ?_
    exact .pure fun u ⟨c, hc, hc'⟩ ⟨t, ht, ht'⟩ =>
      ⟨.enumConstant t c, congr (congrArg _ ht) hc, congr (congrArg _ ht') hc'⟩
  | nested name visible members =>
    refine (Interns.name name).bind fun _ => (Value.interns_members members).bind fun _ => ?_
    exact .pure fun u ⟨ms, hms, hms'⟩ ⟨n, hn, hn'⟩ => ⟨.nested n visible ms,
      by rw [rename_nested, hn, hms], by rw [rename_nested, hn', hms']⟩
  | array elements =>
    exact (Value.interns_elements elements).bind fun _ => .pure fun u ⟨es, hes, hes'⟩ =>
      ⟨.array es, by rw [rename_array, hes], by rw [rename_array, hes']⟩

theorem Value.interns_members (members : List (String × Value String)) :
    Interns (Value.membersMapNames NameTable.intern members) fun u ms =>
      ∃ ks : List (u.Entry × Value u.Entry), ks.map (Value.renameMember Entry.text) = members
        ∧ ks.map (Value.renameMember Entry.name) = ms := by
  match members with
  | [] => exact .pure fun u => ⟨[], rfl, rfl⟩
  | (name, v) :: rest =>
    refine (Interns.name name).bind fun _ => v.interns.bind fun _ => ?_
    refine (Value.interns_members rest).bind fun _ => ?_
    exact .pure fun u ⟨ks, hks, hks'⟩ ⟨k, hk, hk'⟩ ⟨n, hn, hn'⟩ => ⟨(n, k) :: ks,
      by rw [List.map_cons, renameMember, hn, hk, hks],
      by rw [List.map_cons, renameMember, hn', hk', hks']⟩

theorem Value.interns_elements (elements : List (Value String)) :
    Interns (Value.elementsMapNames NameTable.intern elements) fun u es =>
      ∃ ks : List (Value u.Entry), ks.map (Value.rename Entry.text) = elements
        ∧ ks.map (Value.rename Entry.name) = es := by
  cases elements with
  | nil => exact .pure fun u => ⟨[], rfl, rfl⟩
  | cons v rest =>
    refine v.interns.bind fun _ => (Value.interns_elements rest).bind fun _ => ?_
    exact .pure fun u ⟨ks, hks, hks'⟩ ⟨k, hk, hk'⟩ =>
      ⟨k :: ks, by rw [List.map_cons, hk, hks], by rw [List.map_cons, hk', hks']⟩

end

theorem DeclRef.interns (d : DeclRef String) : Interns (d.mapNames NameTable.intern) fun u d' =>
    ∃ k : DeclRef u.Entry, k.rename Entry.text = d ∧ k.rename Entry.name = d' := by
  cases d with
  | type c =>
    exact (Interns.name c).bind fun _ => .pure fun u ⟨c, hc, hc'⟩ =>
      ⟨.type c, congrArg _ hc, congrArg _ hc'⟩
  | method c i =>
    exact (Interns.name c).bind fun _ => .pure fun u ⟨c, hc, hc'⟩ =>
      ⟨.method c i, congrArg (method · i) hc, congrArg (method · i) hc'⟩
  | field c n =>
    refine (Interns.name c).bind fun _ => (Interns.name n).bind fun _ => ?_
    exact .pure fun u ⟨n, hn, hn'⟩ ⟨c, hc, hc'⟩ =>
      ⟨.field c n, congr (congrArg _ hc) hn, congr (congrArg _ hc') hn'⟩
  | component c n =>
    refine (Interns.name c).bind fun _ => (Interns.name n).bind fun _ => ?_
    exact .pure fun u ⟨n, hn, hn'⟩ ⟨c, hc, hc'⟩ =>
      ⟨.component c n, congr (congrArg _ hc) hn, congr (congrArg _ hc') hn'⟩

theorem Target.interns (t : Target String) : Interns (t.mapNames NameTable.intern) fun u t' =>
    ∃ k : Target u.Entry, k.rename Entry.text = t ∧ k.rename Entry.name = t' := by
  cases t with
  | declaration d =>
    exact d.interns.bind fun _ => .pure fun u ⟨d, hd, hd'⟩ =>
      ⟨.declaration d, congrArg _ hd, congrArg _ hd'⟩
  | parameter c i p =>
    exact (Interns.name c).bind fun _ => .pure fun u ⟨c, hc, hc'⟩ =>
      ⟨.parameter c i p, congrArg (parameter · i p) hc, congrArg (parameter · i p) hc'⟩
  | typeUse t =>
    obtain ⟨enclosing, use, path, ty⟩ := t
    refine enclosing.interns.bind fun _ => ty.interns.bind fun _ => ?_
    exact .pure fun u ⟨ty, hty, hty'⟩ ⟨e, he, he'⟩ => ⟨.typeUse ⟨e, use, path, ty⟩,
      congrArg typeUse (congr (congrArg (TypeTarget.mk · use path) he) hty),
      congrArg typeUse (congr (congrArg (TypeTarget.mk · use path) he') hty')⟩

theorem AnnotationUse.interns (a : AnnotationUse String) :
    Interns (a.mapNames NameTable.intern) fun u a' =>
      ∃ k : AnnotationUse u.Entry, k.rename Entry.text = a ∧ k.rename Entry.name = a' := by
  refine (Interns.name a.name).bind fun _ => ?_
  refine (Interns.optionMapM a.target fun t _ => t.interns).bind fun _ => ?_
  refine (Value.interns_members a.members).bind fun _ => ?_
  exact .pure fun u ⟨ms, hms, hms'⟩ ⟨t, ht, ht'⟩ ⟨n, hn, hn'⟩ => ⟨⟨n, a.visible, t, ms⟩,
    by rw [rename_eq, hn, ht, hms], by rw [rename_eq, hn', ht', hms']⟩

theorem FieldDecl.interns (f : FieldDecl String) : Interns (f.mapNames NameTable.intern) fun u f' =>
    ∃ k : FieldDecl u.Entry, k.rename Entry.text = f ∧ k.rename Entry.name = f' := by
  refine (Interns.name f.name).bind fun _ => f.ty.interns.bind fun _ => ?_
  exact .pure fun u ⟨t, ht, ht'⟩ ⟨n, hn, hn'⟩ => ⟨⟨n, f.flags, t⟩,
    congr (congrArg (FieldDecl.mk · f.flags) hn) ht,
    congr (congrArg (FieldDecl.mk · f.flags) hn') ht'⟩

theorem MethodDecl.interns (m : MethodDecl String) :
    Interns (m.mapNames NameTable.intern) fun u m' =>
      ∃ k : MethodDecl u.Entry, k.rename Entry.text = m ∧ k.rename Entry.name = m' := by
  refine (Interns.name m.name).bind fun _ => ?_
  refine (Ty.interns_list m.typeParameters).bind fun _ => ?_
  refine (Ty.interns_list m.parameters).bind fun _ => ?_
  refine m.returnType.interns.bind fun _ => (Ty.interns_list m.exceptions).bind fun _ => ?_
  refine (Interns.mapM m.parameterNames fun n _ =>
    Interns.optionMapM n fun text _ => Interns.name text).bind fun _ => ?_
  refine (Interns.optionMapM m.default fun v _ => v.interns).bind fun _ => ?_
  exact .pure fun u ⟨d, hd, hd'⟩ ⟨pn, hpn, hpn'⟩ ⟨es, hes, hes'⟩ ⟨r, hr, hr'⟩ ⟨ps, hps, hps'⟩
      ⟨tps, htps, htps'⟩ ⟨n, hn, hn'⟩ => ⟨⟨n, m.flags, tps, ps, r, es, pn, d⟩,
    by rw [rename_eq, hn, htps, hps, hr, hes, hpn, hd],
    by rw [rename_eq, hn', htps', hps', hr', hes', hpn', hd']⟩

theorem ComponentDecl.interns (c : ComponentDecl String) :
    Interns (c.mapNames NameTable.intern) fun u c' =>
      ∃ k : ComponentDecl u.Entry, k.rename Entry.text = c ∧ k.rename Entry.name = c' := by
  refine (Interns.name c.name).bind fun _ => c.ty.interns.bind fun _ => ?_
  exact .pure fun u ⟨t, ht, ht'⟩ ⟨n, hn, hn'⟩ => ⟨⟨n, t⟩,
    congr (congrArg ComponentDecl.mk hn) ht, congr (congrArg ComponentDecl.mk hn') ht'⟩

theorem EnclosingMethod.interns (e : EnclosingMethod String) :
    Interns (e.mapNames NameTable.intern) fun u e' =>
      ∃ k : EnclosingMethod u.Entry, k.rename Entry.text = e ∧ k.rename Entry.name = e' := by
  refine (Interns.name e.owner).bind fun _ => (Interns.name e.name).bind fun _ => ?_
  refine (Interns.name e.descriptor).bind fun _ => ?_
  exact .pure fun u ⟨d, hd, hd'⟩ ⟨n, hn, hn'⟩ ⟨o, ho, ho'⟩ => ⟨⟨o, n, d⟩,
    congr (congr (congrArg EnclosingMethod.mk ho) hn) hd,
    congr (congr (congrArg EnclosingMethod.mk ho') hn') hd'⟩

theorem Nesting.interns (n : Nesting String) : Interns (n.mapNames NameTable.intern) fun u n' =>
    ∃ k : Nesting u.Entry, k.rename Entry.text = n ∧ k.rename Entry.name = n' := by
  refine (Interns.optionMapM n.enclosingClass fun text _ => Interns.name text).bind fun _ => ?_
  refine (Interns.optionMapM n.simpleName fun text _ => Interns.name text).bind fun _ => ?_
  refine (Interns.optionMapM n.enclosingMethod fun e _ => e.interns).bind fun _ => ?_
  exact .pure fun u ⟨m, hm, hm'⟩ ⟨s, hs, hs'⟩ ⟨c, hc, hc'⟩ => ⟨⟨n.kind, c, s, m⟩,
    by rw [rename_eq, hc, hs, hm], by rw [rename_eq, hc', hs', hm']⟩

theorem ClassDecl.interns (c : ClassDecl String) : Interns c.intern fun u c' =>
    ∃ k : ClassDecl u.Entry, k.rename Entry.text = c ∧ k.rename Entry.name = c' := by
  refine (Interns.name c.name).bind fun _ => ?_
  refine (Interns.optionMapM c.superName fun text _ => Interns.name text).bind fun _ => ?_
  refine (Interns.optionMapM c.superType fun t _ => t.interns).bind fun _ => ?_
  refine (Ty.interns_list c.interfaces).bind fun _ => ?_
  refine (Ty.interns_list c.typeParameters).bind fun _ => ?_
  refine (Interns.mapM c.fields fun f _ => f.interns).bind fun _ => ?_
  refine (Interns.mapM c.methods fun m _ => m.interns).bind fun _ => ?_
  refine (Interns.mapM c.components fun k _ => k.interns).bind fun _ => ?_
  refine (Interns.mapM c.annotations fun a _ => a.interns).bind fun _ => ?_
  refine c.nesting.interns.bind fun _ => ?_
  exact .pure fun u ⟨ns, hns, hns'⟩ ⟨as, has, has'⟩ ⟨cs, hcs, hcs'⟩ ⟨ms, hms, hms'⟩ ⟨fs, hfs, hfs'⟩
      ⟨tps, htps, htps'⟩ ⟨is, his, his'⟩ ⟨st, hst, hst'⟩ ⟨sn, hsn, hsn'⟩ ⟨n, hn, hn'⟩ =>
    ⟨⟨n, c.flags, sn, st, is, tps, fs, ms, cs, as, ns, c.hasNoArgsConstructor⟩,
      by rw [rename_eq, hn, hsn, hst, his, htps, hfs, hms, hcs, has, hns],
      by rw [rename_eq, hn', hsn', hst', his', htps', hfs', hms', hcs', has', hns']⟩

theorem interns_all (cs : List (ClassDecl String)) : Interns (internAll cs) fun u cs' =>
    ∃ ks : List (ClassDecl u.Entry), ks.map (ClassDecl.rename Entry.text) = cs
      ∧ ks.map (ClassDecl.rename Entry.name) = cs' :=
  Interns.mapM cs fun c _ => c.interns

namespace ClassFile

theorem Supertypes.interns (s : Supertypes String) :
    Interns (s.mapNames NameTable.intern) fun u s' =>
      ∃ k : Supertypes u.Entry, k.rename Entry.text = s ∧ k.rename Entry.name = s' := by
  refine (Ty.interns_list s.typeParameters).bind fun _ => ?_
  refine (Interns.optionMapM s.superType fun t _ => t.interns).bind fun _ => ?_
  refine (Ty.interns_list s.interfaces).bind fun _ => ?_
  exact .pure fun u ⟨is, his, his'⟩ ⟨t, ht, ht'⟩ ⟨tps, htps, htps'⟩ => ⟨⟨tps, t, is⟩,
    by rw [rename_eq, htps, ht, his], by rw [rename_eq, htps', ht', his']⟩

theorem MethodSignature.interns (s : MethodSignature String) :
    Interns (s.mapNames NameTable.intern) fun u s' =>
      ∃ k : MethodSignature u.Entry, k.rename Entry.text = s ∧ k.rename Entry.name = s' := by
  refine (Ty.interns_list s.typeParameters).bind fun _ => ?_
  refine (Ty.interns_list s.parameters).bind fun _ => s.returnType.interns.bind fun _ => ?_
  refine (Ty.interns_list s.exceptions).bind fun _ => ?_
  exact .pure fun u ⟨es, hes, hes'⟩ ⟨r, hr, hr'⟩ ⟨ps, hps, hps'⟩ ⟨tps, htps, htps'⟩ =>
    ⟨⟨tps, ps, r, es⟩, by rw [rename_eq, htps, hps, hr, hes],
      by rw [rename_eq, htps', hps', hr', hes']⟩

theorem MethodDraft.interns (m : MethodDraft String) :
    Interns (m.mapNames NameTable.intern) fun u m' =>
      ∃ k : MethodDraft u.Entry, k.rename Entry.text = m ∧ k.rename Entry.name = m' := by
  refine (Interns.name m.name).bind fun _ => m.types.interns.bind fun _ => ?_
  refine (Interns.mapM m.parameterNames fun n _ =>
    Interns.optionMapM n fun text _ => Interns.name text).bind fun _ => ?_
  refine (Interns.optionMapM m.default fun v _ => v.interns).bind fun _ => ?_
  refine (Ty.interns_list m.erased).bind fun _ => ?_
  exact .pure fun u ⟨es, hes, hes'⟩ ⟨d, hd, hd'⟩ ⟨pn, hpn, hpn'⟩ ⟨s, hs, hs'⟩ ⟨n, hn, hn'⟩ =>
    ⟨⟨n, m.flags, s, pn, d, es, m.hasSignature⟩, by rw [rename_eq, hn, hs, hpn, hd, hes],
      by rw [rename_eq, hn', hs', hpn', hd', hes']⟩

theorem TypeEntry.interns (e : TypeEntry String) :
    Interns (e.mapNames NameTable.intern) fun u e' =>
      ∃ k : TypeEntry u.Entry, k.rename Entry.text = e ∧ k.rename Entry.name = e' :=
  e.body.interns.bind fun _ => .pure fun _ ⟨b, hb, hb'⟩ =>
    ⟨⟨e.use, e.path, b⟩, congrArg (TypeEntry.mk _ _) hb, congrArg (TypeEntry.mk _ _) hb'⟩

theorem PendingTypeUse.interns (p : PendingTypeUse String) :
    Interns (p.mapNames NameTable.intern) fun u p' =>
      ∃ k : PendingTypeUse u.Entry, k.rename Entry.text = p ∧ k.rename Entry.name = p' := by
  refine p.enclosing.interns.bind fun _ => p.entry.interns.bind fun _ => ?_
  exact .pure fun u ⟨e, he, he'⟩ ⟨d, hd, hd'⟩ => ⟨⟨d, e⟩,
    congr (congrArg PendingTypeUse.mk hd) he, congr (congrArg PendingTypeUse.mk hd') he'⟩

theorem Draft.interns (d : Draft String) : Interns d.intern fun u d' =>
    ∃ k : Draft u.Entry, k.rename Entry.text = d ∧ k.rename Entry.name = d' := by
  refine (Interns.name d.name).bind fun _ => ?_
  refine (Interns.optionMapM d.superName fun text _ => Interns.name text).bind fun _ => ?_
  refine d.types.interns.bind fun _ => ?_
  refine (Interns.mapM d.fields fun f _ => f.interns).bind fun _ => ?_
  refine (Interns.mapM d.methods fun m _ => m.interns).bind fun _ => ?_
  refine (Interns.mapM d.components fun k _ => k.interns).bind fun _ => ?_
  refine (Interns.mapM d.annotations fun a _ => a.interns).bind fun _ => ?_
  refine (Interns.mapM d.typeUses fun p _ => p.interns).bind fun _ => ?_
  refine d.nesting.interns.bind fun _ => ?_
  exact .pure fun u ⟨ns, hns, hns'⟩ ⟨us, hus, hus'⟩ ⟨as, has, has'⟩ ⟨cs, hcs, hcs'⟩ ⟨ms, hms, hms'⟩
      ⟨fs, hfs, hfs'⟩ ⟨ts, hts, hts'⟩ ⟨sn, hsn, hsn'⟩ ⟨n, hn, hn'⟩ =>
    ⟨⟨n, d.flags, sn, ts, fs, ms, cs, as, us, ns⟩,
      by rw [rename_eq, hn, hsn, hts, hfs, hms, hcs, has, hus, hns],
      by rw [rename_eq, hn', hsn', hts', hfs', hms', hcs', has', hus', hns']⟩

end ClassFile

end ClassCatalog
