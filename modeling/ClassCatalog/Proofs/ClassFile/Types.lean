import ClassCatalog.Proofs.ClassFile.Descriptor
import ClassCatalog.Proofs.ClassFile.Signature
import ClassCatalog.Proofs.ClassFile.SignatureFile

/-! All types of a decoded class are well formed, with the type parameters in scope that the class
and the method declare. -/

namespace ClassCatalog.ClassFile

variable {α : Type}

theorem Reader.gives_value {p : Reader α} {P : α → Prop} (h : Yields p P) (bytes : List UInt8) :
    Gives (p.value bytes) P := by
  intro a ha
  unfold Reader.value at ha
  cases hrun : p.run (.ofBytes bytes) with
  | error e =>
    rw [hrun] at ha
    cases ha
  | ok r =>
    rw [hrun] at ha
    cases ha
    exact h _ r.1 r.2 hrun

theorem Attributes.gives_readList {attributes : Attributes} {name : String}
    {p : Reader (List α)} {P : α → Prop} (h : Yields p fun as => ∀ a ∈ as, P a) :
    Gives (attributes.readList name p) fun as => ∀ a ∈ as, P a := by
  unfold readList
  split
  · exact Gives.ok (by simp)
  · exact Reader.gives_value h _

theorem Reader.yields_counted {p : Reader α} {P : α → Prop} (h : Yields p P) :
    Yields (Reader.counted p) fun as => ∀ a ∈ as, P a :=
  Yields.after fun n => (h.times n).mono fun _ has => has.2

theorem Attributes.gives_variableType (attributes : Attributes) (descriptor : String) :
    Gives (attributes.variableType descriptor) (Ty.IsValue []) := by
  unfold variableType
  split
  · exact Signature.gives_run Signature.yields_fieldBody _
  · exact Descriptor.gives_parseField [] descriptor

namespace Context

variable (ctx : Context)

theorem gives_field (m : MemberLayout) : Gives (ctx.field m) fun d => d.decl.ty.IsValue [] := by
  refine (m.attributes.gives_variableType m.descriptor).bind fun ty hty => ?_
  exact (Gives.any _).bind fun _ _ => (Gives.any _).bind fun _ _ => Gives.ok hty

theorem gives_exceptions (attributes : Attributes) :
    Gives (ctx.exceptions attributes) fun ts => ∀ t ∈ ts, t.IsValue [] := by
  refine Attributes.gives_readList (Reader.yields_counted ?_)
  exact Yields.after fun _ => Yields.after fun _ => Yields.pure trivial

theorem gives_methodTypes (signature : Option String) {erased : List (Ty String) × Ty String}
    {thrown : List (Ty String)} (hparameters : ∀ t ∈ erased.1, t.IsValue [])
    (hresult : erased.2.IsResult []) (hthrown : ∀ t ∈ thrown, t.IsValue []) :
    Gives (methodTypes signature erased thrown) (MethodSignature.WellTyped []) := by
  unfold methodTypes
  split
  · exact Gives.ok ⟨by simp, hparameters, hresult, hthrown⟩
  · refine (Signature.gives_run Signature.yields_methodBody _).bind fun s hs => Gives.ok ?_
    refine ⟨hs.typeParameters, hs.parameters, hs.returnType, ?_⟩
    show ∀ t ∈ (if s.exceptions.isEmpty then thrown else s.exceptions), _
    split
    · exact hthrown
    · exact hs.exceptions

theorem gives_method (index : Nat) (m : MemberLayout) :
    Gives (ctx.method index m) fun r => r.decl.types.WellTyped [] := by
  refine (Descriptor.gives_parseMethod [] m.descriptor).bind fun erased herased => ?_
  refine (ctx.gives_exceptions m.attributes).bind fun thrown hthrown => ?_
  refine (gives_methodTypes m.attributes.signature herased.1 herased.2 hthrown).bind
    fun types htypes => ?_
  refine (Gives.any _).bind fun _ _ => (Gives.any _).bind fun _ _ => ?_
  refine (Gives.any _).bind fun _ _ => (Gives.any _).bind fun _ _ => ?_
  exact (Gives.any _).bind fun _ _ => Gives.ok htypes

theorem gives_methodsFrom {P : Nat → MemberLayout → Decoded (MethodDraft String) → Prop}
    (h : ∀ index m, Gives (ctx.method index m) (P index m)) (index : Nat)
    (ms : List MemberLayout) :
    Gives (ctx.methodsFrom index ms) fun rs => rs.length = ms.length
      ∧ ∀ (i : Nat) (r : Decoded (MethodDraft String)), rs[i]? = some r →
        ∃ m, ms[i]? = some m ∧ P (index + i) m r := by
  induction ms generalizing index with
  | nil => exact Gives.ok (by simp)
  | cons m ms ih =>
    refine (h index m).bind fun r hr => (ih (index + 1)).bind fun rs hrs => Gives.ok ⟨?_, ?_⟩
    · rw [List.length_cons, List.length_cons, hrs.1]
    · intro i s hs
      cases i with
      | zero =>
        cases hs
        exact ⟨m, rfl, hr⟩
      | succ i =>
        obtain ⟨n, hn, hP⟩ := hrs.2 i s hs
        have hplace : index + (i + 1) = index + 1 + i := by omega
        exact ⟨n, hn, hplace ▸ hP⟩

theorem yields_component : Yields ctx.component fun d => d.decl.ty.IsValue [] := by
  refine Yields.after fun _ => Yields.after fun name => Yields.after fun _ => ?_
  refine Yields.after fun descriptor => Yields.after fun attributes => ?_
  refine (Yields.lift (attributes.gives_variableType descriptor)).bind fun ty hty => ?_
  exact Yields.after fun _ => Yields.after fun _ => Yields.pure hty

theorem gives_components {P : Decoded (ComponentDecl String) → Prop}
    (h : Yields ctx.component P) (attributes : Attributes) :
    Gives (ctx.components attributes) fun ds => ∀ d ∈ ds, P d := by
  unfold components
  split
  · exact Gives.ok (by simp)
  · intro ds hds
    obtain ⟨⟨components, cursor⟩, hrun, hrest⟩ := bind_eq_ok hds
    have hall := Reader.yields_counted h _ components cursor hrun
    simp only at hrest
    split at hrest
    · cases hrest
      exact hall
    · cases hrest

end Context

theorem Layout.gives_supertypes (layout : Layout) :
    Gives layout.supertypes (Supertypes.WellTyped []) := by
  unfold supertypes
  split
  · exact (Signature.gives_run Signature.yields_classBody _).bind fun s hs => Gives.ok hs
  · refine Gives.ok ⟨by simp, ?_, ?_⟩
    · intro t ht
      obtain ⟨n, _, rfl⟩ := Option.map_eq_some_iff.1 ht
      exact trivial
    · intro t ht
      obtain ⟨n, _, rfl⟩ := List.mem_map.1 ht
      exact trivial

/-- The types of a draft, in which no variable is bound. -/
structure Draft.WellTyped (d : Draft String) : Prop where
  types : d.types.WellTyped []
  fields : ∀ f ∈ d.fields, f.ty.IsValue []
  methods : ∀ m ∈ d.methods, m.types.WellTyped []
  components : ∀ k ∈ d.components, k.ty.IsValue []

theorem Layout.gives_wellTyped (invisible : Bool) (layout : Layout) :
    Gives (layout.draft invisible) Draft.WellTyped := by
  refine (Gives.any _).bind fun s _ => (layout.gives_supertypes).bind fun types htypes => ?_
  refine (Gives.any _).bind fun onClass _ => (Gives.any _).bind fun classTypeUses _ => ?_
  refine (Gives.mapM fun m _ => Context.gives_field _ m).bind fun fields hfields => ?_
  refine (Context.gives_methodsFrom _ (Context.gives_method _) 0 layout.methods).bind
    fun methods hmethods => ?_
  refine (Context.gives_components _ (Context.yields_component _) layout.attributes).bind
    fun components hcomponents => Gives.ok ⟨htypes, ?_, ?_, ?_⟩
  · exact List.forall_mem_map.2 hfields
  · refine List.forall_mem_map.2 fun r hr => ?_
    obtain ⟨i, hi⟩ := List.mem_iff_getElem?.1 hr
    obtain ⟨m, _, htyped⟩ := hmethods.2 i r hi
    exact htyped
  · exact List.forall_mem_map.2 hcomponents

theorem MethodSignature.WellTyped.decl {m : MethodDraft String} (h : m.types.WellTyped [])
    (outer : List String) : (m.decl outer).WellTyped outer := by
  have hbound := h.boundIn outer
  have hscope : m.types.scope outer
      = Ty.declaredNames (m.decl outer).typeParameters ++ outer :=
    congrArg (· ++ outer) (Ty.declaredNames_bindIn _ _).symm
  rw [hscope] at hbound
  exact ⟨hbound.typeParameters, hbound.parameters, hbound.returnType, hbound.exceptions⟩

theorem Draft.WellTyped.finish {d : Draft String} (h : d.WellTyped) (init : String)
    (text : String → String) : (d.finish init text).WellTyped := by
  have hbound := h.types.bound
  have hscope : d.types.scope = Ty.declaredNames (d.finish init text).typeParameters :=
    (Ty.declaredNames_bindIn _ _).symm
  refine ⟨?_, ?_, ?_, ?_, ?_, ?_⟩
  all_goals rw [← hscope]
  · exact hbound.typeParameters
  · exact hbound.superType
  · exact hbound.interfaces
  · exact List.forall_mem_map.2 fun f hf => (h.fields f hf).bindIn d.types.scope
  · exact List.forall_mem_map.2 fun m hm => (h.methods m hm).decl d.types.scope
  · exact List.forall_mem_map.2 fun k hk => (h.components k hk).bindIn d.types.scope

/-- Every type of a class that decoding accepts is well formed and fits its scope. -/
theorem wellTyped_of_decode {config : Config} {bytes : List UInt8} {c : ClassDecl String}
    (h : decode config bytes = .ok c) : c.WellTyped := by
  obtain ⟨d, hdraft, hfinish⟩ := bind_eq_ok h
  obtain ⟨layout, _, hdraft⟩ := bind_eq_ok hdraft
  cases hfinish
  exact (layout.gives_wellTyped config.invisible d hdraft).finish _ _

theorem wellTyped_innerSupertype :
    ∃ c, decode .standard
        (signatureFile (ModifiedUtf8.encode "<T:Ljava/lang/Object;>LA<TT;>.B<+[TU;>;")) = .ok c
      ∧ c.typeParameters = [.typeParameter "T" false [.named "java.lang.Object"]]
      ∧ c.superType = some (.inner (.parameterized "A" [.typeVariable "T"]) "A$B"
          [.bounded true (.array 1 (.unresolved "U"))])
      ∧ c.WellTyped := by
  have htext : ModifiedUtf8.decode
      (ModifiedUtf8.encode "<T:Ljava/lang/Object;>LA<TT;>.B<+[TU;>;")
        = some "<T:Ljava/lang/Object;>LA<TT;>.B<+[TU;>;" := by
    decide +kernel
  have hparse : Signature.parseClass "<T:Ljava/lang/Object;>LA<TT;>.B<+[TU;>;"
      = .ok ⟨[.typeParameter "T" false [.named "java.lang.Object"]],
        .inner (.parameterized "A" [.typeVariable "T"]) "A$B"
          [.bounded true (.array 1 (.unresolved "U"))], []⟩ :=
    eq_ok_of_toOption (by decide +kernel)
  have hdecode := decode_signatureFile (by decide +kernel) htext hparse
  exact ⟨_, hdecode, rfl, rfl, wellTyped_of_decode hdecode⟩

end ClassCatalog.ClassFile
