import ClassCatalog.Proofs.ClassFile.DescriptorGrammar
import ClassCatalog.Proofs.ClassFile.Tracking
import ClassCatalog.Proofs.Ty.WellFormed

/-! The walks over the bytes of signatures read what the parsers of their characters read, and bind
at once what the parsers leave to be bound in the scope. -/

namespace ClassCatalog.ClassFile

theorem ofLetter?_firstByte (c : Char) :
    Primitive.ofLetter? (Char.ofNat (firstByte c).toNat) = Primitive.ofLetter? c := by
  have hnone : ∀ d : Char, 128 ≤ d.toNat → Primitive.ofLetter? d = none := by
    intro d hd
    cases hletter : Primitive.ofLetter? d with
    | none => rfl
    | some p =>
      rw [← Descriptor.letter_of_ofLetter? hletter] at hd
      exact absurd hd (by cases p <;> decide)
  rcases firstByte_cases c with ⟨hlt, heq⟩ | ⟨hle, hhigh⟩
  · rw [heq, ascii_toNat hlt, Char.ofNat_toNat]
  · have hbyte : (Char.ofNat (firstByte c).toNat).toNat = (firstByte c).toNat := by
      rw [Char.ofNat, dif_pos (Or.inl (Nat.lt_trans (firstByte c).toNat_lt (by decide)))]
      rfl
    rw [hnone c hle, hnone _ (by rw [hbyte]; exact hhigh)]

def ClassSignature.bindIn (scope : List String) (s : ClassSignature String) :
    ClassSignature String where
  typeParameters := Ty.listBindIn scope s.typeParameters
  superclass := s.superclass.bindIn scope
  interfaces := Ty.listBindIn scope s.interfaces

def MethodSignature.bindIn (scope : List String) (s : MethodSignature String) :
    MethodSignature String where
  typeParameters := Ty.listBindIn scope s.typeParameters
  parameters := Ty.listBindIn scope s.parameters
  returnType := s.returnType.bindIn scope
  exceptions := Ty.listBindIn scope s.exceptions

namespace Signature

open Signature.Parser

variable {text : String} {scope : List String}

theorem bindIn_arrayOf (t : Ty String) (n : UInt8) :
    (t.arrayOf n).bindIn scope = (t.bindIn scope).arrayOf n := by
  cases t with
  | unresolved n =>
    by_cases h : n ∈ scope <;> simp [Ty.arrayOf, Ty.bindIn, h]
  | _ => rfl

theorem bindIn_segmentType (outer : Option (Ty String)) (name : String) (ts : List (Ty String)) :
    (segmentType outer name ts).bindIn scope
      = segmentType (outer.map (Ty.bindIn scope)) name (ts.map (Ty.bindIn scope)) := by
  have hplain : (segmentType.plain name ts).bindIn scope
      = segmentType.plain name (ts.map (Ty.bindIn scope)) := by
    rw [segmentType.plain, segmentType.plain, List.isEmpty_map]
    split
    · rfl
    · rw [Ty.bindIn, Ty.listBindIn_eq_map]
  cases outer with
  | none => exact hplain
  | some owner =>
    have hkept : (owner.bindIn scope).isParameterized = owner.isParameterized := by
      rw [Ty.isParameterized, Ty.isParameterized]
      rcases owner.kind_bindIn scope with heq | ⟨hbefore, hafter⟩
      · rw [heq]
      · rw [hbefore, hafter]
        rfl
    rw [segmentType, Option.map_some, segmentType, hkept]
    split
    · rw [Ty.bindIn, Ty.listBindIn_eq_map]
    · exact hplain

theorem tracks_typeVariable :
    Tracks text 1 (Ty.bindIn scope) (Bytewise.typeVariable text scope) typeVariable := by
  intro s hs
  refine (Tracks.expect (by decide) _ s hs).bind hs fun _ u _ _ hu => ?_
  refine (Tracks.identifier (by simp) u hu).bind hu fun name w hname _ hw => ?_
  -- The name ended in front of a semicolon, so the byte that is skipped is the one that is taken.
  obtain ⟨c, hc, hhead⟩ := head?_of_identifier hname
  obtain rfl := List.mem_singleton.1 hc
  obtain ⟨cs, pos⟩ := w
  obtain ⟨rest, rfl⟩ := List.head?_eq_some_iff.1 hhead
  exact .eats (by decide) (.pure (by rw [Ty.bindIn]; rfl))

section

variable {reference : ByteParser (Ty String)} {reference' : Parser (Ty String)}

theorem tracks_typeArgument (href : Tracks text 1 (Ty.bindIn scope) reference reference') :
    Tracks text 1 (Ty.bindIn scope) (Bytewise.typeArgument text reference)
      (typeArgument reference') := by
  rintro ⟨cs, pos⟩ hs
  refine .peeked hs ?_
  cases cs with
  | nil =>
    refine .spares nofun <| .spares nofun <| .spares nofun <| .peeks ?_
    exact .fail _ _ _
  | cons c rest =>
    have hrest : (⟨rest, pos + c.utf8Size⟩ : Scan).In text := hs.taken (.one c rest pos)
    have hhead : ∀ {d : Char}, c ≠ d → (c :: rest).head? ≠ some d :=
      fun hne h => hne (Option.some.inj h)
    have hbound : ∀ up : Bool, TracksAt text 0 (Ty.bindIn scope)
        (do return .bounded up (← reference)) (do return .bounded up (← reference'))
        ⟨rest, pos + c.utf8Size⟩ := fun up =>
      (href.mono (Nat.zero_le 1)).map (fun t => by rw [Ty.bindIn]) _ hrest
    simp (disch := decide) only [List.head?_cons, Option.map_some, firstByte_eq_ascii_iff]
    by_cases hstar : c = '*'
    · subst hstar
      exact .eats (by decide) (.pure rfl)
    rw [if_neg hstar]
    refine .spares (hhead hstar) ?_
    by_cases hplus : c = '+'
    · subst hplus
      exact .eats (by decide) (hbound true)
    refine .spares (hhead hplus) ?_
    by_cases hminus : c = '-'
    · subst hminus
      exact .eats (by decide) (hbound false)
    refine .spares (hhead hminus) ?_
    rw [if_neg (not_or_intro hplus hminus)]
    exact .peeks (href _ hs)

theorem tracks_javaType (href : Tracks text 1 (Ty.bindIn scope) reference reference') :
    Tracks text 1 (Ty.bindIn scope) (Bytewise.javaType text reference) (javaType reference') := by
  rintro ⟨cs, pos⟩ hs
  refine .peeked hs (.peeks ?_)
  cases cs with
  | nil => exact href _ hs
  | cons c rest =>
    simp only [List.head?_cons, Option.map_some, Option.bind_some, ofLetter?_firstByte]
    cases hletter : Primitive.ofLetter? c with
    | none => exact href _ hs
    | some p =>
      obtain rfl := Descriptor.letter_of_ofLetter? hletter
      exact .eats (by cases p <;> decide) (.pure rfl)

end

section

variable {α β : Type} {f : α → β} {item : ByteParser β} {item' : Parser α}

theorem tracks_bracketed (hitem : Tracks text 1 f item item') (empty : SignatureFault) :
    Tracks text 0 (List.map f) (Bytewise.bracketed text item empty) (do
      if ← eat '<' then
        let items ← upTo '>' item'
        if items.isEmpty then Parser.fail empty else return items
      else return []) := by
  refine .eaten (by decide) ?_ (.pure rfl)
  refine (Tracks.upTo (by decide) hitem).bind fun items => ?_
  rw [List.isEmpty_map]
  exact .ite (fun _ => .fail _ empty) fun _ => .pure rfl

end

section

variable {reference : ByteParser (Ty String)} {reference' : Parser (Ty String)}

theorem tracks_typeArguments (href : Tracks text 1 (Ty.bindIn scope) reference reference') :
    Tracks text 0 (List.map (Ty.bindIn scope)) (Bytewise.typeArguments text reference)
      (typeArguments reference') :=
  tracks_bracketed (tracks_typeArgument href) _

theorem Bytewise.segments_eq (text : String) (reference : ByteParser (Ty String))
    (internal : String) (outer : Option (Ty String)) :
    Bytewise.segments text reference (internal, outer) = (do
      let arguments ← Bytewise.typeArguments text reference
      let current := segmentType outer (binaryName internal) arguments
      if ← ByteParser.eat text '.' then
        let simple ← Bytewise.identifier text ['<', '.', ';']
        Bytewise.segments text reference (internal ++ "$" ++ simple, some current)
      else return current) := by
  rw [Bytewise.segments, ByteParser.repeatUntil_eq, bind_assoc]
  refine bind_congr fun arguments => ?_
  refine (bind_assoc _ _ _).trans (bind_congr fun more => ?_)
  cases more with
  | false => exact pure_bind _ _
  | true =>
    refine (bind_assoc _ _ _).trans (bind_congr fun simple => ?_)
    exact pure_bind _ _

theorem tracksAt_segments (href : Tracks text 1 (Ty.bindIn scope) reference reference')
    {fuel : Nat} {s : Scan} (hs : s.In text) (hfuel : s.rest.length < fuel) (internal : String)
    (outer : Option (Ty String)) :
    TracksAt text 0 (Ty.bindIn scope)
      (Bytewise.segments text reference (internal, outer.map (Ty.bindIn scope)))
      (segments reference' fuel internal outer) s := by
  induction fuel generalizing s internal outer with
  | zero => cases hfuel
  | succ fuel ih =>
    rw [Bytewise.segments_eq, segments]
    refine (tracks_typeArguments href s hs).bind hs fun arguments u _ htaken hu => ?_
    rw [← bindIn_segmentType]
    refine .eaten (by decide) hu (fun w hdot hw => ?_) fun _ => .pure rfl
    refine (Tracks.identifier (by simp) w hw).bind hw fun simple x _ hname hx => ?_
    -- Arguments may be none, but the dot and the name behind it take characters.
    have hleft : x.rest.length < fuel := by
      have h₁ := htaken.length_le
      have h₂ := hdot.length_le
      have h₃ := hname.length_le
      omega
    exact ih hx hleft (internal ++ "$" ++ simple) (some _)

theorem tracks_classType (href : Tracks text 1 (Ty.bindIn scope) reference reference') :
    Tracks text 1 (Ty.bindIn scope) (Bytewise.classType text reference) (classType reference') := by
  refine (Tracks.expect (by decide) _).bind fun _ => ?_
  refine (Tracks.identifier (by simp)).bind fun first => ?_
  have hsegments : Tracks text 0 (Ty.bindIn scope) (Bytewise.segments text reference (first, none))
      (do segments reference' ((← get).rest.length + 1) first none) := by
    intro s hs
    have hloop := tracksAt_segments href hs (Nat.lt_succ_self s.rest.length) first none
    exact ⟨hloop.run_eq, hloop.takes⟩
  have hclosed : Tracks text 0 (Ty.bindIn scope)
      (do
        let ty ← Bytewise.segments text reference (first, none)
        Bytewise.expect text ';' .missingSemicolon
        return ty)
      (do
        let ty ← (do segments reference' ((← get).rest.length + 1) first none)
        expect ';' .missingSemicolon
        return ty) :=
    hsegments.bind fun _ => (Tracks.expect (by decide) _).bind fun _ => .pure rfl
  rw [bind_assoc] at hclosed
  exact hclosed

end

theorem tracks_dimensions {count fuel : Nat} (h : count + fuel = 255) :
    Tracks text 0 (count + ·)
      (ByteParser.bracketsFrom text (.invalidSignature text · .tooManyDimensions) count)
      (dimensions fuel) := by
  induction fuel generalizing count with
  | zero =>
    rw [ByteParser.bracketsFrom_eq, dimensions]
    refine .eaten (by decide) ?_ (.pure rfl)
    rw [if_neg (by omega)]
    exact fun s _ => ⟨ByteParser.run_refuse _ _, nofun⟩
  | succ fuel ih =>
    rw [ByteParser.bracketsFrom_eq, dimensions]
    refine .eaten (by decide) (fun s hs => ?_) (.pure rfl)
    have hmore := ih (show count + 1 + fuel = 255 by omega) s hs
    simp only [Nat.add_assoc, Nat.add_comm 1] at hmore
    rw [if_pos (by omega)]
    exact .mapped hmore

theorem tracks_array {component : ByteParser (Ty String)} {component' : Parser (Ty String)}
    (hcomponent : Tracks text 1 (Ty.bindIn scope) component component') :
    Tracks text 1 (Ty.bindIn scope)
      (do
        let count ← ByteParser.brackets text (.invalidSignature text · .tooManyDimensions)
        return (← component).arrayOf (UInt8.ofNat count))
      (do
        let count ← dimensions 255
        return (← component').arrayOf (UInt8.ofNat count)) := by
  refine (tracks_dimensions (Nat.zero_add 255)).bind fun count => ?_
  rw [Nat.zero_add]
  exact hcomponent.map fun t => bindIn_arrayOf t _

theorem tracks_referenceType (levels : Nat) :
    Tracks text 1 (Ty.bindIn scope) (Bytewise.referenceType text scope levels)
      (referenceType levels) := by
  induction levels with
  | zero => exact fun s _ => ⟨ByteParser.run_refuse _ _, nofun⟩
  | succ levels ih =>
    intro s hs
    refine .peeked hs (.peeks ?_)
    simp (disch := decide) only [map_firstByte_eq_iff]
    by_cases hclass : s.rest.head? = some 'L'
    · rw [if_pos hclass, hclass]
      exact tracks_classType ih s hs
    by_cases hvariable : s.rest.head? = some 'T'
    · rw [if_neg hclass, if_pos hvariable, hvariable]
      exact tracks_typeVariable s hs
    by_cases harray : s.rest.head? = some '['
    · rw [if_neg hclass, if_neg hvariable, if_pos harray, harray]
      -- The component may be of any type one level further in.
      exact tracks_array (tracks_javaType ih) s hs
    rw [if_neg hclass, if_neg hvariable, if_neg harray]
    split
    · next h => exact absurd h hclass
    · next h => exact absurd h hvariable
    · next h => exact absurd h harray
    · exact .fail _ _ s

theorem any_firstByte (o : Option Char) :
    ((o.map firstByte).any fun b => b = ascii 'L' ∨ b = ascii 'T' ∨ b = ascii '[')
      = o.any fun c => c = 'L' ∨ c = 'T' ∨ c = '[' := by
  cases o with
  | none => rfl
  | some c => simp (disch := decide) only [Option.map_some, Option.any_some, firstByte_eq_ascii_iff]

theorem tracks_typeParameter {reference : ByteParser (Ty String)} {reference' : Parser (Ty String)}
    (href : Tracks text 1 (Ty.bindIn scope) reference reference') :
    Tracks text 1 (Ty.bindIn scope) (Bytewise.typeParameter text reference)
      (typeParameter reference') := by
  refine (Tracks.identifier (by simp)).bind fun name => ?_
  refine (Tracks.expect (by decide) _).bind fun _ => ?_
  intro s hs
  refine .peeked hs (.peeks ?_)
  rw [any_firstByte]
  generalize (s.rest.head?.any fun c => c = 'L' ∨ c = 'T' ∨ c = '[') = hasClassBound
  have hothers : ∀ bounds : List (Ty String), Tracks text 0 (Ty.bindIn scope)
      (do
        let others ← ByteParser.whileDo (ByteParser.eat text ':') reference
        return .typeParameter name (!hasClassBound) (bounds.map (Ty.bindIn scope) ++ others))
      (do
        let others ← repeatWhile (eat ':') reference'
        return .typeParameter name (!hasClassBound) (bounds ++ others)) := by
    intro bounds
    refine (Tracks.repeatWhile (.eat (by decide)) href).map fun others => ?_
    rw [Ty.bindIn, Ty.listBindIn_eq_map, List.map_append]
  have hbound : Tracks text 0 (List.map (Ty.bindIn scope)) (List.singleton <$> reference)
      (List.singleton <$> reference') := by
    rw [← bind_pure_comp, ← bind_pure_comp]
    exact (href.mono (Nat.zero_le 1)).map fun _ => rfl
  have hnone : Tracks text 0 (List.map (Ty.bindIn scope)) (pure []) (pure []) := .pure rfl
  cases hasClassBound with
  | true => exact (hbound.bind hothers) s hs
  | false => exact (hnone.bind hothers) s hs

theorem tracks_typeParameters {reference : ByteParser (Ty String)} {reference' : Parser (Ty String)}
    (href : Tracks text 1 (Ty.bindIn scope) reference reference') :
    Tracks text 0 (List.map (Ty.bindIn scope)) (Bytewise.typeParameters text reference)
      (typeParameters reference') :=
  tracks_bracketed (tracks_typeParameter href) _

theorem tracks_reference :
    Tracks text 1 (Ty.bindIn scope) (Bytewise.anyReference text scope) reference :=
  tracks_referenceType _

section

variable {α β : Type} {f : α → β} {item : ByteParser β} {item' : Parser α}

theorem tracksAt_parametersFrom (hitem : Tracks text 1 f item item') {fuel : Nat} {s : Scan}
    (hs : s.In text) (hfuel : s.rest.length < fuel) (items : List β) :
    TracksAt text 0 (fun as => items ++ as.map f) (Bytewise.parametersFrom text item items)
      (whileFuel (do return !(← eat ')')) item' fuel) s := by
  have hclose : ')'.toNat < 128 := by decide
  induction fuel generalizing s items with
  | zero => cases hfuel
  | succ fuel ih =>
    rw [Bytewise.parametersFrom, ByteParser.collect_eq, whileFuel]
    simp only [bind_assoc, pure_bind]
    refine .peeked hs ?_
    by_cases hhead : s.rest.head? = some ')'
    -- The loop ends in front of the parenthesis, so the test behind it finds one.
    · simp only [(map_firstByte_eq_iff hclose).2 hhead, ne_eq, not_true_eq_false, decide_false,
        Bool.false_eq_true, if_false, pure_bind]
      exact .eaten hclose hs (fun _ _ _ => .pure (List.append_nil items)) fun hne =>
        absurd hhead hne
    · simp only [mt (map_firstByte_eq_iff hclose).1 hhead, ne_eq, not_false_eq_true, decide_true,
        if_true, bind_assoc]
      refine .spares hhead ?_
      refine (hitem s hs).bind hs fun a u _ htaken hu => ?_
      have hleft : u.rest.length < fuel := by
        have hlength := htaken.length_le
        omega
      have hmore := ih hu hleft (items ++ [f a])
      simp only [List.append_assoc, List.singleton_append] at hmore
      exact .mapped hmore

theorem tracks_parameters (hitem : Tracks text 1 f item item') :
    Tracks text 0 (List.map f) (Bytewise.parametersFrom text item []) (upTo ')' item') := by
  intro s hs
  have hloop := tracksAt_parametersFrom hitem hs (Nat.lt_succ_self s.rest.length) []
  exact ⟨hloop.run_eq, hloop.takes⟩

end

theorem tracks_classBody :
    Tracks text 0 (ClassSignature.bindIn scope) (Bytewise.classBody text scope) classBody := by
  refine (tracks_typeParameters tracks_reference).bind fun parameters => ?_
  refine (tracks_classType tracks_reference).bind fun superclass => ?_
  have hmore : Tracks text 0 id (do return !(← ByteParser.atEnd text)) (do return !(← atEnd)) :=
    Tracks.atEnd.map fun _ => rfl
  refine (Tracks.repeatWhile hmore (tracks_classType tracks_reference)).map fun interfaces => ?_
  rw [ClassSignature.bindIn, Ty.listBindIn_eq_map, Ty.listBindIn_eq_map]

theorem tracks_methodBody :
    Tracks text 0 (MethodSignature.bindIn scope) (Bytewise.methodBody text scope) methodBody := by
  refine (tracks_typeParameters tracks_reference).bind fun typeParameters => ?_
  refine (Tracks.expect (by decide) _).bind fun _ => ?_
  refine (tracks_parameters (tracks_javaType tracks_reference)).bind fun parameters => ?_
  have hthrown : Tracks text 1 (Ty.bindIn scope)
      (do
        if (← ByteParser.peek text) = some (ascii 'T') then Bytewise.typeVariable text scope
        else Bytewise.classType text (Bytewise.anyReference text scope))
      (do if (← peek) = some 'T' then typeVariable else classType reference) := by
    intro s hs
    refine .peeked hs (.peeks ?_)
    simp (disch := decide) only [map_firstByte_eq_iff]
    have hclass : Tracks text 1 (Ty.bindIn scope) _ _ := tracks_classType tracks_reference
    exact Tracks.ite (fun _ => tracks_typeVariable) (fun _ => hclass) s hs
  have hend : ∀ returnType : Ty String, Tracks text 0 (MethodSignature.bindIn scope)
      (do
        let exceptions ← ByteParser.whileDo (ByteParser.eat text '^') do
          if (← ByteParser.peek text) = some (ascii 'T') then Bytewise.typeVariable text scope
          else Bytewise.classType text (Bytewise.anyReference text scope)
        Bytewise.finish text
        return ⟨typeParameters.map (Ty.bindIn scope), parameters.map (Ty.bindIn scope),
          returnType.bindIn scope, exceptions⟩)
      (do
        let exceptions ← repeatWhile (eat '^') do
          if (← peek) = some 'T' then typeVariable else classType reference
        finish
        return ⟨typeParameters, parameters, returnType, exceptions⟩) := by
    intro returnType
    refine (Tracks.repeatWhile (.eat (by decide)) hthrown).bind fun exceptions => ?_
    refine Tracks.finish.bind fun _ => .pure ?_
    rw [MethodSignature.bindIn, Ty.listBindIn_eq_map, Ty.listBindIn_eq_map, Ty.listBindIn_eq_map]
  have hvoid : Tracks text 0 (Ty.bindIn scope) (pure .void) (pure .void) := .pure rfl
  exact .eaten (by decide) (hvoid.bind hend)
    ((tracks_javaType tracks_reference).bind fun t => hend t)

theorem tracks_fieldBody :
    Tracks text 0 (Ty.bindIn scope) (Bytewise.fieldBody text scope) fieldBody :=
  tracks_reference.bind fun _ => Tracks.finish.bind fun _ => .pure rfl

section

variable {α β : Type} {n : Nat} {f : α → β} {p : ByteParser β} {q : Parser α}

theorem run_eq_map (q : Parser α) (text : String) :
    run q text = ((q.run ⟨text.toList, 0⟩).map Prod.fst).mapError (Fault.error text) := by
  rw [run]
  rcases q.run ⟨text.toList, 0⟩ with (_ | _) | ⟨_, _⟩ <;> rfl

theorem image_map_fst (r : Except Fault (α × Scan)) :
    (image text f r).map Prod.fst
      = (((r.map Prod.fst).mapError (Fault.error text)).map f).mapError Stop.fault := by
  rcases r with _ | ⟨_, _⟩ <;> rfl

theorem run'_of_tracks (h : Tracks text n f p q) :
    (p.run' 0).run = .some (((run q text).map f).mapError .fault) := by
  have hrun := (h ⟨text.toList, 0⟩ (stands_start text)).run_eq
  rw [run_eq_map, ← image_map_fst, StateT.run'_eq, ExceptT.run_map]
  exact (congrArg (Part.map (Except.map Prod.fst)) hrun).trans (Part.map_some _ _)

end

section

variable {α β : Type} {q : Parser α} {k : α → Parser β}

theorem run_bind_of_run_error {e : DecodeError} (h : run q text = .error e) :
    run (q >>= k) text = .error e := by
  rw [run_eq_map] at h ⊢
  rw [StateT.run_bind]
  cases hq : q.run ⟨text.toList, 0⟩ with
  | error e' =>
    rw [hq] at h
    cases h
    rfl
  | ok r =>
    rw [hq] at h
    cases h

theorem exists_of_run_bind {b : β} (h : run (q >>= k) text = .ok b) :
    ∃ a s u, run q text = .ok a ∧ (k a).run s = .ok (b, u) := by
  rw [run_eq_map, StateT.run_bind] at h
  cases hq : q.run ⟨text.toList, 0⟩ with
  | error e =>
    rw [hq] at h
    cases h
  | ok r =>
    obtain ⟨a, s⟩ := r
    rw [hq] at h
    change (((k a).run s).map Prod.fst).mapError (Fault.error text) = .ok b at h
    cases hk : (k a).run s with
    | error e =>
      rw [hk] at h
      cases h
    | ok r =>
      obtain ⟨b', u⟩ := r
      rw [hk] at h
      cases h
      exact ⟨a, s, u, by rw [run_eq_map, hq]; rfl, hk⟩

end

theorem declared_eq : (Bytewise.declared text).run
    = .some (((run (typeParameters reference) text).map Ty.declaredNames).mapError .fault) := by
  have hfirst : Tracks text 0 (List.map (Ty.bindIn []))
      (Bytewise.typeParameters text (Bytewise.anyReference text [])) (typeParameters reference) :=
    tracks_typeParameters tracks_reference
  have hread := run'_of_tracks hfirst
  cases hrun : run (typeParameters reference) text with
  | error e =>
    rw [hrun] at hread
    exact run_bind_of_some_error hread
  | ok ts =>
    rw [hrun] at hread
    rw [Bytewise.declared, run_bind_of_some_ok hread, ← Ty.listBindIn_eq_map,
      Ty.declaredNames_bindIn]
    rfl

/-- A signature that begins with its type parameters is read twice, the first time for their
names. -/
theorem run_declaring {α β : Type} {f : List String → α → β} (body : List String → ByteParser β)
    {rest : List (Ty String) → Parser α} (parameters : α → List (Ty String))
    (hbody : ∀ names, Tracks text 0 (f names) (body names) (typeParameters reference >>= rest))
    (hrest : ∀ ts, Yields (rest ts) fun a => parameters a = ts) :
    ((do (body (← Bytewise.declared text)).run' 0 : ExceptT Stop Part β)).run
      = .some (((run (typeParameters reference >>= rest) text).map fun a =>
        f (Ty.declaredNames (parameters a)) a).mapError .fault) := by
  have hnames : (Bytewise.declared text).run = _ := declared_eq
  cases hts : run (typeParameters reference) text with
  | error e =>
    rw [hts] at hnames
    rw [run_bind_of_run_error hts]
    exact run_bind_of_some_error hnames
  | ok ts =>
    rw [hts] at hnames
    -- The second reading finds the type parameters of the first one, whatever its scope.
    refine (run_bind_of_some_ok hnames).trans ?_
    rw [run'_of_tracks (hbody (Ty.declaredNames ts))]
    cases hall : run (typeParameters reference >>= rest) text with
    | error e => rfl
    | ok a =>
      obtain ⟨ts', s, u, hts', hrun⟩ := exists_of_run_bind hall
      rw [hts] at hts'
      cases hts'
      rw [Except.map, Except.map, hrest ts s a u hrun]

theorem parseClass_eq :
    (Bytewise.parseClass text).run = .some ((parseClass text).mapError .fault) := by
  refine (run_declaring (Bytewise.classBody text) ClassSignature.typeParameters
    (fun _ => tracks_classBody) fun ts => ?_).trans ?_
  · exact .after fun _ => .after fun _ => .pure rfl
  · rfl

theorem parseMethod_eq : (Bytewise.parseMethod text scope).run
    = .some ((parseMethod scope text).mapError .fault) := by
  refine (run_declaring (fun names => Bytewise.methodBody text (names ++ scope))
    MethodSignature.typeParameters (fun _ => tracks_methodBody) fun ts => ?_).trans ?_
  · refine .after fun _ => .after fun _ => .after fun _ => ?_
    refine .ite (fun _ => ?_) fun _ => ?_
    all_goals exact .after fun _ => .after fun _ => .after fun _ => .pure rfl
  · rfl

theorem parseField_eq : (Bytewise.parseField text scope).run
    = .some ((parseField scope text).mapError .fault) :=
  run'_of_tracks tracks_fieldBody

end Signature

end ClassCatalog.ClassFile
