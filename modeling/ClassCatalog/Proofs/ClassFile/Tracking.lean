import ClassCatalog.Proofs.ClassFile.ByteParsing
import ClassCatalog.Proofs.ClassFile.SignatureRuns

/-! A walk over the bytes of a text goes along with a parser of its characters: it comes to the
same result, at the position of the characters that are left. Both then go forward only. -/

namespace ClassCatalog.ClassFile

variable {α β γ δ : Type}

section

variable {x : ExceptT Stop Part α} {k : α → ExceptT Stop Part β} {a : α} {e : Stop}

theorem run_bind_of_some_ok (h : x.run = .some (.ok a)) : (x >>= k).run = (k a).run := by
  rw [ExceptT.run_bind, h]
  exact Part.bind_some _ _

theorem run_bind_of_some_error (h : x.run = .some (.error e)) :
    (x >>= k).run = .some (.error e) := by
  rw [ExceptT.run_bind, h]
  exact Part.bind_some _ _

end

namespace ByteParser

variable {p : ByteParser α} {k : α → ByteParser β} {pos pos' : Nat} {a : α} {e : Stop}

theorem run_bind_of_value (h : (p.run pos).run = .some (.ok (a, pos'))) :
    ((p >>= k).run pos).run = ((k a).run pos').run := by
  rw [StateT.run_bind]
  exact run_bind_of_some_ok h

theorem run_bind_of_stop (h : (p.run pos).run = .some (.error e)) :
    ((p >>= k).run pos).run = .some (.error e) := by
  rw [StateT.run_bind]
  exact run_bind_of_some_error h

theorem run_throw (e : Stop) (pos : Nat) :
    (((throw e : ByteParser α)).run pos).run = .some (.error e) :=
  Part.bind_some _ _

theorem run_get (pos : Nat) : ((get : ByteParser Nat).run pos).run = .some (.ok (pos, pos)) := rfl

theorem run_set (pos pos' : Nat) :
    ((set pos' : ByteParser Unit).run pos).run = .some (.ok ((), pos')) := rfl

theorem run_skip (pos : Nat) : (skip.run pos).run = .some (.ok ((), pos + 1)) := rfl

theorem run_refuse (error : Nat → DecodeError) (pos : Nat) :
    ((refuse error : ByteParser α).run pos).run = .some (.error (.fault (error pos))) :=
  (run_bind_of_value (run_get pos)).trans (run_throw _ pos)

theorem refuse_bind (error : Nat → DecodeError) (k : α → ByteParser β) :
    refuse error >>= k = refuse error :=
  funext fun pos => (run_bind_of_stop (run_refuse error pos)).trans (run_refuse error pos).symm

theorem run_peek (text : String) (pos : Nat) :
    ((peek text).run pos).run = .some (.ok ((utf8 text)[pos]?, pos)) :=
  run_bind_of_value (run_get pos)

theorem run_peek_bind {text : String} {cs : List Char} (h : Stands text cs pos)
    (k : Option UInt8 → ByteParser β) :
    ((peek text >>= k).run pos).run = ((k (cs.head?.map firstByte)).run pos).run := by
  rw [run_bind_of_value (run_peek text pos), h.getElem?_utf8]

theorem run_restBytes {text : String} {cs : List Char} (h : Stands text cs pos) :
    ((restBytes text).run pos).run = .some (.ok (encode cs, pos)) := by
  rw [restBytes, run_bind_of_value (run_get pos), if_pos h.le_length, h.drop_utf8]
  rfl

theorem run_slice {text : String} {name rest : List Char} {start : Nat}
    (h : Stands text (name ++ rest) start) (pos : Nat) :
    ((slice text start (start + (encode name).length)).run pos).run
      = .some (.ok (String.ofList name, pos)) := by
  have hpart : ((utf8 text).take (start + (encode name).length)).drop start
      = (String.ofList name).toUTF8.data.toList := by
    rw [List.drop_take, Nat.add_sub_cancel_left, h.drop_utf8, encode_append, List.take_left]
    exact (utf8_ofList name).symm
  rw [slice, if_pos ⟨h.isBoundary, (h.step rfl).isBoundary⟩, hpart, fromUTF8?_toUTF8]
  rfl

theorem eat_bind (text : String) (c : Char) (k : Bool → ByteParser β) :
    eat text c >>= k = (do
      if (← peek text) = some (ascii c) then
        skip
        k true
      else k false) := by
  rw [eat, bind_assoc]
  congr 1
  funext next
  split
  · rw [bind_assoc]
    exact bind_congr fun _ => pure_bind true k
  · exact pure_bind false k

theorem repeatUntil_eq (round : β → ByteParser (α ⊕ β)) (b : β) :
    repeatUntil round b = round b >>= Sum.elim pure (repeatUntil round) := by
  funext pos
  refine (loop_eq _ (b, pos)).trans ?_
  show (((round b).run pos).run.map next).bind _ = ((round b).run pos).run.bind _
  rw [Part.bind_map]
  congr 1
  funext r
  rcases r with e | ⟨x | y, pos'⟩ <;> rfl

theorem collect_eq (again : ByteParser Bool) (item : ByteParser α) (items : List α) :
    collect again item items = (do
      if ← again then
        let a ← item
        collect again item (items ++ [a])
      else return items) := by
  rw [collect, repeatUntil_eq, bind_assoc]
  refine bind_congr fun more => ?_
  cases more with
  | false => exact pure_bind _ _
  | true =>
    refine (bind_assoc item _ _).trans (bind_congr fun a => ?_)
    exact pure_bind _ _

theorem bracketsFrom_eq (text : String) (tooMany : Nat → DecodeError) (count : Nat) :
    bracketsFrom text tooMany count = (do
      if ← eat text '[' then
        if count < 255 then bracketsFrom text tooMany (count + 1) else refuse tooMany
      else return count) := by
  rw [bracketsFrom, repeatUntil_eq, bind_assoc]
  refine bind_congr fun more => ?_
  cases more with
  | false => exact pure_bind _ _
  | true =>
    simp only [if_true]
    split
    · exact pure_bind _ _
    · exact refuse_bind tooMany _

end ByteParser

theorem bind_decided {m : Type → Type} [Monad m] [LawfulMonad m] (p : m Bool) :
    (do if ← p then return true else return false) = p := by
  have hsame : (fun b => if b = true then (Pure.pure true : m Bool) else Pure.pure false)
      = Pure.pure := by
    funext b
    cases b <;> rfl
  rw [hsame, bind_pure]

namespace Signature

open Signature.Parser

def Taken (least : Nat) (s s' : Scan) : Prop :=
  ∃ taken, s.rest = taken ++ s'.rest ∧ s'.offset = s.offset + (encode taken).length
    ∧ least ≤ taken.length

namespace Taken

variable {m n : Nat} {s u w : Scan}

theorem refl (s : Scan) : Taken 0 s s := ⟨[], rfl, rfl, Nat.le_refl 0⟩

theorem trans (h : Taken m s u) (h' : Taken n u w) : Taken (m + n) s w := by
  obtain ⟨front, hrest, hoffset, hm⟩ := h
  obtain ⟨back, hrest', hoffset', hn⟩ := h'
  refine ⟨front ++ back, ?_, ?_, ?_⟩
  · rw [hrest, hrest', List.append_assoc]
  · rw [hoffset', hoffset, encode_append, List.length_append, Nat.add_assoc]
  · rw [List.length_append]
    omega

theorem mono (h : Taken m s u) (hle : n ≤ m) : Taken n s u := by
  obtain ⟨front, hrest, hoffset, hm⟩ := h
  exact ⟨front, hrest, hoffset, Nat.le_trans hle hm⟩

theorem one (c : Char) (rest : List Char) (offset : Nat) :
    Taken 1 ⟨c :: rest, offset⟩ ⟨rest, offset + c.utf8Size⟩ :=
  ⟨[c], rfl, by rw [length_encode_singleton], Nat.le_refl 1⟩

theorem length_le (h : Taken m s u) : u.rest.length + m ≤ s.rest.length := by
  obtain ⟨front, hrest, _, hm⟩ := h
  rw [hrest, List.length_append]
  omega

theorem lt_offset (h : Taken 1 s u) : s.offset < u.offset := by
  obtain ⟨front, _, hoffset, hone⟩ := h
  have hpos := length_encode_pos (List.ne_nil_of_length_pos hone)
  omega

end Taken

/-- The characters that a scan has left end the text, and its offset is where they begin. -/
def Scan.In (s : Scan) (text : String) : Prop := Stands text s.rest s.offset

theorem Scan.In.taken {text : String} {n : Nat} {s u : Scan} (h : s.In text)
    (htaken : Taken n s u) : u.In text := by
  obtain ⟨front, hrest, hoffset, _⟩ := htaken
  have hstep := h.step hrest
  rwa [← hoffset] at hstep

def Fault.error (text : String) : Fault → DecodeError
  | .at position fault => .invalidSignature text position fault
  | .tooDeep => .nestingTooDeep .signature

def image (text : String) (f : α → β) : Except Fault (α × Scan) → Except Stop (β × Nat)
  | .ok (a, s) => .ok (f a, s.offset)
  | .error e => .error (.fault (e.error text))

/-- From a scan `p` comes to what `q` comes to, with `f` of its result, and has then taken so many
characters at least. -/
structure TracksAt (text : String) (least : Nat) (f : α → β) (p : ByteParser β) (q : Parser α)
    (s : Scan) : Prop where
  run_eq : (p.run s.offset).run = .some (image text f (q.run s))
  takes : ∀ a u, q.run s = .ok (a, u) → Taken least s u

def Tracks (text : String) (least : Nat) (f : α → β) (p : ByteParser β) (q : Parser α) : Prop :=
  ∀ s, s.In text → TracksAt text least f p q s

variable {text : String} {m n : Nat}

theorem run_eat_not {c : Char} {s : Scan} (h : s.rest.head? ≠ some c) :
    (eat c).run s = .ok (false, s) := by
  obtain ⟨rest, offset⟩ := s
  cases rest with
  | nil => rfl
  | cons d rest => exact run_eat_of_ne (fun hd => h (congrArg some hd)) rest offset

theorem exists_cut (stops cs : List Char) : ∃ name rest, cs = name ++ rest
    ∧ (∀ c ∈ name, c ∉ stops) ∧ ∀ c ∈ rest.head?, c ∈ stops := by
  refine ⟨cs.takeWhile (!stops.contains ·), cs.dropWhile (!stops.contains ·),
    List.takeWhile_append_dropWhile.symm, ?_, ?_⟩
  · intro c hc
    simpa using List.all_eq_true.1 List.all_takeWhile c hc
  · intro c hc
    have hhead := List.head?_dropWhile_not (!stops.contains ·) cs
    rw [Option.mem_def.1 hc] at hhead
    simpa using hhead

section

variable {stops name rest : List Char}

theorem run_identifier (hname : ∀ c ∈ name, c ∉ stops)
    (hrest : ∀ c ∈ rest.head?, c ∈ stops) (pos : Nat) :
    (Parser.identifier stops).run ⟨name ++ rest, pos⟩
      = if rest = [] then .error (.at pos .unterminatedIdentifier)
        else if name = [] then .error (.at pos .emptyIdentifier)
        else .ok (String.ofList name, ⟨rest, pos + (encode name).length⟩) := by
  have hcut : (name ++ rest).takeWhile (!stops.contains ·) = name
      ∧ (name ++ rest).dropWhile (!stops.contains ·) = rest :=
    Text.cut_append (by simpa using hname) (by simpa using hrest)
  rw [Parser.identifier, run_bind_of_ok (run_get _), length_encode]
  simp only [hcut]
  cases rest with
  | nil => rfl
  | cons c rest =>
    simp only [List.isEmpty_iff, reduceCtorEq, if_false]
    split <;> rfl

theorem head?_of_identifier {s u : Scan} {a : String}
    (h : (Parser.identifier stops).run s = .ok (a, u)) : ∃ c ∈ stops, u.rest.head? = some c := by
  obtain ⟨cs, pos⟩ := s
  obtain ⟨name, rest, rfl, hname, hrest⟩ := exists_cut stops cs
  rw [run_identifier hname hrest] at h
  split at h
  · cases h
  · next hne =>
    split at h
    · cases h
    · cases h
      obtain ⟨c, tail, rfl⟩ := List.exists_cons_of_ne_nil hne
      exact ⟨c, hrest c rfl, rfl⟩

theorem run_bytewise_identifier (hstops : ∀ c ∈ stops, c.toNat < 128)
    (hname : ∀ c ∈ name, c ∉ stops) (hrest : ∀ c ∈ rest.head?, c ∈ stops) {pos : Nat}
    (hs : Stands text (name ++ rest) pos) :
    ((Bytewise.identifier text stops).run pos).run
      = .some (
        if rest = [] then .error (.fault (.invalidSignature text pos .unterminatedIdentifier))
        else if name = [] then .error (.fault (.invalidSignature text pos .emptyIdentifier))
        else .ok (String.ofList name, pos + (encode name).length)) := by
  have hwalk : ((Bytewise.identifier text stops).run pos).run
      = ((Bytewise.upToStop text pos
        (if rest = [] then none else some (encode name).length)).run pos).run := by
    rw [← findIdx?_encode hstops hname hrest]
    refine (ByteParser.run_bind_of_value (ByteParser.run_get pos)).trans ?_
    exact ByteParser.run_bind_of_value (ByteParser.run_restBytes hs)
  rw [hwalk]
  by_cases hnil : rest = []
  · simp only [hnil, if_true]
    exact ByteParser.run_refuse _ pos
  simp only [hnil, if_false]
  by_cases hempty : name = []
  · simp only [hempty, if_true]
    exact ByteParser.run_refuse _ pos
  · have hslice := ByteParser.run_slice hs (pos + (encode name).length)
    rw [if_neg hempty]
    obtain ⟨k, hk⟩ := Nat.exists_eq_add_one.2 (length_encode_pos hempty)
    rw [hk] at hslice ⊢
    exact (ByteParser.run_bind_of_value (ByteParser.run_set pos (pos + (k + 1)))).trans hslice

end

namespace TracksAt

variable {f : α → β} {g : γ → δ} {p : ByteParser β} {q : Parser α} {s : Scan}

theorem mono (h : TracksAt text m f p q s) (hle : n ≤ m) : TracksAt text n f p q s :=
  ⟨h.run_eq, fun a u hrun => (h.takes a u hrun).mono hle⟩

theorem pure {a : α} {b : β} (h : f a = b) : TracksAt text 0 f (Pure.pure b) (Pure.pure a) s := by
  refine ⟨by rw [← h]; rfl, fun a' u hrun => ?_⟩
  cases hrun
  exact .refl s

theorem bind {k : β → ByteParser δ} {k' : α → Parser γ} (hs : s.In text)
    (hp : TracksAt text m f p q s)
    (hk : ∀ a u, q.run s = .ok (a, u) → Taken m s u → u.In text
      → TracksAt text (n - m) g (k (f a)) (k' a) u) :
    TracksAt text n g (p >>= k) (q >>= k') s := by
  obtain ⟨hrun, htakes⟩ := hp
  constructor
  · rw [StateT.run_bind q]
    cases hq : q.run s with
    | error e =>
      rw [hq] at hrun
      exact ByteParser.run_bind_of_stop hrun
    | ok r =>
      rw [hq] at hrun
      have htaken := htakes r.1 r.2 hq
      have hsecond := hk r.1 r.2 hq htaken (hs.taken htaken)
      rw [ByteParser.run_bind_of_value hrun, hsecond.run_eq]
      rfl
  · intro c w hw
    rw [StateT.run_bind] at hw
    obtain ⟨⟨a, u⟩, hfirst, hsecond⟩ := bind_eq_ok hw
    have htaken := htakes a u hfirst
    have hmore := (hk a u hfirst htaken (hs.taken htaken)).takes c w hsecond
    exact (htaken.trans hmore).mono (by omega)

theorem mapped {h : α → γ} {g : γ → β} (hpq : TracksAt text n (fun a => g (h a)) p q s) :
    TracksAt text n g p (do return h (← q)) s := by
  have hrun : (do return h (← q) : Parser γ).run s = (q.run s).map fun r => (h r.1, r.2) := by
    rw [StateT.run_bind]
    cases q.run s <;> rfl
  constructor
  · rw [hpq.run_eq, hrun]
    cases q.run s <;> rfl
  · intro c u hu
    rw [hrun] at hu
    cases hq : q.run s with
    | error e =>
      rw [hq] at hu
      cases hu
    | ok r =>
      rw [hq] at hu
      cases hu
      exact hpq.takes r.1 r.2 hq

theorem fail (f : α → β) (fault : SignatureFault) (s : Scan) :
    TracksAt text n f (Bytewise.fail text fault) (Parser.fail fault) s :=
  ⟨ByteParser.run_refuse _ _, nofun⟩

theorem peeked {k : Option UInt8 → ByteParser β} (hs : s.In text)
    (h : TracksAt text n f (k (s.rest.head?.map firstByte)) q s) :
    TracksAt text n f (ByteParser.peek text >>= k) q s := by
  refine ⟨?_, h.takes⟩
  rw [ByteParser.run_peek_bind hs, h.run_eq]

theorem peeks {k : Option Char → Parser α} (h : TracksAt text n f p (k s.rest.head?) s) :
    TracksAt text n f p (Parser.peek >>= k) s :=
  ⟨h.run_eq, h.takes⟩

theorem eats {c : Char} {rest : List Char} {offset : Nat} {k : Bool → Parser α}
    (hc : c.toNat < 128) (h : TracksAt text (n - 1) f p (k true) ⟨rest, offset + c.utf8Size⟩) :
    TracksAt text n f (ByteParser.skip >>= fun _ => p) (Parser.eat c >>= k)
      ⟨c :: rest, offset⟩ := by
  have hrun : (Parser.eat c >>= k).run ⟨c :: rest, offset⟩
      = (k true).run ⟨rest, offset + c.utf8Size⟩ := run_bind_of_ok (run_eat_self c rest offset)
  constructor
  · rw [ByteParser.run_bind_of_value (ByteParser.run_skip offset), hrun, ← h.run_eq,
      utf8Size_of_lt hc]
  · intro a u hu
    rw [hrun] at hu
    exact ((Taken.one c rest offset).trans (h.takes a u hu)).mono (by omega)

theorem spares {c : Char} {k : Bool → Parser α} (hc : s.rest.head? ≠ some c)
    (h : TracksAt text n f p (k false) s) : TracksAt text n f p (Parser.eat c >>= k) s := by
  have hrun : (Parser.eat c >>= k).run s = (k false).run s := run_bind_of_ok (run_eat_not hc)
  exact ⟨by rw [hrun, h.run_eq], by rw [hrun]; exact h.takes⟩

theorem eaten {c : Char} {k : Bool → ByteParser β} {k' : Bool → Parser α} (hc : c.toNat < 128)
    (hs : s.In text)
    (htrue : ∀ u, Taken 1 s u → u.In text → TracksAt text (n - 1) f (k true) (k' true) u)
    (hfalse : s.rest.head? ≠ some c → TracksAt text n f (k false) (k' false) s) :
    TracksAt text n f (ByteParser.eat text c >>= k) (Parser.eat c >>= k') s := by
  rw [ByteParser.eat_bind]
  refine peeked hs ?_
  by_cases hhead : s.rest.head? = some c
  · rw [if_pos ((map_firstByte_eq_iff hc).2 hhead)]
    obtain ⟨cs, offset⟩ := s
    obtain ⟨rest, rfl⟩ := List.head?_eq_some_iff.1 hhead
    have htaken := Taken.one c rest offset
    exact eats hc (htrue _ htaken (hs.taken htaken))
  · rw [if_neg (mt (map_firstByte_eq_iff hc).1 hhead)]
    exact spares hhead (hfalse hhead)

end TracksAt

namespace Tracks

variable {f : α → β} {g : γ → δ} {p p' : ByteParser β} {q q' : Parser α} {c : Char}

theorem mono (h : Tracks text m f p q) (hle : n ≤ m) : Tracks text n f p q :=
  fun s hs => (h s hs).mono hle

theorem pure {a : α} {b : β} (h : f a = b) : Tracks text 0 f (Pure.pure b) (Pure.pure a) :=
  fun _ _ => .pure h

theorem bind {k : β → ByteParser δ} {k' : α → Parser γ} (hp : Tracks text m f p q)
    (hk : ∀ a, Tracks text (n - m) g (k (f a)) (k' a)) :
    Tracks text n g (p >>= k) (q >>= k') :=
  fun s hs => (hp s hs).bind hs fun a u _ _ hu => hk a u hu

theorem map {h : β → δ} {h' : α → γ} (hp : Tracks text n f p q) (heq : ∀ a, g (h' a) = h (f a)) :
    Tracks text n g (do return h (← p)) (do return h' (← q)) := by
  refine hp.bind fun a => ?_
  rw [Nat.sub_self]
  exact pure (heq a)

theorem ite {b : Prop} [Decidable b] (hp : b → Tracks text n f p q)
    (hp' : ¬ b → Tracks text n f p' q') :
    Tracks text n f (if b then p else p') (if b then q else q') := by
  split
  · next h => exact hp h
  · next h => exact hp' h

theorem fail (f : α → β) (fault : SignatureFault) :
    Tracks text n f (Bytewise.fail text fault) (Parser.fail fault) :=
  fun s _ => .fail f fault s

theorem eaten (hc : c.toNat < 128) (hp : Tracks text (n - 1) f p q)
    (hp' : Tracks text n f p' q') :
    Tracks text n f (do if ← ByteParser.eat text c then p else p')
      (do if ← Parser.eat c then q else q') :=
  fun s hs => .eaten hc hs (fun u _ hu => hp u hu) fun _ => hp' s hs

theorem eat (hc : c.toNat < 128) : Tracks text 0 id (ByteParser.eat text c) (Parser.eat c) := by
  rw [← bind_decided (ByteParser.eat text c), ← bind_decided (Parser.eat c)]
  exact eaten hc (pure rfl) (pure rfl)

theorem expect (hc : c.toNat < 128) (fault : SignatureFault) :
    Tracks text 1 id (Bytewise.expect text c fault) (Parser.expect c fault) :=
  eaten hc (pure rfl) (fail id fault)

theorem atEnd : Tracks text 0 id (ByteParser.atEnd text) Parser.atEnd := by
  intro s hs
  constructor
  · have hend : decide ((utf8 text).length ≤ s.offset) = s.rest.isEmpty := by
      rw [Bool.eq_iff_iff, decide_eq_true_iff, List.isEmpty_iff]
      exact hs.eq_nil_iff.symm
    refine (ByteParser.run_bind_of_value (ByteParser.run_get s.offset)).trans ?_
    rw [hend]
    rfl
  · intro a u hu
    cases hu
    exact .refl s

theorem finish : Tracks text 0 id (Bytewise.finish text) Parser.finish :=
  atEnd.bind fun _ => ite (fun _ => pure rfl) fun _ => fail id .trailing

theorem identifier {stops : List Char} (hstops : ∀ c ∈ stops, c.toNat < 128) :
    Tracks text 1 id (Bytewise.identifier text stops) (Parser.identifier stops) := by
  rintro ⟨cs, pos⟩ hs
  obtain ⟨name, rest, rfl, hname, hrest⟩ := exists_cut stops cs
  have hwalk := run_bytewise_identifier hstops hname hrest hs
  have hrun := run_identifier hname hrest pos
  constructor
  · rw [hwalk, hrun]
    split
    · rfl
    · split <;> rfl
  · intro a u hu
    rw [hrun] at hu
    split at hu
    · cases hu
    · split at hu
      · cases hu
      · next hempty =>
        cases hu
        exact ⟨name, rfl, rfl, List.length_pos_iff.2 hempty⟩

/-- A loop that ends only where its test says so goes on as often as the one that counts down:
the fuel is more than the characters left, and each item takes one. -/
theorem collect {again : ByteParser Bool} {again' : Parser Bool}
    (hagain : Tracks text 0 id again again') (hitem : Tracks text 1 f p q) {fuel : Nat}
    {s : Scan} (hs : s.In text) (hfuel : s.rest.length < fuel) (items : List β) :
    TracksAt text 0 (fun as => items ++ as.map f) (ByteParser.collect again p items)
      (whileFuel again' q fuel) s := by
  -- Both loops do the same round; the items that were read before go to the front of the list.
  induction fuel generalizing s items with
  | zero => cases hfuel
  | succ fuel ih =>
    rw [ByteParser.collect_eq, whileFuel]
    refine (hagain s hs).bind hs fun more u _ hmore hu => ?_
    cases more with
    | false => exact .pure (List.append_nil items)
    | true =>
      refine (hitem u hu).bind hu fun a w _ htaken hw => ?_
      have hleft : w.rest.length < fuel := by
        have hfirst := hmore.length_le
        have hsecond := htaken.length_le
        omega
      have hmore := ih hw hleft (items ++ [f a])
      simp only [List.append_assoc, List.singleton_append] at hmore
      exact .mapped hmore

theorem repeatWhile {again : ByteParser Bool} {again' : Parser Bool}
    (hagain : Tracks text 0 id again again') (hitem : Tracks text 1 f p q) :
    Tracks text 0 (List.map f) (ByteParser.whileDo again p) (Parser.repeatWhile again' q) := by
  intro s hs
  have hloop := collect hagain hitem hs (Nat.lt_succ_self s.rest.length) []
  simp only [List.nil_append] at hloop
  exact ⟨hloop.run_eq, hloop.takes⟩

theorem upTo {close : Char} (hclose : close.toNat < 128) (hitem : Tracks text 1 f p q) :
    Tracks text 0 (List.map f) (ByteParser.whileDo (do return !(← ByteParser.eat text close)) p)
      (Parser.upTo close q) :=
  repeatWhile ((eat hclose).map fun _ => rfl) hitem

end Tracks

end Signature

end ClassCatalog.ClassFile
