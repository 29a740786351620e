import ClassCatalog.ClassFile.Signature
import ClassCatalog.Proofs.Outcome

/-! What the parsers of signatures take from a text that goes on. -/

namespace ClassCatalog.ClassFile.Signature

open Signature.Parser

variable {α β ι : Type}

/-- `p` takes `front` from a text that goes on with `back`, and gives `a`. -/
def Reads (p : Parser α) (front back : List Char) (a : α) : Prop :=
  ∀ start, ∃ stop, p.run ⟨front ++ back, start⟩ = .ok (a, ⟨back, stop⟩)

namespace Reads

variable {p : Parser α} {k : α → Parser β} {front mid back : List Char} {a : α} {b : β}

theorem pure (a : α) (back : List Char) : Reads (Pure.pure a) [] back a :=
  fun start => ⟨start, rfl⟩

theorem bind (hp : Reads p front (mid ++ back) a) (hk : Reads (k a) mid back b) :
    Reads (p >>= k) (front ++ mid) back b := by
  intro start
  obtain ⟨between, hfront⟩ := hp start
  obtain ⟨stop, hmid⟩ := hk between
  refine ⟨stop, ?_⟩
  rw [List.append_assoc, run_bind_of_ok hfront, hmid]

theorem last (hp : Reads p front back a) (hk : Reads (k a) [] back b) :
    Reads (p >>= k) front back b := by
  have h : Reads (p >>= k) (front ++ []) back b := Reads.bind hp hk
  rwa [List.append_nil] at h

theorem peeked (hp : Reads p [] (front ++ back) a) (hk : Reads (k a) front back b) :
    Reads (p >>= k) front back b := by
  have h : Reads (p >>= k) ([] ++ front) back b := Reads.bind hp hk
  exact h

end Reads

/-- `p` takes `front` from a text that goes on with `back`, and then does what `q` does. -/
def Reaches (p : Parser α) (front back : List Char) (q : Parser α) : Prop :=
  ∀ start, ∃ stop, p.run ⟨front ++ back, start⟩ = q.run ⟨back, stop⟩

namespace Reaches

variable {p q r : Parser α} {front mid back : List Char}

theorem trans (hp : Reaches p front (mid ++ back) q) (hq : Reaches q mid back r) :
    Reaches p (front ++ mid) back r := by
  intro start
  obtain ⟨between, hfront⟩ := hp start
  obtain ⟨stop, hmid⟩ := hq between
  refine ⟨stop, ?_⟩
  rw [List.append_assoc, hfront, hmid]

theorem reads {a : α} (hp : Reaches p front back q) (hq : Reads q [] back a) :
    Reads p front back a := by
  intro start
  obtain ⟨between, hfront⟩ := hp start
  obtain ⟨stop, hback⟩ := hq between
  exact ⟨stop, hfront.trans hback⟩

end Reaches

theorem Reads.reaches {p : Parser α} {front back : List Char} {a : α}
    (h : Reads p front back a) (k : α → Parser β) : Reaches (p >>= k) front back (k a) := by
  intro start
  obtain ⟨stop, hrun⟩ := h start
  exact ⟨stop, run_bind_of_ok hrun⟩

theorem run_get (scan : Scan) : (get : Parser Scan).run scan = .ok (scan, scan) := rfl

theorem run_eat_self (c : Char) (rest : List Char) (start : Nat) :
    (eat c).run ⟨c :: rest, start⟩ = .ok (true, ⟨rest, start + c.utf8Size⟩) := by
  rw [eat, run_bind_of_ok (run_get _)]
  simp only [if_true]
  rfl

theorem run_eat_of_ne {c d : Char} (h : d ≠ c) (rest : List Char) (start : Nat) :
    (eat c).run ⟨d :: rest, start⟩ = .ok (false, ⟨d :: rest, start⟩) := by
  rw [eat, run_bind_of_ok (run_get _)]
  simp only [h, if_false]
  rfl

variable {front mid back : List Char} {a : α} {b : β} {c : Char}

theorem reads_eat (c : Char) (back : List Char) : Reads (eat c) [c] back true :=
  fun start => ⟨_, run_eat_self c back start⟩

theorem reads_eat_not (h : back.head? ≠ some c) : Reads (eat c) [] back false := by
  intro start
  cases back with
  | nil => exact ⟨start, rfl⟩
  | cons d back =>
    refine ⟨start, run_eat_of_ne ?_ back start⟩
    intro hd
    exact h (congrArg some hd)

theorem head?_append_ne {tail : List Char} {d : Char} (h : front = d :: tail) (hne : d ≠ c) :
    (front ++ back).head? ≠ some c := by
  rw [h]
  simpa using hne

theorem reads_peek (back : List Char) : Reads peek [] back back.head? :=
  fun start => ⟨start, rfl⟩

theorem Reads.eaten {p q : Parser α} (h : Reads p front back a) :
    Reads (do if ← eat c then p else q) (c :: front) back a :=
  Reads.bind (reads_eat c (front ++ back)) h

theorem Reads.uneaten {p q : Parser α} (hc : (front ++ back).head? ≠ some c)
    (h : Reads q front back a) : Reads (do if ← eat c then p else q) front back a :=
  Reads.peeked (reads_eat_not hc) h

theorem reads_expect (c : Char) (fault : SignatureFault) (back : List Char) :
    Reads (expect c fault) [c] back () :=
  Reads.eaten (Reads.pure () back)

theorem reads_identifier {stops name : List Char} (hne : name ≠ [])
    (hname : ∀ c ∈ name, c ∉ stops) (hstop : ∃ c ∈ stops, back.head? = some c) :
    Reads (identifier stops) name back (String.ofList name) := by
  obtain ⟨stop, hmem, hhead⟩ := hstop
  obtain ⟨tail, rfl⟩ := List.head?_eq_some_iff.1 hhead
  have hcut : (name ++ stop :: tail).takeWhile (!stops.contains ·) = name
      ∧ (name ++ stop :: tail).dropWhile (!stops.contains ·) = stop :: tail :=
    Text.cut_append (by simpa using hname) (by simpa using hmem)
  have hnonempty : name.isEmpty = false := by simpa using hne
  intro start
  refine ⟨start + (String.ofList name).utf8ByteSize, ?_⟩
  rw [identifier, run_bind_of_ok (run_get _)]
  simp only [hcut.1, hcut.2, hnonempty, Bool.false_eq_true, if_false]
  rfl

section Repetition

variable {again : Parser Bool} {item : Parser α} {xs : List ι} {mark stop : List Char}
  {chars : ι → List Char} {value : ι → α} {Follow : List Char → Prop}

/-- Each round takes `mark` and an item, the last one `stop`. `Follow` is what an item asks of the
characters behind it. -/
structure Rounds (again : Parser Bool) (item : Parser α) (xs : List ι) (mark : List Char)
    (chars : ι → List Char) (value : ι → α) (stop back : List Char)
    (Follow : List Char → Prop) : Prop where
  go : ∀ x ∈ xs, ∀ tail, Reads again mark (chars x ++ tail) true
  item : ∀ x ∈ xs, ∀ tail, Follow tail → Reads item (chars x) tail (value x)
  halt : Reads again stop back false
  follow : ∀ x ∈ xs, ∀ tail, Follow (mark ++ (chars x ++ tail))
  follow_last : Follow (stop ++ back)
  ne_nil : ∀ x ∈ xs, mark ++ chars x ≠ []

def roundsChars (mark : List Char) (chars : ι → List Char) (xs : List ι) (stop : List Char) :
    List Char :=
  xs.flatMap (fun x => mark ++ chars x) ++ stop

theorem Rounds.tail {x : ι} (h : Rounds again item (x :: xs) mark chars value stop back Follow) :
    Rounds again item xs mark chars value stop back Follow where
  go y hy := h.go y (List.mem_cons_of_mem x hy)
  item y hy := h.item y (List.mem_cons_of_mem x hy)
  halt := h.halt
  follow y hy := h.follow y (List.mem_cons_of_mem x hy)
  follow_last := h.follow_last
  ne_nil y hy := h.ne_nil y (List.mem_cons_of_mem x hy)

theorem Rounds.follow_chars (h : Rounds again item xs mark chars value stop back Follow) :
    Follow (roundsChars mark chars xs stop ++ back) := by
  cases xs with
  | nil => exact h.follow_last
  | cons x xs =>
    have hfirst := h.follow x List.mem_cons_self (roundsChars mark chars xs stop ++ back)
    simpa [roundsChars] using hfirst

theorem Rounds.reads_whileFuel (h : Rounds again item xs mark chars value stop back Follow)
    {fuel : Nat} (hfuel : xs.length < fuel) :
    Reads (whileFuel again item fuel) (roundsChars mark chars xs stop) back (xs.map value) := by
  -- A round takes one unit of fuel, and the test that halts the loop takes the last one.
  induction xs generalizing fuel with
  | nil =>
    cases fuel with
    | zero => cases hfuel
    | succ fuel => exact Reads.last h.halt (Reads.pure [] back)
  | cons x xs ih =>
    cases fuel with
    | zero => cases hfuel
    | succ fuel =>
      have hmore := ih h.tail (Nat.lt_of_succ_lt_succ hfuel)
      have hitem := h.item x List.mem_cons_self _ h.tail.follow_chars
      have hround : Reads (do return (← item) :: (← whileFuel again item fuel))
          (chars x ++ roundsChars mark chars xs stop) back ((x :: xs).map value) :=
        Reads.bind hitem (Reads.last hmore (Reads.pure _ back))
      have hgo := h.go x List.mem_cons_self (roundsChars mark chars xs stop ++ back)
      rw [← List.append_assoc] at hgo
      have hchars : roundsChars mark chars (x :: xs) stop
          = mark ++ (chars x ++ roundsChars mark chars xs stop) := by
        simp [roundsChars]
      rw [hchars]
      exact Reads.bind hgo hround

theorem Rounds.length_le (h : Rounds again item xs mark chars value stop back Follow) :
    xs.length ≤ (roundsChars mark chars xs stop).length := by
  induction xs with
  | nil => exact Nat.zero_le _
  | cons x xs ih =>
    have hmore := ih h.tail
    have hfirst := List.length_pos_iff.2 (h.ne_nil x List.mem_cons_self)
    simp only [roundsChars, List.flatMap_cons, List.length_append, List.length_cons]
      at hmore hfirst ⊢
    omega

theorem Rounds.reads_repeatWhile (h : Rounds again item xs mark chars value stop back Follow) :
    Reads (repeatWhile again item) (roundsChars mark chars xs stop) back (xs.map value) := by
  intro start
  have hlength := h.length_le
  have hfuel : xs.length < (roundsChars mark chars xs stop ++ back).length + 1 := by
    rw [List.length_append]
    omega
  exact h.reads_whileFuel hfuel start

end Repetition

theorem reads_upTo {item : Parser α} {xs : List ι} {chars : ι → List Char} {value : ι → α}
    {Follow : List Char → Prop} {close : Char}
    (hitem : ∀ x ∈ xs, ∀ tail, Follow tail → Reads item (chars x) tail (value x))
    (hchars : ∀ x ∈ xs, ∃ first others, chars x = first :: others ∧ first ≠ close)
    (hfollow : ∀ x ∈ xs, ∀ tail, Follow (chars x ++ tail)) (hclose : ∀ tail, Follow (close :: tail))
    (back : List Char) :
    Reads (upTo close item) (xs.flatMap chars ++ [close]) back (xs.map value) := by
  have hrounds : Rounds (do return !(← eat close)) item xs [] chars value [close] back Follow := by
    refine ⟨?_, hitem, ?_, hfollow, hclose back, ?_⟩
    · intro x hx tail
      obtain ⟨first, others, heq, hne⟩ := hchars x hx
      exact Reads.last (reads_eat_not (head?_append_ne heq hne)) (Reads.pure true _)
    · exact Reads.last (reads_eat close back) (Reads.pure false back)
    · intro x hx
      obtain ⟨first, others, heq, _⟩ := hchars x hx
      simp [heq]
  exact hrounds.reads_repeatWhile

theorem reads_marked {item : Parser α} {xs : List ι} {chars : ι → List Char} {value : ι → α}
    {mark : Char} (hitem : ∀ x ∈ xs, ∀ tail, Reads item (chars x) tail (value x))
    (hback : back.head? ≠ some mark) :
    Reads (repeatWhile (eat mark) item) (xs.flatMap fun x => mark :: chars x) back
      (xs.map value) := by
  have hrounds : Rounds (eat mark) item xs [mark] chars value [] back fun _ => True :=
    ⟨fun _ _ _ => reads_eat mark _, fun x hx tail _ => hitem x hx tail, reads_eat_not hback,
      fun _ _ _ => trivial, trivial, fun _ _ => by simp⟩
  have hreads := hrounds.reads_repeatWhile
  rwa [roundsChars, List.append_nil] at hreads

theorem reads_toEnd {item : Parser α} {xs : List ι} {chars : ι → List Char} {value : ι → α}
    (hitem : ∀ x ∈ xs, ∀ tail, Reads item (chars x) tail (value x))
    (hchars : ∀ x ∈ xs, chars x ≠ []) :
    Reads (repeatWhile (do return !(← atEnd)) item) (xs.flatMap chars) [] (xs.map value) := by
  have hrounds : Rounds (do return !(← atEnd)) item xs [] chars value [] [] fun _ => True := by
    refine ⟨?_, fun x hx tail _ => hitem x hx tail, fun start => ⟨start, rfl⟩,
      fun _ _ _ => trivial, trivial, hchars⟩
    intro x hx tail start
    obtain ⟨c, others, heq⟩ := List.exists_cons_of_ne_nil (hchars x hx)
    rw [heq]
    exact ⟨start, rfl⟩
  have hreads := hrounds.reads_repeatWhile
  rwa [roundsChars, List.append_nil] at hreads

theorem reads_typeVariable {name : List Char} (hne : name ≠ []) (hname : ';' ∉ name)
    (back : List Char) :
    Reads typeVariable ('T' :: (name ++ [';'])) back (.unresolved (String.ofList name)) := by
  have hclean : ∀ c ∈ name, c ∉ [';'] := by
    intro c hc hmem
    exact hname (List.mem_singleton.1 hmem ▸ hc)
  refine Reads.bind (reads_expect 'T' _ _) ?_
  refine Reads.bind (reads_identifier hne hclean ⟨';', by simp, rfl⟩) ?_
  exact Reads.last (reads_eat ';' back) (Reads.pure _ back)

theorem reads_dimensions {n fuel : Nat} (h : n ≤ fuel) (hback : back.head? ≠ some '[') :
    Reads (dimensions fuel) (List.replicate n '[') back n := by
  induction n generalizing fuel with
  | zero =>
    cases fuel with
    | zero => exact Reads.uneaten hback (Reads.pure 0 back)
    | succ fuel => exact Reads.uneaten hback (Reads.pure 0 back)
  | succ n ih =>
    cases fuel with
    | zero => cases h
    | succ fuel =>
      exact Reads.eaten (Reads.last (ih (Nat.le_of_succ_le_succ h)) (Reads.pure (n + 1) back))

theorem reads_javaType_primitive (reference : Parser (Ty String)) (p : Primitive)
    (back : List Char) : Reads (javaType reference) [p.letter] back (.primitive p) := by
  refine Reads.peeked (reads_peek _) ?_
  have hletter : (([p.letter] ++ back).head?).bind Primitive.ofLetter? = some p :=
    Primitive.ofLetter?_letter p
  rw [hletter]
  exact Reads.last (reads_eat p.letter back) (Reads.pure _ back)

theorem reads_javaType_reference {reference : Parser (Ty String)} {t : Ty String}
    (hfront : ((front ++ back).head?).bind Primitive.ofLetter? = none)
    (h : Reads reference front back t) : Reads (javaType reference) front back t := by
  refine Reads.peeked (reads_peek _) ?_
  rw [hfront]
  exact h

theorem replicate_append_eq_cons {n : Nat} (h : 1 ≤ n) (cs : List Char) :
    ∃ tail, List.replicate n '[' ++ cs = '[' :: tail := by
  obtain ⟨k, rfl⟩ := Nat.exists_eq_add_of_le' h
  rw [List.replicate_succ]
  exact ⟨_, rfl⟩

theorem reads_referenceType_array {levels n : Nat} (hpos : 1 ≤ n) (hle : n ≤ 255)
    {component : List Char} {t : Ty String} (hhead : (component ++ back).head? ≠ some '[')
    (harray : t.arrayOf (UInt8.ofNat n) = .array (UInt8.ofNat n) t)
    (h : Reads (javaType (referenceType levels)) component back t) :
    Reads (referenceType (levels + 1)) (List.replicate n '[' ++ component) back
      (.array (UInt8.ofNat n) t) := by
  obtain ⟨tail, htail⟩ := replicate_append_eq_cons hpos (component ++ back)
  have hpeek : (List.replicate n '[' ++ component ++ back).head? = some '[' := by
    rw [List.append_assoc, htail]
    rfl
  refine Reads.peeked (reads_peek _) ?_
  rw [hpeek]
  refine Reads.bind (reads_dimensions hle hhead) ?_
  rw [← harray]
  exact Reads.last h (Reads.pure _ back)

def nextSegment (reference : Parser (Ty String)) (fuel : Nat) (internal : String)
    (current : Ty String) : Parser (Ty String) := do
  if ← eat '.' then
    let simple ← identifier ['<', '.', ';']
    segments reference fuel (internal ++ "$" ++ simple) (some current)
  else return current

theorem reaches_nextSegment {reference : Parser (Ty String)} {fuel : Nat} {internal : String}
    {outer : Option (Ty String)} {arguments : List (Ty String)}
    (h : Reads (typeArguments reference) front back arguments) :
    Reaches (segments reference (fuel + 1) internal outer) front back
      (nextSegment reference fuel internal
        (segmentType outer (binaryName internal) arguments)) :=
  h.reaches fun arguments =>
    nextSegment reference fuel internal (segmentType outer (binaryName internal) arguments)

theorem reaches_member (reference : Parser (Ty String)) (fuel : Nat) (internal : String)
    (current : Ty String) {name : List Char} (hne : name ≠ [])
    (hname : ∀ c ∈ name, c ∉ ['<', '.', ';'])
    (hstop : ∃ c ∈ ['<', '.', ';'], back.head? = some c) :
    Reaches (nextSegment reference fuel internal current) ('.' :: name) back
      (segments reference fuel (internal ++ "$" ++ String.ofList name) (some current)) := by
  have hdot : Reaches (nextSegment reference fuel internal current) ['.'] (name ++ back) (do
      let simple ← identifier ['<', '.', ';']
      segments reference fuel (internal ++ "$" ++ simple) (some current)) :=
    (reads_eat '.' (name ++ back)).reaches _
  exact hdot.trans ((reads_identifier hne hname hstop).reaches _)

theorem reads_nextSegment_end (reference : Parser (Ty String)) (fuel : Nat) (internal : String)
    (current : Ty String) (back : List Char) :
    Reads (nextSegment reference fuel internal current) [] (';' :: back) current :=
  Reads.uneaten (by simp) (Reads.pure current _)

theorem reads_typeArguments_none (reference : Parser (Ty String))
    (h : back.head? ≠ some '<') : Reads (typeArguments reference) [] back [] :=
  Reads.uneaten h (Reads.pure [] back)

theorem reads_typeArguments_some {reference : Parser (Ty String)} {ts : List (Ty String)}
    (hne : ts ≠ []) (h : Reads (upTo '>' (typeArgument reference)) front back ts) :
    Reads (typeArguments reference) ('<' :: front) back ts := by
  refine Reads.eaten (Reads.last h ?_)
  have hnonempty : ts.isEmpty = false := by simpa using hne
  simp only [hnonempty, Bool.false_eq_true, if_false]
  exact Reads.pure ts back

theorem reads_classType {reference : Parser (Ty String)} {first tail : List Char} {t : Ty String}
    (hne : first ≠ []) (hfirst : ∀ c ∈ first, c ∉ ['<', '.', ';'])
    (hstop : ∃ c ∈ ['<', '.', ';'], (tail ++ [';']).head? = some c)
    (h : ∀ fuel, (tail ++ ';' :: back).length ≤ fuel →
      Reads (segments reference (fuel + 1) (String.ofList first) none) tail (';' :: back) t) :
    Reads (classType reference) ('L' :: (first ++ (tail ++ [';']))) back t := by
  have hnext : ∃ c ∈ ['<', '.', ';'], (tail ++ [';'] ++ back).head? = some c := by
    obtain ⟨c, hc, hhead⟩ := hstop
    exact ⟨c, hc, by rw [List.head?_append, hhead]; rfl⟩
  refine Reads.bind (reads_expect 'L' _ _) ?_
  refine Reads.bind (reads_identifier hne hfirst hnext) ?_
  -- The fuel for the segments is read off the state, so the last three steps are run by hand.
  intro start
  obtain ⟨between, hsegments⟩ := h _ (Nat.le_refl _) start
  obtain ⟨stop, hclose⟩ := reads_expect ';' .missingSemicolon back between
  refine ⟨stop, ?_⟩
  rw [List.append_assoc]
  refine (run_bind_of_ok (run_get _)).trans ?_
  refine (run_bind_of_ok hsegments).trans ?_
  exact run_bind_of_ok hclose

theorem reads_classType_name (reference : Parser (Ty String)) {name : List Char} (hne : name ≠ [])
    (hname : ∀ c ∈ name, c ∉ ['<', '.', ';']) (back : List Char) :
    Reads (classType reference) ('L' :: (name ++ [';'])) back
      (.named (binaryName (String.ofList name))) := by
  have harguments : Reads (typeArguments reference) [] (';' :: back) [] :=
    reads_typeArguments_none reference (by simp)
  have hsegments : ∀ fuel, ([] ++ ';' :: back).length ≤ fuel →
      Reads (segments reference (fuel + 1) (String.ofList name) none) [] (';' :: back)
        (.named (binaryName (String.ofList name))) :=
    fun fuel _ =>
      (reaches_nextSegment harguments).reads (reads_nextSegment_end reference fuel _ _ back)
  exact reads_classType hne hname ⟨';', by simp, rfl⟩ hsegments

def thrownType : Parser (Ty String) := do
  if (← peek) = some 'T' then typeVariable else classType reference

theorem reads_finish : Reads finish [] [] () := fun start => ⟨start, rfl⟩

theorem reads_methodBody {typeParameters parameters result thrown : List Char}
    {ts ps es : List (Ty String)} {returnType : Ty String}
    (htypeParameters : Reads (Signature.typeParameters reference) typeParameters
      ('(' :: (parameters ++ (result ++ thrown))) ts)
    (hparameters : Reads (upTo ')' (javaType reference)) parameters (result ++ thrown) ps)
    (hresult : (result = ['V'] ∧ returnType = .void)
      ∨ ((result ++ thrown).head? ≠ some 'V' ∧ Reads (javaType reference) result thrown returnType))
    (hthrown : Reads (repeatWhile (eat '^') thrownType) thrown [] es) :
    Reads methodBody (typeParameters ++ '(' :: (parameters ++ (result ++ thrown))) []
      ⟨ts, ps, returnType, es⟩ := by
  have hend : Reads (do
      let exceptions ← repeatWhile (eat '^') thrownType
      finish
      return (⟨ts, ps, returnType, exceptions⟩ : MethodSignature String)) thrown []
        ⟨ts, ps, returnType, es⟩ :=
    Reads.last hthrown (Reads.last reads_finish (Reads.pure _ []))
  refine Reads.bind (by rwa [List.append_nil]) ?_
  refine Reads.bind (reads_expect '(' _ _) ?_
  refine Reads.bind (by rwa [List.append_nil]) ?_
  rcases hresult with ⟨rfl, rfl⟩ | ⟨hhead, hjava⟩
  · exact Reads.eaten (Reads.peeked (Reads.pure _ _) hend)
  · refine Reads.uneaten (by rwa [List.append_nil]) ?_
    exact Reads.bind (by rwa [List.append_nil]) hend

theorem run_of_reads {p : Parser α} (h : Reads p front [] a) :
    Signature.run p (String.ofList front) = .ok a := by
  obtain ⟨stop, hrun⟩ := h 0
  rw [List.append_nil] at hrun
  rw [Signature.run, String.toList_ofList, hrun]

end ClassCatalog.ClassFile.Signature
