import ClassCatalog.Proofs.Archive.Storable

/-! A run that succeeds decides every other run over the same bytes: how many it takes, which
types it builds, what it gives and what it pays. Only a smaller budget can end another run. -/

namespace ClassCatalog.Archive

variable {α β : Type}

namespace Scanner

/-- The bytes that a run of `p` takes, `least` of them or more, decide what `q` gives. The two are
one scanner, but for the offsets that its errors show. -/
def Local (least : Nat) (p q : Scanner α) : Prop :=
  ∀ c a c', p.run c = .ok (a, c') →
    ∃ front, c.rest = front ++ c'.rest ∧ least ≤ front.length ∧ q.Takes front a

namespace Local

theorem pure (a : α) : Local 0 (Pure.pure a : Scanner α) (Pure.pure a) := by
  intro c b c' h
  cases h
  exact ⟨[], rfl, Nat.zero_le _, Takes.pure a⟩

theorem fail {n : Nat} (e : ArchiveError) (q : Scanner α) :
    Local n (throw e : Scanner α) q := nofun

theorem mono {m n : Nat} {p q : Scanner α} (h : Local m p q) (hle : n ≤ m) : Local n p q := by
  intro c a c' hrun
  obtain ⟨front, hrest, hleast, htakes⟩ := h c a c' hrun
  exact ⟨front, hrest, Nat.le_trans hle hleast, htakes⟩

theorem bind {m n : Nat} {p q : Scanner α} {f g : α → Scanner β} (hp : Local m p q)
    (hf : ∀ a, Local n (f a) (g a)) : Local (m + n) (p >>= f) (q >>= g) := by
  intro c b c' hrun
  rw [StateT.run_bind] at hrun
  obtain ⟨⟨a, d⟩, hfirst, hsecond⟩ := bind_eq_ok hrun
  obtain ⟨front, hrest, hleast, htakes⟩ := hp c a d hfirst
  obtain ⟨back, hrest', hleast', htakes'⟩ := hf a d b c' hsecond
  refine ⟨front ++ back, ?_, ?_, htakes.bind htakes'⟩
  · rw [hrest, hrest', List.append_assoc]
  · rw [List.length_append]
    omega

theorem check {m : Nat} {p q : Scanner α} {f g : α → Scanner β} (hp : Local m p q)
    (hf : ∀ a, Local 0 (f a) (g a)) : Local m (p >>= f) (q >>= g) := hp.bind hf

theorem map {m : Nat} {p q : Scanner α} (f : α → β) (h : Local m p q) :
    Local m (do return f (← p)) (do return f (← q)) :=
  h.check fun a => pure (f a)

theorem lift (e : Except ArchiveError α) : Local 0 (liftM e : Scanner α) (liftM e) := by
  cases e with
  | ok a => exact pure a
  | error e => exact fail e _

theorem ite {c : Prop} [Decidable c] {p q : Scanner α} (a : α) (hp : Local 0 p q) :
    Local 0 (if c then Pure.pure a else p) (if c then Pure.pure a else q) := by
  split
  · exact pure a
  · exact hp

theorem of_offset {m : Nat} {f : Nat → Scanner α}
    (h : ∀ start start', Local m (f start) (f start')) :
    Local m (offset >>= f) (offset >>= f) := by
  intro c a c' hrun
  have hfirst : (f c.offset).run c = .ok (a, c') := hrun
  obtain ⟨front, hrest, hleast, _⟩ := h c.offset c.offset c a c' hfirst
  refine ⟨front, hrest, hleast, Takes.of_offset fun start => ?_⟩
  obtain ⟨front', hrest', _, htakes⟩ := h c.offset start c a c' hfirst
  -- Both fronts stand before what the run leaves.
  have hfront : front' = front := List.append_cancel_right (hrest'.symm.trans hrest)
  rwa [hfront] at htakes

theorem times {p : Scanner α} (h : Local 1 p p) (n : Nat) :
    Local n (ClassCatalog.times n p) (ClassCatalog.times n p) := by
  induction n with
  | zero => exact pure []
  | succ n ih => exact (h.bind fun a => ih.map (a :: ·)).mono (Nat.le_of_eq (Nat.add_comm n 1))

end Local

theorem local_byte : Local 1 byte byte := by
  intro c b c' h
  obtain ⟨rest, offset⟩ := c
  cases rest with
  | nil => cases h
  | cons b rest =>
    cases h
    exact ⟨[b], rfl, Nat.le_refl 1, takes_byte b⟩

theorem local_bytes (n : Nat) : Local n (bytes n) (bytes n) := by
  intro c front c' h
  simp only [bytes, StateT.run] at h
  split at h
  · next r hr =>
    cases h
    obtain ⟨hrest, rfl, _⟩ := Cursor.take?_eq_some hr
    exact ⟨front, hrest, Nat.le_refl _, takes_bytes front⟩
  · cases h

theorem local_bool : Local 1 bool bool := by
  refine local_byte.check fun b => ?_
  split
  · exact .pure false
  · exact .pure true
  · exact .fail _ _

theorem local_digits (start start' n : Nat) : Local 1 (digits start n) (digits start' n) := by
  induction n with
  | zero => exact .fail _ _
  | succ n ih =>
    refine local_byte.check fun b => ?_
    have hmore : Local 0
        (if b.toNat < 128 then pure (b.toNat % 128) else do
          return b.toNat % 128 + 128 * (← digits start n))
        (if b.toNat < 128 then pure (b.toNat % 128) else do
          return b.toNat % 128 + 128 * (← digits start' n)) :=
      .ite _ ((ih.mono (Nat.zero_le 1)).map _)
    dsimp only
    split
    · exact (Local.fail (n := 0) _ _).check fun _ => hmore
    · exact hmore

theorem local_varint : Local 1 varint varint :=
  .of_offset fun start start' => local_digits start start' 10

theorem local_varintBelow (limit : Nat) : Local 1 (varintBelow limit) (varintBelow limit) :=
  .of_offset fun _ _ => local_varint.check fun n => .ite n (.fail _ _)

theorem local_signed : Local 1 signed signed := local_varint.map _

theorem local_signedIn (least greatest : Int) :
    Local 1 (signedIn least greatest) (signedIn least greatest) :=
  .of_offset fun _ _ => local_signed.check fun z => .ite z (.fail _ _)

theorem local_optional : Local 1 optional optional := by
  refine local_varint.check fun n => ?_
  cases n with
  | zero => exact .pure none
  | succ n => exact .pure (some n)

theorem local_single : Local 4 single single := (local_bytes 4).map _

theorem local_double : Local 8 double double := (local_bytes 8).map _

theorem run_count_eq_ok {c d : Cursor} {n : Nat} (h : count.run c = .ok (n, d)) :
    varint.run c = .ok (n, d) ∧ n ≤ d.rest.length := by
  have hrun : count.run c = (varint.run c >>= fun r =>
      (if (r.2.take? r.1).isSome then Pure.pure r.1 else throw (.unexpectedEnd c.offset) :
        Scanner Nat).run r.2) := rfl
  rw [hrun] at h
  obtain ⟨⟨n', d'⟩, hvarint, hcheck⟩ := bind_eq_ok h
  dsimp only at hcheck
  split at hcheck
  · next hsome =>
    cases hcheck
    refine ⟨hvarint, Nat.not_lt.1 fun hlt => ?_⟩
    rw [(Cursor.take?_eq_none_iff _ _).2 hlt] at hsome
    cases hsome
  · cases hcheck

/-- A count by itself looks ahead; with something that takes as many bytes it does not. -/
theorem local_count_bind {f : Nat → Scanner β} (h : ∀ n, Local n (f n) (f n)) :
    Local 1 (count >>= f) (count >>= f) := by
  intro c b c' hrun
  rw [StateT.run_bind] at hrun
  obtain ⟨⟨n, d⟩, hcount, hrun⟩ := bind_eq_ok hrun
  obtain ⟨front, hrest, hleast, htakes⟩ := local_varint c n d (run_count_eq_ok hcount).1
  obtain ⟨back, hrest', hleast', htakes'⟩ := h n d b c' hrun
  refine ⟨front ++ back, ?_, ?_, htakes.count_bind hleast' htakes'⟩
  · rw [hrest, hrest', List.append_assoc]
  · rw [List.length_append]
    omega

theorem local_text : Local 1 text text := by
  refine local_count_bind fun length => .of_offset fun start start' => ?_
  refine (local_bytes length).check fun bytes => ?_
  cases String.fromUTF8? ⟨bytes.toArray⟩ with
  | some s => exact .pure s
  | none => exact .fail _ _

theorem local_counted {item : Scanner α} (h : Local 1 item item) :
    Local 1 (counted item) (counted item) := local_count_bind h.times

end Scanner

namespace Metered

/-- Over the bytes `front` a run of `p` gives `a` and pays `cost`, unless it cannot pay. -/
def Costs (p : Metered α) (front : List UInt8) (cost : Nat) (a : α) : Prop :=
  ∀ budget rest offset,
    (cost ≤ budget ∧ (p.run budget).run ⟨front ++ rest, offset⟩
        = .ok ((a, budget - cost), ⟨rest, offset + front.length⟩))
      ∨ budget < cost ∧ ∃ slot, (p.run budget).run ⟨front ++ rest, offset⟩
        = .error (.typeTooLarge slot)

namespace Costs

theorem pure (a : α) : Costs (Pure.pure a) [] 0 a := fun _ _ _ => .inl ⟨Nat.zero_le _, rfl⟩

theorem scan {p : Scanner α} {front : List UInt8} {a : α} (h : p.Takes front a) :
    Costs (liftM p) front 0 a := by
  intro budget rest offset
  refine .inl ⟨Nat.zero_le _, ?_⟩
  rw [run_lift, h]
  rfl

theorem bind {p : Metered α} {f : α → Metered β} {front back : List UInt8} {cost cost' : Nat}
    {a : α} {b : β} (hp : Costs p front cost a) (hf : Costs (f a) back cost' b) :
    Costs (p >>= f) (front ++ back) (cost + cost') b := by
  intro budget rest offset
  rw [run_bind, List.append_assoc]
  rcases hp budget (back ++ rest) offset with ⟨hcost, hrun⟩ | ⟨hless, slot, hrun⟩
  · rw [hrun]
    rcases hf (budget - cost) rest (offset + front.length) with
      ⟨hcost', hrun'⟩ | ⟨hless', slot, hrun'⟩
    · refine .inl ⟨by omega, ?_⟩
      rw [List.length_append, ← Nat.add_assoc, ← Nat.sub_sub]
      exact hrun'
    · exact .inr ⟨by omega, slot, hrun'⟩
  · rw [hrun]
    exact .inr ⟨by omega, slot, rfl⟩

theorem count_bind {f : Nat → Metered β} {n : Nat} {front back : List UInt8} {cost : Nat} {b : β}
    (hn : Scanner.varint.Takes front n) (hback : n ≤ back.length)
    (hf : Costs (f n) back cost b) :
    Costs (liftM Scanner.count >>= f) (front ++ back) cost b := by
  intro budget rest offset
  have hrest : n ≤ (back ++ rest).length := by
    rw [List.length_append]
    omega
  rw [run_bind, run_lift, List.append_assoc, Scanner.run_count hn hrest, List.length_append,
    ← Nat.add_assoc]
  exact hf budget rest (offset + front.length)

theorem map {p : Metered α} {front : List UInt8} {cost : Nat} {a : α} (f : α → β)
    (h : Costs p front cost a) : Costs (do return f (← p)) front cost (f a) := by
  have hboth := h.bind (f := fun a => Pure.pure (f a)) (pure (f a))
  rwa [List.append_nil, Nat.add_zero] at hboth

theorem free_bind {p : Metered α} {f : α → Metered β} {front back : List UInt8} {cost : Nat}
    {a : α} {b : β} (hp : Costs p front 0 a) (hf : Costs (f a) back cost b) :
    Costs (p >>= f) (front ++ back) cost b := by
  have hboth := hp.bind hf
  rwa [Nat.zero_add] at hboth

theorem free_check {p : Metered α} {f : α → Metered β} {front : List UInt8} {cost : Nat}
    {a : α} {b : β} (hp : Costs p front 0 a) (hf : Costs (f a) [] cost b) :
    Costs (p >>= f) front cost b := by
  have hboth := hp.free_bind hf
  rwa [List.append_nil] at hboth

theorem scan_bind {p : Scanner α} {f : α → Metered β} {front back : List UInt8} {cost : Nat}
    {a : α} {b : β} (hp : p.Takes front a) (hf : Costs (f a) back cost b) :
    Costs (liftM p >>= f) (front ++ back) cost b := (scan hp).free_bind hf

theorem times {ι : Type} {item : Metered α} {enc : ι → List UInt8} {cost : ι → Nat}
    {value : ι → α} (h : ∀ x, Costs item (enc x) (cost x) (value x)) (xs : List ι) :
    Costs (ClassCatalog.times xs.length item) (xs.flatMap enc) (xs.map cost).sum (xs.map value) := by
  induction xs with
  | nil => exact pure []
  | cons x xs ih =>
    exact (h x).bind (f := fun a => do return a :: (← ClassCatalog.times xs.length item))
      (ih.map (value x :: ·))

theorem counted {ι : Type} {item : Metered α} {enc : ι → List UInt8} {cost : ι → Nat}
    {value : ι → α} (h : ∀ x, Costs item (enc x) (cost x) (value x)) {xs : List ι}
    (hpos : ∀ x ∈ xs, 0 < (enc x).length) {count : List UInt8}
    (hcount : Scanner.varint.Takes count xs.length) :
    Costs (Archive.counted item) (count ++ xs.flatMap enc) (xs.map cost).sum (xs.map value) :=
  count_bind hcount (length_le_length_flatMap hpos) (times h xs)

theorem within {p : Metered α} {front : List UInt8} {cost : Nat} {a : α}
    (h : Costs p front cost a) (rest : List UInt8) :
    Costs (Archive.within (front ++ rest) p) [] cost a := by
  intro budget after offset
  rcases h budget rest 0 with ⟨hcost, hrun⟩ | ⟨hless, slot, hrun⟩
  · exact .inl ⟨hcost, run_within_of_ok hrun _⟩
  · exact .inr ⟨hless, slot, run_within_of_error hrun _⟩

theorem paid {p : Metered α} {front rest : List UInt8} {cost budget left : Nat} {a b : α}
    {c d : Cursor} (h : Costs p front cost a) (hrest : c.rest = front ++ rest)
    (hrun : (p.run budget).run c = .ok ((b, left), d)) : left + cost = budget := by
  obtain ⟨_, offset⟩ := c
  obtain rfl := hrest
  rcases h budget rest offset with ⟨hcost, hrun'⟩ | ⟨_, slot, hrun'⟩
  · rw [hrun] at hrun'
    cases hrun'
    exact Nat.sub_add_cancel hcost
  · rw [hrun] at hrun'
    cases hrun'

end Costs

/-- Every run of `p` takes `least` bytes or more and builds types that are `known`. With those
that were `held` before they are the `types` of its result, and they are all that it pays for. -/
def Builds (known : Ty String → Prop) (held : List (Ty String)) (least : Nat) (p : Metered α)
    (types : α → List (Ty String)) : Prop :=
  ∀ budget c a left c', (p.run budget).run c = .ok ((a, left), c') →
    ∃ front built, c.rest = front ++ c'.rest ∧ least ≤ front.length ∧ types a = held ++ built
      ∧ (∀ t ∈ built, known t) ∧ p.Costs front (built.map Ty.nodes).sum a

namespace Builds

variable {known : Ty String → Prop} {held : List (Ty String)} {m : Nat}
  {types : α → List (Ty String)} {types' : β → List (Ty String)}

theorem pure {a : α} (h : types a = held) : Builds known held 0 (Pure.pure a) types := by
  intro budget c b left c' hrun
  cases hrun
  exact ⟨[], [], rfl, Nat.zero_le _, h.trans (List.append_nil held).symm, by simp, .pure a⟩

theorem fail (e : ArchiveError) : Builds known held m (throw e) types := nofun

theorem mono {n : Nat} {p : Metered α} (h : Builds known held m p types) (hle : n ≤ m) :
    Builds known held n p types := by
  intro budget c a left c' hrun
  obtain ⟨front, built, hrest, hleast, hmore⟩ := h budget c a left c' hrun
  exact ⟨front, built, hrest, Nat.le_trans hle hleast, hmore⟩

theorem loose {p : Metered α} (h : Builds known held m p types) : Builds known held 0 p types :=
  h.mono (Nat.zero_le m)

theorem known_mono {known' : Ty String → Prop} {p : Metered α} (h : Builds known held m p types)
    (himp : ∀ t, known t → known' t) : Builds known' held m p types := by
  intro budget c a left c' hrun
  obtain ⟨front, built, hrest, hleast, htypes, hknown, hcosts⟩ := h budget c a left c' hrun
  exact ⟨front, built, hrest, hleast, htypes, fun t ht => himp t (hknown t ht), hcosts⟩

/-- One run over bytes that it takes to the end says what they cost in every other. -/
theorem costs_of_run {p : Metered α} (h : Builds known [] m p types) {front : List UInt8}
    {budget left stop : Nat} {a : α}
    (hrun : (p.run budget).run (.ofBytes front) = .ok ((a, left), ⟨[], stop⟩)) :
    p.Costs front ((types a).map Ty.nodes).sum a := by
  obtain ⟨front', built, hrest, _, htypes, _, hcosts⟩ := h budget _ a left _ hrun
  obtain rfl : front = front' := hrest.trans (List.append_nil front')
  rw [htypes]
  exact hcosts

theorem bind_of {P : α → Prop} {n : Nat} {p : Metered α} {f : α → Metered β} (hy : Yields p P)
    (hp : Builds known [] m p types)
    (hf : ∀ a, P a → Builds known (held ++ types a) n (f a) types') :
    Builds known held (m + n) (p >>= f) types' := by
  intro budget c b left c' hrun
  rw [run_bind] at hrun
  obtain ⟨⟨⟨a, budget'⟩, d⟩, hfirst, hsecond⟩ := bind_eq_ok hrun
  obtain ⟨front, built, hrest, hleast, htypes, hknown, hcosts⟩ := hp budget c a budget' d hfirst
  obtain ⟨back, built', hrest', hleast', htypes', hknown', hcosts'⟩ :=
    hf a (hy budget c _ d hfirst) budget' d b left c' hsecond
  refine ⟨front ++ back, built ++ built', ?_, ?_, ?_, ?_, ?_⟩
  · rw [hrest, hrest', List.append_assoc]
  · rw [List.length_append]
    omega
  · rw [htypes', htypes, List.nil_append, List.append_assoc]
  · exact List.forall_mem_append.2 ⟨hknown, hknown'⟩
  · rw [List.map_append, List.sum_append_nat]
    exact hcosts.bind hcosts'

theorem bind {p : Metered α} {f : α → Metered β} (hp : Builds known [] m p types)
    (hf : ∀ a, Builds known (held ++ types a) 0 (f a) types') :
    Builds known held m (p >>= f) types' :=
  bind_of (P := fun _ => True) (fun _ _ _ _ _ => trivial) hp fun a _ => hf a

theorem map {p : Metered α} (f : α → β) (hp : Builds known [] m p types)
    (hf : ∀ a, types' (f a) = held ++ types a) :
    Builds known held m (do return f (← p)) types' :=
  hp.bind fun a => pure (hf a)

theorem scan {p : Scanner α} (h : Scanner.Local m p p) :
    Builds known [] m (liftM p) fun _ => [] := by
  intro budget c a left c' hrun
  rw [run_lift] at hrun
  obtain ⟨⟨b, d⟩, hp, heq⟩ := bind_eq_ok hrun
  cases heq
  obtain ⟨front, hrest, hleast, htakes⟩ := h c b d hp
  exact ⟨front, [], hrest, hleast, rfl, by simp, .scan htakes⟩

theorem scan_bind {p : Scanner α} {f : α → Metered β} (h : Scanner.Local m p p)
    (hf : ∀ a, Builds known held 0 (f a) types') :
    Builds known held m (liftM p >>= f) types' :=
  (scan h).bind fun a => by
    rw [List.append_nil]
    exact hf a

theorem scan_map {p : Scanner α} (f : α → β) (h : Scanner.Local m p p)
    (hf : ∀ a, types' (f a) = held) : Builds known held m (do return f (← liftM p)) types' :=
  scan_bind h fun a => pure (hf a)

theorem count_bind {f : Nat → Metered β} (hf : ∀ n, Builds known held n (f n) types') :
    Builds known held 1 (liftM Scanner.count >>= f) types' := by
  intro budget c b left c' hrun
  rw [run_bind, run_lift] at hrun
  obtain ⟨_, hfirst, hrun⟩ := bind_eq_ok hrun
  obtain ⟨⟨n, d⟩, hcount, heq⟩ := bind_eq_ok hfirst
  cases heq
  obtain ⟨front, hrest, hleast, htakes⟩ :=
    Scanner.local_varint c n d (Scanner.run_count_eq_ok hcount).1
  obtain ⟨back, built, hrest', hleast', htypes, hknown, hcosts⟩ := hf n budget d b left c' hrun
  refine ⟨front ++ back, built, ?_, ?_, htypes, hknown, .count_bind htakes hleast' hcosts⟩
  · rw [hrest, hrest', List.append_assoc]
  · rw [List.length_append]
    omega

theorem times {p : Metered α} (h : Builds known [] 1 p types) (n : Nat) :
    Builds known [] n (ClassCatalog.times n p) fun as => as.flatMap types := by
  induction n with
  | zero => exact pure rfl
  | succ n ih =>
    have hmore : ∀ a, Builds known ([] ++ types a) n
        (do return a :: (← ClassCatalog.times n p)) fun as => as.flatMap types :=
      fun a => ih.map _ fun as => rfl
    have hall := bind_of (P := fun _ => True) (fun _ _ _ _ _ => trivial) h fun a _ => hmore a
    exact hall.mono (Nat.le_of_eq (Nat.add_comm n 1))

theorem counted {p : Metered α} (h : Builds known [] 1 p types) :
    Builds known [] 1 (Archive.counted p) fun as => as.flatMap types := count_bind h.times

theorem optionMapM {ι : Type} {f : ι → Metered α} (h : ∀ i, Builds known [] 0 (f i) types)
    (x : Option ι) : Builds known [] 0 (x.mapM f) fun a => a.toList.flatMap types := by
  cases x with
  | none => exact pure rfl
  | some i =>
    rw [Option.mapM_some, ← bind_pure_comp]
    exact (h i).map some fun a => List.append_nil _

theorem ite {c : Prop} [Decidable c] {p q : Metered α} (hp : Builds known held m p types)
    (hq : Builds known held m q types) : Builds known held m (if c then p else q) types := by
  split
  · exact hp
  · exact hq

theorem within {p : Metered α} (h : Builds known [] m p types) (body : List UInt8) :
    Builds known [] 0 (Archive.within body p) types := by
  intro budget c a left c' hrun
  simp only [Archive.within, StateT.run] at hrun
  split at hrun
  · next result stop hresult =>
    cases hrun
    obtain ⟨front, built, hrest, _, htypes, hknown, hcosts⟩ :=
      h budget (.ofBytes body) a left stop hresult
    refine ⟨[], built, rfl, Nat.zero_le _, htypes, hknown, ?_⟩
    have hbody : body = front ++ stop.rest := hrest
    rw [hbody]
    exact hcosts.within stop.rest
  · cases hrun

end Builds

end Metered

end ClassCatalog.Archive
