import Mathlib.Logic.Relation
import ClassCatalog.Index.Hierarchy

/-! A search sees exactly the names that its steps lead to. The invariant is that every name that
was seen is still on the frontier, or all its steps were taken. -/

namespace ClassCatalog

open Relation (ReflTransGen TransGen)

variable {α : Type}

def Steps.Leads (g : Steps α) (a b : α) : Prop := b ∈ g.next a

theorem Steps.only_leads_iff (g : Steps α) (kind : α → Bool) (a b : α) :
    (g.only kind).Leads a b ↔ g.Leads a b ∧ kind b := List.mem_filter

variable [BEq α] [Hashable α] [LawfulBEq α] {g : Steps α} {start : List α} {r : Reach α}

namespace Reach

theorem mem_seen_absorbOne (r : Reach α) (a b : α) :
    b ∈ (r.absorbOne a).seen ↔ b ∈ r.seen ∨ b = a := by
  unfold absorbOne
  split
  · next hold =>
    constructor
    · exact .inl
    · rintro (hb | rfl)
      · exact hb
      · exact Std.HashSet.mem_iff_contains.2 hold
  · rw [Std.HashSet.mem_insert, beq_iff_eq, eq_comm, or_comm]

omit [LawfulBEq α] in
theorem mem_frontier_absorbOne (r : Reach α) (a b : α) :
    b ∈ (r.absorbOne a).frontier ↔ b ∈ r.frontier ∨ b = a ∧ a ∉ r.seen := by
  unfold absorbOne
  split
  · next hold =>
    have hseen : a ∈ r.seen := Std.HashSet.mem_iff_contains.2 hold
    simp [hseen]
  · next hnew =>
    have hseen : a ∉ r.seen := fun h => hnew (Std.HashSet.mem_iff_contains.1 h)
    simp [hseen, or_comm]

theorem mem_seen_foldl (names : List α) (r : Reach α) (b : α) :
    b ∈ (names.foldl absorbOne r).seen ↔ b ∈ r.seen ∨ b ∈ names := by
  induction names generalizing r with
  | nil => simp
  | cons a names ih => rw [List.foldl_cons, ih, mem_seen_absorbOne, List.mem_cons, or_assoc]

theorem mem_frontier_foldl (names : List α) (r : Reach α) (b : α) :
    b ∈ (names.foldl absorbOne r).frontier ↔ b ∈ r.frontier ∨ b ∈ names ∧ b ∉ r.seen := by
  induction names generalizing r with
  | nil => simp
  | cons a names ih =>
    rw [List.foldl_cons, ih, mem_frontier_absorbOne, mem_seen_absorbOne, List.mem_cons]
    by_cases heq : b = a
    · subst heq
      by_cases hseen : b ∈ r.seen
      · simp [hseen]
      · simp [hseen]
    · simp [heq]

theorem mem_seen_absorb (seen : Std.HashSet α) (names : List α) (b : α) :
    b ∈ (absorb seen names).seen ↔ b ∈ seen ∨ b ∈ names := mem_seen_foldl names _ b

theorem mem_frontier_absorb (seen : Std.HashSet α) (names : List α) (b : α) :
    b ∈ (absorb seen names).frontier ↔ b ∈ names ∧ b ∉ seen := by
  rw [absorb, mem_frontier_foldl]
  simp

/-- What a search from `start` has done so far. -/
structure Explored (g : Steps α) (start : List α) (r : Reach α) : Prop where
  sound : ∀ b ∈ r.seen, ∃ a ∈ start, ReflTransGen g.Leads a b
  started : ∀ a ∈ start, a ∈ r.seen
  frontier : ∀ a ∈ r.frontier, a ∈ r.seen
  closed : ∀ a ∈ r.seen, a ∈ r.frontier ∨ ∀ b, g.Leads a b → b ∈ r.seen

theorem explored_absorb (g : Steps α) (start : List α) : Explored g start (absorb ∅ start) := by
  have hseen : ∀ b, b ∈ (absorb ∅ start).seen ↔ b ∈ start := by
    intro b
    simp [mem_seen_absorb]
  have hfrontier : ∀ b, b ∈ (absorb ∅ start).frontier ↔ b ∈ start := by
    intro b
    simp [mem_frontier_absorb]
  constructor
  · exact fun b hb => ⟨b, (hseen b).1 hb, .refl⟩
  · exact fun a ha => (hseen a).2 ha
  · exact fun a ha => (hseen a).2 ((hfrontier a).1 ha)
  · exact fun a ha => .inl ((hfrontier a).2 ((hseen a).1 ha))

theorem mem_seen_advance (r : Reach α) (b : α) :
    b ∈ (r.advance g).seen ↔ b ∈ r.seen ∨ ∃ a ∈ r.frontier, g.Leads a b := by
  rw [advance, mem_seen_absorb, List.mem_flatMap]
  rfl

theorem Explored.advance (h : Explored g start r) : Explored g start (r.advance g) := by
  constructor
  · intro b hb
    rcases (mem_seen_advance r b).1 hb with hb | ⟨c, hc, hstep⟩
    · exact h.sound b hb
    · obtain ⟨a, ha, hpath⟩ := h.sound c (h.frontier c hc)
      exact ⟨a, ha, hpath.tail hstep⟩
  · exact fun a ha => (mem_seen_advance r a).2 (.inl (h.started a ha))
  · intro a ha
    rw [Reach.advance, mem_frontier_absorb] at ha
    exact (mem_seen_absorb _ _ a).2 (.inr ha.1)
  · intro a ha
    -- A name is new, or its steps were taken before, or they are taken now.
    by_cases hold : a ∈ r.seen
    · refine .inr fun b hstep => (mem_seen_advance r b).2 ?_
      rcases h.closed a hold with hfrontier | hclosed
      · exact .inr ⟨a, hfrontier, hstep⟩
      · exact .inl (hclosed b hstep)
    · rw [Reach.advance, mem_seen_absorb] at ha
      rw [Reach.advance, mem_frontier_absorb]
      exact .inl ⟨ha.resolve_left hold, hold⟩

end Reach

namespace Steps

theorem mem_grow_iff (h : Reach.Explored g start r) (b : α) :
    b ∈ g.grow r ↔ ∃ a ∈ start, ReflTransGen g.Leads a b := by
  fun_induction grow g r with
  | case1 r hempty =>
    constructor
    · exact h.sound b
    · rintro ⟨a, ha, hpath⟩
      induction hpath with
      | refl => exact h.started a ha
      | tail _ hstep ih =>
        have hnil : r.frontier = [] := List.isEmpty_iff.1 hempty
        refine (h.closed _ ih).resolve_left ?_ _ hstep
        rw [hnil]
        exact List.not_mem_nil
  | case2 r _ ih => exact ih h.advance

theorem mem_closure_iff (g : Steps α) (start : List α) (b : α) :
    b ∈ g.closure start ↔ ∃ a ∈ start, ReflTransGen g.Leads a b :=
  mem_grow_iff (Reach.explored_absorb g start) b

end Steps

namespace Hierarchy

variable (h : Hierarchy α)

theorem mem_below_iff (a b : α) : b ∈ h.below a ↔ TransGen h.subclasses.Leads a b := by
  rw [below, Steps.mem_closure_iff, Relation.TransGen.head'_iff]
  rfl

theorem mem_interfaces_iff (a b : α) : b ∈ h.interfaces a
    ↔ ReflTransGen (h.implementors.only (h.isInterface? · = some true)).Leads a b := by
  rw [interfaces, Steps.mem_closure_iff]
  simp

/-- With every class that was found, all below it were found. -/
def DownClosed (found : Std.HashSet α) : Prop :=
  ∀ a ∈ found, ∀ b, ReflTransGen h.subclasses.Leads a b → b ∈ found

variable {h} {found : Std.HashSet α}

theorem DownClosed.mem_find_iff (hfound : h.DownClosed found) (a b : α) :
    b ∈ h.find found a ↔ b ∈ found ∨ ReflTransGen h.subclasses.Leads a b := by
  unfold find
  split
  · next hold =>
    -- Nothing is added, because the class is there and so is all below it.
    have ha : a ∈ found := Std.HashSet.mem_iff_contains.2 hold
    exact ⟨.inl, fun hb => hb.elim id (hfound a ha b)⟩
  · rw [Std.HashSet.mem_iff_contains, Std.HashSet.mem_union_iff, ← Std.HashSet.mem_iff_contains,
      ← Std.HashSet.mem_iff_contains, Std.HashSet.mem_insert, beq_iff_eq, mem_below_iff,
      Relation.reflTransGen_iff_eq_or_transGen, eq_comm, or_assoc, or_left_comm]

theorem DownClosed.find (hfound : h.DownClosed found) (a : α) : h.DownClosed (h.find found a) := by
  intro b hb c hpath
  rw [hfound.mem_find_iff] at hb ⊢
  exact hb.imp (fun hb => hfound b hb c hpath) fun hb => hb.trans hpath

theorem DownClosed.mem_foldl_find_iff (hfound : h.DownClosed found) (names : List α) (b : α) :
    b ∈ names.foldl h.find found
      ↔ b ∈ found ∨ ∃ a ∈ names, ReflTransGen h.subclasses.Leads a b := by
  induction names generalizing found with
  | nil => simp
  | cons a names ih =>
    rw [List.foldl_cons, ih (hfound.find a), hfound.mem_find_iff, or_assoc]
    simp only [List.mem_cons, exists_eq_or_imp]

theorem mem_implementing_iff (h : Hierarchy α) (a c : α) : c ∈ h.implementing a
    ↔ ∃ j d, ReflTransGen (h.implementors.only (h.isInterface? · = some true)).Leads a j
      ∧ h.implementors.Leads j d ∧ h.isInterface? d = some false
      ∧ ReflTransGen h.subclasses.Leads d c := by
  have hempty : h.DownClosed ∅ := fun b hb => absurd hb Std.HashSet.not_mem_empty
  rw [implementing, hempty.mem_foldl_find_iff]
  simp only [Std.HashSet.not_mem_empty, false_or, List.mem_filter, List.mem_flatMap,
    Std.HashSet.mem_toList, mem_interfaces_iff, decide_eq_true_eq]
  constructor
  · rintro ⟨d, ⟨⟨j, hj, hd⟩, hclass⟩, hc⟩
    exact ⟨j, d, hj, hd, hclass, hc⟩
  · rintro ⟨j, d, hj, hd, hclass, hc⟩
    exact ⟨d, ⟨⟨j, hj, hd⟩, hclass⟩, hc⟩

end Hierarchy

end ClassCatalog
