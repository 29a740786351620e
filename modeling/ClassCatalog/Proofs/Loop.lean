import Mathlib.Data.PFun

/-! Loops that nothing bounds. -/

namespace ClassCatalog

variable {σ α : Type}

def loop (round : σ → Part (α ⊕ σ)) : σ → Part α := PFun.fix round

variable {round : σ → Part (α ⊕ σ)} {s s' : σ} {a : α}

theorem loop_stop (h : round s = .some (.inl a)) : loop round s = .some a :=
  Part.eq_some_iff.2 (PFun.fix_stop (Part.eq_some_iff.1 h))

theorem loop_next (h : round s = .some (.inr s')) : loop round s = loop round s' :=
  PFun.fix_fwd_eq (Part.eq_some_iff.1 h)

theorem loop_eq (round : σ → Part (α ⊕ σ)) (s : σ) :
    loop round s = (round s).bind (Sum.elim .some (loop round)) := by
  ext a
  refine PFun.mem_fix_iff.trans ?_
  rw [Part.mem_bind_iff]
  constructor
  · rintro (hstop | ⟨s', hnext, hmore⟩)
    · exact ⟨.inl a, hstop, Part.mem_some a⟩
    · exact ⟨.inr s', hnext, hmore⟩
  · rintro ⟨b | s', hround, hmem⟩
    · obtain rfl := Part.mem_some_iff.1 hmem
      exact .inl hround
    · exact .inr ⟨s', hround, hmem⟩

end ClassCatalog
