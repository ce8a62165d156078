import OrdersBackend.Lib.Threads

/-!
# Procedures of one component among those of two

A machine may run the procedures of two components side by side: a command is
one of the first or one of the second. A procedure that belongs to the first
asks nothing of a protocol that only speaks about the second.
-/

namespace Conc

namespace Async

variable {C C' : Type} {R : C → Type} {R' : C' → Type} {ε α : Type}

/-- A procedure of the first component. -/
def inl (β : Type) : Async C R ε α → Async (C ⊕ C') (Sum.elim R R') ε (α ⊕ β)
  | .done r => .done (r.map Sum.inl)
  | .await c k => .await (.inl c) fun r => (k r).inl β

end Async

namespace Protocol

variable {W T C C' : Type} {R : C → Type} {R' : C' → Type} {ε α β γ Ch E A : Type}
variable {M : Machine W T (C ⊕ C') (Sum.elim R R') ε γ Ch E A} (P : Protocol M)

theorem wp_inl {t : T} (hpre : ∀ c w, P.pre t (.inl c) w) (hguar : ∀ w w', P.guar t w w')
    {Q : Except ε (α ⊕ β) → W → Prop} (hQ : ∀ (r : Except ε α) (w : W), Q (r.map Sum.inl) w) (p : Async C R ε α)
    (w : W) : P.wp t (p.inl β) Q w := by
  induction p generalizing w with
  | done r => exact hQ r w
  | await c k ih =>
    intro w' _ _
    exact ⟨hpre c w', fun ch r w'' _ _ => ⟨hguar w' w'', ih r w''⟩⟩

end Protocol

end Conc
