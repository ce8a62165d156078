import Mathlib.Logic.Relation

/-!
# Runs of a step relation with actors

`Runs Step P` relates the states of a run all of whose steps belong to an
actor that satisfies `P`.
-/

namespace Conc

section
variable {A S : Type} (Step : A → S → S → Prop)

def Runs (P : A → Prop) : S → S → Prop :=
  Relation.ReflTransGen fun s s' => ∃ a, P a ∧ Step a s s'

end

namespace Runs

variable {A S : Type} {Step : A → S → S → Prop} {P Q : A → Prop} {s s' s'' : S}

theorem refl (s : S) : Runs Step P s s := Relation.ReflTransGen.refl

theorem single {a : A} (ha : P a) (h : Step a s s') : Runs Step P s s' :=
  Relation.ReflTransGen.single ⟨a, ha, h⟩

theorem trans (h₁ : Runs Step P s s') (h₂ : Runs Step P s' s'') : Runs Step P s s'' :=
  Relation.ReflTransGen.trans h₁ h₂

theorem snoc {a : A} (h : Runs Step P s s') (ha : P a) (hs : Step a s' s'') : Runs Step P s s'' :=
  h.trans (single ha hs)

theorem mono (hPQ : ∀ a, P a → Q a) (h : Runs Step P s s') : Runs Step Q s s' :=
  Relation.ReflTransGen.mono (fun _ _ ⟨a, ha, hs⟩ => ⟨a, hPQ a ha, hs⟩) _ _ h

/-- What every step preserves holds at the end of a run. -/
theorem invariant {I : S → Prop} (hstep : ∀ a s s', P a → I s → Step a s s' → I s') (h : Runs Step P s s')
    (hs : I s) : I s' := by
  induction h with
  | refl => exact hs
  | tail _ hst ih =>
    obtain ⟨a, ha, hst⟩ := hst
    exact hstep a _ _ ha ih hst

/-- A preorder that every step from a state in `I` respects relates the ends
of a run. -/
theorem relates {I : S → Prop} {R : S → S → Prop} (hI : ∀ a s s', P a → I s → Step a s s' → I s')
    (hrefl : ∀ s, R s s) (htrans : ∀ s s' s'', R s s' → R s' s'' → R s s'')
    (hstep : ∀ a s s', P a → I s → Step a s s' → R s s') (h : Runs Step P s s') (hs : I s) : R s s' := by
  induction h with
  | refl => exact hrefl s
  | tail hr hst ih =>
    obtain ⟨a, ha, hst⟩ := hst
    exact htrans _ _ _ ih (hstep a _ _ ha (invariant hI hr hs) hst)

/-- An event that happens only while `D` does not hold, and brings it about for
good, happens at most once. -/
theorem at_most_once {E : Type} (trace : S → List E) {I D : S → Prop} {f : E → Bool}
    (hI : ∀ a s s', P a → I s → Step a s s' → I s') (hD : ∀ a s s', P a → I s → Step a s s' → D s → D s')
    (hstep : ∀ a s s', P a → I s → Step a s s' → ∃ es, trace s' = es ++ trace s ∧
      (es.countP f = 0 ∨ es.countP f = 1 ∧ ¬ D s ∧ D s'))
    (h : Runs Step P s s') (hs : I s) (h₀ : (trace s).countP f = 0) :
    (trace s').countP f ≤ 1 ∧ ((trace s').countP f = 0 ∨ D s') := by
  induction h with
  | refl => exact ⟨by omega, .inl h₀⟩
  | @tail s₁ s₂ hr hst ih =>
    obtain ⟨a, ha, hst⟩ := hst
    have hI₁ : I s₁ := invariant hI hr hs
    obtain ⟨es, he, hes⟩ := hstep a _ _ ha hI₁ hst
    rw [he, List.countP_append]
    rcases hes with hes | ⟨hes, hn, hd⟩
    · refine ⟨by omega, ?_⟩
      rcases ih.2 with h₁ | h₁
      · exact .inl (by omega)
      · exact .inr (hD a _ _ ha hI₁ hst h₁)
    · have h₁ : (trace s₁).countP f = 0 := ih.2.resolve_right hn
      exact ⟨by omega, .inr hd⟩

end Runs

end Conc
