import OrdersBackend.Lib.Threads

/-!
# Procedures that leave things as they were

A procedure is steady in `I` if it keeps its protocol from every world with
`I` and, however it ends, ends in one. Procedures made of steady ones are
steady.
-/

namespace Conc

namespace Protocol

section
variable {W T C : Type} {R : C → Type} {ε α β γ Ch E A : Type}
variable {M : Machine W T C R ε α Ch E A} (P : Protocol M) {t : T} {I : W → Prop}

def Steady (t : T) (I : W → Prop) (p : Async C R ε β) : Prop := ∀ w, I w → P.wp t p (fun _ w' => I w') w

variable {P}

theorem steady_done (r : Except ε β) : P.Steady t I (.done r) := fun _ hw => hw

theorem steady_andThen {p : Async C R ε β} {f : Except ε β → Async C R ε γ} (hp : P.Steady t I p)
    (hf : ∀ r, P.Steady t I (f r)) : P.Steady t I (p.andThen f) :=
  fun w hw => P.wp_andThen (P.wp_mono (fun r w' hw' => hf r w' hw') (hp w hw))

theorem steady_bind {p : Async C R ε β} {f : β → Async C R ε γ} (hp : P.Steady t I p)
    (hf : ∀ a, P.Steady t I (f a)) : P.Steady t I (p.bind f) := by
  refine steady_andThen hp fun r => ?_
  cases r with
  | ok a => exact hf a
  | error e => exact steady_done _

theorem steady_tryCatch {p : Async C R ε β} {f : ε → Async C R ε β} (hp : P.Steady t I p)
    (hf : ∀ e, P.Steady t I (f e)) : P.Steady t I (p.tryCatch f) := by
  refine steady_andThen hp fun r => ?_
  cases r with
  | ok a => exact steady_done _
  | error e => exact hf e

/-- A procedure all of whose commands leave `I` alone. -/
theorem steady_issues {D : C → Prop} {p : Async C R ε β} (hrely : ∀ w w', I w → P.rely t w w' → I w')
    (hpre : ∀ c w, D c → I w → P.inv w → P.pre t c w)
    (hexec : ∀ c ch r w w', D c → I w → M.exec t c ch w = some (r, w') → P.guar t w w' ∧ I w')
    (hp : p.Issues D) : P.Steady t I p :=
  fun _ hw => P.wp_issues hrely hpre hexec (fun _ _ h => h) hp hw

/-- A resource that is taken before a procedure and given back after it, however
it ends; nothing happens if it cannot be taken. -/
theorem steady_bracket {I' : W → Prop} {take : Async C R ε β} {p : Async C R ε γ} {give : Async C R ε Unit}
    (htake : ∀ w, I w → P.wp t take (fun r w' => match r with
      | .ok _ => I' w'
      | .error _ => I w') w)
    (hp : P.Steady t I' p) (hgive : ∀ w, I' w → P.wp t give (fun _ w' => I w') w) :
    P.Steady t I (take.bind fun _ => p.tryFinally give) := by
  intro w hw
  refine P.wp_bind (P.wp_mono (fun r w' hr => ?_) (htake w hw))
  cases r with
  | error e => exact hr
  | ok a =>
    refine P.wp_tryFinally (P.wp_mono (fun r' w'' hw'' => ?_) (hp w' hr))
    refine P.wp_mono (fun r'' w₁ hw₁ => ?_) (hgive w'' hw'')
    cases r'' <;> exact hw₁

end

end Protocol

end Conc
