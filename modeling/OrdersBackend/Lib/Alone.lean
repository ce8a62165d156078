import OrdersBackend.Lib.Threads

/-!
# Threads left alone

Total correctness of a thread beside which nothing runs. Either its next
command goes through, or the environment has to serve it first; never both, so
that there is one run, and it comes to an end.
-/

namespace Conc

section
variable {W T C : Type} {R : C → Type} {ε α β γ Ch E A : Type}

/-- Left alone with `serve`, the procedure of `t` comes to an end with `Q`. -/
inductive Machine.Ends (M : Machine W T C R ε α Ch E A) (t : T) (ch : Ch) (serve : E)
    (Q : Except ε β → W → Prop) : Async C R ε β → W → Prop
  | done {r : Except ε β} {w : W} (h : Q r w) : Machine.Ends M t ch serve Q (.done r) w
  | run {c : C} {k : Except ε (R c) → Async C R ε β} {w w' : W} {r : Except ε (R c)}
      (hx : M.exec t c ch w = some (r, w')) (hs : M.env serve w = none)
      (h : Machine.Ends M t ch serve Q (k r) w') : Machine.Ends M t ch serve Q (.await c k) w
  | serve {c : C} {k : Except ε (R c) → Async C R ε β} {w w' : W} (hx : M.exec t c ch w = none)
      (hs : M.env serve w = some w') (h : Machine.Ends M t ch serve Q (.await c k) w') :
      Machine.Ends M t ch serve Q (.await c k) w

variable {M : Machine W T C R ε α Ch E A} {t : T} {ch : Ch} {serve : E}

/-! ## Procedures -/

theorem ends_andThen {p : Async C R ε β} {f : Except ε β → Async C R ε γ} {Q : Except ε γ → W → Prop} {w : W}
    (h : M.Ends t ch serve (fun r w => M.Ends t ch serve Q (f r) w) p w) :
    M.Ends t ch serve Q (p.andThen f) w := by
  induction h with
  | done h => exact h
  | run hx hs _ ih => exact .run hx hs ih
  | serve hx hs _ ih => exact .serve hx hs ih

theorem ends_mono {p : Async C R ε β} {Q Q' : Except ε β → W → Prop} {w : W} (hQ : ∀ r w, Q r w → Q' r w)
    (h : M.Ends t ch serve Q p w) : M.Ends t ch serve Q' p w := by
  induction h with
  | done h => exact .done (hQ _ _ h)
  | run hx hs _ ih => exact .run hx hs ih
  | serve hx hs _ ih => exact .serve hx hs ih

theorem ends_bind {p : Async C R ε β} {f : β → Async C R ε γ} {Q : Except ε γ → W → Prop} {w : W}
    (h : M.Ends t ch serve (fun r w => match r with
      | .ok a => M.Ends t ch serve Q (f a) w
      | .error e => Q (.error e) w) p w) : M.Ends t ch serve Q (p.bind f) w := by
  refine ends_andThen (ends_mono (fun r w hr => ?_) h)
  cases r with
  | ok a => exact hr
  | error e => exact .done hr

theorem ends_tryCatch {p : Async C R ε β} {f : ε → Async C R ε β} {Q : Except ε β → W → Prop} {w : W}
    (h : M.Ends t ch serve (fun r w => match r with
      | .ok a => Q (.ok a) w
      | .error e => M.Ends t ch serve Q (f e) w) p w) : M.Ends t ch serve Q (p.tryCatch f) w := by
  refine ends_andThen (ends_mono (fun r w hr => ?_) h)
  cases r with
  | ok a => exact .done hr
  | error e => exact hr

theorem ends_tryFinally {p : Async C R ε β} {f : Async C R ε Unit} {Q : Except ε β → W → Prop} {w : W}
    (h : M.Ends t ch serve (fun r w => M.Ends t ch serve (fun r' w => match r' with
      | .ok _ => Q r w
      | .error e => Q (.error e) w) f w) p w) : M.Ends t ch serve Q (p.tryFinally f) w := by
  refine ends_andThen (ends_mono (fun r w hr => ?_) h)
  refine ends_andThen (ends_mono (fun r' w hr' => ?_) hr)
  cases r' <;> exact .done hr'

theorem ends_call {c : C} {Q : Except ε (R c) → W → Prop} {w w' : W} {r : Except ε (R c)}
    (hx : M.exec t c ch w = some (r, w')) (hs : M.env serve w = none) (h : Q r w') :
    M.Ends t ch serve Q (Async.call c) w := .run hx hs (.done h)

/-- A loop none of whose items rejects. -/
theorem ends_forEach {ι : Type} {body : ι → Async C R ε Unit} {Q : Except ε Unit → W → Prop}
    (I : List ι → List ι → W → Prop)
    (hstep : ∀ past a rest w, I past (a :: rest) w →
      M.Ends t ch serve (fun r w => r = .ok () ∧ I (past ++ [a]) rest w) (body a) w)
    (hend : ∀ past w, I past [] w → Q (.ok ()) w) (rest past : List ι) {w : W} (hI : I past rest w) :
    M.Ends t ch serve Q (Async.forEach body rest) w := by
  induction rest generalizing past w with
  | nil => exact .done (hend past w hI)
  | cons a rest ih =>
    refine ends_bind (ends_mono (fun r w hr => ?_) (hstep past a rest w hI))
    obtain ⟨rfl, hr⟩ := hr
    exact ih (past ++ [a]) hr

/-! ## Runs -/

/-- A step of `t`, or of the environment for it. -/
def Label.Alone (t : T) (ch : Ch) (serve : E) (l : Label T Ch E A) : Prop := l = .run t ch ∨ l = .env serve

variable [DecidableEq T] {c c' : Conf W T C R ε α} {l : Label T Ch E A} {p : Async C R ε α}

/-- From `c` to `c'` only `t` runs, and the environment for it, and they run
as far as they can. -/
def Machine.RunsOut (M : Machine W T C R ε α Ch E A) (t : T) (ch : Ch) (serve : E) (c c' : Conf W T C R ε α) : Prop :=
  M.ReachWhen (fun _ l => l.Alone t ch serve) c c' ∧ ∀ l : Label T Ch E A, l.Alone t ch serve → M.step c' l = none

variable {Q : Except ε α → W → Prop}

/-- One step nearer to the end, and no other thread has moved. -/
theorem Machine.Ends.step (h : M.Ends t ch serve Q p c.world) (hstop : ∀ r w, Q r w → M.env serve w = none)
    (ht : c.threads t = .running p) (hl : l.Alone t ch serve) (hs : M.step c l = some c') :
    ∃ p', c'.threads t = .running p' ∧ M.Ends t ch serve Q p' c'.world ∧ ∀ u, u ≠ t → c'.threads u = c.threads u := by
  rcases Machine.step_cases hs with ⟨u, ch', cmd, k, r, w, rfl, hp, hx, rfl⟩ | ⟨_, _, _, rfl, _⟩ |
    ⟨e, w, rfl, hx, rfl⟩ | ⟨_, _, _, _, rfl, _⟩
  · obtain ⟨rfl, rfl⟩ : u = t ∧ ch' = ch := by simpa [Label.Alone] using hl
    rw [ht] at hp
    cases hp
    refine ⟨k r, Function.update_self .., ?_, fun u hu => Function.update_of_ne hu _ _⟩
    cases h with
    | run hx' _ h =>
      rw [hx] at hx'
      cases hx'
      exact h
    | serve hx' =>
      rw [hx] at hx'
      cases hx'
  · simp [Label.Alone] at hl
  · obtain rfl : e = serve := by simpa [Label.Alone] using hl
    refine ⟨p, ht, ?_, fun _ _ => rfl⟩
    cases h with
    | done hQ =>
      rw [hstop _ _ hQ] at hx
      cases hx
    | run _ hnone _ =>
      rw [hx] at hnone
      cases hnone
    | serve _ hsome h =>
      rw [hx] at hsome
      cases hsome
      exact h
  · simp [Label.Alone] at hl

theorem Machine.Ends.reach (h : M.Ends t ch serve Q p c.world) (hstop : ∀ r w, Q r w → M.env serve w = none)
    (ht : c.threads t = .running p) (hr : M.ReachWhen (fun _ l => l.Alone t ch serve) c c') :
    ∃ p', c'.threads t = .running p' ∧ M.Ends t ch serve Q p' c'.world ∧
      ∀ u, u ≠ t → c'.threads u = c.threads u := by
  induction hr with
  | refl => exact ⟨p, ht, h, fun _ _ => rfl⟩
  | step l _ hl hs ih =>
    obtain ⟨p₁, ht₁, h₁, hu₁⟩ := ih
    obtain ⟨p₂, ht₂, h₂, hu₂⟩ := h₁.step hstop ht₁ hl hs
    exact ⟨p₂, ht₂, h₂, fun u hu => (hu₂ u hu).trans (hu₁ u hu)⟩

/-- Where no step is possible any more the end has come. -/
theorem Machine.Ends.stopped (h : M.Ends t ch serve Q p c.world) (ht : c.threads t = .running p)
    (hstuck : ∀ l, l.Alone t ch serve → M.step c l = none) :
    ∃ r, c.threads t = .running (.done r) ∧ Q r c.world := by
  cases h with
  | done h => exact ⟨_, ht, h⟩
  | run hx =>
    have hnone := hstuck (.run t ch) (.inl rfl)
    simp only [Machine.step, ht, hx, Option.map_some] at hnone
    cases hnone
  | serve _ hs =>
    have hnone := hstuck (.env serve) (.inr rfl)
    simp only [Machine.step, hs, Option.map_some] at hnone
    cases hnone

/-- The end comes. -/
theorem Machine.Ends.exists_end (h : M.Ends t ch serve Q p c.world) (ht : c.threads t = .running p) :
    ∃ c' r, M.ReachWhen (fun _ l => l.Alone t ch serve) c c' ∧ c'.threads t = .running (.done r) ∧ Q r c'.world := by
  have gen : ∀ {p : Async C R ε α} {w : W}, M.Ends t ch serve Q p w → ∀ c₁ : Conf W T C R ε α, c₁.world = w →
      c₁.threads t = .running p → M.ReachWhen (fun _ l => l.Alone t ch serve) c c₁ →
      ∃ c' r, M.ReachWhen (fun _ l => l.Alone t ch serve) c c' ∧ c'.threads t = .running (.done r) ∧
        Q r c'.world := by
    intro p w h
    induction h with
    | done h => exact fun c₁ hw ht hr => ⟨c₁, _, hr, ht, hw ▸ h⟩
    | @run cmd k w w' r hx hs _ ih =>
      intro c₁ hw ht hr
      refine ih ⟨w', Function.update c₁.threads t (.running (k r))⟩ rfl (Function.update_self ..)
        (.step (.run t ch) hr (.inl rfl) ?_)
      simp only [Machine.step, ht, hw, hx, Option.map_some]
    | @serve cmd k w w' hx hs _ ih =>
      intro c₁ hw ht hr
      refine ih ⟨w', c₁.threads⟩ rfl ht (.step (.env serve) hr (.inr rfl) ?_)
      simp only [Machine.step, hw, hs, Option.map_some]
  exact gen h c rfl ht .refl

/-- There is no run that goes on for ever. -/
theorem Machine.Ends.acc (h : M.Ends t ch serve Q p c.world) (hstop : ∀ r w, Q r w → M.env serve w = none)
    (ht : c.threads t = .running p) :
    Acc (fun c' c => ∃ l, l.Alone t ch serve ∧ M.step c l = some c') c := by
  have gen : ∀ {p : Async C R ε α} {w : W}, M.Ends t ch serve Q p w → ∀ c₁ : Conf W T C R ε α, c₁.world = w →
      c₁.threads t = .running p → Acc (fun c' c => ∃ l, l.Alone t ch serve ∧ M.step c l = some c') c₁ := by
    intro p w h
    induction h with
    | done h =>
      intro c₁ hw ht
      refine .intro c₁ fun c' hc => ?_
      obtain ⟨l, rfl | rfl, hs⟩ := hc
      · simp only [Machine.step, ht] at hs
        cases hs
      · simp only [Machine.step, hw, hstop _ _ h, Option.map_none] at hs
        cases hs
    | run hx hnone _ ih =>
      intro c₁ hw ht
      refine .intro c₁ fun c' hc => ?_
      obtain ⟨l, rfl | rfl, hs⟩ := hc
      · simp only [Machine.step, ht, hw, hx, Option.map_some] at hs
        cases hs
        exact ih _ rfl (Function.update_self ..)
      · simp only [Machine.step, hw, hnone, Option.map_none] at hs
        cases hs
    | serve hx hsome _ ih =>
      intro c₁ hw ht
      refine .intro c₁ fun c' hc => ?_
      obtain ⟨l, rfl | rfl, hs⟩ := hc
      · simp only [Machine.step, ht, hw, hx, Option.map_none] at hs
        cases hs
      · simp only [Machine.step, hw, hsome, Option.map_some] at hs
        cases hs
        exact ih _ rfl ht
  exact gen h c rfl ht

/-- Started where nothing runs, its runs come to one end, and there nothing
runs again. -/
theorem Machine.Ends.alone (h : M.Ends t ch serve Q p c.world) (hstop : ∀ r w, Q r w → M.env serve w = none)
    {c₀ : Conf W T C R ε α} (hq : c₀.Quiet) (hc : c.threads = Function.update c₀.threads t (.running p)) :
    Acc (fun c₂ c₁ => ∃ l, l.Alone t ch serve ∧ M.step c₁ l = some c₂) c ∧ (∃ c', M.RunsOut t ch serve c c') ∧
      ∀ c', M.RunsOut t ch serve c c' → c'.Quiet ∧ ∃ r, c'.threads t = .running (.done r) ∧ Q r c'.world := by
  have ht : c.threads t = .running p := by rw [hc, Function.update_self]
  refine ⟨h.acc hstop ht, ?_, fun c' ⟨hreach, hstuck⟩ => ?_⟩
  · obtain ⟨c', r, hreach, hdone, hend⟩ := h.exists_end ht
    refine ⟨c', hreach, fun l hl => ?_⟩
    rcases hl with rfl | rfl
    · simp only [Machine.step, hdone]
    · simp only [Machine.step, hstop r _ hend, Option.map_none]
  · obtain ⟨p', hp, hends, hsame⟩ := h.reach hstop ht hreach
    obtain ⟨r, hdone, hend⟩ := hends.stopped hp hstuck
    refine ⟨fun u cmd k hu => ?_, r, hdone, hend⟩
    by_cases hut : u = t
    · subst hut
      rw [hdone] at hu
      cases hu
    · rw [hsame u hut, hc, Function.update_of_ne hut] at hu
      exact hq u cmd k hu

end

end Conc
