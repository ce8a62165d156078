import OrdersBackend.Lib.Sum

/-!
# Machines beside each other

A machine may run the procedures of another one, its hosts, beside guests of
its own. Where the other can be seen in it, up to what the hosts never look
at, a protocol of the other holds there as well if the guests keep to it.
-/

namespace Conc

namespace Async

/-! ## Blind procedures -/

variable {C : Type} {R : C → Type} {ε α β : Type}

/-- The procedure goes on as it would with the blurred results. -/
def Blind (blur : (c : C) → R c → R c) : Async C R ε α → Prop
  | .done _ => True
  | .await c k => (∀ r, k (r.map (blur c)) = k r) ∧ ∀ r, (k r).Blind blur

variable {blur : (c : C) → R c → R c}

theorem blind_done (r : Except ε α) : (Async.done r : Async C R ε α).Blind blur := trivial

theorem blind_andThen {p : Async C R ε α} {f : Except ε α → Async C R ε β} (hp : p.Blind blur)
    (hf : ∀ r, (f r).Blind blur) : (p.andThen f).Blind blur := by
  induction p with
  | done r => exact hf r
  | await c k ih => exact ⟨fun r => congrArg (·.andThen f) (hp.1 r), fun r => ih r (hp.2 r)⟩

theorem blind_bind {p : Async C R ε α} {f : α → Async C R ε β} (hp : p.Blind blur) (hf : ∀ a, (f a).Blind blur) :
    (p.bind f).Blind blur := by
  refine blind_andThen hp fun r => ?_
  cases r with
  | ok a => exact hf a
  | error e => exact blind_done _

theorem blind_tryCatch {p : Async C R ε α} {f : ε → Async C R ε α} (hp : p.Blind blur)
    (hf : ∀ e, (f e).Blind blur) : (p.tryCatch f).Blind blur := by
  refine blind_andThen hp fun r => ?_
  cases r with
  | ok a => exact blind_done _
  | error e => exact hf e

theorem blind_tryFinally {p : Async C R ε α} {f : Async C R ε Unit} (hp : p.Blind blur) (hf : f.Blind blur) :
    (p.tryFinally f).Blind blur := by
  refine blind_andThen hp fun r => blind_andThen hf fun r' => ?_
  cases r' <;> exact blind_done _

theorem blind_call {c : C} (hc : ∀ a, blur c a = a) : (call c : Async C R ε (R c)).Blind blur := by
  refine ⟨fun r => ?_, fun r => blind_done r⟩
  cases r with
  | ok a => exact congrArg (fun a => Async.done (.ok a)) (hc a)
  | error e => rfl

theorem blind_forEach {body : α → Async C R ε Unit} (hbody : ∀ a, (body a).Blind blur) (l : List α) :
    (forEach body l).Blind blur := by
  induction l with
  | nil => exact blind_done _
  | cons a l ih => exact blind_bind (hbody a) fun _ => ih

end Async

/-! ## Hosts and guests -/

section
variable {V W T C D : Type} {R : C → Type} {S : D → Type} {ε α β Ch E A B : Type}

/-- `N` runs the procedures of `M` beside guests: `view` shows the world of
`M`, and a guest is known by what `guest` says of the world. -/
structure Machine.Beside (M : Machine W T C R ε α Ch E A)
    (N : Machine V T (C ⊕ D) (Sum.elim R S) ε (α ⊕ β) Ch E (A ⊕ B)) where
  view : V → W
  blur : (c : C) → R c → R c
  guest : T → V → Prop
  exec : ∀ t c ch v (r : Except ε (R c)) v', N.exec t (.inl c) ch v = some (r, v') →
    M.exec t c ch (view v) = some (r.map (blur c), view v')
  kill : ∀ t v, view (N.kill t v) = view v ∨ view (N.kill t v) = M.kill t (view v)
  env : ∀ e v v', N.env e v = some v' → M.env e (view v) = some (view v')
  spawn : ∀ t a v p v', N.spawn t (.inl a) v = some (p, v') →
    ∃ p₀ : Async C R ε α, p = p₀.inl β ∧ p₀.Blind blur ∧ M.spawn t a (view v) = some (p₀, view v')
  join : ∀ t b v p v', N.spawn t (.inr b) v = some (p, v') →
    view v' = view v ∧ p.Issues (fun c => c.isRight) ∧ guest t v'
  exec_guest : ∀ t t' c ch v r v', N.exec t c ch v = some (r, v') → guest t' v → guest t' v'
  kill_guest : ∀ t t' v, guest t' v → guest t' (N.kill t v)
  env_guest : ∀ t' e v v', N.env e v = some v' → guest t' v → guest t' v'
  spawn_guest : ∀ t t' a v p v', N.spawn t a v = some (p, v') → guest t' v → guest t' v'

namespace Machine.Beside

variable {M : Machine W T C R ε α Ch E A} {N : Machine V T (C ⊕ D) (Sum.elim R S) ε (α ⊕ β) Ch E (A ⊕ B)}
variable (X : M.Beside N) (P : Protocol M)

/-- A host does what the protocol asks of the procedure it runs; a guest issues
none of its commands. -/
def Keeps (t : T) (p : Async (C ⊕ D) (Sum.elim R S) ε (α ⊕ β)) (v : V) : Prop :=
  (∃ p₀ : Async C R ε α, p = p₀.inl β ∧ p₀.Blind X.blur ∧ P.wp t p₀ (P.post t) (X.view v)) ∨
    p.Issues (fun c => c.isRight) ∧ X.guest t v

structure Good (c : Conf V T (C ⊕ D) (Sum.elim R S) ε (α ⊕ β)) : Prop where
  inv : P.inv (X.view c.world)
  keeps : ∀ t p, c.threads t = .running p → X.Keeps P t p c.world

/-- What the guests do is nothing that the protocol forbids. -/
def Polite : Prop := ∀ t d ch v r v', N.exec t (.inr d) ch v = some (r, v') → P.inv (X.view v) →
  P.inv (X.view v') ∧ ∀ t', t' ≠ t → P.rely t' (X.view v) (X.view v')

variable {X P}

theorem Keeps.rely {t : T} {p : Async (C ⊕ D) (Sum.elim R S) ε (α ⊕ β)} {v v' : V} (h : X.Keeps P t p v)
    (hr : P.rely t (X.view v) (X.view v')) (hg : X.guest t v → X.guest t v') : X.Keeps P t p v' := by
  rcases h with ⟨p₀, hp, hb, hwp⟩ | ⟨hp, hguest⟩
  · exact .inl ⟨p₀, hp, hb, P.wp_rely (P.post_rely t) hwp hr⟩
  · exact .inr ⟨hp, hg hguest⟩

/-- A host that waits issues a command of `M`, and its step is one of `M`. -/
theorem Good.exec {c : Conf V T (C ⊕ D) (Sum.elim R S) ε (α ⊕ β)} (h : X.Good P c) (hall : ∀ l, P.allows l)
    {t : T} {p₀ : Async C R ε α} {cmd : C ⊕ D}
    {k : Except ε (Sum.elim R S cmd) → Async (C ⊕ D) (Sum.elim R S) ε (α ⊕ β)} (hp : .await cmd k = p₀.inl β)
    (hb : p₀.Blind X.blur) (hwp : P.wp t p₀ (P.post t) (X.view c.world)) {ch : Ch}
    {r : Except ε (Sum.elim R S cmd)} {v : V} (hx : N.exec t cmd ch c.world = some (r, v)) :
    P.guar t (X.view c.world) (X.view v) ∧ P.inv (X.view v) ∧
      (∀ t', t' ≠ t → P.rely t' (X.view c.world) (X.view v)) ∧ X.Keeps P t (k r) v := by
  cases p₀ with
  | done r => cases hp
  | await c₀ k₀ =>
    cases hp
    obtain ⟨hpre, hstep⟩ := hwp _ (P.rely_refl _ _) h.inv
    have hx₀ := X.exec _ _ _ _ _ _ hx
    obtain ⟨hguar, hk⟩ := hstep ch _ _ (hall _) hx₀
    obtain ⟨hi, hr⟩ := P.exec_ok t c₀ ch _ _ _ (hall _) h.inv hpre hx₀ hguar
    exact ⟨hguar, hi, hr, .inl ⟨k₀ r, rfl, hb.2 r, hb.1 r ▸ hk⟩⟩

variable [DecidableEq T]

theorem Good.update {c : Conf V T (C ⊕ D) (Sum.elim R S) ε (α ⊕ β)} (h : X.Good P c) {t : T}
    {th : Thread (C ⊕ D) (Sum.elim R S) ε (α ⊕ β)} {v : V} (hi : P.inv (X.view v))
    (hr : ∀ t', t' ≠ t → P.rely t' (X.view c.world) (X.view v)) (hg : ∀ t', X.guest t' c.world → X.guest t' v)
    (ht : ∀ p, th = .running p → X.Keeps P t p v) : X.Good P ⟨v, Function.update c.threads t th⟩ := by
  refine ⟨hi, fun t' p hp => ?_⟩
  by_cases ht' : t' = t
  · subst ht'
    exact ht p (by simpa using hp)
  · simp only [Function.update_of_ne ht'] at hp
    exact (h.keeps t' p hp).rely (hr t' ht') (hg t')

theorem Good.step {c c' : Conf V T (C ⊕ D) (Sum.elim R S) ε (α ⊕ β)} {l : Label T Ch E (A ⊕ B)}
    (h : X.Good P c) (hall : ∀ l, P.allows l) (hpolite : X.Polite P)
    (hspawn : ∀ t a w p w', P.allows (.spawn t a) → P.inv w → M.spawn t a w = some (p, w') →
      P.wp t p (P.post t) w') (hs : N.step c l = some c') : X.Good P c' := by
  rcases Machine.step_cases hs with ⟨t, ch, cmd, k, r, v, rfl, hp, hx, rfl⟩ | ⟨t, cmd, k, rfl, hp, rfl⟩ |
    ⟨e, v, rfl, hx, rfl⟩ | ⟨t, a, p, v, rfl, hp, hx, rfl⟩
  · have hguest : ∀ t', X.guest t' c.world → X.guest t' v := fun t' => X.exec_guest _ t' _ _ _ _ _ hx
    rcases h.keeps t _ hp with ⟨p₀, hp₀, hb, hwp⟩ | ⟨hissues, hg⟩
    · obtain ⟨_, hi, hr, hk⟩ := h.exec hall hp₀ hb hwp hx
      refine h.update hi hr hguest fun p he => ?_
      cases he
      exact hk
    · cases cmd with
      | inl c => cases hissues.1
      | inr d =>
        obtain ⟨hi, hr⟩ := hpolite t d ch _ _ _ hx h.inv
        refine h.update hi hr hguest fun p he => ?_
        cases he
        exact .inr ⟨hissues.2 r, hguest t hg⟩
  · refine h.update ?_ (fun t' ht' => ?_) (fun t' => X.kill_guest t t' _) fun p he => by cases he
    · rcases X.kill t c.world with he | he <;> rw [he]
      · exact h.inv
      · exact (P.kill_ok t _ (hall _) h.inv).1
    · rcases X.kill t c.world with he | he <;> rw [he]
      · exact P.rely_refl _ _
      · exact (P.kill_ok t _ (hall _) h.inv).2 t' ht'
  · obtain ⟨hi, hr⟩ := P.env_ok e _ _ (hall _) h.inv (X.env _ _ _ hx)
    exact ⟨hi, fun t p hp => (h.keeps t p hp).rely (hr t) (X.env_guest t e _ _ hx)⟩
  · have hguest : ∀ t', X.guest t' c.world → X.guest t' v := fun t' => X.spawn_guest t t' a _ _ _ hx
    cases a with
    | inl a =>
      obtain ⟨p₀, rfl, hb, hx₀⟩ := X.spawn _ _ _ _ _ hx
      obtain ⟨hi, hr⟩ := P.spawn_ok t a _ _ _ (hall _) h.inv hx₀
      refine h.update hi hr hguest fun p he => ?_
      cases he
      exact .inl ⟨p₀, rfl, hb, hspawn t a _ _ _ (hall _) h.inv hx₀⟩
    | inr b =>
      obtain ⟨hv, hissues, hg⟩ := X.join _ _ _ _ _ hx
      refine h.update (by rw [hv]; exact h.inv) (fun t' _ => by rw [hv]; exact P.rely_refl _ _) hguest fun p he => ?_
      cases he
      exact .inr ⟨hissues, hg⟩

theorem sound {c₀ c : Conf V T (C ⊕ D) (Sum.elim R S) ε (α ⊕ β)} (hall : ∀ l, P.allows l)
    (hpolite : X.Polite P)
    (hspawn : ∀ t a w p w', P.allows (.spawn t a) → P.inv w → M.spawn t a w = some (p, w') →
      P.wp t p (P.post t) w') (h₀ : X.Good P c₀) (h : N.Reach c₀ c) : X.Good P c := by
  induction h with
  | refl => exact h₀
  | step l _ hs ih => exact ih.step hall hpolite hspawn hs

end Machine.Beside

end

end Conc
