import Mathlib.Logic.Function.Basic
import OrdersBackend.Lib.Async

/-!
# Interleaved async procedures

A machine runs any number of async procedures over one shared world. A step
resolves or rejects the command one thread waits for, kills a thread, lets the
environment act, or starts a thread. `Protocol` is a rely-guarantee discipline
for a machine, `Protocol.wp` the weakest precondition of a procedure under
interference, and `Protocol.sound` says that a machine all of whose procedures
satisfy their `wp` at the start keeps the protocol in every run whose steps the
protocol allows.
-/

namespace Conc

/-- What the threads of a machine share: how a command takes effect (`none`:
it is blocked, or the scheduler's choice does not apply), what is left behind
by a killed thread, the environment's actions, and how threads start. -/
structure Machine (W T C : Type) (R : C → Type) (ε α Ch E A : Type) where
  exec : T → (c : C) → Ch → W → Option (Except ε (R c) × W)
  kill : T → W → W
  env : E → W → Option W
  spawn : T → A → W → Option (Async C R ε α × W)

inductive Thread (C : Type) (R : C → Type) (ε α : Type) where
  | idle
  | running (p : Async C R ε α)
  | killed

structure Conf (W T C : Type) (R : C → Type) (ε α : Type) where
  world : W
  threads : T → Thread C R ε α

inductive Label (T Ch E A : Type) where
  | run (t : T) (ch : Ch)
  | kill (t : T)
  | env (e : E)
  | spawn (t : T) (a : A)

def Label.actor {T Ch E A : Type} : Label T Ch E A → Option T
  | .run t _ => some t
  | .kill t => some t
  | .env _ => none
  | .spawn t _ => some t

section
variable {W T C : Type} {R : C → Type} {ε α Ch E A : Type} [DecidableEq T]

def Machine.step (M : Machine W T C R ε α Ch E A) (c : Conf W T C R ε α) : Label T Ch E A →
    Option (Conf W T C R ε α)
  | .run t ch =>
    match c.threads t with
    | .running (.await cmd k) =>
      (M.exec t cmd ch c.world).map fun rw =>
        { world := rw.2, threads := Function.update c.threads t (.running (k rw.1)) }
    | _ => none
  | .kill t =>
    match c.threads t with
    | .running (.await _ _) =>
      some { world := M.kill t c.world, threads := Function.update c.threads t .killed }
    | _ => none
  | .env e => (M.env e c.world).map fun w => { c with world := w }
  | .spawn t a =>
    match c.threads t with
    | .idle =>
      (M.spawn t a c.world).map fun pw =>
        { world := pw.2, threads := Function.update c.threads t (.running pw.1) }
    | _ => none

def Machine.run (M : Machine W T C R ε α Ch E A) :
    Conf W T C R ε α → List (Label T Ch E A) → Option (Conf W T C R ε α)
  | c, [] => some c
  | c, l :: ls => (M.step c l).bind fun c' => Machine.run M c' ls

inductive Machine.Reach (M : Machine W T C R ε α Ch E A) (c₀ : Conf W T C R ε α) :
    Conf W T C R ε α → Prop
  | refl : Machine.Reach M c₀ c₀
  | step {c c' : Conf W T C R ε α} (l : Label T Ch E A) :
      Machine.Reach M c₀ c → M.step c l = some c' → Machine.Reach M c₀ c'

/-- The configurations of the runs all of whose steps satisfy `P`. -/
inductive Machine.ReachWhen (M : Machine W T C R ε α Ch E A) (P : Conf W T C R ε α → Label T Ch E A → Prop)
    (c₀ : Conf W T C R ε α) : Conf W T C R ε α → Prop
  | refl : Machine.ReachWhen M P c₀ c₀
  | step {c c' : Conf W T C R ε α} (l : Label T Ch E A) :
      Machine.ReachWhen M P c₀ c → P c l → M.step c l = some c' → Machine.ReachWhen M P c₀ c'

variable {M : Machine W T C R ε α Ch E A}

theorem Machine.ReachWhen.reach {P : Conf W T C R ε α → Label T Ch E A → Prop} {c₀ c : Conf W T C R ε α}
    (h : M.ReachWhen P c₀ c) : M.Reach c₀ c := by
  induction h with
  | refl => exact .refl
  | step l _ _ hs ih => exact .step l ih hs

/-- A run, with a check before each step. -/
def Machine.runWhen (M : Machine W T C R ε α Ch E A) (check : Conf W T C R ε α → Label T Ch E A → Bool) :
    Conf W T C R ε α → List (Label T Ch E A) → Option (Conf W T C R ε α)
  | c, [] => some c
  | c, l :: ls => if check c l then (M.step c l).bind fun c' => Machine.runWhen M check c' ls else none

theorem Machine.ReachWhen.of_run {check : Conf W T C R ε α → Label T Ch E A → Bool} {c₀ : Conf W T C R ε α}
    {ls : List (Label T Ch E A)} {c c' : Conf W T C R ε α}
    (h : M.ReachWhen (fun c l => check c l = true) c₀ c) (hr : M.runWhen check c ls = some c') :
    M.ReachWhen (fun c l => check c l = true) c₀ c' := by
  induction ls generalizing c with
  | nil => cases hr; exact h
  | cons l ls ih =>
    rw [Machine.runWhen] at hr
    split at hr
    · rename_i hl
      obtain ⟨c₁, h₁, h₂⟩ := Option.bind_eq_some_iff.mp hr
      exact ih (.step l h hl h₁) h₂
    · cases hr

theorem Machine.reachWhen_getD_runWhen (check : Conf W T C R ε α → Label T Ch E A → Bool) (c : Conf W T C R ε α)
    (ls : List (Label T Ch E A)) :
    M.ReachWhen (fun c l => check c l = true) c ((M.runWhen check c ls).getD c) := by
  cases h : M.runWhen check c ls with
  | none => exact .refl
  | some c' => exact .of_run .refl h

theorem Machine.ReachWhen.mono {P P' : Conf W T C R ε α → Label T Ch E A → Prop} {c₀ c : Conf W T C R ε α}
    (hP : ∀ c l, P c l → P' c l) (h : M.ReachWhen P c₀ c) : M.ReachWhen P' c₀ c := by
  induction h with
  | refl => exact .refl
  | step l _ hl hs ih => exact .step l ih (hP _ _ hl) hs

theorem Machine.Reach.when {P : Conf W T C R ε α → Label T Ch E A → Prop} {c₀ c : Conf W T C R ε α}
    (h : M.Reach c₀ c) (hP : ∀ c l, P c l) : M.ReachWhen P c₀ c := by
  induction h with
  | refl => exact .refl
  | step l _ hs ih => exact .step l ih (hP _ l) hs

theorem Machine.Reach.trans {c₀ c₁ c₂ : Conf W T C R ε α} (h₁ : M.Reach c₀ c₁)
    (h₂ : M.Reach c₁ c₂) : M.Reach c₀ c₂ := by
  induction h₂ with
  | refl => exact h₁
  | step l _ hs ih => exact .step l ih hs

theorem Machine.reach_of_run {ls : List (Label T Ch E A)} {c c' : Conf W T C R ε α}
    (h : M.run c ls = some c') : M.Reach c c' := by
  induction ls generalizing c with
  | nil => cases h; exact .refl
  | cons l ls ih =>
    obtain ⟨c₁, h₁, h₂⟩ := Option.bind_eq_some_iff.mp h
    exact (Machine.Reach.step l .refl h₁).trans (ih h₂)

theorem Machine.run_append {ls ls' : List (Label T Ch E A)} {c c' : Conf W T C R ε α} (h : M.run c ls = some c') :
    M.run c (ls ++ ls') = M.run c' ls' := by
  induction ls generalizing c with
  | nil =>
    cases h
    rfl
  | cons l ls ih =>
    obtain ⟨c₁, h₁, h₂⟩ := Option.bind_eq_some_iff.mp h
    rw [List.cons_append, Machine.run, h₁]
    exact ih h₂

theorem Machine.reach_getD_run (c : Conf W T C R ε α) (ls : List (Label T Ch E A)) :
    M.Reach c ((M.run c ls).getD c) := by
  cases h : M.run c ls with
  | none => exact .refl
  | some c' => exact Machine.reach_of_run h

theorem Machine.ReachWhen.of_labels {P : Label T Ch E A → Prop} {ls : List (Label T Ch E A)} (hP : ∀ l ∈ ls, P l)
    {c₀ c c' : Conf W T C R ε α} (h : M.ReachWhen (fun _ l => P l) c₀ c) (hr : M.run c ls = some c') :
    M.ReachWhen (fun _ l => P l) c₀ c' := by
  induction ls generalizing c with
  | nil => cases hr; exact h
  | cons l ls ih =>
    obtain ⟨c₁, h₁, h₂⟩ := Option.bind_eq_some_iff.mp hr
    exact ih (fun l' hl' => hP l' (List.mem_cons_of_mem _ hl')) (.step l h (hP l (List.mem_cons_self ..)) h₁) h₂

theorem Machine.step_cases {c c' : Conf W T C R ε α} {l : Label T Ch E A}
    (h : M.step c l = some c') :
    (∃ t ch cmd k r w, l = .run t ch ∧ c.threads t = .running (.await cmd k) ∧
      M.exec t cmd ch c.world = some (r, w) ∧
      c' = ⟨w, Function.update c.threads t (.running (k r))⟩) ∨
    (∃ t cmd k, l = .kill t ∧ c.threads t = .running (.await cmd k) ∧
      c' = ⟨M.kill t c.world, Function.update c.threads t .killed⟩) ∨
    (∃ e w, l = .env e ∧ M.env e c.world = some w ∧ c' = ⟨w, c.threads⟩) ∨
    (∃ t a p w, l = .spawn t a ∧ c.threads t = .idle ∧ M.spawn t a c.world = some (p, w) ∧
      c' = ⟨w, Function.update c.threads t (.running p)⟩) := by
  cases l with
  | run t ch =>
    simp only [Machine.step] at h
    split at h
    · rename_i cmd k hp
      obtain ⟨⟨r, w⟩, hx, rfl⟩ := Option.map_eq_some_iff.mp h
      exact .inl ⟨t, ch, cmd, k, r, w, rfl, hp, hx, rfl⟩
    · cases h
  | kill t =>
    simp only [Machine.step] at h
    split at h
    · rename_i cmd k hp
      cases h
      exact .inr (.inl ⟨t, cmd, k, rfl, hp, rfl⟩)
    · cases h
  | env e =>
    obtain ⟨w, hx, rfl⟩ := Option.map_eq_some_iff.mp h
    exact .inr (.inr (.inl ⟨e, w, rfl, hx, rfl⟩))
  | spawn t a =>
    simp only [Machine.step] at h
    split at h
    · rename_i hp
      obtain ⟨⟨p, w⟩, hx, rfl⟩ := Option.map_eq_some_iff.mp h
      exact .inr (.inr (.inr ⟨t, a, p, w, rfl, hp, hx, rfl⟩))
    · cases h

theorem thread_of_update {c : Conf W T C R ε α} {t t' : T} {th th' : Thread C R ε α} {w : W} (hth : th ≠ th')
    (h : (⟨w, Function.update c.threads t th⟩ : Conf W T C R ε α).threads t' = th') :
    some t ≠ some t' ∧ c.threads t' = th' := by
  have h' : Function.update c.threads t th t' = th' := h
  by_cases ht : t' = t
  · subst ht
    rw [Function.update_self] at h'
    exact (hth h').elim
  · rw [Function.update_of_ne ht] at h'
    exact ⟨fun he => ht (Option.some.inj he).symm, h'⟩

theorem Machine.idle_step {c c' : Conf W T C R ε α} {l : Label T Ch E A} (h : M.step c l = some c') {t : T}
    (ht : c'.threads t = .idle) : l.actor ≠ some t ∧ c.threads t = .idle := by
  rcases Machine.step_cases h with ⟨u, ch, cmd, k, r, w, rfl, _, _, rfl⟩ | ⟨u, cmd, k, rfl, _, rfl⟩ |
    ⟨e, w, rfl, _, rfl⟩ | ⟨u, a, p, w, rfl, _, _, rfl⟩
  · exact thread_of_update (by simp) ht
  · exact thread_of_update (by simp) ht
  · exact ⟨by simp [Label.actor], ht⟩
  · exact thread_of_update (by simp) ht

/-- A thread that is dead took no step, or died in it. -/
theorem Machine.killed_step {c c' : Conf W T C R ε α} {l : Label T Ch E A} (h : M.step c l = some c') {t : T}
    (ht : c'.threads t = .killed) :
    l.actor ≠ some t ∧ c.threads t = .killed ∨ c'.world = M.kill t c.world := by
  rcases Machine.step_cases h with ⟨u, ch, cmd, k, r, w, rfl, _, _, rfl⟩ | ⟨u, cmd, k, rfl, _, rfl⟩ |
    ⟨e, w, rfl, _, rfl⟩ | ⟨u, a, p, w, rfl, _, _, rfl⟩
  · exact .inl (thread_of_update (by simp) ht)
  · by_cases hu : t = u
    · subst hu
      exact .inr rfl
    · have ht' : Function.update c.threads u .killed t = .killed := ht
      rw [Function.update_of_ne hu] at ht'
      exact .inl ⟨fun he => hu (Option.some.inj he).symm, ht'⟩
  · exact .inl ⟨by simp [Label.actor], ht⟩
  · exact .inl (thread_of_update (by simp) ht)

/-! ## Quiet configurations -/

/-- No thread waits for a command. -/
def Conf.Quiet (c : Conf W T C R ε α) : Prop := ∀ t cmd k, c.threads t ≠ .running (.await cmd k)

/-- What is running can be killed, and leaves what a kill leaves. -/
theorem Machine.reach_quiet {P : W → Prop} (hkill : ∀ t w, P w → P (M.kill t w)) (ts : List T)
    {c : Conf W T C R ε α} (hts : ∀ t cmd k, c.threads t = .running (.await cmd k) → t ∈ ts) (hP : P c.world) :
    ∃ c', M.Reach c c' ∧ c'.Quiet ∧ P c'.world := by
  induction ts generalizing c with
  | nil => exact ⟨c, .refl, fun t cmd k ht => List.not_mem_nil (hts t cmd k ht), hP⟩
  | cons t ts ih =>
    by_cases hrun : ∃ cmd k, c.threads t = .running (.await cmd k)
    · obtain ⟨cmd, k, ht⟩ := hrun
      let c₁ : Conf W T C R ε α := ⟨M.kill t c.world, Function.update c.threads t .killed⟩
      have hstep : M.step c (.kill t) = some c₁ := by simp only [Machine.step, ht, c₁]
      obtain ⟨c', hr, hq, hP'⟩ := ih (c := c₁) (fun u cmd k hu => by
        obtain ⟨hne, hu⟩ := thread_of_update (by simp) hu
        exact (List.mem_cons.mp (hts u cmd k hu)).resolve_left fun he => hne (by rw [he])) (hkill t _ hP)
      exact ⟨c', (Machine.Reach.step _ .refl hstep).trans hr, hq, hP'⟩
    · refine ih (fun u cmd k hu => (List.mem_cons.mp (hts u cmd k hu)).resolve_left fun he => ?_) hP
      subst he
      exact hrun ⟨cmd, k, hu⟩

/-- A thread that has started, and waits for nothing, does nothing more. -/
theorem Machine.over_step {c c' : Conf W T C R ε α} {l : Label T Ch E A} (h : M.step c l = some c') {t : T}
    (ht : c.threads t ≠ .idle) (hover : ∀ cmd k, c.threads t ≠ .running (.await cmd k)) :
    l.actor ≠ some t ∧ c'.threads t = c.threads t := by
  rcases Machine.step_cases h with ⟨u, ch, cmd, k, r, w, rfl, hu, _, rfl⟩ | ⟨u, cmd, k, rfl, hu, rfl⟩ |
    ⟨e, w, rfl, _, rfl⟩ | ⟨u, a, p, w, rfl, hu, _, rfl⟩
  · have hne : t ≠ u := fun he => hover cmd k (he ▸ hu)
    exact ⟨fun he => hne (Option.some.inj he).symm, Function.update_of_ne hne _ _⟩
  · have hne : t ≠ u := fun he => hover cmd k (he ▸ hu)
    exact ⟨fun he => hne (Option.some.inj he).symm, Function.update_of_ne hne _ _⟩
  · exact ⟨by simp [Label.actor], rfl⟩
  · have hne : t ≠ u := fun he => ht (he ▸ hu)
    exact ⟨fun he => hne (Option.some.inj he).symm, Function.update_of_ne hne _ _⟩

/-- From a quiet configuration on, what had started is as it was. -/
theorem Machine.Reach.over {c c' : Conf W T C R ε α} (hq : c.Quiet) (h : M.Reach c c') {t : T}
    (ht : c.threads t ≠ .idle) : c'.threads t = c.threads t := by
  induction h with
  | refl => rfl
  | step l _ hs ih => rw [(Machine.over_step hs (ih ▸ ht) (fun cmd k => ih ▸ hq t cmd k)).2, ih]

end

/-! ## A procedure on its own -/

section
variable {W T C : Type} {R : C → Type} {ε α β Ch E A : Type}

/-- The procedure with no step of another between its own, each of its commands
ending as `choose` says. -/
def Machine.alone (M : Machine W T C R ε α Ch E A) (t : T) (choose : C → Ch) :
    Async C R ε β → W → Option (Except ε β × W)
  | .done r, w => some (r, w)
  | .await c k, w => (M.exec t c (choose c) w).bind fun rw => Machine.alone M t choose (k rw.1) rw.2

variable {M : Machine W T C R ε α Ch E A} {t : T} {choose : C → Ch}

theorem Machine.alone_andThen {γ : Type} {p : Async C R ε β} {f : Except ε β → Async C R ε γ} {w : W} :
    M.alone t choose (p.andThen f) w =
      (M.alone t choose p w).bind fun rw => M.alone t choose (f rw.1) rw.2 := by
  induction p generalizing w with
  | done r => rfl
  | await c k ih =>
    show (M.exec t c (choose c) w).bind _ = ((M.exec t c (choose c) w).bind _).bind _
    rw [Option.bind_assoc]
    exact congrArg _ (funext fun rw => ih rw.1)

theorem Machine.alone_bind {γ : Type} {p : Async C R ε β} {f : β → Async C R ε γ} {w : W} :
    M.alone t choose (p.bind f) w = (M.alone t choose p w).bind fun rw => match rw.1 with
      | .ok a => M.alone t choose (f a) rw.2
      | .error e => some (.error e, rw.2) := by
  rw [Async.bind, Machine.alone_andThen]
  congr 1
  funext rw
  cases rw.1 <;> rfl

/-- What a procedure does on its own is a run of the machine. -/
theorem Machine.run_alone [DecidableEq T] {c : Conf W T C R ε α} {p : Async C R ε α} {r : Except ε α} {w : W}
    (ht : c.threads t = .running p) (h : M.alone t choose p c.world = some (r, w)) :
    ∃ chs : List Ch, M.run c (chs.map (.run t)) =
      some { world := w, threads := Function.update c.threads t (.running (.done r)) } := by
  induction p generalizing c with
  | done r' =>
    cases h
    exact ⟨[], by rw [← ht, Function.update_eq_self]; rfl⟩
  | await cmd k ih =>
    obtain ⟨⟨r₁, w₁⟩, hx, h₁⟩ := Option.bind_eq_some_iff.mp h
    obtain ⟨chs, hchs⟩ := ih r₁ (c := { world := w₁, threads := Function.update c.threads t (.running (k r₁)) })
      (Function.update_self ..) h₁
    rw [Function.update_idem] at hchs
    refine ⟨choose cmd :: chs, ?_⟩
    simp only [List.map_cons, Machine.run, Machine.step, ht, hx, Option.map_some, Option.bind_some]
    exact hchs

end

/-- A rely-guarantee discipline for the runs whose labels it allows. `rely t` is what the other threads and the
environment may do between two steps of `t`; `guar t` is what a step of `t`
must do; `pre t c` must hold whenever `t` waits for `c`; `post t` holds of
the outcome of `t` from its end on. -/
structure Protocol {W T C : Type} {R : C → Type} {ε α Ch E A : Type}
    (M : Machine W T C R ε α Ch E A) where
  allows : Label T Ch E A → Prop
  inv : W → Prop
  rely : T → W → W → Prop
  guar : T → W → W → Prop
  pre : T → C → W → Prop
  post : T → Except ε α → W → Prop
  rely_refl : ∀ t w, rely t w w
  rely_trans : ∀ t w w' w'', rely t w w' → rely t w' w'' → rely t w w''
  post_rely : ∀ t r w w', post t r w → rely t w w' → post t r w'
  exec_ok : ∀ t c ch w r w', allows (.run t ch) → inv w → pre t c w → M.exec t c ch w = some (r, w') →
    guar t w w' → inv w' ∧ ∀ t', t' ≠ t → rely t' w w'
  kill_ok : ∀ t w, allows (.kill t) → inv w → inv (M.kill t w) ∧ ∀ t', t' ≠ t → rely t' w (M.kill t w)
  env_ok : ∀ e w w', allows (.env e) → inv w → M.env e w = some w' → inv w' ∧ ∀ t, rely t w w'
  spawn_ok : ∀ t a w p w', allows (.spawn t a) → inv w → M.spawn t a w = some (p, w') →
    inv w' ∧ ∀ t', t' ≠ t → rely t' w w'

namespace Protocol

section
variable {W T C : Type} {R : C → Type} {ε α β Ch E A : Type}
variable {M : Machine W T C R ε α Ch E A} (P : Protocol M)

/-- From `w`, whatever the others do, every allowed step of the procedure
respects the protocol and every outcome satisfies `Q`. -/
def wp (t : T) : Async C R ε β → (Except ε β → W → Prop) → W → Prop
  | .done r, Q, w => Q r w
  | .await c k, Q, w => ∀ w', P.rely t w w' → P.inv w' → P.pre t c w' ∧
      ∀ ch r w'', P.allows (.run t ch) → M.exec t c ch w' = some (r, w'') → P.guar t w' w'' ∧ wp t (k r) Q w''

theorem wp_rely {t : T} {p : Async C R ε β} {Q : Except ε β → W → Prop}
    (hQ : ∀ r w w', Q r w → P.rely t w w' → Q r w') {w w' : W} (h : P.wp t p Q w)
    (hr : P.rely t w w') : P.wp t p Q w' := by
  cases p with
  | done r => exact hQ r w w' h hr
  | await c k => exact fun w'' hr' hi => h w'' (P.rely_trans _ _ _ _ hr hr') hi

theorem wp_mono {t : T} {p : Async C R ε β} {Q Q' : Except ε β → W → Prop}
    (hQ : ∀ r w, Q r w → Q' r w) {w : W} (h : P.wp t p Q w) : P.wp t p Q' w := by
  induction p generalizing w with
  | done r => exact hQ r w h
  | await c k ih =>
    intro w' hr hi
    obtain ⟨hp, hx⟩ := h w' hr hi
    exact ⟨hp, fun ch r w'' ha he => ⟨(hx ch r w'' ha he).1, ih r (hx ch r w'' ha he).2⟩⟩

theorem wp_andThen {γ : Type} {t : T} {p : Async C R ε β} {f : Except ε β → Async C R ε γ}
    {Q : Except ε γ → W → Prop} {w : W} (h : P.wp t p (fun r w => P.wp t (f r) Q w) w) :
    P.wp t (p.andThen f) Q w := by
  induction p generalizing w with
  | done r => exact h
  | await c k ih =>
    intro w' hr hi
    obtain ⟨hp, hx⟩ := h w' hr hi
    exact ⟨hp, fun ch r w'' ha he => ⟨(hx ch r w'' ha he).1, ih r (hx ch r w'' ha he).2⟩⟩

theorem wp_bind {γ : Type} {t : T} {p : Async C R ε β} {f : β → Async C R ε γ}
    {Q : Except ε γ → W → Prop} {w : W}
    (h : P.wp t p (fun r w => match r with
      | .ok a => P.wp t (f a) Q w
      | .error e => Q (.error e) w) w) : P.wp t (p.bind f) Q w := by
  refine P.wp_andThen (P.wp_mono (fun r w hr => ?_) h)
  cases r <;> exact hr

theorem wp_check {γ : Type} {t : T} {x : Except ε β} {f : β → Async C R ε γ} {Q : Except ε γ → W → Prop} {w : W}
    (herr : ∀ e, x = .error e → Q (.error e) w) (hok : ∀ a, x = .ok a → P.wp t (f a) Q w) :
    P.wp t ((Async.ofExcept x).bind f) Q w := by
  cases x with
  | error e => exact herr e rfl
  | ok a => exact hok a rfl

theorem wp_tryCatch {t : T} {p : Async C R ε β} {f : ε → Async C R ε β}
    {Q : Except ε β → W → Prop} {w : W}
    (h : P.wp t p (fun r w => match r with
      | .ok a => Q (.ok a) w
      | .error e => P.wp t (f e) Q w) w) : P.wp t (p.tryCatch f) Q w := by
  refine P.wp_andThen (P.wp_mono (fun r w hr => ?_) h)
  cases r <;> exact hr

theorem wp_tryFinally {t : T} {p : Async C R ε β} {f : Async C R ε Unit}
    {Q : Except ε β → W → Prop} {w : W}
    (h : P.wp t p (fun r w => P.wp t f (fun r' w => match r' with
      | .ok _ => Q r w
      | .error e => Q (.error e) w) w) w) : P.wp t (p.tryFinally f) Q w := by
  refine P.wp_andThen (P.wp_mono (fun r w hr => ?_) h)
  refine P.wp_andThen (P.wp_mono (fun r' w hr' => ?_) hr)
  cases r' <;> exact hr'

theorem wp_call {t : T} {c : C} {Q : Except ε (R c) → W → Prop} {w : W}
    (h : ∀ w', P.rely t w w' → P.inv w' → P.pre t c w' ∧
      ∀ ch r w'', P.allows (.run t ch) → M.exec t c ch w' = some (r, w'') → P.guar t w' w'' ∧ Q r w'') :
    P.wp t (Async.call c) Q w := h

/-- A loop, with an invariant that speaks of the items done and those left. -/
theorem wp_forEach {ι : Type} {t : T} {body : ι → Async C R ε Unit} {Q : Except ε Unit → W → Prop}
    (I : List ι → List ι → W → Prop) :
    ∀ (rest past : List ι) {w : W}, I past rest w →
      (∀ past a rest w, I past (a :: rest) w → P.wp t (body a) (fun r w => match r with
        | .ok _ => I (past ++ [a]) rest w
        | .error e => Q (.error e) w) w) →
      (∀ past w, I past [] w → Q (.ok ()) w) → P.wp t (Async.forEach body rest) Q w
  | [], past, w, hI, _, hend => hend past w hI
  | a :: rest, past, w, hI, hstep, hend => by
    refine P.wp_bind (P.wp_mono (fun r w hr => ?_) (hstep past a rest w hI))
    cases r with
    | ok _ => exact wp_forEach I rest (past ++ [a]) hr hstep hend
    | error e => exact hr

/-- What the others and every step preserve holds of the outcome as well. -/
theorem wp_invariant {t : T} {I : W → Prop} {p : Async C R ε β} {Q : Except ε β → W → Prop}
    (hrely : ∀ w w', I w → P.rely t w w' → I w')
    (hexec : ∀ c ch r w w', I w → M.exec t c ch w = some (r, w') → I w') {w : W} (hI : I w) (h : P.wp t p Q w) :
    P.wp t p (fun r w' => Q r w' ∧ I w') w := by
  induction p generalizing w with
  | done r => exact ⟨h, hI⟩
  | await c k ih =>
    intro w' hr hi
    obtain ⟨hp, hx⟩ := h w' hr hi
    refine ⟨hp, fun ch r w'' ha he => ?_⟩
    obtain ⟨hg, hk⟩ := hx ch r w'' ha he
    exact ⟨hg, ih r (hexec c ch r w' w'' (hrely w w' hI hr) he) hk⟩

/-- A procedure of which only its commands matter, with an invariant of its own. -/
theorem wp_issues {t : T} {D : C → Prop} {I : W → Prop} {p : Async C R ε β} {Q : Except ε β → W → Prop}
    (hrely : ∀ w w', I w → P.rely t w w' → I w')
    (hpre : ∀ c w, D c → I w → P.inv w → P.pre t c w)
    (hexec : ∀ c ch r w w', D c → I w → M.exec t c ch w = some (r, w') → P.guar t w w' ∧ I w')
    (hQ : ∀ r w, I w → Q r w) (hp : p.Issues D) {w : W} (hI : I w) : P.wp t p Q w := by
  induction p generalizing w with
  | done r => exact hQ r w hI
  | await c k ih =>
    intro w' hr hi
    have hI' : I w' := hrely w w' hI hr
    refine ⟨hpre c w' hp.1 hI' hi, fun ch r w'' _ hx => ?_⟩
    obtain ⟨hg, hI''⟩ := hexec c ch r w' w'' hp.1 hI' hx
    exact ⟨hg, ih r (hp.2 r) hI''⟩

/-- The protocol holds: the invariant, and the `wp` of every running thread. -/
def Good (c : Conf W T C R ε α) : Prop :=
  P.inv c.world ∧ ∀ t p, c.threads t = .running p → P.wp t p (P.post t) c.world

theorem good_update [DecidableEq T] {c : Conf W T C R ε α} (h : P.Good c) {t : T} {th : Thread C R ε α} {w : W}
    (hi : P.inv w) (hr : ∀ t', t' ≠ t → P.rely t' c.world w)
    (ht : ∀ p, th = .running p → P.wp t p (P.post t) w) :
    P.Good ⟨w, Function.update c.threads t th⟩ := by
  refine ⟨hi, fun t' p hp => ?_⟩
  by_cases ht' : t' = t
  · subst ht'
    exact ht p (by simpa using hp)
  · simp only [Function.update_of_ne ht'] at hp
    exact P.wp_rely (P.post_rely t') (h.2 t' p hp) (hr t' ht')

variable [DecidableEq T]

/-- An allowed step keeps the protocol if a thread that it starts does, and the
threads it does not belong to see only what they rely on. -/
theorem step_ok {c c' : Conf W T C R ε α} {l : Label T Ch E A} (h : P.Good c) (ha : P.allows l)
    (hspawn : ∀ t a w p, l = .spawn t a → c.threads t = .idle → M.spawn t a c.world = some (p, w) →
      P.wp t p (P.post t) w)
    (hs : M.step c l = some c') :
    P.Good c' ∧ ∀ t, l.actor ≠ some t → P.rely t c.world c'.world := by
  rcases Machine.step_cases hs with ⟨t, ch, cmd, k, r, w, rfl, hp, hx, rfl⟩ | ⟨t, cmd, k, rfl, hp, rfl⟩ |
    ⟨e, w, rfl, hx, rfl⟩ | ⟨t, a, p, w, rfl, hp, hx, rfl⟩
  · have hw := h.2 t _ hp c.world (P.rely_refl t c.world) h.1
    obtain ⟨hg, hk⟩ := hw.2 ch r w ha hx
    obtain ⟨hi, hr⟩ := P.exec_ok t cmd ch c.world r w ha h.1 hw.1 hx hg
    refine ⟨P.good_update h hi hr ?_, fun t' ht' => hr t' fun e => ht' (by rw [e]; rfl)⟩
    intro p hp'
    cases hp'
    exact hk
  · obtain ⟨hi, hr⟩ := P.kill_ok t c.world ha h.1
    exact ⟨P.good_update h hi hr (fun p hp' => by cases hp'),
      fun t' ht' => hr t' fun e => ht' (by rw [e]; rfl)⟩
  · obtain ⟨hi, hr⟩ := P.env_ok e c.world w ha h.1 hx
    refine ⟨⟨hi, fun t p hp => ?_⟩, fun t' _ => hr t'⟩
    exact P.wp_rely (P.post_rely t) (h.2 t p hp) (hr t)
  · obtain ⟨hi, hr⟩ := P.spawn_ok t a c.world p w ha h.1 hx
    refine ⟨P.good_update h hi hr ?_, fun t' ht' => hr t' fun e => ht' (by rw [e]; rfl)⟩
    intro p' hp'
    cases hp'
    exact hspawn t a w p rfl hp hx

theorem sound {c₀ c : Conf W T C R ε α}
    (hspawn : ∀ t a w p w', P.allows (.spawn t a) → P.inv w → M.spawn t a w = some (p, w') →
      P.wp t p (P.post t) w')
    (h₀ : P.Good c₀) (h : M.ReachWhen (fun _ l => P.allows l) c₀ c) : P.Good c := by
  induction h with
  | refl => exact h₀
  | @step c c' l _ ha hs ih =>
    refine (P.step_ok ih ha (fun t a w p hl _ hx => ?_) hs).1
    subst hl
    exact hspawn t a c.world p w ha ih.1 hx

/-- The same, where a thread may count on what holds of every thread before it
starts, and with what is left of a thread that has died. -/
theorem sound_threads {J K : T → W → Prop} (hJ : ∀ t w w', J t w → P.rely t w w' → J t w')
    (hK : ∀ t w w', K t w → P.rely t w w' → K t w') (hkill : ∀ t w, P.inv w → K t (M.kill t w))
    (hspawn : ∀ t a w p w', P.allows (.spawn t a) → P.inv w → J t w → M.spawn t a w = some (p, w') →
      P.wp t p (P.post t) w')
    {c₀ c : Conf W T C R ε α} (h₀ : P.Good c₀) (hJ₀ : ∀ t, c₀.threads t = .idle → J t c₀.world)
    (hK₀ : ∀ t, c₀.threads t = .killed → K t c₀.world) (h : M.ReachWhen (fun _ l => P.allows l) c₀ c) :
    P.Good c ∧ (∀ t, c.threads t = .idle → J t c.world) ∧ ∀ t, c.threads t = .killed → K t c.world := by
  induction h with
  | refl => exact ⟨h₀, hJ₀, hK₀⟩
  | @step c c' l _ ha hs ih =>
    obtain ⟨hgood, hidle, hkilled⟩ := ih
    obtain ⟨hgood', hother⟩ := P.step_ok hgood ha (fun t a w p hl ht hx => by
      subst hl
      exact hspawn t a c.world p w ha hgood.1 (hidle t ht) hx) hs
    refine ⟨hgood', fun t ht => ?_, fun t ht => ?_⟩
    · obtain ⟨hl, ht'⟩ := Machine.idle_step hs ht
      exact hJ t c.world c'.world (hidle t ht') (hother t hl)
    · rcases Machine.killed_step hs ht with ⟨hl, ht'⟩ | hw
      · exact hK t c.world c'.world (hkilled t ht') (hother t hl)
      · rw [hw]
        exact hkill t c.world hgood.1

theorem sound_fresh {J : T → W → Prop} (hJ : ∀ t w w', J t w → P.rely t w w' → J t w')
    (hspawn : ∀ t a w p w', P.allows (.spawn t a) → P.inv w → J t w → M.spawn t a w = some (p, w') →
      P.wp t p (P.post t) w')
    {c₀ c : Conf W T C R ε α} (h₀ : P.Good c₀) (hJ₀ : ∀ t, c₀.threads t = .idle → J t c₀.world)
    (h : M.ReachWhen (fun _ l => P.allows l) c₀ c) : P.Good c :=
  (P.sound_threads (K := fun _ _ => True) hJ (fun _ _ _ _ _ => trivial) (fun _ _ _ => trivial) hspawn h₀ hJ₀
    (fun _ _ => trivial) h).1

end

section
variable {W T C : Type} {R : C → Type} {ε α Ch E A : Type}
variable {M : Machine W T C R ε α Ch E A} {P : Protocol M} {c : Conf W T C R ε α}

theorem Good.pre (h : P.Good c)
    {t : T} {cmd : C} {k : Except ε (R cmd) → Async C R ε α}
    (hp : c.threads t = .running (.await cmd k)) : P.pre t cmd c.world :=
  (h.2 t _ hp c.world (P.rely_refl t c.world) h.1).1

theorem Good.guar (h : P.Good c) {t : T} {cmd : C} {k : Except ε (R cmd) → Async C R ε α}
    (hp : c.threads t = .running (.await cmd k)) {ch : Ch} {r : Except ε (R cmd)} {w : W}
    (ha : P.allows (.run t ch)) (hx : M.exec t cmd ch c.world = some (r, w)) : P.guar t c.world w :=
  ((h.2 t _ hp c.world (P.rely_refl t c.world) h.1).2 ch r w ha hx).1

theorem Good.post (h : P.Good c) {t : T} {r : Except ε α}
    (hp : c.threads t = .running (.done r)) : P.post t r c.world :=
  h.2 t _ hp

end

end Protocol

end Conc
