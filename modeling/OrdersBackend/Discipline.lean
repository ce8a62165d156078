import OrdersBackend.Lib.Threads
import OrdersBackend.SagaRuns
import OrdersBackend.Sessions

/-!
# The discipline of the procedures

Each step of a thread is a run of its own steps of the saga, or nothing; all
the others' steps leave the thread's part of the world and are steps of the
saga by others. This makes the system an instance of `Protocol`.
-/

namespace OrdersBackend

open Conc

def Others (cfg : Config) (t : Tid) : Shared → Shared → Prop := Runs (Step cfg) (· ≠ some t)

def Own (cfg : Config) (t : Tid) : Shared → Shared → Prop := Runs (Step cfg) (· = some t)

/-- A thread that has not started has left no trace in the world. -/
structure Unused (t : Tid) (w : World) : Prop where
  loc : w.loc t = .init
  locks : ∀ r, w.locks r ≠ some t

/-- What holds in every reachable world. -/
structure WorldInv (cfg : Config) (c : Catalogue) (w : World) : Prop where
  saga : Saga cfg c w.toShared
  logs : ∀ t, LogLocked t w
  unused : ∀ t, w.jobs t = none → Unused t w

/-- When a thread may wait for a further connection or for a product. It asks
for a connection as a call that holds just its query runner, and no lock; it
locks the products in the order of the table, or, in a compensation, in that of
the items. -/
def Ready (t : Tid) : Cmd → World → Prop
  | .acquire _, w =>
    (∃ req, w.jobs t = some (.create req)) ∧ (w.pool .api).count t = 1 ∧ ∀ r, w.locks r ≠ some t
  | .lockProduct id, w =>
    ∃ past rest, (past ++ id :: rest).Sublist (w.db.products.map (·.id)) ∧
      ∀ q, w.locks (.product q) = some t ↔ q ∈ past
  | .saveStock id _, w => w.locks (.product id) = some t
  | .incrementStock id _, w =>
    ∃ oid past rest, w.phase t = .rejected oid ∧ (w.db.itemsOf oid).map (·.productId) = past ++ id :: rest ∧
      ∀ q, w.locks (.product q) = some t ↔ q ∈ past
  | _, _ => True

/-- A call that rejects has compensated what it reserved, or could not, or has
failed late. -/
def Local.Rejected (L : Local) : Prop :=
  L.undone = true ∨
    L.late = false ∧ (L.phase = .start ∨ ∃ id, L.phase = .released id) ∨
    L.late = true ∧ ∃ id, L.phase = .requested id ∨ L.phase = .paid id ∨ ∃ mid, L.phase = .identified id mid

/-- What a result says of the order is stored. -/
structure Stored (s : Shared) (req : CreateOrderRequest) (res : CreateOrderResult) : Prop where
  order : ∃ o, s.db.order? res.order.id = some o ∧ o.userId = req.actor.id ∧
    o.idempotencyKey = req.idempotencyKey ∧
    ∀ payment, res.payment = some payment →
      o.paymentId = some payment.paymentId ∧ o.paymentStatus = some payment.status
  items : ∀ items, res.items = some items → s.db.itemsOf res.order.id = items

/-- A call that resolves returns its own new order, or the one stored under
its key. -/
structure Resolved (w : World) (t : Tid) (req : CreateOrderRequest) (res : CreateOrderResult) : Prop where
  reused : res.reused = true → w.phase t = .start
  created : res.reused = false →
    ∃ mid, w.phase t = .published res.order.id mid ∨ w.phase t = .identified res.order.id mid
  stored : Stored w.toShared req res

def Ended (t : Tid) (r : Except Err Reply) (w : World) : Prop :=
  ∀ req, w.jobs t = some (.create req) → match r with
    | .error _ => (w.loc t).Rejected
    | .ok reply => ∃ res, reply = some res ∧ Resolved w t req res

variable {cfg : Config} {c : Catalogue}

/-! ## The environment and the arrivals -/

theorem step_of_env {act : EnvAct} {s s' : Shared} (h : s.env cfg act = some s') : Step cfg none s s' := by
  unfold Shared.env at h
  split at h
  · split at h
    · rename_i hr
      split at h
      · rename_i hs
        cases h; exact .execute hs hr
      · cases h
    · cases h
  · split at h
    · rename_i hr
      split at h
      · rename_i hs
        cases h; exact .answer hs hr _
      · cases h
    · cases h
  · split at h
    · rename_i hr
      cases h; exact .loseCall (.inl ⟨_, hr⟩)
    · cases h
  · split at h
    · rename_i hr
      cases h; exact .loseCall (.inr ⟨_, hr⟩)
    · cases h
  · obtain ⟨b, hb, rfl⟩ := Option.map_eq_some_iff.mp h
    exact .expire hb
  · cases h; exact .loseChannel _ _
  · cases h; exact .tick _

theorem db_of_none {s s' : Shared} (h : Step cfg none s s') : s'.db = s.db := by
  cases h <;> rfl

theorem arrive_cases {t : Tid} {arr : Arrival} {w w' : World} {p : Api Reply}
    (h : w.arrive cfg t arr = some (p, w')) :
    w.jobs t = none ∧ ∃ s, w' = { w with toShared := s } ∧ Step cfg (some t) w.toShared s ∧ s.db = w.db ∧
      s.trace = w.trace ∧
      ((∃ req, p = requestThread cfg req ∧ s.jobs t = some (.create req)) ∨
        ∃ msg, p = deliveryThread cfg msg ∧ s.jobs t = some (.deliver msg)) := by
  unfold World.arrive at h
  split at h
  · cases h
  · rename_i hj
    refine ⟨hj, ?_⟩
    split at h
    · rename_i req
      cases h
      exact ⟨_, rfl, .arrive req hj, rfl, rfl, .inl ⟨req, rfl, Function.update_self ..⟩⟩
    · obtain ⟨ms, hd, he⟩ := Option.map_eq_some_iff.mp h
      cases he
      obtain ⟨mb, ht, hms⟩ := Option.map_eq_some_iff.mp hd
      subst hms
      exact ⟨_, rfl, .deliver hj ht, rfl, rfl, .inr ⟨mb.1, rfl, Function.update_self ..⟩⟩

theorem Stays.kill {t u : Tid} (hne : t ≠ u) (w : World) : Stays t w (w.kill u) where
  loc := by
    have hcount : ∀ p, ((w.pool p).filter (· ≠ u)).count t = (w.pool p).count t := fun p => by
      rw [List.count_filter (by simpa using hne)]
    have hs : (w.kill u).sess t = w.sess t := Function.update_of_ne hne _ _
    have h₁ := hcount .api
    have h₂ := hcount .worker
    unfold World.loc
    rw [hs]
    simp only [World.kill, World.unlockAll, World.setSession, Shared.loseChannel, Shared.phase] at *
    rw [h₁, h₂]
  locks r := (Stays.unlockAll hne w).locks r
  rows _ _ := rfl

theorem Unused.of_stays {t : Tid} {w w' : World} (h : Unused t w) (hs : Stays t w w') : Unused t w' :=
  ⟨hs.loc.trans h.loc, fun r hr => h.locks r ((hs.locks r).mp hr)⟩

theorem Unused.kill {t : Tid} {w : World} (h : Unused t w) : Unused t (w.kill t) where
  loc := by
    have hl := h.loc
    have hcount : ∀ p, ((w.pool p).filter (· ≠ t)).count t = 0 := fun p =>
      List.count_eq_zero.mpr fun hm => by simp at hm
    have h₁ := hcount .api
    have h₂ := hcount .worker
    have hs : (w.kill t).sess t = .init := Function.update_self ..
    unfold World.loc Local.init at hl ⊢
    rw [hs]
    simp only [Local.mk.injEq, World.kill, World.unlockAll, World.setSession, Shared.loseChannel,
      Shared.phase] at *
    exact ⟨trivial, hl.2.1, hl.2.2.1, hl.2.2.2.1, hl.2.2.2.2.1, h₁, h₂⟩
  locks r hr := by
    simp only [World.kill, World.unlockAll, World.setSession] at hr
    split at hr
    · cases hr
    · rename_i hn; exact hn hr

theorem LogLocked.kill {t : Tid} (w : World) : LogLocked t (w.kill t) :=
  .closed (.inl (by simp [World.kill, World.setSession, Session.init]))

/-! ## The protocol -/

theorem Stored.run {s s' : Shared} {P : Option Tid → Prop} {req : CreateOrderRequest} {res : CreateOrderResult}
    (h : Stored s req res) (hs : Saga cfg c s) (hr : Runs (Step cfg) P s s') : Stored s' req res where
  order := by
    obtain ⟨o, hf, hu, hk, hp⟩ := h.order
    obtain ⟨o', hf', hev⟩ := hs.order hr hf
    refine ⟨o', hf', hev.userId.trans hu, hev.key.trans hk, fun payment hpay => ?_⟩
    obtain ⟨h₁, h₂⟩ := hp payment hpay
    obtain ⟨h₃, h₄⟩ := hev.paid (by rw [h₁]; exact nofun)
    exact ⟨h₃.trans h₁, h₄.trans h₂⟩
  items items hi := by
    obtain ⟨o, hf, _⟩ := h.order
    rw [hs.itemsOf hr (by rw [hf]; rfl)]
    exact h.items items hi

theorem Ended.of_stays {t : Tid} {r : Except Err Reply} {w w' : World} (hsaga : Saga cfg c w.toShared)
    (h : Ended t r w) (hs : Stays t w w') (ho : Others cfg t w.toShared w'.toShared) : Ended t r w' := by
  intro req hj
  have hjob : w'.jobs t = w.jobs t := congrArg Local.job hs.loc
  have hphase : w'.phase t = w.phase t := congrArg Local.phase hs.loc
  have he := h req (hjob.symm.trans hj)
  cases r with
  | error e => simpa only [hs.loc] using he
  | ok reply =>
    obtain ⟨res, hres, hr⟩ := he
    exact ⟨res, hres, by rw [hphase]; exact hr.reused, by rw [hphase]; exact hr.created, hr.stored.run hsaga ho⟩

theorem WorldInv.of_stays {t : Tid} {w w' : World} (hI : WorldInv cfg c w) (hg : Own cfg t w.toShared w'.toShared)
    (hs : ∀ t', t' ≠ t → Stays t' w w') (hl : LogLocked t w') (hu : w'.jobs t = none → Unused t w') :
    WorldInv cfg c w' ∧ ∀ t', t' ≠ t → Stays t' w w' ∧ Others cfg t' w.toShared w'.toShared := by
  refine ⟨⟨hI.saga.run hg, fun t' => ?_, fun t' hj => ?_⟩, fun t' ht' => ⟨hs t' ht', ?_⟩⟩
  · by_cases ht : t' = t
    · subst ht; exact hl
    · exact (hI.logs t').of_stays (hs t' ht)
  · by_cases ht : t' = t
    · subst ht; exact hu hj
    · have hjob : w'.jobs t' = w.jobs t' := congrArg Local.job (hs t' ht).loc
      exact (hI.unused t' (hjob.symm.trans hj)).of_stays (hs t' ht)
  · exact hg.mono fun a ha he => ht' (Option.some.inj (he.symm.trans ha))

def discipline (cfg : Config) (c : Catalogue) : Protocol (machine cfg) where
  allows _ := True
  inv := WorldInv cfg c
  rely t w w' := Stays t w w' ∧ Others cfg t w.toShared w'.toShared
  guar t w w' := Own cfg t w.toShared w'.toShared
  pre t cmd w := w.jobs t ≠ none ∧ Ready t cmd w
  post t r w := Saga cfg c w.toShared ∧ Ended t r w
  rely_refl t w := ⟨.refl t w, .refl _⟩
  rely_trans _ _ _ _ h h' := ⟨h.1.trans h'.1, h.2.trans h'.2⟩
  post_rely _ _ _ _ h h' := ⟨h.1.run h'.2, h.2.of_stays h.1 h'.1 h'.2⟩
  exec_ok t cmd ch w r w' _ hI hp hx hg := by
    refine hI.of_stays hg (fun t' ht' => exec_stays ht' (hI.logs t) hx)
      (exec_logLocked (hI.logs t) hx) fun hj => ?_
    cases hjob : w.jobs t with
    | none => exact (hp.1 hjob).elim
    | some job => rw [jobs_of_run hg hjob] at hj; cases hj
  kill_ok t w _ hI :=
    hI.of_stays (Runs.single rfl (.lose t w.toShared)) (fun t' ht' => .kill ht' w) (.kill w)
      fun hj => (hI.unused t hj).kill
  env_ok act w w' _ hI h := by
    obtain ⟨s', hs', rfl⟩ := Option.map_eq_some_iff.mp h
    have hstep := step_of_env hs'
    have hstays : ∀ t, Stays t w { w with toShared := s' } := fun t => by
      obtain ⟨es, he, hes⟩ := hstep.trace
      exact .shared (hstep.jobs_other nofun) ⟨es, he, fun e hm => by rw [hes e hm]; exact nofun⟩
        fun r _ => by rw [db_of_none hstep]
    refine ⟨⟨hI.saga.snoc trivial hstep, fun t => (hI.logs t).of_stays (hstays t), fun t hj => ?_⟩, fun t => ?_⟩
    · have hjob : s'.jobs t = w.jobs t := hstep.jobs_other nofun
      exact (hI.unused t (hjob.symm.trans hj)).of_stays (hstays t)
    · exact ⟨hstays t, .single (a := none) nofun hstep⟩
  spawn_ok t arr w p w' _ hI h := by
    obtain ⟨hj, s, rfl, hstep, hdb, htr, hp⟩ := arrive_cases h
    have hstays : ∀ t', t' ≠ t → Stays t' w { w with toShared := s } := fun t' ht' =>
      .shared (hstep.jobs_other fun e => ht' (Option.some.inj e).symm) ⟨[], htr, by simp⟩
        fun r _ => by rw [hdb]
    refine hI.of_stays (Runs.single rfl hstep) hstays (hI.logs t) fun hj' => ?_
    rcases hp with ⟨req, _, hp⟩ | ⟨msg, _, hp⟩
    · rw [show s.jobs t = none from hj'] at hp; cases hp
    · rw [show s.jobs t = none from hj'] at hp; cases hp

theorem discipline_initial (cfg : Config) (c : Catalogue) : (discipline cfg c).Good c.initial := by
  refine ⟨⟨Runs.refl _, fun t => .closed (.inl rfl), fun t _ => ⟨rfl, fun _ => nofun⟩⟩, fun t p hp => ?_⟩
  cases hp

end OrdersBackend
