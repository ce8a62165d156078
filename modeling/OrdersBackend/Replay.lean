import OrdersBackend.ContestProgress
import OrdersBackend.Lib.Extend

/-!
# Replays

Once a call has returned an order with its payment, every later call with the
same user and key finds that order, changes nothing, and returns it. This is
the discipline extended by what it asks of the later calls.
-/

namespace OrdersBackend

open Conc Async

variable {cfg : Config} {c : Catalogue} {s s' : Shared} {t : Tid} {conf₀ conf : SysConf}

theorem Saga.user (h : Saga cfg c s) {o : Order} (ho : o ∈ s.db.orders) : (s.db.user? o.userId).isSome := by
  have hcalls : ∀ t id, (s.phase t).orderId? = some id → ∃ req, s.jobs t = some (.create req) ∧
      (s.db.user? req.actor.id).isSome := by
    refine (Runs.invariant (I := fun s => SagaInv c s ∧ ∀ t id, (s.phase t).orderId? = some id →
      ∃ req, s.jobs t = some (.create req) ∧ (s.db.user? req.actor.id).isSome) ?_ h ⟨.initial c,
        by simp [Shared.phase, Catalogue.shared, phaseIn, Phase.orderId?]⟩).2
    rintro a s s' _ ⟨hI, ih⟩ hs
    refine ⟨hI.step hs, fun t id hid => ?_⟩
    have husers : s'.db.users = s.db.users := (hI.step hs).tables.users.trans hI.tables.users.symm
    have keep : ∀ {req : CreateOrderRequest}, s.jobs t = some (.create req) → (s.db.user? req.actor.id).isSome →
        ∃ req, s'.jobs t = some (.create req) ∧ (s'.db.user? req.actor.id).isSome := by
      intro req hj hu
      refine ⟨req, hs.jobs_mono hj, ?_⟩
      unfold Db.user? at hu ⊢
      rw [husers]
      exact hu
    by_cases ha : a = some t
    · subst ha
      rcases hs.reserves hid with hid | ⟨req, _, _, _, _, hr, _⟩
      · obtain ⟨req, hj, hu⟩ := ih t id hid
        exact keep hj hu
      · exact keep hr.job hr.user
    · rw [hs.phase_other ha] at hid
      obtain ⟨req, hj, hu⟩ := ih t id hid
      exact keep hj hu
  have hfound := h.inv.tables.order?_of_mem ho
  obtain ⟨t, ht⟩ := h.inv.calls.owner _ _ hfound
  obtain ⟨req, o', ho'⟩ := h.inv.calls.owns t o.id ht
  obtain ⟨req', hj, hu⟩ := hcalls t o.id ht
  rw [ho'.job] at hj
  cases hj
  rw [← Option.some.inj (hfound.symm.trans ho'.found)] at ho'
  rw [ho'.user]
  exact hu

/-! ## What a replay may do -/

def Shared.faulty (s : Shared) (t : Tid) : Prop := ∃ cmd, .failed t cmd ∈ s.trace ∨ .ackLost t cmd ∈ s.trace

/-- No table, payment, Authorize call or queue differs. -/
structure Shared.Still (s s' : Shared) : Prop where
  db : s'.db = s.db
  payments : s'.payments = s.payments
  rpc : s'.rpc = s.rpc
  queue : s'.broker.queue = s.broker.queue

theorem Shared.Still.refl (s : Shared) : s.Still s := ⟨rfl, rfl, rfl, rfl⟩

/-- What a call has returned, and what it is about. -/
structure Receipt where
  req : CreateOrderRequest
  res : CreateOrderResult
  items : List OrderItem

/-- A call that has come after `conf₀`, with the user and the key of the
receipt. -/
structure Receipt.Replayed (rec_ : Receipt) (conf₀ : SysConf) (t : Tid) (req : CreateOrderRequest)
    (s : Shared) : Prop where
  later : conf₀.world.jobs t = none
  job : s.jobs t = some (.create req)
  user : req.actor.id = rec_.req.actor.id
  key : req.idempotencyKey = rec_.req.idempotencyKey

/-- The answer of a replay. -/
structure Receipt.Answers (rec_ : Receipt) (res : CreateOrderResult) : Prop where
  reused : res.reused = true
  id : res.order.id = rec_.res.order.id
  items : res.items = some rec_.items
  payment : res.payment = rec_.res.payment

/-- What lasts of a receipt. -/
structure Receipt.Holds (rec_ : Receipt) (s : Shared) : Prop where
  user : (s.db.user? rec_.req.actor.id).isSome
  stored : Stored s rec_.req rec_.res
  items : (s.db.order? rec_.res.order.id).isSome ∧ s.db.itemsOf rec_.res.order.id = rec_.items

theorem faulty_of_runs {P : Option Tid → Prop} (hr : Runs (Step cfg) P s s') (h : s.faulty t) : s'.faulty t := by
  refine Runs.invariant (I := fun s => s.faulty t) (fun a s s' _ hf hs => ?_) hr h
  obtain ⟨es, htr, _⟩ := hs.trace
  obtain ⟨cmd, hm | hm⟩ := hf
  · exact ⟨cmd, .inl (by rw [htr]; exact List.mem_append_right _ hm)⟩
  · exact ⟨cmd, .inr (by rw [htr]; exact List.mem_append_right _ hm)⟩

namespace Receipt

variable {rec_ : Receipt}

theorem Holds.found (h : rec_.Holds s) (hT : Tables c s.db) (hpay : rec_.res.payment ≠ none) :
    ∃ o, s.db.orderByKey? rec_.req.actor.id rec_.req.idempotencyKey = some o ∧
      rec_.Answers (reusedResult (o, s.db.itemsOf o.id)) := by
  obtain ⟨o, hf, hu, hk, hp⟩ := h.stored.order
  obtain ⟨payment, hpayment⟩ := Option.ne_none_iff_exists'.mp hpay
  obtain ⟨hpid, hst⟩ := hp payment hpayment
  have hid : o.id = rec_.res.order.id := Db.order?_id hf
  refine ⟨o, ?_, rfl, hid, ?_, ?_⟩
  · rw [← hu, ← hk]
    exact hT.orderByKey?_of_mem (Db.order?_mem hf)
  · rw [reusedResult, hid, h.items.2]
  · rw [reusedResult, hpayment]
    simp only [paymentOf, hpid, hst]

theorem Holds.run {P : Option Tid → Prop} (h : rec_.Holds s) (hs : Saga cfg c s) (hr : Runs (Step cfg) P s s') :
    rec_.Holds s' where
  user := by
    have husers := hs.users hr
    have huser := h.user
    unfold Db.user? at huser ⊢
    rw [husers]
    exact huser
  stored := h.stored.run hs hr
  items := by
    obtain ⟨o, ho⟩ := Option.isSome_iff_exists.mp h.items.1
    obtain ⟨o', ho', _⟩ := hs.order hr ho
    exact ⟨by rw [ho']; rfl, (hs.itemsOf hr h.items.1).trans h.items.2⟩

theorem Holds.lasting (rec_ : Receipt) : Lasting cfg c t rec_.Holds where
  others hs ho h := h.run hs ho
  quiet s s' hdb _ _ _ h :=
    ⟨by rw [hdb]; exact h.user, ⟨by rw [hdb]; exact h.stored.order, by rw [hdb]; exact h.stored.items⟩,
      by rw [hdb]; exact h.items⟩

def extra (rec_ : Receipt) (cfg : Config) (c : Catalogue) (conf₀ : SysConf) : (discipline cfg c).Extra where
  inv w := rec_.Holds w.toShared
  inv_exec t w w' hI h hg := h.run hI.saga hg
  inv_kill t w hI h := h.run hI.saga (Runs.single rfl (.lose t w.toShared) : Own cfg t _ _)
  inv_env act w w' hI h he := by
    obtain ⟨s', hs', rfl⟩ := Option.map_eq_some_iff.mp he
    exact h.run hI.saga (Runs.single (P := (· = none)) rfl (step_of_env hs'))
  inv_spawn t arr w p w' hI h ha := by
    obtain ⟨_, s', rfl, hstep, _⟩ := arrive_cases ha
    exact h.run hI.saga (Runs.single rfl hstep : Own cfg t _ _)
  pre t cmd w := ∀ req, rec_.Replayed conf₀ t req w.toShared → ¬w.faulty t →
    cmd = .connect .api ∨ (perform cfg t cmd w).isSome
  guar t w w' := ∀ req, rec_.Replayed conf₀ t req w.toShared → w.Still w'.toShared
  post t r w := ∀ req, rec_.Replayed conf₀ t req w.toShared →
    w.faulty t ∨ ∃ res, r = .ok (some res) ∧ rec_.Answers res
  post_rely t r w w' h hr req hrep := by
    have hjobs : w'.jobs t = w.jobs t := congrArg Local.job hr.1.loc
    rcases h req ⟨hrep.later, hjobs ▸ hrep.job, hrep.user, hrep.key⟩ with hf | hres
    · exact .inl (faulty_of_runs hr.2 hf)
    · exact .inr hres

abbrev protocol (rec_ : Receipt) (cfg : Config) (c : Catalogue) (conf₀ : SysConf) : Protocol (machine cfg) :=
  (discipline cfg c).extend (rec_.extra cfg c conf₀)

def Other (rec_ : Receipt) (conf₀ : SysConf) (t : Tid) (w : World) : Prop :=
  w.jobs t ≠ none ∧ ∀ req, ¬rec_.Replayed conf₀ t req w.toShared

theorem Other.of_jobs {w w' : World} (h : rec_.Other conf₀ t w) (hj : w'.jobs t = w.jobs t) :
    rec_.Other conf₀ t w' :=
  ⟨by rw [hj]; exact h.1, fun req hrep => h.2 req ⟨hrep.later, hj ▸ hrep.job, hrep.user, hrep.key⟩⟩

theorem exempt (rec_ : Receipt) (conf₀ : SysConf) (t : Tid) :
    (discipline cfg c).Exempt (rec_.extra cfg c conf₀) t (rec_.Other conf₀ t) where
  rely w w' h hr := h.of_jobs (congrArg Local.job hr.1.loc)
  guar w w' h hg := by
    obtain ⟨job, hjob⟩ := Option.ne_none_iff_exists'.mp h.1
    exact ⟨h.of_jobs ((jobs_of_run hg hjob).trans hjob.symm), fun req hrep => (h.2 req hrep).elim⟩
  pre cmd w h req hrep := (h.2 req hrep).elim

/-- What is known of a replay; `b` says that one of its commands has
rejected. -/
structure Replays (rec_ : Receipt) (cfg : Config) (c : Catalogue) (conf₀ : SysConf) (t : Tid)
    (b : Bool) (L : Local)
    (req : CreateOrderRequest) (w : World) : Prop where
  now : Now cfg c t L [] rec_.Holds w
  later : conf₀.world.jobs t = none
  job : L.job = some (.create req)
  user : req.actor.id = rec_.req.actor.id
  key : req.idempotencyKey = rec_.req.idempotencyKey
  closed : L.sess.log = none ∨ L.sess.log = some []
  faulty : b = true → w.faulty t

variable {b : Bool} {L L' : Local} {req : CreateOrderRequest} {w w' : World}

namespace Replays

theorem move (h : rec_.Replays cfg c conf₀ t b L req w) (hs : w'.toShared = w.toShared)
    (hn : Now cfg c t L' [] rec_.Holds w') (hj : L'.job = L.job)
    (hc : L'.sess.log = none ∨ L'.sess.log = some []) : rec_.Replays cfg c conf₀ t b L' req w' :=
  ⟨hn, h.later, hj.trans h.job, h.user, h.key, hc, fun hb => by rw [hs]; exact h.faulty hb⟩

theorem fail (h : rec_.Replays cfg c conf₀ t b L req w) {cmd : Cmd} (hc : cmd.authorizes = false) :
    rec_.Replays cfg c conf₀ t true (L.fails cmd) req (w.logEvent (.failed t cmd)) :=
  ⟨h.now.failed (Holds.lasting rec_) hc, h.later, h.job, h.user, h.key, h.closed,
    fun _ => ⟨cmd, .inl (List.mem_cons_self ..)⟩⟩

theorem ackLost (h : rec_.Replays cfg c conf₀ t b L req w) (cmd : Cmd) :
    rec_.Replays cfg c conf₀ t true (L.fails cmd) req (w.logEvent (.ackLost t cmd)) :=
  ⟨h.now.ackLost (Holds.lasting rec_) cmd, h.later, h.job, h.user, h.key, h.closed,
    fun _ => ⟨cmd, .inr (List.mem_cons_self ..)⟩⟩

theorem endTx (h : rec_.Replays cfg c conf₀ t b L req w) (active broken : Bool) :
    rec_.Replays cfg c conf₀ t b (L.inTx ⟨active, broken, none⟩) req (w.endTx t active broken) :=
  h.move rfl (h.now.endTx active broken) rfl (.inl rfl)

end Replays

abbrev Wp (rec_ : Receipt) (cfg : Config) (c : Catalogue) (conf₀ : SysConf) (t : Tid) {α : Type} (p : Api α)
    (Q : Except Err α → World → Prop) (w : World) : Prop := (rec_.protocol cfg c conf₀).wp t p Q w

theorem wp_still {cmd : Cmd} {Q : Except Err cmd.Res → World → Prop} (h : rec_.Replays cfg c conf₀ t b L req w)
    (hready : ∀ w, Ready t cmd w)
    (hon : ∀ w', rec_.Replays cfg c conf₀ t b L req w' → b = false →
      cmd = .connect .api ∨ (perform cfg t cmd w').isSome)
    (hx : ∀ w', rec_.Replays cfg c conf₀ t b L req w' → WorldInv cfg c w' → ∀ ch r w'',
      exec cfg t cmd ch w' = some (r, w'') →
        Own cfg t w'.toShared w''.toShared ∧ w'.Still w''.toShared ∧ Q r w'') :
    rec_.Wp cfg c conf₀ t (issue cmd) Q w := by
  refine (rec_.protocol cfg c conf₀).wp_call fun w' hr ⟨hi, _⟩ => ?_
  have h' : rec_.Replays cfg c conf₀ t b L req w' :=
    ⟨h.now.stays (Holds.lasting rec_) hr.1 hr.2, h.later, h.job, h.user, h.key, h.closed,
      fun hb => faulty_of_runs hr.2 (h.faulty hb)⟩
  refine ⟨⟨⟨by rw [h'.now.job, h'.job]; simp, hready w'⟩, fun req' _ hf => ?_⟩, fun ch r w'' _ he => ?_⟩
  · cases b with
    | true => exact (hf (h'.faulty rfl)).elim
    | false => exact hon w' h' rfl
  · obtain ⟨hown, hstill, hQ⟩ := hx w' h' hi ch r w'' he
    exact ⟨⟨hown, fun _ _ => hstill⟩, hQ⟩

theorem wp_quiet {cmd : Cmd} {Q : Except Err cmd.Res → World → Prop} (hq : cmd.quiet = true)
    (h : rec_.Replays cfg c conf₀ t b L req w) (hready : ∀ w, Ready t cmd w)
    (hon : ∀ w', rec_.Replays cfg c conf₀ t b L req w' → b = false →
      cmd = .connect .api ∨ (perform cfg t cmd w').isSome)
    (hok : ∀ w' r w'', rec_.Replays cfg c conf₀ t b L req w' → WorldInv cfg c w' →
      perform cfg t cmd w' = some (r, w'') → w''.toShared = w'.toShared ∧ Q r w'')
    (herr : ∀ e w', cmd.infallible = false → isUniqueViolation e = false →
      rec_.Replays cfg c conf₀ t true (L.fails cmd) req w' → Q (.error e) w') :
    rec_.Wp cfg c conf₀ t (issue cmd) Q w := by
  refine wp_still h hready hon fun w' h' hi ch r w'' hx => ?_
  obtain ⟨hrej, hlost, hauth⟩ := Cmd.quiet_eq hq w' (t := t)
  rcases exec_cases hx with hp | ⟨e, hf, hu, rfl, rfl⟩ | ⟨e, w₁, _, h₁, _⟩
  · obtain ⟨hs, hQ⟩ := hok w' r w'' h' hi hp
    exact ⟨by rw [hs]; exact .refl _, by rw [hs]; exact .refl _, hQ⟩
  · rw [hrej]
    exact ⟨.single rfl (.failed hauth), ⟨rfl, rfl, rfl, rfl⟩, herr e _ hf hu (h'.fail hauth)⟩
  · rw [hlost] at h₁
    cases h₁

theorem wp_read {cmd : Cmd} {Q : Except Err cmd.Res → World → Prop} (v : World → cmd.Res)
    (hv : ∀ w, perform cfg t cmd w = some (.ok (v w), w)) (hq : cmd.quiet = true) (hready : ∀ w, Ready t cmd w)
    (h : rec_.Replays cfg c conf₀ t b L req w)
    (hok : ∀ w', rec_.Replays cfg c conf₀ t b L req w' → WorldInv cfg c w' → Q (.ok (v w')) w')
    (herr : ∀ e w', cmd.infallible = false → isUniqueViolation e = false →
      rec_.Replays cfg c conf₀ t true (L.fails cmd) req w' → Q (.error e) w') :
    rec_.Wp cfg c conf₀ t (issue cmd) Q w := by
  refine wp_quiet hq h hready (fun w' _ _ => .inr (by rw [hv]; rfl)) (fun w' r w'' h' hi hp => ?_) herr
  rw [hv w'] at hp
  cases hp
  exact ⟨rfl, hok w' h' hi⟩

abbrev Ends (rec_ : Receipt) (cfg : Config) (c : Catalogue) (conf₀ : SysConf) (t : Tid) (req : CreateOrderRequest)
    (r : Except Err CreateOrderResult) (w : World) : Prop :=
  ∃ b L, rec_.Replays cfg c conf₀ t b L req w ∧ (b = false → ∃ res, r = .ok res ∧ rec_.Answers res)

theorem wp_release {Q : Except Err Unit → World → Prop} (h : rec_.Replays cfg c conf₀ t b L req w)
    (hok : ∀ w', rec_.Replays cfg c conf₀ t b (L.drop .api) req w' → Q (.ok ()) w') :
    rec_.Wp cfg c conf₀ t (issue (.release .api)) Q w := by
  refine wp_quiet rfl h (fun _ => trivial) (fun _ _ _ => .inr rfl) (fun w' r w'' h' _ hp => ?_)
    (by simp [Cmd.infallible])
  cases hp
  exact ⟨rfl, hok _ (h'.move rfl (h'.now.removeConn .api) rfl h'.closed)⟩

theorem wp_catch {e : Err} (hu : isUniqueViolation e = false) (h : rec_.Replays cfg c conf₀ t true L req w) :
    rec_.Wp cfg c conf₀ t (createOrderCatch req.actor req.idempotencyKey e) (rec_.Ends cfg c conf₀ t req) w := by
  have hend : ∀ {L' : Local} {w' : World} (e' : Err), rec_.Replays cfg c conf₀ t true L' req w' →
      rec_.Ends cfg c conf₀ t req (.error e') w' := fun _ h' => ⟨true, _, h', by simp⟩
  refine (rec_.protocol cfg c conf₀).wp_bind ?_
  refine (rec_.protocol cfg c conf₀).wp_bind ?_
  refine wp_read (fun w => (w.sess t).active) (fun _ => rfl) rfl (fun _ => trivial) h (fun w₁ h₁ _ => ?_)
    (by simp [Cmd.infallible])
  cases ha : (w₁.sess t).active with
  | false =>
    simp only [hu]
    exact hend e h₁
  | true =>
    refine wp_still h₁ (fun _ => trivial) (fun _ _ hb => by cases hb) fun w₂ h₂ _ ch r w₃ hx => ?_
    rcases exec_cases hx with hp | ⟨e', _, _, rfl, rfl⟩ | ⟨e', w₁, _, h₁, _⟩
    · simp only [perform] at hp
      split at hp
      · cases hp
      · split at hp
        · cases hp
          exact ⟨.refl _, .refl _, hend _ h₂⟩
        · cases hp
          refine ⟨.refl _, .refl _, ?_⟩
          simp only [hu]
          exact hend e (h₂.endTx _ _)
    · refine ⟨.single rfl (.failed rfl), ⟨rfl, rfl, rfl, rfl⟩, ?_⟩
      exact hend e' ((h₂.endTx _ _).fail rfl)
    · cases h₁

theorem wp_try {w₀ : World} (hpay : rec_.res.payment ≠ none)
    (h : rec_.Replays cfg c conf₀ t false (.call req ⟨true, false, some []⟩ .start 1) req w₀) :
    rec_.Wp cfg c conf₀ t (createOrderTry cfg req.actor req.dto req.idempotencyKey) (fun r w => match r with
      | .ok res => rec_.Ends cfg c conf₀ t req (.ok res) w
      | .error e => isUniqueViolation e = false ∧ ∃ L, rec_.Replays cfg c conf₀ t true L req w) w₀ := by
  refine (rec_.protocol cfg c conf₀).wp_bind ?_
  refine wp_read (fun w => (w.view t).user? req.actor.id)
    (fun _ => rfl) rfl (fun _ => trivial) h (fun w₁ h₁ _ => ?_)
    (fun e w₁ _ hu h₁ => ⟨hu, _, h₁⟩)
  have huser := h₁.now.fact.user
  rw [h₁.now.view_nil h₁.closed]
  rw [← h₁.user] at huser
  obtain ⟨user, hfound⟩ := Option.isSome_iff_exists.mp huser
  simp only [hfound]
  refine (rec_.protocol cfg c conf₀).wp_bind ?_
  refine wp_read (fun w => (w.view t).withItems ((w.view t).orderByKey? req.actor.id req.idempotencyKey))
    (fun _ => rfl) rfl (fun _ => trivial) h₁ (fun w₂ h₂ _ => ?_) (fun e w₂ _ hu h₂ => ⟨hu, _, h₂⟩)
  obtain ⟨o, ho, hans⟩ := h₂.now.fact.found h₂.now.saga.inv.tables hpay
  rw [← h₂.user, ← h₂.key] at ho
  rw [h₂.now.view_nil h₂.closed, ho]
  refine (rec_.protocol cfg c conf₀).wp_bind ?_
  refine wp_still h₂ (fun _ => trivial) (fun w₃ h₃ _ => ?_) fun w₃ h₃ _ ch r w₄ hx => ?_
  · simp [perform, h₃.now.sess, Local.call]
  · have hlog : (w₃.sess t).log = some [] := by rw [h₃.now.sess]; rfl
    rcases exec_cases hx with hp | ⟨e, _, hu, rfl, rfl⟩ | ⟨e, w₅, hu, hl, rfl, rfl⟩
    · simp only [perform, hlog] at hp
      cases hp
      exact ⟨.refl _, .refl _, false, _, h₃.endTx _ _, fun _ => ⟨_, rfl, hans⟩⟩
    · exact ⟨.single rfl (.failed rfl), ⟨rfl, rfl, rfl, rfl⟩, hu, _, (h₃.endTx _ _).fail rfl⟩
    · simp only [performLost, hlog, Option.map_some, Option.some.injEq] at hl
      subst hl
      exact ⟨.single rfl (.ackLost t _ _), ⟨rfl, rfl, rfl, rfl⟩, hu, _, (h₃.endTx _ _).ackLost _⟩

theorem wp_createOrder {w₀ : World} (hkey : rec_.req.idempotencyKey ≠ "") (hpay : rec_.res.payment ≠ none)
    (h : rec_.Replays cfg c conf₀ t false (.call req .init .start 0) req w₀) :
    rec_.Wp cfg c conf₀ t (createOrder cfg req.actor req.dto req.idempotencyKey)
    (rec_.Ends cfg c conf₀ t req) w₀ := by
  have hfail : ∀ {L : Local} {w : World} (e : Err), rec_.Replays cfg c conf₀ t true L req w →
      rec_.Ends cfg c conf₀ t req (.error e) w := fun _ h' => ⟨true, _, h', by simp⟩
  unfold createOrder
  rw [if_neg (by rw [h.key]; exact hkey), if_neg req.dto.nonempty]
  refine (rec_.protocol cfg c conf₀).wp_bind ?_
  refine wp_quiet rfl h (fun _ => trivial) (fun _ _ _ => .inl rfl) (fun w₁ r w₂ h₁ _ hp => ?_)
    (fun e w₁ _ _ h₁ => hfail e h₁)
  simp only [perform] at hp
  split at hp
  · cases hp
    refine ⟨rfl, ?_⟩
    have h₂ : rec_.Replays cfg c conf₀ t _ _ req (w₁.addConn .api t) :=
      h₁.move rfl (h₁.now.addConn .api) rfl h₁.closed
    refine (rec_.protocol cfg c conf₀).wp_bind ?_
    refine wp_quiet rfl h₂ (fun _ => trivial) (fun _ _ _ => .inr rfl) (fun w₃ r w₄ h₃ _ hp => ?_)
      (fun e w₃ _ _ h₃ => hfail e h₃)
    cases hp
    refine ⟨rfl, ?_⟩
    have h₄ : rec_.Replays cfg c conf₀ t _ _ req (w₃.setSession t ⟨true, false, some []⟩) :=
      h₃.move rfl (h₃.now.setSession _) rfl (.inr rfl)
    have hsess : { w₃.sess t with active := Slot.qr == .qr || (w₃.sess t).active, log := some [] } =
        (⟨true, false, some []⟩ : Session) := by
      rw [h₃.now.sess]
      rfl
    rw [hsess]
    have htry := (rec_.protocol cfg c conf₀).wp_tryCatch (f := createOrderCatch req.actor req.idempotencyKey)
      (Q := rec_.Ends cfg c conf₀ t req) ((rec_.protocol cfg c conf₀).wp_mono (fun r w hr => ?_) (wp_try hpay h₄))
    · refine (rec_.protocol cfg c conf₀).wp_tryFinally
        ((rec_.protocol cfg c conf₀).wp_mono (fun r w hr => ?_) htry)
      obtain ⟨b, L, h', hres⟩ := hr
      exact wp_release h' fun w' h'' => ⟨b, _, h'', hres⟩
    · cases r with
      | ok res => exact hr
      | error e =>
        obtain ⟨hu, L, h'⟩ := hr
        exact wp_catch hu h'
  · cases hp

theorem wp_requestThread {w₀ : World} (hkey : rec_.req.idempotencyKey ≠ "") (hpay : rec_.res.payment ≠ none)
    (h : rec_.Replays cfg c conf₀ t false (.call req .init .start 0) req w₀) :
    rec_.Wp cfg c conf₀ t (requestThread cfg req) ((rec_.extra cfg c conf₀).post t) w₀ := by
  have hpost : ∀ {b : Bool} {L : Local} {w : World} {r : Except Err Reply}, rec_.Replays cfg c conf₀ t b L req w →
      (b = false → ∃ res, r = .ok (some res) ∧ rec_.Answers res) → (rec_.extra cfg c conf₀).post t r w := by
    intro b L w r h' hres _ _
    cases b with
    | true => exact .inl (h'.faulty rfl)
    | false => exact .inr (hres rfl)
  refine (rec_.protocol cfg c conf₀).wp_bind ((rec_.protocol cfg c conf₀).wp_mono (fun r w hr => ?_)
    (wp_createOrder hkey hpay h))
  obtain ⟨b, L, h', hres⟩ := hr
  cases r with
  | ok res =>
    refine hpost h' fun hb => ?_
    obtain ⟨_, hr, hans⟩ := hres hb
    cases hr
    exact ⟨res, rfl, hans⟩
  | error e =>
    refine hpost h' fun hb => ?_
    obtain ⟨_, hr, _⟩ := hres hb
    cases hr

end Receipt

/-! ## Arrivals -/

theorem Reachable.job_step {conf' : SysConf} (h : Reachable cfg c conf) {l : SysLabel}
    (hs : (machine cfg).step conf l = some conf') {job : Job} (hj : conf'.world.jobs t = some job) :
    conf.world.jobs t = some job ∨ ∃ arr, l = .spawn t arr := by
  have hruns := Reachable.step h hs
  cases hjob : conf.world.jobs t with
  | some job' =>
    rw [jobs_of_run hruns hjob] at hj
    exact .inl hj
  | none =>
    right
    have hother : l.actor = some t := by
      by_contra hne
      have : conf'.world.jobs t = none := Runs.invariant (I := fun s => s.jobs t = none)
        (fun a s s' ha hn hs => (hs.jobs_other (fun he => hne (ha ▸ he))).trans hn) hruns hjob
      rw [this] at hj
      cases hj
    rcases Machine.step_cases hs with ⟨u, ch, cmd, k, r, w, rfl, hp, hx, rfl⟩ | ⟨u, cmd, k, rfl, hp, rfl⟩ |
      ⟨e, w, rfl, hx, rfl⟩ | ⟨u, arr, p, w, rfl, hp, hx, rfl⟩
    · cases hother
      exact ((h.good.pre hp).1 hjob).elim
    · cases hother
      exact ((h.good.pre hp).1 hjob).elim
    · cases hother
    · cases hother
      exact ⟨arr, rfl⟩

theorem Reachable.keyless (h : Reachable cfg c conf) {req : CreateOrderRequest}
    (hj : conf.world.jobs t = some (.create req)) (hk : req.idempotencyKey = "") :
    ∃ e, conf.threads t = .running (.done (.error e)) := by
  induction h with
  | refl => cases hj
  | @step conf conf' l hr hs ih =>
    rcases Reachable.job_step hr hs hj with hj' | ⟨arr, rfl⟩
    · obtain ⟨e, hth⟩ := ih hj'
      refine ⟨e, ?_⟩
      rcases Machine.step_cases hs with ⟨u, ch, cmd, k, r, w, rfl, hp, hx, rfl⟩ | ⟨u, cmd, k, rfl, hp, rfl⟩ |
        ⟨act, w, rfl, hx, rfl⟩ | ⟨u, arr, p, w, rfl, hp, hx, rfl⟩
      · by_cases hu : t = u
        · subst hu
          rw [hth] at hp
          cases hp
        · simpa [hu] using hth
      · by_cases hu : t = u
        · subst hu
          rw [hth] at hp
          cases hp
        · simpa [hu] using hth
      · exact hth
      · by_cases hu : t = u
        · subst hu
          rw [hth] at hp
          cases hp
        · simpa [hu] using hth
    · rcases Machine.step_cases hs with ⟨_, _, _, _, _, _, he, _⟩ | ⟨_, _, _, he, _⟩ | ⟨_, _, he, _⟩ |
        ⟨u, arr', p, w, he, hp, hx, rfl⟩
      · cases he
      · cases he
      · cases he
      · cases he
        obtain ⟨_, s', rfl, _, _, _, ⟨req', rfl, hj'⟩ | ⟨msg, _, hj'⟩⟩ := arrive_cases hx
        · rw [show s'.jobs t = some (.create req) from hj] at hj'
          cases hj'
          refine ⟨.http (badRequestError "Idempotency-Key header is required" .none), ?_⟩
          simp only [Function.update_self, requestThread, createOrder, hk, if_true]
          rfl
        · rw [show s'.jobs t = some (.create req) from hj] at hj'
          cases hj'

namespace Receipt

variable {rec_ : Receipt}

theorem wp_arrive (hkey : rec_.req.idempotencyKey ≠ "") (hpay : rec_.res.payment ≠ none) (t : Tid) (arr : Arrival)
    (w : World) (p : Api Reply) (w' : World) (_ : (rec_.protocol cfg c conf₀).allows (.spawn t arr))
    (hI : (rec_.protocol cfg c conf₀).inv w) (h : (machine cfg).spawn t arr w = some (p, w')) :
    (rec_.protocol cfg c conf₀).wp t p ((rec_.protocol cfg c conf₀).post t) w' := by
  have hbase := @OrdersBackend.wp_arrive cfg c t arr w p w' trivial hI.1 h
  obtain ⟨hj, s, rfl, hstep, _, htr, hp⟩ := arrive_cases h
  by_cases hrep : ∃ req, rec_.Replayed conf₀ t req s
  · obtain ⟨req, hrep⟩ := hrep
    rcases hp with ⟨req', rfl, hjob⟩ | ⟨msg, _, hjob⟩
    · rw [hrep.job] at hjob
      cases hjob
      have hU : Unused t w := hI.1.unused t hj
      have hn : Now cfg c t (.call req .init .start 0) [] rec_.Holds { w with toShared := s } :=
        { saga := hI.1.saga.snoc trivial hstep
          loc := loc_arrive hU hrep.job htr
          owned := fun r => by simpa using hU.locks r
          vals := by simp
          fact := hI.2.run hI.1.saga (Runs.single rfl hstep : Own cfg t _ _) }
      exact wp_requestThread hkey hpay ⟨hn, hrep.later, rfl, hrep.user, hrep.key, .inl rfl, by simp⟩
    · rw [hrep.job] at hjob
      cases hjob
  · have hother : rec_.Other conf₀ t { w with toShared := s } := by
      refine ⟨?_, fun req hr => hrep ⟨req, hr⟩⟩
      show s.jobs t ≠ none
      rcases hp with ⟨_, _, hjob⟩ | ⟨_, _, hjob⟩ <;> simp [hjob]
    exact (discipline cfg c).wp_extend _ (rec_.exempt conf₀ t)
      (fun r w hw _ req hr => (hw.2 req hr).elim) hother hbase

theorem good (h : Reachable cfg c conf₀) (hholds : rec_.Holds conf₀.world.toShared) :
    (rec_.protocol cfg c conf₀).Good conf₀ := by
  refine ⟨⟨h.good.1, hholds⟩, fun t p hp => ?_⟩
  have hj : conf₀.world.jobs t ≠ none := by
    intro hj
    rw [Contest.idle_of_jobs h hj] at hp
    cases hp
  exact (discipline cfg c).wp_extend _ (rec_.exempt conf₀ t) (fun r w hw _ req hr => (hw.2 req hr).elim)
    ⟨hj, fun req hr => hj hr.later⟩ (h.good.2 t p hp)

/-- Every replay of a paid receipt answers with it. -/
theorem good_of_reach (h : Reachable cfg c conf₀) (hholds : rec_.Holds conf₀.world.toShared)
    (hkey : rec_.req.idempotencyKey ≠ "") (hpay : rec_.res.payment ≠ none) (hr : (machine cfg).Reach conf₀ conf) :
    (rec_.protocol cfg c conf₀).Good conf :=
  (rec_.protocol cfg c conf₀).sound (wp_arrive hkey hpay) (good h hholds) (hr.when fun _ _ => trivial)

end Receipt

/-! ## Replays are stable -/

/-- A call holds no delivery, so nothing goes back when it dies. -/
theorem still_kill {w : World} (h : Saga cfg c w.toShared) {req : CreateOrderRequest}
    (hj : w.jobs t = some (.create req)) : w.Still (w.kill t).toShared := by
  have hnone : (w.broker.channel t).unacked = none := by
    cases hch : (w.broker.channel t).unacked with
    | none => rfl
    | some m =>
      have hheld := h.inv.messages.held t m (Channel.unacked_eq_some hch)
      rw [hj] at hheld
      cases hheld
  refine ⟨rfl, rfl, rfl, ?_⟩
  show (w.broker.requeue t .lost).queue = w.broker.queue
  unfold Broker.requeue
  rw [hnone]
  rfl

theorem Receipt.holds_of_done (h : Reachable cfg c conf₀) {req : CreateOrderRequest} {res : CreateOrderResult}
    (hj : conf₀.world.jobs t = some (.create req)) (hth : conf₀.threads t = .running (.done (.ok (some res)))) :
    Receipt.Holds ⟨req, res, conf₀.world.db.itemsOf res.order.id⟩ conf₀.world.toShared := by
  obtain ⟨res', he, hres⟩ := h.ended hth req hj
  cases he
  obtain ⟨o, ho, hu, _⟩ := hres.stored.order
  have huser := h.saga.user (Db.order?_mem ho)
  rw [hu] at huser
  exact ⟨huser, hres.stored, by rw [ho]; rfl, rfl⟩

/-- Once a call has returned an order with its payment, every step of a later
call with its user and key leaves the tables, the payments and the queues as
they are; unless one of its commands has rejected, it returns the same order
with the same items and payment; and it waits for nothing but a connection. -/
theorem replay_stable (h : Reachable cfg c conf₀) {t₀ : Tid} {req₀ : CreateOrderRequest} {res₀ : CreateOrderResult}
    {payment : AuthorizeResponse} (hj₀ : conf₀.world.jobs t₀ = some (.create req₀))
    (hth₀ : conf₀.threads t₀ = .running (.done (.ok (some res₀)))) (hpay : res₀.payment = some payment)
    (hr : (machine cfg).Reach conf₀ conf) {req : CreateOrderRequest} (hlater : conf₀.world.jobs t = none)
    (hj : conf.world.jobs t = some (.create req)) (hu : req.actor.id = req₀.actor.id)
    (hk : req.idempotencyKey = req₀.idempotencyKey) :
    (∀ l conf', l.actor = some t → (machine cfg).step conf l = some conf' →
      conf.world.Still conf'.world.toShared) ∧
    (∀ r, conf.threads t = .running (.done r) → ¬conf.world.faulty t →
      ∃ res, r = .ok (some res) ∧ res.reused = true ∧ res.order.id = res₀.order.id ∧ res.payment = some payment ∧
        ∀ conf₁, Reachable cfg c conf₁ → (machine cfg).Reach conf₁ conf₀ →
          (conf₁.world.db.order? res₀.order.id).isSome →
            res.items = some (conf₁.world.db.itemsOf res₀.order.id)) ∧
    (∀ cmd k, conf.threads t = .running (.await cmd k) → ¬conf.world.faulty t →
      (cmd = .connect .api ∧ cfg.poolSize .api ≤ (conf.world.pool .api).length) ∨
        ((machine cfg).step conf (.run t .proceed)).isSome) ∧
    Acc (fun conf'' conf' => ∃ ch, (machine cfg).step conf' (.run t ch) = some conf'') conf := by
  have hkey : req₀.idempotencyKey ≠ "" := by
    intro hk₀
    obtain ⟨e, hth⟩ := h.keyless hj₀ hk₀
    rw [hth₀] at hth
    cases hth
  let rec_ : Receipt := ⟨req₀, res₀, conf₀.world.db.itemsOf res₀.order.id⟩
  have hg : (rec_.protocol cfg c conf₀).Good conf :=
    rec_.good_of_reach h (Receipt.holds_of_done h hj₀ hth₀) hkey (by simp [rec_, hpay]) hr
  have hrep : rec_.Replayed conf₀ t req conf.world.toShared := ⟨hlater, hj, hu, hk⟩
  refine ⟨fun l conf' hl hs => ?_, fun r hth hf => ?_, fun cmd k hth hf => ?_, ?_⟩
  · rcases Machine.step_cases hs with ⟨u, ch, cmd, k, r, w, rfl, hp, hx, rfl⟩ | ⟨u, cmd, k, rfl, hp, rfl⟩ |
      ⟨act, w, rfl, hx, rfl⟩ | ⟨u, arr, p, w, rfl, hp, hx, rfl⟩
    · cases hl
      exact (hg.guar hp trivial hx).2 req hrep
    · cases hl
      exact still_kill (Machine.Reach.trans h hr |> Reachable.saga) hj
    · cases hl
    · cases hl
      have hnone := (arrive_cases hx).1
      rw [hj] at hnone
      cases hnone
  · rcases hg.post hth req hrep with hf' | ⟨res, rfl, hans⟩
    · exact (hf hf').elim
    · refine ⟨res, rfl, hans.reused, hans.id, hans.payment.trans hpay, fun conf₁ h₁ hr₁ hid => ?_⟩
      rw [hans.items]
      exact congrArg some (h₁.saga.itemsOf (h₁.runs hr₁) hid)
  · rcases (hg.pre hth).2 req hrep hf with rfl | hsome
    · by_cases hroom : (conf.world.pool .api).length < cfg.poolSize .api
      · right
        have hconnect : (exec cfg t (.connect .api) .proceed conf.world).isSome :=
          isSome_exec (by simp [perform, hroom])
        simpa [Machine.step, hth, machine] using hconnect
      · exact .inl ⟨rfl, Nat.not_lt.mp hroom⟩
    · right
      simpa [Machine.step, hth, machine] using isSome_exec hsome
  · refine Subrelation.accessible (fun {conf₂ conf₁} hstep => ?_) (@Machine.acc_of_moves _ _ _ _ _ _ _ _ _ _
      (machine cfg) (fun _ => True) (fun _ l => ∃ ch, l = .run t ch) (fun _ _ => 0) {t}
        (fun conf₁ l conf₂ _ hl hs => ?_)
      conf trivial)
    · obtain ⟨ch, hs⟩ := hstep
      exact ⟨_, ⟨ch, rfl⟩, hs⟩
    · obtain ⟨ch, rfl⟩ := hl
      rcases Machine.step_cases hs with ⟨u, ch', cmd, k, r, w, he, hp, hx, rfl⟩ | ⟨_, _, _, he, _⟩ |
        ⟨_, _, he, _⟩ |
        ⟨_, _, _, _, he, _⟩
      · cases he
        refine ⟨trivial, t, Finset.mem_singleton_self t, ?_, fun u hu => ⟨Function.update_of_ne hu _ _, rfl⟩⟩
        have hdown : Thread.Below (.running (k r), 0) (.running (.await cmd k), 0) :=
          .left _ _ (.running (.step cmd k r))
        simpa [hp] using hdown
      · cases he
      · cases he
      · cases he

/-- A mug is sold and delivered, and the request comes again, for two mugs. -/
theorem replay_stable_mug :
    let conf₀ := (Catalogue.shop 3).after (.ofPool 2 .repository) (saleSteps 0 (mugRequest 0 "k"))
    let again : CreateOrderRequest := { mugRequest 0 "k" with dto := ⟨[⟨0, 2⟩], by simp, by decide⟩ }
    let conf := ((machine (.ofPool 2 .repository)).run conf₀
      (deliverySteps 1 0 ++ requestSteps 2 again 6)).getD conf₀
    ∃ res, conf.threads 2 = .running (.done (.ok (some res))) ∧ res.reused = true ∧ res.order.id = 0 ∧
      res.payment = some ⟨2, .authorized⟩ := by
  intro conf₀ again conf
  have hth₀ : conf₀.threads 0 = .running (.done (.ok (some ⟨false,
    ⟨0, 0, "k", .pending, some 2, some .authorized, 0, none⟩,
      none, some ⟨2, .authorized⟩, some 3⟩))) := rfl
  have hsound : rejectedIn 2 (fun _ => true) conf.world.trace = false := rfl
  have hf : ¬conf.world.faulty 2 := by
    rintro ⟨cmd, hm | hm⟩
    · exact List.any_eq_false.mp hsound _ hm rfl
    · exact List.any_eq_false.mp hsound _ hm rfl
  have hj₀ : conf₀.world.jobs 0 = some (.create (mugRequest 0 "k")) := rfl
  have hlater : conf₀.world.jobs 2 = none := rfl
  have hj : conf.world.jobs 2 = some (.create again) := rfl
  have hth : conf.threads 2 = .running (.done (.ok (some ⟨true,
    ⟨0, 0, "k", .processed, some 2, some .authorized, 0, some 0⟩,
      some [⟨1, 0, 0, 1, 500⟩], some ⟨2, .authorized⟩, none⟩))) := rfl
  have hstable := replay_stable (Catalogue.reachable_after ..) hj₀ hth₀ rfl
    (Machine.reach_getD_run conf₀ _) hlater hj rfl rfl
  obtain ⟨res, hres, hreused, hid, hpay, _⟩ := hstable.2.1 _ hth hf
  exact ⟨_, hth, by cases hres; exact ⟨hreused, hid, hpay⟩⟩

end OrdersBackend
