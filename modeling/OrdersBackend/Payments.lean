import OrdersBackend.Effects
import OrdersBackend.SystemSound

/-!
# Payments

Which order a payment record belongs to, and which payment an order is stored
with: the two agree unless the store answers one order's request with the
record of another.
-/

namespace OrdersBackend

open Conc

variable {cfg : Config} {c : Catalogue} {a : Option Tid} {s s' : Shared} {conf : SysConf}

/-! ## The store -/

/-- The call whose response has come back, or is on its way. -/
def Rpc.response? : Rpc → Option AuthorizeResponse
  | .executed res | .answered res => some res
  | _ => none

structure Recorded (cfg : Config) (s : Shared) : Prop where
  requested : ∀ t req, s.rpc t = .requested req → (s.phase t).orderId? = some req.orderId
  stored : ∀ pid r, s.payments.byId.get? pid = some r → r.paymentId = pid ∧ pid < s.uuids ∧
    ∃ t req, .executed t req r ∈ s.trace ∧ req.orderId = r.orderId ∧ (s.phase t).orderId? = some r.orderId
  returned : ∀ t res, (s.rpc t).response? = some res → cfg.service = .repository →
    ∃ req r, .executed t req r ∈ s.trace ∧ s.payments.byId.get? res.paymentId = some r ∧
      (s.phase t).orderId? = some req.orderId

/-- Executing a request keeps the records, and returns a stored one. -/
theorem PaymentsStore.authorize_spec {store : PaymentsStore} {uuid : Uuid}
    (hfresh : ∀ pid r, store.byId.get? pid = some r → r.paymentId = pid ∧ pid < uuid) (input : AuthorizeRequest) :
    ((store.authorize uuid input).2.byId.get? (store.authorize uuid input).1.paymentId =
        some (store.authorize uuid input).1) ∧
      ∀ pid r, (store.authorize uuid input).2.byId.get? pid = some r ↔
        store.byId.get? pid = some r ∨
          store.existing input.idempotencyKey = none ∧ pid = uuid ∧
            r = ⟨uuid, input.orderId, input.amountCents, input.currency, .authorized⟩ := by
  cases he : store.existing input.idempotencyKey with
  | some r =>
    obtain ⟨pid, hpid⟩ := existing_byId he
    rw [authorize_existing he]
    refine ⟨by rw [(hfresh pid r hpid).1]; exact hpid, fun pid' r' => ?_⟩
    simp
  | none =>
    rw [authorize_create he]
    have hid : (store.create uuid input).1.paymentId = uuid := by rw [create_fst]
    refine ⟨by rw [create_byId, hid, JsMap.get?_set_self], fun pid' r' => ?_⟩
    rw [create_byId, JsMap.get?_set, create_fst]
    by_cases hu : uuid = pid'
    · subst hu
      rw [if_pos rfl]
      constructor
      · intro h
        cases h
        exact .inr ⟨rfl, rfl, rfl⟩
      · rintro (h | ⟨_, _, rfl⟩)
        · exact absurd (hfresh _ _ h).2 (Nat.lt_irrefl _)
        · rfl
    · rw [if_neg hu]
      constructor
      · exact .inl
      · rintro (h | ⟨_, h, _⟩)
        · exact h
        · exact (hu h.symm).elim

/-! ## Records and responses -/

theorem Step.payments (h : Step cfg a s s') :
    s'.payments = s.payments ∨ ∃ t req, s.rpc t = .requested req ∧ s' = s.execute t req := by
  cases h with
  | @execute t _ req hs hr => exact .inr ⟨t, req, hr, rfl⟩
  | reserve | release | process => left; rw [commit_eq]
  | _ => exact .inl rfl

theorem Step.rpc (h : Step cfg a s s') (t : Tid) :
    s'.rpc t = s.rpc t ∨ (∃ req, s.rpc t = .requested req ∧ s' = s.execute t req) ∨
      (cfg.service = .conforming ∧ ∃ res, s'.rpc t = .executed res) ∨ s'.rpc t = .lost ∨
      (∃ req, s'.rpc t = .requested req ∧ s'.phase t = .requested req.orderId) ∨
      ∃ res, s.rpc t = .executed res ∧ s'.rpc t = .answered res := by
  have other : ∀ {u : Tid} {r : Rpc}, t ≠ u → Function.update s.rpc u r t = s.rpc t :=
    fun hu => Function.update_of_ne hu _ _
  cases h with
  | @execute u _ req hs hr =>
    by_cases hu : t = u
    · subst hu; exact .inr (.inl ⟨req, hr, rfl⟩)
    · exact .inl (other hu)
  | @answer u _ req hs hr res =>
    by_cases hu : t = u
    · subst hu; exact .inr (.inr (.inl ⟨hs, res, Function.update_self ..⟩))
    · exact .inl (other hu)
  | @loseCall u =>
    by_cases hu : t = u
    · subst hu; exact .inr (.inr (.inr (.inl (Function.update_self ..))))
    · exact .inl (other hu)
  | @request u _ req hr =>
    by_cases hu : t = u
    · subst hu
      exact .inr (.inr (.inr (.inr (.inl ⟨req, Function.update_self .., phase_request ..⟩))))
    · exact .inl (other hu)
  | @receive u _ id res hp hr =>
    by_cases hu : t = u
    · subst hu; exact .inr (.inr (.inr (.inr (.inr ⟨res, hr, Function.update_self ..⟩))))
    · exact .inl (other hu)
  | reserve | release | process => left; rw [commit_eq]
  | _ => exact .inl rfl

theorem Recorded.fresh (hR : Recorded cfg s) (pid : Uuid) (r : PaymentRecord)
    (h : s.payments.byId.get? pid = some r) : r.paymentId = pid ∧ pid < s.uuids :=
  ⟨(hR.stored pid r h).1, (hR.stored pid r h).2.1⟩

theorem Recorded.byId (hR : Recorded cfg s) (h : Step cfg a s s') {pid : Uuid} {r : PaymentRecord}
    (hr : s.payments.byId.get? pid = some r) : s'.payments.byId.get? pid = some r := by
  rcases h.payments with he | ⟨t, req, _, rfl⟩
  · rw [he]; exact hr
  · exact ((PaymentsStore.authorize_spec hR.fresh req).2 pid r).mpr (.inl hr)

theorem Recorded.step (hR : Recorded cfg s) (h : Step cfg a s s') : Recorded cfg s' := by
  obtain ⟨es, htr, _⟩ := h.trace
  have later : ∀ {e : Event}, e ∈ s.trace → e ∈ s'.trace := fun he => by
    rw [htr]; exact List.mem_append_right _ he
  refine ⟨fun t req hr => ?_, fun pid r hr => ?_, fun t res hr hs => ?_⟩
  · rcases h.rpc t with he | ⟨req', hq, rfl⟩ | ⟨_, res, he⟩ | he | ⟨req', he, hp⟩ | ⟨res, _, he⟩
    · exact h.orderId? (hR.requested t req (he ▸ hr))
    · simp [Shared.execute] at hr
    · rw [he] at hr; cases hr
    · rw [he] at hr; cases hr
    · rw [he] at hr
      cases hr
      rw [hp]; rfl
    · rw [he] at hr; cases hr
  · have old : s.payments.byId.get? pid = some r → r.paymentId = pid ∧ pid < s'.uuids ∧
        ∃ t req, .executed t req r ∈ s'.trace ∧ req.orderId = r.orderId ∧
          (s'.phase t).orderId? = some r.orderId := by
      intro hr
      obtain ⟨hid, hlt, t, req, hm, ho, hp⟩ := hR.stored pid r hr
      exact ⟨hid, Nat.lt_of_lt_of_le hlt h.uuids_le, t, req, later hm, ho, h.orderId? hp⟩
    rcases h.payments with he | ⟨t, req, hq, rfl⟩
    · exact old (he ▸ hr)
    · rcases ((PaymentsStore.authorize_spec hR.fresh req).2 pid r).mp hr with hr | ⟨hnone, rfl, hnew⟩
      · exact old hr
      · have hexec : (s.payments.authorize s.uuids req).1 = r := by
          rw [PaymentsStore.authorize_create hnone, PaymentsStore.create_fst, hnew]
        refine ⟨by rw [hnew], Nat.lt_succ_self _, t, req, ?_, by rw [hnew], ?_⟩
        · rw [← hexec]
          exact List.mem_cons_self ..
        · rw [hnew]
          exact h.orderId? (hR.requested t req hq)
  · have old : (s.rpc t).response? = some res → ∃ req r, .executed t req r ∈ s'.trace ∧
        s'.payments.byId.get? res.paymentId = some r ∧ (s'.phase t).orderId? = some req.orderId := by
      intro hr
      obtain ⟨req, r, hm, hb, hp⟩ := hR.returned t res hr hs
      exact ⟨req, r, later hm, hR.byId h hb, h.orderId? hp⟩
    rcases h.rpc t with he | ⟨req, hq, rfl⟩ | ⟨hc, _⟩ | he | ⟨req, he, _⟩ | ⟨res', hq, he⟩
    · exact old (he ▸ hr)
    · have hres : res = ⟨(s.payments.authorize s.uuids req).1.paymentId,
        (s.payments.authorize s.uuids req).1.status⟩ := by
        simpa [Shared.execute, Rpc.response?] using hr.symm
      refine ⟨req, (s.payments.authorize s.uuids req).1, List.mem_cons_self .., ?_,
        h.orderId? (hR.requested t req hq)⟩
      rw [hres]
      exact (PaymentsStore.authorize_spec hR.fresh req).1
    · rw [hc] at hs; cases hs
    · rw [he] at hr; cases hr
    · rw [he] at hr; cases hr
    · rw [he] at hr
      cases hr
      exact old (by rw [hq]; rfl)

theorem Saga.recorded (h : Saga cfg c s) : Recorded cfg s :=
  Runs.invariant (fun _ _ _ _ hR hs => hR.step hs) h ⟨nofun, nofun, nofun⟩

/-! ## Whose payment an order is stored with -/

theorem Phase.Fits.payment {p : Phase} {rpc : Rpc} {o : Order} (h : p.Fits rpc o) {pid : Uuid}
    (hp : o.paymentId = some pid) : ∃ res, rpc = .answered res ∧ res.paymentId = pid := by
  have unpaid : ∀ {st : OrderStatus}, o.At st none → ∃ res, rpc = .answered res ∧ res.paymentId = pid := by
    intro st ho
    rw [ho.payment.1] at hp
    cases hp
  have paid : ∀ {st : OrderStatus} {res : AuthorizeResponse}, rpc = .answered res → o.At st (some res) →
      ∃ res, rpc = .answered res ∧ res.paymentId = pid := by
    intro st res hr ho
    have := ho.payment.1.symm.trans hp
    exact ⟨res, hr, Option.some.inj this⟩
  cases p with
  | reserved id | requested id => exact unpaid h.2
  | rejected id | released id => exact unpaid h
  | paid id | identified id mid =>
    obtain ⟨res, hr, ho⟩ := h
    exact paid hr ho
  | published id mid =>
    obtain ⟨res, hr, ho | ho⟩ := h
    · exact paid hr ho
    · exact paid hr ho
  | start | consumed | republished => exact h.elim

/-- The payment of an order is the record its own request was answered with. -/
theorem Saga.payment (h : Saga cfg c s) (hs : cfg.service = .repository) {o : Order} (ho : o ∈ s.db.orders)
    {pid : Uuid} (hp : o.paymentId = some pid) :
    ∃ t req r, .executed t req r ∈ s.trace ∧ s.payments.byId.get? pid = some r ∧ req.orderId = o.id := by
  obtain ⟨t, ht, hf⟩ := h.inv.owner_fits ho
  obtain ⟨res, hr, rfl⟩ := hf.payment hp
  obtain ⟨req', r, hm, hb, hid⟩ := h.recorded.returned t res (by rw [hr]; rfl) hs
  rw [ht] at hid
  exact ⟨t, req', r, hm, hb, (Option.some.inj hid).symm⟩

/-- The step does not execute a request whose key the store knows from another
order's. -/
def ownKeys (conf : SysConf) : SysLabel → Bool
  | .env (.execute t) =>
    match conf.world.rpc t with
    | .requested req =>
      match conf.world.payments.existing req.idempotencyKey with
      | some r => r.orderId = req.orderId
      | none => true
    | _ => true
  | _ => true

abbrev OwnKeys (conf : SysConf) (l : SysLabel) : Prop := ownKeys conf l = true

theorem executed_env {act : EnvAct} (h : s.env cfg act = some s') {t : Tid} {req : AuthorizeRequest}
    {r : PaymentRecord} (hm : .executed t req r ∈ s'.trace) : .executed t req r ∈ s.trace ∨
      act = .execute t ∧ s.rpc t = .requested req ∧ r = (s.payments.authorize s.uuids req).1 := by
  unfold Shared.env at h
  split at h
  · split at h
    · rename_i hr
      split at h
      · cases h
        rcases List.mem_cons.mp hm with hm | hm
        · cases hm
          exact .inr ⟨rfl, hr, rfl⟩
        · exact .inl hm
      · cases h
    · cases h
  · split at h
    · split at h
      · cases h; exact .inl hm
      · cases h
    · cases h
  · split at h
    · cases h; exact .inl hm
    · cases h
  · split at h
    · cases h; exact .inl hm
    · cases h
  · obtain ⟨b, _, rfl⟩ := Option.map_eq_some_iff.mp h
    exact .inl hm
  · cases h; exact .inl hm
  · cases h; exact .inl hm

theorem executed_of_run {u : Tid} (h : Runs (Step cfg) (· = some u) s s') {t : Tid} {req : AuthorizeRequest}
    {r : PaymentRecord} (hm : .executed t req r ∈ s'.trace) : .executed t req r ∈ s.trace := by
  induction h with
  | refl => exact hm
  | tail _ hs ih =>
    obtain ⟨a, rfl, hs⟩ := hs
    obtain ⟨es, htr, hes⟩ := hs.trace
    rw [htr, List.mem_append] at hm
    rcases hm with hm | hm
    · exact absurd (hes _ hm) nofun
    · exact ih hm

theorem executed_own (h : (machine cfg).ReachWhen OwnKeys c.initial conf) {t : Tid} {req : AuthorizeRequest}
    {r : PaymentRecord} (hm : .executed t req r ∈ conf.world.trace) : r.orderId = req.orderId := by
  induction h with
  | refl => exact absurd hm List.not_mem_nil
  | @step conf conf' l hr hown hs ih =>
    cases l with
    | env act =>
      obtain ⟨w, hw, rfl⟩ := Option.map_eq_some_iff.mp hs
      obtain ⟨s', hs', rfl⟩ := Option.map_eq_some_iff.mp hw
      rcases executed_env hs' hm with hm | ⟨rfl, hreq, rfl⟩
      · exact ih hm
      · cases he : conf.world.payments.existing req.idempotencyKey with
        | some r =>
          rw [PaymentsStore.authorize_existing he]
          simpa [OwnKeys, ownKeys, hreq, he] using hown
        | none => rw [PaymentsStore.authorize_create he, PaymentsStore.create_fst]
    | run u ch => exact ih (executed_of_run (Reachable.step hr.reach hs) hm)
    | kill u => exact ih (executed_of_run (Reachable.step hr.reach hs) hm)
    | spawn u arr => exact ih (executed_of_run (Reachable.step hr.reach hs) hm)

/-- As long as no request reaches the store with the key of another order's
record, every order owns its payment. -/
theorem orders_own_payments (hs : cfg.service = .repository)
    (h : (machine cfg).ReachWhen OwnKeys c.initial conf) :
    (∀ o ∈ conf.world.db.orders, ∀ pid, o.paymentId = some pid →
      ∃ r, conf.world.payments.byId.get? pid = some r ∧ r.orderId = o.id) ∧
    ∀ o ∈ conf.world.db.orders, ∀ o' ∈ conf.world.db.orders, ∀ pid, o.paymentId = some pid →
      o'.paymentId = some pid → o = o' := by
  have hsaga : Saga cfg c conf.world.toShared := Reachable.saga h.reach
  have own : ∀ o ∈ conf.world.db.orders, ∀ pid, o.paymentId = some pid →
      ∃ r, conf.world.payments.byId.get? pid = some r ∧ r.orderId = o.id := by
    intro o ho pid hp
    obtain ⟨t, req, r, hm, hb, hid⟩ := hsaga.payment hs ho hp
    exact ⟨r, hb, (executed_own h hm).trans hid⟩
  refine ⟨own, fun o ho o' ho' pid hp hp' => ?_⟩
  obtain ⟨r, hb, hid⟩ := own o ho pid hp
  obtain ⟨r', hb', hid'⟩ := own o' ho' pid hp'
  rw [hb] at hb'
  cases hb'
  exact List.inj_on_of_nodup_map hsaga.inv.tables.orderIds ho ho' (hid.symm.trans hid')

theorem orders_own_payments_mug :
    let conf := (Catalogue.shop 3).afterWhen (.ofPool 2 .repository) ownKeys
      (saleSteps 0 (mugRequest 0 "k") ++ saleSteps 1 (mugRequest 0 "k2"))
    conf.world.db.orders.length = 2 ∧ ∀ o ∈ conf.world.db.orders, ∀ pid, o.paymentId = some pid →
      ∃ r, conf.world.payments.byId.get? pid = some r ∧ r.orderId = o.id :=
  ⟨rfl, (orders_own_payments (show (Config.ofPool 2 .repository).service = .repository from rfl)
    (Catalogue.reachable_afterWhen _ ownKeys (.shop 3) _)).1⟩

/-- Two users choose the same key: the second order gets the first's payment. -/
theorem orders_own_payments_fails :
    let conf := (Catalogue.shop 3).after (.ofPool 2 .repository)
      (saleSteps 0 (mugRequest 0 "k") ++ saleSteps 1 (mugRequest 1 "k"))
    conf.world.db.orders.map (fun o => (o.id, o.paymentId)) = [(0, some 2), (4, some 2)] ∧
      (conf.world.payments.byId.get? 2).map (·.orderId) = some 0 := ⟨rfl, rfl⟩

/-! ## Failed orders -/

theorem Phase.Fits.failed {p : Phase} {rpc : Rpc} {o : Order} (h : p.Fits rpc o) (hs : o.status = .failed) :
    ∃ id, p = .released id := by
  have alive : ∀ {st : OrderStatus} {pay : Option AuthorizeResponse}, o.At st pay → st ≠ .failed →
    ∃ id, p = .released id :=
    fun ho hst => (hst (ho.status.symm.trans hs)).elim
  cases p with
  | reserved id | requested id => exact alive h.2 nofun
  | rejected id => exact alive h nofun
  | released id => exact ⟨id, rfl⟩
  | paid id | identified id mid =>
    obtain ⟨res, _, ho⟩ := h
    exact alive ho nofun
  | published id mid =>
    obtain ⟨res, _, ho | ho⟩ := h
    · exact alive ho nofun
    · exact alive ho nofun
  | start | consumed | republished => exact h.elim

def Shared.unauthorized (s : Shared) (t : Tid) : Prop := ∃ cmd : Cmd, cmd.authorizes = true ∧
    .failed t cmd ∈ s.trace

theorem Saga.unauthorized (h : Saga cfg c s) {t : Tid} {id : Uuid}
    (hp : s.phase t = .rejected id ∨ s.phase t = .released id) : s.unauthorized t := by
  refine Runs.invariant (I := fun s => s.phase t = .rejected id ∨ s.phase t = .released id → s.unauthorized t) ?_ h
    (fun hp => by rcases hp with hp | hp <;> cases hp) hp
  intro a s s' _ ih hs hp
  have old : s.phase t = .rejected id ∨ s.phase t = .released id → s'.unauthorized t := by
    intro hp
    obtain ⟨cmd, hc, hm⟩ := ih hp
    obtain ⟨es, htr, _⟩ := hs.trace
    exact ⟨cmd, hc, by rw [htr]; exact List.mem_append_right _ hm⟩
  by_cases ha : a = some t
  · subst ha
    obtain ⟨es, htr, ht⟩ := hs.turn
    generalize s.phase t = p at ht old
    generalize s'.phase t = p' at ht hp
    cases ht with
    | silent | failed | ackLost | acked => exact old hp
    | @unsent _ cmd hc => exact ⟨cmd, hc, by rw [htr]; exact List.mem_cons_self ..⟩
    | reject => exact ⟨.awaitAuthorize, rfl, by rw [htr]; exact List.mem_cons_self ..⟩
    | release db id' =>
      rcases hp with hp | hp <;> cases hp
      exact old (.inl rfl)
    | _ => rcases hp with hp | hp <;> cases hp
  · rw [hs.phase_other ha] at hp
    exact old hp

/-- A failed order has a record only if its own request was executed although
the call was told it had failed. -/
theorem failed_order_record (h : Reachable cfg c conf) {o : Order} (ho : o ∈ conf.world.db.orders)
    (hs : o.status = .failed) {pid : Uuid} {r : PaymentRecord}
    (hr : conf.world.payments.byId.get? pid = some r) (hid : r.orderId = o.id) :
    ∃ t req, .executed t req r ∈ conf.world.trace ∧ req.orderId = o.id ∧ conf.world.unauthorized t := by
  have hsaga := h.saga
  obtain ⟨_, _, t, req, hm, hreq, hp⟩ := hsaga.recorded.stored pid r hr
  refine ⟨t, req, hm, hreq.trans hid, ?_⟩
  rw [hid] at hp
  obtain ⟨req', o', ho'⟩ := hsaga.inv.calls.owns t o.id hp
  have hf := ho'.fits
  rw [← Option.some.inj ((hsaga.inv.tables.order?_of_mem ho).symm.trans ho'.found)] at hf
  obtain ⟨id, hrel⟩ := hf.failed hs
  exact hsaga.unauthorized (.inr hrel)

def lostResponse : List SysLabel :=
  requestSteps 0 (mugRequest 0 "k") 11 ++
    [.env (.execute 0), .env (.loseResponse 0), .run 0 (.fail (.grpc 4))] ++ List.replicate 9 (.run 0 .proceed)

theorem failed_order_keeps_authorization :
    let conf := (Catalogue.shop 3).after (.ofPool 2 .repository) lostResponse
    conf.world.db.orders.map (fun o => (o.id, o.status)) = [(0, .failed)] ∧
      (conf.world.payments.byId.get? 2).map (fun r => (r.orderId, r.status)) = some (0, .authorized) := ⟨rfl, rfl⟩

theorem failed_order_record_mug :
    let conf := (Catalogue.shop 3).after (.ofPool 2 .repository) lostResponse
    ∃ t req, .executed t req ⟨2, 0, 500, "USD", .authorized⟩ ∈ conf.world.trace ∧ req.orderId = 0 ∧
      conf.world.unauthorized t := by
  intro conf
  have ho : (⟨0, 0, "k", .failed, none, none, 0, none⟩ : Order) ∈ conf.world.db.orders := by decide
  have hr : conf.world.payments.byId.get? 2 = some ⟨2, 0, 500, "USD", .authorized⟩ := rfl
  exact failed_order_record (Catalogue.reachable_after ..) ho rfl hr rfl

end OrdersBackend
