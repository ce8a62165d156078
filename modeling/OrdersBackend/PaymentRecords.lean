import OrdersBackend.Charge
import OrdersBackend.Payments
import OrdersBackend.PaymentsLedger

/-!
# The records of the payments store

An order has one record at most, over the total of its lines; and the status
an order is stored with is the one the payments service still reports.
-/

namespace OrdersBackend

open Conc

variable {cfg : Config} {c : Catalogue} {a : Option Tid} {s s' : Shared} {conf : SysConf}

/-- The request has left the client and is no longer on its way. -/
def Rpc.served : Rpc → Bool
  | .idle | .requested _ => false
  | .executed _ | .answered _ | .lost => true

theorem Step.served (h : Step cfg a s s') {t : Tid} (ht : (s.rpc t).served = true) : (s'.rpc t).served = true := by
  have put : ∀ {u : Tid} {r : Rpc}, (t = u → r.served = true) →
      (Function.update s.rpc u r t).served = true := by
    intro u r hr
    by_cases hu : t = u
    · subst hu
      rw [Function.update_self]
      exact hr rfl
    · rw [Function.update_of_ne hu]
      exact ht
  cases h with
  | execute | answer | loseCall | receive => exact put fun _ => rfl
  | @request u _ req hr =>
    refine put fun hu => ?_
    subst hu
    rw [hr.rpc] at ht
    cases ht
  | reserve | release | process => rw [commit_eq]; exact ht
  | _ => exact ht

/-- `r` is the record of a request that a call has sent for its order. -/
def Shared.Charges (s : Shared) (r : PaymentRecord) : Prop :=
  ∃ t req, .sent t req ∈ s.trace ∧ req.orderId = r.orderId ∧ req.amountCents = r.amountCents ∧
    (s.phase t).orderId? = some r.orderId ∧ (s.rpc t).served = true

theorem Shared.Charges.step {r : PaymentRecord} (hr : s.Charges r) (h : Step cfg a s s') : s'.Charges r := by
  obtain ⟨t, req, hm, hid, hamount, hp, hserved⟩ := hr
  obtain ⟨es, htr, _⟩ := h.trace
  exact ⟨t, req, by rw [htr]; exact List.mem_append_right es hm, hid, hamount, h.orderId? hp, h.served hserved⟩

structure Accounted (cfg : Config) (s : Shared) : Prop where
  sent : ∀ t req, s.rpc t = .requested req → .sent t req ∈ s.trace
  charged : ∀ pid r, s.payments.byId.get? pid = some r → r.status = .authorized ∧ s.Charges r
  once : ∀ pid pid' r r', s.payments.byId.get? pid = some r → s.payments.byId.get? pid' = some r' →
    r.orderId = r'.orderId → pid = pid'
  confirmed : ∀ t res, (s.rpc t).response? = some res → cfg.service = .repository → res.status = .authorized

namespace Accounted

variable (hA : Accounted cfg s) (h : Step cfg a s s')
include hA h

theorem sent_step (t : Tid) (req : AuthorizeRequest) (hr : s'.rpc t = .requested req) : .sent t req ∈ s'.trace := by
  obtain ⟨es, htr, _⟩ := h.trace
  have old : s.rpc t = .requested req → .sent t req ∈ s'.trace := fun hr => by
    rw [htr]
    exact List.mem_append_right es (hA.sent t req hr)
  have put : ∀ {u : Tid} {r : Rpc}, s'.rpc = Function.update s.rpc u r → r ≠ .requested req →
      .sent t req ∈ s'.trace := by
    intro u r he hne
    rw [he] at hr
    by_cases hu : t = u
    · subst hu
      rw [Function.update_self] at hr
      exact (hne hr).elim
    · rw [Function.update_of_ne hu] at hr
      exact old hr
  cases h with
  | execute | answer | loseCall | receive => exact put rfl nofun
  | @request u _ req' hq =>
    have he : ((s.setRpc u (.requested req')).log (.sent u req')).rpc = Function.update s.rpc u (.requested req') := rfl
    rw [he] at hr
    by_cases hu : t = u
    · subst hu
      rw [Function.update_self] at hr
      cases hr
      exact List.mem_cons_self ..
    · rw [Function.update_of_ne hu] at hr
      exact old hr
  | reserve | release | process => rw [commit_eq] at hr; exact old hr
  | _ => exact old hr

theorem charged_step (hR : Recorded cfg s) (pid : Uuid) (r : PaymentRecord)
    (hr : s'.payments.byId.get? pid = some r) : r.status = .authorized ∧ s'.Charges r := by
  have old : s.payments.byId.get? pid = some r → r.status = .authorized ∧ s'.Charges r :=
    fun hr => ⟨(hA.charged pid r hr).1, (hA.charged pid r hr).2.step h⟩
  rcases h.payments with he | ⟨t, req, hq, rfl⟩
  · exact old (he ▸ hr)
  · rcases ((PaymentsStore.authorize_spec hR.fresh req).2 pid r).mp hr with hr | ⟨_, rfl, hnew⟩
    · exact old hr
    · subst hnew
      refine ⟨rfl, t, req, List.mem_cons_of_mem _ (hA.sent t req hq), rfl, rfl, h.orderId? (hR.requested t req hq), ?_⟩
      simp [Shared.execute, Rpc.served]

/-- A call whose request is on its way has no record yet. -/
theorem once_step (hI : SagaInv c s) (hR : Recorded cfg s) (pid pid' : Uuid) (r r' : PaymentRecord)
    (hr : s'.payments.byId.get? pid = some r) (hr' : s'.payments.byId.get? pid' = some r')
    (hid : r.orderId = r'.orderId) : pid = pid' := by
  rcases h.payments with he | ⟨t, req, hq, rfl⟩
  · exact hA.once pid pid' r r' (he ▸ hr) (he ▸ hr') hid
  · have unrecorded : ∀ {pid : Uuid} {r : PaymentRecord}, s.payments.byId.get? pid = some r →
        r.orderId ≠ req.orderId := by
      intro pid r hr he
      obtain ⟨_, t', _, _, _, _, hp, hserved⟩ := hA.charged pid r hr
      have htt : t' = t := hI.calls.unique t' t _ hp (by rw [he]; exact hR.requested t req hq)
      rw [htt, hq] at hserved
      cases hserved
    have spec := (PaymentsStore.authorize_spec hR.fresh req).2
    rcases (spec pid r).mp hr with hold | ⟨_, rfl, rfl⟩ <;> rcases (spec pid' r').mp hr' with hold' | ⟨_, rfl, rfl⟩
    · exact hA.once pid pid' r r' hold hold' hid
    · exact (unrecorded hold hid).elim
    · exact (unrecorded hold' hid.symm).elim
    · rfl

theorem confirmed_step (hR : Recorded cfg s) (t : Tid) (res : AuthorizeResponse)
    (hr : (s'.rpc t).response? = some res) (hs : cfg.service = .repository) : res.status = .authorized := by
  have old : (s.rpc t).response? = some res → res.status = .authorized := fun hr => hA.confirmed t res hr hs
  rcases h.rpc t with he | ⟨req, hq, rfl⟩ | ⟨hc, _⟩ | he | ⟨req, he, _⟩ | ⟨res', hq, he⟩
  · exact old (he ▸ hr)
  · obtain ⟨hstored, hspec⟩ := PaymentsStore.authorize_spec hR.fresh req
    have hres : res = ⟨(s.payments.authorize s.uuids req).1.paymentId,
        (s.payments.authorize s.uuids req).1.status⟩ := by
      simpa [Shared.execute, Rpc.response?] using hr.symm
    rw [hres]
    rcases (hspec _ _).mp hstored with hold | ⟨_, _, hnew⟩
    · exact (hA.charged _ _ hold).1
    · rw [hnew]
  · rw [hc] at hs; cases hs
  · rw [he] at hr; cases hr
  · rw [he] at hr; cases hr
  · rw [he] at hr
    cases hr
    exact old (by rw [hq]; rfl)

end Accounted

theorem Saga.accounted (h : Saga cfg c s) : Accounted cfg s := by
  refine (Runs.invariant (I := fun s => (SagaInv c s ∧ Recorded cfg s) ∧ Accounted cfg s) ?_ h
    ⟨⟨.initial c, nofun, nofun, nofun⟩, nofun, nofun, nofun, nofun⟩).2
  rintro a s s' _ ⟨⟨hI, hR⟩, hA⟩ hstep
  exact ⟨⟨hI.step hstep, hR.step hstep⟩, hA.sent_step hstep, hA.charged_step hstep hR, hA.once_step hstep hI hR,
    hA.confirmed_step hstep hR⟩

/-! ## The records and the orders -/

/-- No order is charged twice, or for anything but its lines. The range is that
in which the sums of the code are exact. -/
theorem orders_charged_once (h : Reachable cfg c conf) (hrange : stockValue c.products ≤ maxSafeInteger) :
    (∀ pid r, conf.world.payments.getStatus pid = some r → r.paymentId = pid ∧ r.status = .authorized ∧
      ∃ o ∈ conf.world.db.orders, o.id = r.orderId ∧ r.amountCents = conf.world.db.total o.id ∧
        r.amountCents ≤ maxSafeInteger) ∧
    ∀ pid pid' r r', conf.world.payments.getStatus pid = some r → conf.world.payments.getStatus pid' = some r' →
      r.orderId = r'.orderId → pid = pid' := by
  have hs := h.saga
  refine ⟨fun pid r hr => ?_, hs.accounted.once⟩
  obtain ⟨hstatus, t, req, hm, hid, hamount, hp, _⟩ := hs.accounted.charged pid r hr
  obtain ⟨_, o, ho⟩ := hs.inv.calls.owns t r.orderId hp
  have htotal : r.amountCents = conf.world.db.total o.id := by rw [← hamount, hs.charged hm, hid, ho.id]
  refine ⟨(hs.recorded.stored pid r hr).1, hstatus, o, Db.order?_mem ho.found, ho.id, htotal, ?_⟩
  rw [htotal]
  exact Int.le_trans (hs.total_le (Db.order?_mem ho.found)) hrange

theorem orders_charged_once_mug :
    let conf := (Catalogue.shop 3).after (.ofPool 2 .repository) (saleSteps 0 (mugRequest 0 "k"))
    ∃ o ∈ conf.world.db.orders, o.id = 0 ∧ 500 = conf.world.db.total o.id := by
  intro conf
  obtain ⟨hrecords, _⟩ := orders_charged_once (Catalogue.reachable_after (.ofPool 2 .repository) (.shop 3)
    (saleSteps 0 (mugRequest 0 "k"))) (by decide)
  obtain ⟨_, _, o, ho, hid, htotal, _⟩ := hrecords 2 ⟨2, 0, 500, "USD", .authorized⟩ rfl
  exact ⟨o, ho, hid, htotal⟩

theorem Phase.Fits.paymentStatus {p : Phase} {rpc : Rpc} {o : Order} (h : p.Fits rpc o) {pid : Uuid}
    (hp : o.paymentId = some pid) : ∃ res, rpc = .answered res ∧ o.paymentStatus = some res.status := by
  have unpaid : ∀ {st : OrderStatus}, o.At st none → ∃ res, rpc = .answered res ∧ o.paymentStatus = some res.status := by
    intro st ho
    rw [ho.payment.1] at hp
    cases hp
  cases p with
  | reserved id | requested id => exact unpaid h.2
  | rejected id | released id => exact unpaid h
  | paid id | identified id mid =>
    obtain ⟨res, hr, ho⟩ := h
    exact ⟨res, hr, ho.payment.2⟩
  | published id mid =>
    obtain ⟨res, hr, ho | ho⟩ := h
    · exact ⟨res, hr, ho.payment.2⟩
    · exact ⟨res, hr, ho.payment.2⟩
  | start | consumed | republished => exact h.elim

/-- What `GetPaymentStatus` answers for the payment of an order is what the
order was stored with. -/
theorem stored_status_confirmed (hs : cfg.service = .repository) (h : Reachable cfg c conf) {o : Order}
    (ho : o ∈ conf.world.db.orders) {pid : Uuid} (hp : o.paymentId = some pid) :
    o.paymentStatus = some .authorized ∧
      ∀ conf', (machine cfg).Reach conf conf' →
        PaymentsGrpcController.getPaymentStatus conf'.world.payments pid = ⟨pid, .authorized⟩ := by
  have hsaga := h.saga
  refine ⟨?_, fun conf' hr => ?_⟩
  · obtain ⟨t, _, hf⟩ := hsaga.inv.owner_fits ho
    obtain ⟨res, hres, hstatus⟩ := hf.paymentStatus hp
    rw [hstatus, hsaga.accounted.confirmed t res (by rw [hres]; rfl) hs]
  · have hreach : Reachable cfg c conf' := h.trans hr
    obtain ⟨o', ho', hev⟩ := hsaga.order (h.runs hr) (hsaga.inv.tables.order?_of_mem ho)
    have hp' : o'.paymentId = some pid := by rw [(hev.paid (by rw [hp]; simp)).1, hp]
    obtain ⟨_, _, r, _, hr', _⟩ := hreach.saga.payment hs (Db.order?_mem ho') hp'
    have hget : conf'.world.payments.getStatus pid = some r := hr'
    rw [PaymentsGrpcController.getPaymentStatus, hget]
    show (⟨r.paymentId, r.status⟩ : AuthorizeResponse) = _
    rw [(hreach.saga.recorded.stored pid r hr').1, (hreach.saga.accounted.charged pid r hr').1]

theorem stored_status_confirmed_mug :
    let conf := (Catalogue.shop 3).after (.ofPool 2 .repository) (saleSteps 0 (mugRequest 0 "k"))
    PaymentsGrpcController.getPaymentStatus conf.world.payments 2 = ⟨2, .authorized⟩ := by
  intro conf
  have ho : (⟨0, 0, "k", .pending, some 2, some .authorized, 0, none⟩ : Order) ∈ conf.world.db.orders := by decide
  exact (stored_status_confirmed rfl (Catalogue.reachable_after (.ofPool 2 .repository) (.shop 3)
    (saleSteps 0 (mugRequest 0 "k"))) ho rfl).2 conf .refl

end OrdersBackend
