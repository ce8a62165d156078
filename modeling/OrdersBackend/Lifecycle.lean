import OrdersBackend.Payments

/-!
# The life of an order

An order is pending until it is processed or failed, and then stays as it is.
A processed order has its payment; a failed one has none, and no message of it
has ever been published.
-/

namespace OrdersBackend

open Conc

variable {cfg : Config} {c : Catalogue} {s : Shared} {conf : SysConf}

theorem Message.isCopy.eq {m : Message} {mid mid' oid oid' : Uuid} (h : m.isCopy mid oid)
    (h' : m.isCopy mid' oid') :
    mid' = mid ∧ oid' = oid := by
  obtain ⟨payload, hc, hm, ho⟩ := h
  obtain ⟨payload', hc', hm', ho'⟩ := h'
  rw [hc] at hc'
  cases hc'
  rw [hm] at hm'
  rw [ho] at ho'
  exact ⟨(Option.some.inj hm').symm, (Option.some.inj ho').symm⟩

/-- The status of an order goes with its payment and with `processedAt`. -/
structure Order.Consistent (o : Order) : Prop where
  processedAt : o.processedAt.isSome ↔ o.status = .processed
  paid : o.status = .processed → o.paymentId.isSome ∧ o.paymentStatus.isSome
  unpaid : o.status = .failed → o.paymentId = none

theorem Order.At.consistent {o : Order} {st : OrderStatus} {pay : Option AuthorizeResponse} (h : o.At st pay)
    (hp : st = .processed → pay ≠ none) (hf : st = .failed → pay = none) : o.Consistent where
  processedAt := by rw [h.processedAt, h.status]
  paid hst := by
    obtain ⟨res, rfl⟩ := Option.ne_none_iff_exists'.mp (hp (h.status ▸ hst))
    obtain ⟨h₁, h₂⟩ := h.payment
    rw [h₁, h₂]
    exact ⟨rfl, rfl⟩
  unpaid hst := by
    obtain rfl := hf (h.status ▸ hst)
    exact h.payment.1

theorem Phase.Fits.consistent {p : Phase} {rpc : Rpc} {o : Order} (h : p.Fits rpc o) : o.Consistent := by
  cases p with
  | reserved id | requested id => exact h.2.consistent (by simp) (by simp)
  | rejected id | released id => exact Order.At.consistent h (by simp) (by simp)
  | paid id | identified id mid =>
    obtain ⟨res, _, ho⟩ := h
    exact ho.consistent (by simp) (by simp)
  | published id mid =>
    obtain ⟨res, _, ho | ho⟩ := h
    · exact ho.consistent (by simp) (by simp)
    · exact ho.consistent (by simp) (by simp)
  | start | consumed | republished => exact h.elim

theorem SagaInv.not_failed_of_genuine (h : SagaInv c s) {m : Message} (hm : s.Genuine m) {mid : Uuid} {o : Order}
    (ho : o ∈ s.db.orders) (hc : m.isCopy mid o.id) : o.status ≠ .failed := by
  intro hs
  obtain ⟨t, oid, mid', hp, hc'⟩ := hm
  obtain ⟨t', hid, hf⟩ := h.owner_fits ho
  obtain ⟨id, hrel⟩ := hf.failed hs
  obtain ⟨_, rfl⟩ := hc.eq hc'
  obtain rfl := h.calls.unique t t' o.id (by rw [hp]; rfl) hid
  rw [hp] at hrel
  cases hrel

/-- Whatever has been published is a copy of a call's message. -/
theorem Saga.genuine_published (h : Saga cfg c s) {t : Tid} {rk : RoutingKey} {m : Message}
    (hm : .published t rk m ∈ s.trace) : s.Genuine m := by
  have hleft := h.leaves _ hm
  cases rk with
  | process =>
    obtain ⟨oid, mid, createdAt, hp, rfl⟩ := hleft
    exact ⟨t, oid, mid, hp, _, rfl, rfl, rfl⟩
  | retry | dlq =>
    obtain ⟨_, msg, payload, hj, hcontent, hr⟩ := hleft
    obtain ⟨t', oid, mid, hp, hc⟩ := h.inv.messages.delivered t msg hj
    exact ⟨t', oid, mid, hp, hr.isCopy hcontent hc⟩

theorem order_lifecycle (h : Reachable cfg c conf) :
    (∀ conf', (machine cfg).Reach conf conf' → ∀ id o, conf.world.db.order? id = some o →
      ∃ o', conf'.world.db.order? id = some o' ∧
        (o'.status = o.status ∨ o.status = .pending ∧ (o'.status = .processed ∨ o'.status = .failed))) ∧
    ∀ o ∈ conf.world.db.orders,
      (o.processedAt.isSome ↔ o.status = .processed) ∧
      (o.status = .processed → o.paymentId.isSome ∧ o.paymentStatus.isSome) ∧
      (o.status = .failed → o.paymentId = none ∧
        (∀ t rk m mid, .published t rk m ∈ conf.world.trace → ¬m.isCopy mid o.id) ∧
        (∀ q, ∀ m ∈ conf.world.broker.queue q, ∀ mid, ¬m.isCopy mid o.id) ∧
        ∀ t m mid, conf.world.broker.channel t = .ready (some m) → ¬m.isCopy mid o.id) := by
  have hs := h.saga
  refine ⟨fun conf' hr id o ho => ?_, fun o ho => ?_⟩
  · obtain ⟨o', ho', hev⟩ := hs.order (h.runs hr) ho
    refine ⟨o', ho', ?_⟩
    by_cases hp : o.status = .pending
    · cases hst : o'.status <;> simp [hp]
    · exact .inl (by rw [hev.final hp])
  · obtain ⟨t, _, hf⟩ := hs.inv.owner_fits ho
    have hcons := hf.consistent
    refine ⟨hcons.processedAt, hcons.paid, fun hst => ⟨hcons.unpaid hst, ?_, ?_, ?_⟩⟩
    · intro t rk m mid hm hc
      exact hs.inv.not_failed_of_genuine (hs.genuine_published hm) ho hc hst
    · intro q m hm mid hc
      exact hs.inv.not_failed_of_genuine (hs.inv.messages.queued q m hm) ho hc hst
    · intro t m mid hch hc
      exact hs.inv.not_failed_of_genuine (hs.inv.messages.delivered t m (hs.inv.messages.held t m hch)) ho hc hst

theorem order_lifecycle_mug :
    let conf := (Catalogue.shop 3).after (.ofPool 2 .repository)
      (saleSteps 0 (mugRequest 0 "k") ++ deliverySteps 1 0)
    ∃ o ∈ conf.world.db.orders, o.status = .processed ∧ o.processedAt.isSome ∧ o.paymentId.isSome := by
  intro conf
  have ho : (⟨0, 0, "k", .processed, some 2, some .authorized, 0, some 0⟩ : Order) ∈ conf.world.db.orders := by decide
  have hlife := (order_lifecycle (Catalogue.reachable_after (.ofPool 2 .repository) (.shop 3)
    (saleSteps 0 (mugRequest 0 "k") ++ deliverySteps 1 0))).2 _ ho
  exact ⟨_, ho, rfl, hlife.1.mpr rfl, (hlife.2.1 rfl).1⟩

end OrdersBackend
