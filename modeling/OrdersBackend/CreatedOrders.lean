import OrdersBackend.Charge
import OrdersBackend.Lifecycle
import OrdersBackend.OrderReads

/-!
# Reading a created order

An order that `createOrder` has returned can be read from then on: by its user
and by an admin, with the items it had, and by no other user.
-/

namespace OrdersBackend

open Conc

variable {cfg : Config} {c : Catalogue} {t : Tid} {conf conf' : SysConf}

/-! ## `GET /orders/:id` -/

def orderNotFound (id : Uuid) : Response :=
  .error ⟨404, "NOT_FOUND", "Order not found or access denied", .order id⟩

theorem find?_owned {db : Db} (hn : (db.orders.map (·.id)).Nodup) {id u : Uuid} {o : Order}
    (ho : db.order? id = some o) :
    (db.orders.find? fun o => o.id = id ∧ o.userId = u) = if u = o.userId then some o else none := by
  have hmem := Db.order?_mem ho
  have hid := Db.order?_id ho
  have hone : ∀ o' ∈ db.orders, o'.id = id → o' = o := fun o' ho' hid' =>
    List.inj_on_of_nodup_map hn ho' hmem (hid'.trans hid.symm)
  by_cases hu : u = o.userId
  · rw [if_pos hu]
    cases hf : db.orders.find? fun o => o.id = id ∧ o.userId = u with
    | none => exact (List.find?_eq_none.mp hf o hmem (by simp [hid, hu])).elim
    | some o' =>
      have hsome := List.find?_some hf
      rw [hone o' (List.mem_of_find?_eq_some hf) (of_decide_eq_true hsome).1]
  · rw [if_neg hu, List.find?_eq_none]
    intro o' ho' hsome
    obtain ⟨hid', hu'⟩ := of_decide_eq_true hsome
    exact hu (hone o' ho' hid' ▸ hu'.symm)

/-- An order is shown to its user and to an admin; to the others it is missing. -/
theorem respond_getOne {db : Db} (hn : (db.orders.map (·.id)).Nodup) {id : Uuid} {o : Order}
    (ho : db.order? id = some o) (ties : TieOrder) (u : Uuid) (role : Option String) :
    respond ties ⟨some (.uuid u), role⟩ (.getOne (.uuid id)) db =
      if role = some "admin" ∨ u = o.userId then .order o (db.itemsOf id) else orderNotFound id := by
  obtain rfl := Db.order?_id ho
  simp only [respond, canActivate, getOrder]
  by_cases hrole : role = some "admin"
  · simp only [hrole, true_or, if_true]
    rw [ho]
  · simp only [hrole, false_or, if_false]
    rw [find?_owned hn ho]
    by_cases hu : u = o.userId
    · rw [if_pos hu, if_pos hu]
    · rw [if_neg hu, if_neg hu]
      rfl

/-! ## Runs -/

theorem Reachable.created (h : Reachable cfg c conf) {req : CreateOrderRequest} {res : CreateOrderResult}
    (hj : conf.world.jobs t = some (.create req)) (hth : conf.threads t = .running (.done (.ok (some res))))
    (hnew : res.reused = false) :
    (∃ o, conf.world.db.order? res.order.id = some o ∧ o.paymentId ≠ none) ∧
    List.Forall₂ (fun line row => row.productId = line.productId ∧ row.quantity = line.quantity)
      req.dto.items (conf.world.db.itemsOf res.order.id) := by
  obtain ⟨res', he, hres⟩ := h.ended hth req hj
  cases he
  obtain ⟨mid, hphase⟩ := hres.created hnew
  have hid : (conf.world.phase t).orderId? = some res.order.id := by
    rcases hphase with hp | hp <;> rw [hp] <;> rfl
  obtain ⟨_, o, howns⟩ := h.saga.inv.calls.owns t _ hid
  obtain ⟨req', _, _, hb⟩ := h.saga.booked hid
  refine ⟨⟨o, howns.found, ?_⟩, ?_⟩
  · have hfits := howns.fits
    rcases hphase with hp | hp <;> rw [hp] at hfits
    · obtain ⟨res, _, ho | ho⟩ := hfits <;> rw [ho.payment.1] <;> exact nofun
    · obtain ⟨res, _, ho⟩ := hfits
      rw [ho.payment.1]
      exact nofun
  · have hreq := hb.job
    rw [hj] at hreq
    cases hreq
    exact hb.lines.imp fun line row hl => ⟨hl.product, hl.quantity⟩

/-- From the moment `createOrder` has answered, `GET /orders/:id` shows the
order to its user and to an admin, and to nobody else: with the payment and the
items that the answer had, and, for a new order, the lines that were asked for. -/
theorem created_order_readable (h : Reachable cfg c conf) {req : CreateOrderRequest} {res : CreateOrderResult}
    (hj : conf.world.jobs t = some (.create req)) (hth : conf.threads t = .running (.done (.ok (some res))))
    (hr : (machine cfg).Reach conf conf') :
    ∃ o items, o.id = res.order.id ∧ o.userId = req.actor.id ∧ o.idempotencyKey = req.idempotencyKey ∧
      (∀ payment, res.payment = some payment →
        o.paymentId = some payment.paymentId ∧ o.paymentStatus = some payment.status) ∧
      res.items.all (· = items) ∧
      (res.reused = false → o.status ≠ .failed ∧
        List.Forall₂ (fun line row => row.productId = line.productId ∧ row.quantity = line.quantity)
          req.dto.items items) ∧
      ∀ ties u role, respond ties ⟨some (.uuid u), role⟩ (.getOne (.uuid res.order.id)) conf'.world.db =
        if role = some "admin" ∨ u = req.actor.id then .order o items else orderNotFound res.order.id := by
  have hruns := h.runs hr
  have hs' : Saga cfg c conf'.world.toShared := Reachable.saga (Machine.Reach.trans h hr)
  obtain ⟨res', he, hres⟩ := h.ended hth req hj
  cases he
  have hstored := hres.stored.run h.saga hruns
  obtain ⟨o, ho, huser, hkey, hpay⟩ := hstored.order
  have hitems : conf'.world.db.itemsOf res.order.id = conf.world.db.itemsOf res.order.id := by
    obtain ⟨o₀, ho₀, _⟩ := hres.stored.order
    exact h.saga.itemsOf hruns (by rw [ho₀]; rfl)
  refine ⟨o, conf'.world.db.itemsOf res.order.id, Db.order?_id ho, huser, hkey, hpay, ?_, fun hnew => ⟨?_, ?_⟩,
    fun ties u role => ?_⟩
  · cases hi : res.items with
    | none => rfl
    | some items => exact decide_eq_true (hstored.items items hi).symm
  · obtain ⟨⟨o₀, ho₀, hpaid⟩, _⟩ := h.created hj hth hnew
    obtain ⟨o', ho', hev⟩ := h.saga.order hruns ho₀
    obtain rfl := Option.some.inj (ho'.symm.trans ho)
    obtain ⟨_, _, hfits⟩ := hs'.inv.owner_fits (Db.order?_mem ho)
    intro hfailed
    exact hpaid ((hev.paid hpaid).1.symm.trans (hfits.consistent.unpaid hfailed))
  · rw [hitems]
    exact (h.created hj hth hnew).2
  · rw [respond_getOne hs'.inv.tables.orderIds ho, huser]

def orderedMug : SysConf := (Catalogue.shop 3).after (.ofPool 2 .repository) (saleSteps 0 (mugRequest 0 "k"))

def processedMug : SysConf := ((machine (.ofPool 2 .repository)).run orderedMug (deliverySteps 1 0)).getD orderedMug

/-- A processed order, read by its user and by another. -/
theorem created_order_readable_mug : ∃ o items, o.id = 0 ∧ o.status ≠ .failed ∧
    respond .byId ⟨some (.uuid 0), none⟩ (.getOne (.uuid 0)) processedMug.world.db = .order o items ∧
    respond .byId ⟨some (.uuid 1), none⟩ (.getOne (.uuid 0)) processedMug.world.db = orderNotFound 0 := by
  have hreach : Reachable (.ofPool 2 .repository) (.shop 3) orderedMug := Catalogue.reachable_after ..
  have hj : orderedMug.world.jobs 0 = some (.create (mugRequest 0 "k")) := rfl
  have hth : orderedMug.threads 0 = .running (.done (.ok (some ⟨false,
    ⟨0, 0, "k", .pending, some 2, some .authorized, 0, none⟩, none, some ⟨2, .authorized⟩, some 3⟩))) := rfl
  have hr : (machine (.ofPool 2 .repository)).Reach orderedMug processedMug := Machine.reach_getD_run _ _
  obtain ⟨o, items, hid, _, _, _, _, hnew, hread⟩ := created_order_readable hreach hj hth hr
  exact ⟨o, items, hid, (hnew rfl).1, hread .byId 0 none, hread .byId 1 none⟩

end OrdersBackend
