import OrdersBackend.Alone
import OrdersBackend.Charge
import OrdersBackend.PaymentsLedger
import OrdersBackend.Recovery
import OrdersBackend.ReserveSpec
import OrdersBackend.Stock
import OrdersBackend.StockRuleDoubles

/-!
# What a call means

Left alone, `createOrder` is a function of the state: it refuses, or finds the
order that is stored under the key, or takes the products off the stock and
adds one order with its lines, its payment and its process message.
-/

namespace OrdersBackend

open Conc Async

variable {cfg : Config} {t : Tid} {s : Shared} {pool : Pool → List Tid} {sess : Session} {ws : List Write}
variable {w w' : World} {req : CreateOrderRequest} {α : Type}

/-! ## The products -/

theorem lone_lockProducts {Q : Except Err (List Product) → World → Prop} (hs : s.unserved t) (ids : List Uuid)
    (products : List Product) (h : Sole t s pool ⟨true, false, some []⟩ w)
    (hQ : ∀ w', Sole t s pool ⟨true, false, some []⟩ w' → Q (.ok (products ++ ids.filterMap s.db.product?)) w') :
    Lone cfg t Q (lockProducts ids products) w := by
  induction ids generalizing products w with
  | nil => exact .done (by simpa using hQ w h)
  | cons id ids ih =>
    have hlock : perform cfg t (.lockProduct id) w = some (.ok (s.db.product? id), w.lock t (.product id)) := by
      simp only [perform, h.lockable, h.view]
      rfl
    refine ends_bind (h.issue hs (.lockProduct id) hlock ?_)
    refine ih _ (h.lock (.product id)) fun w' hw' => ?_
    have hfound : products ++ (s.db.product? id).toList ++ ids.filterMap s.db.product? =
        products ++ (id :: ids).filterMap s.db.product? := by
      rw [List.filterMap_cons, List.append_assoc]
      cases s.db.product? id <;> rfl
    rw [hfound]
    exact hQ w' hw'

theorem product?_of_mem {db : Db} (hn : (db.products.map (·.id)).Nodup) {p : Product} (hp : p ∈ db.products) :
    db.product? p.id = some p := by
  cases hf : db.product? p.id with
  | none => exact (by simpa using List.find?_eq_none.mp hf p hp : False).elim
  | some q => exact congrArg some (List.inj_on_of_nodup_map hn (Db.product?_mem hf) hp (Db.product?_id hf))

theorem filterMap_product? {db : Db} (hn : (db.products.map (·.id)).Nodup) (ps : List Product)
    (hps : ps ⊆ db.products) : (ps.map (·.id)).filterMap db.product? = ps := by
  rw [List.filterMap_map]
  conv_rhs => rw [← List.filterMap_some (l := ps)]
  exact List.filterMap_congr fun p hp => product?_of_mem hn (hps hp)

/-- The rows of the catalogue that the request asks for. -/
def Db.asked (db : Db) (items : List OrderItemInput) : List Product :=
  db.products.filter fun p => p.id ∈ (items.map (·.productId)).eraseDups

theorem lone_selectProductsForUpdate {Q : Except Err (List Product) → World → Prop} (hs : s.unserved t)
    (hn : (s.db.products.map (·.id)).Nodup) (items : List OrderItemInput)
    (h : Sole t s pool ⟨true, false, some []⟩ w)
    (hQ : ∀ w', Sole t s pool ⟨true, false, some []⟩ w' → Q (.ok (s.db.asked items)) w') :
    Lone cfg t Q (selectProductsForUpdate (items.map (·.productId)).eraseDups) w := by
  have hmatch : perform cfg t (.matchProducts (items.map (·.productId)).eraseDups) w =
      some (.ok ((s.db.asked items).map (·.id)), w) := by
    simp only [perform, h.view]
    rfl
  refine ends_bind (h.issue hs (.matchProducts _) hmatch ?_)
  refine lone_lockProducts hs _ [] h fun w' hw' => ?_
  rw [filterMap_product? hn (s.db.asked items) List.filter_sublist.subset]
  exact hQ w' hw'

theorem lone_saveProducts {Q : Except Err Unit → World → Prop} (hs : s.unserved t) {byId : JsMap Uuid Product}
    {entries : List (Uuid × Int)} (hfound : ∀ e ∈ entries, (byId.get? e.1).isSome)
    (h : Sole t s pool ⟨true, false, some []⟩ w)
    (hQ : ∀ w', Sole t s pool ⟨true, false, some (entries.filterMap (stockWrite byId))⟩ w' → Q (.ok ()) w') :
    Lone cfg t Q (saveProducts byId entries) w := by
  refine ends_forEach (fun past rest w => past ++ rest = entries ∧
    Sole t s pool ⟨true, false, some (past.filterMap (stockWrite byId))⟩ w) ?_ ?_ entries [] ⟨rfl, h⟩
  · rintro past entry rest w₁ ⟨hl, h₁⟩
    obtain ⟨p, hp⟩ := Option.isSome_iff_exists.mp (hfound entry (by simp [← hl]))
    obtain ⟨w₂, hw₂, h₂⟩ := h₁.stmt (.stock p.id (p.stock - entry.2))
    rw [hp]
    have hsave : perform cfg t (.saveStock p.id (p.stock - entry.2)) w₁ = some (.ok (), w₂) := by
      simp only [perform, hw₂, Option.map_some]
    refine h₁.issue hs (.saveStock p.id (p.stock - entry.2)) hsave ⟨rfl, by simpa using hl, ?_⟩
    have hw : stockWrite byId entry = some (.stock p.id (p.stock - entry.2)) := by
      rw [stockWrite, hp]
      rfl
    rw [List.filterMap_append, List.filterMap_cons, hw]
    exact h₂
  · rintro past w₁ ⟨hl, h₁⟩
    rw [List.append_nil] at hl
    subst hl
    exact hQ w₁ h₁

/-! ## The order and its items -/

theorem lone_insertOrder {Q : Except Err Order → World → Prop} (hs : s.unserved t)
    (hws : ∀ wr ∈ ws, wr.onStock = true) (hfree : s.db.orderByKey? req.actor.id req.idempotencyKey = none)
    (h : Sole t s pool ⟨true, false, some ws⟩ w)
    (hQ : ∀ w', Sole t { s with uuids := s.uuids + 1 } pool
      ⟨true, false, some (ws ++ [.insertOrder (newOrder s.uuids req.actor.id req.idempotencyKey s.clock)])⟩ w' →
      Q (.ok (newOrder s.uuids req.actor.id req.idempotencyKey s.clock)) w') :
    Lone cfg t Q (issue (.insertOrder req.actor.id req.idempotencyKey)) w := by
  obtain ⟨w', hw', h'⟩ := h.nextUuid.stmt (.insertOrder (newOrder s.uuids req.actor.id req.idempotencyKey s.clock))
  refine h.issue hs (.insertOrder req.actor.id req.idempotencyKey) ?_ (hQ w' h')
  have hview : (w.view t).orderByKey? req.actor.id req.idempotencyKey = none := by
    rw [h.view, orderByKey?_onStock hws]
    exact hfree
  have hshared : w.uuids = s.uuids ∧ w.clock = s.clock := by
    rw [← h.shared]
    exact ⟨rfl, rfl⟩
  simp only [perform, h.lockable, hview, hshared.1, hshared.2]
  have hmap := congrArg (Option.map fun w' =>
    ((.ok (newOrder s.uuids req.actor.id req.idempotencyKey s.clock) : Except Err Order), w')) hw'
  exact hmap

theorem lone_saveItems {Q : Except Err Unit → World → Prop} (hs : s.unserved t) {byId : JsMap Uuid Product}
    {order : Order} (hbyId : ∀ id p, byId.get? id = some p → p.id = id) {inputs : List OrderItemInput}
    (hfound : ∀ input ∈ inputs, (byId.get? input.productId).isSome) (h : Sole t s pool ⟨true, false, some ws⟩ w)
    (hQ : ∀ items n w', List.Forall₂ (IsLine byId order.id) inputs items →
      Sole t { s with uuids := n } pool ⟨true, false, some (ws ++ items.map .insertItem)⟩ w' → Q (.ok ()) w') :
    Lone cfg t Q (saveItems byId order inputs) w := by
  refine ends_forEach (fun past rest w => past ++ rest = inputs ∧ ∃ items n,
    List.Forall₂ (IsLine byId order.id) past items ∧
      Sole t { s with uuids := n } pool ⟨true, false, some (ws ++ items.map .insertItem)⟩ w) ?_ ?_ inputs []
        ⟨rfl, [], s.uuids, .nil, by simpa using h⟩
  · rintro past input rest w₁ ⟨hl, items, n, hlines, h₁⟩
    obtain ⟨p, hp⟩ := Option.isSome_iff_exists.mp (hfound input (by simp [← hl]))
    obtain ⟨w₂, hw₂, h₂⟩ := h₁.nextUuid.stmt (.insertItem ⟨n, order.id, p.id, input.quantity, p.price⟩)
    rw [hp]
    have hinsert : perform cfg t (.insertItem order.id p.id input.quantity p.price) w₁ = some (.ok (), w₂) := by
      have huuid : w₁.uuids = n := congrArg Shared.uuids h₁.shared
      simp only [perform, huuid, hw₂, Option.map_some]
    refine h₁.issue hs (.insertItem order.id p.id input.quantity p.price) hinsert
      ⟨rfl, by simpa using hl, items ++ [⟨n, order.id, p.id, input.quantity, p.price⟩], n + 1, ?_, ?_⟩
    · exact List.rel_append hlines (.cons ⟨rfl, hbyId _ _ hp, rfl, by rw [hp]; rfl⟩ .nil)
    · rw [List.map_append, ← List.append_assoc]
      exact h₂
  · rintro past w₁ ⟨hl, items, n, hlines, h₁⟩
    rw [List.append_nil] at hl
    subst hl
    exact hQ items n w₁ hlines h₁

/-! ## The reservation -/

theorem asked_nodup {db : Db} (hn : (db.products.map (·.id)).Nodup) (items : List OrderItemInput) :
    ((db.asked items).map (·.id)).Nodup := hn.sublist (List.filter_sublist.map _)

/-- The order as it is inserted. -/
def Shared.freshOrder (s : Shared) (req : CreateOrderRequest) : Order :=
  newOrder s.uuids req.actor.id req.idempotencyKey s.clock

theorem lone_reserve_refused {Q : Except Err (Order × OrderPlan) → World → Prop} (hs : s.unserved t)
    (hn : (s.db.products.map (·.id)).Nodup) {e : Err}
    (hplan : buildOrderPlan (s.db.asked req.dto.items) req.dto.items = .error e)
    (h : Sole t s pool ⟨true, false, some []⟩ w)
    (hQ : ∀ w', Sole t s pool ⟨true, false, some []⟩ w' → Q (.error e) w') :
    Lone cfg t Q (reserve req.actor req.dto req.idempotencyKey) w := by
  refine ends_bind (lone_selectProductsForUpdate hs hn req.dto.items h fun w₁ h₁ => ends_bind ?_)
  rw [hplan]
  exact .done (hQ w₁ h₁)

theorem lone_reserve {Q : Except Err (Order × OrderPlan) → World → Prop} (hs : s.unserved t)
    (hn : (s.db.products.map (·.id)).Nodup) (hfree : s.db.orderByKey? req.actor.id req.idempotencyKey = none)
    {plan : OrderPlan} (hplan : buildOrderPlan (s.db.asked req.dto.items) req.dto.items = .ok plan)
    (h : Sole t s pool ⟨true, false, some []⟩ w)
    (hQ : ∀ rows n w', List.Forall₂ (IsLine (productsById (s.db.asked req.dto.items)) s.uuids) req.dto.items rows →
      Sole t ({ s with uuids := n }.commit t (reserveLog (s.db.asked req.dto.items) plan (s.freshOrder req) rows)) pool
        ⟨false, false, none⟩ w' → Q (.ok (s.freshOrder req, plan)) w') :
    Lone cfg t Q (reserve req.actor req.dto req.idempotencyKey) w := by
  have hn' := asked_nodup hn req.dto.items
  obtain ⟨hquantities, _, hfill⟩ := buildOrderPlan_ok hn' hplan
  have hfound : ∀ id ∈ req.dto.items.map (·.productId),
      ((productsById (s.db.asked req.dto.items)).get? id).isSome := by
    intro id hid
    obtain ⟨input, hinput, rfl⟩ := List.mem_map.mp hid
    obtain ⟨p, hp, he, _⟩ := hfill input hinput
    exact Option.isSome_iff_exists.mpr ⟨p, (get?_productsById hn' _ _).mpr ⟨hp, he⟩⟩
  refine ends_bind (lone_selectProductsForUpdate hs hn req.dto.items h fun w₁ h₁ => ends_bind ?_)
  rw [hplan]
  refine .done (ends_bind (lone_saveProducts hs (fun e he => ?_) h₁ fun w₂ h₂ => ends_bind ?_))
  · rw [hquantities] at he
    exact hfound e.1 (mem_aggregate.mp he).1
  · refine lone_insertOrder hs (onStock_stockWrites _ _) hfree h₂ fun w₃ h₃ => ends_bind ?_
    have hs₃ : Shared.unserved t { s with uuids := s.uuids + 1 } := hs
    refine lone_saveItems hs₃ (fun id p hg => ((get?_productsById hn' id p).mp hg).2)
      (fun input hinput => hfound _ (List.mem_map_of_mem hinput)) h₃ fun rows n w₄ hrows h₄ => ends_bind ?_
    refine lone_commit h₄ hs fun w₅ h₅ => .done (hQ rows n w₅ hrows ?_)
    rw [List.append_assoc] at h₅
    exact h₅

/-! ## The payment -/

/-- The shared state once the payments service has answered. -/
def Shared.charged (s : Shared) (t : Tid) (request : AuthorizeRequest) : Shared :=
  let asked := (s.setRpc t (.requested request)).log (.sent t request)
  (asked.execute t request).setRpc t
    (.answered (PaymentsGrpcController.authorize s.payments s.uuids request).1)

theorem lone_authorizePayment {Q : Except Err AuthorizeResponse → World → Prop} (hservice : cfg.service = .repository)
    (hidle : s.rpc t = .idle) {order : Order} {plan : OrderPlan} {key : String} (h : Sole t s pool sess w)
    (hQ : ∀ w', Sole t (s.charged t (authorizeRequest cfg order plan key)) pool sess w' →
      Q (.ok (PaymentsGrpcController.authorize s.payments s.uuids (authorizeRequest cfg order plan key)).1) w') :
    Lone cfg t Q (authorizePayment cfg order plan key) w := by
  let request := authorizeRequest cfg order plan key
  let asked := (s.setRpc t (.requested request)).log (.sent t request)
  let w₁ : World := { w with toShared := asked }
  let w₂ : World := { w with toShared := asked.execute t request }
  let w₃ : World := { w with toShared := s.charged t request }
  have hunserved := unserved_of_idle hidle
  have hsend : perform cfg t (.sendAuthorize request) w = some (.ok (), w₁) := by
    simp only [perform, h.shared, hidle]
    rfl
  have hwait : perform cfg t .awaitAuthorize w₁ = none := by
    have hrpc : w₁.rpc t = .requested request := Function.update_self ..
    simp only [perform, hrpc]
  have hserve : (machine cfg).env (.execute t) w₁ = some w₂ := by
    have hrpc : asked.rpc t = .requested request := Function.update_self ..
    simp only [machine, World.env, Shared.env, w₁, hrpc, hservice, if_true, Option.map_some]
    rfl
  have hdone : (asked.execute t request).rpc t =
      .executed (PaymentsGrpcController.authorize s.payments s.uuids request).1 := Function.update_self ..
  have hreceive : perform cfg t .awaitAuthorize w₂ =
      some (.ok (PaymentsGrpcController.authorize s.payments s.uuids request).1, w₃) := by
    simp only [perform, w₂, hdone]
    rfl
  refine ends_tryCatch (ends_bind (h.issue hunserved (.sendAuthorize request) hsend ?_))
  refine .serve hwait hserve (.run hreceive (execute_none fun r hr => ?_) (.done (hQ w₃ (h.setShared _))))
  rw [show w₂.rpc t = _ from hdone] at hr
  cases hr

/-! ## After the payment -/

theorem unserved_charged (s : Shared) (t : Tid) (request : AuthorizeRequest) : (s.charged t request).unserved t := by
  intro r hr
  have hrpc : (s.charged t request).rpc t =
      .answered (PaymentsGrpcController.authorize s.payments s.uuids request).1 := Function.update_self ..
  rw [hrpc] at hr
  cases hr

theorem lone_updatePayment {Q : Except Err Unit → World → Prop} (hs : s.unserved t)
    (hroom : (pool .api).length < cfg.poolSize .api) (id pid : Uuid) (st : PaymentStatus)
    (h : Sole t s pool sess w)
    (hQ : ∀ w', Sole t (s.write t (.payOrder id pid st)) pool sess w' → Q (.ok ()) w') :
    Lone cfg t Q (withConnection .payment (issue (.updatePayment id pid st))) w := by
  let w₁ := w.addConn .api t
  have h₁ := h.addConn .api
  have hacquire : perform cfg t (.acquire .payment) w = some (.ok (), w₁) := by
    simp only [perform, h.pool, hroom, if_true]
    rfl
  let w₂ : World := { w₁ with toShared := s.write t (.payOrder id pid st) }
  have h₂ : Sole t (s.write t (.payOrder id pid st)) _ sess w₂ := h₁.setShared _
  have hupdate : perform cfg t (.updatePayment id pid st) w₁ = some (.ok (), w₂) := by
    have hfree : w₁.lockable t (.order id) = true := h₁.lockable _
    have hshared : w₁.toShared = s := h₁.shared
    simp only [perform, hfree, if_true, hshared, w₂]
  refine ends_bind (h.issue hs (.acquire .payment) hacquire (ends_tryFinally (h₁.issue hs _ hupdate ?_)))
  refine h₂.issue hs .free rfl (hQ _ ?_)
  have h₃ := h₂.removeConn .api
  rwa [erase_update] at h₃

/-- The shared state when the process message of the order is to be sent. -/
def Shared.identified (s : Shared) (t : Tid) : Shared :=
  { s with uuids := s.uuids + 1 }.log (.generated t s.uuids)

/-- The shared state once the process message of the order is sent. -/
def Shared.announced (s : Shared) (t : Tid) (orderId : Uuid) : Shared :=
  (s.identified t).published t .process (processMessage s.uuids orderId s.clock)

/-- The shared state once a lost channel has refused the message. -/
def Shared.unannounced (s : Shared) (t : Tid) (orderId : Uuid) : Shared :=
  (s.identified t).log (.failed t (.publish .process (processMessage s.uuids orderId s.clock)))

theorem lone_publishProcess {Q : Except Err Uuid → World → Prop} (hs : s.unserved t)
    (order : Order) (h : Sole t s pool sess w)
    (hQ : ∀ w', s.broker.channel t ≠ .lost → Sole t (s.announced t order.id) pool sess w' → Q (.ok s.uuids) w')
    (hlost : ∀ w', s.broker.channel t = .lost → Sole t (s.unannounced t order.id) pool sess w' →
      Q (.error channelClosed) w') :
    Lone cfg t Q (publishProcess order) w := by
  let s₁ := s.identified t
  have h₁ : Sole t s₁ pool sess (w.nextUuid.logEvent (.generated t s.uuids)) := h.nextUuid.logEvent _
  have huuid : perform cfg t .uuid w = some (.ok s.uuids, w.nextUuid.logEvent (.generated t s.uuids)) := by
    simp only [perform, ← h.shared]
  have hnow : perform cfg t .now (w.nextUuid.logEvent (.generated t s.uuids)) =
      some (.ok s.clock, w.nextUuid.logEvent (.generated t s.uuids)) := by
    simp only [perform, h₁.shared]
    rfl
  refine ends_bind (h.issue hs .uuid huuid (ends_bind (h₁.issue hs .now hnow (ends_bind ?_))))
  have hchannel : (w.nextUuid.logEvent (.generated t s.uuids)).broker.channel t = s.broker.channel t := by
    rw [h₁.shared]
    rfl
  by_cases hc : s.broker.channel t = .lost
  · have hrefuses : (w.nextUuid.logEvent (.generated t s.uuids)).refuses t
        (.publish .process (processMessage s.uuids order.id s.clock)) = true :=
      decide_eq_true (hchannel.trans hc)
    exact h₁.refused hs hrefuses (hlost _ hc (h₁.logEvent _))
  · have hpublish : perform cfg t (.publish .process (processMessage s.uuids order.id s.clock))
        (w.nextUuid.logEvent (.generated t s.uuids)) =
        some (.ok (), { w.nextUuid.logEvent (.generated t s.uuids) with toShared := s.announced t order.id }) := by
      have hpublished : s₁.publish t .process (processMessage s.uuids order.id s.clock) = s.announced t order.id := by
        unfold Shared.publish
        cases hs₁ : s₁.broker.channel t with
        | lost => exact (hc hs₁).elim
        | ready => rfl
      simp only [perform, h₁.shared, hpublished]
    exact h₁.issue hs (.publish .process _) hpublish (.done (hQ _ hc (h₁.setShared _)))
      (World.refuses_of_open (by rwa [hchannel]) _)

/-- The shared state once the payment is on the order. -/
def Shared.paid (s : Shared) (t : Tid) (request : AuthorizeRequest) : Shared :=
  let payment := (PaymentsGrpcController.authorize s.payments s.uuids request).1
  (s.charged t request).write t (.payOrder request.orderId payment.paymentId payment.status)

theorem lone_settle {Q : Except Err CreateOrderResult → World → Prop} (hservice : cfg.service = .repository)
    (hidle : s.rpc t = .idle) (hroom : (pool .api).length < cfg.poolSize .api)
    {order : Order} {plan : OrderPlan} {key : String} (h : Sole t s pool sess w)
    (hQ : ∀ w', s.broker.channel t ≠ .lost →
      Sole t ((s.paid t (authorizeRequest cfg order plan key)).announced t order.id) pool sess w' →
      let payment := (PaymentsGrpcController.authorize s.payments s.uuids (authorizeRequest cfg order plan key)).1
      Q (.ok ⟨false, order.pay payment.paymentId payment.status, none, some payment, some (s.uuids + 1)⟩) w')
    (hlost : ∀ w', s.broker.channel t = .lost →
      Sole t ((s.paid t (authorizeRequest cfg order plan key)).unannounced t order.id) pool sess w' →
      Q (.error channelClosed) w') :
    Lone cfg t Q (settle cfg order plan key) w := by
  refine ends_bind (lone_authorizePayment hservice hidle h fun w₁ h₁ => ends_bind ?_)
  let payment := (PaymentsGrpcController.authorize s.payments s.uuids (authorizeRequest cfg order plan key)).1
  have hs := unserved_charged s t (authorizeRequest cfg order plan key)
  have hs₂ : (s.paid t (authorizeRequest cfg order plan key)).unserved t := hs
  refine lone_updatePayment hs hroom order.id _ _ h₁ fun w₂ h₂ => ends_bind ?_
  exact lone_publishProcess hs₂ order h₂ (fun w₃ hopen h₃ => .done (hQ w₃ hopen h₃)) hlost

/-! ## What the call means -/

/-- The sale of what `req` asks for: the stock is taken, and the order added
with its lines and its payment. -/
structure Sold (cfg : Config) (s : Shared) (req : CreateOrderRequest) (rows : List OrderItem)
    (payment : AuthorizeResponse) (o : Order) (s' : Shared) : Prop where
  fresh : s.db.order? o.id = none
  lines : List.Forall₂ (IsLine (productsById s.db.products) o.id) req.dto.items rows
  order : o = (newOrder o.id req.actor.id req.idempotencyKey s.clock).pay payment.paymentId payment.status
  db : s'.db = { s.db with
    products := s.db.products.map fun p => p.setStock (p.stock - lineSum req.dto.items p.id)
    orders := s.db.orders ++ [o]
    orderItems := s.db.orderItems ++ rows }
  charge : ∃ uuid, PaymentsGrpcController.authorize s.payments uuid
    { orderId := o.id
      amountCents := (rows.map fun row => (row.priceAtPurchase : Int) * row.quantity).sum
      currency := cfg.currency
      idempotencyKey := some req.idempotencyKey } = (payment, s'.payments)

theorem Sold.of_eq {rows : List OrderItem} {payment : AuthorizeResponse} {o : Order} {s' s'' : Shared}
    (h : Sold cfg s req rows payment o s') (hdb : s''.db = s'.db) (hpayments : s''.payments = s'.payments) :
    Sold cfg s req rows payment o s'' :=
  ⟨h.fresh, h.lines, h.order, hdb.trans h.db, by rw [hpayments]; exact h.charge⟩

/-- What a call that is left alone ends with, and in which state. Its message
is sent last, so that on a lost channel the sale stands. -/
inductive Means (cfg : Config) (t : Tid) (s : Shared) (req : CreateOrderRequest) :
    Except Err CreateOrderResult → Shared → Prop
  | noKey (hkey : req.idempotencyKey = "") :
      Means cfg t s req (.error (.http (badRequestError "Idempotency-Key header is required" .none))) s
  | noUser (hkey : req.idempotencyKey ≠ "") (huser : s.db.user? req.actor.id = none) :
      Means cfg t s req
        (.error (.http (notFoundError "Authenticated user was not found" (.user req.actor.id)))) s
  | reused (hkey : req.idempotencyKey ≠ "") (huser : (s.db.user? req.actor.id).isSome) (o : Order)
      (ho : s.db.orderByKey? req.actor.id req.idempotencyKey = some o) :
      Means cfg t s req (.ok (reusedResult (o, s.db.itemsOf o.id))) s
  | refused (hkey : req.idempotencyKey ≠ "") (huser : (s.db.user? req.actor.id).isSome)
      (hfree : s.db.orderByKey? req.actor.id req.idempotencyKey = none) (e : Err)
      (hrule : StockRule s.db.products req.dto.items (.error e)) : Means cfg t s req (.error e) s
  | sold (hkey : req.idempotencyKey ≠ "") (huser : (s.db.user? req.actor.id).isSome)
      (hfree : s.db.orderByKey? req.actor.id req.idempotencyKey = none)
      (hfill : Fillable s.db.products req.dto.items) (rows : List OrderItem) (payment : AuthorizeResponse)
      (o : Order) (mid : Uuid) (s' : Shared) (hsold : Sold cfg s req rows payment o s')
      (hopen : s.broker.channel t ≠ .lost)
      (hsent : s'.broker = s.broker.publish .process (processMessage mid o.id s.clock)) :
      Means cfg t s req (.ok ⟨false, o, none, some payment, some mid⟩) s'
  | unsent (hkey : req.idempotencyKey ≠ "") (huser : (s.db.user? req.actor.id).isSome)
      (hfree : s.db.orderByKey? req.actor.id req.idempotencyKey = none)
      (hfill : Fillable s.db.products req.dto.items) (rows : List OrderItem) (payment : AuthorizeResponse)
      (o : Order) (s' : Shared) (hsold : Sold cfg s req rows payment o s')
      (hlost : s.broker.channel t = .lost) (hbroker : s'.broker = s.broker) :
      Means cfg t s req (.error channelClosed) s'

/-- Only the products that are asked for matter. -/
theorem stockRule_asked {db : Db} {items : List OrderItemInput} {r : Except Err OrderPlan}
    (h : StockRule (db.asked items) items r) : StockRule db.products items r := by
  have hids : ∀ id ∈ items.map (·.productId), (id ∈ (db.asked items).map (·.id) ↔ id ∈ db.products.map (·.id)) := by
    intro id hid
    simp only [Db.asked, List.mem_map, List.mem_filter, decide_eq_true_eq]
    constructor
    · rintro ⟨p, ⟨hp, _⟩, rfl⟩
      exact ⟨p, hp, rfl⟩
    · rintro ⟨p, hp, rfl⟩
      exact ⟨p, ⟨hp, by simpa using hid⟩, rfl⟩
  have hsub : db.asked items ⊆ db.products := List.filter_sublist.subset
  cases h with
  | missing h =>
    have hmissing : (orderedIds items).filter (fun p => p ∉ (db.asked items).map (·.id)) =
        (orderedIds items).filter fun p => p ∉ db.products.map (·.id) :=
      List.filter_congr fun id hid => by simp only [hids id (mem_orderedIds.mp hid)]
    rw [hmissing]
    obtain ⟨item, hi, hn⟩ := h
    exact .missing ⟨item, hi, fun hp => hn ((hids _ (List.mem_map_of_mem hi)).mpr hp)⟩
  | insufficient hknown past p rest hsplit product hp hid hstock hpast =>
    refine .insufficient (fun item hi => (hids _ (List.mem_map_of_mem hi)).mp (hknown item hi)) past p rest hsplit
      product (hsub hp) hid hstock fun q hq hqpast => hpast q (List.mem_filter.mpr ⟨hq, ?_⟩) hqpast
    have hord : q.id ∈ orderedIds items := by
      rw [hsplit]
      exact List.mem_append_left _ hqpast
    simpa [orderedIds] using hord
  | accepted plan hfill hkeys hsums =>
    refine .accepted plan (fun item hi => ?_) hkeys hsums
    obtain ⟨p, hp, he, hle⟩ := hfill item hi
    exact ⟨p, hsub hp, he, hle⟩

theorem eq_of_shape (f : Uuid → Int) {ps qs : List Product} (hshape : shape ps = shape qs)
    (hstock : ∀ p ∈ ps, p.stock = f p.id) : ps = qs.map fun q => q.setStock (f q.id) := by
  induction ps generalizing qs with
  | nil =>
    obtain rfl : qs = [] := List.map_eq_nil_iff.mp hshape.symm
    rfl
  | cons p ps ih =>
    cases qs with
    | nil => cases hshape
    | cons q qs =>
      obtain ⟨hp, hps⟩ := List.cons.inj hshape
      have hid : (p.setStock 0).id = (q.setStock 0).id := congrArg Product.id hp
      have hhead : (p.setStock 0).setStock p.stock = (q.setStock 0).setStock p.stock :=
        congrArg (Product.setStock p.stock) hp
      change p.id = q.id at hid
      change p = q.setStock p.stock at hhead
      rw [List.map_cons, ← ih hps fun p' hp' => hstock p' (List.mem_cons_of_mem _ hp'), ← hid,
        ← hstock p (List.mem_cons_self ..), ← hhead]

theorem products_reserve {db : Db} {inputs : List OrderItemInput} {products : List Product} {plan : OrderPlan}
    (hn : (db.products.map (·.id)).Nodup) (h : Planned db inputs products plan) (order : Order)
    (rows : List OrderItem) :
    db.applyAll (reserveLog products plan order rows) = { db with
      products := db.products.map fun p => p.setStock (p.stock - lineSum inputs p.id)
      orders := db.orders ++ [order]
      orderItems := db.orderItems ++ rows } := by
  obtain ⟨ps, he, hshape, hstock⟩ := applyAll_reserveLog h order rows
  have hn' : (ps.map (·.id)).Nodup := by rwa [ids_of_shape hshape]
  have hps : ps = db.products.map fun p => p.setStock (db.stock p.id - lineSum inputs p.id) :=
    eq_of_shape (fun id => db.stock id - lineSum inputs id) hshape fun p hp => by
      rw [← hstock, stockIn_of_mem hn' hp]
  rw [he, hps]
  congr 1
  exact List.map_congr_left fun p hp => by rw [Db.stock, stockIn_of_mem hn hp]

theorem IsLine.of_asked {items : List OrderItemInput} {orderId : Uuid} {input : OrderItemInput} {row : OrderItem}
    {db : Db} (hn : (db.products.map (·.id)).Nodup) (h : IsLine (productsById (db.asked items)) orderId input row) :
    IsLine (productsById db.products) orderId input row := by
  refine ⟨h.order, h.product, h.quantity, ?_⟩
  obtain ⟨p, hp, hprice⟩ := Option.map_eq_some_iff.mp h.price
  obtain ⟨hmem, hid⟩ := (get?_productsById (asked_nodup hn items) _ _).mp hp
  rw [(get?_productsById hn _ p).mpr ⟨List.filter_sublist.subset hmem, hid⟩, ← hprice]
  rfl

/-- An order that has just been added is changed. -/
theorem map_update_snoc {db : Db} {order : Order} {id : Uuid} (hid : order.id = id) (hfresh : db.order? id = none)
    (f : Order → Order) :
    (db.orders ++ [order]).map (fun o => if o.id = id then f o else o) = db.orders ++ [f order] := by
  have hold : db.orders.map (fun o => if o.id = id then f o else o) = db.orders := by
    conv_rhs => rw [← List.map_id db.orders]
    refine List.map_congr_left fun o ho => if_neg fun he => ?_
    simpa [he] using List.find?_eq_none.mp hfresh o ho
  rw [List.map_append, hold, List.map_singleton, if_pos hid]

theorem sold_paid (cfg : Config) {s₁ : Shared} {n : Nat} {plan : OrderPlan} {rows : List OrderItem}
    (hn : (s.db.products.map (·.id)).Nodup) (hfresh : s.db.order? s.uuids = none)
    (hplan : buildOrderPlan (s.db.asked req.dto.items) req.dto.items = .ok plan)
    (hrows : List.Forall₂ (IsLine (productsById (s.db.asked req.dto.items)) s.uuids) req.dto.items rows)
    (hs₁ : s₁ = { s with uuids := n }.commit t (reserveLog (s.db.asked req.dto.items) plan (s.freshOrder req) rows)) :
    let request := authorizeRequest cfg (s.freshOrder req) plan req.idempotencyKey
    let payment := (PaymentsGrpcController.authorize s₁.payments s₁.uuids request).1
    Sold cfg s req rows payment ((s.freshOrder req).pay payment.paymentId payment.status) (s₁.paid t request) := by
  intro request payment
  have hn' := asked_nodup hn req.dto.items
  have hplanned : Planned s.db req.dto.items (s.db.asked req.dto.items) plan := by
    exact ⟨fun p hp => product?_of_mem hn (List.filter_sublist.subset hp), hn', hplan⟩
  rw [commit_eq] at hs₁
  subst hs₁
  refine ⟨hfresh, hrows.imp fun _ _ hl => hl.of_asked hn, rfl, ?_, ⟨n, ?_⟩⟩
  · show (Write.payOrder s.uuids payment.paymentId payment.status).apply (s.db.applyAll _) = _
    rw [products_reserve hn hplanned]
    have hid : (s.freshOrder req).id = s.uuids := rfl
    simp only [Write.apply, Db.updateOrder]
    rw [map_update_snoc hid hfresh]
  · rw [amount_lines hn' hplan hrows]
    rfl

/-! ## The whole call -/

theorem lone_createOrderTry {Q : Except Err CreateOrderResult → World → Prop} (hservice : cfg.service = .repository)
    (hidle : s.rpc t = .idle) (hn : (s.db.products.map (·.id)).Nodup) (hfresh : s.db.order? s.uuids = none)
    (hroom : (pool .api).length < cfg.poolSize .api)
    (hkey : req.idempotencyKey ≠ "") (h : Sole t s pool ⟨true, false, some []⟩ w)
    (hok : ∀ res s' w', Means cfg t s req (.ok res) s' → s'.unserved t → Sole t s' pool ⟨false, false, none⟩ w' →
      Q (.ok res) w')
    (herr : ∀ e s' sess w', Means cfg t s req (.error e) s' → isUniqueViolation e = false → s'.unserved t →
      sess = ⟨true, false, some []⟩ ∨ sess = ⟨false, false, none⟩ → Sole t s' pool sess w' → Q (.error e) w') :
    Lone cfg t Q (createOrderTry cfg req.actor req.dto req.idempotencyKey) w := by
  have hs := unserved_of_idle hidle
  have hview : w.view t = s.db := h.view
  have huser : perform cfg t (.findUser req.actor.id) w = some (.ok (s.db.user? req.actor.id), w) := by
    simp only [perform, hview]
  refine ends_bind (h.issue hs (.findUser req.actor.id) huser ?_)
  cases hfound : s.db.user? req.actor.id with
  | none => exact .done (herr _ s _ w (.noUser hkey hfound) rfl hs (.inl rfl) h)
  | some user =>
    have hsome : (s.db.user? req.actor.id).isSome := by rw [hfound]; rfl
    have hexisting : perform cfg t (.findOrder req.actor.id req.idempotencyKey) w =
        some (.ok (s.db.withItems (s.db.orderByKey? req.actor.id req.idempotencyKey)), w) := by
      simp only [perform, hview]
    refine ends_bind (h.issue hs (.findOrder req.actor.id req.idempotencyKey) hexisting ?_)
    cases hkeyed : s.db.orderByKey? req.actor.id req.idempotencyKey with
    | some o =>
      exact ends_bind (lone_commit h hs fun w' h' => .done (hok _ s w' (.reused hkey hsome o hkeyed) hs h'))
    | none =>
      cases hplan : buildOrderPlan (s.db.asked req.dto.items) req.dto.items with
      | error e =>
        have hrule := stockRule_asked (hplan ▸ buildOrderPlan_rule (asked_nodup hn req.dto.items) req.dto.items)
        have hunique : isUniqueViolation e = false := by cases hrule <;> rfl
        exact ends_bind (lone_reserve_refused hs hn hplan h fun w' h' =>
          herr e s _ w' (.refused hkey hsome hkeyed e hrule) hunique hs (.inl rfl) h')
      | ok plan =>
        have hfill : Fillable s.db.products req.dto.items := by
          intro item hi
          obtain ⟨p, hp, he, hle⟩ := (buildOrderPlan_ok (asked_nodup hn req.dto.items) hplan).2.2 item hi
          exact ⟨p, List.filter_sublist.subset hp, he, hle⟩
        refine ends_bind (lone_reserve hs hn hkeyed hplan h fun rows n w' hrows h' => ?_)
        obtain ⟨s₁, hs₁⟩ : ∃ s₁, s₁ = { s with uuids := n }.commit t
          (reserveLog (s.db.asked req.dto.items) plan (s.freshOrder req) rows) := ⟨_, rfl⟩
        obtain ⟨hrpc, hbroker, hclock⟩ : s₁.rpc = s.rpc ∧ s₁.broker = s.broker ∧ s₁.clock = s.clock := by
          rw [hs₁, commit_eq]
          exact ⟨rfl, rfl, rfl⟩
        have hsold := sold_paid cfg hn hfresh hplan hrows hs₁
        let request := authorizeRequest cfg (s.freshOrder req) plan req.idempotencyKey
        have hserved := unserved_charged s₁ t request
        rw [← hs₁] at h'
        refine lone_settle hservice (by rw [hrpc]; exact hidle) hroom h'
          (fun w'' hopen h'' => ?_) fun w'' hlost h'' => ?_
        · have hstored : Sold cfg s req rows _ _ ((s₁.paid t request).announced t s.uuids) := hsold.of_eq rfl rfl
          have hsent : ((s₁.paid t request).announced t s.uuids).broker =
              s.broker.publish .process (processMessage (s₁.uuids + 1) s.uuids s.clock) := by
            rw [← hbroker, ← hclock]
            rfl
          have hs' : ((s₁.paid t request).announced t s.uuids).unserved t := hserved
          exact hok _ _ w'' (.sold hkey hsome hkeyed hfill rows _ _ _ _ hstored (hbroker ▸ hopen) hsent) hs' h''
        · have hstored : Sold cfg s req rows _ _ ((s₁.paid t request).unannounced t s.uuids) := hsold.of_eq rfl rfl
          have hkept : ((s₁.paid t request).unannounced t s.uuids).broker = s.broker := hbroker
          have hs' : ((s₁.paid t request).unannounced t s.uuids).unserved t := hserved
          exact herr _ _ _ w'' (.unsent hkey hsome hkeyed hfill rows _ _ _ hstored (hbroker ▸ hlost) hkept) rfl hs'
            (.inr rfl) h''

theorem lone_createOrderCatch {Q : Except Err CreateOrderResult → World → Prop} (hs : s.unserved t) {e : Err}
    (hunique : isUniqueViolation e = false) (hsess : sess = ⟨true, false, some ws⟩ ∨ sess = ⟨false, false, none⟩)
    (h : Sole t s pool sess w) (hQ : ∀ w', Sole t s pool ⟨false, false, none⟩ w' → Q (.error e) w') :
    Lone cfg t Q (createOrderCatch req.actor req.idempotencyKey e) w := by
  have hactive : perform cfg t .isTransactionActive w = some (.ok sess.active, w) := by
    simp only [perform, h.session]
  refine ends_bind (ends_bind (h.issue hs .isTransactionActive hactive ?_))
  rcases hsess with rfl | rfl
  · refine lone_rollback h hs fun w' h' => ?_
    simp only [hunique, Bool.false_eq_true, if_false]
    exact .done (hQ w' h')
  · refine .done ?_
    simp only [hunique, Bool.false_eq_true, if_false]
    exact .done (hQ w h)

/-- Left alone, the call ends as it means to, with everything given back. -/
theorem lone_createOrder (hservice : cfg.service = .repository) (hidle : s.rpc t = .idle)
    (hn : (s.db.products.map (·.id)).Nodup) (hfresh : s.db.order? s.uuids = none)
    (hroom : (pool .api).length + 1 < cfg.poolSize .api)
    (h : Sole t s pool ⟨false, false, none⟩ w) :
    Lone cfg t (fun r w' => ∃ s', Means cfg t s req r s' ∧ s'.unserved t ∧ Sole t s' pool ⟨false, false, none⟩ w')
      (createOrder cfg req.actor req.dto req.idempotencyKey) w := by
  have hs := unserved_of_idle hidle
  unfold createOrder
  by_cases hkey : req.idempotencyKey = ""
  · rw [if_pos hkey]
    exact .done ⟨s, .noKey hkey, hs, h⟩
  rw [if_neg hkey, if_neg req.dto.nonempty]
  refine ends_bind (lone_connect h hs .api (Nat.lt_of_succ_lt hroom) fun w₁ h₁ => ends_bind ?_)
  refine lone_startTransaction h₁ hs rfl fun w₂ h₂ => ends_tryFinally (ends_tryCatch ?_)
  have hroom' : (Function.update pool .api (t :: pool .api) .api).length < cfg.poolSize .api := by
    rw [Function.update_self]
    exact hroom
  refine lone_createOrderTry hservice hidle hn hfresh hroom' hkey h₂ (fun res s' w' hmeans hs' h' => ?_)
    fun e s' sess w' hmeans hunique hs' hsess h' => ?_
  · exact lone_release h' hs' fun w'' h'' => ⟨s', hmeans, hs', h''⟩
  · refine lone_createOrderCatch hs' hunique hsess h' fun w'' h'' => ?_
    exact lone_release h'' hs' fun w₃ h₃ => ⟨s', hmeans, hs', h₃⟩

/-! ## A call from a quiet state -/

variable {c : Catalogue} {conf conf' : SysConf}

/-- The state once the call has come in. -/
abbrev SysConf.called (conf : SysConf) (cfg : Config) (t : Tid) (req : CreateOrderRequest) : SysConf where
  world := { conf.world with toShared := conf.world.toShared.start t (.create req) }
  threads := Function.update conf.threads t (.running (requestThread cfg req))

/-- The call of `t` comes in and runs until it can run no further, the
payments service runs for it, and nothing else happens. -/
def CalledAlone (cfg : Config) (t : Tid) (req : CreateOrderRequest) (conf conf' : SysConf) : Prop :=
  conf.threads t = .idle ∧ (machine cfg).RunsOut t .proceed (.execute t) (conf.called cfg t req) conf'

theorem Reachable.spawn_called (h : Reachable cfg c conf) (ht : conf.threads t = .idle) (req : CreateOrderRequest) :
    (machine cfg).step conf (.spawn t (.request req)) = some (conf.called cfg t req) := by
  have harrive : (machine cfg).spawn t (.request req) conf.world =
      some (requestThread cfg req, (conf.called cfg t req).world) := by
    show conf.world.arrive cfg t (.request req) = _
    unfold World.arrive
    rw [h.jobs_of_idle ht]
  simp only [Machine.step, ht, harrive, Option.map_some]

theorem Reachable.lone_called (h : Reachable cfg c conf) (hq : conf.Quiet) (hservice : cfg.service = .repository)
    (ht : conf.threads t = .idle) (hroom : (conf.world.pool .api).length + 1 < cfg.poolSize .api)
    (req : CreateOrderRequest) :
    Lone cfg t (fun r w => ∃ res s', r = res.map some ∧ Means cfg t (conf.called cfg t req).world.toShared req res s' ∧
      s'.unserved t ∧ Sole t s' conf.world.pool ⟨false, false, none⟩ w)
      (requestThread cfg req) (conf.called cfg t req).world := by
  obtain ⟨hstart, hidle⟩ := h.sole hq ht
  have hfresh : conf.world.db.order? conf.world.uuids = none := (RowVal.order.inj (row_fresh h.saga)).1
  let s := (conf.called cfg t req).world.toShared
  have hsole : Sole t s conf.world.pool ⟨false, false, none⟩ (conf.called cfg t req).world := hstart.setShared s
  have hidle : s.rpc t = .idle := hidle
  refine ends_bind (ends_mono (fun r w hr => ?_)
    (lone_createOrder hservice hidle h.saga.inv.tables.productIds hfresh hroom hsole))
  obtain ⟨s', hmeans, hs', hw⟩ := hr
  cases r with
  | ok res => exact .done ⟨.ok res, s', rfl, hmeans, hs', hw⟩
  | error e => exact ⟨.error e, s', rfl, hmeans, hs', hw⟩

theorem Reachable.called_ends (h : Reachable cfg c conf) (hq : conf.Quiet) (hservice : cfg.service = .repository)
    (ht : conf.threads t = .idle) (hroom : (conf.world.pool .api).length + 1 < cfg.poolSize .api)
    (req : CreateOrderRequest) :
    Acc (fun c₂ c₁ => ∃ l : SysLabel, l.Alone t .proceed (.execute t) ∧ (machine cfg).step c₁ l = some c₂)
      (conf.called cfg t req) ∧
    (∃ conf', (machine cfg).RunsOut t .proceed (.execute t) (conf.called cfg t req) conf') ∧
    ∀ conf', (machine cfg).RunsOut t .proceed (.execute t) (conf.called cfg t req) conf' → conf'.Quiet ∧
      ∃ r, conf'.threads t = .running (.done r) ∧ ∃ res s', r = res.map some ∧
        Means cfg t (conf.called cfg t req).world.toShared req res s' ∧ s'.unserved t ∧
        Sole t s' conf.world.pool ⟨false, false, none⟩ conf'.world := by
  refine (h.lone_called hq hservice ht hroom req).alone (fun r w ⟨_, _, _, _, hs', hw⟩ => ?_) hq rfl
  exact execute_none (hw.shared ▸ hs')

/-- What a call that has been left alone has done. -/
theorem Reachable.call_means (h : Reachable cfg c conf) (hq : conf.Quiet) (hservice : cfg.service = .repository)
    (hroom : (conf.world.pool .api).length + 1 < cfg.poolSize .api) (hcall : CalledAlone cfg t req conf conf') :
    Reachable cfg c conf' ∧ conf'.Quiet ∧ conf'.world.pool = conf.world.pool ∧
      ∃ res, conf'.threads t = .running (.done (res.map some)) ∧
        Means cfg t (conf.called cfg t req).world.toShared req res conf'.world.toShared := by
  obtain ⟨ht, hrun⟩ := hcall
  obtain ⟨_, _, hend⟩ := h.called_ends hq hservice ht hroom req
  obtain ⟨hquiet, r, hdone, res, s', rfl, hmeans, _, hw⟩ := hend conf' hrun
  exact ⟨Machine.Reach.trans (.step _ h (h.spawn_called ht req)) hrun.1.reach, hquiet, hw.pool, res, hdone,
    hw.shared ▸ hmeans⟩

theorem Tables.columns_asked {db : Db} (h : Tables c db) (hcol : Columns c.products) (items : List OrderItemInput) :
    Columns (db.asked items) := by
  intro product hp
  have hmem : product ∈ db.products := List.filter_sublist.subset hp
  obtain ⟨p, hpc, _, hprice, hle⟩ :=
    h.within (fun p hp => product?_of_mem h.productIds (List.filter_sublist.subset hp)) product hp
  have hnonneg := h.nonneg product.id
  rw [Db.stock, stockIn_of_mem h.productIds hmem] at hnonneg
  obtain ⟨hprice', _, hstock⟩ := hcol p hpc
  exact ⟨hprice ▸ hprice', hnonneg, Int.le_trans hle hstock⟩

/-- The policy decides for the call as it does over the integers. -/
theorem Tables.exactly_asked {db : Db} (h : Tables c db) (hcol : Columns c.products)
    (hrange : stockValue c.products ≤ maxSafeInteger) {items : List OrderItemInput}
    (hpos : ∀ item ∈ items, 1 ≤ item.quantity) (hlines : ∀ p, lineSum items p ≤ maxSafeInteger) :
    Doubles.Exactly (buildOrderPlan (db.asked items) items) (Doubles.buildOrderPlan (db.asked items) items) := by
  have hn := asked_nodup h.productIds items
  have hwithin : Within (db.asked items) c.products :=
    h.within fun p hp => product?_of_mem h.productIds (List.filter_sublist.subset hp)
  have hsafe : maxSafeInteger ≤ 2 ^ 53 := by decide
  refine Doubles.buildOrderPlan_exactly hn (h.columns_asked hcol items) hpos
    (fun _ product _ _ => Int.le_trans (hlines product.id) hsafe) fun plan hplan => ?_
  have hvalue := amount_le_stockValue hn c.productIds c.stockNonneg hwithin hplan
  exact Int.le_trans (Int.le_trans hvalue hrange) hsafe

/-- A call that is left alone comes to one end, and does what it means to. The
numbers are such as the code counts exactly. -/
theorem Reachable.call_alone (h : Reachable cfg c conf) (hq : conf.Quiet) (hservice : cfg.service = .repository)
    (ht : conf.threads t = .idle) (hroom : (conf.world.pool .api).length + 1 < cfg.poolSize .api)
    (hcol : Columns c.products) (hrange : stockValue c.products ≤ maxSafeInteger)
    (hlines : ∀ p, lineSum req.dto.items p ≤ maxSafeInteger) :
    (machine cfg).step conf (.spawn t (.request req)) = some (conf.called cfg t req) ∧
    Acc (fun c₂ c₁ => ∃ l : SysLabel, l.Alone t .proceed (.execute t) ∧ (machine cfg).step c₁ l = some c₂)
      (conf.called cfg t req) ∧
    (∃ conf', CalledAlone cfg t req conf conf') ∧
    Doubles.Exactly (buildOrderPlan (conf.world.db.asked req.dto.items) req.dto.items)
      (Doubles.buildOrderPlan (conf.world.db.asked req.dto.items) req.dto.items) ∧
    ∀ conf', CalledAlone cfg t req conf conf' → conf'.Quiet ∧ conf'.world.pool = conf.world.pool ∧
      (∀ o ∈ conf'.world.db.orders, conf'.world.db.total o.id ≤ maxSafeInteger) ∧
      ∃ res, conf'.threads t = .running (.done (res.map some)) ∧
        Means cfg t (conf.called cfg t req).world.toShared req res conf'.world.toShared := by
  obtain ⟨hacc, ⟨conf', hconf'⟩, _⟩ := h.called_ends hq hservice ht hroom req
  refine ⟨h.spawn_called ht req, hacc, ⟨conf', ht, hconf'⟩, ?_, fun conf' hcall => ?_⟩
  · exact h.saga.inv.tables.exactly_asked hcol hrange req.dto.positive hlines
  · obtain ⟨hreach, hquiet, hpool, hmeans⟩ := h.call_means hq hservice hroom hcall
    exact ⟨hquiet, hpool, fun o ho => Int.le_trans (hreach.saga.total_le ho) hrange, hmeans⟩

theorem calledAlone_of_run {ls : List SysLabel} (ht : conf.threads t = .idle)
    (hls : ∀ l ∈ ls, l.Alone t .proceed (.execute t)) (hrun : (machine cfg).run (conf.called cfg t req) ls = some conf')
    (hdone : (machine cfg).step conf' (.run t .proceed) = none)
    (hserved : (machine cfg).step conf' (.env (.execute t)) = none) : CalledAlone cfg t req conf conf' := by
  refine ⟨ht, .of_labels hls .refl hrun, fun l hl => ?_⟩
  rcases hl with rfl | rfl
  · exact hdone
  · exact hserved

/-- What a call does between its arrival and its answer, when it sells. -/
def soldLabels (t : Tid) : List SysLabel :=
  List.replicate 11 (.run t .proceed) ++ .env (.execute t) :: List.replicate 8 (.run t .proceed)

/-- A mug is ordered, and nothing else happens. -/
def aloneMug : SysConf :=
  let conf := (Catalogue.shop 3).initial.called (.ofPool 2 .repository) 0 (mugRequest 0 "k")
  ((machine (.ofPool 2 .repository)).run conf (soldLabels 0)).getD conf

theorem aloneMug_called :
    CalledAlone (.ofPool 2 .repository) 0 (mugRequest 0 "k") (Catalogue.shop 3).initial aloneMug := by
  have hrun : (machine (.ofPool 2 .repository)).run
      ((Catalogue.shop 3).initial.called (.ofPool 2 .repository) 0 (mugRequest 0 "k")) (soldLabels 0) =
      some aloneMug := rfl
  refine calledAlone_of_run rfl (fun l hl => ?_) hrun rfl rfl
  simp only [soldLabels, List.mem_append, List.mem_cons, List.mem_replicate] at hl
  rcases hl with ⟨_, rfl⟩ | rfl | ⟨_, rfl⟩
  · exact .inl rfl
  · exact .inr rfl
  · exact .inl rfl

theorem call_alone_mug :
    aloneMug.Quiet ∧ ∃ res, aloneMug.threads 0 = .running (.done (res.map some)) ∧
      Means (.ofPool 2 .repository) 0
        ((Catalogue.shop 3).initial.called (.ofPool 2 .repository) 0 (mugRequest 0 "k")).world.toShared
        (mugRequest 0 "k") res aloneMug.world.toShared := by
  have hquiet : (Catalogue.shop 3).initial.Quiet := fun t cmd k ht => by cases ht
  have hreach : Reachable (.ofPool 2 .repository) (.shop 3) (Catalogue.shop 3).initial := .refl
  have hlines : ∀ p, lineSum (mugRequest 0 "k").dto.items p ≤ maxSafeInteger := by
    intro p
    have hle : lineSum (mugRequest 0 "k").dto.items p ≤ 1 := by
      show lineSum [⟨0, 1⟩] p ≤ 1
      rw [lineSum_cons]
      split <;> simp [lineSum]
    exact Int.le_trans hle (by decide)
  obtain ⟨_, _, _, _, hend⟩ := hreach.call_alone hquiet rfl rfl (t := 0) (by decide) (by simp [Catalogue.shop, Columns])
    (by decide) hlines
  obtain ⟨hq, _, _, hmeans⟩ := hend aloneMug aloneMug_called
  exact ⟨hq, hmeans⟩

/-! ## A call after a call -/

/-- The order of an answered call is stored under its key. -/
theorem Means.stored {res : CreateOrderResult} {s' : Shared} (h : Means cfg t s req (.ok res) s') :
    req.idempotencyKey ≠ "" ∧ (s'.db.user? req.actor.id).isSome ∧
      s'.db.orderByKey? req.actor.id req.idempotencyKey = some res.order := by
  cases h with
  | reused hkey huser o ho => exact ⟨hkey, huser, ho⟩
  | sold hkey huser hfree hfill rows payment o mid _ hsold =>
    rw [hsold.db]
    refine ⟨hkey, huser, ?_⟩
    have hnone : s.db.orders.find? (fun o => o.userId = req.actor.id ∧ o.idempotencyKey = req.idempotencyKey) = none :=
      hfree
    have horder : o.userId = req.actor.id ∧ o.idempotencyKey = req.idempotencyKey := by
      rw [hsold.order]
      exact ⟨rfl, rfl⟩
    simp only [Db.orderByKey?, List.find?_append, hnone, Option.none_or, List.find?_singleton, horder, and_self,
      decide_true, if_true]

theorem Means.retry {t₁ : Tid} {s₁ s₂ : Shared} {req₁ : CreateOrderRequest} {res : CreateOrderResult}
    {r : Except Err CreateOrderResult} {s' : Shared} (h : Means cfg t s req (.ok res) s')
    (huser : req₁.actor.id = req.actor.id) (hkey : req₁.idempotencyKey = req.idempotencyKey) (hdb : s₁.db = s'.db)
    (h₁ : Means cfg t₁ s₁ req₁ r s₂) :
    r = .ok (reusedResult (res.order, s'.db.itemsOf res.order.id)) ∧ s₂ = s₁ := by
  obtain ⟨hnonempty, hsome, hstored⟩ := h.stored
  rw [← huser, ← hdb] at hsome
  rw [← huser, ← hkey, ← hdb] at hstored
  cases h₁ with
  | noKey hempty => exact (hnonempty (hkey ▸ hempty)).elim
  | noUser _ hnone =>
    rw [hnone] at hsome
    cases hsome
  | reused _ _ o ho =>
    obtain rfl := Option.some.inj (hstored.symm.trans ho)
    rw [hdb]
    exact ⟨rfl, rfl⟩
  | refused _ _ hfree =>
    rw [hstored] at hfree
    cases hfree
  | sold _ _ hfree | unsent _ _ hfree =>
    rw [hstored] at hfree
    cases hfree

theorem Reachable.answered_means (h : Reachable cfg c conf) (hq : conf.Quiet) (hservice : cfg.service = .repository)
    (hroom : (conf.world.pool .api).length + 1 < cfg.poolSize .api) (hcall : CalledAlone cfg t req conf conf')
    {res : CreateOrderResult} (hres : conf'.threads t = .running (.done (.ok (some res)))) :
    Means cfg t (conf.called cfg t req).world.toShared req (.ok res) conf'.world.toShared := by
  obtain ⟨_, _, _, r, hr, hmeans⟩ := h.call_means hq hservice hroom hcall
  rw [hres] at hr
  cases r with
  | ok res' =>
    cases hr
    exact hmeans
  | error e => cases hr

/-- A call that is made again answers with the order as it is, and changes
nothing. -/
theorem Reachable.retry_alone (h : Reachable cfg c conf) (hq : conf.Quiet) (hservice : cfg.service = .repository)
    (hroom : (conf.world.pool .api).length + 1 < cfg.poolSize .api)
    (hcall : CalledAlone cfg t req conf conf') {res : CreateOrderResult}
    (hres : conf'.threads t = .running (.done (.ok (some res)))) {t' : Tid} {req' : CreateOrderRequest}
    (huser : req'.actor.id = req.actor.id) (hkey : req'.idempotencyKey = req.idempotencyKey)
    {conf'' : SysConf} (hretry : CalledAlone cfg t' req' conf' conf'') :
    conf''.threads t' =
      .running (.done (.ok (some (reusedResult (res.order, conf'.world.db.itemsOf res.order.id))))) ∧
    conf''.world.toShared = (conf'.called cfg t' req').world.toShared := by
  have hmeans := h.answered_means hq hservice hroom hcall hres
  obtain ⟨hreach, hq', hpool, _⟩ := h.call_means hq hservice hroom hcall
  obtain ⟨_, _, _, r', hr', hmeans'⟩ := hreach.call_means hq' hservice (hpool ▸ hroom) hretry
  have hdb : (conf'.called cfg t' req').world.toShared.db = conf'.world.toShared.db := rfl
  obtain ⟨rfl, hshared⟩ := hmeans.retry huser hkey hdb hmeans'
  exact ⟨hr', hshared⟩

/-- The mug is ordered again. -/
def retriedMug : SysConf :=
  let conf := aloneMug.called (.ofPool 2 .repository) 1 (mugRequest 0 "k")
  ((machine (.ofPool 2 .repository)).run conf (List.replicate 6 (.run 1 .proceed))).getD conf

theorem retriedMug_called :
    CalledAlone (.ofPool 2 .repository) 1 (mugRequest 0 "k") aloneMug retriedMug := by
  have hrun : (machine (.ofPool 2 .repository)).run (aloneMug.called (.ofPool 2 .repository) 1 (mugRequest 0 "k"))
      (List.replicate 6 (.run 1 .proceed)) = some retriedMug := rfl
  exact calledAlone_of_run rfl (fun l hl => .inl (List.eq_of_mem_replicate hl)) hrun rfl rfl

theorem retry_alone_mug :
    ∃ res, aloneMug.threads 0 = .running (.done (.ok (some res))) ∧
      retriedMug.threads 1 =
        .running (.done (.ok (some (reusedResult (res.order, aloneMug.world.db.itemsOf res.order.id))))) := by
  have hquiet : (Catalogue.shop 3).initial.Quiet := fun t cmd k ht => by cases ht
  have hreach : Reachable (.ofPool 2 .repository) (.shop 3) (Catalogue.shop 3).initial := .refl
  have hres : aloneMug.threads 0 = .running (.done (.ok (some ⟨false,
    ⟨0, 0, "k", .pending, some 2, some .authorized, 0, none⟩, none, some ⟨2, .authorized⟩, some 3⟩))) := rfl
  refine ⟨_, hres, (hreach.retry_alone hquiet rfl (by decide) aloneMug_called hres rfl rfl retriedMug_called).1⟩

/-! ## A delivery after a sale -/

/-- What is published last can be taken, and leaves the queues as they were. -/
theorem take_published (b : Broker) (m : Message) :
    ∃ b', (b.publish .process m).take .process (b.queue .process).length = some (m, b') ∧ b'.queue = b.queue := by
  have hqueue : (b.publish .process m).queue = Function.update b.queue .process (b.queue .process ++ [m]) := rfl
  have hlast : ((b.publish .process m).queue .process)[(b.queue .process).length]? = some m := by
    rw [hqueue, Function.update_self]
    exact List.getElem?_concat_length
  refine ⟨⟨Function.update (b.publish .process m).queue .process
    (((b.publish .process m).queue .process).eraseIdx (b.queue .process).length), (b.publish .process m).channel⟩,
    by simp only [Broker.take, hlast], ?_⟩
  show Function.update (b.publish .process m).queue .process _ = b.queue
  rw [hqueue, Function.update_idem, Function.update_self, List.eraseIdx_append_of_length_le (Nat.le_refl _),
    Nat.sub_self, List.eraseIdx_cons_zero, List.append_nil, Function.update_eq_self]

theorem Means.sold_of_new {res : CreateOrderResult} {s' : Shared} (h : Means cfg t s req (.ok res) s')
    (hnew : res.reused = false) :
    ∃ rows payment mid, res.messageId = some mid ∧ Sold cfg s req rows payment res.order s' ∧
      s'.broker = s.broker.publish .process (processMessage mid res.order.id s.clock) := by
  cases h with
  | reused => cases hnew
  | sold _ _ _ _ rows payment o mid _ hsold _ hsent => exact ⟨rows, payment, mid, rfl, hsold, hsent⟩

/-- A sale and the delivery of its message, each left alone. -/
theorem Reachable.order_alone (h : Reachable cfg c conf) (hq : conf.Quiet) (hservice : cfg.service = .repository)
    (hroom : (conf.world.pool .api).length + 1 < cfg.poolSize .api)
    (hworker : (conf.world.pool .worker).length < cfg.poolSize .worker)
    (hrange : stockValue c.products ≤ maxSafeInteger) (hcall : CalledAlone cfg t req conf conf')
    {res : CreateOrderResult} (hres : conf'.threads t = .running (.done (.ok (some res)))) (hnew : res.reused = false) :
    ∃ mid rows m b, res.messageId = some mid ∧ m.isCopy mid res.order.id ∧
      List.Forall₂ (IsLine (productsById conf.world.db.products) res.order.id) req.dto.items rows ∧
      conf'.world.db.total res.order.id ≤ maxSafeInteger ∧
      conf'.world.broker.take .process (conf.world.broker.queue .process).length = some (m, b) ∧
      ∀ t' conf'', conf'.threads t' = .idle →
        (machine cfg).RunsOut t' .proceed (.execute t') (conf'.delivered cfg t' m b) conf'' →
        conf''.world.broker.queue = conf.world.broker.queue ∧
        conf''.world.db = { conf.world.db with
          products := conf.world.db.products.map fun p => p.setStock (p.stock - lineSum req.dto.items p.id)
          orders := conf.world.db.orders ++ [res.order.process conf'.world.clock]
          orderItems := conf.world.db.orderItems ++ rows
          processedMessages := conf.world.db.processedMessages ++ [⟨mid, res.order.id, "orders-worker"⟩] } := by
  obtain ⟨hreach, hq', hpool, _⟩ := h.call_means hq hservice hroom hcall
  obtain ⟨rows, payment, mid, hmid, hsold, hsent⟩ :=
    (h.answered_means hq hservice hroom hcall hres).sold_of_new hnew
  obtain ⟨b, htake, hqueue⟩ := take_published conf.world.broker (processMessage mid res.order.id conf.world.clock)
  have htake' : conf'.world.broker.take .process (conf.world.broker.queue .process).length =
      some (processMessage mid res.order.id conf.world.clock, b) := by
    rw [← htake]
    exact congrArg _ hsent
  have htotal : conf'.world.db.total res.order.id ≤ maxSafeInteger := by
    refine Int.le_trans (hreach.saga.total_le ?_) hrange
    rw [hsold.db]
    exact List.mem_append_right _ (List.mem_singleton_self _)
  refine ⟨mid, rows, _, b, hmid, ⟨_, rfl, rfl, rfl⟩, hsold.lines, htotal, htake', fun t' conf'' ht' hrun => ?_⟩
  obtain ⟨_, _, mid', oid, o, ⟨payload, hcontent, hmid', hoid⟩, ho, hend⟩ :=
    hreach.delivery_ends hq' ht' (hpool ▸ hworker) htake'
  obtain ⟨_, _, _, _, _, hw⟩ := hend conf'' hrun
  cases hcontent
  cases hmid'
  cases hoid
  have hdb : conf'.world.db = { conf.world.db with
      products := conf.world.db.products.map fun p => p.setStock (p.stock - lineSum req.dto.items p.id)
      orders := conf.world.db.orders ++ [res.order]
      orderItems := conf.world.db.orderItems ++ rows } := hsold.db
  have hfresh : conf.world.db.order? res.order.id = none := hsold.fresh
  -- the order is the one that has just been stored, and not processed
  have hfound : conf'.world.db.order? res.order.id = some res.order := by
    rw [hdb]
    have hnone : conf.world.db.orders.find? (fun o => o.id = res.order.id) = none := hfresh
    simp only [Db.order?, List.find?_append, hnone, Option.none_or, List.find?_singleton, decide_true, if_true]
  obtain rfl := Option.some.inj (hfound.symm.trans ho)
  have hpending : res.order.status ≠ .processed := by
    rw [hsold.order]
    exact OrderStatus.noConfusion
  rw [hw.shared, deliveryLog, if_neg hpending, commit_eq]
  refine ⟨hqueue, ?_⟩
  show Db.updateOrder { conf'.world.db with
    processedMessages := conf'.world.db.processedMessages ++ [⟨mid, res.order.id, "orders-worker"⟩] } _ _ = _
  rw [hdb]
  simp only [Db.updateOrder]
  rw [map_update_snoc rfl hfresh]

theorem order_alone_mug :
    ∃ res m b, aloneMug.threads 0 = .running (.done (.ok (some res))) ∧
      aloneMug.world.broker.take .process 0 = some (m, b) ∧
      ∀ conf', (machine (.ofPool 2 .repository)).RunsOut 1 .proceed (.execute 1)
          (aloneMug.delivered (.ofPool 2 .repository) 1 m b) conf' →
        conf'.world.db.orders = [res.order.process 0] ∧ conf'.world.db.products = [⟨0, "Mug", 500, 2, none⟩] := by
  have hquiet : (Catalogue.shop 3).initial.Quiet := fun t cmd k ht => by cases ht
  have hreach : Reachable (.ofPool 2 .repository) (.shop 3) (Catalogue.shop 3).initial := .refl
  have hres : aloneMug.threads 0 = .running (.done (.ok (some ⟨false,
    ⟨0, 0, "k", .pending, some 2, some .authorized, 0, none⟩, none, some ⟨2, .authorized⟩, some 3⟩))) := rfl
  obtain ⟨mid, rows, m, b, _, _, _, _, htake, hend⟩ := hreach.order_alone hquiet rfl (by decide) (by decide)
    (by decide) aloneMug_called hres rfl
  refine ⟨_, m, b, hres, htake, fun conf' hrun => ?_⟩
  obtain ⟨_, hdb⟩ := hend 1 conf' rfl hrun
  rw [hdb]
  exact ⟨rfl, rfl⟩

end OrdersBackend
