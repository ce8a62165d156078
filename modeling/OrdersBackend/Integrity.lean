import OrdersBackend.SystemSound

/-!
# Integrity of the tables

The foreign keys of the entities hold in every state the system reaches, and
so do the rules that no constraint of the schema states: an order has lines,
and a line has the price of the catalogue.
-/

namespace OrdersBackend

open Conc

variable {cfg : Config} {c : Catalogue} {a : Option Tid} {s s' : Shared} {conf : SysConf}

/-- The columns of an order that no statement updates. -/
def Order.identity (o : Order) : Uuid × Uuid × String × Nat := (o.id, o.userId, o.idempotencyKey, o.createdAt)

theorem exists_identity {os os' : List Order} (h : os'.map Order.identity = os.map Order.identity) {o : Order}
    (ho : o ∈ os) : ∃ o' ∈ os', o'.identity = o.identity := by
  have hm : o.identity ∈ os'.map Order.identity := h ▸ List.mem_map_of_mem ho
  simpa using hm

theorem identity_of_processLog (db : Db) (mid oid : Uuid) (order : Order) (processedAt : Nat) :
    (db.applyAll (processLog mid oid order processedAt)).orders.map Order.identity =
      db.orders.map Order.identity := by
  rw [applyAll_processLog]
  by_cases hs : order.status = .processed
  · simp [hs]
  · simp only [hs, if_false]
    exact Tables.map_updateOrder Order.identity (.process processedAt) (fun _ => rfl) _ oid

/-- The rows of orders and items after a step: the old ones, or those of one
reservation more. -/
theorem SagaInv.rows_step (hI : SagaInv c s) (h : Step cfg a s s') :
    s'.db.orders.map Order.identity = s.db.orders.map Order.identity ∧ s'.db.orderItems = s.db.orderItems ∨
      ∃ t req products plan order items, Reserves s t req products plan order items ∧
        s'.db.orders = s.db.orders ++ [order] ∧ s'.db.orderItems = s.db.orderItems ++ items := by
  cases h with
  | @reserve t _ req products plan order items hr =>
    right
    obtain ⟨ps, he, _⟩ := applyAll_reserveLog ⟨hr.current, hr.distinct, hr.accepted⟩ order items
    refine ⟨t, req, products, plan, order, items, hr, ?_, ?_⟩ <;> rw [commit_eq, he]
  | @release t _ id hp =>
    left
    obtain ⟨ps, he, _⟩ := applyAll_releaseLog id hI.tables.itemProducts
    rw [commit_eq, he]
    exact ⟨Tables.map_updateOrder Order.identity .fail (fun _ => rfl) s.db id, rfl⟩
  | @pay t _ id res hp hr =>
    exact .inl ⟨Tables.map_updateOrder Order.identity (.pay res.paymentId res.status) (fun _ => rfl) s.db id, rfl⟩
  | @process t _ payload mid oid order processedAt hr =>
    left
    rw [commit_eq]
    refine ⟨identity_of_processLog s.db mid oid order processedAt, ?_⟩
    simp only [applyAll_processLog]
    split <;> rfl
  | _ => exact .inl ⟨rfl, rfl⟩

/-! ## The rules -/

/-- What holds between the tables; the last two rules are the service's own. -/
structure Db.Sound (c : Catalogue) (db : Db) : Prop where
  orderIds : (db.orders.map (·.id)).Nodup
  orderKeys : (db.orders.map fun o => (o.userId, o.idempotencyKey)).Nodup
  messageIds : (db.processedMessages.map (·.messageId)).Nodup
  orderUsers : ∀ o ∈ db.orders, ∃ u ∈ db.users, u.id = o.userId
  itemOrders : ∀ i ∈ db.orderItems, ∃ o ∈ db.orders, o.id = i.orderId
  itemProducts : ∀ i ∈ db.orderItems, ∃ p ∈ db.products, p.id = i.productId
  messageOrders : ∀ m ∈ db.processedMessages, ∃ o ∈ db.orders, o.id = m.orderId
  ordered : ∀ o ∈ db.orders, ∃ i ∈ db.orderItems, i.orderId = o.id
  priced : ∀ i ∈ db.orderItems, 1 ≤ i.quantity ∧ ∃ p ∈ c.products, p.id = i.productId ∧ p.price = i.priceAtPurchase

/-- The part of the rules that reservations establish. -/
structure Db.Reserved (c : Catalogue) (db : Db) : Prop where
  users : ∀ o ∈ db.orders, ∃ u ∈ c.users, u.id = o.userId
  ordered : ∀ o ∈ db.orders, ∃ i ∈ db.orderItems, i.orderId = o.id
  priced : ∀ i ∈ db.orderItems, ∃ p ∈ c.products, p.id = i.productId ∧ p.price = i.priceAtPurchase

theorem exists_of_shape {ps ps' : List Product} (h : shape ps = shape ps') {p : Product} (hp : p ∈ ps) :
    ∃ p' ∈ ps', p'.setStock 0 = p.setStock 0 := by
  have hm : p.setStock 0 ∈ shape ps' := h ▸ List.mem_map_of_mem hp
  obtain ⟨p', hp', he⟩ := List.mem_map.mp hm
  exact ⟨p', hp', he⟩

theorem Reserves.item_priced {t : Tid} {req : CreateOrderRequest} {products : List Product} {plan : OrderPlan}
    {order : Order} {items : List OrderItem} (hr : Reserves s t req products plan order items)
    (hT : Tables c s.db) {i : OrderItem} (hi : i ∈ items) :
    ∃ p ∈ c.products, p.id = i.productId ∧ p.price = i.priceAtPurchase := by
  obtain ⟨input, _, hl⟩ := line_of_item hr.lines hi
  obtain ⟨product, hg, hprice⟩ := Option.map_eq_some_iff.mp hl.price
  obtain ⟨hmem, hid⟩ := (get?_productsById hr.distinct _ _).mp hg
  have hcurrent : product ∈ s.db.products := Db.product?_mem (hr.current product hmem)
  obtain ⟨p, hp, he⟩ := exists_of_shape hT.products hcurrent
  have hpid : p.id = product.id := by simpa [Product.setStock] using congrArg Product.id he
  have hpprice : p.price = product.price := by simpa [Product.setStock] using congrArg Product.price he
  exact ⟨p, hp, by rw [hpid, hid, hl.product], by rw [hpprice, hprice]⟩

theorem Reserves.items_ne_nil {t : Tid} {req : CreateOrderRequest} {products : List Product} {plan : OrderPlan}
    {order : Order} {items : List OrderItem} (hr : Reserves s t req products plan order items) :
    ∃ i ∈ items, i.orderId = order.id := by
  obtain ⟨input, rest, hinputs⟩ := List.exists_cons_of_ne_nil req.dto.nonempty
  have hlines := hr.lines
  rw [hinputs] at hlines
  cases hlines with
  | cons hl _ => exact ⟨_, List.mem_cons_self .., hl.order⟩

theorem SagaInv.reserved_step (hI : SagaInv c s) (hR : s.db.Reserved c) (h : Step cfg a s s') : s'.db.Reserved c := by
  rcases hI.rows_step h with ⟨horders, hitems⟩ | ⟨t, req, products, plan, order, items, hr, horders, hitems⟩
  · have hold : ∀ o ∈ s'.db.orders, ∃ o' ∈ s.db.orders, o'.id = o.id ∧ o'.userId = o.userId := by
      intro o ho
      obtain ⟨o', ho', he⟩ := exists_identity horders.symm ho
      exact ⟨o', ho', congrArg Prod.fst he, congrArg (fun x => x.2.1) he⟩
    refine ⟨fun o ho => ?_, fun o ho => ?_, by rw [hitems]; exact hR.priced⟩
    · obtain ⟨o', ho', _, hu⟩ := hold o ho
      rw [← hu]
      exact hR.users o' ho'
    · obtain ⟨o', ho', hid, _⟩ := hold o ho
      rw [hitems, ← hid]
      exact hR.ordered o' ho'
  · refine ⟨fun o ho => ?_, fun o ho => ?_, fun i hi => ?_⟩
    · rw [horders, List.mem_append, List.mem_singleton] at ho
      rcases ho with ho | rfl
      · exact hR.users o ho
      · obtain ⟨createdAt, hnew⟩ := hr.new
        obtain ⟨u, hu⟩ := Option.isSome_iff_exists.mp hr.user
        refine ⟨u, hI.tables.users ▸ List.mem_of_find?_eq_some hu, ?_⟩
        rw [hnew]
        simpa [newOrder] using List.find?_some hu
    · rw [horders, List.mem_append, List.mem_singleton] at ho
      rw [hitems]
      rcases ho with ho | rfl
      · obtain ⟨i, hi, hid⟩ := hR.ordered o ho
        exact ⟨i, List.mem_append_left _ hi, hid⟩
      · obtain ⟨i, hi, hid⟩ := hr.items_ne_nil
        exact ⟨i, List.mem_append_right _ hi, hid⟩
    · rw [hitems] at hi
      rcases List.mem_append.mp hi with hi | hi
      · exact hR.priced i hi
      · exact hr.item_priced hI.tables hi

theorem Saga.reserved (h : Saga cfg c s) : s.db.Reserved c := by
  refine (Runs.invariant (I := fun s => SagaInv c s ∧ s.db.Reserved c) ?_ h ⟨.initial c, ?_⟩).2
  · rintro a s s' _ ⟨hI, hR⟩ hstep
    exact ⟨hI.step hstep, hI.reserved_step hR hstep⟩
  · constructor <;> simp [Catalogue.shared]

theorem Saga.sound (h : Saga cfg c s) : s.db.Sound c where
  orderIds := h.inv.tables.orderIds
  orderKeys := h.inv.tables.orderKeys
  messageIds := h.inv.tables.messages
  orderUsers := h.inv.tables.users ▸ h.reserved.users
  itemOrders := h.inv.tables.itemOrders
  itemProducts i hi := by
    obtain ⟨p, hp⟩ := Option.isSome_iff_exists.mp (h.inv.tables.itemProducts i hi)
    exact ⟨p, Db.product?_mem hp, Db.product?_id hp⟩
  messageOrders m hm := by
    obtain ⟨_, o, ho, _⟩ := h.inv.messages.dedup m hm
    exact ⟨o, Db.order?_mem ho, Db.order?_id ho⟩
  ordered := h.reserved.ordered
  priced i hi := ⟨h.inv.tables.quantities i hi, h.reserved.priced i hi⟩

/-- Whatever has happened, the tables fit together. -/
theorem tables_sound (h : Reachable cfg c conf) : conf.world.db.Sound c := h.saga.sound

theorem tables_sound_mug :
    ((Catalogue.shop 3).after (.ofPool 2 .repository) (saleSteps 0 (mugRequest 0 "k"))).world.db.Sound (.shop 3) :=
  tables_sound (Catalogue.reachable_after (.ofPool 2 .repository) (.shop 3) (saleSteps 0 (mugRequest 0 "k")))

end OrdersBackend
