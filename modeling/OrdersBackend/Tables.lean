import OrdersBackend.Saga

/-!
# The tables

What the transactions of the saga do to the tables, and what always holds of
them: identities are unique, every item has its order, and what the stock of a
product has lost is what its items of live orders hold.
-/

namespace OrdersBackend

open Conc

def quantityOf (items : List OrderItem) (p : Uuid) : Int :=
  ((items.filter fun item => item.productId = p).map (·.quantity)).sum

def stockIn (products : List Product) (p : Uuid) : Int :=
  ((products.find? fun x => x.id = p).map (·.stock)).getD 0

namespace Db

variable (db : Db)

def stock (p : Uuid) : Int := stockIn db.products p

def live (orderId : Uuid) : Bool := (db.order? orderId).any fun o => o.status ≠ .failed

/-- What the items of live orders hold of a product. -/
def reserved (p : Uuid) : Int :=
  quantityOf (db.orderItems.filter fun item => db.live item.orderId) p

end Db

/-! ## Sums over items -/

theorem quantityOf_cons (item : OrderItem) (items : List OrderItem) (p : Uuid) :
    quantityOf (item :: items) p = (if item.productId = p then item.quantity else 0) + quantityOf items p := by
  unfold quantityOf
  by_cases h : item.productId = p <;> simp [h]

theorem quantityOf_append (items items' : List OrderItem) (p : Uuid) :
    quantityOf (items ++ items') p = quantityOf items p + quantityOf items' p := by
  simp [quantityOf]

theorem quantityOf_nonneg {items : List OrderItem} (h : ∀ item ∈ items, 1 ≤ item.quantity) (p : Uuid) :
    0 ≤ quantityOf items p := by
  induction items with
  | nil => exact Int.le_refl 0
  | cons item items ih =>
    have h₁ := h item (List.mem_cons_self ..)
    have h₂ := ih fun i hi => h i (List.mem_cons_of_mem _ hi)
    rw [quantityOf_cons]
    split <;> omega

theorem quantityOf_filter_split (items : List OrderItem) (f g : OrderItem → Bool) (p : Uuid) :
    quantityOf (items.filter f) p =
      quantityOf (items.filter fun i => f i && g i) p + quantityOf (items.filter fun i => f i && !g i) p := by
  induction items with
  | nil => rfl
  | cons item items ih =>
    cases hf : f item <;> cases hg : g item <;>
      simp only [List.filter_cons, hf, hg, Bool.and_true, Bool.and_false, Bool.not_true,
        Bool.not_false, if_true, Bool.false_eq_true, if_false, quantityOf_cons, ih] <;> omega

theorem quantityOf_lines {byId : JsMap Uuid Product} {orderId : Uuid} {inputs : List OrderItemInput}
    {items : List OrderItem} (h : List.Forall₂ (IsLine byId orderId) inputs items) (p : Uuid) :
    quantityOf items p = lineSum inputs p := by
  induction h with
  | nil => rfl
  | cons hl _ ih => rw [quantityOf_cons, lineSum_cons, hl.product, hl.quantity, ih]

theorem line_of_item {byId : JsMap Uuid Product} {orderId : Uuid} {inputs : List OrderItemInput}
    {items : List OrderItem} (h : List.Forall₂ (IsLine byId orderId) inputs items) {item : OrderItem}
    (hi : item ∈ items) : ∃ input ∈ inputs, IsLine byId orderId input item := by
  induction h with
  | nil => cases hi
  | cons hl _ ih =>
    rcases List.mem_cons.mp hi with rfl | hi
    · exact ⟨_, List.mem_cons_self .., hl⟩
    · obtain ⟨input, hin, hl'⟩ := ih hi
      exact ⟨input, List.mem_cons_of_mem _ hin, hl'⟩

/-! ## Stock writes -/

/-- The catalogue columns of the products. -/
def shape (products : List Product) : List Product := products.map (Product.setStock 0)

theorem shape_updateProduct (db : Db) (id : Uuid) (f : Product → Product)
    (hf : ∀ p, (f p).setStock 0 = p.setStock 0) : shape (db.updateProduct id f).products = shape db.products := by
  simp only [shape, Db.updateProduct, List.map_map]
  apply List.map_congr_left
  intro p _
  by_cases h : p.id = id <;> simp [h, hf]

theorem ids_of_shape {ps ps' : List Product} (h : shape ps = shape ps') :
    ps.map (·.id) = ps'.map (·.id) := by
  have := congrArg (List.map (·.id)) h
  simpa [shape, Product.setStock, Function.comp_def] using this

def Write.onStock : Write → Bool
  | .stock _ _ | .addStock _ _ => true
  | _ => false

theorem apply_onStock {wr : Write} (h : wr.onStock = true) (db : Db) :
    ∃ ps, wr.apply db = { db with products := ps } ∧ shape ps = shape db.products := by
  cases wr with
  | stock p n => exact ⟨_, rfl, shape_updateProduct db p (.setStock n) fun _ => rfl⟩
  | addStock p q => exact ⟨_, rfl, shape_updateProduct db p (.addStock q) fun _ => rfl⟩
  | _ => cases h

theorem applyAll_onStock {ws : List Write} (h : ∀ wr ∈ ws, wr.onStock = true) (db : Db) :
    ∃ ps, db.applyAll ws = { db with products := ps } ∧ shape ps = shape db.products := by
  induction ws generalizing db with
  | nil => exact ⟨db.products, rfl, rfl⟩
  | cons wr ws ih =>
    obtain ⟨ps₁, h₁, hs₁⟩ := apply_onStock (h wr (List.mem_cons_self ..)) db
    obtain ⟨ps₂, h₂, hs₂⟩ := ih (fun wr' h' => h wr' (List.mem_cons_of_mem _ h')) (wr.apply db)
    refine ⟨ps₂, ?_, ?_⟩
    · have : db.applyAll (wr :: ws) = (wr.apply db).applyAll ws := rfl
      rw [this, h₂, h₁]
    · rw [hs₂, h₁, hs₁]

theorem applyAll_append (db : Db) (ws ws' : List Write) :
    db.applyAll (ws ++ ws') = (db.applyAll ws).applyAll ws' := by
  simp [Db.applyAll]

theorem applyAll_insertItems (items : List OrderItem) (db : Db) :
    db.applyAll (items.map .insertItem) = { db with orderItems := db.orderItems ++ items } := by
  induction items generalizing db with
  | nil => simp [Db.applyAll]
  | cons item items ih =>
    have := ih { db with orderItems := db.orderItems ++ [item] }
    simpa [Db.applyAll, Write.apply] using this

theorem stockIn_updateProduct (db : Db) (id : Uuid) (f : Product → Product) (hf : ∀ p, (f p).id = p.id)
    (p : Uuid) :
    stockIn (db.updateProduct id f).products p =
      if p = id then ((db.product? p).map fun x => (f x).stock).getD 0 else db.stock p := by
  have h := Db.product?_updateProduct db f hf id p
  unfold Db.product? at h
  unfold stockIn Db.stock stockIn Db.product?
  rw [h]
  cases hx : db.products.find? fun x => x.id = p with
  | none => by_cases hp : p = id <;> simp [hp]
  | some x =>
    have hid : x.id = p := by simpa using List.find?_some hx
    by_cases hp : p = id <;> simp [hid, hp]

theorem isSome_product?_applyAll {ws : List Write} (h : ∀ wr ∈ ws, wr.onStock = true) (db : Db) (p : Uuid) :
    ((db.applyAll ws).product? p).isSome = (db.product? p).isSome := by
  obtain ⟨ps, he, hs⟩ := applyAll_onStock h db
  rw [he]
  have hids := ids_of_shape hs
  unfold Db.product?
  rw [Bool.eq_iff_iff, List.find?_isSome, List.find?_isSome]
  constructor
  · rintro ⟨x, hx, hp⟩
    have : x.id ∈ db.products.map (·.id) := hids ▸ List.mem_map_of_mem hx
    obtain ⟨y, hy, hyx⟩ := List.mem_map.mp this
    exact ⟨y, hy, by simpa [hyx] using hp⟩
  · rintro ⟨x, hx, hp⟩
    have : x.id ∈ ps.map (·.id) := hids ▸ List.mem_map_of_mem hx
    obtain ⟨y, hy, hyx⟩ := List.mem_map.mp this
    exact ⟨y, hy, by simpa [hyx] using hp⟩

theorem stock_addStocks (items : List OrderItem) (db : Db)
    (h : ∀ item ∈ items, (db.product? item.productId).isSome) (p : Uuid) :
    (db.applyAll (items.map fun i => .addStock i.productId i.quantity)).stock p =
      db.stock p + quantityOf items p := by
  induction items generalizing db with
  | nil => simp [Db.applyAll, quantityOf]
  | cons item items ih =>
    have hw : ∀ wr ∈ [Write.addStock item.productId item.quantity], wr.onStock = true := by
      simp [Write.onStock]
    have hs := isSome_product?_applyAll hw db
    have hstep := ih (Write.apply db (.addStock item.productId item.quantity)) fun i hi => by
      rw [← h i (List.mem_cons_of_mem _ hi)]; exact hs _
    have hfst : (Write.apply db (.addStock item.productId item.quantity)).stock p =
        db.stock p + if item.productId = p then item.quantity else 0 := by
      unfold Db.stock
      rw [Write.apply, stockIn_updateProduct db item.productId (.addStock item.quantity) fun _ => rfl]
      by_cases hp : p = item.productId
      · obtain ⟨x, hx⟩ := Option.isSome_iff_exists.mp (h item (List.mem_cons_self ..))
        have hx' : db.products.find? (fun x => x.id = item.productId) = some x := hx
        simp [hp, hx, hx', stockIn, Product.addStock]
      · rw [if_neg hp, if_neg (Ne.symm hp), Int.add_zero]; rfl
    have hcons : db.applyAll ((item :: items).map fun i => .addStock i.productId i.quantity) =
        (Write.apply db (.addStock item.productId item.quantity)).applyAll
          (items.map fun i => .addStock i.productId i.quantity) := rfl
    rw [hcons, hstep, hfst, quantityOf_cons, Int.add_assoc]

def taken (entries : List (Uuid × Int)) (p : Uuid) : Int :=
  ((entries.find? fun e => e.1 = p).map Prod.snd).getD 0

theorem stock_stockWrites (byId : JsMap Uuid Product) (entries : List (Uuid × Int)) (db : Db)
    (hn : (entries.map Prod.fst).Nodup)
    (h : ∀ e ∈ entries, ∃ x, byId.get? e.1 = some x ∧ x.id = e.1 ∧ db.product? e.1 = some x) (p : Uuid) :
    (db.applyAll (entries.filterMap (stockWrite byId))).stock p = db.stock p - taken entries p := by
  induction entries generalizing db with
  | nil => simp [Db.applyAll, taken]
  | cons e entries ih =>
    rw [List.map_cons, List.nodup_cons] at hn
    obtain ⟨x, hx, hid, hdb⟩ := h e (List.mem_cons_self ..)
    have hw : stockWrite byId e = some (.stock e.1 (x.stock - e.2)) := by simp [stockWrite, hx, hid]
    have hstep := ih (Write.apply db (.stock e.1 (x.stock - e.2))) hn.2 fun e' he' => by
      obtain ⟨y, hy, hyid, hydb⟩ := h e' (List.mem_cons_of_mem _ he')
      have hne : e'.1 ≠ e.1 := fun heq => hn.1 (heq ▸ List.mem_map_of_mem he')
      refine ⟨y, hy, hyid, ?_⟩
      rw [Write.apply, Db.product?_updateProduct db (.setStock (x.stock - e.2)) fun _ => rfl, hydb]
      simp [hyid, hne]
    have hfst : (Write.apply db (.stock e.1 (x.stock - e.2))).stock p =
        db.stock p - if e.1 = p then e.2 else 0 := by
      unfold Db.stock
      rw [Write.apply, stockIn_updateProduct db e.1 (.setStock (x.stock - e.2)) fun _ => rfl]
      by_cases hp : p = e.1
      · have hx' : db.products.find? (fun x => x.id = e.1) = some x := hdb
        simp [hp, hdb, hx', stockIn, Product.setStock]
      · rw [if_neg hp, if_neg (Ne.symm hp), Int.sub_zero]; rfl
    have hcons : db.applyAll ((e :: entries).filterMap (stockWrite byId)) =
        (Write.apply db (.stock e.1 (x.stock - e.2))).applyAll (entries.filterMap (stockWrite byId)) := by
      rw [List.filterMap_cons, hw]; rfl
    rw [hcons, hstep, hfst]
    have ht : taken (e :: entries) p = (if e.1 = p then e.2 else 0) + taken entries p := by
      unfold taken
      by_cases hp : e.1 = p
      · have : entries.find? (fun e' => e'.1 = p) = none := by
          rw [List.find?_eq_none]
          intro e' he' heq
          simp only [decide_eq_true_eq] at heq
          exact hn.1 (hp.trans heq.symm ▸ List.mem_map_of_mem he')
        simp [hp, this]
      · simp [hp]
    rw [ht]; omega

theorem taken_aggregate (items : List OrderItemInput) (p : Uuid) :
    taken (aggregateItemQuantities items).entries p = lineSum items p := by
  have h := get?_aggregate items p
  unfold JsMap.get? at h
  unfold taken
  rw [h]
  by_cases hp : p ∈ items.map (·.productId)
  · rw [if_pos hp]; rfl
  · rw [if_neg hp, lineSum_of_not_mem hp]; rfl

/-! ## Transactions -/

/-- The plan of a request, against products that are current. -/
structure Planned (db : Db) (inputs : List OrderItemInput) (products : List Product) (plan : OrderPlan) :
    Prop where
  current : ∀ p ∈ products, db.product? p.id = some p
  distinct : (products.map (·.id)).Nodup
  accepted : buildOrderPlan products inputs = .ok plan

theorem Planned.found {db : Db} {inputs : List OrderItemInput} {products : List Product} {plan : OrderPlan}
    (h : Planned db inputs products plan) {item : OrderItemInput} (hi : item ∈ inputs) :
    ∃ x ∈ products, x.id = item.productId ∧ lineSum inputs item.productId ≤ x.stock :=
  (buildOrderPlan_ok h.distinct h.accepted).2.2 item hi

theorem Planned.entries {db : Db} {inputs : List OrderItemInput} {products : List Product} {plan : OrderPlan}
    (h : Planned db inputs products plan) :
    ∀ e ∈ plan.quantityByProductId.entries, ∃ x, (productsById products).get? e.1 = some x ∧ x.id = e.1 ∧
      db.product? e.1 = some x := by
  intro e he
  rw [(buildOrderPlan_ok h.distinct h.accepted).1] at he
  obtain ⟨hp, _⟩ := mem_aggregate.mp he
  obtain ⟨item, hi, hie⟩ := List.mem_map.mp hp
  obtain ⟨x, hx, hid, _⟩ := h.found hi
  have hid' : x.id = e.1 := hid.trans hie
  exact ⟨x, (get?_productsById h.distinct _ _).mpr ⟨hx, hid'⟩, hid', hid' ▸ h.current x hx⟩

theorem onStock_stockWrites (byId : JsMap Uuid Product) (entries : List (Uuid × Int)) :
    ∀ wr ∈ entries.filterMap (stockWrite byId), wr.onStock = true := by
  intro wr hw
  obtain ⟨e, _, he⟩ := List.mem_filterMap.mp hw
  obtain ⟨product, _, rfl⟩ := Option.map_eq_some_iff.mp he
  rfl

theorem applyAll_reserveLog {db : Db} {inputs : List OrderItemInput} {products : List Product}
    {plan : OrderPlan} (h : Planned db inputs products plan) (order : Order) (items : List OrderItem) :
    ∃ ps, db.applyAll (reserveLog products plan order items) =
        { db with products := ps, orders := db.orders ++ [order], orderItems := db.orderItems ++ items } ∧
      shape ps = shape db.products ∧ ∀ p, stockIn ps p = db.stock p - lineSum inputs p := by
  have hplan := (buildOrderPlan_ok h.distinct h.accepted).1
  have hstock := stock_stockWrites (productsById products) plan.quantityByProductId.entries db
    plan.quantityByProductId.nodup h.entries
  obtain ⟨ps, he, hs⟩ := applyAll_onStock
    (onStock_stockWrites (productsById products) plan.quantityByProductId.entries) db
  refine ⟨ps, ?_, hs, fun p => ?_⟩
  · rw [reserveLog, applyAll_append, he]
    exact applyAll_insertItems items _
  · have := hstock p
    rw [he, hplan, taken_aggregate] at this
    exact this

theorem applyAll_releaseLog {db : Db} (id : Uuid)
    (h : ∀ item ∈ db.orderItems, (db.product? item.productId).isSome) :
    ∃ ps, db.applyAll (releaseLog db id) =
        { db with products := ps, orders := (db.updateOrder id .fail).orders } ∧
      shape ps = shape db.products ∧ ∀ p, stockIn ps p = db.stock p + quantityOf (db.itemsOf id) p := by
  have hw : ∀ wr ∈ (db.itemsOf id).map fun i => Write.addStock i.productId i.quantity, wr.onStock = true := by
    intro wr hw
    obtain ⟨i, _, rfl⟩ := List.mem_map.mp hw
    rfl
  have hstock := stock_addStocks (db.itemsOf id) (db.updateOrder id .fail) fun i hi =>
    h i (List.mem_filter.mp hi).1
  obtain ⟨ps, he, hs⟩ := applyAll_onStock hw (db.updateOrder id .fail)
  refine ⟨ps, he, hs, fun p => ?_⟩
  have := hstock p
  rw [he] at this
  exact this

/-! ## What is reserved -/

theorem order?_append {db : Db} {order : Order} {id : Uuid} (h : (db.order? id).isSome) :
    ({ db with orders := db.orders ++ [order] } : Db).order? id = db.order? id := by
  unfold Db.order? at h ⊢
  obtain ⟨o, ho⟩ := Option.isSome_iff_exists.mp h
  rw [List.find?_append, ho]; rfl

theorem isSome_order?_iff {db : Db} {id : Uuid} : (db.order? id).isSome ↔ ∃ o ∈ db.orders, o.id = id := by
  simp [Db.order?, List.find?_isSome]

theorem order?_new {db : Db} {order : Order} (h : db.order? order.id = none) :
    ({ db with orders := db.orders ++ [order] } : Db).order? order.id = some order := by
  unfold Db.order? at h ⊢
  rw [List.find?_append, h]
  simp

theorem reserved_insert {db : Db} {order : Order} {items : List OrderItem}
    (hdb : ∀ i ∈ db.orderItems, ∃ o ∈ db.orders, o.id = i.orderId) (hnew : db.order? order.id = none)
    (hpending : order.status = .pending) (hitems : ∀ i ∈ items, i.orderId = order.id) (ps : List Product)
    (p : Uuid) :
    ({ db with products := ps, orders := db.orders ++ [order], orderItems := db.orderItems ++ items } :
      Db).reserved p = db.reserved p + quantityOf items p := by
  have hlive : ∀ i ∈ db.orderItems,
      ({ db with products := ps, orders := db.orders ++ [order], orderItems := db.orderItems ++ items } :
        Db).live i.orderId = db.live i.orderId := by
    intro i hi
    exact congrArg (fun x : Option Order => x.any fun o => o.status ≠ .failed)
      (order?_append (isSome_order?_iff.mpr (hdb i hi)))
  have hlive' : ∀ i ∈ items,
      ({ db with products := ps, orders := db.orders ++ [order], orderItems := db.orderItems ++ items } :
        Db).live i.orderId = true := by
    intro i hi
    rw [hitems i hi]
    have := congrArg (fun x : Option Order => x.any fun o => o.status ≠ .failed) (order?_new hnew)
    exact this.trans (by simp [hpending])
  unfold Db.reserved
  simp only [List.filter_append, quantityOf_append]
  rw [List.filter_congr hlive, List.filter_eq_self.mpr hlive']

theorem live_updateOrder (db : Db) (id : Uuid) (f : Order → Order) (hf : ∀ o, (f o).id = o.id) (id' : Uuid) :
    (db.updateOrder id f).live id' =
      (db.order? id').any fun o => (if o.id = id then f o else o).status ≠ .failed := by
  unfold Db.live
  rw [Db.order?_updateOrder db f hf, Option.any_map]

theorem reserved_fail {db : Db} {id : Uuid} (h : db.live id = true) (p : Uuid) :
    db.reserved p = (db.updateOrder id .fail).reserved p + quantityOf (db.itemsOf id) p := by
  unfold Db.reserved
  rw [quantityOf_filter_split db.orderItems (fun i => db.live i.orderId) (fun i => i.orderId ≠ id)]
  have h₁ : ∀ i ∈ db.orderItems, (db.live i.orderId && decide (i.orderId ≠ id)) =
      (db.updateOrder id .fail).live i.orderId := by
    intro i _
    rw [live_updateOrder db id .fail fun _ => rfl]
    unfold Db.live
    cases ho : db.order? i.orderId with
    | none => rfl
    | some o =>
      have hid := Db.order?_id ho
      by_cases he : i.orderId = id
      · simp [he, hid, Order.fail]
      · simp [he, hid]
  have h₂ : ∀ i ∈ db.orderItems, (db.live i.orderId && !decide (i.orderId ≠ id)) =
      decide (i.orderId = id) := by
    intro i _
    by_cases he : i.orderId = id
    · simp [he, h]
    · simp [he]
  rw [List.filter_congr h₁, List.filter_congr h₂]
  rfl

theorem reserved_update {db : Db} {id : Uuid} {f : Order → Order} (hf : ∀ o, (f o).id = o.id)
    (h : ∀ o, db.order? id = some o → o.status ≠ .failed ∧ (f o).status ≠ .failed) (p : Uuid) :
    (db.updateOrder id f).reserved p = db.reserved p := by
  have hlive : ∀ i ∈ db.orderItems, (db.updateOrder id f).live i.orderId = db.live i.orderId := by
    intro i _
    rw [live_updateOrder db id f hf]
    unfold Db.live
    cases ho : db.order? i.orderId with
    | none => rfl
    | some o =>
      have hid := Db.order?_id ho
      by_cases he : o.id = id
      · have := h o (by rw [← he, hid]; exact ho)
        simp [he, this.1, this.2]
      · simp [he]
  unfold Db.reserved
  exact congrArg (fun l => quantityOf l p) (List.filter_congr hlive)

/-! ## The invariant of the tables -/

theorem nodup_map_append {α β : Type} {g : α → β} {l : List α} {a : α} (h : (l.map g).Nodup)
    (ha : ∀ b ∈ l, g b ≠ g a) : ((l ++ [a]).map g).Nodup := by
  rw [List.map_append, List.nodup_append]
  refine ⟨h, List.nodup_singleton _, fun x hx y hy => ?_⟩
  obtain ⟨b, hb, rfl⟩ := List.mem_map.mp hx
  rw [List.mem_singleton.mp hy]
  exact ha b hb

structure Tables (c : Catalogue) (db : Db) : Prop where
  users : db.users = c.users
  products : shape db.products = shape c.products
  orderIds : (db.orders.map (·.id)).Nodup
  orderKeys : (db.orders.map fun o => (o.userId, o.idempotencyKey)).Nodup
  itemOrders : ∀ i ∈ db.orderItems, ∃ o ∈ db.orders, o.id = i.orderId
  itemProducts : ∀ i ∈ db.orderItems, (db.product? i.productId).isSome
  quantities : ∀ i ∈ db.orderItems, 1 ≤ i.quantity
  messages : (db.processedMessages.map (·.messageId)).Nodup
  conserved : ∀ p, db.stock p + db.reserved p = stockIn c.products p
  nonneg : ∀ p, 0 ≤ db.stock p

namespace Tables

variable {c : Catalogue} {db : Db}

theorem initial (c : Catalogue) : Tables c c.shared.db where
  users := rfl
  products := rfl
  orderIds := List.nodup_nil
  orderKeys := List.nodup_nil
  itemOrders := by simp [Catalogue.shared]
  itemProducts := by simp [Catalogue.shared]
  quantities := by simp [Catalogue.shared]
  messages := List.nodup_nil
  conserved p := Int.add_zero _
  nonneg p := by
    unfold Db.stock stockIn
    cases h : c.shared.db.products.find? fun x => x.id = p with
    | none => simp
    | some x => simpa using c.stockNonneg x (List.mem_of_find?_eq_some h)

theorem productIds (h : Tables c db) : (db.products.map (·.id)).Nodup := by
  rw [ids_of_shape h.products]; exact c.productIds

theorem order?_of_mem (h : Tables c db) {o : Order} (ho : o ∈ db.orders) : db.order? o.id = some o :=
  Db.order?_of_mem h.orderIds ho

theorem orderByKey?_of_mem (h : Tables c db) {o : Order} (ho : o ∈ db.orders) :
    db.orderByKey? o.userId o.idempotencyKey = some o := by
  unfold Db.orderByKey?
  cases hf : db.orders.find? fun o' => o'.userId = o.userId ∧ o'.idempotencyKey = o.idempotencyKey with
  | none => simpa using List.find?_eq_none.mp hf o ho
  | some o' =>
    have hkey : o'.userId = o.userId ∧ o'.idempotencyKey = o.idempotencyKey := by simpa using List.find?_some hf
    refine congrArg some (List.inj_on_of_nodup_map h.orderKeys (List.mem_of_find?_eq_some hf) ho ?_)
    rw [hkey.1, hkey.2]

theorem map_updateOrder {β : Type} (g : Order → β) (f : Order → Order) (hf : ∀ o, g (f o) = g o) (db : Db)
    (id : Uuid) : (db.updateOrder id f).orders.map g = db.orders.map g := by
  simp only [Db.updateOrder, List.map_map]
  apply List.map_congr_left
  intro o _
  by_cases ho : o.id = id <;> simp [ho, hf]

theorem updateOrder (h : Tables c db) {id : Uuid} {f : Order → Order}
    (hf : ∀ o, (f o).id = o.id ∧ (f o).userId = o.userId ∧ (f o).idempotencyKey = o.idempotencyKey)
    (hlive : ∀ o, db.order? id = some o → o.status ≠ .failed ∧ (f o).status ≠ .failed) :
    Tables c (db.updateOrder id f) where
  users := h.users
  products := h.products
  orderIds := by rw [map_updateOrder (·.id) f fun o => (hf o).1]; exact h.orderIds
  orderKeys := by
    rw [map_updateOrder (fun o => (o.userId, o.idempotencyKey)) f fun o => by rw [(hf o).2.1, (hf o).2.2]]
    exact h.orderKeys
  itemOrders i hi := by
    obtain ⟨o, ho, hid⟩ := h.itemOrders i hi
    refine ⟨_, List.mem_map_of_mem ho, ?_⟩
    by_cases he : o.id = id <;> simp [he, hf, ← hid]
  itemProducts := h.itemProducts
  quantities := h.quantities
  messages := h.messages
  conserved p := by
    rw [reserved_update (fun o => (hf o).1) hlive]
    exact h.conserved p
  nonneg := h.nonneg

theorem insertProcessed (h : Tables c db) {m : ProcessedMessage} (hm : db.processed? m.messageId = none) :
    Tables c { db with processedMessages := db.processedMessages ++ [m] } where
  users := h.users
  products := h.products
  orderIds := h.orderIds
  orderKeys := h.orderKeys
  itemOrders := h.itemOrders
  itemProducts := h.itemProducts
  quantities := h.quantities
  messages := by
    refine nodup_map_append h.messages fun m' hm' => ?_
    simpa using List.find?_eq_none.mp hm m' hm'
  conserved := h.conserved
  nonneg := h.nonneg

theorem isSome_product?_of_shape {ps ps' : List Product} (h : shape ps = shape ps') {p : Uuid}
    (hp : (ps'.find? fun x => x.id = p).isSome) : (ps.find? fun x => x.id = p).isSome := by
  rw [List.find?_isSome] at hp ⊢
  obtain ⟨x, hx, hid⟩ := hp
  have : x.id ∈ ps.map (·.id) := ids_of_shape h ▸ List.mem_map_of_mem hx
  obtain ⟨y, hy, hyx⟩ := List.mem_map.mp this
  exact ⟨y, hy, by simpa [hyx] using hid⟩

theorem reserve (h : Tables c db) {req : CreateOrderRequest} {products : List Product} {plan : OrderPlan}
    {order : Order} {items : List OrderItem} (hplan : Planned db req.dto.items products plan)
    (hkey : db.orderByKey? req.actor.id req.idempotencyKey = none) (hid : db.order? order.id = none)
    (hnew : ∃ createdAt, order = newOrder order.id req.actor.id req.idempotencyKey createdAt)
    (hlines : List.Forall₂ (IsLine (productsById products) order.id) req.dto.items items) :
    Tables c (db.applyAll (reserveLog products plan order items)) := by
  obtain ⟨ps, he, hs, hstock⟩ := applyAll_reserveLog hplan order items
  obtain ⟨createdAt, hord⟩ := hnew
  have hpending : order.status = .pending := by rw [hord]; rfl
  have hitem : ∀ i ∈ items, i.orderId = order.id ∧ ∃ input ∈ req.dto.items, i.productId = input.productId ∧
      i.quantity = input.quantity := by
    intro i hi
    obtain ⟨input, hin, hl⟩ := line_of_item hlines hi
    exact ⟨hl.order, input, hin, hl.product, hl.quantity⟩
  rw [he]
  constructor
  · exact h.users
  · exact hs.trans h.products
  · refine nodup_map_append h.orderIds fun o ho hoid => ?_
    have := isSome_order?_iff.mpr ⟨o, ho, hoid⟩
    rw [hid] at this
    cases this
  · refine nodup_map_append h.orderKeys fun o ho hk => ?_
    have hne := List.find?_eq_none.mp hkey o ho
    rw [hord] at hk
    obtain ⟨h₁, h₂⟩ := Prod.mk.inj hk
    exact hne (by simpa using ⟨h₁, h₂⟩)
  · intro i hi
    rcases List.mem_append.mp hi with hi | hi
    · obtain ⟨o, ho, hoid⟩ := h.itemOrders i hi
      exact ⟨o, List.mem_append_left _ ho, hoid⟩
    · exact ⟨order, List.mem_append_right _ (List.mem_singleton_self _), (hitem i hi).1.symm⟩
  · intro i hi
    apply isSome_product?_of_shape hs
    rcases List.mem_append.mp hi with hi | hi
    · exact h.itemProducts i hi
    · obtain ⟨_, input, hin, hpid, _⟩ := hitem i hi
      obtain ⟨x, hx, hxid, _⟩ := hplan.found hin
      rw [hpid, ← hxid]
      exact Option.isSome_iff_exists.mpr ⟨x, hplan.current x hx⟩
  · intro i hi
    rcases List.mem_append.mp hi with hi | hi
    · exact h.quantities i hi
    · obtain ⟨_, input, hin, _, hq⟩ := hitem i hi
      rw [hq]; exact req.dto.positive input hin
  · exact h.messages
  · intro p
    rw [reserved_insert h.itemOrders hid hpending (fun i hi => (hitem i hi).1), quantityOf_lines hlines]
    have h₁ := hstock p
    have h₂ := h.conserved p
    show stockIn ps p + _ = _
    omega
  · intro p
    show 0 ≤ stockIn ps p
    rw [hstock p]
    by_cases hp : p ∈ req.dto.items.map (·.productId)
    · obtain ⟨input, hin, rfl⟩ := List.mem_map.mp hp
      obtain ⟨x, hx, hxid, hle⟩ := hplan.found hin
      have hcur := hplan.current x hx
      rw [hxid] at hcur
      have : db.stock input.productId = x.stock := by
        unfold Db.stock stockIn
        unfold Db.product? at hcur
        rw [hcur]; rfl
      omega
    · rw [lineSum_of_not_mem hp, Int.sub_zero]
      exact h.nonneg p

theorem release (h : Tables c db) {id : Uuid} (hlive : db.live id = true) :
    Tables c (db.applyAll (releaseLog db id)) := by
  obtain ⟨ps, he, hs, hstock⟩ := applyAll_releaseLog id h.itemProducts
  have hids : (db.updateOrder id .fail).orders.map (·.id) = db.orders.map (·.id) :=
    map_updateOrder (·.id) .fail (fun _ => rfl) db id
  have hq : ∀ p, 0 ≤ quantityOf (db.itemsOf id) p :=
    quantityOf_nonneg fun i hi => h.quantities i (List.mem_filter.mp hi).1
  rw [he]
  constructor
  · exact h.users
  · exact hs.trans h.products
  · exact hids ▸ h.orderIds
  · rw [map_updateOrder (fun o => (o.userId, o.idempotencyKey)) .fail fun _ => rfl]; exact h.orderKeys
  · intro i hi
    obtain ⟨o, ho, hoid⟩ := h.itemOrders i hi
    have : i.orderId ∈ (db.updateOrder id .fail).orders.map (·.id) := hids ▸ hoid ▸ List.mem_map_of_mem ho
    obtain ⟨o', ho', hoid'⟩ := List.mem_map.mp this
    exact ⟨o', ho', hoid'⟩
  · exact fun i hi => isSome_product?_of_shape hs (h.itemProducts i hi)
  · exact h.quantities
  · exact h.messages
  · intro p
    have h₁ := hstock p
    have h₂ := h.conserved p
    have h₃ := reserved_fail hlive p
    show stockIn ps p + (db.updateOrder id .fail).reserved p = _
    omega
  · intro p
    show 0 ≤ stockIn ps p
    rw [hstock p]
    have := h.nonneg p
    have := hq p
    omega

end Tables

end OrdersBackend
