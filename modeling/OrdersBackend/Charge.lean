import OrdersBackend.AmountRange
import OrdersBackend.Failure
import OrdersBackend.Integrity
import OrdersBackend.Stock

/-!
# The charge and the stored lines

What a reservation stores and takes off the stock, line by line, and what its
call asks the payments service for.
-/

namespace OrdersBackend

open Conc

variable {cfg : Config} {c : Catalogue} {a : Option Tid} {s s' : Shared} {conf : SysConf} {t : Tid} {id : Uuid}

/-- What an event takes off the stock of `p` on behalf of `t`, by a save of the
product. -/
def Event.subtracts (t : Tid) (p : Uuid) : Event → Int
  | .wrote t' (.stock q _) δ => if t' = t ∧ q = p then -δ else 0
  | _ => 0

def Shared.subtracted (s : Shared) (t : Tid) (p : Uuid) : Int := (s.trace.map (Event.subtracts t p)).sum

theorem Event.subtracts_of_actor {e : Event} (h : e.actor ≠ some t) (p : Uuid) : e.subtracts t p = 0 := by
  cases e with
  | wrote t' wr δ =>
    have hne : t' ≠ t := fun he => h (congrArg some he)
    cases wr <;> simp [Event.subtracts, hne]
  | _ => rfl

theorem subtracted_append {es : List Event} (h : s'.trace = es ++ s.trace) (t : Tid) (p : Uuid) :
    s'.subtracted t p = (es.map (Event.subtracts t p)).sum + s.subtracted t p := by
  rw [Shared.subtracted, h, List.map_append, List.sum_append]
  rfl

theorem sum_subtracts_zero {es : List Event} {p : Uuid} (h : ∀ e ∈ es, e.subtracts t p = 0) :
    (es.map (Event.subtracts t p)).sum = 0 := by
  apply List.sum_eq_zero
  intro n hn
  obtain ⟨e, he, rfl⟩ := List.mem_map.mp hn
  exact h e he

/-- Writes that add nothing to a stock take off what the stock goes down by. -/
theorem sum_subtracts_wroteEvents (t : Tid) (p : Uuid) {ws : List Write} (h : ∀ wr ∈ ws, ∀ q n, wr ≠ .addStock q n)
    (db : Db) : ((wroteEvents t db ws).map (Event.subtracts t p)).sum = db.stock p - (db.applyAll ws).stock p := by
  have hneg : (wroteEvents t db ws).map (Event.subtracts t p) =
      (wroteEvents t db ws).map fun e => -Event.stockChange t p e := by
    apply List.map_congr_left
    intro e he
    obtain ⟨wr, hwr, δ, rfl⟩ := mem_wroteEvents he
    cases wr with
    | stock q n => by_cases hq : q = p <;> simp [Event.subtracts, Event.stockChange, Write.product?, hq]
    | addStock q n => exact (h _ hwr q n rfl).elim
    | _ => simp [Event.subtracts, Event.stockChange, Write.product?]
  have hsum : ∀ es : List Event, (es.map fun e => -Event.stockChange t p e).sum =
      -(es.map (Event.stockChange t p)).sum := by
    intro es
    induction es with
    | nil => rfl
    | cons e es ih =>
      simp only [List.map_cons, List.sum_cons, ih]
      omega
  rw [hneg, hsum, stockChange_wroteEvents]
  omega

/-! ## What a call has booked -/

theorem Tables.within {db : Db} (h : Tables c db) {products : List Product}
    (hcurrent : ∀ p ∈ products, db.product? p.id = some p) : Within products c.products := by
  intro product hm
  have hfound := hcurrent product hm
  obtain ⟨p, hp, he⟩ := exists_of_shape h.products (Db.product?_mem hfound)
  have hid : p.id = product.id := by simpa [Product.setStock] using congrArg Product.id he
  have hprice : p.price = product.price := by simpa [Product.setStock] using congrArg Product.price he
  refine ⟨p, hp, hid, hprice, ?_⟩
  have hstock : db.stock product.id = product.stock := by
    unfold Db.product? at hfound
    rw [Db.stock, stockIn, hfound]
    rfl
  have hconserved := h.conserved product.id
  have hreserved : 0 ≤ db.reserved product.id :=
    quantityOf_nonneg (fun i hi => h.quantities i (List.mem_filter.mp hi).1) _
  rw [← hid, stockIn_of_mem c.productIds hp, hid] at hconserved
  omega

/-- The lines, the plan and the products a reservation has gone by. -/
structure Booked (c : Catalogue) (s : Shared) (t : Tid) (id : Uuid) (req : CreateOrderRequest) (products : List Product)
    (plan : OrderPlan) : Prop where
  job : s.jobs t = some (.create req)
  distinct : (products.map (·.id)).Nodup
  within : Within products c.products
  accepted : buildOrderPlan products req.dto.items = .ok plan
  lines : List.Forall₂ (IsLine (productsById products) id) req.dto.items (s.db.itemsOf id)
  saved : ∀ wr ∈ plan.quantityByProductId.entries.filterMap (stockWrite (productsById products)),
    ∃ δ, .wrote t wr δ ∈ s.trace
  subtracted : ∀ p, s.subtracted t p = lineSum req.dto.items p

theorem Booked.keep {req : CreateOrderRequest} {products : List Product} {plan : OrderPlan}
    (h : Booked c s t id req products plan) (hj : s'.jobs t = some (.create req))
    (hitems : s'.db.itemsOf id = s.db.itemsOf id)
    {es : List Event} (he : s'.trace = es ++ s.trace) (hes : ∀ e ∈ es, ∀ p, e.subtracts t p = 0) :
    Booked c s' t id req products plan where
  job := hj
  distinct := h.distinct
  within := h.within
  accepted := h.accepted
  lines := hitems ▸ h.lines
  saved wr hwr := by
    obtain ⟨δ, hδ⟩ := h.saved wr hwr
    exact ⟨δ, he ▸ List.mem_append_right _ hδ⟩
  subtracted p := by
    rw [subtracted_append he, sum_subtracts_zero fun e hm => hes e hm p, Int.zero_add, h.subtracted]

theorem subtracts_wroteEvents_zero {db : Db} {ws : List Write} (h : ∀ wr ∈ ws, ∀ q n, wr ≠ .stock q n) :
    ∀ e ∈ wroteEvents t db ws, ∀ p, e.subtracts t p = 0 := by
  intro e he p
  obtain ⟨wr, hwr, δ, rfl⟩ := mem_wroteEvents he
  cases wr with
  | stock q n => exact (h _ hwr q n rfl).elim
  | _ => rfl

theorem Turn.subtracts {p p' : Phase} {es : List Event} (h : Turn cfg t p es p') (hp : p.orderId? = some id) :
    ∀ e ∈ es, ∀ q, e.subtracts t q = 0 := by
  cases h with
  | reserve | consume | republish => cases hp
  | release db id =>
    apply subtracts_wroteEvents_zero
    intro wr hwr q n
    rcases mem_releaseLog hwr with rfl | ⟨_, _, rfl⟩ <;> simp
  | _ => simp [Event.subtracts]

theorem Saga.subtracted_start (h : Saga cfg c s) (hp : s.phase t = .start) (p : Uuid) : s.subtracted t p = 0 := by
  apply sum_subtracts_zero
  intro e he
  have hleft := h.leaves e he
  cases e with
  | wrote t' wr δ =>
    cases wr with
    | stock q n =>
      have hne : t' ≠ t := by
        rintro rfl
        rw [Event.leaves, hp] at hleft
        cases hleft
      simp [Event.subtracts, hne]
    | _ => rfl
  | _ => rfl

theorem booked_reserve (hs : Saga cfg c s) {req : CreateOrderRequest} {products : List Product} {plan : OrderPlan}
    {order : Order} {items : List OrderItem} (hr : Reserves s t req products plan order items) :
    Booked c (s.commit t (reserveLog products plan order items)) t order.id req products plan where
  job := by rw [commit_eq]; exact hr.job
  distinct := hr.distinct
  within := hs.inv.tables.within hr.current
  accepted := hr.accepted
  lines := by rw [itemsOf_reserve hr]; exact hr.lines
  saved wr hwr := by
    obtain ⟨δ, hδ⟩ := mem_wroteEvents_of_mem t s.db
      (List.mem_append_left (.insertOrder order :: items.map .insertItem) hwr)
    refine ⟨δ, ?_⟩
    rw [commit_eq]
    exact List.mem_append_left _ hδ
  subtracted p := by
    obtain ⟨ps, he, _, hstock⟩ := applyAll_reserveLog ⟨hr.current, hr.distinct, hr.accepted⟩ order items
    have hadd : ∀ wr ∈ reserveLog products plan order items, ∀ q n, wr ≠ .addStock q n := by
      intro wr hwr q n
      rcases mem_reserveLog hwr with ⟨_, _, rfl⟩ | rfl | ⟨_, rfl⟩ <;> simp
    rw [subtracted_append (by rw [commit_eq]), sum_subtracts_wroteEvents t p hadd,
      hs.subtracted_start hr.phase, he]
    have := hstock p
    show _ - stockIn ps p + 0 = _
    omega

theorem Saga.booked_step (hs : Saga cfg c s) (h : Step cfg a s s')
    (ih : ∀ t id, (s.phase t).orderId? = some id → ∃ req products plan, Booked c s t id req products plan)
    (hid : (s'.phase t).orderId? = some id) : ∃ req products plan, Booked c s' t id req products plan := by
  have hold : (s.phase t).orderId? = some id → ∃ req o, Owns s t id req o := hs.inv.calls.owns t id
  by_cases ha : a = some t
  · subst ha
    rcases h.reserves hid with hid | ⟨req, products, plan, order, items, hr, rfl, rfl⟩
    · obtain ⟨req, products, plan, hb⟩ := ih t id hid
      obtain ⟨_, o, ho⟩ := hold hid
      obtain ⟨es, he, hturn⟩ := h.turn
      exact ⟨req, products, plan, hb.keep (h.jobs_mono hb.job) (hs.inv.itemsOf h (by rw [ho.found]; rfl)) he
        (hturn.subtracts hid)⟩
    · exact ⟨req, products, plan, booked_reserve hs hr⟩
  · rw [h.phase_other ha] at hid
    obtain ⟨req, products, plan, hb⟩ := ih t id hid
    obtain ⟨_, o, ho⟩ := hold hid
    obtain ⟨es, he, hes⟩ := h.trace
    refine ⟨req, products, plan, hb.keep (h.jobs_mono hb.job) (hs.inv.itemsOf h (by rw [ho.found]; rfl)) he ?_⟩
    intro e hm
    exact Event.subtracts_of_actor ((hes e hm).trans_ne ha)

theorem SagaInv.charged_step (hI : SagaInv c s) (hleaves : ∀ e ∈ s.trace, e.leaves cfg s) (h : Step cfg a s s')
    (ih : ∀ t r, .sent t r ∈ s.trace → r.amountCents = s.db.total r.orderId) {r : AuthorizeRequest}
    (hm : .sent t r ∈ s'.trace) : r.amountCents = s'.db.total r.orderId := by
  have hold : .sent t r ∈ s.trace → r.amountCents = s'.db.total r.orderId := by
    intro hm
    obtain ⟨_, o, ho⟩ := hI.calls.owns t r.orderId (hleaves _ hm)
    rw [ih t r hm, Db.total, Db.total, hI.itemsOf h (by rw [ho.found]; rfl)]
  have hcommit : ∀ (u : Tid) (ws : List Write), Event.sent t r ∈ (s.commit u ws).trace →
    Event.sent t r ∈ s.trace := by
    intro u ws hm
    rw [commit_eq] at hm
    refine (List.mem_append.mp hm).resolve_left fun hm => ?_
    obtain ⟨_, _, _, he⟩ := mem_wroteEvents hm
    cases he
  cases h with
  | reserve | release | process => exact hold (hcommit _ _ hm)
  | request hr =>
    rcases List.mem_cons.mp hm with he | hm
    · cases he
      exact hr.amount
    · exact hold hm
  | answer | loseCall | expire | loseChannel | tick | arrive | deliver | skipUuid | receive | nack |
      lose => exact hold hm
  | execute | failed | ackLost | reject | pay | identify | publish | republish | ack =>
    rcases List.mem_cons.mp hm with he | hm
    · cases he
    · exact hold hm

theorem Saga.booked (h : Saga cfg c s) (hid : (s.phase t).orderId? = some id) :
    ∃ req products plan, Booked c s t id req products plan := by
  refine (Runs.invariant (I := fun s => Saga cfg c s ∧ ∀ t id, (s.phase t).orderId? = some id →
    ∃ req products plan, Booked c s t id req products plan) ?_ h ⟨.refl _, fun t id hid => by cases hid⟩).2 t id hid
  rintro a s s' ha ⟨hs, hb⟩ hstep
  exact ⟨hs.snoc ha hstep, fun t id hid => hs.booked_step hstep hb hid⟩

theorem Saga.charged (h : Saga cfg c s) {r : AuthorizeRequest} (hm : .sent t r ∈ s.trace) :
    r.amountCents = s.db.total r.orderId := by
  refine (Runs.invariant (I := fun s => Saga cfg c s ∧ ∀ t r, .sent t r ∈ s.trace →
    r.amountCents = s.db.total r.orderId) ?_ h ⟨.refl _, by simp [Catalogue.shared]⟩).2 t r hm
  rintro a s s' ha ⟨hs, hc⟩ hstep
  exact ⟨hs.snoc ha hstep, fun t r hm => hs.inv.charged_step hs.leaves hstep hc hm⟩

theorem Booked.total_eq {req : CreateOrderRequest} {products : List Product} {plan : OrderPlan}
    (h : Booked c s t id req products plan) : s.db.total id = plan.amountCents :=
  amount_lines h.distinct h.accepted h.lines

/-- An order costs no more than the whole stock of its catalogue. -/
theorem Saga.total_le (h : Saga cfg c s) {o : Order} (ho : o ∈ s.db.orders) :
    s.db.total o.id ≤ stockValue c.products := by
  obtain ⟨t, hid, _⟩ := h.inv.owner_fits ho
  obtain ⟨_, _, _, hb⟩ := h.booked hid
  rw [hb.total_eq]
  exact amount_le_stockValue hb.distinct c.productIds c.stockNonneg hb.within hb.accepted

/-! ## The charge -/

/-- A reservation that has committed has stored one row per line, has taken off
the stock what the rows say, and its call asks for what the rows cost. -/
theorem charge_matches_lines (h : Reachable cfg c conf) {o : Order} {δ : Int}
    (hw : .wrote t (.insertOrder o) δ ∈ conf.world.trace) :
    ∃ req products plan, conf.world.jobs t = some (.create req) ∧ (products.map (·.id)).Nodup ∧
      buildOrderPlan products req.dto.items = .ok plan ∧
      (∀ e ∈ plan.quantityByProductId.entries, ∃ product, (productsById products).get? e.1 = some product ∧
        ∃ δ', .wrote t (.stock e.1 (product.stock - e.2)) δ' ∈ conf.world.trace) ∧
      List.Forall₂ (fun line row => row.productId = line.productId ∧ row.quantity = line.quantity ∧
          ∃ product, (productsById products).get? line.productId = some product ∧
            row.priceAtPurchase = product.price)
        req.dto.items (conf.world.db.itemsOf o.id) ∧
      (∀ p, quantityOf (conf.world.db.itemsOf o.id) p = conf.world.subtracted t p) ∧
      ∀ r, .sent t r ∈ conf.world.trace → r.orderId = o.id ∧ r.amountCents =
        ((conf.world.db.itemsOf o.id).map fun row => (row.priceAtPurchase : Int) * row.quantity).sum := by
  have hs := h.saga
  have hid : (conf.world.phase t).orderId? = some o.id := hs.leaves _ hw
  obtain ⟨req, products, plan, hb⟩ := hs.booked hid
  refine ⟨req, products, plan, hb.job, hb.distinct, hb.accepted, fun e he => ?_, ?_, fun p => ?_, fun r hm => ?_⟩
  · rw [(buildOrderPlan_ok hb.distinct hb.accepted).1] at he
    obtain ⟨item, hi, hie⟩ := List.mem_map.mp (mem_aggregate.mp he).1
    obtain ⟨product, hp, hpid, _⟩ := (buildOrderPlan_ok hb.distinct hb.accepted).2.2 item hi
    have hg := (get?_productsById hb.distinct e.1 product).mpr ⟨hp, hpid.trans hie⟩
    refine ⟨product, hg, hb.saved _ (List.mem_filterMap.mpr ⟨e, ?_, ?_⟩)⟩
    · rw [(buildOrderPlan_ok hb.distinct hb.accepted).1]
      exact he
    · simp [stockWrite, hg, hpid.trans hie]
  · refine hb.lines.imp fun line row hl => ⟨hl.product, hl.quantity, ?_⟩
    obtain ⟨product, hg, hprice⟩ := Option.map_eq_some_iff.mp hl.price
    exact ⟨product, hg, hprice.symm⟩
  · rw [hb.subtracted p, quantityOf_lines hb.lines]
  · have hrid : (conf.world.phase t).orderId? = some r.orderId := hs.leaves _ hm
    rw [hid] at hrid
    have he := Option.some.inj hrid
    refine ⟨he.symm, ?_⟩
    rw [hs.charged hm, ← he]
    rfl

/-- One mug, and two more on a line of their own. -/
def mugsRequest : CreateOrderRequest where
  actor := ⟨0, .user⟩
  dto := ⟨[⟨0, 1⟩, ⟨0, 2⟩], by simp, by simp⟩
  idempotencyKey := "k"

/-- The two lines have two rows, and the call asks for three mugs. -/
theorem charge_matches_lines_mugs :
    let conf := (Catalogue.shop 3).after (.ofPool 2 .repository) (requestSteps 0 mugsRequest 12)
    conf.world.subtracted 0 0 = 3 ∧ (conf.world.db.itemsOf 0).map (·.quantity) = [1, 2] ∧
      ∃ r, .sent 0 r ∈ conf.world.trace ∧ r.orderId = 0 ∧ r.amountCents = 1500 := by
  intro conf
  have hreach : Reachable (.ofPool 2 .repository) (.shop 3) conf := Catalogue.reachable_after ..
  obtain ⟨_, _, _, _, _, _, _, _, hq, hsent⟩ := charge_matches_lines (t := 0) (o := newOrder 0 0 "k" 0) (δ := 0)
    hreach (by decide)
  have hm : .sent 0 ⟨0, 1500, "USD", some "k"⟩ ∈ conf.world.trace := by decide
  obtain ⟨horder, hamount⟩ := hsent _ hm
  exact ⟨(hq 0).symm.trans (by decide), by decide, _, hm, horder, hamount.trans (by decide)⟩

end OrdersBackend
