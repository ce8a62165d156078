import OrdersBackend.CallSpec

/-!
# The reservation transaction

The products are read under locks that last until the commit, so what the plan
was made of is still current when the transaction takes effect.
-/

namespace OrdersBackend

open Conc Async

variable {cfg : Config} {c : Catalogue} {t : Tid} {L : Local} {held : List (Row × RowVal)} {F : Shared → Prop}
variable {w : World} {req : CreateOrderRequest}

abbrev Local.reserving (req : CreateOrderRequest) (ws : List Write) : Local :=
  .call req ⟨true, false, some ws⟩ .start 1

theorem caught_open {e : Err} {ws : Option (List Write)} {late undone : Bool} {worker : Nat} (hl : late = false)
    (h : Now cfg c t ⟨⟨true, false, ws⟩, some (.create req), .start, late, undone, 1, worker⟩ held F w) :
    ∃ L held, Caught cfg c t req e L held w :=
  ⟨_, _, rfl, rfl, .inl ⟨rfl, .inr ⟨rfl, hl⟩⟩, h.weaken fun _ => trivial⟩

/-! ## The products -/

def Locked (products : List Product) (held : List (Row × RowVal)) : Prop :=
  ∀ p ∈ products, (Row.product p.id, RowVal.product (some p)) ∈ held

theorem wp_lockProducts {Q : Except Err (List Product) → World → Prop} (hF : Lasting cfg c t F)
    (hok : ∀ products held w', Locked products held → (products.map (·.id)).Nodup →
      Now cfg c t (.reserving req []) held F w' → Q (.ok products) w')
    (herr : ∀ e w', (∃ L held, Caught cfg c t req e L held w') → Q (.error e) w') :
    ∀ (ids past : List Uuid) (products : List Product) (held : List (Row × RowVal)) (w : World),
    Locked products held →
      Takes held past → (past ++ ids).Sublist (c.products.map (·.id)) → (products.map (·.id) ++ ids).Nodup →
      Now cfg c t (.reserving req []) held F w → Wp cfg c t (lockProducts ids products) Q w
  | [], past, products, held, w, hl, _, _, hn, h => hok products held w hl (by simpa using hn) h
  | id :: ids, past, products, held, w, hl, ht, hs, hn, h => by
    refine (discipline cfg c).wp_bind ?_
    refine wp_quiet rfl h hF (Option.some_ne_none _)
      (fun w' h' => ⟨past, ids, by rw [ids_of_shape h'.saga.inv.tables.products]; exact hs, h'.takes ht⟩)
      (fun w₁ r w₂ h₁ _ hp => ?_) (fun e w₁ _ _ h₁ => ?_)
    · simp only [perform] at hp
      split at hp
      · cases hp
        refine ⟨.refl _, ?_⟩
        have hview := h₁.view_nil (.inr rfl)
        refine wp_lockProducts hF hok herr ids (past ++ [id]) _ _ _ (fun p hp => ?_) (ht.append id _)
          (by simpa using hs) ?_
          (h₁.lock (.product id))
        · rcases List.mem_append.mp hp with hp | hp
          · exact List.mem_append_left _ (hl p hp)
          · rw [Option.mem_toList, hview] at hp
            have hid := Db.product?_id hp
            refine List.mem_append_right _ (List.mem_singleton.mpr ?_)
            rw [hid, Db.row, hp]
        · rw [hview]
          cases hp : w₁.db.product? id with
          | none =>
            rw [Option.toList_none, List.append_nil]
            exact hn.sublist (List.Sublist.append_left (List.sublist_cons_self ..) _)
          | some p =>
            have hid := Db.product?_id hp
            simpa [hid] using hn
      · cases hp
    · exact herr e w₁ (caught_open rfl h₁)

/-- The products of a plan, and what it takes for the rows to be current. -/
theorem wp_selectProductsForUpdate {ids : List Uuid} {Q : Except Err (List Product) → World → Prop}
    (hF : Lasting cfg c t F) (h : Now cfg c t (.reserving req []) [] F w)
    (hok : ∀ products held w', Locked products held → (products.map (·.id)).Nodup →
      Now cfg c t (.reserving req []) held F w' → Q (.ok products) w')
    (herr : ∀ e w', (∃ L held, Caught cfg c t req e L held w') → Q (.error e) w') :
    Wp cfg c t (selectProductsForUpdate ids) Q w := by
  refine (discipline cfg c).wp_bind ?_
  refine wp_read (fun w => ((w.view t).products.filter fun p => p.id ∈ ids).map (·.id)) (fun _ => rfl) rfl
    (fun _ => trivial) h hF (Option.some_ne_none _) (fun w₁ h₁ hi => ?_) (fun e w₁ _ _ h₁ => ?_)
  · have hview := h₁.view_nil (.inr rfl)
    have hrows : (((w₁.view t).products.filter fun p => p.id ∈ ids).map (·.id)).Sublist
      (w₁.db.products.map (·.id)) := by
      rw [hview]
      exact List.filter_sublist.map _
    refine wp_lockProducts hF hok herr _ [] [] [] w₁ nofun (by simp [Takes]) ?_ ?_ h₁
    · rw [← ids_of_shape hi.saga.inv.tables.products]
      exact hrows
    · exact hi.saga.inv.tables.productIds.sublist hrows
  · exact herr e w₁ (caught_open rfl h₁)

theorem wp_saveProducts {byId : JsMap Uuid Product} {Q : Except Err Unit → World → Prop} (hF : Lasting cfg c t F)
    (entries : List (Uuid × Int)) (hheld : ∀ id p, byId.get? id = some p → Row.product p.id ∈ held.map Prod.fst)
    (h : Now cfg c t (.reserving req []) held F w)
    (hok : ∀ w', Now cfg c t (.reserving req (entries.filterMap (stockWrite byId))) held F w' → Q (.ok ()) w')
    (herr : ∀ e w', (∃ L held, Caught cfg c t req e L held w') → Q (.error e) w') :
    Wp cfg c t (saveProducts byId entries) Q w := by
  refine (discipline cfg c).wp_forEach (fun past rest w => past ++ rest = entries ∧
    Now cfg c t (.reserving req (past.filterMap (stockWrite byId))) held F w) entries [] ⟨rfl, h⟩ ?_ ?_
  · rintro past entry rest w₁ ⟨hl, h₁⟩
    cases hg : byId.get? entry.1 with
    | none => exact herr _ w₁ (caught_open rfl h₁)
    | some p =>
      refine wp_quiet rfl h₁ hF (Option.some_ne_none _) (fun _ h' => (h'.owned _).mpr (hheld _ _ hg))
        (fun w₂ r w₃ h₂ _ hp => ?_) (fun e w₂ _ _ h₂ => ?_)
      · obtain ⟨hs, rfl⟩ := stmt_map hp
        have hn := h₂.stmt_held hs (by simpa [Write.rows] using hheld _ _ hg)
        refine ⟨by rw [(stmt_eq hs).2.1]; exact .refl _, by simpa using hl, ?_⟩
        have hw : stockWrite byId entry = some (.stock p.id (p.stock - entry.2)) := by
          rw [stockWrite, hg]; rfl
        rw [List.filterMap_append, List.filterMap_cons, hw]
        exact hn
      · exact herr e w₂ (caught_open rfl h₂)
  · rintro past w₁ ⟨hl, h₁⟩
    rw [List.append_nil] at hl
    subst hl
    exact hok w₁ h₁

/-! ## The order and its items -/

theorem orderByKey?_onStock {ws : List Write} (h : ∀ wr ∈ ws, wr.onStock = true) (db : Db) (u : Uuid)
    (k : String) :
    (db.applyAll ws).orderByKey? u k = db.orderByKey? u k := by
  obtain ⟨ps, he, _⟩ := applyAll_onStock h db
  rw [he]
  rfl

theorem row_fresh {s : Shared} (h : Saga cfg c s) : s.db.row (.order s.uuids) = .order none [] := by
  have ho : s.db.order? s.uuids = none := by
    cases hf : s.db.order? s.uuids with
    | none => rfl
    | some o => exact absurd (h.inv.calls.fresh _ o hf) (Nat.lt_irrefl _)
  have hi : s.db.itemsOf s.uuids = [] := by
    rw [Db.itemsOf, List.filter_eq_nil_iff]
    intro i hm he
    obtain ⟨o, hom, hoid⟩ := h.inv.tables.itemOrders i hm
    have := isSome_order?_iff.mpr ⟨o, hom, hoid.trans (by simpa using he)⟩
    rw [ho] at this
    cases this
  rw [Db.row, ho, hi]

theorem wp_insertOrder {ws : List Write} {Q : Except Err Order → World → Prop} (hF : Lasting cfg c t F)
    (hws : ∀ wr ∈ ws, wr.onStock = true) (h : Now cfg c t (.reserving req ws) held F w)
    (hok : ∀ id createdAt w', Now cfg c t
      (.reserving req (ws ++ [.insertOrder (newOrder id req.actor.id req.idempotencyKey createdAt)]))
      (held ++ [(.order id, .order none []), (.orderKey req.actor.id req.idempotencyKey, .orderKey none)])
      (fun s => F s ∧ id < s.uuids) w' → Q (.ok (newOrder id req.actor.id req.idempotencyKey createdAt)) w')
    (herr : ∀ e w', (∃ L held, Caught cfg c t req e L held w') → Q (.error e) w') :
    Wp cfg c t (issue (.insertOrder req.actor.id req.idempotencyKey)) Q w := by
  refine wp_quiet rfl h hF (Option.some_ne_none _) (fun _ _ => trivial) (fun w₁ r w₂ h₁ hi hp => ?_)
    (fun e w₁ _ _ h₁ => ?_)
  · simp only [perform] at hp
    split at hp
    · split at hp
      · cases hp
        exact ⟨.refl _, herr _ w₁ (caught_open rfl h₁)⟩
      · rename_i hfree
        obtain ⟨hs, rfl⟩ := stmt_map hp
        have hview : (w₁.view t).orderByKey? req.actor.id req.idempotencyKey =
            w₁.db.orderByKey? req.actor.id req.idempotencyKey := by
          rw [World.view, h₁.sess]
          exact orderByKey?_onStock hws _ _ _
        have hnone : w₁.db.orderByKey? req.actor.id req.idempotencyKey = none := by
          rw [hview] at hfree
          simpa using hfree
        have hnext := h₁.nextUuid hF
        have hn := hnext.stmt hs
        have hstep : Own cfg t w₁.toShared w₂.toShared := by
          rw [(stmt_eq hs).2.1]
          exact .single rfl (.skipUuid t w₁.toShared)
        refine ⟨hstep, hok w₁.uuids w₁.clock w₂ ?_⟩
        have hrow := row_fresh h₁.saga
        have hkey : w₁.db.row (.orderKey req.actor.id req.idempotencyKey) = .orderKey none := by
          rw [Db.row, hnone]; rfl
        have huuid : w₁.uuids < w₂.uuids := by
          rw [(stmt_eq hs).2.1]; exact Nat.lt_succ_self _
        simp only [Write.rows, List.map_cons, List.map_nil] at hn
        rw [show w₁.nextUuid.db = w₁.db from rfl, hrow, hkey] at hn
        exact hn.weaken fun hf => ⟨hf, huuid⟩
    · cases hp
  · exact herr e w₁ (caught_open rfl h₁)

theorem wp_saveItems {byId : JsMap Uuid Product} {order : Order} {ws : List Write}
    {Q : Except Err Unit → World → Prop} (hF : Lasting cfg c t F)
    (hbyId : ∀ id p, byId.get? id = some p → p.id = id) (hheld : Row.order order.id ∈ held.map Prod.fst)
    (inputs : List OrderItemInput) (h : Now cfg c t (.reserving req ws) held F w)
    (hok : ∀ items w', List.Forall₂ (IsLine byId order.id) inputs items →
      Now cfg c t (.reserving req (ws ++ items.map .insertItem)) held F w' → Q (.ok ()) w')
    (herr : ∀ e w', (∃ L held, Caught cfg c t req e L held w') → Q (.error e) w') :
    Wp cfg c t (saveItems byId order inputs) Q w := by
  refine (discipline cfg c).wp_forEach (fun past rest w => past ++ rest = inputs ∧ ∃ items,
    List.Forall₂ (IsLine byId order.id) past items ∧
      Now cfg c t (.reserving req (ws ++ items.map .insertItem)) held F w) inputs [] ⟨rfl, [], .nil,
        by simpa using h⟩
    ?_ ?_
  · rintro past input rest w₁ ⟨hl, items, hlines, h₁⟩
    cases hg : byId.get? input.productId with
    | none => exact herr _ w₁ (caught_open rfl h₁)
    | some p =>
      refine wp_quiet rfl h₁ hF (Option.some_ne_none _) (fun _ _ => trivial) (fun w₂ r w₃ h₂ _ hp => ?_)
        (fun e w₂ _ _ h₂ => ?_)
      · obtain ⟨hs, rfl⟩ := stmt_map hp
        have hn := (h₂.nextUuid hF).stmt_held hs (by simpa [Write.rows] using hheld)
        have hstep : Own cfg t w₂.toShared w₃.toShared := by
          rw [(stmt_eq hs).2.1]
          exact .single rfl (.skipUuid t w₂.toShared)
        have hline : IsLine byId order.id input ⟨w₂.uuids, order.id, p.id, input.quantity, p.price⟩ :=
          ⟨rfl, hbyId _ _ hg, rfl, by rw [hg]; rfl⟩
        refine ⟨hstep, by simpa using hl, items ++ [⟨w₂.uuids, order.id, p.id, input.quantity, p.price⟩],
          List.rel_append hlines (.cons hline .nil), ?_⟩
        rw [List.map_append, ← List.append_assoc]
        exact hn
      · exact herr e w₂ (caught_open rfl h₂)
  · rintro past w₁ ⟨hl, items, hlines, h₁⟩
    rw [List.append_nil] at hl
    subst hl
    exact hok items w₁ hlines h₁

/-! ## The commit -/

theorem itemsOf_reserve {s : Shared} {products : List Product} {plan : OrderPlan} {order : Order}
    {items : List OrderItem} (h : Reserves s t req products plan order items) :
    (s.commit t (reserveLog products plan order items)).db.itemsOf order.id = items := by
  obtain ⟨ps, he, _⟩ := applyAll_reserveLog ⟨h.current, h.distinct, h.accepted⟩ order items
  have hfree := h.itemsFree
  rw [commit_eq]
  simp only [he]
  unfold Db.itemsOf at hfree ⊢
  simp only [List.filter_append]
  rw [hfree, List.nil_append, List.filter_eq_self]
  intro i hi
  obtain ⟨_, _, hl⟩ := line_of_item h.lines hi
  simp [hl.order]

theorem amount_lines {products : List Product} {plan : OrderPlan} {orderId : Uuid} {items : List OrderItem}
    (hn : (products.map (·.id)).Nodup) (hplan : buildOrderPlan products req.dto.items = .ok plan)
    (hlines : List.Forall₂ (IsLine (productsById products) orderId) req.dto.items items) :
    (items.map fun item => (item.priceAtPurchase : Int) * item.quantity).sum = plan.amountCents := by
  obtain ⟨hq, ha, _⟩ := buildOrderPlan_ok hn hplan
  rw [ha, hq, amountOf_aggregate]
  have gen : ∀ {inputs : List OrderItemInput} {items : List OrderItem},
      List.Forall₂ (IsLine (productsById products) orderId) inputs items →
      (items.map fun item => (item.priceAtPurchase : Int) * item.quantity).sum =
        (inputs.map fun input => unitPrice (productsById products) input.productId * input.quantity).sum := by
    intro inputs items h
    induction h with
    | nil => rfl
    | @cons input item _ _ hl _ ih =>
      have hprice : unitPrice (productsById products) input.productId = item.priceAtPurchase := by
        have := congrArg (fun x => (x.map fun n : Nat => (n : Int)).getD 0) hl.price
        simpa [unitPrice, Function.comp_def] using this
      rw [List.map_cons, List.sum_cons, List.map_cons, List.sum_cons, ih, hprice, hl.quantity]
  exact gen hlines

/-- What the transaction has locked has not changed since it was read. -/
theorem reserves_of_held {products : List Product} {plan : OrderPlan} {id : Uuid} {items : List OrderItem}
    {ws : List Write} (createdAt : Nat) (hl : Locked products held) (hn : (products.map (·.id)).Nodup)
    (hplan : buildOrderPlan products req.dto.items = .ok plan)
    (hlines : List.Forall₂ (IsLine (productsById products) id) req.dto.items items)
    (h : Now cfg c t (.reserving req ws)
      (held ++ [(.order id, .order none []), (.orderKey req.actor.id req.idempotencyKey, .orderKey none)])
      (fun s => (s.db.user? req.actor.id).isSome ∧ id < s.uuids) w) :
    Reserves w.toShared t req products plan (newOrder id req.actor.id req.idempotencyKey createdAt) items where
  job := h.job
  phase := h.phase
  user := h.fact.1
  keyFree := by
    have hrow := h.row (r := .orderKey req.actor.id req.idempotencyKey) (v := .orderKey none) (by simp)
    simpa [Db.row] using hrow
  idFree := by
    have hrow := h.row (r := .order id) (v := .order none []) (by simp)
    rw [Db.row, RowVal.order.injEq] at hrow
    exact hrow.1
  itemsFree := by
    have hrow := h.row (r := .order id) (v := .order none []) (by simp)
    rw [Db.row, RowVal.order.injEq] at hrow
    exact hrow.2
  fresh := h.fact.2
  new := ⟨createdAt, rfl⟩
  current p hp := by
    have hrow := h.row (List.mem_append_left _ (hl p hp))
    rw [Db.row, RowVal.product.injEq] at hrow
    exact hrow
  distinct := hn
  accepted := hplan
  lines := hlines

theorem wp_reserve {Q : Except Err (Order × OrderPlan) → World → Prop}
    (h : Now cfg c t (.reserving req []) [] (fun s => (s.db.user? req.actor.id).isSome) w)
    (hok : ∀ order plan items w',
      (items.map fun item => (item.priceAtPurchase : Int) * item.quantity).sum = plan.amountCents →
      Now cfg c t (.call req ⟨false, false, none⟩ (.reserved order.id) 1) []
        (fun s => (s.db.order? order.id).isSome ∧ s.db.itemsOf order.id = items) w' → Q (.ok (order, plan)) w')
    (herr : ∀ e w', (∃ L held, Caught cfg c t req e L held w') → Q (.error e) w') :
    Wp cfg c t (reserve req.actor req.dto req.idempotencyKey) Q w := by
  have hU : Lasting cfg c t fun s => (s.db.user? req.actor.id).isSome := .user _
  refine (discipline cfg c).wp_bind ?_
  refine wp_selectProductsForUpdate hU h (fun products held w₁ hl hn h₁ => ?_) (fun e w₁ hc => herr e w₁ hc)
  refine (discipline cfg c).wp_bind ?_
  cases hplan : buildOrderPlan products req.dto.items with
  | error e => exact herr e w₁ (caught_open rfl h₁)
  | ok plan =>
    have hbyId : ∀ id p, (productsById products).get? id = some p → p ∈ products ∧ p.id = id :=
      fun id p hg => (get?_productsById hn id p).mp hg
    refine (discipline cfg c).wp_bind ?_
    refine wp_saveProducts hU _ (fun id p hg => List.mem_map_of_mem (hl p (hbyId id p hg).1)) h₁ (fun w₂ h₂ => ?_)
      (fun e w₂ hc => herr e w₂ hc)
    refine (discipline cfg c).wp_bind ?_
    refine wp_insertOrder hU (onStock_stockWrites _ _) h₂ (fun id createdAt w₃ h₃ => ?_)
      (fun e w₃ hc => herr e w₃ hc)
    have hF₃ : Lasting cfg c t fun s => (s.db.user? req.actor.id).isSome ∧ id < s.uuids := hU.and (.uuid id)
    refine (discipline cfg c).wp_bind ?_
    refine wp_saveItems hF₃ (fun id p hg => (hbyId id p hg).2) (by simp [newOrder]) _ h₃
      (fun items w₄ hlines h₄ => ?_) (fun e w₄ hc => herr e w₄ hc)
    have hlog : plan.quantityByProductId.entries.filterMap (stockWrite (productsById products)) ++
        [.insertOrder (newOrder id req.actor.id req.idempotencyKey createdAt)] ++ items.map .insertItem =
          reserveLog products plan (newOrder id req.actor.id req.idempotencyKey createdAt) items := by
      rw [reserveLog, List.append_assoc]; rfl
    rw [hlog] at h₄
    refine (discipline cfg c).wp_bind ?_
    refine wp_commit h₄ hF₃ (Option.some_ne_none _) rfl (.items id items) (fun w₅ h₅ _ => ?_) (fun w₅ h₅ => ?_)
      (fun e w₅ _ h₅ => herr e w₅ (caught_open rfl h₅))
        (fun e w₅ _ h₅ => herr e w₅ ⟨_, _, rfl, rfl, .inl ⟨rfl, .inl rfl⟩, h₅.top⟩)
    · have hr := reserves_of_held createdAt hl hn hplan hlines h₅
      have hfound := (order?_reserve hr id).trans (if_pos rfl)
      exact ⟨.single rfl (.reserve hr), Option.isSome_iff_exists.mpr ⟨_, hfound⟩, itemsOf_reserve hr⟩
    · refine hok _ plan items w₅ (amount_lines hn hplan hlines) ?_
      have hp := foldl_reserveLog products plan
        (newOrder id req.actor.id req.idempotencyKey createdAt) items .start
      simp only [Local.reserving, Local.call, Local.to, hp] at h₅
      exact h₅

end OrdersBackend
