import OrdersBackend.OrderPolicy

/-!
# The stock rule

What `buildOrderPlan` decides: unknown products come before all else, then the
first product whose stock the lines exceed, and a plan is returned otherwise.
How the lines are ordered or split does not matter for the plan.
-/

namespace OrdersBackend

open Conc

/-- The ids a request names, in the order of their first occurrence. -/
def orderedIds (items : List OrderItemInput) : List Uuid := (items.map (·.productId)).eraseDups

theorem mem_orderedIds {items : List OrderItemInput} {p : Uuid} :
    p ∈ orderedIds items ↔ p ∈ items.map (·.productId) := by
  simp [orderedIds]

/-! ## The keys of the aggregated map -/

theorem keys_foldl_aggregateStep (items : List OrderItemInput) (m : JsMap Uuid Int) :
    (items.foldl aggregateStep m).keys =
      m.keys ++ ((items.map (·.productId)).filter fun p => p ∉ m.keys).eraseDups := by
  induction items generalizing m with
  | nil => simp
  | cons item items ih =>
    rw [List.foldl_cons, ih, aggregateStep, JsMap.keys_set, List.map_cons]
    by_cases hk : item.productId ∈ m.keys
    · simp [hk]
    · rw [if_neg hk, List.filter_cons_of_pos (by simpa using hk), List.eraseDups_cons, List.filter_filter,
        List.append_assoc, List.singleton_append]
      congr 3
      apply List.filter_congr
      intro p _
      by_cases hp : p = item.productId <;> simp [hp]

theorem keys_aggregate (items : List OrderItemInput) :
    (aggregateItemQuantities items).keys = orderedIds items := by
  have h := keys_foldl_aggregateStep items .empty
  simpa [aggregateItemQuantities, JsMap.empty, JsMap.keys, orderedIds] using h

theorem entries_aggregate (items : List OrderItemInput) :
    (aggregateItemQuantities items).entries = (orderedIds items).map fun p => (p, lineSum items p) := by
  rw [← keys_aggregate, JsMap.keys, List.map_map]
  conv_lhs => rw [← List.map_id (aggregateItemQuantities items).entries]
  apply List.map_congr_left
  rintro ⟨p, q⟩ he
  simp [(mem_aggregate.mp he).2]

/-! ## The loop over the stocks -/

/-- The loop returns, or names the first entry whose stock does not suffice. -/
theorem amountLoop_cases {byId : JsMap Uuid Product} {entries : List (Uuid × Int)}
    (hfound : ∀ e ∈ entries, ∃ product, byId.get? e.1 = some product) (acc : Int) :
    (∃ amount, amountLoop byId entries acc = .ok amount) ∨
      ∃ past p q rest product, entries = past ++ (p, q) :: rest ∧ byId.get? p = some product ∧ product.stock < q ∧
        (∀ e ∈ past, ∃ product, byId.get? e.1 = some product ∧ e.2 ≤ product.stock) ∧
        amountLoop byId entries acc =
          .error (.http (conflictError "Insufficient product stock" (.stock p q product.stock))) := by
  induction entries generalizing acc with
  | nil => exact .inl ⟨acc, rfl⟩
  | cons e entries ih =>
    obtain ⟨p, q⟩ := e
    obtain ⟨product, hg⟩ := hfound (p, q) (List.mem_cons_self ..)
    simp only [amountLoop, hg]
    by_cases hs : product.stock < q
    · refine .inr ⟨[], p, q, entries, product, rfl, hg, hs, by simp, by simp [hs]⟩
    · simp only [hs, if_false]
      rcases ih (fun e he => hfound e (List.mem_cons_of_mem _ he)) (acc + (product.price : Int) * q) with
        h | ⟨past, p', q', rest, product', hl, hg', hs', hpast, he⟩
      · exact .inl h
      · refine .inr ⟨(p, q) :: past, p', q', rest, product', by rw [hl]; rfl, hg', hs', ?_, he⟩
        intro e hm
        rcases List.mem_cons.mp hm with rfl | hm
        · exact ⟨product, hg, Int.not_lt.mp hs⟩
        · exact hpast e hm

/-! ## The rule -/

/-- The outcomes of `buildOrderPlan`, each with the case it stands for. -/
inductive StockRule (products : List Product) (items : List OrderItemInput) : Except Err OrderPlan → Prop
  | missing (h : ∃ item ∈ items, item.productId ∉ products.map (·.id)) :
      StockRule products items (.error (.http (notFoundError "Some products not found"
        (.missing ((orderedIds items).filter fun p => p ∉ products.map (·.id))))))
  | insufficient (hknown : ∀ item ∈ items, item.productId ∈ products.map (·.id)) (past : List Uuid) (p : Uuid)
      (rest : List Uuid) (hids : orderedIds items = past ++ p :: rest) (product : Product)
      (hp : product ∈ products)
      (hid : product.id = p) (hstock : product.stock < lineSum items p)
      (hpast : ∀ product ∈ products, product.id ∈ past → lineSum items product.id ≤ product.stock) :
      StockRule products items (.error (.http (conflictError "Insufficient product stock"
        (.stock p (lineSum items p) product.stock))))
  | accepted (plan : OrderPlan) (hfill : Fillable products items)
      (hkeys : plan.quantityByProductId.keys = orderedIds items)
      (hsums : ∀ p ∈ orderedIds items, plan.quantityByProductId.get? p = some (lineSum items p)) :
      StockRule products items (.ok plan)

theorem has_productsById {products : List Product} (hn : (products.map (·.id)).Nodup) (p : Uuid) :
    (productsById products).has p = decide (p ∈ products.map (·.id)) := by
  apply Bool.eq_iff_iff.mpr
  rw [JsMap.has, Option.isSome_iff_exists, decide_eq_true_eq, List.mem_map]
  simp only [get?_productsById hn]

theorem buildOrderPlan_rule {products : List Product} (hn : (products.map (·.id)).Nodup)
    (items : List OrderItemInput) :
    StockRule products items (buildOrderPlan products items) := by
  have hmissing : ((aggregateItemQuantities items).keys.filter fun p => !(productsById products).has p) =
      (orderedIds items).filter fun p => p ∉ products.map (·.id) := by
    rw [keys_aggregate]
    apply List.filter_congr
    intro p _
    rw [has_productsById hn, decide_not]
  by_cases hknown : ∀ item ∈ items, item.productId ∈ products.map (·.id)
  · have hnil : ((orderedIds items).filter fun p => p ∉ products.map (·.id)) = [] := by
      rw [List.filter_eq_nil_iff]
      intro p hp
      obtain ⟨item, hi, rfl⟩ := List.mem_map.mp (mem_orderedIds.mp hp)
      simpa using hknown item hi
    have hfound : ∀ e ∈ (aggregateItemQuantities items).entries,
      ∃ product, (productsById products).get? e.1 = some product := by
      intro e he
      obtain ⟨item, hi, hid⟩ := List.mem_map.mp (mem_aggregate.mp he).1
      obtain ⟨product, hp, hpid⟩ := List.mem_map.mp (hknown item hi)
      exact ⟨product, (get?_productsById hn _ _).mpr ⟨hp, hpid.trans hid⟩⟩
    rcases amountLoop_cases hfound 0 with ⟨amount, ha⟩ | ⟨past, p, q, rest, product, hl, hg, hs, hpast, he⟩
    · have hplan : buildOrderPlan products items = .ok ⟨amount, aggregateItemQuantities items⟩ := by
        unfold buildOrderPlan
        simp only [hmissing, hnil, ne_eq, not_true_eq_false, if_false, ha]
      rw [hplan]
      refine .accepted _ (buildOrderPlan_ok hn hplan).2.2 (keys_aggregate items) fun p hp => ?_
      rw [get?_aggregate, if_pos (mem_orderedIds.mp hp)]
    · have hplan : buildOrderPlan products items =
          .error (.http (conflictError "Insufficient product stock" (.stock p q product.stock))) := by
        unfold buildOrderPlan
        simp only [hmissing, hnil, ne_eq, not_true_eq_false, if_false, he]
      have hq : q = lineSum items p := (mem_aggregate.mp (hl ▸ List.mem_append_right _ (List.mem_cons_self ..))).2
      obtain ⟨hp, hid⟩ := (get?_productsById hn _ _).mp hg
      rw [hplan, hq]
      refine .insufficient hknown (past.map Prod.fst) p (rest.map Prod.fst) ?_ product hp hid (hq ▸ hs) ?_
      · rw [← keys_aggregate, JsMap.keys, hl]
        simp
      · intro product' hp' hmem
        obtain ⟨e, hpe, heid⟩ := List.mem_map.mp hmem
        obtain ⟨product'', hg', hle⟩ := hpast e hpe
        have hsum : e.2 = lineSum items e.1 := (mem_aggregate.mp (hl ▸ List.mem_append_left _ hpe)).2
        rw [(get?_productsById hn e.1 product').mpr ⟨hp', heid.symm⟩] at hg'
        cases hg'
        rw [← heid, ← hsum]
        exact hle
  · have hex : ∃ item ∈ items, item.productId ∉ products.map (·.id) := by
      simpa using hknown
    obtain ⟨item, hi, hnot⟩ := hex
    have hcons : ((orderedIds items).filter fun p => p ∉ products.map (·.id)) ≠ [] := by
      apply List.ne_nil_of_mem (a := item.productId)
      exact List.mem_filter.mpr ⟨mem_orderedIds.mpr (List.mem_map_of_mem hi), by simpa using hnot⟩
    have hplan : buildOrderPlan products items = .error (.http (notFoundError "Some products not found"
        (.missing ((orderedIds items).filter fun p => p ∉ products.map (·.id))))) := by
      unfold buildOrderPlan
      simp only [hmissing, if_pos hcons]
    rw [hplan]
    exact .missing ⟨item, hi, hnot⟩

/-! ## Lines of the same product -/

/-- The lines are reordered, or lines of one product are split or merged. -/
inductive Regroups : List OrderItemInput → List OrderItemInput → Prop
  | perm {items items' : List OrderItemInput} (h : items.Perm items') : Regroups items items'
  | split (p : Uuid) (q q' : Int) (items : List OrderItemInput) :
      Regroups (⟨p, q + q'⟩ :: items) (⟨p, q⟩ :: ⟨p, q'⟩ :: items)
  | symm {items items' : List OrderItemInput} (h : Regroups items items') : Regroups items' items
  | trans {items items' items'' : List OrderItemInput} (h : Regroups items items') (h' : Regroups items' items'') :
      Regroups items items''

/-- What is summed up line by line, and is linear in the quantity, stays. -/
theorem Regroups.sum_eq {items items' : List OrderItemInput} (h : Regroups items items') (f : Uuid → Int) :
    (items.map fun item => f item.productId * item.quantity).sum =
      (items'.map fun item => f item.productId * item.quantity).sum := by
  induction h with
  | perm h => exact (h.map _).sum_eq
  | split p q q' items => simp [Int.mul_add, Int.add_assoc]
  | symm _ ih => exact ih.symm
  | trans _ _ ih ih' => exact ih.trans ih'

theorem lineSum_eq_sum (items : List OrderItemInput) (p : Uuid) :
    lineSum items p = (items.map fun item => (if item.productId = p then 1 else 0) * item.quantity).sum := by
  induction items with
  | nil => rfl
  | cons item items ih =>
    rw [lineSum_cons, List.map_cons, List.sum_cons, ih]
    split <;> simp

theorem Regroups.lineSum {items items' : List OrderItemInput} (h : Regroups items items') (p : Uuid) :
    lineSum items p = lineSum items' p := by
  rw [lineSum_eq_sum, lineSum_eq_sum]
  exact h.sum_eq fun id => if id = p then 1 else 0

theorem mem_ids_iff {items : List OrderItemInput} (hpos : ∀ item ∈ items, 1 ≤ item.quantity) (p : Uuid) :
    p ∈ items.map (·.productId) ↔ 1 ≤ lineSum items p := by
  refine ⟨lineSum_pos hpos, fun h => ?_⟩
  by_contra hp
  rw [lineSum_of_not_mem hp] at h
  omega

theorem Regroups.mem_ids {items items' : List OrderItemInput} (h : Regroups items items')
    (hpos : ∀ item ∈ items, 1 ≤ item.quantity) (hpos' : ∀ item ∈ items', 1 ≤ item.quantity) (p : Uuid) :
    p ∈ items.map (·.productId) ↔ p ∈ items'.map (·.productId) := by
  rw [mem_ids_iff hpos, mem_ids_iff hpos', h.lineSum p]

theorem Regroups.fillable {products : List Product} {items items' : List OrderItemInput}
    (h : Regroups items items')
    (hpos : ∀ item ∈ items, 1 ≤ item.quantity) (hpos' : ∀ item ∈ items', 1 ≤ item.quantity)
    (hfill : Fillable products items) : Fillable products items' := by
  intro item' hi'
  obtain ⟨item, hi, hid⟩ := List.mem_map.mp ((h.mem_ids hpos hpos' item'.productId).mpr (List.mem_map_of_mem hi'))
  obtain ⟨product, hp, hpid, hle⟩ := hfill item hi
  refine ⟨product, hp, hpid.trans hid, ?_⟩
  rw [← h.lineSum, ← hid]
  exact hle

namespace StockRule

variable {products : List Product} {items : List OrderItemInput} {r : Except Err OrderPlan}

theorem known_of_fillable (h : Fillable products items) {item : OrderItemInput} (hi : item ∈ items) :
    item.productId ∈ products.map (·.id) := by
  obtain ⟨product, hp, hid, _⟩ := h item hi
  exact hid ▸ List.mem_map_of_mem hp

theorem notFound_iff (h : StockRule products items r) : (∃ m d, r = .error (.http (notFoundError m d))) ↔
    ∃ item ∈ items, item.productId ∉ products.map (·.id) := by
  cases h with
  | missing h => exact ⟨fun _ => h, fun _ => ⟨_, _, rfl⟩⟩
  | insufficient hknown =>
    constructor
    · rintro ⟨m, d, he⟩
      simp [conflictError, notFoundError] at he
    · rintro ⟨item, hi, hnot⟩
      exact (hnot (hknown item hi)).elim
  | accepted plan hfill =>
    constructor
    · rintro ⟨m, d, he⟩
      cases he
    · rintro ⟨item, hi, hnot⟩
      exact (hnot (known_of_fillable hfill hi)).elim

theorem missing_ids (h : StockRule products items r) {m : String} {d : Details}
    (he : r = .error (.http (notFoundError m d))) :
    d = .missing ((orderedIds items).filter fun p => p ∉ products.map (·.id)) := by
  cases h with
  | missing h =>
    simp only [notFoundError, Except.error.injEq, Err.http.injEq, HttpException.mk.injEq] at he
    exact he.2.2.2.symm
  | insufficient hknown => simp [conflictError, notFoundError] at he
  | accepted plan hfill => cases he

/-- What is in the way of a conflict: an unknown product, or stock for all. -/
theorem conflict_iff (hn : (products.map (·.id)).Nodup) (h : StockRule products items r) :
    (∃ m d, r = .error (.http (conflictError m d))) ↔ (∀ item ∈ items, item.productId ∈ products.map (·.id)) ∧
      ∃ item ∈ items, ∃ product ∈ products, product.id = item.productId ∧
        product.stock < lineSum items product.id := by
  cases h with
  | missing h =>
    obtain ⟨item, hi, hnot⟩ := h
    constructor
    · rintro ⟨m, d, he⟩
      simp [conflictError, notFoundError] at he
    · rintro ⟨hknown, _⟩
      exact (hnot (hknown item hi)).elim
  | insufficient hknown past p rest hids product hp hid hstock hpast =>
    refine ⟨fun _ => ⟨hknown, ?_⟩, fun _ => ⟨_, _, rfl⟩⟩
    have hmem : p ∈ orderedIds items := by simp [hids]
    obtain ⟨item, hi, hpid⟩ := List.mem_map.mp (mem_orderedIds.mp hmem)
    exact ⟨item, hi, product, hp, hid.trans hpid.symm, by rw [hid]; exact hstock⟩
  | accepted plan hfill =>
    constructor
    · rintro ⟨m, d, he⟩
      cases he
    · rintro ⟨_, item, hi, product, hp, hid, hlt⟩
      obtain ⟨product', hp', hid', hle⟩ := hfill item hi
      rw [List.inj_on_of_nodup_map hn hp hp' (hid.trans hid'.symm), hid'] at hlt
      exact absurd hle (Int.not_le.mpr hlt)

theorem first_short (h : StockRule products items r) {m : String} {d : Details}
    (he : r = .error (.http (conflictError m d))) :
    ∃ past p rest, orderedIds items = past ++ p :: rest ∧ ∃ product ∈ products, product.id = p ∧
      product.stock < lineSum items p ∧ d = .stock p (lineSum items p) product.stock ∧
      ∀ product ∈ products, product.id ∈ past → lineSum items product.id ≤ product.stock := by
  cases h with
  | missing h => simp [conflictError, notFoundError] at he
  | insufficient hknown past p rest hids product hp hid hstock hpast =>
    simp only [conflictError, Except.error.injEq, Err.http.injEq, HttpException.mk.injEq] at he
    exact ⟨past, p, rest, hids, product, hp, hid, hstock, he.2.2.2.symm, hpast⟩
  | accepted plan hfill => cases he

theorem sums (h : StockRule products items r) {plan : OrderPlan} (he : r = .ok plan) :
    plan.quantityByProductId.keys = orderedIds items ∧
      ∀ p ∈ orderedIds items, plan.quantityByProductId.get? p = some (lineSum items p) := by
  cases h with
  | missing | insufficient => cases he
  | accepted plan hfill hkeys hsums =>
    cases he
    exact ⟨hkeys, hsums⟩

end StockRule

end OrdersBackend
