import OrdersBackend.Entities
import OrdersBackend.Lib.JsMap
import Mathlib.Algebra.BigOperators.Group.List.Basic
import Mathlib.Algebra.GroupWithZero.Nat
import Mathlib.Algebra.Ring.Int.Defs

/-!
# The order policy

`aggregateItemQuantities` and `buildOrderPlan` of `order-policy.ts`, and what
an accepted plan says about the request's lines.
-/

namespace OrdersBackend

open Conc

structure OrderPlan where
  amountCents : Int
  quantityByProductId : JsMap Uuid Int

def aggregateStep (m : JsMap Uuid Int) (item : OrderItemInput) : JsMap Uuid Int :=
  m.set item.productId ((m.get? item.productId).getD 0 + item.quantity)

def aggregateItemQuantities (items : List OrderItemInput) : JsMap Uuid Int :=
  items.foldl aggregateStep .empty

def productsById (products : List Product) : JsMap Uuid Product :=
  .ofList (products.map fun product => (product.id, product))

/-- The loop of `buildOrderPlan` over the aggregated quantities. -/
def amountLoop (byId : JsMap Uuid Product) : List (Uuid × Int) → Int → Except Err Int
  | [], amountCents => .ok amountCents
  | (productId, quantity) :: rest, amountCents =>
    match byId.get? productId with
    | none => .error (.js "Cannot read properties of undefined (reading 'stock')")
    | some product =>
      if product.stock < quantity then
        .error (.http (conflictError "Insufficient product stock"
          (.stock productId quantity product.stock)))
      else amountLoop byId rest (amountCents + (product.price : Int) * quantity)

def buildOrderPlan (products : List Product) (items : List OrderItemInput) : Except Err OrderPlan :=
  let quantityByProductId := aggregateItemQuantities items
  let byId := productsById products
  let missing := quantityByProductId.keys.filter fun productId => !byId.has productId
  if missing ≠ [] then
    .error (.http (notFoundError "Some products not found" (.missing missing)))
  else
    match amountLoop byId quantityByProductId.entries 0 with
    | .error e => .error e
    | .ok amountCents => .ok ⟨amountCents, quantityByProductId⟩

def lineSum (items : List OrderItemInput) (p : Uuid) : Int :=
  ((items.filter fun item => item.productId = p).map (·.quantity)).sum

/-! ## Aggregation -/

theorem lineSum_cons (item : OrderItemInput) (items : List OrderItemInput) (p : Uuid) :
    lineSum (item :: items) p = (if item.productId = p then item.quantity else 0) + lineSum items p := by
  unfold lineSum
  by_cases h : item.productId = p <;> simp [h]

theorem lineSum_nonneg {items : List OrderItemInput} (h : ∀ item ∈ items, 1 ≤ item.quantity) (p : Uuid) :
    0 ≤ lineSum items p := by
  induction items with
  | nil => exact Int.le_refl 0
  | cons item items ih =>
    rw [lineSum_cons]
    have h₁ := h item (List.mem_cons_self ..)
    have h₂ := ih fun i hi => h i (List.mem_cons_of_mem _ hi)
    split <;> omega

theorem lineSum_pos {items : List OrderItemInput} (h : ∀ item ∈ items, 1 ≤ item.quantity) {p : Uuid}
    (hp : p ∈ items.map (·.productId)) : 1 ≤ lineSum items p := by
  induction items with
  | nil => cases hp
  | cons item items ih =>
    rw [lineSum_cons]
    have h₁ := h item (List.mem_cons_self ..)
    have h₂ := lineSum_nonneg (fun i hi => h i (List.mem_cons_of_mem _ hi)) p
    by_cases hi : item.productId = p
    · rw [if_pos hi]; omega
    · rw [List.map_cons, List.mem_cons] at hp
      have := ih (fun i hi => h i (List.mem_cons_of_mem _ hi)) (hp.resolve_left fun e => hi e.symm)
      rw [if_neg hi]; omega

theorem lineSum_of_not_mem {items : List OrderItemInput} {p : Uuid}
    (hp : p ∉ items.map (·.productId)) : lineSum items p = 0 := by
  induction items with
  | nil => rfl
  | cons item items ih =>
    rw [List.map_cons, List.mem_cons, not_or] at hp
    rw [lineSum_cons, if_neg (Ne.symm hp.1), ih hp.2, Int.add_zero]

/-- The loop has added the lines it passed to what the map held before. -/
theorem get?_foldl_aggregateStep (items : List OrderItemInput) (m : JsMap Uuid Int) (p : Uuid) :
    (items.foldl aggregateStep m).get? p =
      if p ∈ items.map (·.productId) then some ((m.get? p).getD 0 + lineSum items p) else m.get? p := by
  induction items generalizing m with
  | nil => simp
  | cons item items ih =>
    rw [List.foldl_cons, ih, List.map_cons, lineSum_cons]
    by_cases hi : item.productId = p
    · subst hi
      by_cases hp : item.productId ∈ items.map (·.productId)
      · simp [aggregateStep, JsMap.get?_set_self, hp, Int.add_assoc]
      · simp [aggregateStep, JsMap.get?_set_self, hp, lineSum_of_not_mem hp]
    · have hne : p ≠ item.productId := fun h => hi h.symm
      simp only [aggregateStep, JsMap.get?_set_ne m _ hi, List.mem_cons, hne, false_or, hi, if_false,
        Int.zero_add]

theorem get?_aggregate (items : List OrderItemInput) (p : Uuid) :
    (aggregateItemQuantities items).get? p =
      if p ∈ items.map (·.productId) then some (lineSum items p) else none := by
  unfold aggregateItemQuantities
  rw [get?_foldl_aggregateStep, JsMap.get?_empty]
  simp

theorem mem_aggregate {items : List OrderItemInput} {p : Uuid} {q : Int} :
    (p, q) ∈ (aggregateItemQuantities items).entries ↔ p ∈ items.map (·.productId) ∧ q = lineSum items p := by
  rw [← JsMap.get?_eq_some_iff, get?_aggregate]
  by_cases hp : p ∈ items.map (·.productId)
  · simp [hp, eq_comm]
  · simp [hp]

theorem mem_aggregate_keys {items : List OrderItemInput} {p : Uuid} :
    p ∈ (aggregateItemQuantities items).keys ↔ p ∈ items.map (·.productId) := by
  rw [JsMap.mem_keys_iff, get?_aggregate]
  by_cases hp : p ∈ items.map (·.productId) <;> simp [hp]

/-! ## Accepted plans -/

theorem get?_productsById {products : List Product} (hn : (products.map (·.id)).Nodup) (p : Uuid)
    (product : Product) :
    (productsById products).get? p = some product ↔ product ∈ products ∧ product.id = p := by
  have hn' : ((products.map fun product => (product.id, product)).map Prod.fst).Nodup := by
    rw [List.map_map]; exact hn
  unfold productsById
  rw [JsMap.get?_ofList _ hn', List.mem_map]
  constructor
  · rintro ⟨a, ha, he⟩
    obtain ⟨rfl, rfl⟩ := Prod.mk.inj he
    exact ⟨ha, rfl⟩
  · rintro ⟨h, rfl⟩
    exact ⟨product, h, rfl⟩

def amountOf (byId : JsMap Uuid Product) (entries : List (Uuid × Int)) : Int :=
  (entries.map fun e => ((byId.get? e.1).map fun product => (product.price : Int) * e.2).getD 0).sum

def unitPrice (byId : JsMap Uuid Product) (p : Uuid) : Int :=
  ((byId.get? p).map fun product => (product.price : Int)).getD 0

theorem amountOf_cons (byId : JsMap Uuid Product) (e : Uuid × Int) (entries : List (Uuid × Int)) :
    amountOf byId (e :: entries) = unitPrice byId e.1 * e.2 + amountOf byId entries := by
  unfold amountOf unitPrice
  rw [List.map_cons, List.sum_cons]
  cases h : byId.get? e.1 <;> simp

theorem amountOf_setEntries (byId : JsMap Uuid Product) (k : Uuid) (q : Int) (l : List (Uuid × Int)) :
    amountOf byId (JsMap.setEntries k ((((l.find? fun e => e.1 = k).map Prod.snd).getD 0) + q) l) =
      amountOf byId l + unitPrice byId k * q := by
  induction l with
  | nil =>
    have hnil : amountOf byId [] = 0 := rfl
    simp [JsMap.setEntries, amountOf_cons, hnil]
  | cons e l ih =>
    by_cases he : e.1 = k
    · simp only [JsMap.setEntries, he, if_true, List.find?_cons, decide_true, Option.map_some, Option.getD_some,
        amountOf_cons, Int.mul_add]
      omega
    · simp only [JsMap.setEntries, he, if_false, List.find?_cons, decide_false, amountOf_cons, ih]
      omega

theorem amountOf_aggregate (byId : JsMap Uuid Product) (items : List OrderItemInput) :
    amountOf byId (aggregateItemQuantities items).entries =
      (items.map fun item => unitPrice byId item.productId * item.quantity).sum := by
  have gen : ∀ (items : List OrderItemInput) (m : JsMap Uuid Int),
      amountOf byId (items.foldl aggregateStep m).entries =
        amountOf byId m.entries + (items.map fun item => unitPrice byId item.productId * item.quantity).sum := by
    intro items
    induction items with
    | nil => simp
    | cons item items ih =>
      intro m
      have hset := amountOf_setEntries byId item.productId item.quantity m.entries
      rw [List.foldl_cons, ih]
      simp only [aggregateStep, JsMap.set, JsMap.get?, hset, List.map_cons, List.sum_cons]
      omega
  simpa [aggregateItemQuantities, amountOf, JsMap.empty] using gen items .empty

theorem amountLoop_ok {byId : JsMap Uuid Product} {entries : List (Uuid × Int)} {acc amount : Int}
    (h : amountLoop byId entries acc = .ok amount) :
    amount = acc + amountOf byId entries ∧
      ∀ p q, (p, q) ∈ entries → ∃ product, byId.get? p = some product ∧ q ≤ product.stock := by
  induction entries generalizing acc with
  | nil =>
    cases h
    exact ⟨by simp [amountOf], fun _ _ h => by cases h⟩
  | cons e entries ih =>
    obtain ⟨productId, quantity⟩ := e
    unfold amountLoop at h
    split at h
    · cases h
    · rename_i product hg
      split at h
      · cases h
      · rename_i hs
        obtain ⟨h₁, h₂⟩ := ih h
        refine ⟨?_, fun p q hm => ?_⟩
        · rw [h₁]; simp [amountOf, hg, Int.add_assoc]
        · rcases List.mem_cons.mp hm with he | hm
          · obtain ⟨rfl, rfl⟩ := Prod.mk.inj he
            exact ⟨product, hg, Int.not_lt.mp hs⟩
          · exact h₂ p q hm

theorem amountLoop_of_stock (byId : JsMap Uuid Product) (entries : List (Uuid × Int)) (acc : Int)
    (h : ∀ p q, (p, q) ∈ entries → ∃ product, byId.get? p = some product ∧ q ≤ product.stock) :
    ∃ amount, amountLoop byId entries acc = .ok amount := by
  induction entries generalizing acc with
  | nil => exact ⟨acc, rfl⟩
  | cons e entries ih =>
    obtain ⟨productId, quantity⟩ := e
    obtain ⟨product, hg, hs⟩ := h productId quantity (List.mem_cons_self ..)
    obtain ⟨amount, ha⟩ := ih (acc + (product.price : Int) * quantity)
      fun p q hm => h p q (List.mem_cons_of_mem _ hm)
    refine ⟨amount, ?_⟩
    unfold amountLoop
    rw [hg]
    simp only [Int.not_lt.mpr hs, if_false]
    exact ha

theorem missing_eq_nil_iff {products : List Product} (hn : (products.map (·.id)).Nodup)
    (items : List OrderItemInput) :
    ((aggregateItemQuantities items).keys.filter fun p => !(productsById products).has p) = [] ↔
      ∀ item ∈ items, ∃ product ∈ products, product.id = item.productId := by
  rw [List.filter_eq_nil_iff]
  constructor
  · intro h item hi
    have hk : item.productId ∈ (aggregateItemQuantities items).keys :=
      mem_aggregate_keys.mpr (List.mem_map_of_mem hi)
    have hh := h _ hk
    simp only [Bool.not_eq_true', Bool.not_eq_false, JsMap.has] at hh
    obtain ⟨product, hp⟩ := Option.isSome_iff_exists.mp hh
    exact ⟨product, (get?_productsById hn _ _).mp hp⟩
  · intro h p hk
    obtain ⟨item, hi, rfl⟩ := List.mem_map.mp (mem_aggregate_keys.mp hk)
    obtain ⟨product, hp⟩ := h item hi
    have := (get?_productsById hn _ product).mpr hp
    simp [JsMap.has, this]

/-- The request can be filled from `products`. -/
def Fillable (products : List Product) (items : List OrderItemInput) : Prop :=
  ∀ item ∈ items, ∃ product ∈ products, product.id = item.productId ∧
    lineSum items item.productId ≤ product.stock

theorem buildOrderPlan_ok {products : List Product} {items : List OrderItemInput} {plan : OrderPlan}
    (hn : (products.map (·.id)).Nodup) (h : buildOrderPlan products items = .ok plan) :
    plan.quantityByProductId = aggregateItemQuantities items ∧
      plan.amountCents = amountOf (productsById products) plan.quantityByProductId.entries ∧
      Fillable products items := by
  unfold buildOrderPlan at h
  simp only at h
  split at h
  · cases h
  · split at h
    · cases h
    · rename_i amount ha
      cases h
      obtain ⟨h₁, h₂⟩ := amountLoop_ok ha
      refine ⟨rfl, by simpa using h₁, fun item hi => ?_⟩
      obtain ⟨product, hg, hs⟩ := h₂ item.productId (lineSum items item.productId)
        (mem_aggregate.mpr ⟨List.mem_map_of_mem hi, rfl⟩)
      obtain ⟨hm, he⟩ := (get?_productsById hn _ _).mp hg
      exact ⟨product, hm, he, hs⟩

theorem buildOrderPlan_ok_iff {products : List Product} {items : List OrderItemInput}
    (hn : (products.map (·.id)).Nodup) :
    (∃ plan, buildOrderPlan products items = .ok plan) ↔ Fillable products items := by
  constructor
  · rintro ⟨plan, h⟩
    exact (buildOrderPlan_ok hn h).2.2
  · intro h
    have hm := (missing_eq_nil_iff hn items).mpr fun item hi => by
      obtain ⟨product, hp, he, _⟩ := h item hi
      exact ⟨product, hp, he⟩
    obtain ⟨amount, ha⟩ := amountLoop_of_stock (productsById products)
      (aggregateItemQuantities items).entries 0 fun p q hpq => by
        obtain ⟨hp, rfl⟩ := mem_aggregate.mp hpq
        obtain ⟨item, hi, rfl⟩ := List.mem_map.mp hp
        obtain ⟨product, hprod, he, hs⟩ := h item hi
        exact ⟨product, (get?_productsById hn _ _).mpr ⟨hprod, he⟩, hs⟩
    refine ⟨⟨amount, aggregateItemQuantities items⟩, ?_⟩
    unfold buildOrderPlan
    simp only [hm, ne_eq, not_true_eq_false, if_false, ha]

end OrdersBackend
