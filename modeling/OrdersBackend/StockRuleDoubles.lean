import OrdersBackend.OrderPolicyDoubles

/-!
# The stock rule in doubles

Which orders are refused, and why, does not depend on rounding, and neither do
the quantities of a plan. The sum that is reported, and the amount, do: beyond
`2 ^ 53` they depend on how the lines are split and ordered.
-/

namespace OrdersBackend

open Conc Binary64

namespace Doubles

variable {products : List Product} {items items' : List OrderItemInput}

/-! ## The rule -/

/-- What the stock rule says of an outcome, but for the sum it reports. -/
structure Decides (products : List Product) (items : List OrderItemInput) (r : Except Refusal OrderPlan) : Prop where
  notFound : (∃ ids, r = .error (.notFound ids)) ↔ ∃ item ∈ items, item.productId ∉ products.map (·.id)
  missing : ∀ ids, r = .error (.notFound ids) → ids = (orderedIds items).filter fun p => p ∉ products.map (·.id)
  conflict : (∃ p a b, r = .error (.conflict p a b)) ↔ (∀ item ∈ items, item.productId ∈ products.map (·.id)) ∧
    ∃ item ∈ items, ∃ product ∈ products, product.id = item.productId ∧ product.stock < lineSum items product.id
  first : ∀ p a b, r = .error (.conflict p a b) → ∃ past rest, orderedIds items = past ++ p :: rest ∧
    ∃ product ∈ products, product.id = p ∧ product.stock < lineSum items p ∧ b.Is product.stock ∧
      ∀ product ∈ products, product.id ∈ past → lineSum items product.id ≤ product.stock
  ok : (∃ plan, r = .ok plan) ↔ Fillable products items
  sums : ∀ plan, r = .ok plan → plan.quantityByProductId.keys = orderedIds items ∧
    ∀ p ∈ orderedIds items, ∃ a, plan.quantityByProductId.get? p = some a ∧ a.Is (lineSum items p)

/-- `requested` is the sum of the product's lines. -/
def Reports (items : List OrderItemInput) (r : Except Refusal OrderPlan) : Prop :=
  ∀ p a b, r = .error (.conflict p a b) → a.Is (lineSum items p)

theorem get?_of_rounded {m : JsMap Uuid Int} {m' : JsMap Uuid Number}
    (h : JsMap.Rel (fun n a => a = .round n) m m') (p : Uuid) :
    m'.get? p = (m.get? p).map fun n => .round n := by
  have hrel := h.get? p
  generalize m.get? p = o at hrel ⊢
  generalize m'.get? p = o' at hrel ⊢
  cases hrel with
  | some h => rw [h, Option.map_some]
  | none => rfl

theorem lineSum_le_of_fillable (hcol : Columns products) (h : Fillable products items) {p : Uuid}
    (hp : p ∈ items.map (·.productId)) : lineSum items p ≤ 2147483647 := by
  obtain ⟨item, hi, rfl⟩ := List.mem_map.mp hp
  obtain ⟨product, hprod, _, hle⟩ := h item hi
  exact hle.trans (hcol product hprod).2.2

theorem buildOrderPlan_rule (hn : (products.map (·.id)).Nodup) (hcol : Columns products)
    (hpos : ∀ item ∈ items, 1 ≤ item.quantity) : Decides products items (buildOrderPlan products items) := by
  have hagrees := buildOrderPlan_agrees hn hcol hpos
  have hrule := OrdersBackend.buildOrderPlan_rule hn items
  have hnotFound := hrule.notFound_iff
  have hconflict := hrule.conflict_iff hn
  have hok : (∃ plan, OrdersBackend.buildOrderPlan products items = .ok plan) ↔ Fillable products items :=
    buildOrderPlan_ok_iff hn
  generalize OrdersBackend.buildOrderPlan products items = r at hagrees hrule hnotFound hconflict hok
  generalize buildOrderPlan products items = r' at hagrees ⊢
  cases hagrees with
  | notFound ids =>
    refine ⟨⟨fun _ => hnotFound.mp ⟨_, _, rfl⟩, fun _ => ⟨ids, rfl⟩⟩, fun ids' he => ?_,
      ⟨by simp, fun h => ?_⟩, by simp, ⟨by simp, fun h => ?_⟩, by simp⟩
    · cases he
      exact Details.missing.inj (hrule.missing_ids rfl)
    · obtain ⟨m, d, he⟩ := hconflict.mpr h
      simp [notFoundError, conflictError] at he
    · obtain ⟨plan, he⟩ := hok.mpr h
      cases he
  | conflict p n s a hp hcounts =>
    refine ⟨⟨by simp, fun h => ?_⟩, by simp, ⟨fun _ => hconflict.mp ⟨_, _, rfl⟩, fun _ => ⟨p, a, _, rfl⟩⟩,
      fun p' a' b' he => ?_, ⟨by simp, fun h => ?_⟩, by simp⟩
    · obtain ⟨m, d, he⟩ := hnotFound.mpr h
      simp [notFoundError, conflictError] at he
    · cases he
      obtain ⟨past, p', rest, hids, product, hprod, hid, hlt, hd, hpast⟩ := hrule.first_short rfl
      obtain ⟨rfl, rfl, rfl⟩ := Details.stock.inj hd
      obtain ⟨_, hstock, hstock'⟩ := hcol product hprod
      exact ⟨past, rest, hids, product, hprod, hid, hlt,
        Number.is_round (abs_le_of_nonneg hstock (by omega)), hpast⟩
    · obtain ⟨plan, he⟩ := hok.mpr h
      cases he
  | undefined message => cases hrule
  | ok plan plan' _ hquantities =>
    refine ⟨⟨by simp, fun h => ?_⟩, by simp, ⟨by simp, fun h => ?_⟩, by simp,
      ⟨fun _ => hok.mp ⟨plan, rfl⟩, fun _ => ⟨plan', rfl⟩⟩, fun plan'' he => ?_⟩
    · obtain ⟨m, d, he⟩ := hnotFound.mpr h
      cases he
    · obtain ⟨m, d, he⟩ := hconflict.mpr h
      cases he
    · cases he
      obtain ⟨hkeys, hsums⟩ := hrule.sums rfl
      refine ⟨hquantities.keys_eq ▸ hkeys, fun p hp => ⟨.round (lineSum items p), ?_, Number.is_round ?_⟩⟩
      · rw [get?_of_rounded hquantities, hsums p hp, Option.map_some]
      · have hle := lineSum_le_of_fillable hcol (hok.mp ⟨plan, rfl⟩) (mem_orderedIds.mp hp)
        exact abs_le_of_nonneg (lineSum_nonneg hpos p) (by omega)

/-! ## Lines of the same product -/

section
variable (hn : (products.map (·.id)).Nodup) (hcol : Columns products) (hpos : ∀ item ∈ items, 1 ≤ item.quantity)
variable (h : Regroups items items') (hpos' : ∀ item ∈ items', 1 ≤ item.quantity)
include hn hcol hpos h hpos'

end

/-! ## The sum that is reported -/

/-- What is asked for beyond the stock is counted exactly. -/
def Countable (products : List Product) (items : List OrderItemInput) : Prop :=
  (∀ item ∈ items, item.productId ∈ products.map (·.id)) →
    ∀ product ∈ products, product.stock < lineSum items product.id → lineSum items product.id ≤ 2 ^ 53

theorem Countable.reports (hcount : Countable products items) (hn : (products.map (·.id)).Nodup)
    (hcol : Columns products) (hpos : ∀ item ∈ items, 1 ≤ item.quantity) :
    Reports items (buildOrderPlan products items) := by
  have hagrees := buildOrderPlan_agrees hn hcol hpos
  have hrule := OrdersBackend.buildOrderPlan_rule hn items
  have hconflict := hrule.conflict_iff hn
  generalize OrdersBackend.buildOrderPlan products items = r at hagrees hrule hconflict
  generalize buildOrderPlan products items = r' at hagrees ⊢
  intro p a b he
  cases hagrees with
  | conflict p n s a hp hcounts =>
    cases he
    obtain ⟨past, p', rest, _, product, hprod, hid, hlt, hd, _⟩ := hrule.first_short rfl
    obtain ⟨rfl, rfl, rfl⟩ := Details.stock.inj hd
    have hle := hcount (hconflict.mp ⟨_, _, rfl⟩).1 product hprod (by rw [hid]; exact hlt)
    rw [hid] at hle
    rw [hcounts.2.exact hle]
    exact Number.is_round (abs_le_of_nonneg hcounts.1 hle)
  | _ => cases he

def linesValue (products : List Product) (items : List OrderItemInput) : Int :=
  (items.map fun item => unitPrice (productsById products) item.productId * item.quantity).sum

/-- The outcome in doubles has the numbers of the exact one. -/
inductive Exactly : Except Err OrdersBackend.OrderPlan → Except Refusal OrderPlan → Prop
  | notFound (missing : List Uuid) : Exactly
      (.error (.http (notFoundError "Some products not found" (.missing missing)))) (.error (.notFound missing))
  | conflict (p : Uuid) (n s : Int) (a b : Number) (hn : a.Is n) (hs : b.Is s) : Exactly
      (.error (.http (conflictError "Insufficient product stock" (.stock p n s)))) (.error (.conflict p a b))
  | ok (plan : OrdersBackend.OrderPlan) (plan' : OrderPlan) (hamount : plan'.amountCents.Is plan.amountCents)
      (hkeys : plan.quantityByProductId.keys = plan'.quantityByProductId.keys)
      (hquantities : ∀ p n, plan.quantityByProductId.get? p = some n →
        ∃ a, plan'.quantityByProductId.get? p = some a ∧ a.Is n) : Exactly (.ok plan) (.ok plan')

theorem linesValue_nonneg (hpos : ∀ item ∈ items, 1 ≤ item.quantity) : 0 ≤ linesValue products items := by
  refine List.sum_nonneg fun n hn => ?_
  obtain ⟨item, hi, rfl⟩ := List.mem_map.mp hn
  have hprice : 0 ≤ unitPrice (productsById products) item.productId := by
    unfold unitPrice
    cases (productsById products).get? item.productId with
    | none => exact Int.le_refl 0
    | some product => exact Int.natCast_nonneg _
  exact Int.mul_nonneg hprice (Int.le_trans (by decide) (hpos item hi))

/-- Where the lines and the whole stock count exactly, so does the policy. -/
theorem buildOrderPlan_exactly (hn : (products.map (·.id)).Nodup) (hcol : Columns products)
    (hpos : ∀ item ∈ items, 1 ≤ item.quantity) (hcount : Countable products items)
    (hvalue : ∀ plan, OrdersBackend.buildOrderPlan products items = .ok plan → plan.amountCents ≤ 2 ^ 53) :
    Exactly (OrdersBackend.buildOrderPlan products items) (buildOrderPlan products items) := by
  have hagrees := buildOrderPlan_agrees hn hcol hpos
  have hrule := OrdersBackend.buildOrderPlan_rule hn items
  have hdecides := buildOrderPlan_rule hn hcol hpos
  have hreports := hcount.reports hn hcol hpos
  have hamount : ∀ plan, OrdersBackend.buildOrderPlan products items = .ok plan → 0 ≤ plan.amountCents := by
    intro plan hplan
    obtain ⟨hq, hamount, _⟩ := buildOrderPlan_ok hn hplan
    rw [hamount, hq, amountOf_aggregate]
    exact linesValue_nonneg hpos
  generalize OrdersBackend.buildOrderPlan products items = r at hagrees hrule hvalue hamount ⊢
  generalize buildOrderPlan products items = r' at hagrees hdecides hreports ⊢
  cases hagrees with
  | notFound missing => exact .notFound missing
  | conflict p n s a hp hcounts =>
    obtain ⟨_, p', _, _, product, hprod, _, _, hd, _⟩ := hrule.first_short rfl
    obtain ⟨rfl, rfl, rfl⟩ := Details.stock.inj hd
    obtain ⟨_, hstock, hstock'⟩ := hcol product hprod
    exact .conflict p _ _ a _ (hreports p a _ rfl) (Number.is_round (abs_le_of_nonneg hstock (by omega)))
  | undefined message => cases hrule
  | ok plan plan' hexact hquantities =>
    have hle := hvalue plan rfl
    refine .ok plan plan' ?_ hquantities.keys_eq fun p n hp => ?_
    · rw [hexact hle]
      exact Number.is_round (abs_le_of_nonneg (hamount plan rfl) hle)
    · obtain ⟨hkeys, hsums⟩ := hrule.sums rfl
      have hmem : p ∈ orderedIds items := by
        rw [← hkeys, JsMap.mem_keys_iff, hp]
        rfl
      obtain rfl := Option.some.inj ((hsums p hmem).symm.trans hp)
      exact (hdecides.sums plan' rfl).2 p hmem

/-! ## The decision -/

end Doubles

end OrdersBackend
