import OrdersBackend.StockRule
import Mathlib.Algebra.Order.BigOperators.Group.List

/-!
# The range of an amount

The only bound on a request is the stock, so the amounts a catalogue admits go
up to what its whole stock costs. The columns admit more than a double counts
exactly, and more than the `int64` of `AuthorizeRequest.amount_cents`.
-/

namespace OrdersBackend

open Conc

/-- What `price numeric(10,2)` and `stock int` admit. -/
def Columns (products : List Product) : Prop :=
  ∀ p ∈ products, p.price ≤ 9999999999 ∧ 0 ≤ p.stock ∧ p.stock ≤ 2147483647

/-- `Number.MAX_SAFE_INTEGER`. -/
def maxSafeInteger : Int := 2 ^ 53 - 1

def maxInt64 : Int := 2 ^ 63 - 1

def stockValue (products : List Product) : Int := (products.map fun p => (p.price : Int) * p.stock).sum

theorem nodup_orderedIds (items : List OrderItemInput) : (orderedIds items).Nodup := by
  rw [← keys_aggregate]
  exact (aggregateItemQuantities items).nodup

/-- The products are of this catalogue, and their stock is no more than its. -/
def Within (products catalogue : List Product) : Prop :=
  ∀ product ∈ products, ∃ p ∈ catalogue, p.id = product.id ∧ p.price = product.price ∧ product.stock ≤ p.stock

theorem Within.refl (products : List Product) : Within products products :=
  fun product hp => ⟨product, hp, rfl, rfl, Int.le_refl _⟩

theorem amount_le_stockValue {products catalogue : List Product} {items : List OrderItemInput} {plan : OrderPlan}
    (hn : (products.map (·.id)).Nodup) (hc : (catalogue.map (·.id)).Nodup) (hnonneg : ∀ p ∈ catalogue, 0 ≤ p.stock)
    (hwithin : Within products catalogue) (hplan : buildOrderPlan products items = .ok plan) :
    plan.amountCents ≤ stockValue catalogue := by
  obtain ⟨hq, hamount, hfill⟩ := buildOrderPlan_ok hn hplan
  -- the worth of the stock of the product with this id
  let worth (p : Uuid) : Int := (((productsById catalogue).get? p).map fun x => (x.price : Int) * x.stock).getD 0
  have hworth : ∀ p ∈ catalogue, worth p.id = p.price * p.stock := by
    intro p hp
    simp [worth, (get?_productsById hc p.id p).mpr ⟨hp, rfl⟩]
  have hle : plan.amountCents ≤ ((orderedIds items).map worth).sum := by
    rw [hamount, hq, amountOf, entries_aggregate, List.map_map]
    apply List.sum_le_sum
    intro p hp
    obtain ⟨item, hi, rfl⟩ := List.mem_map.mp (mem_orderedIds.mp hp)
    obtain ⟨product, hprod, hid, hstock⟩ := hfill item hi
    obtain ⟨q, hqc, hqid, hprice, hqstock⟩ := hwithin product hprod
    have hg := (get?_productsById hn item.productId product).mpr ⟨hprod, hid⟩
    have hw : worth item.productId = product.price * q.stock := by
      rw [← hid, ← hqid, hworth q hqc, hprice]
    simp only [Function.comp, hg, Option.map_some, Option.getD_some, hw]
    exact Int.mul_le_mul_of_nonneg_left (Int.le_trans hstock hqstock) (Int.natCast_nonneg _)
  have hsubset : orderedIds items ⊆ catalogue.map (·.id) := by
    intro p hp
    obtain ⟨item, hi, rfl⟩ := List.mem_map.mp (mem_orderedIds.mp hp)
    obtain ⟨product, hprod, hid, _⟩ := hfill item hi
    obtain ⟨q, hqc, hqid, _⟩ := hwithin product hprod
    exact List.mem_map.mpr ⟨q, hqc, hqid.trans hid⟩
  obtain ⟨ids, hperm, hsub⟩ := List.subperm_of_subset (nodup_orderedIds items) hsubset
  calc plan.amountCents ≤ ((orderedIds items).map worth).sum := hle
    _ = (ids.map worth).sum := ((hperm.map worth).sum_eq).symm
    _ ≤ ((catalogue.map (·.id)).map worth).sum := by
      apply (hsub.map worth).sum_le_sum
      intro a ha
      rw [List.map_map] at ha
      obtain ⟨p, hp, rfl⟩ := List.mem_map.mp ha
      simp only [Function.comp, hworth p hp]
      exact Int.mul_nonneg (Int.natCast_nonneg _) (hnonneg p hp)
    _ = stockValue catalogue := by
      rw [List.map_map, stockValue]
      exact congrArg List.sum (List.map_congr_left hworth)

/-! ## The order of the whole stock -/

/-- A line for all there is of each product. -/
def wholeStock (products : List Product) : List OrderItemInput :=
  (products.filter fun p => 1 ≤ p.stock).map fun p => ⟨p.id, p.stock⟩

theorem lineSum_of_nodup {items : List OrderItemInput} (hn : (items.map (·.productId)).Nodup)
    {item : OrderItemInput}
    (hi : item ∈ items) : lineSum items item.productId = item.quantity := by
  induction items with
  | nil => cases hi
  | cons item' items ih =>
    rw [List.map_cons, List.nodup_cons] at hn
    rw [lineSum_cons]
    rcases List.mem_cons.mp hi with rfl | hi
    · rw [if_pos rfl, lineSum_of_not_mem hn.1, Int.add_zero]
    · have hne : item'.productId ≠ item.productId := fun he => hn.1 (he ▸ List.mem_map_of_mem hi)
      rw [if_neg hne, ih hn.2 hi, Int.zero_add]

theorem wholeStock_positive (products : List Product) : ∀ item ∈ wholeStock products, 1 ≤ item.quantity := by
  intro item hi
  obtain ⟨p, hp, rfl⟩ := List.mem_map.mp hi
  simpa using (List.mem_filter.mp hp).2

theorem wholeStock_plan {products : List Product} (hn : (products.map (·.id)).Nodup)
    (hnonneg : ∀ p ∈ products, 0 ≤ p.stock) :
    ∃ plan, buildOrderPlan products (wholeStock products) = .ok plan ∧ plan.amountCents = stockValue products := by
  have hids : ((wholeStock products).map (·.productId)).Nodup := by
    rw [wholeStock, List.map_map]
    exact hn.sublist (List.filter_sublist.map _)
  have hfill : Fillable products (wholeStock products) := by
    intro item hi
    obtain ⟨p, hp, rfl⟩ := List.mem_map.mp hi
    exact ⟨p, (List.mem_filter.mp hp).1, rfl, Int.le_of_eq (lineSum_of_nodup hids hi)⟩
  obtain ⟨plan, hplan⟩ := (buildOrderPlan_ok_iff hn).mpr hfill
  refine ⟨plan, hplan, ?_⟩
  obtain ⟨hq, hamount, _⟩ := buildOrderPlan_ok hn hplan
  rw [hamount, hq, amountOf_aggregate, wholeStock, List.map_map, stockValue]
  have hprice : ∀ p ∈ products, unitPrice (productsById products) p.id = p.price := by
    intro p hp
    simp [unitPrice, (get?_productsById hn p.id p).mpr ⟨hp, rfl⟩]
  -- what is sold out costs nothing
  have hgen : ∀ ps : List Product, (∀ p ∈ ps, p ∈ products) →
      ((ps.filter fun p => 1 ≤ p.stock).map fun p => unitPrice (productsById products) p.id * p.stock).sum =
        (ps.map fun p => (p.price : Int) * p.stock).sum := by
    intro ps hps
    induction ps with
    | nil => rfl
    | cons p ps ih =>
      have hp := hps p (List.mem_cons_self ..)
      have ih := ih fun q hq => hps q (List.mem_cons_of_mem _ hq)
      by_cases hs : 1 ≤ p.stock
      · simp [hs, hprice p hp, ih]
      · have hzero : p.stock = 0 := by
          have := hnonneg p hp
          omega
        simp [hzero, ih]
  exact hgen products fun p hp => hp

/-! ## The range -/

theorem amount_in_range_iff {products : List Product} (hn : (products.map (·.id)).Nodup) (hc : Columns products) :
    (∀ items plan, (∀ item ∈ items, 1 ≤ item.quantity) → buildOrderPlan products items = .ok plan →
      plan.amountCents ≤ maxSafeInteger ∧ plan.amountCents ≤ maxInt64) ↔ stockValue products ≤ maxSafeInteger := by
  have hnonneg : ∀ p ∈ products, 0 ≤ p.stock := fun p hp => (hc p hp).2.1
  constructor
  · intro h
    obtain ⟨plan, hplan, hamount⟩ := wholeStock_plan hn hnonneg
    rw [← hamount]
    exact (h _ plan (wholeStock_positive products) hplan).1
  · intro h items plan _ hplan
    have hle := Int.le_trans (amount_le_stockValue hn hn hnonneg (.refl products) hplan) h
    refine ⟨hle, Int.le_trans hle ?_⟩
    decide

theorem amount_in_range_mug :
    ∃ plan, buildOrderPlan [⟨0, "Mug", 500, 3, none⟩] [⟨0, 2⟩] = .ok plan ∧ plan.amountCents ≤ maxSafeInteger :=
  ⟨_, rfl, ((@amount_in_range_iff [⟨0, "Mug", 500, 3, none⟩] (by decide) (by simp [Columns])).mpr
    (by decide) [⟨0, 2⟩] _ (by decide) rfl).1⟩

/-- The dearest price, the largest stock, and one line for all of it. -/
theorem amount_out_of_range :
    let products : List Product := [⟨0, "Ring", 9999999999, 2147483647, none⟩]
    Columns products ∧ ∃ plan, buildOrderPlan products [⟨0, 2147483647⟩] = .ok plan ∧
      maxSafeInteger < plan.amountCents ∧ maxInt64 < plan.amountCents :=
  ⟨by simp [Columns], _, rfl, by decide, by decide⟩

end OrdersBackend
