import OrdersBackend.AmountRange
import OrdersBackend.Lib.Integers

/-!
# The order policy in doubles

`order-policy.ts` counts in doubles. These are its functions again, with the
numbers it has; they decide as the exact ones do, and count as these do as long
as no sum exceeds `2 ^ 53`.
-/

namespace OrdersBackend

open Conc Binary64

namespace Doubles

structure OrderPlan where
  amountCents : Number
  quantityByProductId : JsMap Uuid Number

/-- What `buildOrderPlan` throws, with the details of the error. -/
inductive Refusal where
  | notFound (missing : List Uuid)
  | conflict (productId : Uuid) (requested available : Number)
  | js (message : String)
  deriving DecidableEq, Repr

def aggregateStep (m : JsMap Uuid Number) (item : OrderItemInput) : JsMap Uuid Number :=
  m.set item.productId (((m.get? item.productId).getD 0).add (.round item.quantity))

def aggregateItemQuantities (items : List OrderItemInput) : JsMap Uuid Number :=
  items.foldl aggregateStep .empty

/-- `Math.round(Number(product.price) * 100)`; the column holds `price` cents. -/
def unitCents (product : Product) : Number := ((Number.round (product.price / 100)).mul 100).mathRound

def amountLoop (byId : JsMap Uuid Product) : List (Uuid × Number) → Number → Except Refusal Number
  | [], amountCents => .ok amountCents
  | (productId, quantity) :: rest, amountCents =>
    match byId.get? productId with
    | none => .error (.js "Cannot read properties of undefined (reading 'stock')")
    | some product =>
      if (Number.round product.stock).lt quantity then
        .error (.conflict productId quantity (.round product.stock))
      else amountLoop byId rest (amountCents.add ((unitCents product).mul quantity))

def buildOrderPlan (products : List Product) (items : List OrderItemInput) : Except Refusal OrderPlan :=
  let quantityByProductId := aggregateItemQuantities items
  let byId := productsById products
  let missing := quantityByProductId.keys.filter fun productId => !byId.has productId
  if missing ≠ [] then .error (.notFound missing)
  else
    match amountLoop byId quantityByProductId.entries 0 with
    | .error e => .error e
    | .ok amountCents => .ok ⟨amountCents, quantityByProductId⟩

/-! ## Prices and quantities -/

/-- A price of the column is converted to its cents. -/
theorem unitCents_eq {product : Product} (h : product.price ≤ 9999999999) :
    unitCents product = .round (product.price : ℤ) := by
  have hprice : (product.price : ℚ) ≤ 9999999999 := by exact_mod_cast h
  have hnonneg : (0 : ℚ) ≤ product.price := Nat.cast_nonneg _
  obtain ⟨d, hd, hclose⟩ := Number.exists_round (q := product.price / 100) (k := 27) (by norm_num) (by norm_num)
    (by rw [abs_of_nonneg (by linarith)]; norm_num; linarith)
  norm_num at hclose
  obtain ⟨hlow, hhigh⟩ := abs_le.mp hclose
  obtain ⟨d', hd', hclose'⟩ := Number.exists_round (q := d.val * 100) (k := 34) (by norm_num) (by norm_num)
    (by rw [abs_lt]; norm_num; constructor <;> linarith)
  norm_num at hclose'
  obtain ⟨hlow', hhigh'⟩ := abs_le.mp hclose'
  have hmul : (Number.round (product.price / 100)).mul 100 = .fin d' := by
    rw [hd]
    exact hd'
  rw [unitCents, hmul]
  refine Number.mathRound_eq ?_
  push_cast
  rw [abs_lt]
  constructor <;> linarith

/-- The quantity of a product, and what stands for it. -/
def Counts (n : Int) (a : Number) : Prop := 0 ≤ n ∧ a.Tracks n

theorem counts_zero : Counts 0 0 := ⟨Int.le_refl 0, Number.tracks_zero⟩

theorem counts_aggregate {items : List OrderItemInput} (hpos : ∀ item ∈ items, 1 ≤ item.quantity) :
    JsMap.Rel Counts (OrdersBackend.aggregateItemQuantities items) (aggregateItemQuantities items) := by
  have gen : ∀ (items : List OrderItemInput) (m : JsMap Uuid Int) (m' : JsMap Uuid Number),
      (∀ item ∈ items, 1 ≤ item.quantity) → JsMap.Rel Counts m m' →
        JsMap.Rel Counts (items.foldl OrdersBackend.aggregateStep m) (items.foldl aggregateStep m') := by
    intro items
    induction items with
    | nil => exact fun _ _ _ h => h
    | cons item items ih =>
      intro m m' hpos h
      refine ih _ _ (fun i hi => hpos i (List.mem_cons_of_mem _ hi)) (h.set item.productId ?_)
      have hq := hpos item (List.mem_cons_self ..)
      obtain ⟨hnonneg, hold⟩ := h.getD item.productId counts_zero
      exact ⟨by omega, hold.add (Number.tracks_round _) hnonneg (by omega)⟩
  exact gen items .empty .empty hpos .nil

/-! ## Agreement -/

/-- What the loop over the stocks makes of the exact quantities, and of the
doubles that stand for them. -/
inductive LoopsAgree (entries : List (Uuid × Int)) (entries' : List (Uuid × Number)) :
    Except Err Int → Except Refusal Number → Prop
  | conflict (p : Uuid) (n s : Int) (a : Number) (hp : (p, n) ∈ entries) (hp' : (p, a) ∈ entries')
      (hcounts : Counts n a) : LoopsAgree entries entries'
      (.error (.http (conflictError "Insufficient product stock" (.stock p n s)))) (.error (.conflict p a (.round s)))
  | undefined (message : String) : LoopsAgree entries entries' (.error (.js message)) (.error (.js message))
  | ok (n : Int) (a : Number) (hexact : n ≤ 2 ^ 53 → a = .round n)
      (hquantities : List.Forall₂ (fun e e' => e.1 = e'.1 ∧ e'.2 = .round e.2) entries entries') :
      LoopsAgree entries entries' (.ok n) (.ok a)

theorem LoopsAgree.cons {entries : List (Uuid × Int)} {entries' : List (Uuid × Number)} {r : Except Err Int}
    {r' : Except Refusal Number} (h : LoopsAgree entries entries' r r') (p : Uuid) {q : Int} {b : Number}
    (hb : b = .round q) : LoopsAgree ((p, q) :: entries) ((p, b) :: entries') r r' := by
  cases h with
  | conflict p' n s a hp hp' hcounts =>
    exact .conflict p' n s a (List.mem_cons_of_mem _ hp) (List.mem_cons_of_mem _ hp') hcounts
  | undefined message => exact .undefined message
  | ok n a hexact hquantities => exact .ok n a hexact (.cons ⟨rfl, hb⟩ hquantities)

/-- The products a map finds are such as the columns admit. -/
def Found (byId : JsMap Uuid Product) : Prop :=
  ∀ p product, byId.get? p = some product →
    product.price ≤ 9999999999 ∧ 0 ≤ product.stock ∧ product.stock ≤ 2147483647

theorem found_of_columns {products : List Product} (hn : (products.map (·.id)).Nodup) (hcol : Columns products) :
    Found (productsById products) :=
  fun p product hp => hcol product ((get?_productsById hn p product).mp hp).1

/-- The sum so far is exact as long as what comes to it is. -/
theorem amount_step {n q : Int} {a b : Number} {product : Product} (hprice : product.price ≤ 9999999999)
    (hstock : product.stock ≤ 2147483647) (hn : 0 ≤ n) (hq : 0 ≤ q) (hle : q ≤ product.stock) (hb : b = .round q)
    (ha : n ≤ 2 ^ 53 → a = .round n) (hsum : n + product.price * q ≤ 2 ^ 53) :
    a.add ((unitCents product).mul b) = .round (n + product.price * q : Int) := by
  have hpq : 0 ≤ (product.price : Int) * q := Int.mul_nonneg (Int.natCast_nonneg _) hq
  have hprice' : |(product.price : Int)| ≤ 2 ^ 53 := abs_le_of_nonneg (Int.natCast_nonneg _) (by omega)
  rw [unitCents_eq hprice, hb, ha (by omega), Number.round_mul hprice' (abs_le_of_nonneg hq (by omega))]
  exact Number.round_add (abs_le_of_nonneg hn (by omega)) (abs_le_of_nonneg hpq (by omega))

theorem amountLoop_agrees {byId : JsMap Uuid Product} (hfound : Found byId) {entries : List (Uuid × Int)}
    {entries' : List (Uuid × Number)} (h : List.Forall₂ (fun e e' => e.1 = e'.1 ∧ Counts e.2 e'.2) entries entries')
    {n : Int} {a : Number} (hn : 0 ≤ n) (ha : n ≤ 2 ^ 53 → a = .round n) :
    LoopsAgree entries entries' (OrdersBackend.amountLoop byId entries n) (amountLoop byId entries' a) := by
  induction h generalizing n a with
  | nil => exact .ok n a ha .nil
  | @cons e e' l l' he _ ih =>
    obtain ⟨p, q⟩ := e
    obtain ⟨p', b⟩ := e'
    obtain ⟨rfl, hq, htracks⟩ := he
    unfold OrdersBackend.amountLoop amountLoop
    cases hg : byId.get? p with
    | none => exact .undefined _
    | some product =>
      obtain ⟨hprice, hstock, hstock'⟩ := hfound p product hg
      simp only [htracks.lt hq hstock (by omega), decide_eq_true_eq]
      by_cases hlt : product.stock < q
      · rw [if_pos hlt, if_pos hlt]
        exact .conflict p q _ b (List.mem_cons_self ..) (List.mem_cons_self ..) ⟨hq, htracks⟩
      · rw [if_neg hlt, if_neg hlt]
        have hexact : b = .round q := htracks.exact (by omega)
        have hpq : 0 ≤ (product.price : Int) * q := Int.mul_nonneg (Int.natCast_nonneg _) hq
        refine (ih (n := n + product.price * q) (a := a.add ((unitCents product).mul b)) (by omega) ?_).cons p hexact
        exact fun hsum => amount_step hprice hstock' hn hq (by omega) hexact ha hsum

/-- What `buildOrderPlan` decides in doubles, beside what it decides exactly. -/
inductive Agrees (items : List OrderItemInput) :
    Except Err OrdersBackend.OrderPlan → Except Refusal OrderPlan → Prop
  | notFound (missing : List Uuid) : Agrees items
      (.error (.http (notFoundError "Some products not found" (.missing missing)))) (.error (.notFound missing))
  | conflict (p : Uuid) (n s : Int) (a : Number) (hp : (aggregateItemQuantities items).get? p = some a)
      (hcounts : Counts n a) : Agrees items
      (.error (.http (conflictError "Insufficient product stock" (.stock p n s)))) (.error (.conflict p a (.round s)))
  | undefined (message : String) : Agrees items (.error (.js message)) (.error (.js message))
  | ok (plan : OrdersBackend.OrderPlan) (plan' : OrderPlan)
      (hamount : plan.amountCents ≤ 2 ^ 53 → plan'.amountCents = .round plan.amountCents)
      (hquantities : JsMap.Rel (fun n a => a = .round n) plan.quantityByProductId plan'.quantityByProductId) :
      Agrees items (.ok plan) (.ok plan')

theorem buildOrderPlan_agrees {products : List Product} {items : List OrderItemInput}
    (hn : (products.map (·.id)).Nodup) (hcol : Columns products) (hpos : ∀ item ∈ items, 1 ≤ item.quantity) :
    Agrees items (OrdersBackend.buildOrderPlan products items) (buildOrderPlan products items) := by
  have hcounts := counts_aggregate hpos
  have hloop := amountLoop_agrees (found_of_columns hn hcol) hcounts (n := 0) (a := 0) (Int.le_refl 0)
    fun _ => Number.tracks_zero.exact (by norm_num)
  unfold OrdersBackend.buildOrderPlan buildOrderPlan
  simp only [← hcounts.keys_eq]
  split
  · exact .notFound _
  · generalize OrdersBackend.amountLoop _ _ _ = r at hloop ⊢
    generalize amountLoop _ _ _ = r' at hloop ⊢
    cases hloop with
    | conflict p n s a hp hp' hc => exact .conflict p n s a ((JsMap.get?_eq_some_iff ..).mpr hp') hc
    | undefined message => exact .undefined message
    | ok n a hexact hquantities => exact .ok _ _ hexact hquantities

end Doubles

end OrdersBackend
