import OrdersBackend.Entities
import Mathlib.Logic.Function.Basic
import Mathlib.Algebra.BigOperators.Group.List.Basic
import Mathlib.Algebra.GroupWithZero.Nat
import Mathlib.Algebra.Ring.Int.Defs
import Mathlib.Data.List.Nodup

/-!
# The database

The committed tables, the writes a statement can make, and the rows on which
locks are taken. The index entry of `(userId, idempotencyKey)` is a row of its
own; an order's row comprises its items, which are only inserted with it.
-/

namespace OrdersBackend

structure Db where
  users : List User
  products : List Product
  orders : List Order
  orderItems : List OrderItem
  processedMessages : List ProcessedMessage

/-- What a statement locks, but for the share locks of foreign keys. -/
inductive Row where
  | product (id : Uuid)
  | order (id : Uuid)
  | orderKey (userId : Uuid) (idempotencyKey : String)
  | message (id : Uuid)
  deriving DecidableEq, Repr

inductive RowVal where
  | product (v : Option Product)
  | order (v : Option Order) (items : List OrderItem)
  | orderKey (v : Option Uuid)
  | message (v : Option ProcessedMessage)
  deriving DecidableEq, Repr

inductive Write where
  | stock (productId : Uuid) (stock : Int)
  | addStock (productId : Uuid) (quantity : Int)
  | insertOrder (order : Order)
  | insertItem (item : OrderItem)
  | failOrder (orderId : Uuid)
  | payOrder (orderId paymentId : Uuid) (paymentStatus : PaymentStatus)
  | processOrder (orderId : Uuid) (processedAt : Nat)
  | insertProcessed (message : ProcessedMessage)
  deriving DecidableEq, Repr

namespace Db

def user? (db : Db) (id : Uuid) : Option User := db.users.find? fun u => u.id = id

def product? (db : Db) (id : Uuid) : Option Product := db.products.find? fun p => p.id = id

def order? (db : Db) (id : Uuid) : Option Order := db.orders.find? fun o => o.id = id

def orderByKey? (db : Db) (userId : Uuid) (idempotencyKey : String) : Option Order :=
  db.orders.find? fun o => o.userId = userId ∧ o.idempotencyKey = idempotencyKey

def itemsOf (db : Db) (orderId : Uuid) : List OrderItem :=
  db.orderItems.filter fun i => i.orderId = orderId

def processed? (db : Db) (messageId : Uuid) : Option ProcessedMessage :=
  db.processedMessages.find? fun m => m.messageId = messageId

def row (db : Db) : Row → RowVal
  | .product id => .product (db.product? id)
  | .order id => .order (db.order? id) (db.itemsOf id)
  | .orderKey u k => .orderKey ((db.orderByKey? u k).map (·.id))
  | .message id => .message (db.processed? id)

/-- `UPDATE products SET ... WHERE id = id`. -/
def updateProduct (db : Db) (id : Uuid) (f : Product → Product) : Db :=
  { db with products := db.products.map fun p => if p.id = id then f p else p }

def updateOrder (db : Db) (id : Uuid) (f : Order → Order) : Db :=
  { db with orders := db.orders.map fun o => if o.id = id then f o else o }

theorem order?_of_mem {db : Db} (h : (db.orders.map (·.id)).Nodup) {o : Order} (ho : o ∈ db.orders) :
    db.order? o.id = some o := by
  unfold order?
  cases hf : db.orders.find? fun o' => o'.id = o.id with
  | none => simpa using List.find?_eq_none.mp hf o ho
  | some o' =>
    have hid : o'.id = o.id := by simpa using List.find?_some hf
    exact congrArg some (List.inj_on_of_nodup_map h (List.mem_of_find?_eq_some hf) ho hid)

end Db

def Write.rows : Write → List Row
  | .stock p _ => [.product p]
  | .addStock p _ => [.product p]
  | .insertOrder o => [.order o.id, .orderKey o.userId o.idempotencyKey]
  | .insertItem i => [.order i.orderId]
  | .failOrder o => [.order o]
  | .payOrder o _ _ => [.order o]
  | .processOrder o _ => [.order o]
  | .insertProcessed m => [.message m.messageId]

def Product.setStock (n : Int) (p : Product) : Product := { p with stock := n }

def Product.addStock (q : Int) (p : Product) : Product := { p with stock := p.stock + q }

def Order.fail (o : Order) : Order := { o with status := .failed }

def Order.pay (paymentId : Uuid) (paymentStatus : PaymentStatus) (o : Order) : Order :=
  { o with paymentId := some paymentId, paymentStatus := some paymentStatus }

def Order.process (processedAt : Nat) (o : Order) : Order :=
  { o with status := .processed, processedAt := some processedAt }

def Write.apply (db : Db) : Write → Db
  | .stock p n => db.updateProduct p (.setStock n)
  | .addStock p q => db.updateProduct p (.addStock q)
  | .insertOrder o => { db with orders := db.orders ++ [o] }
  | .insertItem i => { db with orderItems := db.orderItems ++ [i] }
  | .failOrder o => db.updateOrder o .fail
  | .payOrder o paymentId paymentStatus => db.updateOrder o (.pay paymentId paymentStatus)
  | .processOrder o processedAt => db.updateOrder o (.process processedAt)
  | .insertProcessed m => { db with processedMessages := db.processedMessages ++ [m] }

def Write.delta (db : Db) : Write → Int
  | .stock p n =>
    match db.product? p with
    | some x => n - x.stock
    | none => 0
  | .addStock p q =>
    match db.product? p with
    | some _ => q
    | none => 0
  | _ => 0

def Db.applyAll (db : Db) (ws : List Write) : Db := ws.foldl Write.apply db

/-! ## Lookups after a write -/

theorem find?_map_update {α : Type} (l : List α) (key : α → Uuid) (f : α → α) (hf : ∀ a, key (f a) = key a)
    (id id' : Uuid) :
    (l.map fun a => if key a = id then f a else a).find? (fun a => key a = id') =
      (l.find? fun a => key a = id').map fun a => if key a = id then f a else a := by
  rw [List.find?_map]
  congr 1
  apply congrArg (fun g => List.find? g l)
  funext a
  by_cases h : key a = id
  · simp [h, hf]
  · simp [h]

namespace Db

variable (db : Db)

theorem product?_updateProduct (f : Product → Product) (hf : ∀ p, (f p).id = p.id) (id id' : Uuid) :
    (db.updateProduct id f).product? id' =
      (db.product? id').map fun p => if p.id = id then f p else p :=
  find?_map_update db.products (·.id) f hf id id'

theorem order?_updateOrder (f : Order → Order) (hf : ∀ o, (f o).id = o.id) (id id' : Uuid) :
    (db.updateOrder id f).order? id' = (db.order? id').map fun o => if o.id = id then f o else o :=
  find?_map_update db.orders (·.id) f hf id id'

theorem product?_id {db : Db} {id : Uuid} {p : Product} (h : db.product? id = some p) : p.id = id := by
  simpa using List.find?_some h

theorem order?_id {db : Db} {id : Uuid} {o : Order} (h : db.order? id = some o) : o.id = id := by
  simpa using List.find?_some h

theorem order?_mem {db : Db} {id : Uuid} {o : Order} (h : db.order? id = some o) : o ∈ db.orders :=
  List.mem_of_find?_eq_some h

theorem product?_mem {db : Db} {id : Uuid} {p : Product} (h : db.product? id = some p) : p ∈ db.products :=
  List.mem_of_find?_eq_some h

theorem orderByKey?_mem {db : Db} {u : Uuid} {k : String} {o : Order} (h : db.orderByKey? u k = some o) :
    o ∈ db.orders ∧ o.userId = u ∧ o.idempotencyKey = k :=
  ⟨List.mem_of_find?_eq_some h, by simpa using List.find?_some h⟩

theorem orderByKey?_updateOrder (f : Order → Order)
    (hf : ∀ o, (f o).userId = o.userId ∧ (f o).idempotencyKey = o.idempotencyKey) (id u : Uuid) (k : String) :
    (db.updateOrder id f).orderByKey? u k =
      (db.orderByKey? u k).map fun o => if o.id = id then f o else o := by
  unfold orderByKey? updateOrder
  simp only
  rw [List.find?_map]
  congr 1
  apply congrArg (fun g => List.find? g db.orders)
  funext o
  by_cases h : o.id = id
  · simp [h, hf]
  · simp [h]

end Db

/-! ## Frame -/

theorem row_updateProduct (db : Db) (f : Product → Product) (hf : ∀ p, (f p).id = p.id) (id : Uuid) {r : Row}
    (hr : r ≠ .product id) : (db.updateProduct id f).row r = db.row r := by
  cases r with
  | product id' =>
    have hne : id' ≠ id := fun h => hr (by rw [h])
    simp only [Db.row, Db.product?_updateProduct db f hf]
    cases h : db.product? id' with
    | none => rfl
    | some p =>
      have := Db.product?_id h
      simp [this, hne]
  | _ => rfl

theorem row_updateOrder (db : Db) (f : Order → Order)
    (hf : ∀ o, (f o).id = o.id ∧ (f o).userId = o.userId ∧ (f o).idempotencyKey = o.idempotencyKey)
    (id : Uuid) {r : Row} (hr : r ≠ .order id) : (db.updateOrder id f).row r = db.row r := by
  cases r with
  | order id' =>
    have hne : id' ≠ id := fun h => hr (by rw [h])
    simp only [Db.row, Db.order?_updateOrder db f fun o => (hf o).1]
    cases h : db.order? id' with
    | none => rfl
    | some o =>
      have := Db.order?_id h
      simp [this, hne]
      rfl
  | orderKey u k =>
    simp only [Db.row, Db.orderByKey?_updateOrder db f fun o => (hf o).2, Option.map_map]
    congr 2
    funext o
    by_cases h : o.id = id <;> simp [h, hf]
  | _ => rfl

theorem row_apply (db : Db) (wr : Write) {r : Row} (hr : r ∉ wr.rows) : (wr.apply db).row r = db.row r := by
  cases wr with
  | stock p n => exact row_updateProduct db (.setStock n) (fun _ => rfl) p (by simpa [Write.rows] using hr)
  | addStock p q => exact row_updateProduct db (.addStock q) (fun _ => rfl) p (by simpa [Write.rows] using hr)
  | failOrder o => exact row_updateOrder db .fail (fun _ => ⟨rfl, rfl, rfl⟩) o (by simpa [Write.rows] using hr)
  | payOrder o pid st =>
    exact row_updateOrder db (.pay pid st) (fun _ => ⟨rfl, rfl, rfl⟩) o (by simpa [Write.rows] using hr)
  | processOrder o at_ =>
    exact row_updateOrder db (.process at_) (fun _ => ⟨rfl, rfl, rfl⟩) o (by simpa [Write.rows] using hr)
  | insertOrder o =>
    simp only [Write.rows, List.mem_cons, List.not_mem_nil, or_false, not_or] at hr
    cases r with
    | order id =>
      have hne : ¬ o.id = id := fun h => hr.1 (by rw [h])
      simp [Write.apply, Db.row, Db.order?, Db.itemsOf, List.find?_append, hne]
    | orderKey u k =>
      have hne : ¬ (o.userId = u ∧ o.idempotencyKey = k) := fun h => hr.2 (by rw [h.1, h.2])
      simp [Write.apply, Db.row, Db.orderByKey?, List.find?_append, hne]
    | _ => rfl
  | insertItem i =>
    cases r with
    | order id =>
      have hne : ¬ i.orderId = id := fun h => hr (by simp [Write.rows, h])
      simp [Write.apply, Db.row, Db.order?, Db.itemsOf, hne]
    | _ => rfl
  | insertProcessed m =>
    cases r with
    | message id =>
      have hne : ¬ m.messageId = id := fun h => hr (by simp [Write.rows, h])
      simp [Write.apply, Db.row, Db.processed?, List.find?_append, hne]
    | _ => rfl

theorem row_applyAll (ws : List Write) (db : Db) {r : Row} (hr : ∀ wr ∈ ws, r ∉ wr.rows) :
    (db.applyAll ws).row r = db.row r := by
  induction ws generalizing db with
  | nil => rfl
  | cons wr ws ih =>
    have h₁ := ih (wr.apply db) fun wr' h => hr wr' (List.mem_cons_of_mem _ h)
    exact h₁.trans (row_apply db wr (hr wr (List.mem_cons_self ..)))

end OrdersBackend
