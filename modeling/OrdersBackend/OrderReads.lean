import Mathlib.Data.List.Sort
import OrdersBackend.Database
import OrdersBackend.OrderPolicy

/-!
# Reading orders

The read paths of the API: `GET /orders/:id`, behind the guard and with the
owner in its predicate, and the GraphQL query `orders`, whose resolver hands
its arguments to `findOrders`.
-/

namespace OrdersBackend

open Conc

/-! ## Requests -/

/-- An id as it arrives; the database refuses one that is not a uuid, and reads
any spelling of one that is. -/
inductive IdText where
  | uuid (id : Uuid)
  | text (s : String)
  deriving DecidableEq, Repr

/-- The headers `x-user-id` and `x-user-role`. -/
structure Headers where
  userId : Option IdText
  userRole : Option String

/-- A date argument: `IsDateString` refuses it, or it is ISO 8601 but
`new Date` makes an invalid date of it, or it is an instant. Instants are
counted from the earliest one. -/
inductive DateText where
  | notIso
  | notDate
  | at (t : Nat)
  deriving DecidableEq, Repr

structure OrdersFilterInput where
  status : Option OrderStatus
  dateFrom : Option DateText
  dateTo : Option DateText

structure OrdersPaginationInput where
  limit : Option Int
  offset : Option Int

inductive ReadRequest where
  | getOne (id : IdText)
  | orders (filter : Option OrdersFilterInput) (pagination : Option OrdersPaginationInput)

/-! ## Responses -/

structure ErrorBody where
  statusCode : Nat
  code : String
  message : String
  details : Details
  deriving DecidableEq

structure ProductModel where
  id : Uuid
  title : String
  price : Nat
  deriving DecidableEq

structure OrderItemModel where
  id : Uuid
  quantity : Int
  product : ProductModel
  deriving DecidableEq

structure OrderModel where
  id : Uuid
  status : OrderStatus
  createdAt : Nat
  items : List OrderItemModel
  deriving DecidableEq

inductive Response where
  | error (body : ErrorBody)
  | order (order : Order) (items : List OrderItem)
  | orders (orders : List OrderModel)
  | graphqlError (message : String)
  deriving DecidableEq

/-- `AllExceptionsFilter` on what a handler throws. -/
def errorBody : Err → ErrorBody
  | .http e => ⟨e.statusCode, e.code, e.message, e.details⟩
  | _ => ⟨500, "INTERNAL_SERVER_ERROR", "Unexpected error", .none⟩

/-! ## `GET /orders/:id` -/

structure Caller where
  id : IdText
  role : UserRole

/-- `DevAuthGuard.canActivate`. -/
def canActivate (headers : Headers) : Except ErrorBody Caller :=
  match headers.userId with
  | none | some (.text "") =>
    .error ⟨401, "UNAUTHORIZED", "Missing x-user-id header",
      .body "Missing x-user-id header" "Unauthorized" 401⟩
  | some id => .ok ⟨id, if headers.userRole = some "admin" then .admin else .user⟩

/-- SQLSTATE of a text that is not a uuid. -/
def invalidUuid : Err := .pg "22P02"

def getOrder (db : Db) (actor : Caller) (orderId : IdText) : Except Err (Order × List OrderItem) :=
  let found (id : Uuid) (o : Option Order) : Except Err (Order × List OrderItem) :=
    match o with
    | none => .error (.http (notFoundError "Order not found or access denied" (.order id)))
    | some order => .ok (order, db.itemsOf order.id)
  match actor.role, orderId, actor.id with
  | .admin, .uuid id, _ => found id (db.order? id)
  | .user, .uuid id, .uuid userId => found id (db.orders.find? fun o => o.id = id ∧ o.userId = userId)
  | _, _, _ => .error invalidUuid

/-! ## `orders` -/

def DateText.isDateString : DateText → Bool
  | .notIso => false
  | _ => true

/-- What the `ValidationPipe` and the scalar `Int` accept. -/
def OrdersFilterInput.valid (filter : OrdersFilterInput) : Bool :=
  filter.dateFrom.all DateText.isDateString && filter.dateTo.all DateText.isDateString

def OrdersPaginationInput.valid (pagination : OrdersPaginationInput) : Bool :=
  pagination.limit.all (fun limit => 1 ≤ limit ∧ limit ≤ 100) &&
    pagination.offset.all fun offset => 0 ≤ offset ∧ offset < 2147483648

/-- The parameters of the query are timestamps. -/
def OrdersFilterInput.queryable (filter : OrdersFilterInput) : Bool :=
  filter.dateFrom != some .notDate && filter.dateTo != some .notDate

/-- The `WHERE` conditions. -/
def OrdersFilterInput.accepts (filter : OrdersFilterInput) (o : Order) : Bool :=
  filter.status.all (fun status => o.status = status) &&
    filter.dateFrom.all (fun date => match date with | .at t => decide (t ≤ o.createdAt) | _ => true) &&
    filter.dateTo.all fun date => match date with | .at t => decide (o.createdAt ≤ t) | _ => true

/-- `ORDER BY "createdAt" DESC, "id" ASC`. -/
def Order.before (o o' : Order) : Prop := o'.createdAt < o.createdAt ∨ o.createdAt = o'.createdAt ∧ o.id ≤ o'.id

instance : DecidableRel Order.before := fun o o' =>
  inferInstanceAs (Decidable (o'.createdAt < o.createdAt ∨ o.createdAt = o'.createdAt ∧ o.id ≤ o'.id))

def limitOf (pagination : Option OrdersPaginationInput) : Int :=
  min (max ((pagination.bind (·.limit)).getD 20) 1) 100

def offsetOf (pagination : Option OrdersPaginationInput) : Int :=
  max ((pagination.bind (·.offset)).getD 0) 0

/-- How the database answers `ORDER BY "createdAt" DESC`: what is created at one
time comes in any order. -/
structure TieOrder where
  sort : List Order → List Order
  perm : ∀ l, (sort l).Perm l
  sorted : ∀ l, (sort l).Pairwise fun o o' => o'.createdAt ≤ o.createdAt

instance : Std.Total Order.before := ⟨fun o o' => by unfold Order.before; grind⟩

instance : IsTrans Order Order.before := ⟨fun o o' o'' h h' => by unfold Order.before at *; grind⟩

/-- By id, as in the query for the ids. -/
def TieOrder.byId : TieOrder where
  sort := List.insertionSort Order.before
  perm := List.perm_insertionSort Order.before
  sorted l := (List.pairwise_insertionSort Order.before l).imp fun h => h.elim Nat.le_of_lt fun h => h.1.ge

/-- The first of the two queries behind `take` and `skip` selects the ids of the
page, by `createdAt` and id; the second selects their rows, by `createdAt`. -/
def findOrders (ties : TieOrder) (db : Db) (filter : Option OrdersFilterInput)
    (pagination : Option OrdersPaginationInput) : Except Err (List (Order × List OrderItem)) :=
  if filter.all OrdersFilterInput.queryable then
    let sorted := (db.orders.filter fun o => filter.all (·.accepts o)).insertionSort Order.before
    let page := (sorted.drop (offsetOf pagination).toNat).take (limitOf pagination).toNat
    .ok ((ties.sort page).map fun o => (o, db.itemsOf o.id))
  else .error (.pg "22007")

/-- `createProductByIdLoader` on all the ids of a response. -/
def productLoader (db : Db) (ids : List Uuid) : Uuid → Option Product :=
  (productsById (db.products.filter fun p => p.id ∈ ids.eraseDups)).get?

def itemModel (load : Uuid → Option Product) (item : OrderItem) : Option OrderItemModel :=
  (load item.productId).map fun p => ⟨item.id, item.quantity, ⟨p.id, p.title, p.price⟩⟩

def orderModels (db : Db) (orders : List (Order × List OrderItem)) : Option (List OrderModel) :=
  let load := productLoader db (orders.flatMap fun o => o.2.map (·.productId))
  orders.mapM fun o => (o.2.mapM (itemModel load)).map fun items => ⟨o.1.id, o.1.status, o.1.createdAt, items⟩

/-- The message of an error thrown in a resolver. -/
def Err.message : Err → String
  | .http e => e.message
  | .pg code => code
  | .grpc _ => "grpc"
  | .js message => message

def respond (ties : TieOrder) (headers : Headers) (req : ReadRequest) (db : Db) : Response :=
  match req with
  | .getOne id =>
    match canActivate headers with
    | .error body => .error body
    | .ok actor =>
      match getOrder db actor id with
      | .ok (order, items) => .order order items
      | .error e => .error (errorBody e)
  | .orders filter pagination =>
    if filter.all OrdersFilterInput.valid && pagination.all OrdersPaginationInput.valid then
      match findOrders ties db filter pagination with
      | .error e => .graphqlError e.message
      | .ok orders =>
        match orderModels db orders with
        | some models => .orders models
        | none => .graphqlError "Cannot return null for non-nullable field OrderItem.product."
    else .graphqlError "Bad Request Exception"

/-! ## States of the database -/

structure Db.Valid (db : Db) : Prop where
  users : (db.users.map (·.id)).Nodup
  products : (db.products.map (·.id)).Nodup
  orders : (db.orders.map (·.id)).Nodup
  items : (db.orderItems.map (·.id)).Nodup
  keys : (db.orders.map fun o => (o.userId, o.idempotencyKey)).Nodup
  orderUsers : ∀ o ∈ db.orders, ∃ u ∈ db.users, u.id = o.userId
  itemOrders : ∀ i ∈ db.orderItems, ∃ o ∈ db.orders, o.id = i.orderId
  itemProducts : ∀ i ∈ db.orderItems, ∃ p ∈ db.products, p.id = i.productId

def Db.ordersOf (db : Db) (userId : Uuid) : List Order := db.orders.filter fun o => o.userId = userId

def Db.orderItemsOf (db : Db) (userId : Uuid) : List OrderItem :=
  db.orderItems.filter fun i => (db.order? i.orderId).any fun o => o.userId = userId

/-- The user a caller without the admin role claims to be. -/
def Headers.caller? (headers : Headers) : Option Uuid :=
  match headers.userId with
  | some (.uuid u) => some u
  | _ => none

/-- The two states differ in other users' orders only. -/
structure AgreeFor (caller : Option Uuid) (db db' : Db) : Prop where
  users : db.users = db'.users
  products : db.products = db'.products
  orders : ∀ u, caller = some u → db.ordersOf u = db'.ordersOf u
  items : ∀ u, caller = some u → db.orderItemsOf u = db'.orderItemsOf u

/-- The response to `req` tells the caller nothing about other users' orders. -/
def Confined (headers : Headers) (req : ReadRequest) : Prop :=
  ∀ (ties : TieOrder) (db db' : Db), db.Valid → db'.Valid → AgreeFor headers.caller? db db' →
    respond ties headers req db = respond ties headers req db'

/-! ## Which requests are confined -/

/-- The window of the filter is empty. -/
def OrdersFilterInput.emptyWindow (filter : OrdersFilterInput) : Bool :=
  match filter.dateFrom, filter.dateTo with
  | some (.at a), some (.at b) => b < a
  | _, _ => false

/-- The request names one order, or is refused, or can match no order. -/
def ReadRequest.confined : ReadRequest → Bool
  | .getOne _ => true
  | .orders filter pagination =>
    !(filter.all OrdersFilterInput.valid && pagination.all OrdersPaginationInput.valid) ||
      !filter.all OrdersFilterInput.queryable || filter.any OrdersFilterInput.emptyWindow

/-! ## What one request sees -/

theorem AgreeFor.find? {u : Uuid} {db db' : Db} (h : AgreeFor (some u) db db') (id : Uuid) :
    (db.orders.find? fun o => o.id = id ∧ o.userId = u) = db'.orders.find? fun o => o.id = id ∧ o.userId = u := by
  have hseen (d : Db) :
      (d.orders.find? fun o => o.id = id ∧ o.userId = u) = (d.ordersOf u).find? fun o => o.id = id := by
    unfold Db.ordersOf
    rw [List.find?_filter]
    congr 1
    funext o
    simp [and_comm]
  rw [hseen, hseen, h.orders u rfl]

theorem Db.Valid.itemsOf {db : Db} (h : db.Valid) {o : Order} (ho : o ∈ db.orders) :
    db.itemsOf o.id = (db.orderItemsOf o.userId).filter fun i => i.orderId = o.id := by
  unfold Db.itemsOf Db.orderItemsOf
  rw [List.filter_filter]
  apply List.filter_congr
  intro i _
  by_cases hi : i.orderId = o.id
  · simp [hi, db.order?_of_mem h.orders ho]
  · simp [hi]

theorem getOrder_agree {u : Uuid} {db db' : Db} (hdb : db.Valid) (hdb' : db'.Valid) (h : AgreeFor (some u) db db')
    (orderId : IdText) : getOrder db ⟨.uuid u, .user⟩ orderId = getOrder db' ⟨.uuid u, .user⟩ orderId := by
  cases orderId with
  | text s => rfl
  | uuid id =>
    simp only [getOrder]
    have hfind := h.find? id
    rw [← hfind]
    cases ho : db.orders.find? fun o => o.id = id ∧ o.userId = u with
    | none => rfl
    | some o =>
      have hu : o.userId = u := by
        have := List.find?_some ho
        simp only [Bool.decide_and, Bool.and_eq_true, decide_eq_true_eq] at this
        exact this.2
      have hmem := List.mem_of_find?_eq_some ho
      have hmem' := List.mem_of_find?_eq_some (hfind ▸ ho)
      simp only [hdb.itemsOf hmem, hdb'.itemsOf hmem', hu, h.items u rfl]

theorem confined_getOne (headers : Headers) (hrole : headers.userRole ≠ some "admin") (id : IdText) :
    Confined headers (.getOne id) := by
  intro _ db db' hdb hdb' h
  obtain ⟨userId, userRole⟩ := headers
  simp only [respond, canActivate, if_neg hrole]
  rcases userId with _ | u | s
  · rfl
  · simp only [getOrder_agree hdb hdb' h]
  · by_cases hs : s = ""
    · simp [hs]
    · cases id <;> simp [hs, getOrder]

/-! ## What the list sees -/

def accepted (db : Db) (filter : Option OrdersFilterInput) : List Order :=
  db.orders.filter fun o => filter.all (·.accepts o)

theorem accepts_eq_false {filter : OrdersFilterInput} (h : filter.emptyWindow = true) (o : Order) :
    filter.accepts o = false := by
  obtain ⟨status, dateFrom, dateTo⟩ := filter
  unfold OrdersFilterInput.emptyWindow at h
  split at h
  next a b hfrom hto =>
    simp only at hfrom hto
    subst hfrom hto
    have hlt : b < a := by simpa using h
    simp only [OrdersFilterInput.accepts, Option.all_some]
    grind
  next => cases h

theorem findOrders_of_accepted_nil {db : Db} {filter : Option OrdersFilterInput}
    (hq : filter.all OrdersFilterInput.queryable = true) (h : accepted db filter = [])
    (ties : TieOrder) (pagination : Option OrdersPaginationInput) : findOrders ties db filter pagination = .ok [] := by
  unfold accepted at h
  simp [findOrders, hq, h, (ties.perm []).eq_nil]

theorem findOrders_ne_nil {db : Db} {filter : Option OrdersFilterInput} {pagination : Option OrdersPaginationInput}
    (h : (offsetOf pagination).toNat < (accepted db filter).length) (ties : TieOrder) :
    findOrders ties db filter pagination ≠ .ok [] := by
  intro hnil
  have hlimit : 1 ≤ (limitOf pagination).toNat := by unfold limitOf; omega
  unfold findOrders at hnil
  split at hnil
  · have hlen := congrArg List.length (Except.ok.inj hnil)
    simp only [List.length_map, (ties.perm _).length_eq, List.length_take, List.length_drop, List.length_insertionSort,
      List.length_nil] at hlen
    unfold accepted at h
    omega
  · cases hnil

theorem orderModels_eq_nil {db : Db} {orders : List (Order × List OrderItem)}
    (h : orderModels db orders = some []) :
    orders = [] := by
  cases orders with
  | nil => rfl
  | cons o orders =>
    simp only [orderModels, List.mapM_cons, Option.bind_eq_bind, Option.bind_eq_some_iff] at h
    obtain ⟨_, _, _, _, hnil⟩ := h
    simp at hnil

variable {headers : Headers} {filter : Option OrdersFilterInput} {pagination : Option OrdersPaginationInput}

theorem respond_orders_nil {db : Db}
    (hvalid : (filter.all OrdersFilterInput.valid && pagination.all OrdersPaginationInput.valid) = true)
    (hq : filter.all OrdersFilterInput.queryable = true) (h : accepted db filter = []) (ties : TieOrder) :
    respond ties headers (.orders filter pagination) db = .orders [] := by
  simp only [respond, hvalid, findOrders_of_accepted_nil hq h ties]
  rfl

theorem respond_orders_ne_nil {db : Db} (h : (offsetOf pagination).toNat < (accepted db filter).length)
    (ties : TieOrder) : respond ties headers (.orders filter pagination) db ≠ .orders [] := by
  intro hnil
  simp only [respond] at hnil
  split at hnil
  · split at hnil
    next => cases hnil
    next orders hfound =>
      split at hnil
      next models hmodels =>
        cases hnil
        exact findOrders_ne_nil h ties (hfound.trans (congrArg _ (orderModels_eq_nil hmodels)))
      next => cases hnil
  · cases hnil

theorem confined_orders (h : (ReadRequest.orders filter pagination).confined = true) :
    Confined headers (.orders filter pagination) := by
  intro ties db db' _ _ _
  by_cases hvalid : (filter.all OrdersFilterInput.valid && pagination.all OrdersPaginationInput.valid) = true
  · by_cases hq : filter.all OrdersFilterInput.queryable = true
    · have hempty : filter.any OrdersFilterInput.emptyWindow = true := by
        simpa [ReadRequest.confined, hvalid, hq] using h
      have hnil (d : Db) : accepted d filter = [] := by
        cases filter with
        | none => cases hempty
        | some f =>
          have hno : f.emptyWindow = true := by simpa using hempty
          simp [accepted, accepts_eq_false hno]
      rw [respond_orders_nil hvalid hq (hnil db) ties, respond_orders_nil hvalid hq (hnil db') ties]
    · simp only [respond, findOrders, if_neg hq]
  · simp only [respond, if_neg hvalid]

/-! ## Orders of strangers -/

/-- The i-th order of users other than `user`, made to pass the filter. -/
def strangerOrder (user : Uuid) (filter : Option OrdersFilterInput) (i : Nat) : Order where
  id := i
  userId := user + 1 + i
  idempotencyKey := "key"
  status := (filter.bind (·.status)).getD .pending
  paymentId := none
  paymentStatus := none
  createdAt :=
    match filter.bind (·.dateFrom) with
    | some (.at t) => t
    | _ => 0
  processedAt := none

/-- A database of `n` users with the first `k` of `n` orders. -/
def strangers (user : Uuid) (filter : Option OrdersFilterInput) (n : Nat) : Db where
  users := (List.range n).map fun i => ⟨user + 1 + i⟩
  products := []
  orders := (List.range n).map (strangerOrder user filter)
  orderItems := []
  processedMessages := []

theorem strangers_valid (user : Uuid) (n : Nat) : (strangers user filter n).Valid where
  users := by
    simp only [strangers, List.map_map]
    exact List.nodup_range.map fun i j h => Nat.add_left_cancel h
  products := List.nodup_nil
  orders := by
    simp only [strangers, List.map_map]
    exact List.nodup_range.map fun i j (h : i = j) => h
  items := List.nodup_nil
  keys := by
    simp only [strangers, List.map_map]
    exact List.nodup_range.map fun i j h => Nat.add_left_cancel (congrArg Prod.fst h)
  orderUsers := by
    intro o ho
    obtain ⟨i, hi, rfl⟩ := List.mem_map.mp ho
    exact ⟨⟨user + 1 + i⟩, List.mem_map_of_mem hi, rfl⟩
  itemOrders := nofun
  itemProducts := nofun

def Db.withoutOrders (db : Db) : Db := { db with orders := [], orderItems := [] }

theorem Db.Valid.withoutOrders {db : Db} (h : db.Valid) : db.withoutOrders.Valid where
  users := h.users
  products := h.products
  orders := List.nodup_nil
  items := List.nodup_nil
  keys := List.nodup_nil
  orderUsers := nofun
  itemOrders := nofun
  itemProducts := nofun

theorem strangers_agree {caller : Option Uuid} {user : Uuid} (h : ∀ u, caller = some u → u = user) (n : Nat) :
    AgreeFor caller (strangers user filter n).withoutOrders (strangers user filter n) where
  users := rfl
  products := rfl
  orders := by
    intro u hu
    have hother : ∀ o ∈ (strangers user filter n).orders, ¬o.userId = u := by
      intro o ho
      obtain ⟨i, _, rfl⟩ := List.mem_map.mp ho
      rw [h u hu]
      exact Nat.ne_of_gt (Nat.lt_of_lt_of_le (Nat.lt_succ_self user) (Nat.le_add_right ..))
    exact (List.filter_eq_nil_iff.mpr (by simpa using hother)).symm
  items := by
    intro u _
    rfl

theorem strangerOrder_accepted (hempty : filter.any OrdersFilterInput.emptyWindow = false)
    (user : Uuid) (i : Nat) : filter.all (·.accepts (strangerOrder user filter i)) = true := by
  cases filter with
  | none => rfl
  | some f =>
    obtain ⟨status, dateFrom, dateTo⟩ := f
    simp only [OrdersFilterInput.emptyWindow, Option.any_some] at hempty
    simp only [OrdersFilterInput.accepts, strangerOrder, Option.all_some, Option.bind_some]
    rcases status with _ | status <;> rcases dateFrom with _ | _ | _ | a <;> rcases dateTo with _ | _ | _ |
      b <;> simp_all

theorem accepted_strangers (hempty : filter.any OrdersFilterInput.emptyWindow = false) (user : Uuid) (n : Nat) :
    (accepted (strangers user filter n) filter).length = n := by
  have hall : ∀ o ∈ (strangers user filter n).orders, filter.all (·.accepts o) = true := by
    intro o ho
    obtain ⟨i, _, rfl⟩ := List.mem_map.mp ho
    exact strangerOrder_accepted hempty user i
  unfold accepted
  rw [List.filter_eq_self.mpr hall]
  simp [strangers]

/-- A list request that can match an order tells whether others have orders. -/
theorem not_confined_orders (headers : Headers)
    (hvalid : (filter.all OrdersFilterInput.valid && pagination.all OrdersPaginationInput.valid) = true)
    (hq : filter.all OrdersFilterInput.queryable = true)
    (hempty : filter.any OrdersFilterInput.emptyWindow = false) :
    ¬Confined headers (.orders filter pagination) := by
  intro h
  let user := headers.caller?.getD 0
  let n := (offsetOf pagination).toNat + 1
  have huser : ∀ u, headers.caller? = some u → u = user := by
    intro u hu
    simp [user, hu]
  have hlen : (accepted (strangers user filter n) filter).length = n := accepted_strangers hempty user n
  have hsame := h .byId _ (strangers user filter n) (strangers_valid user n).withoutOrders (strangers_valid user n)
    (strangers_agree huser n)
  rw [respond_orders_nil hvalid hq rfl] at hsame
  exact respond_orders_ne_nil (by omega) .byId hsame.symm

/-- Whatever the caller without the admin role asks for, the response is
independent of other users' orders exactly when the request names one order, is
refused, or can match no order at all: the resolver of `orders` has no owner in
its predicate. -/
theorem order_reads_confined_iff (headers : Headers) (hrole : headers.userRole ≠ some "admin")
    (req : ReadRequest) :
    Confined headers req ↔ req.confined = true := by
  constructor
  · intro h
    cases req with
    | getOne id => rfl
    | orders filter pagination =>
      by_contra hnot
      simp only [ReadRequest.confined, Bool.or_eq_true, Bool.not_eq_true', not_or, Bool.not_eq_false,
        Bool.not_eq_true] at hnot
      obtain ⟨⟨hvalid, hq⟩, hempty⟩ := hnot
      exact not_confined_orders headers hvalid hq hempty h
  · intro h
    cases req with
    | getOne id => exact confined_getOne headers hrole id
    | orders filter pagination => exact confined_orders h

/-- No order was created before 1 and after 2. -/
theorem order_reads_confined_iff_window :
    Confined ⟨some (.uuid 0), some "user"⟩ (.orders (some ⟨none, some (.at 2), some (.at 1)⟩) none) :=
  (order_reads_confined_iff ⟨some (.uuid 0), some "user"⟩ (by decide)
    (.orders (some ⟨none, some (.at 2), some (.at 1)⟩) none)).mpr rfl

/-- Without arguments the query returns the orders of every user. -/
theorem order_reads_confined_fails : ¬Confined ⟨some (.uuid 0), some "user"⟩ (.orders none none) := by
  intro h
  have hsame := h .byId _ (strangers 0 none 1) (strangers_valid 0 1).withoutOrders (strangers_valid 0 1)
    (strangers_agree (fun u hu => (Option.some.inj hu).symm) 1)
  revert hsame
  decide

end OrdersBackend
