import OrdersBackend.Lib.Actors
import OrdersBackend.OrdersService
import OrdersBackend.OrdersWorker
import OrdersBackend.System

/-!
# The order saga

What the system is for, without sessions, locks and pools: every transaction
is one atomic step on the shared state, and each call goes through the phases
of a saga. A call reserves stock under a fresh order, asks for a payment, and
then either stores the payment and publishes the process message or gives the
stock back; a delivery is consumed together with its dedup row, or published
again, before it is acknowledged.
-/

namespace OrdersBackend

open Conc

/-! ## Phases -/

/-- How far a call or a delivery has come, by what it has done so far. -/
inductive Phase where
  | start
  | reserved (orderId : Uuid)
  | requested (orderId : Uuid)
  | rejected (orderId : Uuid)
  | released (orderId : Uuid)
  | paid (orderId : Uuid)
  | identified (orderId messageId : Uuid)
  | published (orderId messageId : Uuid)
  | consumed
  | republished
  deriving DecidableEq, Repr

namespace Phase

def orderId? : Phase → Option Uuid
  | .reserved id | .requested id | .rejected id | .released id | .paid id => some id
  | .identified id _ | .published id _ => some id
  | .start | .consumed | .republished => none

def write (p : Phase) : Write → Phase
  | .insertOrder o => .reserved o.id
  | .failOrder id => .released id
  | .payOrder id _ _ => .paid id
  | .insertProcessed _ => .consumed
  | _ => p

def reject : Phase → Phase
  | .reserved id | .requested id => .rejected id
  | p => p

def identify (mid : Uuid) : Phase → Phase
  | .paid id => .identified id mid
  | p => p

def publish : Phase → Phase
  | .identified id mid => .published id mid
  | p => p

def next (p : Phase) : Event → Phase
  | .wrote _ wr _ => p.write wr
  | .sent _ req => .requested req.orderId
  | .failed _ (.sendAuthorize _) | .failed _ .awaitAuthorize => p.reject
  | .generated _ mid => p.identify mid
  | .published _ .process _ => p.publish
  | .published _ _ _ => .republished
  | _ => p

end Phase

def phaseIn (t : Tid) : List Event → Phase
  | [] => .start
  | e :: trace => if e.actor = some t then (phaseIn t trace).next e else phaseIn t trace

namespace Shared

def phase (s : Shared) (t : Tid) : Phase := phaseIn t s.trace

end Shared

/-! ## Transactions -/

def newOrder (id userId : Uuid) (idempotencyKey : String) (createdAt : Nat) : Order :=
  { id, userId, idempotencyKey, status := .pending, paymentId := none, paymentStatus := none, createdAt,
    processedAt := none }

/-- `item` stores the line `input` at the price of `byId`. -/
structure IsLine (byId : JsMap Uuid Product) (orderId : Uuid) (input : OrderItemInput) (item : OrderItem) :
    Prop where
  order : item.orderId = orderId
  product : item.productId = input.productId
  quantity : item.quantity = input.quantity
  price : (byId.get? input.productId).map (·.price) = some item.priceAtPurchase

def stockWrite (byId : JsMap Uuid Product) (entry : Uuid × Int) : Option Write :=
  (byId.get? entry.1).map fun product => .stock product.id (product.stock - entry.2)

def reserveLog (products : List Product) (plan : OrderPlan) (order : Order) (items : List OrderItem) :
    List Write :=
  plan.quantityByProductId.entries.filterMap (stockWrite (productsById products)) ++
    .insertOrder order :: items.map .insertItem

def releaseLog (db : Db) (orderId : Uuid) : List Write :=
  .failOrder orderId :: (db.itemsOf orderId).map fun item => .addStock item.productId item.quantity

def processLog (mid oid : Uuid) (order : Order) (processedAt : Nat) : List Write :=
  .insertProcessed ⟨mid, oid, "orders-worker"⟩ ::
    if order.status = .processed then [] else [.processOrder oid processedAt]

def Db.total (db : Db) (orderId : Uuid) : Int :=
  ((db.itemsOf orderId).map fun item => (item.priceAtPurchase : Int) * item.quantity).sum

/-- When a call may commit its reservation. -/
structure Reserves (s : Shared) (t : Tid) (req : CreateOrderRequest) (products : List Product)
    (plan : OrderPlan) (order : Order) (items : List OrderItem) : Prop where
  job : s.jobs t = some (.create req)
  phase : s.phase t = .start
  user : (s.db.user? req.actor.id).isSome
  keyFree : s.db.orderByKey? req.actor.id req.idempotencyKey = none
  idFree : s.db.order? order.id = none
  itemsFree : s.db.itemsOf order.id = []
  fresh : order.id < s.uuids
  new : ∃ createdAt, order = newOrder order.id req.actor.id req.idempotencyKey createdAt
  current : ∀ p ∈ products, s.db.product? p.id = some p
  distinct : (products.map (·.id)).Nodup
  accepted : buildOrderPlan products req.dto.items = .ok plan
  lines : List.Forall₂ (IsLine (productsById products) order.id) req.dto.items items

/-- The request `PaymentsClient.authorize` may send for a call. -/
structure Requests (s : Shared) (t : Tid) (req : AuthorizeRequest) : Prop where
  phase : s.phase t = .reserved req.orderId
  rpc : s.rpc t = .idle
  amount : req.amountCents = s.db.total req.orderId
  key : ∃ r, s.jobs t = some (.create r) ∧ req.idempotencyKey = some r.idempotencyKey

/-- When a delivery may commit its dedup row. -/
structure Processes (s : Shared) (t : Tid) (payload : OrdersProcessMessage) (mid oid : Uuid) (order : Order) :
    Prop where
  job : ∃ msg, s.jobs t = some (.deliver msg) ∧ msg.content = .value payload
  message : payload.messageId = some mid
  subject : payload.orderId = some oid
  phase : s.phase t = .start
  unseen : s.db.processed? mid = none
  found : s.db.order? oid = some order

/-- What a failed delivery is published as. -/
inductive Republishes (cfg : Config) (payload : OrdersProcessMessage) : RoutingKey → Message → Prop
  | retry {v : Primitive} (hv : payload.attempt.toPrimitive = .ok v) (h : v.lt cfg.maxAttempts = true) :
      Republishes cfg payload .retry (republished { payload with attempt := .primitive v.succ })
  | dlq {v : Primitive} (hv : payload.attempt.toPrimitive = .ok v) (h : v.lt cfg.maxAttempts = false) :
      Republishes cfg payload .dlq (republished payload)

/-- When a delivery may be acknowledged. -/
def Ackable (s : Shared) (t : Tid) (payload : OrdersProcessMessage) : Prop :=
  s.phase t = .republished ∨ ∃ mid, payload.messageId = some mid ∧ (s.db.processed? mid).isSome

/-! ## Steps -/

def Cmd.authorizes : Cmd → Bool
  | .sendAuthorize _ | .awaitAuthorize => true
  | _ => false

inductive Step (cfg : Config) : Option Tid → Shared → Shared → Prop
  | execute {t : Tid} {s : Shared} {req : AuthorizeRequest} (hs : cfg.service = .repository)
      (hr : s.rpc t = .requested req) : Step cfg none s (s.execute t req)
  | answer {t : Tid} {s : Shared} {req : AuthorizeRequest} (hs : cfg.service = .conforming)
      (hr : s.rpc t = .requested req) (res : AuthorizeResponse) : Step cfg none s (s.setRpc t (.executed res))
  | loseCall {t : Tid} {s : Shared}
      (hr : (∃ req, s.rpc t = .requested req) ∨ ∃ res, s.rpc t = .executed res) :
      Step cfg none s (s.setRpc t .lost)
  | expire {s : Shared} {i : Nat} {b : Broker} (h : s.broker.expire i = some b) :
      Step cfg none s { s with broker := b }
  | loseChannel (t : Tid) (s : Shared) : Step cfg none s (s.loseChannel t)
  | tick (s : Shared) : Step cfg none s { s with clock := s.clock + 1 }
  | arrive {t : Tid} {s : Shared} (req : CreateOrderRequest) (h : s.jobs t = none) :
      Step cfg (some t) s (s.start t (.create req))
  | deliver {t : Tid} {s : Shared} {i : Nat} {msg : Message} {b : Broker} (hj : s.jobs t = none)
      (h : s.broker.take .process i = some (msg, b)) :
      Step cfg (some t) s ({ s with broker := b.setChannel t (.ready (some msg)) }.start t (.deliver msg))
  | skipUuid (t : Tid) (s : Shared) : Step cfg (some t) s { s with uuids := s.uuids + 1 }
  | failed {t : Tid} {s : Shared} {c : Cmd} (h : c.authorizes = false) :
      Step cfg (some t) s (s.log (.failed t c))
  | ackLost (t : Tid) (s : Shared) (c : Cmd) : Step cfg (some t) s (s.log (.ackLost t c))
  | reserve {t : Tid} {s : Shared} {req : CreateOrderRequest} {products : List Product} {plan : OrderPlan}
      {order : Order} {items : List OrderItem} (h : Reserves s t req products plan order items) :
      Step cfg (some t) s (s.commit t (reserveLog products plan order items))
  | request {t : Tid} {s : Shared} {req : AuthorizeRequest} (h : Requests s t req) :
      Step cfg (some t) s ((s.setRpc t (.requested req)).log (.sent t req))
  | reject {t : Tid} {s : Shared} {id : Uuid} {c : Cmd} (hc : c.authorizes = true)
      (h : s.phase t = .reserved id ∨ s.phase t = .requested id)
      (hs : s.phase t = .reserved id ∨ c = .awaitAuthorize) : Step cfg (some t) s (s.log (.failed t c))
  | receive {t : Tid} {s : Shared} {id : Uuid} {res : AuthorizeResponse} (h : s.phase t = .requested id)
      (hr : s.rpc t = .executed res) : Step cfg (some t) s (s.setRpc t (.answered res))
  | release {t : Tid} {s : Shared} {id : Uuid} (h : s.phase t = .rejected id) :
      Step cfg (some t) s (s.commit t (releaseLog s.db id))
  | pay {t : Tid} {s : Shared} {id : Uuid} {res : AuthorizeResponse} (h : s.phase t = .requested id)
      (hr : s.rpc t = .answered res) : Step cfg (some t) s (s.write t (.payOrder id res.paymentId res.status))
  | identify {t : Tid} {s : Shared} {id : Uuid} (h : s.phase t = .paid id) :
      Step cfg (some t) s ({ s with uuids := s.uuids + 1 }.log (.generated t s.uuids))
  | publish {t : Tid} {s : Shared} {id mid : Uuid} (createdAt : Nat) (h : s.phase t = .identified id mid) :
      Step cfg (some t) s (s.published t .process (processMessage mid id createdAt))
  | process {t : Tid} {s : Shared} {payload : OrdersProcessMessage} {mid oid : Uuid} {order : Order}
      (processedAt : Nat) (h : Processes s t payload mid oid order) :
      Step cfg (some t) s (s.commit t (processLog mid oid order processedAt))
  | republish {t : Tid} {s : Shared} {msg : Message} {payload : OrdersProcessMessage} {rk : RoutingKey}
      {msg' : Message} (hj : s.jobs t = some (.deliver msg)) (hm : msg.content = .value payload)
      (hp : s.phase t = .start) (h : Republishes cfg payload rk msg') :
      Step cfg (some t) s (s.published t rk msg')
  | ack {t : Tid} {s : Shared} {msg : Message} {payload : OrdersProcessMessage}
      (hc : s.broker.channel t = .ready (some msg)) (hm : msg.content = .value payload)
      (h : Ackable s t payload) : Step cfg (some t) s (s.acked t msg)
  | nack {t : Tid} {s : Shared} {msg : Message} (hc : s.broker.channel t = .ready (some msg)) :
      Step cfg (some t) s (s.nacked t)
  | lose (t : Tid) (s : Shared) : Step cfg (some t) s (s.loseChannel t)

/-- The states of the saga on a catalogue. -/
def Saga (cfg : Config) (c : Catalogue) (s : Shared) : Prop := Runs (Step cfg) (fun _ => True) c.shared s

end OrdersBackend
