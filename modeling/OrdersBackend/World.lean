import OrdersBackend.Commands

/-!
# The shared world

`Shared` is what outlives a procedure: the committed tables, the payments
service and the calls in flight to it, the broker, and a trace of what has
happened. `World` adds the state of the running procedures: their database
sessions, the row locks and the pools. `exec` says how each command takes
effect; it returns `none` where the command is blocked.
-/

namespace OrdersBackend

open Conc Binary64

structure CreateOrderRequest where
  actor : RequestUser
  dto : CreateOrderDto
  idempotencyKey : String

/-- What a procedure was started for. -/
inductive Job where
  | create (req : CreateOrderRequest)
  | deliver (msg : Message)

/-- The Authorize call of a procedure. A request, once sent, is executed or
lost; a response reaches the client or is lost. -/
inductive Rpc where
  | idle
  | requested (req : AuthorizeRequest)
  | executed (res : AuthorizeResponse)
  | answered (res : AuthorizeResponse)
  | lost
  deriving DecidableEq, Repr

inductive Event where
  | generated (t : Tid) (id : Uuid)
  | wrote (t : Tid) (wr : Write) (delta : Int)
  | sent (t : Tid) (req : AuthorizeRequest)
  | executed (t : Tid) (req : AuthorizeRequest) (rec_ : PaymentRecord)
  | published (t : Tid) (rk : RoutingKey) (msg : Message)
  | acked (t : Tid) (msg : Message)
  | failed (t : Tid) (c : Cmd)
  | ackLost (t : Tid) (c : Cmd)
  deriving DecidableEq, Repr

/-- The procedure that made an event happen; the payments service is none. -/
def Event.actor : Event → Option Tid
  | .generated t _ => some t
  | .wrote t _ _ => some t
  | .sent t _ => some t
  | .executed _ _ _ => none
  | .published t _ _ => some t
  | .acked t _ => some t
  | .failed t _ => some t
  | .ackLost t _ => some t

structure Shared where
  db : Db
  payments : PaymentsStore
  rpc : Tid → Rpc
  broker : Broker
  jobs : Tid → Option Job
  uuids : Nat
  clock : Nat
  /-- Newest first. -/
  trace : List Event

structure Session where
  /-- `qr.isTransactionActive`. -/
  active : Bool
  /-- The connection is gone, so a ROLLBACK on it cannot succeed. -/
  broken : Bool
  /-- The writes of the open transaction. -/
  log : Option (List Write)
  deriving DecidableEq, Repr

def Session.init : Session := ⟨false, false, none⟩

structure World extends Shared where
  sess : Tid → Session
  locks : Row → Option Tid
  pool : Pool → List Tid

/-- The payments service the system talks to: the repository's, or any that
conforms to `payments.proto`. -/
inductive PaymentsService where
  | repository
  | conforming
  deriving DecidableEq, Repr

structure Config where
  poolSize : Pool → Nat
  /-- `Number(process.env.ORDERS_MAX_ATTEMPTS ?? 3)`. -/
  maxAttempts : Number
  /-- `process.env.PAYMENTS_CURRENCY ?? 'USD'`. -/
  currency : String
  service : PaymentsService

namespace Shared

def log (e : Event) (s : Shared) : Shared := { s with trace := e :: s.trace }

def write (t : Tid) (s : Shared) (wr : Write) : Shared :=
  { s with db := wr.apply s.db, trace := .wrote t wr (wr.delta s.db) :: s.trace }

def commit (t : Tid) (ws : List Write) (s : Shared) : Shared := ws.foldl (Shared.write t) s

def setRpc (t : Tid) (r : Rpc) (s : Shared) : Shared := { s with rpc := Function.update s.rpc t r }

def published (t : Tid) (rk : RoutingKey) (msg : Message) (s : Shared) : Shared :=
  { s with broker := s.broker.publish rk msg, trace := .published t rk msg :: s.trace }

def acked (t : Tid) (msg : Message) (s : Shared) : Shared :=
  { s with broker := s.broker.setChannel t (.ready none), trace := .acked t msg :: s.trace }

def nacked (t : Tid) (s : Shared) : Shared := { s with broker := s.broker.requeue t (.ready none) }

/-- What `t` writes to a lost channel never reaches the broker. -/
def publish (t : Tid) (rk : RoutingKey) (msg : Message) (s : Shared) : Shared :=
  match s.broker.channel t with
  | .lost => s
  | .ready _ => s.published t rk msg

def ack (t : Tid) (s : Shared) : Shared :=
  match s.broker.channel t with
  | .ready (some m) => s.acked t m
  | _ => s

def nack (t : Tid) (s : Shared) : Shared :=
  match s.broker.channel t with
  | .ready (some _) => s.nacked t
  | _ => s

/-- `t`'s channel is gone; the broker delivers what it held again. -/
def loseChannel (t : Tid) (s : Shared) : Shared := { s with broker := s.broker.requeue t .lost }

end Shared

namespace World

/-- What `t` reads: the committed rows and its own writes. -/
def view (t : Tid) (w : World) : Db :=
  match (w.sess t).log with
  | none => w.db
  | some ws => w.db.applyAll ws

def lockable (t : Tid) (w : World) (r : Row) : Bool := w.locks r == none || w.locks r == some t

def lock (t : Tid) (w : World) (r : Row) : World := { w with locks := Function.update w.locks r (some t) }

def setSession (t : Tid) (s : Session) (w : World) : World := { w with sess := Function.update w.sess t s }

def unlockAll (t : Tid) (w : World) : World :=
  { w with locks := fun r => if w.locks r = some t then none else w.locks r }

/-- A statement of `t`'s transaction: it locks the rows it writes, or waits. -/
def stmt (t : Tid) (wr : Write) (w : World) : Option World :=
  if wr.rows.all (w.lockable t) then
    let w' := wr.rows.foldl (World.lock t) w
    some (w'.setSession t { w.sess t with log := (w.sess t).log.map (· ++ [wr]) })
  else none

def logEvent (e : Event) (w : World) : World := { w with toShared := w.toShared.log e }

/-- The transaction of `t` is over at the server. -/
def endTx (t : Tid) (active broken : Bool) (w : World) : World :=
  (w.unlockAll t).setSession t ⟨active, broken, none⟩

def commitTx (t : Tid) (ws : List Write) (active broken : Bool) (w : World) : World :=
  { w with toShared := w.toShared.commit t ws }.endTx t active broken

def addConn (p : Pool) (t : Tid) (w : World) : World :=
  { w with pool := Function.update w.pool p (t :: w.pool p) }

def removeConn (p : Pool) (t : Tid) (w : World) : World :=
  { w with pool := Function.update w.pool p ((w.pool p).erase t) }

def nextUuid (w : World) : World := { w with uuids := w.uuids + 1 }

end World

def transactionNotStarted : Err := .js "Transaction is not started yet"

/-- The rows of `(userId, idempotencyKey)` with the items, as a `findOne` with
`relations: { items: true }` returns them. -/
def Db.withItems (db : Db) (o : Option Order) : Option (Order × List OrderItem) :=
  o.map fun o => (o, db.itemsOf o.id)

/-- A command that goes through. -/
def perform (cfg : Config) (t : Tid) : (c : Cmd) → World → Option (Except Err c.Res × World)
  | .connect p, w => if (w.pool p).length < cfg.poolSize p then some (.ok (), w.addConn p t) else none
  | .release p, w => some (.ok (), w.removeConn p t)
  | .acquire _, w => if (w.pool .api).length < cfg.poolSize .api then some (.ok (), w.addConn .api t) else none
  | .free, w => some (.ok (), w.removeConn .api t)
  | .startTransaction slot, w =>
    some (.ok (), w.setSession t { w.sess t with
      active := slot == .qr || (w.sess t).active
      log := some [] })
  | .isTransactionActive, w => some (.ok (w.sess t).active, w)
  | .commitTransaction slot, w =>
    match (w.sess t).log with
    | none => some (.error transactionNotStarted, w)
    | some ws => some (.ok (), w.commitTx t ws (slot == .em && (w.sess t).active) false)
  | .rollbackTransaction slot, w =>
    if (w.sess t).broken then none
    else if slot == .qr && !(w.sess t).active then some (.error transactionNotStarted, w)
    else some (.ok (), w.endTx t (slot == .em && (w.sess t).active) false)
  | .findUser id, w => some (.ok ((w.view t).user? id), w)
  | .findOrder u k, w => some (.ok ((w.view t).withItems ((w.view t).orderByKey? u k)), w)
  | .findOrderById id, w => some (.ok ((w.view t).withItems ((w.view t).order? id)), w)
  | .matchProducts ids, w =>
    some (.ok (((w.view t).products.filter fun p => p.id ∈ ids).map (·.id)), w)
  | .lockProduct id, w =>
    if w.lockable t (.product id) then
      some (.ok ((w.view t).product? id), w.lock t (.product id))
    else none
  | .saveStock id n, w => (w.stmt t (.stock id n)).map fun w' => (.ok (), w')
  | .incrementStock id q, w => (w.stmt t (.addStock id q)).map fun w' => (.ok (), w')
  | .insertOrder u k, w =>
    if w.lockable t (.orderKey u k) then
      if ((w.view t).orderByKey? u k).isSome then some (.error uniqueViolation, w)
      else
        let order : Order :=
          { id := w.uuids, userId := u, idempotencyKey := k, status := .pending, paymentId := none,
            paymentStatus := none, createdAt := w.clock, processedAt := none }
        (w.nextUuid.stmt t (.insertOrder order)).map fun w' => (.ok order, w')
    else none
  | .insertItem o p q price, w =>
    (w.nextUuid.stmt t (.insertItem ⟨w.uuids, o, p, q, price⟩)).map fun w' => (.ok (), w')
  | .saveFailed id, w => (w.stmt t (.failOrder id)).map fun w' => (.ok (), w')
  | .updatePayment id pid st, w =>
    if w.lockable t (.order id) then
      some (.ok (), { w with toShared := w.toShared.write t (.payOrder id pid st) })
    else none
  | .insertProcessed mid oid handler, w =>
    match mid, oid with
    | some mid, some oid =>
      if w.lockable t (.message mid) then
        if ((w.view t).processed? mid).isSome then some (.error uniqueViolation, w)
        else (w.stmt t (.insertProcessed ⟨mid, oid, handler⟩)).map fun w' => (.ok (), w')
      else none
    | _, _ => some (.error (.pg "23502"), w)
  | .lockOrder id, w =>
    match id with
    | none => some (.ok none, w)
    | some id =>
      if w.lockable t (.order id) then some (.ok ((w.view t).order? id), w.lock t (.order id)) else none
  | .simulateWork, w => some (.ok (), w)
  | .saveProcessed id, w => (w.stmt t (.processOrder id w.clock)).map fun w' => (.ok (), w')
  | .sendAuthorize req, w =>
    match w.rpc t with
    | .idle => some (.ok (), { w with toShared := (w.toShared.setRpc t (.requested req)).log (.sent t req) })
    | _ => none
  | .awaitAuthorize, w =>
    match w.rpc t with
    | .executed res => some (.ok res, { w with toShared := w.toShared.setRpc t (.answered res) })
    | _ => none
  | .uuid, w => some (.ok w.uuids, w.nextUuid.logEvent (.generated t w.uuids))
  | .now, w => some (.ok w.clock, w)
  | .publish rk msg, w => some (.ok (), { w with toShared := w.toShared.publish t rk msg })
  | .ack, w => some (.ok (), { w with toShared := w.toShared.ack t })
  | .nack, w => some (.ok (), { w with toShared := w.toShared.nack t })

/-- A command that rejects has no effect, except that a transaction whose
COMMIT or ROLLBACK rejects is over at the server. -/
def reject (t : Tid) (c : Cmd) (w : World) : World :=
  match c with
  | .commitTransaction _ | .rollbackTransaction _ => w.endTx t (w.sess t).active (w.sess t).broken
  | _ => w

/-- A statement that takes effect although its client is told it failed. -/
def performLost (t : Tid) (c : Cmd) (w : World) : Option World :=
  match c with
  | .commitTransaction _ => (w.sess t).log.map fun ws => w.commitTx t ws (w.sess t).active true
  | .updatePayment id pid st =>
    if w.lockable t (.order id) then
      some { w with toShared := w.toShared.write t (.payOrder id pid st) }
    else none
  | _ => none

/-- The channel's methods throw once amqplib knows that it is closed. -/
def channelClosed : Err := .js "Channel closed"

def World.refuses (t : Tid) (w : World) : Cmd → Bool
  | .publish _ _ | .ack | .nack => w.broker.channel t = .lost
  | _ => false

/-- How the environment lets a command end. A lost channel can be written to as
long as its loss is unnoticed. -/
inductive Choice where
  | proceed
  | unnoticed
  | fail (e : Err)
  | ackLost (e : Err)
  deriving DecidableEq, Repr

/-- SQLSTATE 23505 is reported for a unique violation only. -/
def exec (cfg : Config) (t : Tid) (c : Cmd) (ch : Choice) (w : World) : Option (Except Err c.Res × World) :=
  match ch with
  | .proceed => if w.refuses t c then some (.error channelClosed, w.logEvent (.failed t c)) else perform cfg t c w
  | .unnoticed => if w.refuses t c then perform cfg t c w else none
  | .fail e =>
    if c.infallible || isUniqueViolation e then none
    else some (.error e, (reject t c w).logEvent (.failed t c))
  | .ackLost e =>
    if isUniqueViolation e then none
    else (performLost t c w).map fun w' => (.error e, w'.logEvent (.ackLost t c))

end OrdersBackend
