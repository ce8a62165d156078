import OrdersBackend.Database
import OrdersBackend.PaymentsStore
import OrdersBackend.Rabbit
import OrdersBackend.Lib.Async

/-!
# Commands

What `createOrder` and the worker's `handle` wait for, one command for each
awaited statement, remote call or broker operation. `dataSource.transaction`
and `dataSource.getRepository` take a further connection of the process's
pool, which is a command of its own (`acquire`, given back by `free`).
-/

namespace OrdersBackend

open Conc

/-- Each process has its own connection pool. -/
inductive Pool where
  | api
  | worker
  deriving DecidableEq, Repr

inductive Use where
  | compensation
  | payment
  | lookup
  deriving DecidableEq, Repr

/-- The connection a transaction runs on: the query runner the procedure has
created, or the one `dataSource.transaction` creates. -/
inductive Slot where
  | qr
  | em
  deriving DecidableEq, Repr

inductive Cmd where
  | connect (pool : Pool)
  | release (pool : Pool)
  | acquire (use : Use)
  | free
  | startTransaction (slot : Slot)
  | isTransactionActive
  | commitTransaction (slot : Slot)
  | rollbackTransaction (slot : Slot)
  | findUser (id : Uuid)
  | findOrder (userId : Uuid) (idempotencyKey : String)
  | findOrderById (id : Uuid)
  | matchProducts (ids : List Uuid)
  | lockProduct (id : Uuid)
  | saveStock (id : Uuid) (stock : Int)
  | incrementStock (id : Uuid) (quantity : Int)
  | insertOrder (userId : Uuid) (idempotencyKey : String)
  | insertItem (orderId productId : Uuid) (quantity : Int) (priceAtPurchase : Nat)
  | saveFailed (id : Uuid)
  | updatePayment (id paymentId : Uuid) (paymentStatus : PaymentStatus)
  | insertProcessed (messageId orderId : Option Uuid) (handler : String)
  | lockOrder (id : Option Uuid)
  | simulateWork
  | saveProcessed (id : Uuid)
  | sendAuthorize (req : AuthorizeRequest)
  | awaitAuthorize
  | uuid
  | now
  | publish (rk : RoutingKey) (msg : Message)
  | ack
  | nack
  deriving DecidableEq, Repr

@[reducible] def Cmd.Res : Cmd → Type
  | .isTransactionActive => Bool
  | .findUser _ => Option User
  | .findOrder _ _ => Option (Order × List OrderItem)
  | .findOrderById _ => Option (Order × List OrderItem)
  | .matchProducts _ => List Uuid
  | .lockProduct _ => Option Product
  | .insertOrder _ _ => Order
  | .lockOrder _ => Option Order
  | .awaitAuthorize => AuthorizeResponse
  | .uuid => Uuid
  | .now => Nat
  | _ => Unit

abbrev Api (α : Type) := Async Cmd Cmd.Res Err α

/-- `await` of one command. -/
abbrev issue (c : Cmd) : Api c.Res := Async.call c

def Cmd.infallible : Cmd → Bool
  | .release _ | .free | .isTransactionActive | .uuid | .now => true
  | _ => false

end OrdersBackend
