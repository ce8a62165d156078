import OrdersBackend.OrderPolicy
import OrdersBackend.World

/-!
# `OrdersService.createOrder`

The procedure in the stages of the source: the reservation transaction, the
payment with its compensation, the update that stores the payment, the publish
of the process message, and the `catch` and `finally` around all of them.
-/

namespace OrdersBackend

open Conc Async

structure CreateOrderResult where
  reused : Bool
  order : Order
  /-- The loaded relation; a new order is returned without it. -/
  items : Option (List OrderItem)
  payment : Option AuthorizeResponse
  messageId : Option Uuid
  deriving DecidableEq, Repr

def paymentOf (order : Order) : Option AuthorizeResponse :=
  match order.paymentId, order.paymentStatus with
  | some paymentId, some status => some ⟨paymentId, status⟩
  | _, _ => none

def reusedResult (existing : Order × List OrderItem) : CreateOrderResult :=
  { reused := true, order := existing.1, items := some existing.2, payment := paymentOf existing.1,
    messageId := none }

/-- One query or transaction on a further connection of the pool. -/
def withConnection {α : Type} (use : Use) (body : Api α) : Api α := do
  issue (.acquire use)
  body.tryFinally (issue .free)

/-- `dataSource.transaction(body)`. -/
def transaction (body : Api Unit) : Api Unit :=
  withConnection .compensation <|
    tryCatch (do
      issue (.startTransaction .em)
      body
      issue (.commitTransaction .em))
    fun e => do
      tryCatch (issue (.rollbackTransaction .em)) fun _ => pure ()
      throw e

/-! ## The reservation transaction -/

def lockProducts : List Uuid → List Product → Api (List Product)
  | [], products => pure products
  | id :: rest, products => do
    let product ← issue (.lockProduct id)
    lockProducts rest (products ++ product.toList)

/-- `SELECT ... WHERE id IN (productIds) FOR UPDATE`: the rows are locked one
after the other, in the order of the table. -/
def selectProductsForUpdate (productIds : List Uuid) : Api (List Product) := do
  let rows ← issue (.matchProducts productIds)
  lockProducts rows []

def undefinedProduct : Err := .js "Cannot read properties of undefined"

def saveProducts (byId : JsMap Uuid Product) : List (Uuid × Int) → Api Unit :=
  forEach fun entry =>
    match byId.get? entry.1 with
    | none => throw undefinedProduct
    | some product => issue (.saveStock product.id (product.stock - entry.2))

def saveItems (byId : JsMap Uuid Product) (order : Order) : List OrderItemInput → Api Unit :=
  forEach fun itemInput =>
    match byId.get? itemInput.productId with
    | none => throw undefinedProduct
    | some product => issue (.insertItem order.id product.id itemInput.quantity product.price)

def reserve (actor : RequestUser) (dto : CreateOrderDto) (idempotencyKey : String) :
    Api (Order × OrderPlan) := do
  let products ← selectProductsForUpdate (dto.items.map (·.productId)).eraseDups
  let plan ← ofExcept (buildOrderPlan products dto.items)
  saveProducts (productsById products) plan.quantityByProductId.entries
  let order ← issue (.insertOrder actor.id idempotencyKey)
  saveItems (productsById products) order dto.items
  issue (.commitTransaction .qr)
  pure (order, plan)

/-! ## The payment -/

def failOrderAndReleaseStock (orderId : Uuid) : Api Unit :=
  transaction do
    let found ← issue (.findOrderById orderId)
    match found with
    | none => pure ()
    | some (order, items) =>
      if order.status = .failed then pure ()
      else do
        issue (.saveFailed order.id)
        forEach (fun item => issue (.incrementStock item.productId item.quantity)) items

/-- An error is a gRPC status if its `code` is a number; 4 is
`DEADLINE_EXCEEDED`. -/
def handlePaymentsRpcError (error : Err) : Err :=
  match error with
  | .grpc code =>
    if code = 4 then
      .http (gatewayTimeoutError "Payments authorization timed out" (.service "payments" "grpc" none))
    else
      .http (serviceUnavailableError "Payments authorization failed"
        (.service "payments" "grpc" (some code)))
  | _ => .http (serviceUnavailableError "Payments authorization failed" (.service "payments" "grpc" none))

/-- `PaymentsClient.authorize`, with a gRPC client that sends. It passes
`undefined` as metadata; where the gRPC client throws on that, as grpc-js 1.14.3
does, the send is one that rejects. -/
def authorize (req : AuthorizeRequest) : Api AuthorizeResponse := do
  issue (.sendAuthorize req)
  issue .awaitAuthorize

def authorizeRequest (cfg : Config) (order : Order) (plan : OrderPlan) (idempotencyKey : String) :
    AuthorizeRequest :=
  { orderId := order.id, amountCents := plan.amountCents, currency := cfg.currency,
    idempotencyKey := some idempotencyKey }

def authorizePayment (cfg : Config) (order : Order) (plan : OrderPlan) (idempotencyKey : String) :
    Api AuthorizeResponse :=
  tryCatch (authorize (authorizeRequest cfg order plan idempotencyKey)) fun error => do
    failOrderAndReleaseStock order.id
    throw (handlePaymentsRpcError error)

/-! ## The process message -/

def processMessage (messageId orderId : Uuid) (createdAt : Nat) : Message :=
  { content := .value
      { messageId := some messageId, orderId := some orderId, createdAt := some createdAt,
        attempt := .primitive (.num 0), correlationId := some messageId, producer := some "orders-api",
        eventName := some "orders.process" }
    messageId := some messageId
    correlationId := some messageId }

def publishProcess (order : Order) : Api Uuid := do
  let messageId ← issue .uuid
  let createdAt ← issue .now
  issue (.publish .process (processMessage messageId order.id createdAt))
  pure messageId

/-! ## The whole call -/

/-- What follows the commit of the reservation. -/
def settle (cfg : Config) (order : Order) (plan : OrderPlan) (idempotencyKey : String) :
    Api CreateOrderResult := do
  let payment ← authorizePayment cfg order plan idempotencyKey
  withConnection .payment (issue (.updatePayment order.id payment.paymentId payment.status))
  let messageId ← publishProcess order
  pure
    { reused := false, order := order.pay payment.paymentId payment.status, items := none,
      payment := some payment, messageId := some messageId }

def createOrderTry (cfg : Config) (actor : RequestUser) (dto : CreateOrderDto) (idempotencyKey : String) :
    Api CreateOrderResult := do
  let user ← issue (.findUser actor.id)
  match user with
  | none => throw (.http (notFoundError "Authenticated user was not found" (.user actor.id)))
  | some _ => do
    let existing ← issue (.findOrder actor.id idempotencyKey)
    match existing with
    | some existing => do
      issue (.commitTransaction .qr)
      pure (reusedResult existing)
    | none => do
      let (order, plan) ← reserve actor dto idempotencyKey
      settle cfg order plan idempotencyKey

def rollbackIfActive : Api Unit := do
  let active ← issue .isTransactionActive
  if active then issue (.rollbackTransaction .qr) else pure ()

def createOrderCatch (actor : RequestUser) (idempotencyKey : String) (e : Err) : Api CreateOrderResult := do
  rollbackIfActive
  if isUniqueViolation e then do
    let found ← withConnection .lookup (issue (.findOrder actor.id idempotencyKey))
    match found with
    | some existing => pure (reusedResult existing)
    | none => throw (.http (conflictError "Duplicate idempotency key" .none))
  else throw e

def createOrder (cfg : Config) (actor : RequestUser) (dto : CreateOrderDto) (idempotencyKey : String) :
    Api CreateOrderResult :=
  if idempotencyKey = "" then
    throw (.http (badRequestError "Idempotency-Key header is required" .none))
  else if dto.items = [] then
    throw (.http (badRequestError "items must be a non-empty array" .none))
  else do
    issue (.connect .api)
    issue (.startTransaction .qr)
    tryFinally
      (tryCatch (createOrderTry cfg actor dto idempotencyKey) (createOrderCatch actor idempotencyKey))
      (issue (.release .api))

end OrdersBackend
