import OrdersBackend.World

/-!
# `OrdersWorker.handle`

The worker's handler and the `catch` of `RabbitService.consume` around it. The
sleep and the simulated failure (`ORDERS_FAIL_PROB`) are one command, which
may reject.
-/

namespace OrdersBackend

open Conc Async

/-- `JSON.parse` of the delivery, then the destructuring of its value. -/
def parse (msg : Message) : Except Err OrdersProcessMessage :=
  match msg.content with
  | .malformed => .error (.js "Unexpected token in JSON")
  | .null => .error (.js "Cannot destructure property 'messageId' of 'payload' as it is null")
  | .value payload => .ok payload

def handleTry (payload : OrdersProcessMessage) : Api Unit := do
  issue (.insertProcessed payload.messageId payload.orderId "orders-worker")
  let order ← issue (.lockOrder payload.orderId)
  match order with
  | none => throw (.js "Order not found")
  | some order =>
    if order.status = .processed then do
      issue (.commitTransaction .qr)
      issue .ack
    else do
      issue .simulateWork
      issue (.saveProcessed order.id)
      issue (.commitTransaction .qr)
      issue .ack

/-- A message published again, with the properties `publishJson` is given. -/
def republished (payload : OrdersProcessMessage) : Message :=
  { content := .value { payload with attempt := payload.attempt.stringify }
    messageId := payload.messageId
    correlationId := payload.correlationId.or payload.messageId }

def handleCatch (cfg : Config) (payload : OrdersProcessMessage) (error : Err) : Api Unit :=
  if isUniqueViolation error then do
    issue (.rollbackTransaction .qr)
    issue .ack
  else do
    issue (.rollbackTransaction .qr)
    let attempt ← ofExcept payload.attempt.toPrimitive
    if attempt.lt cfg.maxAttempts then do
      issue (.publish .retry (republished { payload with attempt := .primitive attempt.succ }))
      issue .ack
    else do
      issue (.publish .dlq (republished payload))
      issue .ack

def handle (cfg : Config) (msg : Message) : Api Unit := do
  let payload ← ofExcept (parse msg)
  issue (.connect .worker)
  issue (.startTransaction .qr)
  tryFinally (tryCatch (handleTry payload) (handleCatch cfg payload)) (issue (.release .worker))

/-- The consumer's callback: what `handle` throws puts the message back. -/
def onMessage (cfg : Config) (msg : Message) : Api Unit :=
  tryCatch (handle cfg msg) fun _ => issue .nack

end OrdersBackend
