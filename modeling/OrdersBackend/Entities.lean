import OrdersBackend.Errors

/-!
# Entities

The rows of the tables the orders subsystem reads and writes, with the columns
some modelled function uses. `price` and `priceAtPurchase` (`numeric(10,2)`)
are counted in cents.
-/

namespace OrdersBackend

inductive UserRole where
  | admin
  | user
  deriving DecidableEq, Repr

structure RequestUser where
  id : Uuid
  role : UserRole
  deriving DecidableEq, Repr

structure User where
  id : Uuid
  deriving DecidableEq, Repr

structure Product where
  id : Uuid
  title : String
  price : Nat
  stock : Int
  imageFileId : Option Uuid
  deriving DecidableEq, Repr

inductive OrderStatus where
  | pending
  | processed
  | failed
  deriving DecidableEq, Repr

inductive PaymentStatus where
  | unspecified
  | pending
  | authorized
  | captured
  | failed
  | refunded
  deriving DecidableEq, Repr

structure Order where
  id : Uuid
  userId : Uuid
  idempotencyKey : String
  status : OrderStatus
  paymentId : Option Uuid
  paymentStatus : Option PaymentStatus
  createdAt : Nat
  processedAt : Option Nat
  deriving DecidableEq, Repr

structure OrderItem where
  id : Uuid
  orderId : Uuid
  productId : Uuid
  quantity : Int
  priceAtPurchase : Nat
  deriving DecidableEq, Repr

structure ProcessedMessage where
  messageId : Uuid
  orderId : Uuid
  handler : String
  deriving DecidableEq, Repr

/-- A product id is spelled as the database spells it: the `Map` of a plan
compares the spellings. -/
structure OrderItemInput where
  productId : Uuid
  quantity : Int
  deriving DecidableEq, Repr

/-- A request body that has passed the `ValidationPipe`: `items` is not empty
and every quantity is an integer of at least 1. -/
structure CreateOrderDto where
  items : List OrderItemInput
  nonempty : items ≠ []
  positive : ∀ item ∈ items, 1 ≤ item.quantity

end OrdersBackend
