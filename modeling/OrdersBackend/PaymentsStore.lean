import OrdersBackend.Entities
import OrdersBackend.Lib.JsMap

/-!
# The payments service

`PaymentsStore` keeps its records in memory, by id and by idempotency key.
`uuid` stands for the value `randomUUID()` returns.
-/

namespace OrdersBackend

open Conc

structure AuthorizeRequest where
  orderId : Uuid
  amountCents : Int
  currency : String
  idempotencyKey : Option String
  deriving DecidableEq, Repr

structure AuthorizeResponse where
  paymentId : Uuid
  status : PaymentStatus
  deriving DecidableEq, Repr

structure PaymentRecord where
  paymentId : Uuid
  orderId : Uuid
  amountCents : Int
  currency : String
  status : PaymentStatus
  deriving DecidableEq, Repr

structure PaymentsStore where
  byId : JsMap Uuid PaymentRecord
  byIdempotencyKey : JsMap String Uuid

namespace PaymentsStore

def empty : PaymentsStore := ⟨.empty, .empty⟩

/-- The record an earlier request with this key created. -/
def existing (store : PaymentsStore) (idempotencyKey : Option String) : Option PaymentRecord :=
  match idempotencyKey with
  | none => none
  | some key =>
    if key = "" then none
    else
      match store.byIdempotencyKey.get? key with
      | none => none
      | some existingId => store.byId.get? existingId

def create (store : PaymentsStore) (uuid : Uuid) (input : AuthorizeRequest) :
    PaymentRecord × PaymentsStore :=
  let rec_ : PaymentRecord :=
    { paymentId := uuid, orderId := input.orderId, amountCents := input.amountCents,
      currency := input.currency, status := .authorized }
  let byId := store.byId.set uuid rec_
  match input.idempotencyKey with
  | none => (rec_, { store with byId })
  | some key =>
    if key = "" then (rec_, { store with byId })
    else (rec_, { byId, byIdempotencyKey := store.byIdempotencyKey.set key uuid })

def authorize (store : PaymentsStore) (uuid : Uuid) (input : AuthorizeRequest) :
    PaymentRecord × PaymentsStore :=
  match store.existing input.idempotencyKey with
  | some existing => (existing, store)
  | none => store.create uuid input

def getStatus (store : PaymentsStore) (paymentId : Uuid) : Option PaymentRecord :=
  store.byId.get? paymentId

theorem authorize_existing {store : PaymentsStore} {uuid : Uuid} {input : AuthorizeRequest}
    {rec_ : PaymentRecord} (h : store.existing input.idempotencyKey = some rec_) :
    store.authorize uuid input = (rec_, store) := by
  unfold authorize; rw [h]

theorem authorize_create {store : PaymentsStore} {uuid : Uuid} {input : AuthorizeRequest}
    (h : store.existing input.idempotencyKey = none) :
    store.authorize uuid input = store.create uuid input := by
  unfold authorize; rw [h]

theorem create_fst (store : PaymentsStore) (uuid : Uuid) (input : AuthorizeRequest) :
    (store.create uuid input).1 = ⟨uuid, input.orderId, input.amountCents, input.currency, .authorized⟩ := by
  unfold create
  cases input.idempotencyKey with
  | none => rfl
  | some key => by_cases hk : key = "" <;> simp [hk]

theorem create_byId (store : PaymentsStore) (uuid : Uuid) (input : AuthorizeRequest) :
    (store.create uuid input).2.byId = store.byId.set uuid (store.create uuid input).1 := by
  unfold create
  cases input.idempotencyKey with
  | none => rfl
  | some key => by_cases hk : key = "" <;> simp [hk]

theorem existing_byId {store : PaymentsStore} {key : Option String} {rec_ : PaymentRecord}
    (h : store.existing key = some rec_) : ∃ id, store.byId.get? id = some rec_ := by
  unfold existing at h
  cases key with
  | none => cases h
  | some key =>
    by_cases hk : key = ""
    · simp [hk] at h
    · simp only [hk, if_false] at h
      split at h
      · cases h
      · rename_i id _
        exact ⟨id, h⟩

end PaymentsStore

end OrdersBackend
