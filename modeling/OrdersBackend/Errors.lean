import Mathlib.Data.List.Basic

/-!
# Errors

The domain exceptions of `common/errors/http-exception.ts` with the details
their throw sites attach, and what else an `await` can reject with: a driver
error that carries a SQLSTATE, a gRPC status, or a plain JavaScript error.
-/

namespace OrdersBackend

/-- A generated identifier. The n-th call of a uuid generator gives `n`. -/
abbrev Uuid := Nat

inductive Details where
  | none
  | user (userId : Uuid)
  | order (orderId : Uuid)
  | missing (missing : List Uuid)
  | stock (productId : Uuid) (requested available : Int)
  | service (service transport : String) (rpcCode : Option Nat)
  /-- The response body of a framework exception. -/
  | body (message error : String) (statusCode : Nat)
  deriving DecidableEq, Repr

structure HttpException where
  statusCode : Nat
  code : String
  message : String
  details : Details
  deriving DecidableEq, Repr

def badRequestError (message : String) (details : Details) : HttpException :=
  ⟨400, "BAD_REQUEST", message, details⟩

def conflictError (message : String) (details : Details) : HttpException :=
  ⟨409, "CONFLICT", message, details⟩

def notFoundError (message : String) (details : Details) : HttpException :=
  ⟨404, "NOT_FOUND", message, details⟩

def serviceUnavailableError (message : String) (details : Details) : HttpException :=
  ⟨503, "SERVICE_UNAVAILABLE", message, details⟩

def gatewayTimeoutError (message : String) (details : Details) : HttpException :=
  ⟨504, "GATEWAY_TIMEOUT", message, details⟩

/-- What a rejected promise carries. -/
inductive Err where
  | http (e : HttpException)
  | pg (code : String)
  | grpc (code : Nat)
  | js (message : String)
  deriving DecidableEq, Repr

/-- The `code` property, where the error object has one. -/
inductive ErrCode where
  | text (s : String)
  | number (n : Nat)
  deriving DecidableEq, Repr

def Err.code : Err → Option ErrCode
  | .http e => some (.text e.code)
  | .pg c => some (.text c)
  | .grpc n => some (.number n)
  | .js _ => none

/-- `'code' in error`. -/
def isPgError (e : Err) : Bool := e.code.isSome

/-- `isPgError(e) && e.code === '23505'`. -/
def isUniqueViolation (e : Err) : Bool := isPgError e && e.code == some (.text "23505")

def uniqueViolation : Err := .pg "23505"

theorem isUniqueViolation_uniqueViolation : isUniqueViolation uniqueViolation = true := by decide

end OrdersBackend
