import OrdersBackend.Entities
import OrdersBackend.Lib.Doubles
import Mathlib.Logic.Function.Basic

/-!
# Messages and queues

The topology `assertTopology` declares, and the messages on it. A delivery's
bytes are read through `JSON.parse`; a field that is absent, or an id that is
not a uuid, is `none`. Every consumer and every publishing request has its own
view of its channel: open, with what was delivered to it and is not yet
acknowledged, or lost.
-/

namespace OrdersBackend

open Binary64

/-- A primitive value, as `attempt` may be one. -/
inductive Primitive where
  | undefined
  | null
  | bool (b : Bool)
  | num (n : Number)
  | str (s : String)
  deriving DecidableEq, Repr

/-- A JSON value, as `attempt` may arrive: of an array or an object counts the
string it converts to, if its own properties do not prevent that. -/
inductive Json where
  | primitive (v : Primitive)
  | object (text : Option String)
  deriving DecidableEq, Repr

/-- `ToPrimitive`, as `<` and `+` apply it. -/
def Json.toPrimitive : Json → Except Err Primitive
  | .primitive v => .ok v
  | .object (some s) => .ok (.str s)
  | .object none => .error (.js "Cannot convert object to primitive value")

namespace Primitive

/-- `ToNumber`. -/
def toNumber : Primitive → Number
  | .undefined => .nan
  | .null => 0
  | .bool b => if b then 1 else 0
  | .num n => n
  | .str s => .ofString s

/-- `v < max`. -/
def lt (v : Primitive) (max : Number) : Bool := v.toNumber.lt max

/-- `v + 1`: addition of numbers, or concatenation when `v` is a string. -/
def succ : Primitive → Primitive
  | .str s => .str (s ++ "1")
  | v => .num (v.toNumber.add 1)

/-- What is left of `v` after `JSON.stringify` and `JSON.parse`. -/
def stringify : Primitive → Primitive
  | .num .nan => .null
  | .num (.inf _) => .null
  | v => v

end Primitive

def Json.stringify : Json → Json
  | .primitive v => .primitive v.stringify
  | .object text => .object text

structure OrdersProcessMessage where
  messageId : Option Uuid
  orderId : Option Uuid
  createdAt : Option Nat
  attempt : Json
  correlationId : Option Uuid
  producer : Option String
  eventName : Option String
  deriving DecidableEq, Repr

/-- What `JSON.parse` makes of a delivery: it throws, it returns `null`, which
cannot be destructured, or it returns a value whose fields can be read. -/
inductive Content where
  | malformed
  | null
  | value (payload : OrdersProcessMessage)
  deriving DecidableEq, Repr

structure Message where
  content : Content
  messageId : Option Uuid
  correlationId : Option Uuid
  deriving DecidableEq, Repr

/-- The message is a copy of the process message `messageId` of `orderId`. -/
def Message.isCopy (m : Message) (messageId orderId : Uuid) : Prop :=
  ∃ payload, m.content = .value payload ∧ payload.messageId = some messageId ∧
    payload.orderId = some orderId

inductive RoutingKey where
  | process
  | retry
  | dlq
  deriving DecidableEq, Repr

inductive Queue where
  | process
  | retry
  | dlq
  deriving DecidableEq, Repr

/-- The queues bound to `orders.exchange` with a routing key. -/
def bindings : RoutingKey → List Queue
  | .process => [.process]
  | .retry => [.retry]
  | .dlq => [.dlq]

/-- The `deadLetterRoutingKey` of `orders.retry.5s`. -/
def deadLetterRoutingKey : RoutingKey := .process

inductive Channel where
  | ready (unacked : Option Message)
  | lost
  deriving DecidableEq, Repr

def Channel.unacked : Channel → Option Message
  | .ready m => m
  | .lost => none

abbrev Tid := Nat

structure Broker where
  queue : Queue → List Message
  channel : Tid → Channel

namespace Broker

def empty : Broker := ⟨fun _ => [], fun _ => .ready none⟩

def push (q : Queue) (m : Message) (b : Broker) : Broker :=
  { b with queue := Function.update b.queue q (b.queue q ++ [m]) }

/-- A publish to the direct exchange. -/
def publish (rk : RoutingKey) (m : Message) (b : Broker) : Broker :=
  (bindings rk).foldl (fun b q => b.push q m) b

def setChannel (t : Tid) (ch : Channel) (b : Broker) : Broker :=
  { b with channel := Function.update b.channel t ch }

/-- Take the i-th message off a queue. -/
def take (q : Queue) (i : Nat) (b : Broker) : Option (Message × Broker) :=
  match (b.queue q)[i]? with
  | none => none
  | some m => some (m, { b with queue := Function.update b.queue q ((b.queue q).eraseIdx i) })

/-- What `t` holds unacknowledged goes back to `orders.process`. -/
def requeue (t : Tid) (ch : Channel) (b : Broker) : Broker :=
  match (b.channel t).unacked with
  | none => b.setChannel t ch
  | some m => (b.push .process m).setChannel t ch

/-- The delay of `orders.retry.5s` is over for its i-th message. -/
def expire (i : Nat) (b : Broker) : Option Broker :=
  (b.take .retry i).map fun mb => mb.2.publish deadLetterRoutingKey mb.1

theorem publish_queue (rk : RoutingKey) (m : Message) (b : Broker) (q : Queue) :
    (b.publish rk m).queue q = if q ∈ bindings rk then b.queue q ++ [m] else b.queue q := by
  cases rk <;> cases q <;> simp [publish, bindings, push]

theorem publish_channel (rk : RoutingKey) (m : Message) (b : Broker) :
    (b.publish rk m).channel = b.channel := by
  cases rk <;> rfl

end Broker

end OrdersBackend
