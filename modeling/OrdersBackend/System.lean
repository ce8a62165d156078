import OrdersBackend.Lib.Threads
import OrdersBackend.OrdersService
import OrdersBackend.OrdersWorker

/-!
# The system

Requests and deliveries arrive at any time and run interleaved with the
payments service, the broker and each other; any procedure may die at any
point. A procedure that dies loses its connections, so its transaction is
rolled back and what it has not acknowledged is delivered again.
-/

namespace OrdersBackend

open Conc

/-- A thread replies with the result of `createOrder`; a consumer has none. -/
abbrev Reply := Option CreateOrderResult

/-- The payments process does not restart; its store is in memory. -/
inductive EnvAct where
  | execute (t : Tid)
  | answer (t : Tid) (res : AuthorizeResponse)
  | loseRequest (t : Tid)
  | loseResponse (t : Tid)
  | expire (i : Nat)
  | loseChannel (t : Tid)
  | tick
  deriving DecidableEq, Repr

inductive Arrival where
  | request (req : CreateOrderRequest)
  | delivery (i : Nat)

def World.kill (t : Tid) (w : World) : World :=
  let w := (w.unlockAll t).setSession t .init
  { w with
    toShared := w.toShared.loseChannel t
    pool := fun p => (w.pool p).filter (· ≠ t) }

/-- `PaymentsGrpcController.authorize` on the request of `t`. -/
def Shared.execute (t : Tid) (req : AuthorizeRequest) (s : Shared) : Shared :=
  let (rec_, payments) := s.payments.authorize s.uuids req
  { s with
    payments
    uuids := s.uuids + 1
    rpc := Function.update s.rpc t (.executed ⟨rec_.paymentId, rec_.status⟩)
    trace := .executed t req rec_ :: s.trace }

def Shared.env (cfg : Config) (a : EnvAct) (s : Shared) : Option Shared :=
  match a with
  | .execute t =>
    match s.rpc t with
    | .requested req => if cfg.service = .repository then some (s.execute t req) else none
    | _ => none
  | .answer t res =>
    match s.rpc t with
    | .requested _ => if cfg.service = .conforming then some (s.setRpc t (.executed res)) else none
    | _ => none
  | .loseRequest t =>
    match s.rpc t with
    | .requested _ => some (s.setRpc t .lost)
    | _ => none
  | .loseResponse t =>
    match s.rpc t with
    | .executed _ => some (s.setRpc t .lost)
    | _ => none
  | .expire i => (s.broker.expire i).map fun broker => { s with broker }
  | .loseChannel t => some (s.loseChannel t)
  | .tick => some { s with clock := s.clock + 1 }

def World.env (cfg : Config) (a : EnvAct) (w : World) : Option World :=
  (w.toShared.env cfg a).map fun s => { w with toShared := s }

def requestThread (cfg : Config) (req : CreateOrderRequest) : Api Reply := do
  let result ← createOrder cfg req.actor req.dto req.idempotencyKey
  pure (some result)

def deliveryThread (cfg : Config) (msg : Message) : Api Reply := do
  onMessage cfg msg
  pure none

def Shared.start (t : Tid) (job : Job) (s : Shared) : Shared :=
  { s with jobs := Function.update s.jobs t (some job) }

/-- The next message of `orders.process` is handed to the consumer `t`. -/
def Shared.deliver (t : Tid) (i : Nat) (s : Shared) : Option (Message × Shared) :=
  (s.broker.take .process i).map fun mb =>
    (mb.1, { s with broker := mb.2.setChannel t (.ready (some mb.1)) }.start t (.deliver mb.1))

def World.arrive (cfg : Config) (t : Tid) (a : Arrival) (w : World) : Option (Api Reply × World) :=
  match w.jobs t with
  | some _ => none
  | none =>
    match a with
    | .request req => some (requestThread cfg req, { w with toShared := w.toShared.start t (.create req) })
    | .delivery i =>
      (w.toShared.deliver t i).map fun ms => (deliveryThread cfg ms.1, { w with toShared := ms.2 })

def machine (cfg : Config) : Machine World Tid Cmd Cmd.Res Err Reply Choice EnvAct Arrival where
  exec := exec cfg
  kill := World.kill
  env := World.env cfg
  spawn := World.arrive cfg

abbrev SysConf := Conf World Tid Cmd Cmd.Res Err Reply

abbrev SysLabel := Label Tid Choice EnvAct Arrival

/-- A catalogue: users and products, and nothing ordered yet. -/
structure Catalogue where
  users : List User
  products : List Product
  productIds : (products.map (·.id)).Nodup
  stockNonneg : ∀ p ∈ products, 0 ≤ p.stock

def Catalogue.shared (c : Catalogue) : Shared where
  db := ⟨c.users, c.products, [], [], []⟩
  payments := .empty
  rpc := fun _ => .idle
  broker := .empty
  jobs := fun _ => none
  uuids := 0
  clock := 0
  trace := []

def Catalogue.initial (c : Catalogue) : SysConf where
  world :=
    { toShared := c.shared
      sess := fun _ => .init
      locks := fun _ => none
      pool := fun _ => [] }
  threads := fun _ => .idle

/-- The configurations some run reaches from a catalogue. -/
def Reachable (cfg : Config) (c : Catalogue) (conf : SysConf) : Prop :=
  (machine cfg).Reach c.initial conf

def Catalogue.after (cfg : Config) (c : Catalogue) (ls : List SysLabel) : SysConf :=
  ((machine cfg).run c.initial ls).getD c.initial

theorem Catalogue.reachable_after (cfg : Config) (c : Catalogue) (ls : List SysLabel) :
    Reachable cfg c (c.after cfg ls) := Machine.reach_getD_run c.initial ls

theorem Catalogue.reachWhen_after (cfg : Config) (c : Catalogue) {ls : List SysLabel} {P : SysLabel → Prop}
    (hP : ∀ l ∈ ls, P l) : (machine cfg).ReachWhen (fun _ l => P l) c.initial (c.after cfg ls) := by
  unfold after
  cases h : (machine cfg).run c.initial ls with
  | none => exact .refl
  | some conf => exact .of_labels hP .refl h

/-- Where a run leads whose steps all pass the check. -/
def Catalogue.afterWhen (cfg : Config) (check : SysConf → SysLabel → Bool) (c : Catalogue) (ls : List SysLabel) :
    SysConf := ((machine cfg).runWhen check c.initial ls).getD c.initial

theorem Catalogue.reachable_afterWhen (cfg : Config) (check : SysConf → SysLabel → Bool) (c : Catalogue)
    (ls : List SysLabel) :
    (machine cfg).ReachWhen (fun conf l => check conf l = true) c.initial (c.afterWhen cfg check ls) :=
  Machine.reachWhen_getD_runWhen check c.initial ls

/-! ## A small shop -/

def Config.ofPool (n : Nat) (service : PaymentsService) : Config :=
  { poolSize := fun _ => n, maxAttempts := 3, currency := "USD", service }

def Catalogue.shop (stock : Nat) : Catalogue where
  users := [⟨0⟩, ⟨1⟩]
  products := [⟨0, "Mug", 500, stock, none⟩]
  productIds := by simp
  stockNonneg := by simp

def mugRequest (userId : Uuid) (idempotencyKey : String) : CreateOrderRequest where
  actor := ⟨userId, .user⟩
  dto := ⟨[⟨0, 1⟩], by simp, by simp⟩
  idempotencyKey

def requestSteps (t : Tid) (req : CreateOrderRequest) (n : Nat) : List SysLabel :=
  .spawn t (.request req) :: List.replicate n (.run t .proceed)

def saleSteps (t : Tid) (req : CreateOrderRequest) : List SysLabel :=
  requestSteps t req 11 ++ .env (.execute t) :: List.replicate 8 (.run t .proceed)

def deliverySteps (t : Tid) (i : Nat) : List SysLabel :=
  .spawn t (.delivery i) :: List.replicate 9 (.run t .proceed)

end OrdersBackend
