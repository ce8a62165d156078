import OrdersBackend.Lib.Steady
import OrdersBackend.Rules

/-!
# Connections given back

Every connection that a procedure takes is given back once, on every way out,
unless BEGIN is rejected: between `connect` and the `try` nothing gives the
query runner back.
-/

namespace OrdersBackend

open Conc Async Protocol

variable {cfg : Config} {c : Catalogue} {t u : Tid} {w w' : World} {cmd : Cmd} {ch : Choice} {α : Type}

/-! ## What a thread holds -/

def Cmd.beginsQr : Cmd → Bool
  | .startTransaction .qr => true
  | _ => false

structure Held where
  api : Nat
  worker : Nat
  /-- The BEGIN of the query runner was rejected. -/
  unbegun : Bool

def Held.init : Held := ⟨0, 0, false⟩

def World.held (t : Tid) (w : World) : Held :=
  ⟨(w.pool .api).count t, (w.pool .worker).count t, rejectedIn t Cmd.beginsQr w.trace⟩

namespace Held

def count (h : Held) : Pool → Nat
  | .api => h.api
  | .worker => h.worker

def gain (p : Pool) (h : Held) : Held :=
  match p with
  | .api => { h with api := h.api + 1 }
  | .worker => { h with worker := h.worker + 1 }

def drop (p : Pool) (h : Held) : Held :=
  match p with
  | .api => { h with api := h.api - 1 }
  | .worker => { h with worker := h.worker - 1 }

theorem drop_gain (p : Pool) (h : Held) : (h.gain p).drop p = h := by
  cases p <;> rfl

end Held

theorem count_held (p : Pool) : (w.held t).count p = (w.pool p).count t := by
  cases p <;> rfl

/-- What a command makes of it. -/
def Cmd.moves (h : Held) : (cmd : Cmd) → Except Err cmd.Res → Held
  | .connect p, .ok _ => h.gain p
  | .acquire _, .ok _ => h.gain .api
  | .release p, .ok _ => h.drop p
  | .free, .ok _ => h.drop .api
  | .startTransaction .qr, .error _ => { h with unbegun := true }
  | _, _ => h

def Cmd.holds : Cmd → Bool
  | .connect _ | .acquire _ | .release _ | .free | .startTransaction .qr => true
  | _ => false

theorem moves_of_not_holds (hc : cmd.holds = false) (h : Held) (r : Except Err cmd.Res) : cmd.moves h r = h := by
  cases cmd with
  | connect | acquire | release | free => cases hc
  | startTransaction slot =>
    cases slot with
    | qr => cases hc
    | em => rfl
  | _ => rfl

/-! ## The effect of a command -/

theorem pool_stmt {wr : Write} (h : w.stmt t wr = some w') : w'.pool = w.pool := (stmt_eq h).2.2.1

theorem perform_pool {r : Except Err cmd.Res} (hc : cmd.holds = false) (h : perform cfg t cmd w = some (r, w')) :
    w'.pool = w.pool := by
  cases cmd with
  | connect | acquire | release | free => cases hc
  | startTransaction | isTransactionActive | findUser | findOrder | findOrderById | matchProducts | simulateWork |
      now | uuid | publish | ack | nack =>
    cases h
    rfl
  | saveStock | incrementStock | saveFailed | saveProcessed => exact pool_stmt (stmt_map h).1
  | insertItem => exact pool_stmt (w := w.nextUuid) (stmt_map h).1
  | commitTransaction | lockProduct | updatePayment | sendAuthorize | awaitAuthorize =>
    simp only [perform] at h
    split at h <;> cases h <;> rfl
  | rollbackTransaction | lockOrder =>
    simp only [perform] at h
    split at h
    · cases h <;> rfl
    · split at h <;> cases h <;> rfl
  | insertOrder =>
    simp only [perform] at h
    split at h
    · split at h
      · cases h
        rfl
      · exact pool_stmt (w := w.nextUuid) (stmt_map h).1
    · cases h
  | insertProcessed =>
    simp only [perform] at h
    split at h
    · split at h
      · split at h
        · cases h
          rfl
        · exact pool_stmt (stmt_map h).1
      · cases h
    · cases h
      rfl

theorem perform_rejectedIn {r : Except Err cmd.Res} (h : perform cfg t cmd w = some (r, w')) (f : Cmd → Bool) :
    rejectedIn u f w'.trace = rejectedIn u f w.trace := by
  cases hs : cmd.silent with
  | true => rcases perform_silent hs h with he | he <;> rw [he]
  | false =>
    cases cmd with
    | commitTransaction slot =>
      simp only [perform] at h
      split at h
      · cases h
        rfl
      · cases h
        exact rejectedIn_commit u t f _ w.toShared
    | updatePayment | sendAuthorize | awaitAuthorize =>
      simp only [perform] at h
      split at h
      · cases h
        rfl
      · cases h
    | uuid =>
      cases h
      rfl
    | publish rk msg =>
      cases h
      show rejectedIn u f (w.toShared.publish t rk msg).trace = _
      unfold Shared.publish
      split <;> rfl
    | ack =>
      cases h
      show rejectedIn u f (w.toShared.ack t).trace = _
      unfold Shared.ack
      split <;> rfl
    | nack =>
      cases h
      show rejectedIn u f (w.toShared.nack t).trace = _
      unfold Shared.nack
      split <;> rfl
    | _ => cases hs

theorem held_addConn (p : Pool) : (w.addConn p t).held t = (w.held t).gain p := by
  cases p <;> simp [World.held, World.addConn, Held.gain]

theorem held_removeConn (p : Pool) : (w.removeConn p t).held t = (w.held t).drop p := by
  cases p <;> simp [World.held, World.removeConn, Held.drop]

theorem held_addConn_ne (hne : u ≠ t) (p : Pool) : (w.addConn p t).held u = w.held u := by
  cases p <;> simp [World.held, World.addConn, List.count_cons_of_ne hne.symm]

theorem held_removeConn_ne (hne : u ≠ t) (p : Pool) : (w.removeConn p t).held u = w.held u := by
  cases p <;> simp [World.held, World.removeConn, List.count_erase_of_ne hne]

theorem held_eq (hpool : w'.pool = w.pool)
    (htrace : rejectedIn u Cmd.beginsQr w'.trace = rejectedIn u Cmd.beginsQr w.trace) : w'.held u = w.held u := by
  unfold World.held
  rw [hpool, htrace]

theorem held_perform {r : Except Err cmd.Res} (h : perform cfg t cmd w = some (r, w')) :
    w'.held t = cmd.moves (w.held t) r ∧ ∀ u, u ≠ t → w'.held u = w.held u := by
  cases hc : cmd.holds with
  | false =>
    have hsame : ∀ u, w'.held u = w.held u := fun u => held_eq (perform_pool hc h) (perform_rejectedIn h _)
    rw [moves_of_not_holds hc]
    exact ⟨hsame t, fun u _ => hsame u⟩
  | true =>
    cases cmd with
    | connect p =>
      simp only [perform] at h
      split at h <;> cases h
      exact ⟨held_addConn p, fun u hne => held_addConn_ne hne p⟩
    | acquire use =>
      simp only [perform] at h
      split at h <;> cases h
      exact ⟨held_addConn .api, fun u hne => held_addConn_ne hne .api⟩
    | release p =>
      cases h
      exact ⟨held_removeConn p, fun u hne => held_removeConn_ne hne p⟩
    | free =>
      cases h
      exact ⟨held_removeConn .api, fun u hne => held_removeConn_ne hne .api⟩
    | startTransaction slot =>
      cases h
      exact ⟨by cases slot <;> rfl, fun _ _ => rfl⟩
    | _ => cases hc

theorem held_reject (w : World) (cmd : Cmd) : (reject t cmd w).held u = w.held u := by
  unfold reject
  split <;> rfl

theorem held_performLost (h : performLost t cmd w = some w') :
    cmd.holds = false ∧ ∀ u, w'.held u = w.held u := by
  unfold performLost at h
  split at h
  · obtain ⟨ws, _, rfl⟩ := Option.map_eq_some_iff.mp h
    exact ⟨rfl, fun u => held_eq rfl (rejectedIn_commit u t _ ws w.toShared)⟩
  · split at h
    · cases h
      exact ⟨rfl, fun _ => rfl⟩
    · cases h
  · cases h

theorem held_logEvent (e : Event) : (w.logEvent e).held u =
    ⟨(w.held u).api, (w.held u).worker, e.rejects u Cmd.beginsQr || (w.held u).unbegun⟩ := rfl

theorem held_logEvent_ne {e : Event} (hne : e.actor ≠ some u) : (w.logEvent e).held u = w.held u := by
  rw [held_logEvent, rejects_of_actor hne, Bool.false_or]

theorem held_exec {r : Except Err cmd.Res} (h : exec cfg t cmd ch w = some (r, w')) :
    w'.held t = cmd.moves (w.held t) r ∧ ∀ u, u ≠ t → w'.held u = w.held u := by
  rcases exec_cases h with h | ⟨e, _, _, rfl, rfl⟩ | ⟨e, w₁, _, h₁, rfl, rfl⟩
  · exact held_perform h
  · refine ⟨?_, fun u hne => ?_⟩
    · rw [held_logEvent, held_reject, Event.rejects, decide_eq_true rfl, Bool.true_and]
      cases cmd with
      | startTransaction slot => cases slot <;> rfl
      | _ => rfl
    · have hactor : (Event.failed t cmd).actor ≠ some u := fun he => hne (Option.some.inj he).symm
      rw [held_logEvent_ne hactor, held_reject]
  · obtain ⟨hc, hsame⟩ := held_performLost h₁
    refine ⟨?_, fun u hne => ?_⟩
    · have hbegins : cmd.beginsQr = false := by
        cases cmd with
        | startTransaction slot =>
          cases slot with
          | qr => cases hc
          | em => rfl
        | _ => rfl
      rw [moves_of_not_holds hc, held_logEvent, hsame t, Event.rejects, hbegins, Bool.and_false]
      rfl
    · have hactor : (Event.ackLost t cmd).actor ≠ some u := fun he => hne (Option.some.inj he).symm
      rw [held_logEvent_ne hactor, hsame u]

/-! ## The protocol -/

/-- A connection is taken by a thread that holds none but its query runner, and
given back by one that holds it. -/
def Cmd.Paired (h : Held) : Cmd → Prop
  | .connect _ => h = .init
  | .release p => h = .gain p .init
  | .acquire _ => h.api = 1
  | .free => h.api = 2
  | _ => True

/-- A procedure that is over holds nothing, or the query runner whose BEGIN was
rejected. -/
def Held.Over (h : Held) : Prop := h = .init ∨ ∃ p, h = { Held.init.gain p with unbegun := true }

def connections (cfg : Config) : Protocol (machine cfg) where
  allows _ := True
  inv _ := True
  rely t w w' := w'.held t = w.held t
  guar _ _ _ := True
  pre t cmd w := cmd.Paired (w.held t)
  post t _ w := (w.held t).Over
  rely_refl _ _ := rfl
  rely_trans _ _ _ _ h h' := h'.trans h
  post_rely t _ w w' h hr := by
    rw [hr]
    exact h
  exec_ok _ _ _ _ _ _ _ _ _ hx _ := ⟨trivial, (held_exec hx).2⟩
  kill_ok t w _ _ := ⟨trivial, fun u hne => by
    have hcount : ∀ p, ((w.pool p).filter (· ≠ t)).count u = (w.pool p).count u := fun p => by
      rw [List.count_filter (by simpa using hne)]
    simp only [World.held, machine, World.kill, World.unlockAll, World.setSession, Shared.loseChannel, hcount]⟩
  env_ok act w w' _ _ h := by
    obtain ⟨s, hs, rfl⟩ := Option.map_eq_some_iff.mp h
    obtain ⟨es, he, hes⟩ := (step_of_env hs).trace
    refine ⟨trivial, fun t => held_eq rfl ?_⟩
    show rejectedIn t Cmd.beginsQr s.trace = _
    rw [he, rejectedIn_append]
    exact fun e hm => rejects_of_actor (by rw [hes e hm]; exact nofun) _
  spawn_ok t arr w p w' _ _ h := by
    obtain ⟨_, s, rfl, _, _, htr, _⟩ := arrive_cases h
    refine ⟨trivial, fun u _ => held_eq rfl ?_⟩
    show rejectedIn u Cmd.beginsQr s.trace = _
    rw [htr]

abbrev HeldWp (cfg : Config) (t : Tid) (p : Api α) (Q : Except Err α → World → Prop) (w : World) : Prop :=
  (connections cfg).wp t p Q w

/-- The procedure holds `h` wherever it is between two stages, and at its end. -/
abbrev Holding (cfg : Config) (t : Tid) (h : Held) (p : Api α) : Prop :=
  (connections cfg).Steady t (fun w => w.held t = h) p

/-! ## The procedures -/

theorem wp_held {h : Held} {Q : Except Err cmd.Res → World → Prop} (hw : w.held t = h) (hpre : cmd.Paired h)
    (hQ : ∀ ch r w' w'', exec cfg t cmd ch w' = some (r, w'') → w''.held t = cmd.moves h r → Q r w'') :
    HeldWp cfg t (issue cmd) Q w := by
  intro w' hr _
  have hw' : w'.held t = h := Eq.trans hr hw
  refine ⟨by rw [← hw'] at hpre; exact hpre, fun ch r w'' _ hx => ⟨trivial, hQ ch r w' w'' hx ?_⟩⟩
  rw [(held_exec hx).1, hw']

theorem holding_issues {h : Held} {p : Api α} (hp : p.Issues fun cmd => cmd.holds = false) : Holding cfg t h p := by
  apply steady_issues _ _ _ hp
  · intro w w' hw hr
    exact Eq.trans hr hw
  · intro cmd w hc _ _
    cases cmd with
    | connect | release | acquire | free => cases hc
    | _ => trivial
  · intro cmd ch r w w' hc hw hx
    refine ⟨trivial, ?_⟩
    rw [(held_exec hx).1, moves_of_not_holds hc, hw]

theorem holding_issue {h : Held} (hc : cmd.holds = false) : Holding cfg t h (issue cmd) :=
  holding_issues (issues_call hc)

theorem release_ok {p : Pool} {r : Except Err Unit}
    (h : exec cfg t (.release p) ch w = some (r, w') ∨ exec cfg t .free ch w = some (r, w')) : r = .ok () := by
  rcases h with h | h
  · rcases exec_cases h with h | ⟨e, hf, _⟩ | ⟨e, w₁, _, h₁, _⟩
    · cases h
      rfl
    · cases hf
    · cases h₁
  · rcases exec_cases h with h | ⟨e, hf, _⟩ | ⟨e, w₁, _, h₁, _⟩
    · cases h
      rfl
    · cases hf
    · cases h₁

theorem holding_withConnection {h : Held} (hapi : h.api = 1) {use : Use} {body : Api α}
    (hbody : Holding cfg t (h.gain .api) body) : Holding cfg t h (withConnection use body) := by
  refine steady_bracket (fun w hw => ?_) hbody (fun w hw => ?_)
  · refine wp_held hw hapi fun ch r w' w'' _ hmoves => ?_
    cases r with
    | ok a => exact hmoves
    | error e => exact hmoves
  · refine wp_held hw (by simp [Cmd.Paired, Held.gain, hapi]) fun ch r w' w'' hx hmoves => ?_
    rw [release_ok (p := .api) (.inr hx)] at hmoves
    exact hmoves.trans (h.drop_gain .api)

theorem holding_transaction {h : Held} (hapi : h.api = 1) {body : Api Unit}
    (hbody : Holding cfg t (h.gain .api) body) : Holding cfg t h (transaction body) := by
  refine holding_withConnection hapi (steady_tryCatch ?_ fun e => ?_)
  · exact steady_bind (holding_issue rfl) fun _ => steady_bind hbody fun _ => holding_issue rfl
  · exact steady_bind (steady_tryCatch (holding_issue rfl) fun _ => steady_done _) fun _ => steady_done _

/-- A query runner that is given back in a `finally`, once BEGIN has gone
through. -/
theorem wp_queryRunner {p : Pool} {body : Api α} (hw : w.held t = .init)
    (hbody : Holding cfg t (.gain p .init) body) :
    HeldWp cfg t (do
      issue (.connect p)
      issue (.startTransaction .qr)
      tryFinally body (issue (.release p))) (fun _ w' => (w'.held t).Over) w := by
  refine Protocol.wp_bind _ (wp_held hw rfl fun ch r w₁ w₂ _ hmoves => ?_)
  cases r with
  | error e => exact .inl hmoves
  | ok _ =>
    refine Protocol.wp_bind _ (wp_held hmoves trivial fun ch r w₃ w₄ _ hmoves' => ?_)
    cases r with
    | error e => exact .inr ⟨p, hmoves'⟩
    | ok _ =>
      refine Protocol.wp_tryFinally _ (Protocol.wp_mono _ (fun r w₅ hw₅ => ?_) (hbody w₄ hmoves'))
      refine wp_held hw₅ rfl fun ch r' w₆ w₇ hx hmoves'' => ?_
      rw [release_ok (.inl hx)] at hmoves'' ⊢
      cases p <;> exact .inl hmoves''

/-! ## `createOrder` -/

theorem holding_failOrder {h : Held} (hapi : h.api = 1) (orderId : Uuid) :
    Holding cfg t h (failOrderAndReleaseStock orderId) := by
  refine holding_transaction hapi (steady_bind (holding_issue rfl) fun found => ?_)
  cases found with
  | none => exact steady_done _
  | some found =>
    obtain ⟨order, items⟩ := found
    simp only
    split
    · exact steady_done _
    · refine steady_bind (holding_issue rfl) fun _ => holding_issues (issues_forEach (fun item => ?_) items)
      exact issues_call rfl

theorem holding_settle {h : Held} (hapi : h.api = 1) (order : Order) (plan : OrderPlan) (key : String) :
    Holding cfg t h (settle cfg order plan key) := by
  refine steady_bind (steady_tryCatch ?_ fun error => ?_) fun payment => ?_
  · exact steady_bind (holding_issue rfl) fun _ => holding_issue rfl
  · exact steady_bind (holding_failOrder hapi order.id) fun _ => steady_done _
  · refine steady_bind (holding_withConnection hapi (holding_issue rfl)) fun _ => ?_
    refine steady_bind (holding_issues ?_) fun _ => steady_done _
    exact issues_bind (issues_call rfl) fun _ => issues_bind (issues_call rfl) fun _ =>
      issues_bind (issues_call rfl) fun _ => issues_done _

theorem issues_reserve (actor : RequestUser) (dto : CreateOrderDto) (key : String) :
    (reserve actor dto key).Issues fun cmd => cmd.holds = false := by
  have lock : ∀ (ids : List Uuid) (products : List Product),
      (lockProducts ids products).Issues fun cmd => cmd.holds = false := by
    intro ids
    induction ids with
    | nil => exact fun _ => issues_done _
    | cons id ids ih => exact fun products => issues_bind (issues_call rfl) fun product => ih _
  refine issues_bind (issues_bind (issues_call rfl) fun rows => lock rows []) fun products => ?_
  refine issues_bind (issues_done _) fun plan => issues_bind (issues_forEach (fun entry => ?_) _) fun _ => ?_
  · split
    · exact issues_done _
    · exact issues_call rfl
  · refine issues_bind (issues_call rfl) fun order => issues_bind (issues_forEach (fun item => ?_) _) fun _ => ?_
    · split
      · exact issues_done _
      · exact issues_call rfl
    · exact issues_bind (issues_call rfl) fun _ => issues_done _

theorem holding_createOrderTry {h : Held} (hapi : h.api = 1) (actor : RequestUser) (dto : CreateOrderDto)
    (key : String) : Holding cfg t h (createOrderTry cfg actor dto key) := by
  refine steady_bind (holding_issue rfl) fun user => ?_
  cases user with
  | none => exact steady_done _
  | some user =>
    refine steady_bind (holding_issue rfl) fun existing => ?_
    cases existing with
    | some existing => exact steady_bind (holding_issue rfl) fun _ => steady_done _
    | none =>
      exact steady_bind (holding_issues (issues_reserve actor dto key)) fun r => holding_settle hapi r.1 r.2 key

theorem holding_createOrderCatch {h : Held} (hapi : h.api = 1) (actor : RequestUser) (key : String) (e : Err) :
    Holding cfg t h (createOrderCatch actor key e) := by
  refine steady_bind (steady_bind (holding_issue rfl) fun active => ?_) fun _ => ?_
  · split
    · exact holding_issue rfl
    · exact steady_done _
  · split
    · refine steady_bind (holding_withConnection hapi (holding_issue rfl)) fun found => ?_
      cases found with
      | some existing => exact steady_done _
      | none => exact steady_done _
    · exact steady_done _

theorem wp_createOrder_held (hw : w.held t = .init) (actor : RequestUser) (dto : CreateOrderDto) (key : String) :
    HeldWp cfg t (createOrder cfg actor dto key) (fun _ w' => (w'.held t).Over) w := by
  unfold createOrder
  split
  · exact .inl hw
  split
  · exact .inl hw
  exact wp_queryRunner hw (steady_tryCatch (holding_createOrderTry rfl actor dto key)
    fun e => holding_createOrderCatch rfl actor key e)

/-! ## `handle` -/

theorem issues_handleTry (payload : OrdersProcessMessage) :
    (handleTry payload).Issues fun cmd => cmd.holds = false := by
  refine issues_bind (issues_call rfl) fun _ => issues_bind (issues_call rfl) fun order => ?_
  cases order with
  | none => exact issues_done _
  | some order =>
    simp only
    split
    · exact issues_bind (issues_call rfl) fun _ => issues_call rfl
    · exact issues_bind (issues_call rfl) fun _ => issues_bind (issues_call rfl) fun _ =>
        issues_bind (issues_call rfl) fun _ => issues_call rfl

theorem issues_handleCatch (payload : OrdersProcessMessage) (e : Err) :
    (handleCatch cfg payload e).Issues fun cmd => cmd.holds = false := by
  unfold handleCatch
  split
  · exact issues_bind (issues_call rfl) fun _ => issues_call rfl
  · refine issues_bind (issues_call rfl) fun _ => issues_bind (issues_done _) fun attempt => ?_
    split
    · exact issues_bind (issues_call rfl) fun _ => issues_call rfl
    · exact issues_bind (issues_call rfl) fun _ => issues_call rfl

theorem wp_onMessage_held (hw : w.held t = .init) (msg : Message) :
    HeldWp cfg t (onMessage cfg msg) (fun _ w' => (w'.held t).Over) w := by
  have hhandle : HeldWp cfg t (handle cfg msg) (fun _ w' => (w'.held t).Over) w := by
    refine Protocol.wp_check _ (fun e _ => .inl hw) fun payload _ => ?_
    exact wp_queryRunner hw (steady_tryCatch (holding_issues (issues_handleTry payload))
      fun e => holding_issues (issues_handleCatch payload e))
  refine Protocol.wp_tryCatch _ (Protocol.wp_mono _ (fun r w' hover => ?_) hhandle)
  cases r with
  | ok _ => exact hover
  | error e =>
    refine wp_held rfl trivial fun ch r w₁ w₂ _ hmoves => ?_
    rw [hmoves]
    exact hover

/-! ## Runs -/

theorem wp_arrive_held (t : Tid) (arr : Arrival) (w : World) (p : Api Reply) (w' : World)
    (_ : (connections cfg).allows (.spawn t arr)) (_ : (connections cfg).inv w) (hw : w.held t = .init)
    (h : (machine cfg).spawn t arr w = some (p, w')) :
    HeldWp cfg t p ((connections cfg).post t) w' := by
  obtain ⟨_, s, rfl, _, _, htr, hp⟩ := arrive_cases h
  have hw' : World.held t { w with toShared := s } = .init := by
    rw [← hw]
    exact held_eq rfl (congrArg _ htr)
  rcases hp with ⟨req, rfl, _⟩ | ⟨msg, rfl, _⟩
  · refine Protocol.wp_bind _ (Protocol.wp_mono _ (fun r w₁ hover => ?_)
      (wp_createOrder_held hw' req.actor req.dto req.idempotencyKey))
    cases r <;> exact hover
  · refine Protocol.wp_bind _ (Protocol.wp_mono _ (fun r w₁ hover => ?_) (wp_onMessage_held hw' msg))
    cases r <;> exact hover

variable {conf : SysConf}

/-- What each thread holds: nothing before its start and after its death. -/
theorem Reachable.held (h : Reachable cfg c conf) :
    (connections cfg).Good conf ∧ (∀ t, conf.threads t = .idle → conf.world.held t = .init) ∧
      ∀ t, conf.threads t = .killed → ∀ p, t ∉ conf.world.pool p := by
  apply (connections cfg).sound_threads (K := fun t w => ∀ p, t ∉ w.pool p) _ _ _ wp_arrive_held _ _ _
    (h.when fun _ _ => trivial)
  · intro t w w' hw hr
    exact Eq.trans hr hw
  · intro t w w' hw hr p
    have hcount : (w'.pool p).count t = (w.pool p).count t := by
      rw [← count_held, ← count_held]
      exact congrArg (fun h => Held.count h p) hr
    rw [← List.count_eq_zero, hcount, List.count_eq_zero]
    exact hw p
  · intro t w _ p hm
    simp [machine, World.kill] at hm
  · exact ⟨trivial, fun _ _ hp => by cases hp⟩
  · intro t _
    rfl
  · intro t ht
    cases ht

/-- The BEGIN of `t`'s query runner was rejected. -/
def World.BeginRejected (t : Tid) (w : World) : Prop := rejectedIn t Cmd.beginsQr w.trace = true

theorem not_mem_pool_iff : (∀ p, t ∉ w.pool p) ↔ ∀ p, (w.held t).count p = 0 := by
  refine forall_congr' fun p => ?_
  rw [count_held, List.count_eq_zero]

theorem Held.Over.released_iff (h : (w.held t).Over) : (∀ p, t ∉ w.pool p) ↔ ¬w.BeginRejected t := by
  rw [not_mem_pool_iff]
  rcases h with h | ⟨p, h⟩
  · have hflag : rejectedIn t Cmd.beginsQr w.trace = false := congrArg Held.unbegun h
    refine iff_of_true (fun p => ?_) (by simp [World.BeginRejected, hflag])
    rw [h]
    cases p <;> rfl
  · have hflag : rejectedIn t Cmd.beginsQr w.trace = true := congrArg Held.unbegun h
    refine iff_of_false (fun hcount => ?_) (fun hn => hn hflag)
    have hp := hcount p
    rw [h] at hp
    cases p <;> cases hp

/-- A connection is given back only by a thread that holds it. A procedure that
has ended holds none exactly when no BEGIN of it was rejected; so once all have
ended, none is held exactly when no BEGIN of any of them was. -/
theorem connections_released_iff (h : Reachable cfg c conf) :
    (∀ t cmd k, conf.threads t = .running (.await cmd k) → cmd.Paired (conf.world.held t)) ∧
    (∀ t r, conf.threads t = .running (.done r) →
      ((∀ p, t ∉ conf.world.pool p) ↔ ¬conf.world.BeginRejected t)) ∧
    ((∀ t cmd k, conf.threads t ≠ .running (.await cmd k)) →
      ((∀ p, conf.world.pool p = []) ↔
        ∀ t r, conf.threads t = .running (.done r) → ¬conf.world.BeginRejected t)) := by
  obtain ⟨hgood, hidle, hkilled⟩ := h.held
  have hover : ∀ t r, conf.threads t = .running (.done r) →
      ((∀ p, t ∉ conf.world.pool p) ↔ ¬conf.world.BeginRejected t) := by
    intro t r ht
    have hpost : (conf.world.held t).Over := hgood.post ht
    exact hpost.released_iff
  refine ⟨fun t cmd k ht => hgood.pre ht, hover, fun hended => ⟨fun hempty t r ht => ?_, fun hnone p => ?_⟩⟩
  · refine (hover t r ht).mp fun p => ?_
    rw [hempty p]
    exact List.not_mem_nil
  · refine List.eq_nil_iff_forall_not_mem.mpr fun t => ?_
    cases ht : conf.threads t with
    | idle =>
      have hzero : ∀ p, (conf.world.held t).count p = 0 := by
        rw [hidle t ht]
        intro p
        cases p <;> rfl
      exact not_mem_pool_iff.mpr hzero p
    | killed => exact hkilled t ht p
    | running q =>
      cases q with
      | await cmd k => exact (hended t cmd k ht).elim
      | done r => exact (hover t r ht).mpr (hnone t r ht) p

/-- A mug is ordered and its message handled, and all connections are back. -/
theorem connections_released_mug :
    (∀ p, 0 ∉ ((Catalogue.shop 3).after (.ofPool 2 .repository)
      (saleSteps 0 (mugRequest 0 "k") ++ deliverySteps 1 0)).world.pool p) ∧
    ∀ p, 1 ∉ ((Catalogue.shop 3).after (.ofPool 2 .repository)
      (saleSteps 0 (mugRequest 0 "k") ++ deliverySteps 1 0)).world.pool p :=
  have h := connections_released_iff (Catalogue.reachable_after (.ofPool 2 .repository) (.shop 3)
    (saleSteps 0 (mugRequest 0 "k") ++ deliverySteps 1 0))
  ⟨(h.2.1 0 _ rfl).mpr Bool.false_ne_true, (h.2.1 1 _ rfl).mpr Bool.false_ne_true⟩

/-- A call and a delivery whose BEGIN is rejected. -/
def unbegunSteps : List SysLabel :=
  saleSteps 0 (mugRequest 0 "k") ++
    [.spawn 1 (.request (mugRequest 0 "l")), .run 1 .proceed, .run 1 (.fail (.pg "57014"))] ++
    [.spawn 2 (.delivery 0), .run 2 .proceed, .run 2 (.fail (.pg "57014")), .run 2 .proceed]

/-- Both are over, and each still holds its connection. -/
theorem connections_leaked :
    Reachable (.ofPool 2 .repository) (.shop 3) ((Catalogue.shop 3).after (.ofPool 2 .repository) unbegunSteps) ∧
    (∀ t cmd k, ((Catalogue.shop 3).after (.ofPool 2 .repository) unbegunSteps).threads t ≠
      .running (.await cmd k)) ∧
    ((Catalogue.shop 3).after (.ofPool 2 .repository) unbegunSteps).world.pool .api = [1] ∧
    ((Catalogue.shop 3).after (.ofPool 2 .repository) unbegunSteps).world.pool .worker = [2] := by
  refine ⟨Catalogue.reachable_after .., fun t cmd k ht => ?_, rfl, rfl⟩
  rcases t with _ | _ | _ | t <;> cases ht

end OrdersBackend
