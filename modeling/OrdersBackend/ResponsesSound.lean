import OrdersBackend.Failure
import OrdersBackend.Payments
import OrdersBackend.Responses

/-!
# The response to a call

What `createOrder` throws, and what has become of the call that throws it.
-/

namespace OrdersBackend

open Conc Async Protocol

variable {cfg : Config} {c : Catalogue} {t u : Tid} {w w' : World} {cmd : Cmd} {α β : Type} {v : Bool × Bool}
variable {T : Err → Prop}

/-! ## `createOrder` -/

theorem throws_reserve (actor : RequestUser) (dto : CreateOrderDto) (key : String) :
    Throws cfg t v (fun e => e.Client ∨ e = uniqueViolation) (reserve actor dto key) := by
  have lock : ∀ (ids : List Uuid) (products : List Product),
      Throws cfg t v (fun e => e.Client ∨ e = uniqueViolation) (lockProducts ids products) := by
    intro ids
    induction ids with
    | nil => exact fun products => throws_pure products
    | cons id ids ih => exact fun products => throws_bind (throws_issue rfl) fun product => ih _
  have hundefined : undefinedProduct.Fault := fault_js _
  refine throws_bind (throws_bind (throws_issue rfl) fun rows => lock rows []) fun products => ?_
  refine throws_bind ?_ fun plan => throws_bind (throws_forEach (fun entry => ?_) _) fun _ => ?_
  · cases hplan : buildOrderPlan products dto.items with
    | ok plan => exact throws_pure plan
    | error e => exact throws_throw ((client_of_buildOrderPlan hplan).symm.imp_right .inl)
  · split
    · exact throws_throw (.inl hundefined)
    · exact throws_issue rfl
  · refine throws_bind (fun w hw => wp_command hw (fun _ _ h => h) fun e w' he => ?_) fun order => ?_
    · rcases he with ⟨hf, _⟩ | ⟨he, _, hrej⟩
      · exact .inl hf
      · exact .inr ⟨.inr he, hrej⟩
    · refine throws_bind (throws_forEach (fun input => ?_) _) fun _ =>
        throws_bind (throws_issue rfl) fun _ => throws_pure _
      split
      · exact throws_throw (.inl hundefined)
      · exact throws_issue rfl

theorem throws_failOrder (orderId : Uuid) : Throws cfg t v T (failOrderAndReleaseStock orderId) := by
  refine throws_transaction (throws_bind (throws_issue rfl) fun found => ?_)
  cases found with
  | none => exact throws_pure ()
  | some found =>
    obtain ⟨order, items⟩ := found
    simp only
    split
    · exact throws_pure ()
    · exact throws_bind (throws_issue rfl) fun _ => throws_forEach (fun item => throws_issue rfl) items

/-- What the `try` of `createOrder` throws. -/
def TryThrows (t : Tid) (w : World) (e : Err) : Prop :=
  e.Fault ∨ (e.Client ∨ e = uniqueViolation) ∧ w.rejections t = (false, false) ∨
    e.OfPayments ∧ w.rejections t = (false, true)

theorem wp_authorize_asked (req : AuthorizeRequest) (hw : w.rejections t = (false, false)) :
    ResponseWp cfg t (authorize req) (fun r w' => match r with
      | .ok _ => w'.rejections t = (false, false)
      | .error _ => w'.rejections t = (false, true)) w := by
  have hask : ∀ (cmd : Cmd) {w : World}, cmd.authorizes = true → cmd.inserts = false →
      w.rejections t = (false, false) → ResponseWp cfg t (issue cmd) (fun r w' => match r with
        | .ok _ => w'.rejections t = (false, false)
        | .error _ => w'.rejections t = (false, true)) w := by
    intro cmd w hc hins hw
    refine wp_command hw (fun _ _ h => h) fun e w' he => ?_
    rcases he with ⟨_, h⟩ | ⟨_, h, _⟩
    · have hrej := h hc
      rwa [Cmd.rejection, if_pos hc] at hrej
    · rw [hins] at h
      cases h
  refine wp_bind _ (wp_mono _ (fun r w' hr => ?_) (hask (.sendAuthorize req) rfl rfl hw))
  cases r with
  | ok _ =>
    refine wp_mono _ (fun r w'' h => ?_) (hask .awaitAuthorize rfl rfl hr)
    cases r <;> exact h
  | error e => exact hr

theorem wp_settle_throws (order : Order) (plan : OrderPlan) (key : String) (hw : w.rejections t = (false, false)) :
    ResponseWp cfg t (settle cfg order plan key) (fun r w' => ∀ e, r = .error e → TryThrows t w' e) w := by
  refine wp_bind _ (wp_tryCatch _ (wp_mono _ (fun r w₁ hw₁ => ?_) (wp_authorize_asked _ hw)))
  cases r with
  | error e =>
    refine wp_bind _ (wp_of_throws (throws_failOrder order.id) hw₁ (fun _ w₂ hw₂ e' he => ?_) fun e' w₂ hf e'' he => ?_)
    · cases he
      exact .inr (.inr ⟨⟨e, rfl⟩, hw₂⟩)
    · cases he
      exact .inl hf
  | ok payment =>
    have hrest : Throws cfg t (false, false) (fun _ => False) (do
        withConnection .payment (issue (.updatePayment order.id payment.paymentId payment.status))
        let messageId ← publishProcess order
        pure (⟨false, order.pay payment.paymentId payment.status, none, some payment, some messageId⟩ :
          CreateOrderResult)) := by
      refine throws_bind (throws_withConnection (throws_issue rfl)) fun _ => throws_bind ?_ fun _ => throws_pure _
      exact throws_bind (throws_issue rfl) fun _ => throws_bind (throws_issue rfl) fun _ =>
        throws_bind (throws_issue rfl) fun _ => throws_pure _
    refine wp_of_throws hrest hw₁ (fun _ _ _ e he => ?_) fun e w₂ hf e' he => ?_
    · cases he
    · cases he
      exact .inl hf

theorem wp_try_bind {p : Api α} {f : α → Api β} (hw : w.rejections t = (false, false))
    (hp : Throws cfg t (false, false) (fun e => e.Client ∨ e = uniqueViolation) p)
    (hf : ∀ a w', w'.rejections t = (false, false) →
      ResponseWp cfg t (f a) (fun r w' => ∀ e, r = .error e → TryThrows t w' e) w') :
    ResponseWp cfg t (p.bind f) (fun r w' => ∀ e, r = .error e → TryThrows t w' e) w := by
  refine wp_bind _ (wp_mono _ (fun r w' hr => ?_) (hp w hw))
  cases r with
  | ok a => exact hf a w' hr
  | error e =>
    intro e' he
    cases he
    exact hr.imp_right .inl

theorem wp_createOrderTry_throws (actor : RequestUser) (dto : CreateOrderDto) (key : String)
    (hw : w.rejections t = (false, false)) :
    ResponseWp cfg t (createOrderTry cfg actor dto key) (fun r w' => ∀ e, r = .error e → TryThrows t w' e) w := by
  refine wp_try_bind hw (throws_issue rfl) fun user w₁ hw₁ => ?_
  cases user with
  | none =>
    intro e he
    cases he
    exact .inr (.inl ⟨.inl (.notFound _ _), hw₁⟩)
  | some user =>
    refine wp_try_bind hw₁ (throws_issue rfl) fun existing w₂ hw₂ => ?_
    cases existing with
    | some existing =>
      refine wp_try_bind hw₂ (throws_issue rfl) fun _ _ _ e he => ?_
      cases he
    | none =>
      exact wp_try_bind hw₂ (throws_reserve actor dto key) fun r w₃ hw₃ => wp_settle_throws r.1 r.2 key hw₃

theorem throws_rollbackIfActive : Throws cfg t v (fun _ => False) rollbackIfActive := by
  refine throws_bind (throws_issue rfl) fun active => ?_
  split
  · exact throws_issue rfl
  · exact throws_pure ()

theorem wp_createOrderCatch_told (actor : RequestUser) (key : String) {e : Err} (he : TryThrows t w e) :
    ResponseWp cfg t (createOrderCatch actor key e) (fun r w' => ∀ e', r = .error e' → Told t w' e') w := by
  refine wp_bind _ (wp_of_throws throws_rollbackIfActive rfl (fun _ w₁ hrej => ?_) fun e' w₁ hf e'' he' => ?_)
  · by_cases hu : isUniqueViolation e = true
    · simp only [hu, if_true]
      have hv : w₁.rejections t = (false, false) := by
        rcases he with he | ⟨_, hv⟩ | ⟨⟨error, rfl⟩, _⟩
        · rw [he.2] at hu
          cases hu
        · exact hrej.trans hv
        · rw [not_uniqueViolation_rpcError] at hu
          cases hu
      refine wp_bind _ (wp_of_throws (throws_withConnection (throws_issue rfl)) hv (fun found w₂ hw₂ => ?_)
        fun e' w₂ hf e'' he' => ?_)
      · cases found with
        | some existing =>
          intro e' he'
          cases he'
        | none =>
          intro e' he'
          cases he'
          exact .inr (.inl ⟨.conflict _ _, hw₂⟩)
      · cases he'
        exact .inl hf
    · simp only [hu]
      intro e' he'
      cases he'
      rcases he with he | ⟨he | rfl, hv⟩ | ⟨he, hv⟩
      · exact .inl he
      · exact .inr (.inl ⟨he, hrej.trans hv⟩)
      · exact (hu isUniqueViolation_uniqueViolation).elim
      · exact .inr (.inr ⟨he, hrej.trans hv⟩)
  · cases he'
    exact .inl hf

theorem wp_createOrder_told (actor : RequestUser) (dto : CreateOrderDto) (key : String)
    (hw : w.rejections t = (false, false)) :
    ResponseWp cfg t (createOrder cfg actor dto key) (fun r w' => ∀ e, r = .error e → Told t w' e) w := by
  have hbad : ∀ message, Told t w (.http (badRequestError message .none)) := fun message =>
    .inr (.inl ⟨.badRequest message .none, hw⟩)
  have hfault : ∀ (e : Err) (w' : World), e.Fault →
      ∀ e', (.error e : Except Err CreateOrderResult) = .error e' → Told t w' e' := by
    intro e w' hf e' he
    cases he
    exact .inl hf
  unfold createOrder
  split
  · intro e he
    cases he
    exact hbad _
  split
  · intro e he
    cases he
    exact hbad _
  refine wp_bind _ (wp_of_throws (throws_issue rfl) hw (fun _ w₁ hw₁ => ?_) hfault)
  refine wp_bind _ (wp_of_throws (throws_issue rfl) hw₁ (fun _ w₂ hw₂ => ?_) hfault)
  refine wp_finally (fun _ => throws_issue rfl) (fun r w w' hr hrej e he => ?_) hfault ?_
  · unfold Told
    rw [hrej]
    exact hr e he
  · refine wp_tryCatch _ (wp_mono _ (fun r w₃ hw₃ => ?_) (wp_createOrderTry_throws actor dto key hw₂))
    cases r with
    | ok _ =>
      intro e he
      cases he
    | error e => exact wp_createOrderCatch_told actor key (hw₃ e rfl)

/-! ## Runs -/

theorem wp_arrive_told (t : Tid) (arr : Arrival) (w : World) (p : Api Reply) (w' : World)
    (_ : (responses cfg).allows (.spawn t arr)) (_ : (responses cfg).inv w) (hw : w.rejections t = (false, false))
    (h : (machine cfg).spawn t arr w = some (p, w')) : ResponseWp cfg t p ((responses cfg).post t) w' := by
  obtain ⟨_, s, rfl, _, _, htr, hp⟩ := arrive_cases h
  have hw' : World.rejections t { w with toShared := s } = (false, false) := by
    rw [← hw]
    exact rejections_eq fun f => congrArg (rejectedIn t f) htr
  rcases hp with ⟨req, rfl, _⟩ | ⟨msg, rfl, _⟩
  · refine wp_bind _ (wp_mono _ (fun r w₁ hw₁ => ?_)
      (wp_createOrder_told req.actor req.dto req.idempotencyKey hw'))
    cases r with
    | ok _ =>
      intro e he
      cases he
    | error e =>
      intro e' he
      cases he
      exact hw₁ e rfl
  · refine wp_bind _ (wp_tryCatch _ (wp_any (fun r w => ?_) _ _))
    cases r with
    | ok _ =>
      intro e he
      cases he
    | error e =>
      refine wp_of_throws (throws_issue rfl) rfl (fun _ _ _ e he => ?_) fun e w₁ hf e' he => ?_
      · cases he
      · cases he
        exact .inl hf

variable {conf conf' : SysConf} {s s' : Shared}

theorem told (h : (machine cfg).ReachWhen (fun _ l => driverErrors l = true) c.initial conf) {e : Err}
    (ht : conf.threads t = .running (.done (.error e))) : Told t conf.world e := by
  have hgood : (responses cfg).Good conf := by
    apply (responses cfg).sound_fresh _ wp_arrive_told _ _ h
    · exact fun t w w' hw hr => Eq.trans hr hw
    · exact ⟨trivial, fun _ p hp => by cases hp⟩
    · exact fun _ _ => rfl
  exact hgood.post ht e rfl

/-! ## Calls whose request for a payment was rejected -/

theorem Does.ackLost (h : Does t cmd s s') {cmd' : Cmd} (hm : .ackLost u cmd' ∈ s'.trace) :
    .ackLost u cmd' ∈ s.trace ∨ cmd'.authorizes = false := by
  have committed : ∀ {ws : List Write}, .ackLost u cmd' ∈ (s.commit t ws).trace → .ackLost u cmd' ∈ s.trace := by
    intro ws hm
    rw [commit_eq] at hm
    rcases List.mem_append.mp hm with hm | hm
    · obtain ⟨_, _, _, he⟩ := mem_wroteEvents hm
      cases he
    · exact hm
  cases h with
  | idle | draw | receive => exact .inl hm
  | commit => exact .inl (committed hm)
  | commitLost =>
    rcases List.mem_cons.mp hm with he | hm
    · cases he
      exact .inr rfl
    · exact .inl (committed hm)
  | pay | send | generate | failed =>
    rcases List.mem_cons.mp hm with he | hm
    · cases he
    · exact .inl hm
  | payLost =>
    rcases List.mem_cons.mp hm with he | hm
    · cases he
      exact .inr rfl
    · rcases List.mem_cons.mp hm with he | hm
      · cases he
      · exact .inl hm
  | publish =>
    unfold Shared.publish at hm
    split at hm
    · exact .inl hm
    · rcases List.mem_cons.mp hm with he | hm
      · cases he
      · exact .inl hm
  | ack =>
    unfold Shared.ack at hm
    split at hm
    · rcases List.mem_cons.mp hm with he | hm
      · cases he
      · exact .inl hm
    · exact .inl hm
  | nack =>
    unfold Shared.nack at hm
    split at hm <;> exact .inl hm

/-- A request for a payment is either answered or rejected for good. -/
theorem Reachable.not_authorizes_of_ackLost (h : Reachable cfg c conf) (hm : .ackLost t cmd ∈ conf.world.trace) :
    cmd.authorizes = false := by
  induction h with
  | refl => cases hm
  | @step conf conf' l hreach hs ih =>
    rcases Machine.step_cases hs with ⟨u, ch, cmd', k, r, w, rfl, hp, hx, rfl⟩ | ⟨u, cmd', k, rfl, hp, rfl⟩ |
      ⟨act, w, rfl, hx, rfl⟩ | ⟨u, arr, p, w, rfl, hp, hx, rfl⟩
    · exact ((Does.of_exec hx).ackLost hm).elim ih id
    · exact ih hm
    · obtain ⟨s', hs', rfl⟩ := Option.map_eq_some_iff.mp hx
      obtain ⟨es, htr, hes⟩ := (step_of_env hs').trace
      rw [show (World.mk s' conf.world.sess conf.world.locks conf.world.pool).trace = es ++ conf.world.trace from htr] at hm
      rcases List.mem_append.mp hm with hm | hm
      · cases hes _ hm
      · exact ih hm
    · obtain ⟨_, s', rfl, _, _, htr, _⟩ := arrive_cases hx
      exact ih (htr ▸ hm)

/-- Only a call that has an order asks for its payment. -/
theorem Saga.orderId?_of_refused (h : Saga cfg c s) (hc : cmd.authorizes = true) (hm : .failed t cmd ∈ s.trace) :
    (s.phase t).orderId?.isSome := by
  refine Runs.invariant (I := fun s => .failed t cmd ∈ s.trace → (s.phase t).orderId?.isSome) ?_ h nofun hm
  intro a s s' _ ih hs hm
  have old : .failed t cmd ∈ s.trace → (s'.phase t).orderId?.isSome := by
    intro hm
    obtain ⟨id, hid⟩ := Option.isSome_iff_exists.mp (ih hm)
    rw [hs.orderId? hid]
    rfl
  by_cases ha : a = some t
  · subst ha
    obtain ⟨es, htr, hturn⟩ := hs.turn
    rw [htr] at hm
    rcases List.mem_append.mp hm with hm | hm
    · generalize s.phase t = p at hturn
      generalize s'.phase t = p' at hturn
      cases hturn with
      | silent => cases hm
      | failed _ hc' =>
        cases List.mem_singleton.mp hm
        rw [hc] at hc'
        cases hc'
      | unsent | reject => rfl
      | reserve | release | consume =>
        obtain ⟨_, _, _, he⟩ := mem_wroteEvents hm
        cases he
      | _ => cases List.mem_singleton.mp hm
    · exact old hm
  · obtain ⟨es, htr, hes⟩ := hs.trace
    rw [htr] at hm
    rcases List.mem_append.mp hm with hm | hm
    · exact (ha (hes _ hm).symm).elim
    · exact old hm

theorem rejectedIn_of_any {f : Cmd → Bool} {trace : List Event} (h : rejectedIn t f trace = true) :
    ∃ cmd, f cmd = true ∧ (.failed t cmd ∈ trace ∨ .ackLost t cmd ∈ trace) := by
  obtain ⟨e, hm, he⟩ := List.any_eq_true.mp h
  cases e with
  | failed t' cmd | ackLost t' cmd =>
    simp only [Event.rejects, Bool.and_eq_true, decide_eq_true_eq] at he
    obtain ⟨rfl, hf⟩ := he
    first | exact ⟨cmd, hf, .inl hm⟩ | exact ⟨cmd, hf, .inr hm⟩
  | _ => cases he

theorem rejectedIn_mono {f g : Cmd → Bool} {trace : List Event} (hfg : ∀ cmd, f cmd = true → g cmd = true)
    (h : rejectedIn t g trace = false) : rejectedIn t f trace = false := by
  refine Bool.eq_false_iff.mpr fun hf => ?_
  obtain ⟨cmd, hc, hm⟩ := rejectedIn_of_any hf
  have hg : rejectedIn t g trace = true := by
    rcases hm with hm | hm
    · exact List.any_eq_true.mpr ⟨_, hm, by simp [Event.rejects, hfg cmd hc]⟩
    · exact List.any_eq_true.mpr ⟨_, hm, by simp [Event.rejects, hfg cmd hc]⟩
  rw [h] at hg
  cases hg

/-- Nothing but its requests for a payment was rejected of a call that has
ended with an error: it has done nothing, or has undone it. -/
theorem Reachable.undone_of_rejections (h : Reachable cfg c conf) {req : CreateOrderRequest} {e : Err}
    (hj : conf.world.jobs t = some (.create req)) (ht : conf.threads t = .running (.done (.error e)))
    (hrej : (conf.world.rejections t).1 = false) :
    conf.world.phase t = .start ∨ ∃ id, conf.world.phase t = .released id := by
  have hend : (conf.world.loc t).Rejected := h.ended ht req hj
  have hlate : rejectedIn t Cmd.late conf.world.trace = false :=
    rejectedIn_mono (fun cmd hc => by cases cmd <;> first | rfl | cases hc) hrej
  have hundo : rejectedIn t Cmd.undoes conf.world.trace = false :=
    rejectedIn_mono (fun cmd hc => by cases cmd <;> first | rfl | cases hc) hrej
  rcases hend with hend | ⟨_, hp⟩ | ⟨hl, _⟩
  · rw [show rejectedIn t Cmd.undoes conf.world.trace = true from hend] at hundo
    cases hundo
  · exact hp
  · rw [show rejectedIn t Cmd.late conf.world.trace = true from hl] at hlate
    cases hlate

/-! ## The response -/

theorem statusCode_catchException (e : HttpException) (http : HttpRequest) (timestamp : Nat) :
    (AllExceptionsFilter.catchException (.http e) http timestamp).statusCode = e.statusCode := by
  simp only [AllExceptionsFilter.catchException]
  split <;> rfl

theorem statusCode_of_client {e : Err} (h : e.Client) (http : HttpRequest) (timestamp : Nat) :
    (AllExceptionsFilter.catchException e http timestamp).statusCode ∈ [400, 404, 409] := by
  cases h <;> rw [statusCode_catchException] <;> simp [badRequestError, notFoundError, conflictError]

theorem statusCode_ofPayments {e : Err} (h : e.OfPayments) (http : HttpRequest) (timestamp : Nat) :
    (AllExceptionsFilter.catchException e http timestamp).statusCode ∈ [503, 504] := by
  obtain ⟨error, rfl⟩ := h
  unfold handlePaymentsRpcError
  split
  · split <;> rw [statusCode_catchException] <;> simp [gatewayTimeoutError, serviceUnavailableError]
  · rw [statusCode_catchException]
    simp [serviceUnavailableError]

theorem Saga.not_published_of_released (h : Saga cfg c s) {id : Uuid} (hp : s.phase t = .released id)
    (rk : RoutingKey) (m : Message) : .published t rk m ∉ s.trace := by
  intro hm
  have hleft := h.leaves _ hm
  cases rk with
  | process =>
    obtain ⟨_, _, _, hpub, _⟩ := hleft
    rw [hp] at hpub
    cases hpub
  | retry | dlq =>
    have hpub := hleft.1
    rw [hp] at hpub
    cases hpub

/-- Seen outside the procedure that does it. -/
def Event.outward : Event → Bool
  | .wrote _ _ _ | .sent _ _ | .published _ _ _ => true
  | _ => false

theorem Turn.inward {p : Phase} {es : List Event} (h : Turn cfg t p es .start) :
    p = .start ∧ ∀ e ∈ es, e.outward = false := by
  generalize hp' : Phase.start = p' at h
  cases h <;> cases hp' <;> exact ⟨rfl, by simp [Event.outward]⟩

/-- Who has gone no further has done nothing. -/
theorem Saga.inward_start (h : Saga cfg c s) (hp : s.phase t = .start) :
    ∀ e ∈ s.trace, e.actor = some t → e.outward = false := by
  refine Runs.invariant (I := fun s => s.phase t = .start → ∀ e ∈ s.trace, e.actor = some t → e.outward = false)
    ?_ h (fun _ => by simp [Catalogue.shared]) hp
  intro a s s' _ ih hs hp' e he hact
  by_cases ha : a = some t
  · subst ha
    obtain ⟨es, htrace, hturn⟩ := hs.turn
    rw [hp'] at hturn
    obtain ⟨hp, hes⟩ := hturn.inward
    rcases List.mem_append.mp (htrace ▸ he) with hm | hm
    · exact hes e hm
    · exact ih hp e hm hact
  · obtain ⟨es, htrace, hes⟩ := hs.trace
    rcases List.mem_append.mp (htrace ▸ he) with hm | hm
    · exact (ha ((hes e hm).symm.trans hact)).elim
    · exact ih (by rw [← hs.phase_other ha, hp']) e hm hact

/-- A call that is answered with 400, 404 or 409 has written, sent and published
nothing. One that is answered with 503 or 504 has an order, which has failed,
has given back its stock, and has published nothing. Any other error is
answered with 500, and the response says no more. -/
theorem response_tells (h : (machine cfg).ReachWhen (fun _ l => driverErrors l = true) c.initial conf)
    {req : CreateOrderRequest} {e : Err} (hj : conf.world.jobs t = some (.create req))
    (ht : conf.threads t = .running (.done (.error e))) (http : HttpRequest) (timestamp : Nat) :
    let res := AllExceptionsFilter.catchException e http timestamp
    (res.statusCode ∈ [400, 404, 409] ∧ conf.world.undoneBy t ∧
      (∀ wr δ, .wrote t wr δ ∉ conf.world.trace) ∧ (∀ a, .sent t a ∉ conf.world.trace) ∧
      ∀ rk m, .published t rk m ∉ conf.world.trace) ∨
    (res.statusCode ∈ [503, 504] ∧ conf.world.undoneBy t ∧
      (∃ o ∈ conf.world.db.orders, o.userId = req.actor.id ∧ o.idempotencyKey = req.idempotencyKey ∧
        o.status = .failed ∧ o.paymentId = none) ∧ ∀ rk m, .published t rk m ∉ conf.world.trace) ∨
    (res.statusCode = 500 ∧ res.code = codeUnits "INTERNAL_SERVER_ERROR" ∧ res.message = "Unexpected error" ∧
      res.details = .none) := by
  intro res
  have hreach : Reachable cfg c conf := h.reach
  have hs := hreach.saga
  rcases told h ht with hfault | ⟨hclient, hrej⟩ | ⟨hpay, hrej⟩
  · cases e with
    | http x => exact (hfault.1 x rfl).elim
    | pg | grpc | js => exact .inr (.inr ⟨rfl, rfl, rfl, rfl⟩)
  · refine .inl ⟨statusCode_of_client hclient http timestamp, ?_⟩
    have hstart : conf.world.phase t = .start := by
      rcases hreach.undone_of_rejections hj ht (congrArg Prod.fst hrej) with hp | ⟨id, hp⟩
      · exact hp
      · obtain ⟨cmd, hc, hm⟩ := hs.unauthorized (.inr hp)
        have hrefused : rejectedIn t Cmd.authorizes conf.world.trace = true :=
          List.any_eq_true.mpr ⟨_, hm, by simp [Event.rejects, hc]⟩
        rw [show rejectedIn t Cmd.authorizes conf.world.trace = false from congrArg Prod.snd hrej] at hrefused
        cases hrefused
    have hinward := hs.inward_start hstart
    exact ⟨hs.undoneBy_start hstart, fun wr δ hm => Bool.noConfusion (hinward _ hm rfl),
      fun a hm => Bool.noConfusion (hinward _ hm rfl), fun rk m hm => Bool.noConfusion (hinward _ hm rfl)⟩
  · refine .inr (.inl ⟨statusCode_ofPayments hpay http timestamp, ?_⟩)
    obtain ⟨cmd, hc, hm⟩ := rejectedIn_of_any (congrArg Prod.snd hrej)
    have hasked : (conf.world.phase t).orderId?.isSome := by
      rcases hm with hm | hm
      · exact hs.orderId?_of_refused hc hm
      · rw [hreach.not_authorizes_of_ackLost hm] at hc
        cases hc
    obtain ⟨id, hp⟩ : ∃ id, conf.world.phase t = .released id := by
      rcases hreach.undone_of_rejections hj ht (congrArg Prod.fst hrej) with hp | hp
      · rw [hp] at hasked
        cases hasked
      · exact hp
    refine ⟨hs.undoneBy_released hp, ?_, hs.not_published_of_released hp⟩
    obtain ⟨req', o, ho⟩ := hs.inv.calls.owns t id (by rw [hp]; rfl)
    have hreq : req' = req := by simpa using ho.job.symm.trans hj
    subst hreq
    have hat : o.At .failed none := by
      have hf := ho.fits
      rwa [hp] at hf
    exact ⟨o, Db.order?_mem ho.found, ho.user, ho.key, hat.status, hat.payment.1⟩

theorem response_tells_refused :
    let conf := (Catalogue.shop 3).after (.ofPool 2 .repository) refusedSteps
    conf.world.undoneBy 0 ∧ ∃ o ∈ conf.world.db.orders, o.idempotencyKey = "k" ∧ o.status = .failed := by
  intro conf
  have hreach : (machine (.ofPool 2 .repository)).ReachWhen (fun _ l => driverErrors l = true)
      (Catalogue.shop 3).initial conf := Catalogue.reachWhen_after (.ofPool 2 .repository) (.shop 3) (by decide)
  have hj : conf.world.jobs 0 = some (.create (mugRequest 0 "k")) := rfl
  have ht : conf.threads 0 = .running (.done (.error (.http
      (serviceUnavailableError "Payments authorization failed" (.service "payments" "grpc" (some 14)))))) := rfl
  rcases response_tells hreach hj ht ⟨some "/orders", none, none⟩ 0 with
    ⟨hstatus, _⟩ | ⟨_, hundone, ⟨o, ho, _, hkey, hfailed, _⟩, _⟩ | ⟨hstatus, _⟩
  · exact absurd hstatus (by decide)
  · exact ⟨hundone, o, ho, hkey, hfailed⟩
  · cases hstatus

end OrdersBackend
