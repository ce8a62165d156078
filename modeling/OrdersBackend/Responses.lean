import OrdersBackend.Connections
import OrdersBackend.ErrorCode
import OrdersBackend.Lib.Steady

/-!
# Error responses

`AllExceptionsFilter` shows the errors of the application as they are, and
nothing of any other. Where an error comes from is followed together with what
has been rejected.
-/

namespace OrdersBackend

open Conc Async Protocol

variable {cfg : Config} {c : Catalogue} {t u : Tid} {w w' : World} {cmd : Cmd} {ch : Choice} {α β : Type}

/-! ## The filter -/

structure HttpRequest where
  url : Option String
  xRequestId : Option String
  xCorrelationId : Option String

structure ErrorResponse where
  statusCode : Nat
  code : List CodeUnit
  message : String
  details : Details
  path : String
  requestId : Option String
  timestamp : Nat

/-- `catch` on an HTTP host. An exception of the framework has its response
body as details. -/
def AllExceptionsFilter.catchException (exception : Err) (req : HttpRequest) (timestamp : Nat) : ErrorResponse :=
  let path := req.url.getD "n/a"
  let requestId := req.xRequestId.or req.xCorrelationId
  match exception with
  | .http e =>
    match e.details with
    | .body message error _ =>
      { statusCode := e.statusCode, code := toErrorCode (codeUnits error), message, details := e.details, path,
        requestId, timestamp }
    | details =>
      { statusCode := e.statusCode, code := codeUnits e.code, message := e.message, details, path, requestId,
        timestamp }
  | _ =>
    { statusCode := 500, code := codeUnits "INTERNAL_SERVER_ERROR", message := "Unexpected error", details := .none,
      path, requestId, timestamp }

/-! ## Errors by where they come from -/

/-- An error of a driver, or of the language: not one the application throws. -/
def Err.Fault (e : Err) : Prop := (∀ x, e ≠ .http x) ∧ isUniqueViolation e = false

theorem fault_js (message : String) : (Err.js message).Fault := by
  refine ⟨fun x he => ?_, rfl⟩
  cases he

theorem fault_pg {code : String} (h : isUniqueViolation (.pg code) = false) : (Err.pg code).Fault := by
  refine ⟨fun x he => ?_, h⟩
  cases he

inductive Err.Client : Err → Prop
  | badRequest (message : String) (details : Details) : Client (.http (badRequestError message details))
  | notFound (message : String) (details : Details) : Client (.http (notFoundError message details))
  | conflict (message : String) (details : Details) : Client (.http (conflictError message details))

def Err.OfPayments (e : Err) : Prop := ∃ error, e = handlePaymentsRpcError error

theorem client_of_amountLoop {byId : JsMap Uuid Product} {entries : List (Uuid × Int)} :
    ∀ {amountCents : Int} {e : Err}, amountLoop byId entries amountCents = .error e → e.Client ∨ e.Fault := by
  induction entries with
  | nil => exact nofun
  | cons entry rest ih =>
    intro amountCents e h
    unfold amountLoop at h
    split at h
    · cases h
      exact .inr (fault_js _)
    · split at h
      · cases h
        exact .inl (.conflict _ _)
      · exact ih h

theorem client_of_buildOrderPlan {products : List Product} {items : List OrderItemInput} {e : Err}
    (h : buildOrderPlan products items = .error e) : e.Client ∨ e.Fault := by
  simp only [buildOrderPlan] at h
  split at h
  · cases h
    exact .inl (.notFound _ _)
  · split at h
    · rename_i hloop
      cases h
      exact client_of_amountLoop hloop
    · cases h

/-! ## What has been rejected -/

/-- Whether a command of `t` was rejected that does not ask for a payment, and
whether one was that does. -/
def World.rejections (t : Tid) (w : World) : Bool × Bool :=
  (rejectedIn t (fun cmd => !cmd.authorizes) w.trace, rejectedIn t Cmd.authorizes w.trace)

def Cmd.rejection (v : Bool × Bool) (cmd : Cmd) : Bool × Bool := if cmd.authorizes then (v.1, true) else (true, v.2)

theorem rejections_eq (h : ∀ f, rejectedIn t f w'.trace = rejectedIn t f w.trace) :
    w'.rejections t = w.rejections t := by
  unfold World.rejections
  rw [h, h]

theorem rejectedIn_logEvent (f : Cmd → Bool) (e : Event) :
    rejectedIn u f (w.logEvent e).trace = (e.rejects u f || rejectedIn u f w.trace) := rfl

theorem rejectedIn_reject (f : Cmd → Bool) (w : World) (cmd : Cmd) :
    rejectedIn u f (reject t cmd w).trace = rejectedIn u f w.trace := by
  unfold reject
  split <;> rfl

theorem rejectedIn_performLost (h : performLost t cmd w = some w') (f : Cmd → Bool) :
    rejectedIn u f w'.trace = rejectedIn u f w.trace := by
  unfold performLost at h
  split at h
  · obtain ⟨ws, _, rfl⟩ := Option.map_eq_some_iff.mp h
    exact rejectedIn_commit u t f ws w.toShared
  · split at h
    · cases h
      rfl
    · cases h
  · cases h

theorem rejections_logEvent (w : World) (cmd : Cmd) {e : Event} (he : e = .failed t cmd ∨ e = .ackLost t cmd) :
    (w.logEvent e).rejections t = cmd.rejection (w.rejections t) ∧
      ∀ u, u ≠ t → (w.logEvent e).rejections u = w.rejections u := by
  constructor
  · unfold World.rejections Cmd.rejection
    rw [rejectedIn_logEvent, rejectedIn_logEvent]
    rcases he with rfl | rfl <;> cases ha : cmd.authorizes <;> simp [Event.rejects, ha]
  · intro u hne
    refine rejections_eq fun f => ?_
    rw [rejectedIn_logEvent, rejects_of_actor, Bool.false_or]
    rcases he with rfl | rfl <;> exact fun h => hne (Option.some.inj h).symm

/-- A command that goes through is not rejected; one that is not is, and with
the error the environment has chosen or that of a closed channel. -/
theorem exec_rejections {r : Except Err cmd.Res} (h : exec cfg t cmd ch w = some (r, w')) :
    (∀ u, u ≠ t → w'.rejections u = w.rejections u) ∧
      (perform cfg t cmd w = some (r, w') ∧ w'.rejections t = w.rejections t ∨
        ∃ e, (ch = .fail e ∨ ch = .ackLost e ∨ e = channelClosed) ∧ isUniqueViolation e = false ∧ r = .error e ∧
          w'.rejections t = cmd.rejection (w.rejections t)) := by
  have performed (h : perform cfg t cmd w = some (r, w')) (u : Tid) : w'.rejections u = w.rejections u :=
    rejections_eq (perform_rejectedIn h)
  cases ch with
  | proceed =>
    simp only [exec] at h
    split at h
    · cases h
      obtain ⟨ht, hu⟩ := rejections_logEvent (t := t) w cmd (.inl rfl)
      exact ⟨hu, .inr ⟨channelClosed, .inr (.inr rfl), rfl, rfl, ht⟩⟩
    · exact ⟨fun u _ => performed h u, .inl ⟨h, performed h t⟩⟩
  | unnoticed =>
    simp only [exec] at h
    split at h
    · exact ⟨fun u _ => performed h u, .inl ⟨h, performed h t⟩⟩
    · cases h
  | fail e =>
    simp only [exec] at h
    split at h
    · cases h
    · rename_i hc
      cases h
      obtain ⟨ht, hu⟩ := rejections_logEvent (t := t) (reject t cmd w) cmd (.inl rfl)
      have hsame : ∀ u, (reject t cmd w).rejections u = w.rejections u := fun u =>
        rejections_eq fun f => rejectedIn_reject f w cmd
      rw [Bool.or_eq_true, not_or, Bool.not_eq_true, Bool.not_eq_true] at hc
      exact ⟨fun u hne => (hu u hne).trans (hsame u), .inr ⟨e, .inl rfl, hc.2, rfl, ht.trans (by rw [hsame])⟩⟩
  | ackLost e =>
    simp only [exec] at h
    split at h
    · cases h
    · rename_i hc
      obtain ⟨w₁, h₁, he⟩ := Option.map_eq_some_iff.mp h
      cases he
      obtain ⟨ht, hu⟩ := rejections_logEvent (t := t) w₁ cmd (.inr rfl)
      have hsame : ∀ u, w₁.rejections u = w.rejections u := fun u => rejections_eq (rejectedIn_performLost h₁)
      rw [Bool.not_eq_true] at hc
      exact ⟨fun u hne => (hu u hne).trans (hsame u), .inr ⟨e, .inr (.inl rfl), hc, rfl, ht.trans (by rw [hsame])⟩⟩

/-- The two INSERTs that can violate a unique index. -/
def Cmd.inserts : Cmd → Bool
  | .insertOrder _ _ | .insertProcessed _ _ _ => true
  | _ => false

theorem fault_of_perform {e : Err} (h : perform cfg t cmd w = some (.error e, w')) :
    e.Fault ∧ cmd.authorizes = false ∨ e = uniqueViolation ∧ cmd.inserts = true := by
  cases cmd with
  | connect | acquire | lockProduct | updatePayment | sendAuthorize | awaitAuthorize =>
    simp only [perform] at h
    split at h <;> cases h
  | commitTransaction =>
    simp only [perform] at h
    split at h <;> cases h
    exact .inl ⟨fault_js _, rfl⟩
  | rollbackTransaction =>
    simp only [perform] at h
    split at h
    · cases h
    · split at h <;> cases h
      exact .inl ⟨fault_js _, rfl⟩
  | saveStock | incrementStock | insertItem | saveFailed | saveProcessed => cases (stmt_map h).2
  | insertOrder =>
    simp only [perform] at h
    split at h
    · split at h
      · cases h
        exact .inr ⟨rfl, rfl⟩
      · cases (stmt_map h).2
    · cases h
  | insertProcessed =>
    simp only [perform] at h
    split at h
    · split at h
      · split at h
        · cases h
          exact .inr ⟨rfl, rfl⟩
        · cases (stmt_map h).2
      · cases h
    · cases h
      exact .inl ⟨fault_pg (by decide), rfl⟩
  | lockOrder =>
    simp only [perform] at h
    split at h
    · cases h
    · split at h <;> cases h
  | _ => cases h

/-! ## The protocol -/

/-- How a procedure may end: with an error that is not the application's, or
with one of those it throws itself, and nothing of what it counts on
rejected. -/
def Told (t : Tid) (w : World) (e : Err) : Prop :=
  e.Fault ∨ e.Client ∧ w.rejections t = (false, false) ∨ e.OfPayments ∧ w.rejections t = (false, true)

/-- No driver rejects with an exception of the application. -/
def driverErrors : SysLabel → Bool
  | .run _ (.fail (.http _)) | .run _ (.ackLost (.http _)) => false
  | _ => true

def responses (cfg : Config) : Protocol (machine cfg) where
  allows l := driverErrors l = true
  inv _ := True
  rely t w w' := w'.rejections t = w.rejections t
  guar _ _ _ := True
  pre _ _ _ := True
  post t r w := ∀ e, r = .error e → Told t w e
  rely_refl _ _ := rfl
  rely_trans _ _ _ _ h h' := h'.trans h
  post_rely t r w w' h hr e he := by
    unfold Told
    rw [hr]
    exact h e he
  exec_ok _ _ _ _ _ _ _ _ _ hx _ := ⟨trivial, (exec_rejections hx).1⟩
  kill_ok _ _ _ _ := ⟨trivial, fun _ _ => rfl⟩
  env_ok act w w' _ _ h := by
    obtain ⟨s, hs, rfl⟩ := Option.map_eq_some_iff.mp h
    obtain ⟨es, he, hes⟩ := (step_of_env hs).trace
    refine ⟨trivial, fun t => rejections_eq fun f => ?_⟩
    show rejectedIn t f s.trace = _
    rw [he, rejectedIn_append]
    exact fun e hm => rejects_of_actor (by rw [hes e hm]; exact nofun) _
  spawn_ok t arr w p w' _ _ h := by
    obtain ⟨_, s, rfl, _, _, htr, _⟩ := arrive_cases h
    refine ⟨trivial, fun u _ => rejections_eq fun f => ?_⟩
    show rejectedIn u f s.trace = _
    rw [htr]

abbrev ResponseWp (cfg : Config) (t : Tid) (p : Api α) (Q : Except Err α → World → Prop) (w : World) : Prop :=
  (responses cfg).wp t p Q w

/-! ## Rules -/

theorem wp_any {Q : Except Err α → World → Prop} (hQ : ∀ r w, Q r w) (p : Api α) (w : World) :
    ResponseWp cfg t p Q w := by
  induction p generalizing w with
  | done r => exact hQ r w
  | await cmd k ih => exact fun w' _ _ => ⟨trivial, fun ch r w'' _ _ => ⟨trivial, ih r w''⟩⟩

variable {v : Bool × Bool} {T : Err → Prop}

theorem wp_command {Q : Except Err cmd.Res → World → Prop} (hw : w.rejections t = v)
    (hok : ∀ a w', w'.rejections t = v → Q (.ok a) w')
    (herr : ∀ e w', e.Fault ∧ (cmd.authorizes = true → w'.rejections t = cmd.rejection v) ∨
      e = uniqueViolation ∧ cmd.inserts = true ∧ w'.rejections t = v → Q (.error e) w') :
    ResponseWp cfg t (issue cmd) Q w := by
  intro w' hr _
  have hw' : w'.rejections t = v := Eq.trans hr hw
  refine ⟨trivial, fun ch r w'' ha hx => ⟨trivial, ?_⟩⟩
  rcases (exec_rejections hx).2 with ⟨hperform, hsame⟩ | ⟨e, hch, hunique, rfl, hrej⟩
  · have hv : w''.rejections t = v := hsame.trans hw'
    cases r with
    | ok a => exact hok a w'' hv
    | error e =>
      refine herr e w'' ?_
      rcases fault_of_perform hperform with ⟨hf, hc⟩ | ⟨rfl, hins⟩
      · refine .inl ⟨hf, fun ha => ?_⟩
        rw [hc] at ha
        cases ha
      · exact .inr ⟨rfl, hins, hv⟩
  · refine herr e w'' (.inl ⟨⟨fun x he => ?_, hunique⟩, fun _ => hrej.trans (by rw [hw'])⟩)
    subst he
    have hallow : driverErrors (.run t ch) = true := ha
    rcases hch with rfl | rfl | hclosed
    · cases hallow
    · cases hallow
    · cases hclosed

/-- The procedure comes to nothing else than its result, an error that is not
the application's, or one of `T`, with what has been rejected as before. -/
def Throws (cfg : Config) (t : Tid) (v : Bool × Bool) (T : Err → Prop) (p : Api α) : Prop :=
  ∀ w, w.rejections t = v → ResponseWp cfg t p (fun r w' => match r with
    | .ok _ => w'.rejections t = v
    | .error e => e.Fault ∨ T e ∧ w'.rejections t = v) w

/-- What a procedure that throws nothing itself leaves. -/
theorem wp_of_throws {p : Api α} {Q : Except Err α → World → Prop} (hp : Throws cfg t v (fun _ => False) p)
    (hw : w.rejections t = v) (hok : ∀ a w', w'.rejections t = v → Q (.ok a) w')
    (hfault : ∀ e w', e.Fault → Q (.error e) w') : ResponseWp cfg t p Q w := by
  refine wp_mono _ (fun r w' hr => ?_) (hp w hw)
  cases r with
  | ok a => exact hok a w' hr
  | error e => exact hfault e w' (hr.resolve_right And.left)

theorem throws_pure (a : α) : Throws cfg t v T (.done (.ok a)) := fun _ hw => hw

theorem throws_throw {e : Err} (he : e.Fault ∨ T e) : Throws cfg t v T (.done (.error e) : Api α) :=
  fun _ hw => he.imp_right fun h => ⟨h, hw⟩

theorem throws_bind {p : Api α} {f : α → Api β} (hp : Throws cfg t v T p) (hf : ∀ a, Throws cfg t v T (f a)) :
    Throws cfg t v T (p.bind f) := by
  refine fun w hw => wp_bind _ (wp_mono _ (fun r w' hr => ?_) (hp w hw))
  cases r with
  | ok a => exact hf a w' hr
  | error e => exact hr

theorem throws_issue (hc : cmd.inserts = false) : Throws cfg t v T (issue cmd) := by
  intro w hw
  refine wp_command hw (fun _ _ h => h) fun e w' he => ?_
  rcases he with ⟨hf, _⟩ | ⟨_, hins, _⟩
  · exact .inl hf
  · rw [hc] at hins
    cases hins

theorem throws_forEach {ι : Type} {body : ι → Api Unit} (hbody : ∀ a, Throws cfg t v T (body a)) :
    ∀ l : List ι, Throws cfg t v T (forEach body l)
  | [] => throws_pure ()
  | a :: l => throws_bind (hbody a) fun _ => throws_forEach hbody l

theorem wp_finally {p : Api α} {give : Api Unit} {Q : Except Err α → World → Prop}
    (hgive : ∀ v, Throws cfg t v (fun _ => False) give)
    (hQ : ∀ r w w', Q r w → w'.rejections t = w.rejections t → Q r w') (hfault : ∀ e w, e.Fault → Q (.error e) w)
    (hp : ResponseWp cfg t p Q w) : ResponseWp cfg t (p.tryFinally give) Q w := by
  refine wp_tryFinally _ (wp_mono _ (fun r w' hr => ?_) hp)
  exact wp_of_throws (hgive _) rfl (fun _ w'' hrej => hQ r w' w'' hr hrej) hfault

theorem throws_withConnection {use : Use} {body : Api α} (hbody : Throws cfg t v T body) :
    Throws cfg t v T (withConnection use body) := by
  refine throws_bind (throws_issue rfl) fun _ w hw => ?_
  refine wp_finally (fun _ => throws_issue rfl) (fun r w w' hr hrej => ?_) (fun e w he => .inl he) (hbody w hw)
  cases r with
  | ok _ => exact hrej.trans hr
  | error e => exact hr.imp_right fun h => ⟨h.1, hrej.trans h.2⟩

/-- A transaction in a `catch` that throws on: what is rejected in it, its
ROLLBACK included, comes out as an error. -/
theorem throws_transaction {body : Api Unit} (hbody : Throws cfg t v (fun _ => False) body) :
    Throws cfg t v T (transaction body) := by
  refine throws_withConnection fun w hw => wp_tryCatch _ (wp_of_throws
    (throws_bind (throws_issue rfl) fun _ => throws_bind hbody fun _ => throws_issue rfl) hw (fun _ _ h => h)
    fun e w' he => ?_)
  refine wp_bind _ (wp_tryCatch _ (wp_any (fun r w => ?_) _ _))
  cases r <;> exact .inl he

end OrdersBackend
