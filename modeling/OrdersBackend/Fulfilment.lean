import OrdersBackend.Lifecycle

/-!
# Fulfilment

`createOrder` stores whatever response it receives and publishes the process
message. So orders are fulfilled on an authorized payment only, as long as no
call receives a response with another status.
-/

namespace OrdersBackend

open Conc

variable {cfg : Config} {c : Catalogue} {a : Option Tid} {s s' : Shared} {conf : SysConf}

/-! ## Responses are received by `awaitAuthorize` -/

theorem rpc_commit (t : Tid) (ws : List Write) (s : Shared) : (s.commit t ws).rpc = s.rpc := by
  rw [commit_eq]

theorem Does.received {t u : Tid} {cmd : Cmd} (h : Does t cmd s s') {res : AuthorizeResponse}
    (hr : s'.rpc u = .answered res) :
    s.rpc u = .answered res ∨ u = t ∧ cmd = .awaitAuthorize ∧ s.rpc t = .executed res := by
  cases h with
  | commit slot ws | commitLost slot ws =>
    have hrpc := rpc_commit t ws s
    exact .inl (hrpc ▸ hr)
  | send =>
    by_cases hu : u = t
    · subst hu
      simp [Shared.log, Shared.setRpc] at hr
    · simp [Shared.log, Shared.setRpc, hu] at hr
      exact .inl hr
  | receive hres =>
    by_cases hu : u = t
    · subst hu
      simp [Shared.setRpc] at hr
      exact .inr ⟨rfl, rfl, hr ▸ hres⟩
    · simp [Shared.setRpc, hu] at hr
      exact .inl hr
  | publish =>
    unfold Shared.publish at hr
    split at hr <;> exact .inl hr
  | ack =>
    unfold Shared.ack at hr
    split at hr <;> exact .inl hr
  | nack =>
    unfold Shared.nack at hr
    split at hr <;> exact .inl hr
  | _ => exact .inl hr

theorem received_of_exec {t u : Tid} {cmd : Cmd} {ch : Choice} {w w' : World} {r : Except Err cmd.Res}
    (h : exec cfg t cmd ch w = some (r, w')) {res : AuthorizeResponse} (hr : w'.rpc u = .answered res) :
    w.rpc u = .answered res ∨ u = t ∧ ch = .proceed ∧ cmd = .awaitAuthorize ∧ w.rpc t = .executed res := by
  rcases (Does.of_exec h).received hr with hr' | ⟨rfl, rfl, hres⟩
  · exact .inl hr'
  · cases ch with
    | proceed => exact .inr ⟨rfl, rfl, rfl, hres⟩
    | unnoticed => cases h
    | fail e =>
      simp only [exec] at h
      split at h
      · cases h
      · cases h
        exact .inl hr
    | ackLost e => simp [exec, performLost] at h

theorem rpc_arrive {t : Tid} {arr : Arrival} {w w' : World} {p : Api Reply}
    (h : w.arrive cfg t arr = some (p, w')) : w'.rpc = w.rpc := by
  unfold World.arrive at h
  split at h
  · cases h
  · split at h
    · cases h
      rfl
    · obtain ⟨ms, hd, he⟩ := Option.map_eq_some_iff.mp h
      obtain ⟨mb, _, rfl⟩ := Option.map_eq_some_iff.mp hd
      cases he
      rfl

/-! ## Only authorized responses -/

/-- The step does not hand a call a response that is not authorized. -/
def authorizedOnly (conf : SysConf) : SysLabel → Bool
  | .run t .proceed =>
    match conf.threads t, conf.world.rpc t with
    | .running (.await .awaitAuthorize _), .executed res => res.status = .authorized
    | _, _ => true
  | _ => true

abbrev AuthorizedOnly (conf : SysConf) (l : SysLabel) : Prop := authorizedOnly conf l = true

theorem authorized_of_answered (h : (machine cfg).ReachWhen AuthorizedOnly c.initial conf) {t : Tid}
    {res : AuthorizeResponse} (hr : conf.world.rpc t = .answered res) : res.status = .authorized := by
  induction h with
  | refl => cases hr
  | @step conf conf' l hreach hauth hs ih =>
    rcases Machine.step_cases hs with ⟨u, ch, cmd, k, r, w, rfl, hp, hx, rfl⟩ | ⟨u, cmd, k, rfl, hp, rfl⟩ |
      ⟨e, w, rfl, hx, rfl⟩ | ⟨u, arr, p, w, rfl, hp, hx, rfl⟩
    · rcases received_of_exec hx hr with hr | ⟨rfl, rfl, rfl, hres⟩
      · exact ih hr
      · simpa [AuthorizedOnly, authorizedOnly, hp, hres] using hauth
    · exact ih hr
    · obtain ⟨s', hs', rfl⟩ := Option.map_eq_some_iff.mp hx
      rcases (step_of_env hs').rpc_other (t := t) (by simp) with he | ⟨_, ⟨res', he⟩ | he⟩
      · exact ih (he ▸ hr)
      · simp [he] at hr
      · simp [he] at hr
    · exact ih (rpc_arrive hx ▸ hr)

theorem Saga.sent (h : Saga cfg c s) {t : Tid} (hr : s.rpc t ≠ .idle) :
    ∃ req, .sent t req ∈ s.trace ∧ (s.phase t).orderId? = some req.orderId := by
  refine Runs.invariant (I := fun s => s.rpc t ≠ .idle → ∃ req, .sent t req ∈ s.trace ∧
    (s.phase t).orderId? = some req.orderId) ?_ h (fun hr => (hr rfl).elim) hr
  intro a s s' _ ih hs hr
  have old : s.rpc t ≠ .idle → ∃ req, .sent t req ∈ s'.trace ∧ (s'.phase t).orderId? = some req.orderId := by
    intro hr
    obtain ⟨req, hm, hp⟩ := ih hr
    obtain ⟨es, htr, _⟩ := hs.trace
    exact ⟨req, by rw [htr]; exact List.mem_append_right _ hm, hs.orderId? hp⟩
  by_cases hidle : s.rpc t = .idle
  · by_cases ha : a = some t
    · subst ha
      cases hs with
      | @request _ _ req hreq => exact ⟨req, List.mem_cons_self .., by rw [phase_request]; rfl⟩
      | receive _ hq => rw [hidle] at hq; cases hq
      | reserve | release | process => rw [rpc_commit] at hr; exact (hr hidle).elim
      | _ => exact (hr hidle).elim
    · exact (hr ((hs.rpc_idle ha).mpr hidle)).elim
  · exact old hidle

/-- The order of a call that has published is the one it asked a payment for. -/
theorem Saga.fulfilled (h : Saga cfg c s) {t : Tid} {oid mid : Uuid} (hp : s.phase t = .published oid mid) :
    ∃ req res, .sent t req ∈ s.trace ∧ req.orderId = oid ∧ s.rpc t = .answered res := by
  obtain ⟨_, o, ho⟩ := h.inv.calls.owns t oid (by rw [hp]; rfl)
  have hf := ho.fits
  rw [hp] at hf
  obtain ⟨res, hr, _⟩ := hf
  obtain ⟨req, hm, hid⟩ := h.sent (t := t) (by simp [hr])
  rw [hp] at hid
  exact ⟨req, res, hm, (Option.some.inj hid).symm, hr⟩

theorem SagaInv.published_of_processed (h : SagaInv c s) {o : Order} (ho : o ∈ s.db.orders)
    (hs : o.status = .processed) : ∃ t mid, s.phase t = .published o.id mid := by
  obtain ⟨m, hm, hid⟩ := h.messages.processed o.id o (h.tables.order?_of_mem ho) hs
  obtain ⟨⟨t, hp⟩, _⟩ := h.messages.dedup m hm
  exact ⟨t, m.messageId, by rw [hp, hid]⟩

/-- The payments service has answered the order's request with `AUTHORIZED`. -/
def World.authorizes (w : World) (t : Tid) (id : Uuid) : Prop :=
  ∃ req res, .sent t req ∈ w.trace ∧ req.orderId = id ∧ w.rpc t = .answered res ∧ res.status = .authorized

theorem fulfilment_authorized (h : (machine cfg).ReachWhen AuthorizedOnly c.initial conf) :
    (∀ t m, .published t .process m ∈ conf.world.trace →
      ∃ oid mid, m.isCopy mid oid ∧ conf.world.authorizes t oid) ∧
    ∀ o ∈ conf.world.db.orders, o.status = .processed → ∃ t, conf.world.authorizes t o.id := by
  have hs := Reachable.saga h.reach
  have authorized : ∀ {t : Tid} {oid mid : Uuid}, conf.world.phase t = .published oid mid →
      conf.world.authorizes t oid := by
    intro t oid mid hp
    obtain ⟨req, res, hm, hid, hr⟩ := hs.fulfilled hp
    exact ⟨req, res, hm, hid, hr, authorized_of_answered h hr⟩
  constructor
  · intro t m hm
    obtain ⟨oid, mid, createdAt, hp, rfl⟩ := hs.leaves _ hm
    exact ⟨oid, mid, ⟨_, rfl, rfl, rfl⟩, authorized hp⟩
  · intro o ho hst
    obtain ⟨t, mid, hp⟩ := hs.inv.published_of_processed ho hst
    exact ⟨t, authorized hp⟩

def answeredSteps (status : PaymentStatus) : List SysLabel :=
  requestSteps 0 (mugRequest 0 "k") 11 ++ .env (.answer 0 ⟨7, status⟩) :: List.replicate 8 (.run 0 .proceed) ++
    deliverySteps 1 0

theorem fulfilment_authorized_mug :
    let conf := (Catalogue.shop 3).afterWhen (.ofPool 2 .conforming) authorizedOnly (answeredSteps .authorized)
    ∃ o ∈ conf.world.db.orders, o.status = .processed ∧ ∃ t, conf.world.authorizes t o.id := by
  intro conf
  have ho : (⟨0, 0, "k", .processed, some 7, some .authorized, 0, some 0⟩ :
    Order) ∈ conf.world.db.orders := by decide
  have h := (fulfilment_authorized (Catalogue.reachable_afterWhen (.ofPool 2 .conforming) authorizedOnly
    (.shop 3) (answeredSteps .authorized))).2 _ ho rfl
  exact ⟨_, ho, rfl, h⟩

/-- A payment that failed, and an order that is processed all the same. -/
theorem fulfilment_unauthorized :
    let conf := (Catalogue.shop 3).after (.ofPool 2 .conforming) (answeredSteps .failed)
    Reachable (.ofPool 2 .conforming) (.shop 3) conf ∧
      conf.world.rpc 0 = .answered ⟨7, .failed⟩ ∧
      .published 0 .process (processMessage 2 0 0) ∈ conf.world.trace ∧
      conf.world.db.orders.map (fun o => (o.id, o.status, o.paymentStatus)) = [(0, .processed, some .failed)] :=
  ⟨Catalogue.reachable_after .., rfl, by decide, rfl⟩

end OrdersBackend
