import OrdersBackend.SagaStep
import OrdersBackend.Tables

/-!
# The invariants of the saga

Every order belongs to the one call that reserved it and is where the phase of
that call says; every message is a copy of one a call has published; and a
dedup row stands for a processed order.
-/

namespace OrdersBackend

open Conc

/-! ## What is kept -/

def Order.paidWith (o : Order) : Option AuthorizeResponse → Prop
  | none => o.paymentId = none ∧ o.paymentStatus = none
  | some res => o.paymentId = some res.paymentId ∧ o.paymentStatus = some res.status

structure Order.At (o : Order) (st : OrderStatus) (pay : Option AuthorizeResponse) : Prop where
  status : o.status = st
  payment : o.paidWith pay
  processedAt : o.processedAt.isSome ↔ st = .processed

/-- The order and the Authorize call of a call in phase `p`. -/
def Phase.Fits : Phase → Rpc → Order → Prop
  | .reserved _, rpc, o => rpc = .idle ∧ o.At .pending none
  | .requested _, rpc, o => rpc ≠ .idle ∧ o.At .pending none
  | .rejected _, _, o => o.At .pending none
  | .released _, _, o => o.At .failed none
  | .paid _, rpc, o => ∃ res, rpc = .answered res ∧ o.At .pending (some res)
  | .identified _ _, rpc, o => ∃ res, rpc = .answered res ∧ o.At .pending (some res)
  | .published _ _, rpc, o =>
    ∃ res, rpc = .answered res ∧ (o.At .pending (some res) ∨ o.At .processed (some res))
  | _, _, _ => False

def Phase.messageId? : Phase → Option Uuid
  | .identified _ mid | .published _ mid => some mid
  | _ => none

/-- `o` is the order of the call `t`. -/
structure Owns (s : Shared) (t : Tid) (id : Uuid) (req : CreateOrderRequest) (o : Order) : Prop where
  job : s.jobs t = some (.create req)
  found : s.db.order? id = some o
  user : o.userId = req.actor.id
  key : o.idempotencyKey = req.idempotencyKey
  fits : (s.phase t).Fits (s.rpc t) o

structure Calls (s : Shared) : Prop where
  owns : ∀ t id, (s.phase t).orderId? = some id → ∃ req o, Owns s t id req o
  idle : ∀ t, (s.phase t).orderId? = none → s.rpc t = .idle
  unstarted : ∀ t, s.jobs t = none → s.phase t = .start
  owner : ∀ id o, s.db.order? id = some o → ∃ t, (s.phase t).orderId? = some id
  unique : ∀ t t' id, (s.phase t).orderId? = some id → (s.phase t').orderId? = some id → t = t'
  fresh : ∀ id o, s.db.order? id = some o → id < s.uuids

/-- A copy of a message that a call has published. -/
def Shared.Genuine (s : Shared) (m : Message) : Prop :=
  ∃ t oid mid, s.phase t = .published oid mid ∧ m.isCopy mid oid

structure Messages (s : Shared) : Prop where
  fresh : ∀ t mid, (s.phase t).messageId? = some mid → mid < s.uuids
  unique : ∀ t t' mid, (s.phase t).messageId? = some mid → (s.phase t').messageId? = some mid → t = t'
  queued : ∀ q, ∀ m ∈ s.broker.queue q, s.Genuine m
  held : ∀ t m, s.broker.channel t = .ready (some m) → s.jobs t = some (.deliver m)
  delivered : ∀ t m, s.jobs t = some (.deliver m) → s.Genuine m
  dedup : ∀ m ∈ s.db.processedMessages, (∃ t, s.phase t = .published m.orderId m.messageId) ∧
    ∃ o, s.db.order? m.orderId = some o ∧ o.status = .processed
  processed : ∀ id o, s.db.order? id = some o → o.status = .processed →
    ∃ m ∈ s.db.processedMessages, m.orderId = id

structure SagaInv (c : Catalogue) (s : Shared) : Prop where
  tables : Tables c s.db
  calls : Calls s
  messages : Messages s

/-! ## Lookups after a transaction -/

namespace Db

variable (db : Db)

theorem order?_updateOrder_ne (f : Order → Order) (hf : ∀ o, (f o).id = o.id) {id id' : Uuid} (h : id' ≠ id) :
    (db.updateOrder id f).order? id' = db.order? id' := by
  rw [Db.order?_updateOrder db f hf]
  cases ho : db.order? id' with
  | none => rfl
  | some o =>
    have := Db.order?_id ho
    simp [this, h]

theorem order?_updateOrder_self {db : Db} (f : Order → Order) (hf : ∀ o, (f o).id = o.id) {id : Uuid} {o : Order}
    (h : db.order? id = some o) : (db.updateOrder id f).order? id = some (f o) := by
  rw [Db.order?_updateOrder db f hf, h]
  simp [Db.order?_id h]

end Db

theorem order?_reserve {s : Shared} {t : Tid} {req : CreateOrderRequest} {products : List Product}
    {plan : OrderPlan} {order : Order} {items : List OrderItem} (h : Reserves s t req products plan order items)
    (id : Uuid) : (s.commit t (reserveLog products plan order items)).db.order? id =
      if id = order.id then some order else s.db.order? id := by
  obtain ⟨ps, he, _⟩ := applyAll_reserveLog ⟨h.current, h.distinct, h.accepted⟩ order items
  rw [commit_eq]
  simp only [he]
  by_cases hid : id = order.id
  · subst hid
    rw [if_pos rfl]
    exact order?_new h.idFree
  · rw [if_neg hid]
    simp only [Db.order?, List.find?_append]
    cases s.db.orders.find? fun o => o.id = id with
    | some o => rfl
    | none => simp [Ne.symm hid]

theorem order?_release {c : Catalogue} {s : Shared} (hT : Tables c s.db) (t : Tid) (id id' : Uuid) :
    (s.commit t (releaseLog s.db id)).db.order? id' = (s.db.updateOrder id .fail).order? id' := by
  obtain ⟨ps, he, _⟩ := applyAll_releaseLog id hT.itemProducts
  rw [commit_eq]
  simp only [he]
  rfl

theorem applyAll_processLog (db : Db) (mid oid : Uuid) (order : Order) (processedAt : Nat) :
    db.applyAll (processLog mid oid order processedAt) =
      let db' := { db with processedMessages := db.processedMessages ++ [⟨mid, oid, "orders-worker"⟩] }
      if order.status = .processed then db' else db'.updateOrder oid (.process processedAt) := by
  unfold processLog
  split <;> rfl

theorem order?_process (s : Shared) (t : Tid) (mid oid : Uuid) (order : Order) (processedAt : Nat) (id : Uuid) :
    (s.commit t (processLog mid oid order processedAt)).db.order? id =
      if order.status = .processed then s.db.order? id
      else (s.db.updateOrder oid (.process processedAt)).order? id := by
  rw [commit_eq]
  simp only [applyAll_processLog]
  split <;> rfl

/-! ## Calls -/

theorem Phase.Fits.of_rpc {p : Phase} {rpc rpc' : Rpc} {o : Order} (h : p.Fits rpc o)
    (hi : rpc' = .idle ↔ rpc = .idle) (ha : ∀ res, rpc = .answered res → rpc' = .answered res) :
    p.Fits rpc' o := by
  cases p with
  | reserved id => exact ⟨hi.mpr h.1, h.2⟩
  | requested id => exact ⟨fun e => h.1 (hi.mp e), h.2⟩
  | rejected id | released id => exact h
  | paid id | identified id mid | published id mid =>
    obtain ⟨res, hr, ho⟩ := h
    exact ⟨res, ha res hr, ho⟩
  | start | consumed | republished => exact h.elim

theorem Phase.Fits.process {oid mid : Uuid} {rpc : Rpc} {o : Order} (h : (published oid mid).Fits rpc o)
    (processedAt : Nat) : (published oid mid).Fits rpc (o.process processedAt) := by
  obtain ⟨res, hr, ho⟩ := h
  refine ⟨res, hr, .inr ⟨rfl, ?_, by simp [Order.process]⟩⟩
  rcases ho with ho | ho <;> exact ho.payment

variable {cfg : Config} {c : Catalogue} {a : Option Tid} {s s' : Shared}

theorem Owns.id {t : Tid} {id : Uuid} {req : CreateOrderRequest} {o : Order} (h : Owns s t id req o) :
    o.id = id := Db.order?_id h.found

theorem Owns.keep {t : Tid} {id : Uuid} {req : CreateOrderRequest} {o : Order} (h : Owns s t id req o)
    (hj : s'.jobs t = s.jobs t) (ho : s'.db.order? id = s.db.order? id) (hp : s'.phase t = s.phase t)
    (hi : s'.rpc t = .idle ↔ s.rpc t = .idle)
    (ha : ∀ res, s.rpc t = .answered res → s'.rpc t = .answered res) : Owns s' t id req o where
  job := hj.trans h.job
  found := ho.trans h.found
  user := h.user
  key := h.key
  fits := by rw [hp]; exact h.fits.of_rpc hi ha

theorem Shared.Genuine.call {m : Message} (hm : s.Genuine m) {payload : OrdersProcessMessage}
    (hc : m.content = .value payload) {oid : Uuid} (ho : payload.orderId = some oid) :
    ∃ t mid, payload.messageId = some mid ∧ s.phase t = .published oid mid := by
  obtain ⟨t, oid', mid, hp, payload', hc', hmid, hoid⟩ := hm
  rw [hc] at hc'
  cases hc'
  rw [ho] at hoid
  cases hoid
  exact ⟨t, mid, hmid, hp⟩

/-- The call that a delivery's order belongs to has published it. -/
theorem SagaInv.processes (h : SagaInv c s) {t : Tid} {payload : OrdersProcessMessage} {mid oid : Uuid}
    {order : Order} (hp : Processes s t payload mid oid order) :
    ∃ t' req, s.phase t' = .published oid mid ∧ Owns s t' oid req order := by
  obtain ⟨msg, hj, hc⟩ := hp.job
  obtain ⟨t', mid', hmid, hph⟩ := (h.messages.delivered t msg hj).call hc hp.subject
  rw [hp.message] at hmid
  cases hmid
  obtain ⟨req, o, ho⟩ := h.calls.owns t' oid (by rw [hph]; rfl)
  have : o = order := Option.some.inj (ho.found.symm.trans hp.found)
  exact ⟨t', req, hph, this ▸ ho⟩

/-- A step of anyone else leaves a call its order; only a delivery of its own
message changes it. -/
theorem SagaInv.owns_other (hI : SagaInv c s) (h : Step cfg a s s') {t : Tid} (ht : a ≠ some t) {id : Uuid}
    {req : CreateOrderRequest} {o : Order} (ho : Owns s t id req o)
    (hid : (s.phase t).orderId? = some id) : ∃ o', Owns s' t id req o' := by
  have hj := h.jobs_other ht
  have hp := h.phase_other ht
  have hi := h.rpc_idle ht
  have ha : ∀ res, s.rpc t = .answered res → s'.rpc t = .answered res := fun _ => h.rpc_answered ht
  have other : ∀ {u : Tid} {id' : Uuid}, some u ≠ some t → (s.phase u).orderId? = some id' → id ≠ id' := by
    intro u id' hu hu' he
    exact hu (congrArg some (hI.calls.unique u t id (he ▸ hu') hid))
  cases h with
  | @reserve u _ req' products plan order items hr =>
    refine ⟨o, ho.keep hj ?_ hp hi ha⟩
    rw [order?_reserve hr, if_neg]
    intro he
    have := hr.idFree
    rw [← he, ho.found] at this
    cases this
  | @release u _ id' hr =>
    refine ⟨o, ho.keep hj ?_ hp hi ha⟩
    rw [order?_release hI.tables]
    exact Db.order?_updateOrder_ne _ .fail (fun _ => rfl) (other ht (by rw [hr]; rfl))
  | @pay u _ id' res hr _ =>
    refine ⟨o, ho.keep hj ?_ hp hi ha⟩
    exact Db.order?_updateOrder_ne _ (.pay res.paymentId res.status) (fun _ => rfl) (other ht (by rw [hr]; rfl))
  | @process u _ payload mid oid order processedAt hr =>
    by_cases hs : order.status = .processed
    · refine ⟨o, ho.keep hj ?_ hp hi ha⟩
      rw [order?_process, if_pos hs]
    · by_cases he : id = oid
      · subst he
        obtain ⟨t', req', hph, ho'⟩ := hI.processes hr
        have htt : t' = t := hI.calls.unique t' t id (by rw [hph]; rfl) hid
        subst htt
        refine ⟨o.process processedAt, ho.job ▸ hj, ?_, ho.user, ho.key, ?_⟩
        · rw [order?_process, if_neg hs]
          exact Db.order?_updateOrder_self (.process processedAt) (fun _ => rfl) ho.found
        · rw [hp, hph]
          have hf := ho.fits
          rw [hph] at hf
          exact (hf.process processedAt).of_rpc hi ha
      · refine ⟨o, ho.keep hj ?_ hp hi ha⟩
        rw [order?_process, if_neg hs]
        exact Db.order?_updateOrder_ne _ (.process processedAt) (fun _ => rfl) he
  | _ => exact ⟨o, ho.keep hj rfl hp hi ha⟩

theorem Order.At.pay {o : Order} (h : o.At .pending none) (res : AuthorizeResponse) :
    (o.pay res.paymentId res.status).At .pending (some res) :=
  ⟨h.status, ⟨rfl, rfl⟩, h.processedAt⟩

theorem Order.At.fail {o : Order} (h : o.At .pending none) : o.fail.At .failed none :=
  ⟨rfl, h.payment, by have := h.processedAt; simp_all [Order.fail]⟩

/-- A thread's own step keeps its order, or reserves one. -/
theorem SagaInv.owns_self (hI : SagaInv c s) {t : Tid} (h : Step cfg (some t) s s') {id : Uuid}
    (hid : (s'.phase t).orderId? = some id) :
    (∃ req o, Owns s' t id req o) ∧ ((s.phase t).orderId? = some id ∨ s.db.order? id = none) := by
  have same : s'.phase t = s.phase t → s'.db = s.db → s'.rpc t = s.rpc t →
      (∃ req o, Owns s' t id req o) ∧ ((s.phase t).orderId? = some id ∨ s.db.order? id = none) := by
    intro hp hd hr
    rw [hp] at hid
    obtain ⟨req, o, ho⟩ := hI.calls.owns t id hid
    refine ⟨⟨req, o, ?_⟩, .inl hid⟩
    exact ho.keep (by rw [h.jobs_mono ho.job, ho.job]) (by rw [hd]) hp (by rw [hr]) (fun res hs => by rw [hr, hs])
  -- a step from a phase with an order to one with the same order
  have moved : ∀ {p : Phase}, s.phase t = p → p.orderId? = some id →
      (∀ req o, Owns s t id req o → p.Fits (s.rpc t) o → ∃ o', s'.db.order? id = some o' ∧
        o'.userId = o.userId ∧ o'.idempotencyKey = o.idempotencyKey ∧ (s'.phase t).Fits (s'.rpc t) o') →
      (∃ req o, Owns s' t id req o) ∧ ((s.phase t).orderId? = some id ∨ s.db.order? id = none) := by
    intro p hp hpid hstep
    obtain ⟨req, o, ho⟩ := hI.calls.owns t id (by rw [hp]; exact hpid)
    have hf := ho.fits
    rw [hp] at hf
    obtain ⟨o', hfound, hu, hk, hfits⟩ := hstep req o ho hf
    exact ⟨⟨req, o', h.jobs_mono ho.job, hfound, hu.trans ho.user, hk.trans ho.key, hfits⟩,
      .inl (by rw [hp]; exact hpid)⟩
  cases h with
  | arrive req hj | deliver hj _ =>
    have hid' : (s.phase t).orderId? = some id := hid
    rw [hI.calls.unstarted t hj] at hid'
    cases hid'
  | skipUuid | nack | lose => exact same rfl rfl rfl
  | failed hc => exact same ((phase_log rfl s).trans (Phase.next_failed hc _ t)) rfl rfl
  | ackLost => exact same (phase_log rfl s) rfl rfl
  | ack => exact same (phase_acked ..) rfl rfl
  | @reserve _ _ req products plan order items hr =>
    rw [phase_reserve] at hid
    cases hid
    refine ⟨⟨req, order, ?_, ?_, ?_, ?_, ?_⟩, .inr hr.idFree⟩
    · rw [commit_eq]; exact hr.job
    · rw [order?_reserve hr, if_pos rfl]
    · obtain ⟨_, ho⟩ := hr.new; rw [ho]; rfl
    · obtain ⟨_, ho⟩ := hr.new; rw [ho]; rfl
    · rw [phase_reserve]
      refine ⟨?_, ?_⟩
      · rw [commit_eq]; exact hI.calls.idle t (by rw [hr.phase]; rfl)
      · obtain ⟨_, ho⟩ := hr.new
        rw [ho]
        exact ⟨rfl, ⟨rfl, rfl⟩, by simp [newOrder]⟩
  | @request _ _ req hr =>
    have hp := phase_request t req s
    rw [hp] at hid
    cases hid
    refine moved hr.phase rfl fun req' o ho hf => ⟨o, ho.found, rfl, rfl, ?_⟩
    rw [hp]
    exact ⟨by simp [Shared.log, Shared.setRpc], hf.2⟩
  | @reject _ _ id' cmd hc hr =>
    have hp := phase_reject hc hr
    rw [hp] at hid
    cases hid
    rcases hr with hr | hr
    · exact moved hr rfl fun req' o ho hf => ⟨o, ho.found, rfl, rfl, by rw [hp]; exact hf.2⟩
    · exact moved hr rfl fun req' o ho hf => ⟨o, ho.found, rfl, rfl, by rw [hp]; exact hf.2⟩
  | @receive _ _ id' res hp hr =>
    have hp' : (s.setRpc t (.answered res)).phase t = .requested id' := hp
    rw [hp'] at hid
    cases hid
    refine moved hp rfl fun req' o ho hf => ⟨o, ho.found, rfl, rfl, ?_⟩
    rw [hp']
    exact ⟨by simp [Shared.setRpc], hf.2⟩
  | @release _ _ id' hp =>
    rw [phase_release] at hid
    cases hid
    refine moved hp rfl fun req' o ho hf => ⟨o.fail, ?_, rfl, rfl, ?_⟩
    · rw [order?_release hI.tables]
      exact Db.order?_updateOrder_self .fail (fun _ => rfl) ho.found
    · rw [phase_release]
      exact Order.At.fail hf
  | @pay _ _ id' res hp hr =>
    have hp' := phase_pay t s id' res
    rw [hp'] at hid
    cases hid
    refine moved hp rfl fun req' o ho hf => ⟨o.pay res.paymentId res.status, ?_, rfl, rfl, ?_⟩
    · exact Db.order?_updateOrder_self (.pay res.paymentId res.status) (fun _ => rfl) ho.found
    · rw [hp']
      exact ⟨res, hr, hf.2.pay res⟩
  | @identify _ _ id' hp =>
    have hp' := phase_identify hp
    rw [hp'] at hid
    cases hid
    refine moved hp rfl fun req' o ho hf => ⟨o, ho.found, rfl, rfl, ?_⟩
    rw [hp']
    exact hf
  | @publish _ _ id' mid createdAt hp =>
    have hp' := phase_publish (processMessage mid id' createdAt) hp
    rw [hp'] at hid
    cases hid
    refine moved hp rfl fun req' o ho hf => ⟨o, ho.found, rfl, rfl, ?_⟩
    rw [hp']
    obtain ⟨res, hr, ho⟩ := hf
    exact ⟨res, hr, .inl ho⟩
  | process _ hr =>
    rw [phase_process] at hid
    cases hid
  | @republish _ _ msg payload rk msg' hj hm hp hr =>
    rw [phase_republish hr] at hid
    cases hid

theorem Phase.Move.orderId? {p p' : Phase} (h : Move p p') {id : Uuid} (hp : p.orderId? = some id) :
    p'.orderId? = some id := by
  cases h <;> first | exact hp | cases hp

theorem Step.orderId? (h : Step cfg a s s') {t : Tid} {id : Uuid} (hp : (s.phase t).orderId? = some id) :
    (s'.phase t).orderId? = some id := by
  by_cases ht : a = some t
  · subst ht
    exact h.phase_self.orderId? hp
  · rw [h.phase_other ht]; exact hp

theorem SagaInv.order_new (hI : SagaInv c s) (h : Step cfg a s s') {id : Uuid} {o : Order}
    (hn : s.db.order? id = none) (ho : s'.db.order? id = some o) :
    ∃ t, a = some t ∧ s'.phase t = .reserved id ∧ id < s.uuids := by
  have same : s'.db.order? id = s.db.order? id → False := fun e => by rw [e, hn] at ho; cases ho
  have updated : ∀ {id' : Uuid} (f : Order → Order), (∀ o, (f o).id = o.id) →
      s'.db.order? id = (s.db.updateOrder id' f).order? id → False := by
    intro id' f hf e
    rw [e, Db.order?_updateOrder _ f hf, hn] at ho
    cases ho
  cases h with
  | @reserve t _ req products plan order items hr =>
    rw [order?_reserve hr] at ho
    by_cases he : id = order.id
    · exact ⟨t, rfl, by rw [phase_reserve, he], he ▸ hr.fresh⟩
    · rw [if_neg he, hn] at ho
      cases ho
  | release => exact (updated .fail (fun _ => rfl) (order?_release hI.tables ..)).elim
  | @pay _ _ id' res => exact (updated (.pay res.paymentId res.status) (fun _ => rfl) rfl).elim
  | @process _ _ _ mid oid order processedAt hr =>
    rw [order?_process] at ho
    split at ho
    · rw [hn] at ho; cases ho
    · rw [Db.order?_updateOrder _ (.process processedAt) fun _ => rfl, hn] at ho; cases ho
  | _ => exact (same rfl).elim

/-! ## What lasts -/

/-- What becomes of an order: it keeps its identity and its payment, and is
final once processed or failed. -/
structure Order.Evolves (o o' : Order) : Prop where
  id : o'.id = o.id
  userId : o'.userId = o.userId
  key : o'.idempotencyKey = o.idempotencyKey
  createdAt : o'.createdAt = o.createdAt
  final : o.status ≠ .pending → o' = o
  paid : o.paymentId ≠ none → o'.paymentId = o.paymentId ∧ o'.paymentStatus = o.paymentStatus

theorem Order.Evolves.refl (o : Order) : o.Evolves o := ⟨rfl, rfl, rfl, rfl, fun _ => rfl, fun _ => ⟨rfl, rfl⟩⟩

theorem Order.Evolves.trans {o o' o'' : Order} (h : o.Evolves o') (h' : o'.Evolves o'') : o.Evolves o'' where
  id := h'.id.trans h.id
  userId := h'.userId.trans h.userId
  key := h'.key.trans h.key
  createdAt := h'.createdAt.trans h.createdAt
  final hs := by
    have he := h.final hs
    exact (h'.final (by rw [he]; exact hs)).trans he
  paid hp := by
    have he := h.paid hp
    have he' := h'.paid (by rw [he.1]; exact hp)
    exact ⟨he'.1.trans he.1, he'.2.trans he.2⟩

theorem SagaInv.order (hI : SagaInv c s) (h : Step cfg a s s') {id : Uuid} {o : Order}
    (ho : s.db.order? id = some o) : ∃ o', s'.db.order? id = some o' ∧ o.Evolves o' := by
  -- the order of a call in a phase of which it must be pending and unpaid
  have unpaid : ∀ {t : Tid} {id' : Uuid} (f : Order → Order), (s.phase t).orderId? = some id' →
      (∀ o, (s.phase t).Fits (s.rpc t) o → o.At .pending none) →
      (∀ o, (f o).id = o.id ∧ (f o).userId = o.userId ∧ (f o).idempotencyKey = o.idempotencyKey ∧
        (f o).createdAt = o.createdAt) →
      ∃ o', (s.db.updateOrder id' f).order? id = some o' ∧ o.Evolves o' := by
    intro t id' f hid hat hf
    by_cases he : id = id'
    · subst he
      obtain ⟨req, o₁, ho₁⟩ := hI.calls.owns t id hid
      have hoo : o = o₁ := Option.some.inj (ho.symm.trans ho₁.found)
      have hA := hat o (hoo ▸ ho₁.fits)
      refine ⟨f o, Db.order?_updateOrder_self f (fun o => (hf o).1) ho, (hf o).1, (hf o).2.1, (hf o).2.2.1,
        (hf o).2.2.2, fun hs => (hs hA.status).elim, fun hp => (hp hA.payment.1).elim⟩
    · exact ⟨o, by rw [Db.order?_updateOrder_ne _ f (fun o => (hf o).1) he]; exact ho, .refl o⟩
  cases h with
  | @reserve t _ req products plan order items hr =>
    refine ⟨o, ?_, .refl o⟩
    rw [order?_reserve hr, if_neg]
    · exact ho
    · intro he
      have := hr.idFree
      rw [← he, ho] at this
      cases this
  | @release t _ id' hp =>
    rw [order?_release hI.tables]
    exact unpaid .fail (by rw [hp]; rfl) (fun o ho => by rw [hp] at ho; exact ho)
      fun _ => ⟨rfl, rfl, rfl, rfl⟩
  | @pay t _ id' res hp hr =>
    exact unpaid (.pay res.paymentId res.status) (by rw [hp]; rfl) (fun o ho => by rw [hp] at ho; exact ho.2)
      fun _ => ⟨rfl, rfl, rfl, rfl⟩
  | @process t _ payload mid oid order processedAt hr =>
    rw [order?_process]
    by_cases hs : order.status = .processed
    · rw [if_pos hs]; exact ⟨o, ho, .refl o⟩
    · rw [if_neg hs]
      by_cases he : id = oid
      · subst he
        have hoo : o = order := Option.some.inj (ho.symm.trans hr.found)
        subst hoo
        obtain ⟨t', req, hph, ho'⟩ := hI.processes hr
        have hf := ho'.fits
        rw [hph] at hf
        obtain ⟨res, _, hA⟩ := hf
        refine ⟨o.process processedAt, Db.order?_updateOrder_self (.process processedAt) (fun _ => rfl) ho,
          rfl, rfl, rfl, rfl, fun hn => ?_, fun _ => ⟨rfl, rfl⟩⟩
        rcases hA with hA | hA
        · exact (hn hA.status).elim
        · exact (hs hA.status).elim
      · exact ⟨o, by rw [Db.order?_updateOrder_ne _ (.process processedAt) (fun _ => rfl) he]; exact ho, .refl o⟩
  | _ => exact ⟨o, ho, .refl o⟩

theorem SagaInv.calls_step (hI : SagaInv c s) (h : Step cfg a s s') : Calls s' where
  owns t id hid := by
    by_cases ht : a = some t
    · subst ht
      exact (hI.owns_self h hid).1
    · rw [h.phase_other ht] at hid
      obtain ⟨req, o, ho⟩ := hI.calls.owns t id hid
      obtain ⟨o', ho'⟩ := hI.owns_other h ht ho hid
      exact ⟨req, o', ho'⟩
  idle t hn := by
    have hn₀ : (s.phase t).orderId? = none := by
      cases hid : (s.phase t).orderId? with
      | none => rfl
      | some id => rw [h.orderId? hid] at hn; cases hn
    have hidle := hI.calls.idle t hn₀
    by_cases ht : a = some t
    · subst ht
      rcases h.rpc_self with hr | ⟨id, hr⟩
      · rw [hr]; exact hidle
      · rw [hr] at hn; cases hn
    · exact (h.rpc_idle ht).mpr hidle
  unstarted t hj := by
    have hj₀ : s.jobs t = none := by
      cases hjob : s.jobs t with
      | none => rfl
      | some job => rw [h.jobs_mono hjob] at hj; cases hj
    have hp := hI.calls.unstarted t hj₀
    by_cases ht : a = some t
    · subst ht
      exact h.phase_unstarted hj₀ hp
    · rw [h.phase_other ht]; exact hp
  owner id o ho := by
    cases hs : s.db.order? id with
    | some o₀ =>
      obtain ⟨t, ht⟩ := hI.calls.owner id o₀ hs
      exact ⟨t, h.orderId? ht⟩
    | none =>
      obtain ⟨t, _, hp, _⟩ := hI.order_new h hs ho
      exact ⟨t, by rw [hp]; rfl⟩
  unique t t' id hid hid' := by
    -- a thread that has just reserved `id` found no order under it
    have origin : ∀ u, (s'.phase u).orderId? = some id →
        (s.phase u).orderId? = some id ∨ a = some u ∧ s.db.order? id = none := by
      intro u hu
      by_cases ha : a = some u
      · subst ha
        exact (hI.owns_self h hu).2.imp_right fun hn => ⟨rfl, hn⟩
      · rw [h.phase_other ha] at hu; exact .inl hu
    have taken : ∀ u, (s.phase u).orderId? = some id → s.db.order? id ≠ none := by
      intro u hu
      obtain ⟨req, o, ho⟩ := hI.calls.owns u id hu
      rw [ho.found]
      exact nofun
    rcases origin t hid with h₁ | ⟨h₁, hn₁⟩ <;> rcases origin t' hid' with h₂ | ⟨h₂, hn₂⟩
    · exact hI.calls.unique t t' id h₁ h₂
    · exact (taken t h₁ hn₂).elim
    · exact (taken t' h₂ hn₁).elim
    · exact Option.some.inj (h₁.symm.trans h₂)
  fresh id o ho := by
    have hle := h.uuids_le
    cases hs : s.db.order? id with
    | some o₀ => exact Nat.lt_of_lt_of_le (hI.calls.fresh id o₀ hs) hle
    | none =>
      obtain ⟨t, _, _, hlt⟩ := hI.order_new h hs ho
      exact Nat.lt_of_lt_of_le hlt hle

theorem SagaInv.owner_fits (h : SagaInv c s) {o : Order} (ho : o ∈ s.db.orders) :
    ∃ t, (s.phase t).orderId? = some o.id ∧ (s.phase t).Fits (s.rpc t) o := by
  have hfound := h.tables.order?_of_mem ho
  obtain ⟨t, ht⟩ := h.calls.owner o.id o hfound
  obtain ⟨req, o', ho'⟩ := h.calls.owns t o.id ht
  rw [Option.some.inj (hfound.symm.trans ho'.found)]
  exact ⟨t, by rw [ht, ← ho'.id], ho'.fits⟩

end OrdersBackend
