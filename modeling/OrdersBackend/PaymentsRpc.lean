import OrdersBackend.PaymentsLedger

/-!
# The payments RPCs

`PaymentsGrpcController` with its four methods. `Capture` and `Refund` are
stubs: they answer for any id, and the store never hears of them.
-/

namespace OrdersBackend

open Conc

inductive PaymentsCall where
  | authorize (req : AuthorizeRequest)
  | getPaymentStatus (paymentId : Uuid)
  | capture (paymentId : Uuid)
  | refund (paymentId : Uuid)

namespace PaymentsGrpcController

def capture (paymentId : Uuid) : AuthorizeResponse := ⟨paymentId, .captured⟩

def refund (paymentId : Uuid) : AuthorizeResponse := ⟨paymentId, .refunded⟩

end PaymentsGrpcController

variable (randomUUID : Nat → Uuid)

namespace LiveStore

/-- What a method answers, and the store it leaves. -/
def call (s : LiveStore) : PaymentsCall → AuthorizeResponse × LiveStore
  | .authorize req =>
    let (res, store) := PaymentsGrpcController.authorize s.store (randomUUID s.drawn) req
    (res, ⟨store, if (s.store.existing req.idempotencyKey).isSome then s.drawn else s.drawn + 1⟩)
  | .getPaymentStatus paymentId => (PaymentsGrpcController.getPaymentStatus s.store paymentId, s)
  | .capture paymentId => (PaymentsGrpcController.capture paymentId, s)
  | .refund paymentId => (PaymentsGrpcController.refund paymentId, s)

def afterCalls (calls : List PaymentsCall) : LiveStore := calls.foldl (fun s c => (s.call randomUUID c).2) init

def answer (past : List PaymentsCall) (c : PaymentsCall) : AuthorizeResponse :=
  ((afterCalls randomUUID past).call randomUUID c).1

end LiveStore

def PaymentsCall.request? : PaymentsCall → Option AuthorizeRequest
  | .authorize req => some req
  | _ => none

def PaymentsCall.authorizes (c : PaymentsCall) : Bool := c.request?.isSome

/-- The ids that the Authorize calls of a history have been answered with. -/
def issuedIds : List PaymentsCall → LiveStore → List Uuid
  | [], _ => []
  | c :: later, s =>
    let (res, s') := s.call randomUUID c
    if c.authorizes then res.paymentId :: issuedIds later s' else issuedIds later s'

variable {randomUUID} {s : LiveStore} {l : Ledger}

/-! ## The methods and the ledger -/

theorem LiveStore.call_unchanged {c : PaymentsCall} (h : c.authorizes = false) : (s.call randomUUID c).2 = s := by
  cases c with
  | authorize => cases h
  | _ => rfl

theorem LiveStore.afterCalls_filter (calls : List PaymentsCall) (s : LiveStore) :
    calls.foldl (fun s c => (s.call randomUUID c).2) s =
      (calls.filter PaymentsCall.authorizes).foldl (fun s c => (s.call randomUUID c).2) s := by
  induction calls generalizing s with
  | nil => rfl
  | cons c calls ih =>
    by_cases hc : c.authorizes = true
    · rw [List.filter_cons_of_pos hc, List.foldl_cons, List.foldl_cons, ih]
    · rw [List.filter_cons_of_neg hc, List.foldl_cons, call_unchanged (by simpa using hc), ih]

theorem LiveStore.Represents.call (h : s.Represents randomUUID l) (hinj : Function.Injective randomUUID)
    (req : AuthorizeRequest) :
    (s.call randomUUID (.authorize req)).1 =
        ⟨(l.authorize (randomUUID l.length) req).1.paymentId, (l.authorize (randomUUID l.length) req).1.status⟩ ∧
      (s.call randomUUID (.authorize req)).2.Represents randomUUID (l.authorize (randomUUID l.length) req).2 := by
  obtain ⟨hreply, hserve⟩ := h.serve hinj (.authorize req)
  have hrecord : (s.store.authorize (randomUUID s.drawn) req).1 = (l.authorize (randomUUID l.length) req).1 :=
    Option.some.inj hreply
  refine ⟨?_, hserve⟩
  rw [← hrecord]
  rfl

theorem LiveStore.Represents.getPaymentStatus (h : s.Represents randomUUID l)
    (hstatus : ∀ e ∈ l, e.record.status = .authorized) (pid : Uuid) :
    PaymentsGrpcController.getPaymentStatus s.store pid =
      if pid ∈ l.map (·.record.paymentId) then ⟨pid, .authorized⟩ else ⟨pid, .failed⟩ := by
  unfold PaymentsGrpcController.getPaymentStatus
  by_cases hp : pid ∈ l.map (·.record.paymentId)
  · obtain ⟨e, he, rfl⟩ := List.mem_map.mp hp
    have hget : s.store.getStatus e.record.paymentId = some e.record := h.store.get?_byId he
    rw [if_pos hp, hget]
    show (⟨e.record.paymentId, e.record.status⟩ : AuthorizeResponse) = _
    rw [hstatus e he]
  · have hget : s.store.getStatus pid = none := by
      unfold PaymentsStore.getStatus
      rw [JsMap.get?_eq_none_iff, JsMap.keys, h.store.byId, List.map_map]
      exact hp
    rw [if_neg hp, hget]

/-- An Authorize call answers with the id of an entry it finds or adds. -/
theorem Ledger.authorize_ids (l : Ledger) (uuid : Uuid) (req : AuthorizeRequest) (pid : Uuid) :
    pid ∈ (l.authorize uuid req).2.map (·.record.paymentId) ↔
      pid ∈ l.map (·.record.paymentId) ∨ pid = (l.authorize uuid req).1.paymentId := by
  cases hf : req.key?.bind l.find? with
  | some r =>
    rw [authorize_found hf]
    refine ⟨.inl, fun hp => hp.elim id ?_⟩
    rintro rfl
    obtain ⟨key, _, hfind⟩ := Option.bind_eq_some_iff.mp hf
    obtain ⟨e, he, rfl⟩ := Option.map_eq_some_iff.mp hfind
    exact List.mem_map.mpr ⟨e, List.mem_of_find?_eq_some he, rfl⟩
  | none =>
    rw [authorize_new hf]
    simp [AuthorizeRequest.newRecord]

theorem Ledger.authorize_status {uuid : Uuid} {req : AuthorizeRequest}
    (h : ∀ e ∈ l, e.record.status = .authorized) :
    ∀ e ∈ (l.authorize uuid req).2, e.record.status = .authorized := by
  cases hf : req.key?.bind l.find? with
  | some r =>
    rw [authorize_found hf]
    exact h
  | none =>
    rw [authorize_new hf]
    intro e he
    rcases List.mem_append.mp he with he | he
    · exact h e he
    · obtain rfl := List.mem_singleton.mp he
      rfl

/-! ## Histories -/

/-- The ledger of a history has the ids it was started with and those issued. -/
theorem LiveStore.Represents.calls (h : s.Represents randomUUID l) (hinj : Function.Injective randomUUID)
    (hstatus : ∀ e ∈ l, e.record.status = .authorized) (calls : List PaymentsCall) :
    ∃ l', (calls.foldl (fun s c => (s.call randomUUID c).2) s).Represents randomUUID l' ∧
      (∀ e ∈ l', e.record.status = .authorized) ∧
      ∀ pid, pid ∈ l'.map (·.record.paymentId) ↔
        pid ∈ l.map (·.record.paymentId) ∨ pid ∈ issuedIds randomUUID calls s := by
  induction calls generalizing s l with
  | nil => exact ⟨l, h, hstatus, fun pid => by simp [issuedIds]⟩
  | cons c calls ih =>
    cases c with
    | authorize req =>
      obtain ⟨hres, hnext⟩ := h.call hinj req
      obtain ⟨l', hl', hs', hids⟩ := ih hnext (Ledger.authorize_status hstatus)
      refine ⟨l', hl', hs', fun pid => ?_⟩
      have hcons : issuedIds randomUUID (.authorize req :: calls) s =
          (s.call randomUUID (.authorize req)).1.paymentId ::
            issuedIds randomUUID calls (s.call randomUUID (.authorize req)).2 := rfl
      rw [hids, Ledger.authorize_ids, hcons, List.mem_cons, hres, or_assoc]
    | getPaymentStatus _ | capture _ | refund _ => exact ih h hstatus

/-- A payment is reported as authorized from the Authorize call that answered
with it on, and as failed before; what is captured or refunded in between is
not seen, by this or by any other method. -/
theorem payments_rpcs (hinj : Function.Injective randomUUID) :
    (∀ past pid, LiveStore.answer randomUUID past (.getPaymentStatus pid) =
      if pid ∈ issuedIds randomUUID past .init then ⟨pid, .authorized⟩ else ⟨pid, .failed⟩) ∧
    ∀ past c, LiveStore.answer randomUUID past c =
      LiveStore.answer randomUUID (past.filter PaymentsCall.authorizes) c := by
  refine ⟨fun past pid => ?_, fun past c => ?_⟩
  · obtain ⟨l, hl, hstatus, hids⟩ := LiveStore.represents_init.calls hinj (by simp) past
    have hissued : pid ∈ l.map (·.record.paymentId) ↔ pid ∈ issuedIds randomUUID past .init := by
      rw [hids]
      simp
    rw [← if_congr hissued rfl rfl]
    exact hl.getPaymentStatus hstatus pid
  · unfold LiveStore.answer LiveStore.afterCalls
    rw [LiveStore.afterCalls_filter]

theorem payments_rpcs_mug :
    let past : List PaymentsCall := [.authorize (mugPayment "k"), .capture 0, .refund 7]
    LiveStore.answer id past (.getPaymentStatus 0) = ⟨0, .authorized⟩ ∧
      LiveStore.answer id past (.getPaymentStatus 7) = ⟨7, .failed⟩ := by
  intro past
  have hstatus := (payments_rpcs Function.injective_id).1 past
  exact ⟨hstatus 0, hstatus 7⟩

end OrdersBackend
