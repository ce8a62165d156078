import OrdersBackend.Saga

/-!
# What a step of the saga does

Each part of the state in turn: the phases, the jobs, the Authorize calls, and
the channels. A step of one thread leaves the others' parts alone.
-/

namespace OrdersBackend

open Conc

/-! ## Commits -/

/-- The events of a commit, newest first. -/
def wroteEvents (t : Tid) : Db → List Write → List Event
  | _, [] => []
  | db, wr :: ws => wroteEvents t (wr.apply db) ws ++ [.wrote t wr (wr.delta db)]

theorem commit_eq (t : Tid) (ws : List Write) (s : Shared) :
    s.commit t ws = { s with db := s.db.applyAll ws, trace := wroteEvents t s.db ws ++ s.trace } := by
  induction ws generalizing s with
  | nil => rfl
  | cons wr ws ih =>
    have h := ih (s.write t wr)
    unfold Shared.commit at h ⊢
    rw [List.foldl_cons, h]
    simp [Shared.write, Db.applyAll, wroteEvents]

theorem mem_wroteEvents {t : Tid} {db : Db} {ws : List Write} {e : Event} (h : e ∈ wroteEvents t db ws) :
    ∃ wr ∈ ws, ∃ δ, e = .wrote t wr δ := by
  induction ws generalizing db with
  | nil => cases h
  | cons wr ws ih =>
    simp only [wroteEvents, List.mem_append, List.mem_singleton] at h
    rcases h with h | h
    · obtain ⟨wr', hm, δ, he⟩ := ih h
      exact ⟨wr', List.mem_cons_of_mem _ hm, δ, he⟩
    · exact ⟨wr, List.mem_cons_self .., _, h⟩

theorem mem_wroteEvents_of_mem (t : Tid) (db : Db) {ws : List Write} {wr : Write} (h : wr ∈ ws) :
    ∃ δ, Event.wrote t wr δ ∈ wroteEvents t db ws := by
  induction ws generalizing db with
  | nil => cases h
  | cons wr' ws ih =>
    simp only [wroteEvents, List.mem_append, List.mem_singleton]
    rcases List.mem_cons.mp h with rfl | h
    · exact ⟨_, .inr rfl⟩
    · obtain ⟨δ, hδ⟩ := ih (wr'.apply db) h
      exact ⟨δ, .inl hδ⟩

/-! ## Phases -/

theorem phase_cons (t : Tid) (e : Event) (trace : List Event) :
    phaseIn t (e :: trace) = if e.actor = some t then (phaseIn t trace).next e else phaseIn t trace := rfl

theorem phaseIn_append {t : Tid} {es : List Event} (h : ∀ e ∈ es, e.actor ≠ some t) (trace : List Event) :
    phaseIn t (es ++ trace) = phaseIn t trace := by
  induction es with
  | nil => rfl
  | cons e es ih =>
    rw [List.cons_append, phase_cons, if_neg (h e (List.mem_cons_self ..))]
    exact ih fun e' he' => h e' (List.mem_cons_of_mem _ he')

theorem phaseIn_wroteEvents (t : Tid) (db : Db) (ws : List Write) (trace : List Event) :
    phaseIn t (wroteEvents t db ws ++ trace) = ws.foldl Phase.write (phaseIn t trace) := by
  induction ws generalizing db trace with
  | nil => rfl
  | cons wr ws ih =>
    rw [wroteEvents, List.append_assoc, ih, List.foldl_cons, List.singleton_append, phase_cons]
    simp [Event.actor, Phase.next]

theorem phase_commit (t : Tid) (ws : List Write) (s : Shared) :
    (s.commit t ws).phase t = ws.foldl Phase.write (s.phase t) := by
  rw [commit_eq]
  exact phaseIn_wroteEvents t s.db ws s.trace

theorem phase_log {t : Tid} {e : Event} (h : e.actor = some t) (s : Shared) :
    (s.log e).phase t = (s.phase t).next e := if_pos h

theorem phase_write (t : Tid) (s : Shared) (wr : Write) : (s.write t wr).phase t = (s.phase t).write wr :=
  if_pos rfl

theorem phase_published (t : Tid) (rk : RoutingKey) (msg : Message) (s : Shared) :
    (s.published t rk msg).phase t = (s.phase t).next (.published t rk msg) := if_pos rfl

theorem phase_acked (t : Tid) (msg : Message) (s : Shared) : (s.acked t msg).phase t = s.phase t := if_pos rfl

theorem mem_reserveLog {products : List Product} {plan : OrderPlan} {order : Order} {items : List OrderItem}
    {wr : Write} (h : wr ∈ reserveLog products plan order items) :
    (∃ p n, wr = .stock p n) ∨ wr = .insertOrder order ∨ ∃ item, wr = .insertItem item := by
  rw [reserveLog, List.mem_append, List.mem_cons, List.mem_filterMap, List.mem_map] at h
  rcases h with ⟨entry, _, h⟩ | rfl | ⟨item, _, rfl⟩
  · obtain ⟨product, _, rfl⟩ := Option.map_eq_some_iff.mp h
    exact .inl ⟨_, _, rfl⟩
  · exact .inr (.inl rfl)
  · exact .inr (.inr ⟨item, rfl⟩)

theorem mem_releaseLog {db : Db} {id : Uuid} {wr : Write} (h : wr ∈ releaseLog db id) :
    wr = .failOrder id ∨ ∃ p q, wr = .addStock p q := by
  rw [releaseLog, List.mem_cons, List.mem_map] at h
  rcases h with rfl | ⟨item, _, rfl⟩
  · exact .inl rfl
  · exact .inr ⟨_, _, rfl⟩

theorem mem_processLog {mid oid : Uuid} {order : Order} {processedAt : Nat} {wr : Write}
    (h : wr ∈ processLog mid oid order processedAt) :
    wr = .insertProcessed ⟨mid, oid, "orders-worker"⟩ ∨ wr = .processOrder oid processedAt := by
  rw [processLog, List.mem_cons] at h
  rcases h with rfl | h
  · exact .inl rfl
  · split at h
    · cases h
    · exact .inr (List.mem_singleton.mp h)

theorem foldl_write_inert {ws : List Write} (h : ∀ wr ∈ ws, ∀ p : Phase, p.write wr = p) (p : Phase) :
    ws.foldl Phase.write p = p := by
  induction ws generalizing p with
  | nil => rfl
  | cons wr ws ih =>
    rw [List.foldl_cons, h wr (List.mem_cons_self ..)]
    exact ih (fun wr' h' => h wr' (List.mem_cons_of_mem _ h')) p

theorem foldl_reserveLog (products : List Product) (plan : OrderPlan) (order : Order) (items : List OrderItem)
    (p : Phase) : (reserveLog products plan order items).foldl Phase.write p = .reserved order.id := by
  rw [reserveLog, List.foldl_append, List.foldl_cons]
  apply foldl_write_inert
  intro wr hw p
  obtain ⟨item, _, rfl⟩ := List.mem_map.mp hw
  rfl

theorem foldl_releaseLog (db : Db) (id : Uuid) (p : Phase) :
    (releaseLog db id).foldl Phase.write p = .released id := by
  rw [releaseLog, List.foldl_cons]
  apply foldl_write_inert
  intro wr hw p
  obtain ⟨item, _, rfl⟩ := List.mem_map.mp hw
  rfl

theorem foldl_processLog (mid oid : Uuid) (order : Order) (processedAt : Nat) (p : Phase) :
    (processLog mid oid order processedAt).foldl Phase.write p = .consumed := by
  rw [processLog, List.foldl_cons]
  split <;> rfl

theorem phase_reserve (t : Tid) (s : Shared) (products : List Product) (plan : OrderPlan) (order : Order)
    (items : List OrderItem) :
    (s.commit t (reserveLog products plan order items)).phase t = .reserved order.id := by
  rw [phase_commit, foldl_reserveLog]

theorem phase_release (t : Tid) (s : Shared) (id : Uuid) :
    (s.commit t (releaseLog s.db id)).phase t = .released id := by
  rw [phase_commit, foldl_releaseLog]

theorem phase_process (t : Tid) (s : Shared) (mid oid : Uuid) (order : Order) (processedAt : Nat) :
    (s.commit t (processLog mid oid order processedAt)).phase t = .consumed := by
  rw [phase_commit, foldl_processLog]

theorem Phase.next_failed {c : Cmd} (h : c.authorizes = false) (p : Phase) (t : Tid) :
    p.next (.failed t c) = p := by
  cases c <;> first | rfl | cases h

theorem Phase.next_rejected {c : Cmd} (h : c.authorizes = true) (p : Phase) (t : Tid) :
    p.next (.failed t c) = p.reject := by
  cases c <;> first | rfl | cases h

variable {cfg : Config} {a : Option Tid} {s s' : Shared}

theorem phase_request (t : Tid) (req : AuthorizeRequest) (s : Shared) :
    ((s.setRpc t (.requested req)).log (.sent t req)).phase t = .requested req.orderId := phase_log rfl _

theorem phase_reject {t : Tid} {id : Uuid} {c : Cmd} (hc : c.authorizes = true)
    (h : s.phase t = .reserved id ∨ s.phase t = .requested id) :
    (s.log (.failed t c)).phase t = .rejected id := by
  rw [phase_log rfl, Phase.next_rejected hc]
  rcases h with h | h <;> rw [h] <;> rfl

theorem phase_pay (t : Tid) (s : Shared) (id : Uuid) (res : AuthorizeResponse) :
    (s.write t (.payOrder id res.paymentId res.status)).phase t = .paid id := phase_write t s _

theorem phase_identify {t : Tid} {id : Uuid} (h : s.phase t = .paid id) :
    ({ s with uuids := s.uuids + 1 }.log (.generated t s.uuids)).phase t = .identified id s.uuids := by
  have h' : ({ s with uuids := s.uuids + 1 } : Shared).phase t = .paid id := h
  rw [phase_log rfl, h']
  rfl

theorem phase_publish {t : Tid} {id mid : Uuid} (msg : Message) (h : s.phase t = .identified id mid) :
    (s.published t .process msg).phase t = .published id mid := by
  rw [phase_published, h]; rfl

theorem phase_republish {t : Tid} {payload : OrdersProcessMessage} {rk : RoutingKey} {msg : Message}
    (h : Republishes cfg payload rk msg) : (s.published t rk msg).phase t = .republished := by
  rw [phase_published]
  cases h <;> rfl

/-- What a step of `t` does to its phase, with the events it appends. -/
inductive Turn (cfg : Config) (t : Tid) : Phase → List Event → Phase → Prop
  | silent (p : Phase) : Turn cfg t p [] p
  | failed (p : Phase) {c : Cmd} (hc : c.authorizes = false) : Turn cfg t p [.failed t c] p
  | ackLost (p : Phase) (c : Cmd) : Turn cfg t p [.ackLost t c] p
  | acked (p : Phase) (msg : Message) : Turn cfg t p [.acked t msg] p
  | reserve (db : Db) (products : List Product) (plan : OrderPlan) (order : Order) (items : List OrderItem) :
      Turn cfg t .start (wroteEvents t db (reserveLog products plan order items)) (.reserved order.id)
  | request (req : AuthorizeRequest) : Turn cfg t (.reserved req.orderId) [.sent t req] (.requested req.orderId)
  | unsent (id : Uuid) {c : Cmd} (hc : c.authorizes = true) : Turn cfg t (.reserved id) [.failed t c]
      (.rejected id)
  | reject (id : Uuid) : Turn cfg t (.requested id) [.failed t .awaitAuthorize] (.rejected id)
  | release (db : Db) (id : Uuid) : Turn cfg t (.rejected id) (wroteEvents t db (releaseLog db id)) (.released id)
  | pay (id : Uuid) (res : AuthorizeResponse) (δ : Int) :
      Turn cfg t (.requested id) [.wrote t (.payOrder id res.paymentId res.status) δ] (.paid id)
  | identify (id mid : Uuid) : Turn cfg t (.paid id) [.generated t mid] (.identified id mid)
  | publish (id mid : Uuid) (createdAt : Nat) :
      Turn cfg t (.identified id mid) [.published t .process (processMessage mid id createdAt)] (.published id mid)
  | consume (db : Db) (mid oid : Uuid) (order : Order) (processedAt : Nat) :
      Turn cfg t .start (wroteEvents t db (processLog mid oid order processedAt)) .consumed
  | republish {payload : OrdersProcessMessage} {rk : RoutingKey} {msg : Message}
      (h : Republishes cfg payload rk msg) : Turn cfg t .start [.published t rk msg] .republished

theorem Step.turn {t : Tid} (h : Step cfg (some t) s s') :
    ∃ es, s'.trace = es ++ s.trace ∧ Turn cfg t (s.phase t) es (s'.phase t) := by
  cases h with
  | arrive | deliver | skipUuid | receive | nack | lose => exact ⟨[], rfl, .silent _⟩
  | @failed _ _ c hc => exact ⟨[.failed t c], rfl, by rw [phase_log rfl, Phase.next_failed hc]; exact .failed _ hc⟩
  | ackLost _ _ c => exact ⟨[.ackLost t c], rfl, by rw [phase_log rfl]; exact .ackLost _ c⟩
  | @ack _ _ msg => exact ⟨[.acked t msg], rfl, by rw [phase_acked]; exact .acked _ _⟩
  | @reserve _ _ _ products plan order items h =>
    refine ⟨_, by rw [commit_eq], ?_⟩
    rw [phase_reserve, h.phase]
    exact .reserve s.db products plan order items
  | @request _ _ req h => exact ⟨[.sent t req], rfl, by rw [phase_request, h.phase]; exact .request _⟩
  | @reject _ _ id c hc h hs =>
    refine ⟨[.failed t c], rfl, ?_⟩
    rw [phase_reject hc h]
    rcases h with h | h
    · rw [h]; exact .unsent _ hc
    · rw [h] at hs ⊢
      obtain rfl := hs.resolve_left nofun
      exact .reject _
  | release h =>
    refine ⟨_, by rw [commit_eq], ?_⟩
    rw [phase_release, h]
    exact .release s.db _
  | @pay _ _ id res h _ =>
    refine ⟨[.wrote t (.payOrder id res.paymentId res.status) (Write.delta s.db _)], rfl, ?_⟩
    rw [phase_pay, h]
    exact .pay id res _
  | identify h => exact ⟨[.generated t s.uuids], rfl, by rw [phase_identify h, h]; exact .identify _ _⟩
  | @publish _ _ id mid createdAt h =>
    refine ⟨[.published t .process (processMessage mid id createdAt)], rfl, ?_⟩
    rw [phase_publish _ h, h]
    exact .publish _ _ createdAt
  | @process _ _ _ mid oid order processedAt h =>
    refine ⟨_, by rw [commit_eq], ?_⟩
    rw [phase_process, h.phase]
    exact .consume s.db mid oid order processedAt
  | @republish _ _ _ _ rk msg' _ _ hp h =>
    exact ⟨[.published t rk msg'], rfl, by rw [phase_republish h, hp]; exact .republish h⟩

/-- The moves of a thread between phases. -/
inductive Phase.Move : Phase → Phase → Prop
  | stay (p : Phase) : Move p p
  | reserve (id : Uuid) : Move .start (.reserved id)
  | request (id : Uuid) : Move (.reserved id) (.requested id)
  | unsent (id : Uuid) : Move (.reserved id) (.rejected id)
  | reject (id : Uuid) : Move (.requested id) (.rejected id)
  | release (id : Uuid) : Move (.rejected id) (.released id)
  | pay (id : Uuid) : Move (.requested id) (.paid id)
  | identify (id mid : Uuid) : Move (.paid id) (.identified id mid)
  | publish (id mid : Uuid) : Move (.identified id mid) (.published id mid)
  | consume : Move .start .consumed
  | republish : Move .start .republished

theorem Turn.move {t : Tid} {p p' : Phase} {es : List Event} (h : Turn cfg t p es p') : p.Move p' := by
  cases h with
  | silent | failed | ackLost | acked => exact .stay _
  | reserve | request | unsent | reject | release | pay | identify | publish | consume | republish => constructor

theorem Step.phase_self {t : Tid} (h : Step cfg (some t) s s') : Phase.Move (s.phase t) (s'.phase t) := by
  obtain ⟨es, _, ht⟩ := h.turn
  exact ht.move

theorem Phase.Move.orderId_new {p p' : Phase} (h : Move p p') {id : Uuid} (hp : p'.orderId? = some id) :
    p.orderId? = some id ∨ p = .start ∧ p' = .reserved id := by
  cases h <;> first | exact .inl hp | (cases hp; exact .inr ⟨rfl, rfl⟩)

theorem Step.reserves {t : Tid} (h : Step cfg (some t) s s') {id : Uuid} (hid : (s'.phase t).orderId? = some id) :
    (s.phase t).orderId? = some id ∨ ∃ req products plan order items,
      Reserves s t req products plan order items ∧ order.id = id ∧
        s' = s.commit t (reserveLog products plan order items) := by
  rcases h.phase_self.orderId_new hid with hid | ⟨hp₀, hp⟩
  · exact .inl hid
  · have left : s'.phase t = s.phase t → False := fun e => by rw [hp, hp₀] at e; cases e
    cases h with
    | arrive | deliver | skipUuid | receive | nack | lose => exact (left rfl).elim
    | failed hc => exact (left ((phase_log rfl _).trans (Phase.next_failed hc _ t))).elim
    | ackLost => exact (left (phase_log rfl _)).elim
    | ack => exact (left (phase_acked ..)).elim
    | @reserve _ _ req products plan order items hr =>
      rw [phase_reserve] at hp
      cases hp
      exact .inr ⟨req, products, plan, order, items, hr, rfl, rfl⟩
    | request hr => rw [phase_request] at hp; cases hp
    | reject hc hr => rw [phase_reject hc hr] at hp; cases hp
    | release hr => rw [phase_release] at hp; cases hp
    | pay hr _ => rw [phase_pay] at hp; cases hp
    | identify hr => rw [phase_identify hr] at hp; cases hp
    | publish createdAt hr => rw [phase_publish _ hr] at hp; cases hp
    | process processedAt hr => rw [phase_process] at hp; cases hp
    | republish _ _ _ hr => rw [phase_republish hr] at hp; cases hp

theorem Step.identifies {t : Tid} (h : Step cfg (some t) s s') {id mid : Uuid} (hp : s.phase t = .paid id)
    (hp' : s'.phase t = .identified id mid) : mid = s.uuids ∧ s'.uuids = s.uuids + 1 := by
  have stuck : s'.phase t = .paid id → False := fun e => by rw [e] at hp'; cases hp'
  cases h with
  | arrive | deliver | skipUuid | receive | nack | lose => exact (stuck hp).elim
  | failed hc => exact (stuck (by rw [phase_log rfl, Phase.next_failed hc, hp])).elim
  | ackLost => exact (stuck (by rw [phase_log rfl, hp]; rfl)).elim
  | ack => exact (stuck (by rw [phase_acked, hp])).elim
  | reserve h => rw [phase_reserve] at hp'; cases hp'
  | request h => rw [phase_request] at hp'; cases hp'
  | reject hc h => rw [phase_reject hc h] at hp'; cases hp'
  | release h => rw [phase_release] at hp'; cases hp'
  | pay h _ => rw [phase_pay] at hp'; cases hp'
  | identify h => rw [phase_identify h] at hp'; cases hp'; exact ⟨rfl, rfl⟩
  | publish createdAt h => rw [phase_publish _ h] at hp'; cases hp'
  | process processedAt h => rw [phase_process] at hp'; cases hp'
  | republish _ _ _ h => rw [phase_republish h] at hp'; cases hp'

theorem Step.phase_unstarted {t : Tid} (h : Step cfg (some t) s s') (hj : s.jobs t = none)
    (hp : s.phase t = .start) : s'.phase t = .start := by
  have started : ∀ {job : Job}, s.jobs t = some job → False := fun e => by rw [e] at hj; cases hj
  have left : ∀ {p : Phase}, s.phase t = p → p ≠ .start → False := fun e hne => hne (by rw [← e, hp])
  cases h with
  | arrive | deliver | skipUuid | receive | nack | lose => exact hp
  | failed hc => rw [phase_log rfl, Phase.next_failed hc]; exact hp
  | ackLost => rw [phase_log rfl]; exact hp
  | ack => rw [phase_acked]; exact hp
  | reserve h => exact (started h.job).elim
  | request h => exact (left h.phase nofun).elim
  | reject hc h => rcases h with h | h <;> exact (left h nofun).elim
  | release h | pay h _ | identify h | publish _ h => exact (left h nofun).elim
  | process _ h =>
    obtain ⟨_, hj', _⟩ := h.job
    exact (started hj').elim
  | republish hj' => exact (started hj').elim

/-- A thread's own step moves its Authorize call only while it is requested. -/
theorem Step.rpc_self {t : Tid} (h : Step cfg (some t) s s') :
    s'.rpc t = s.rpc t ∨ ∃ id, s'.phase t = .requested id := by
  cases h with
  | request h => exact .inr ⟨_, phase_request ..⟩
  | receive h => exact .inr ⟨_, h⟩
  | reserve | release | process => left; rw [commit_eq]
  | _ => exact .inl rfl

/-! ## What a thread's step leaves alone -/

theorem Step.trace (h : Step cfg a s s') : ∃ es, s'.trace = es ++ s.trace ∧ ∀ e ∈ es, e.actor = a := by
  have commit : ∀ (t : Tid) (s : Shared) (ws : List Write),
      ∃ es, (s.commit t ws).trace = es ++ s.trace ∧ ∀ e ∈ es, e.actor = some t := by
    intro t s ws
    refine ⟨wroteEvents t s.db ws, by rw [commit_eq], fun e he => ?_⟩
    obtain ⟨wr, _, δ, rfl⟩ := mem_wroteEvents he
    rfl
  cases h with
  | reserve | release | process => exact commit ..
  | answer | loseCall | expire | loseChannel | tick | arrive | deliver | skipUuid | receive | nack | lose =>
    exact ⟨[], rfl, by simp⟩
  | execute | failed | ackLost | request | reject | pay | identify | publish | republish | ack =>
    exact ⟨[_], rfl, by simp [Event.actor]⟩

theorem Step.phase_other (h : Step cfg a s s') {t : Tid} (ht : a ≠ some t) : s'.phase t = s.phase t := by
  obtain ⟨es, he, hes⟩ := h.trace
  unfold Shared.phase
  rw [he]
  exact phaseIn_append (fun e hm => (hes e hm).trans_ne ht) _

theorem Step.jobs (h : Step cfg a s s') :
    s'.jobs = s.jobs ∨
      ∃ t job, a = some t ∧ s.jobs t = none ∧ s'.jobs = Function.update s.jobs t (some job) := by
  cases h with
  | arrive req h => exact .inr ⟨_, _, rfl, h, rfl⟩
  | deliver hj h => exact .inr ⟨_, _, rfl, hj, rfl⟩
  | reserve | release | process => left; rw [commit_eq]
  | _ => left; rfl

theorem Step.jobs_mono (h : Step cfg a s s') {t : Tid} {job : Job} (hj : s.jobs t = some job) :
    s'.jobs t = some job := by
  rcases h.jobs with he | ⟨t', job', _, hn, he⟩
  · rw [he]; exact hj
  · have hne : t ≠ t' := fun e => by subst e; rw [hn] at hj; cases hj
    rw [he, Function.update_of_ne hne]; exact hj

theorem Step.jobs_other (h : Step cfg a s s') {t : Tid} (ht : a ≠ some t) : s'.jobs t = s.jobs t := by
  rcases h.jobs with he | ⟨t', job', ha, _, he⟩
  · rw [he]
  · have hne : t ≠ t' := fun e => ht (by rw [ha, e])
    rw [he, Function.update_of_ne hne]

/-- The service and the network move a call on that is neither unsent nor
over. -/
theorem Step.rpc_other (h : Step cfg a s s') {t : Tid} (ht : a ≠ some t) :
    s'.rpc t = s.rpc t ∨
      ((∃ req, s.rpc t = .requested req) ∨ ∃ res, s.rpc t = .executed res) ∧
        ((∃ res, s'.rpc t = .executed res) ∨ s'.rpc t = .lost) := by
  have own : ∀ {u : Tid} {r : Rpc}, some u ≠ some t → Function.update s.rpc u r t = s.rpc t :=
    fun hu => Function.update_of_ne (fun e => hu (by rw [e])) _ _
  have moved : ∀ {u : Tid} {r : Rpc}, ((∃ req, s.rpc u = .requested req) ∨ ∃ res, s.rpc u = .executed res) →
      ((∃ res, r = .executed res) ∨ r = .lost) →
      Function.update s.rpc u r t = s.rpc t ∨
        ((∃ req, s.rpc t = .requested req) ∨ ∃ res, s.rpc t = .executed res) ∧
          ((∃ res, Function.update s.rpc u r t = .executed res) ∨ Function.update s.rpc u r t = .lost) := by
    intro u r hu hr
    by_cases hut : t = u
    · subst hut
      rw [Function.update_self]
      exact .inr ⟨hu, hr⟩
    · exact .inl (Function.update_of_ne hut _ _)
  cases h with
  | execute _ hr | answer _ hr => exact moved (.inl ⟨_, hr⟩) (.inl ⟨_, rfl⟩)
  | loseCall hr => exact moved hr (.inr rfl)
  | reserve | release | process => left; rw [commit_eq]
  | request | receive => exact .inl (own ht)
  | _ => exact .inl rfl

theorem Step.rpc_idle (h : Step cfg a s s') {t : Tid} (ht : a ≠ some t) :
    s'.rpc t = .idle ↔ s.rpc t = .idle := by
  rcases h.rpc_other ht with he | ⟨⟨_, h₁⟩ | ⟨_, h₁⟩, ⟨_, h₂⟩ | h₂⟩ <;> simp_all

theorem Step.rpc_answered (h : Step cfg a s s') {t : Tid} (ht : a ≠ some t) {res : AuthorizeResponse}
    (hr : s.rpc t = .answered res) : s'.rpc t = .answered res := by
  rcases h.rpc_other ht with he | ⟨⟨_, h₁⟩ | ⟨_, h₁⟩, _⟩
  · rw [he]; exact hr
  · rw [hr] at h₁; cases h₁
  · rw [hr] at h₁; cases h₁

theorem Step.uuids_le (h : Step cfg a s s') : s.uuids ≤ s'.uuids := by
  cases h with
  | reserve | release | process => simp [commit_eq]
  | execute | skipUuid | identify => exact Nat.le_succ _
  | _ => exact Nat.le_refl _

end OrdersBackend
