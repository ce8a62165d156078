import OrdersBackend.Alone
import OrdersBackend.Connections
import OrdersBackend.ContestProgress
import OrdersBackend.Copies
import OrdersBackend.Messages

/-!
# Recovery

What a crash leaves of an order. Where nothing runs, no row is locked, and a
delivery that is left alone processes its order; so a published message
brings its order to its end whatever has happened, unless it is a dead letter.
-/

namespace OrdersBackend

open Conc Async

variable {cfg : Config} {c : Catalogue} {t : Tid} {w w' : World} {conf conf' : SysConf} {α : Type}

/-! ## A delivery that is left alone -/

variable {s : Shared} {pool : Pool → List Tid} {sess : Session}

/-- What the transaction of the delivery writes. -/
def deliveryLog (mid oid : Uuid) (o : Order) (at_ : Nat) : List Write :=
  if o.status = .processed then [] else [.insertProcessed ⟨mid, oid, "orders-worker"⟩, .processOrder oid at_]

theorem processed_deliveryLog {db : Db} {oid : Uuid} {o : Order} (h : db.order? oid = some o) (mid : Uuid) (at_ : Nat) :
    (db.applyAll (deliveryLog mid oid o at_)).processed oid := by
  unfold deliveryLog
  by_cases hst : o.status = .processed
  · rw [if_pos hst]
    exact ⟨o, h, hst⟩
  · rw [if_neg hst]
    have hfound : (Write.apply db (.insertProcessed ⟨mid, oid, "orders-worker"⟩)).order? oid = some o := h
    exact ⟨o.process at_, Db.order?_updateOrder_self (.process at_) (fun _ => rfl) hfound, rfl⟩

theorem lone_ack {Q : Except Err Unit → World → Prop} {m : Message} (hs : s.unserved t)
    (hc : s.broker.channel t = .ready (some m)) (h : Sole t s pool sess w)
    (hQ : ∀ w', Sole t (s.acked t m) pool sess w' → Q (.ok ()) w') : Lone cfg t Q (issue .ack) w := by
  have hack : perform cfg t .ack w = some (.ok (), { w with toShared := s.acked t m }) := by
    simp only [perform, h.shared, Shared.ack, hc]
  exact h.issue hs .ack hack (hQ _ (h.setShared _)) (World.refuses_of_open (by simp [h.shared, hc]) .ack)

/-- The transaction is committed, and the message acknowledged. -/
theorem lone_commit_ack {Q : Except Err Unit → World → Prop} {m : Message} {ws : List Write} (hs : s.unserved t)
    (hc : s.broker.channel t = .ready (some m)) (h : Sole t s pool ⟨true, false, some ws⟩ w)
    (hQ : ∀ w', Sole t ((s.commit t ws).acked t m) pool ⟨false, false, none⟩ w' → Q (.ok ()) w') :
    Lone cfg t Q (do issue (.commitTransaction .qr); issue .ack) w := by
  refine ends_bind (lone_commit h hs fun w' h' => lone_ack ?_ ?_ h' hQ)
  · rw [commit_eq]
    exact hs
  · rw [commit_eq]
    exact hc

/-- The row in `processed_messages` and the status of the order agree. -/
def Db.agree (db : Db) (mid : Uuid) (o : Order) : Prop := (db.processed? mid).isSome ↔ o.status = .processed

theorem lone_handleTry {Q : Except Err Unit → World → Prop} {m : Message} {payload : OrdersProcessMessage}
    {mid oid : Uuid} {o : Order} (hs : s.unserved t) (hmid : payload.messageId = some mid)
    (hoid : payload.orderId = some oid) (ho : s.db.order? oid = some o) (ha : s.db.agree mid o)
    (hc : s.broker.channel t = .ready (some m)) (h : Sole t s pool ⟨true, false, some []⟩ w)
    (hseen : o.status = .processed → Q (.error uniqueViolation) w)
    (hQ : ∀ w', Sole t ((s.commit t (deliveryLog mid oid o s.clock)).acked t m) pool ⟨false, false, none⟩ w' →
      Q (.ok ()) w') : Lone cfg t Q (handleTry payload) w := by
  obtain ⟨messageId, orderId, _, _, _, _, _⟩ := payload
  obtain rfl : messageId = some mid := hmid
  obtain rfl : orderId = some oid := hoid
  cases hunseen : (s.db.processed? mid).isSome with
  | true =>
    have hinsert : perform cfg t (.insertProcessed (some mid) (some oid) "orders-worker") w =
        some (.error uniqueViolation, w) := by
      have hview : ((w.view t).processed? mid).isSome = true := by
        rw [h.view]
        exact hunseen
      simp only [perform, h.lockable, hview, if_true]
    exact ends_bind (h.issue hs _ hinsert (hseen (ha.mp hunseen)))
  | false =>
    have hunprocessed : o.status ≠ .processed := by
      intro hst
      rw [ha.mpr hst] at hunseen
      cases hunseen
    have hlog : deliveryLog mid oid o s.clock =
        [.insertProcessed ⟨mid, oid, "orders-worker"⟩, .processOrder oid s.clock] := if_neg hunprocessed
    rw [hlog] at hQ
    obtain ⟨w₁, h₁, hw₁⟩ := h.stmt (.insertProcessed ⟨mid, oid, "orders-worker"⟩)
    have hinsert : perform cfg t (.insertProcessed (some mid) (some oid) "orders-worker") w = some (.ok (), w₁) := by
      have hview : ((w.view t).processed? mid).isSome = false := by
        rw [h.view]
        exact hunseen
      simp only [perform, h.lockable, hview, h₁]
      rfl
    have hw₂ := hw₁.lock (.order oid)
    have hlock : perform cfg t (.lockOrder (some oid)) w₁ = some (.ok (some o), w₁.lock t (.order oid)) := by
      have hfound : (w₁.view t).order? oid = some o := by
        rw [hw₁.view]
        exact ho
      simp only [perform, hw₁.lockable, hfound]
      rfl
    obtain ⟨w₃, h₃, hw₃⟩ := hw₂.stmt (.processOrder oid s.clock)
    have hsave : perform cfg t (.saveProcessed o.id) (w₁.lock t (.order oid)) = some (.ok (), w₃) := by
      have hclock : (w₁.lock t (.order oid)).clock = s.clock := congrArg Shared.clock hw₂.shared
      simp only [perform, hclock, Db.order?_id ho, h₃, Option.map_some]
    refine ends_bind (h.issue hs _ hinsert (ends_bind (hw₁.issue hs _ hlock ?_)))
    simp only [hunprocessed, if_false]
    refine ends_bind (hw₂.issue hs .simulateWork rfl (ends_bind (hw₂.issue hs _ hsave ?_)))
    exact lone_commit_ack hs hc hw₃ hQ

theorem lone_handleCatch_seen {Q : Except Err Unit → World → Prop} {m : Message} {payload : OrdersProcessMessage}
    {ws : List Write} (hs : s.unserved t) (hc : s.broker.channel t = .ready (some m))
    (h : Sole t s pool ⟨true, false, some ws⟩ w)
    (hQ : ∀ w', Sole t (s.acked t m) pool ⟨false, false, none⟩ w' → Q (.ok ()) w') :
    Lone cfg t Q (handleCatch cfg payload uniqueViolation) w := by
  have hunique : isUniqueViolation uniqueViolation = true := rfl
  unfold handleCatch
  rw [if_pos hunique]
  exact ends_bind (lone_rollback h hs fun w' h' => lone_ack hs hc h' hQ)

theorem lone_deliveryThread {m : Message} {mid oid : Uuid} {o : Order} (hs : s.unserved t)
    (hcopy : m.isCopy mid oid) (ho : s.db.order? oid = some o) (ha : s.db.agree mid o)
    (hroom : (pool .worker).length < cfg.poolSize .worker) (hc : s.broker.channel t = .ready (some m))
    (h : Sole t s pool ⟨false, false, none⟩ w) :
    Lone cfg t (fun r w' => r = .ok none ∧
      Sole t ((s.commit t (deliveryLog mid oid o s.clock)).acked t m) pool ⟨false, false, none⟩ w')
      (deliveryThread cfg m) w := by
  obtain ⟨payload, hm, hmid, hoid⟩ := hcopy
  have hs' : ((s.commit t (deliveryLog mid oid o s.clock)).acked t m).unserved t := by
    rw [commit_eq]
    exact hs
  have hparse : parse m = .ok payload := by rw [parse, hm]
  refine ends_bind (ends_tryCatch (ends_bind ?_))
  rw [hparse]
  refine .done (ends_bind (lone_connect h hs .worker hroom fun w₁ h₁ => ends_bind ?_))
  refine lone_startTransaction h₁ hs rfl fun w₂ h₂ => ends_tryFinally (ends_tryCatch ?_)
  refine lone_handleTry hs hmid hoid ho ha hc h₂ (fun hseen => ?_) fun w₃ h₃ => ?_
  · -- the message has been seen before
    have hlog : deliveryLog mid oid o s.clock = [] := if_pos hseen
    rw [hlog] at hs' ⊢
    exact lone_handleCatch_seen hs hc h₂ fun w₃ h₃ => lone_release h₃ hs' fun w₄ h₄ => .done ⟨rfl, h₄⟩
  · exact lone_release h₃ hs' fun w₄ h₄ => .done ⟨rfl, h₄⟩

/-! ## After a crash -/

/-- The worker's connections that a rejected BEGIN has cost it. -/
def World.leaked (w : World) : List Tid := (w.pool .worker).filter fun t => rejectedIn t Cmd.beginsQr w.trace

theorem Reachable.pool_of_quiet (h : Reachable cfg c conf) (hq : conf.Quiet) {p : Pool} (ht : t ∈ conf.world.pool p) :
    conf.world.BeginRejected t := by
  obtain ⟨hgood, hidle, hkilled⟩ := h.held
  cases hth : conf.threads t with
  | idle =>
    have hover : (conf.world.held t).Over := .inl (hidle t hth)
    by_contra hn
    exact hover.released_iff.mpr hn p ht
  | killed => exact (hkilled t hth p ht).elim
  | running q =>
    cases q with
    | await cmd k => exact (hq t cmd k hth).elim
    | done r =>
      have hover : (conf.world.held t).Over := hgood.post hth
      by_contra hn
      exact hover.released_iff.mpr hn p ht

theorem Reachable.unlocked_of_quiet (h : Reachable cfg c conf) (hq : conf.Quiet) (r : Row) :
    conf.world.locks r = none := by
  cases hr : conf.world.locks r with
  | none => rfl
  | some t =>
    obtain ⟨cmd, k, ht, _⟩ := h.running_of_open (h.transactions.1.1.opened t r hr)
    exact (hq t cmd k ht).elim

theorem Reachable.jobs_of_idle (h : Reachable cfg c conf) (ht : conf.threads t = .idle) : conf.world.jobs t = none := by
  induction h with
  | refl => rfl
  | @step conf conf' l hr hs ih =>
    obtain ⟨hl, ht'⟩ := Machine.idle_step hs ht
    exact Runs.invariant (I := fun s => s.jobs t = none)
      (fun _ _ _ ha hj hstep => (hstep.jobs_other (ha ▸ hl)).trans hj) (Reachable.step hr hs) (ih ht')

theorem Reachable.exists_idle (h : Reachable cfg c conf) : ∃ t, conf.threads t = .idle := by
  obtain ⟨S, hS⟩ := h.exists_started
  obtain ⟨t, ht⟩ := Infinite.exists_notMem_finset S
  by_contra hn
  exact ht (hS t fun he => hn ⟨t, he⟩)

theorem dlq_requeue (t : Tid) (ch : Channel) (b : Broker) : (b.requeue t ch).queue .dlq = b.queue .dlq := by
  unfold Broker.requeue
  split
  · rfl
  · simp [Broker.setChannel, Broker.push]

/-- All that runs dies at once. -/
theorem Reachable.crash (h : Reachable cfg c conf) :
    ∃ conf', (machine cfg).Reach conf conf' ∧ conf'.Quiet ∧ conf'.world.trace = conf.world.trace ∧
      conf'.world.broker.queue .dlq = conf.world.broker.queue .dlq ∧
      (conf'.world.pool .worker).length ≤ conf.world.leaked.length := by
  obtain ⟨S, hS⟩ := h.exists_started
  obtain ⟨conf', hr, hq, htrace, hdlq, hpool⟩ := Machine.reach_quiet (M := machine cfg)
    (P := fun w => w.trace = conf.world.trace ∧ w.broker.queue .dlq = conf.world.broker.queue .dlq ∧
      (w.pool .worker).Sublist (conf.world.pool .worker))
    (fun t w hw => ⟨hw.1, (dlq_requeue t .lost w.broker).trans hw.2.1, List.filter_sublist.trans hw.2.2⟩) S.toList
    (c := conf) (fun t cmd k ht => Finset.mem_toList.mpr (hS t (by simp [ht]))) ⟨rfl, rfl, .refl _⟩
  have hreach : Reachable cfg c conf' := h.trans hr
  have hall : ∀ t ∈ conf'.world.pool .worker, rejectedIn t Cmd.beginsQr conf.world.trace = true := by
    intro t ht
    rw [← htrace]
    exact hreach.pool_of_quiet hq ht
  refine ⟨conf', hr, hq, htrace, hdlq, ?_⟩
  rw [← List.filter_eq_self.mpr hall]
  exact (hpool.filter _).length_le

/-! ## Redelivery -/

/-- A copy of the message is in the process queue, or will come back there. -/
def Broker.redelivers (b : Broker) (mid oid : Uuid) : Prop :=
  (∃ q, q ≠ .dlq ∧ ∃ m ∈ b.queue q, m.isCopy mid oid) ∨ ∃ t m, b.channel t = .ready (some m) ∧ m.isCopy mid oid

def setBroker (b : Broker) (conf : SysConf) : SysConf :=
  { conf with world := { conf.world with toShared := { conf.world.toShared with broker := b } } }

theorem reach_setBroker {e : EnvAct} {b : Broker}
    (h : conf.world.toShared.env cfg e = some { conf.world.toShared with broker := b }) :
    (machine cfg).Reach conf (setBroker b conf) := by
  refine .step (.env e) .refl ?_
  simp only [Machine.step, machine, World.env, h, Option.map_some]
  rfl

/-- The broker hands out again what has waited long enough, and what the dead
have left. -/
theorem Broker.redelivers.queued (cfg : Config) {mid oid : Uuid} (h : conf.world.broker.redelivers mid oid) :
    ∃ b, (machine cfg).Reach conf (setBroker b conf) ∧ b.queue .dlq = conf.world.broker.queue .dlq ∧
      ∃ m ∈ b.queue .process, m.isCopy mid oid := by
  rcases h with ⟨q, hq, m, hm, hc⟩ | ⟨t, m, hm, hc⟩
  · cases q with
    | process => exact ⟨conf.world.broker, .refl, rfl, m, hm, hc⟩
    | retry =>
      obtain ⟨i, hi⟩ := List.mem_iff_getElem?.mp hm
      let b₁ : Broker := ⟨Function.update conf.world.broker.queue .retry ((conf.world.broker.queue .retry).eraseIdx i),
        conf.world.broker.channel⟩
      have hexpire : conf.world.broker.expire i = some (b₁.publish .process m) := by
        simp only [Broker.expire, Broker.take, hi, Option.map_some, deadLetterRoutingKey, b₁]
      refine ⟨b₁.publish .process m, reach_setBroker (e := .expire i) ?_, ?_, m, ?_, hc⟩
      · simp only [Shared.env, hexpire, Option.map_some]
      · simp [Broker.publish_queue, bindings, b₁]
      · simp [Broker.publish_queue, bindings]
    | dlq => exact (hq rfl).elim
  · exact ⟨conf.world.broker.requeue t .lost, reach_setBroker (e := .loseChannel t) rfl, dlq_requeue ..,
      m, Broker.requeued_mem hm, hc⟩

theorem arrive_taken (cfg : Config) {i : Nat} {m : Message} {b : Broker} (hj : w.jobs t = none)
    (htake : w.broker.take .process i = some (m, b)) :
    w.arrive cfg t (.delivery i) = some (deliveryThread cfg m,
      { w with toShared := { w.toShared with broker := b.setChannel t (.ready (some m)) }.start t (.deliver m) }) := by
  simp only [World.arrive, hj, Shared.deliver, htake, Option.map_some]

/-- The state once the message has come in. -/
abbrev SysConf.delivered (conf : SysConf) (cfg : Config) (t : Tid) (m : Message) (b : Broker) : SysConf where
  world := { conf.world with
    toShared := { conf.world.toShared with broker := b.setChannel t (.ready (some m)) }.start t (.deliver m) }
  threads := Function.update conf.threads t (.running (deliveryThread cfg m))

theorem Reachable.spawn_delivered (h : Reachable cfg c conf) (ht : conf.threads t = .idle) {i : Nat} {m : Message}
    {b : Broker} (htake : conf.world.broker.take .process i = some (m, b)) :
    (machine cfg).step conf (.spawn t (.delivery i)) = some (conf.delivered cfg t m b) := by
  have harrive : (machine cfg).spawn t (.delivery i) conf.world = _ := arrive_taken cfg (h.jobs_of_idle ht) htake
  simp only [Machine.step, ht, harrive, Option.map_some]

/-- In a state where nothing runs, `t` has left no trace. -/
theorem Reachable.sole (h : Reachable cfg c conf) (hq : conf.Quiet) (ht : conf.threads t = .idle) :
    Sole t conf.world.toShared conf.world.pool ⟨false, false, none⟩ conf.world ∧ conf.world.rpc t = .idle := by
  have hunused := h.good.1.unused t (h.jobs_of_idle ht)
  have hphase : conf.world.phase t = .start := congrArg Local.phase hunused.loc
  exact ⟨⟨rfl, rfl, congrArg Local.sess hunused.loc, fun r => .inl (h.unlocked_of_quiet hq r)⟩,
    h.saga.inv.calls.idle t (by rw [hphase]; rfl)⟩

/-- The message of a processed order has its row in `processed_messages`. -/
theorem SagaInv.seen_iff {s : Shared} (h : SagaInv c s) {m : Message} (hj : s.jobs t = some (.deliver m))
    {mid oid : Uuid} (hm : m.isCopy mid oid) : (s.db.processed? mid).isSome ↔ s.db.processed oid := by
  refine ⟨h.processed_of_dedup hj hm, fun ⟨o, ho, hst⟩ => ?_⟩
  obtain ⟨payload, hcontent, hmid, hoid⟩ := hm
  obtain ⟨u, mid', hmid', hu⟩ := (h.messages.delivered t m hj).call hcontent hoid
  obtain rfl := Option.some.inj (hmid.symm.trans hmid')
  obtain ⟨pm, hpm, rfl⟩ := h.messages.processed oid o ho hst
  obtain ⟨⟨u', hu'⟩, _⟩ := h.messages.dedup pm hpm
  obtain rfl := h.calls.unique u u' pm.orderId (by rw [hu]; rfl) (by rw [hu']; rfl)
  obtain ⟨_, hsame⟩ := Phase.published.inj (hu.symm.trans hu')
  exact List.find?_isSome.mpr ⟨pm, hpm, by simpa using hsame.symm⟩

theorem Reachable.lone_delivered (h : Reachable cfg c conf) (hq : conf.Quiet) (ht : conf.threads t = .idle)
    (hroom : (conf.world.pool .worker).length < cfg.poolSize .worker) {i : Nat} {m : Message} {b : Broker}
    (htake : conf.world.broker.take .process i = some (m, b)) :
    ∃ mid oid o, m.isCopy mid oid ∧ conf.world.db.order? oid = some o ∧
      Lone cfg t (fun r w => r = .ok none ∧ w.db.processed oid ∧
        Sole t (((conf.delivered cfg t m b).world.commit t (deliveryLog mid oid o conf.world.clock)).acked t m)
          conf.world.pool ⟨false, false, none⟩ w)
        (deliveryThread cfg m) (conf.delivered cfg t m b).world := by
  let s := (conf.delivered cfg t m b).world.toShared
  have hreach : Reachable cfg c (conf.delivered cfg t m b) := Machine.Reach.step _ h (h.spawn_delivered ht htake)
  have hI : SagaInv c s := hreach.saga.inv
  have hjob : s.jobs t = some (.deliver m) := Function.update_self ..
  -- the order of what is delivered is stored
  obtain ⟨u, oid, mid, hu, hcopy⟩ := hI.messages.delivered t m hjob
  obtain ⟨_, o, ho⟩ := hI.calls.owns u oid (by rw [hu]; rfl)
  have hagree : s.db.agree mid o := by
    refine (hI.seen_iff hjob hcopy).trans ⟨fun ⟨o', ho', hst⟩ => ?_, fun hst => ⟨o, ho.found, hst⟩⟩
    rwa [Option.some.inj (ho.found.symm.trans ho')]
  obtain ⟨hsole, hidle⟩ := h.sole hq ht
  have hs : s.unserved t := unserved_of_idle hidle
  have hlone := lone_deliveryThread hs hcopy ho.found hagree hroom (Function.update_self ..)
    (hsole.setShared s)
  refine ⟨mid, oid, o, hcopy, ho.found, ends_mono (fun r w ⟨hr, hw⟩ => ⟨hr, ?_, hw⟩) hlone⟩
  rw [hw.shared, commit_eq]
  exact processed_deliveryLog ho.found mid _

/-- What a delivery that has been left alone has done. -/
theorem Reachable.delivery_ends (h : Reachable cfg c conf) (hq : conf.Quiet) (ht : conf.threads t = .idle)
    (hroom : (conf.world.pool .worker).length < cfg.poolSize .worker) {i : Nat} {m : Message} {b : Broker}
    (htake : conf.world.broker.take .process i = some (m, b)) :
    Acc (fun c₂ c₁ => ∃ l : SysLabel, l.Alone t .proceed (.execute t) ∧ (machine cfg).step c₁ l = some c₂)
      (conf.delivered cfg t m b) ∧
    (∃ conf', (machine cfg).RunsOut t .proceed (.execute t) (conf.delivered cfg t m b) conf') ∧
    ∃ mid oid o, m.isCopy mid oid ∧ conf.world.db.order? oid = some o ∧
      ∀ conf', (machine cfg).RunsOut t .proceed (.execute t) (conf.delivered cfg t m b) conf' → conf'.Quiet ∧
        ∃ r, conf'.threads t = .running (.done r) ∧ r = .ok none ∧ conf'.world.db.processed oid ∧
        Sole t (((conf.delivered cfg t m b).world.commit t (deliveryLog mid oid o conf.world.clock)).acked t m)
          conf.world.pool ⟨false, false, none⟩ conf'.world := by
  obtain ⟨mid, oid, o, hcopy, ho, hlone⟩ := h.lone_delivered hq ht hroom htake
  have hidle := (h.sole hq ht).2
  obtain ⟨hacc, hexists, hend⟩ := hlone.alone (fun r w ⟨_, _, hw⟩ => execute_none (by
    rw [hw.shared, commit_eq]
    exact unserved_of_idle hidle)) hq rfl
  exact ⟨hacc, hexists, mid, oid, o, hcopy, ho, hend⟩

/-- A delivery that is left alone comes to one end: its order is processed and
its message acknowledged. -/
theorem Reachable.delivery_alone (h : Reachable cfg c conf) (hq : conf.Quiet) (ht : conf.threads t = .idle)
    (hroom : (conf.world.pool .worker).length < cfg.poolSize .worker) {i : Nat} {m : Message} {b : Broker}
    (htake : conf.world.broker.take .process i = some (m, b)) :
    (machine cfg).step conf (.spawn t (.delivery i)) = some (conf.delivered cfg t m b) ∧
    Acc (fun c₂ c₁ => ∃ l : SysLabel, l.Alone t .proceed (.execute t) ∧ (machine cfg).step c₁ l = some c₂)
      (conf.delivered cfg t m b) ∧
    (∃ conf', (machine cfg).RunsOut t .proceed (.execute t) (conf.delivered cfg t m b) conf') ∧
    ∃ mid oid o, m.isCopy mid oid ∧ conf.world.db.order? oid = some o ∧
      ∀ conf', (machine cfg).RunsOut t .proceed (.execute t) (conf.delivered cfg t m b) conf' → conf'.Quiet ∧
        conf'.world.pool = conf.world.pool ∧ conf'.threads t = .running (.done (.ok none)) ∧
        conf'.world.db.processed oid ∧ .acked t m ∈ conf'.world.trace ∧
        conf'.world.broker.channel t = .ready none ∧ conf'.world.broker.queue = b.queue ∧
        conf'.world.payments = conf.world.payments ∧
        conf'.world.db = conf.world.db.applyAll (deliveryLog mid oid o conf.world.clock) := by
  obtain ⟨hacc, hexists, mid, oid, o, hcopy, ho, hend⟩ := h.delivery_ends hq ht hroom htake
  refine ⟨h.spawn_delivered ht htake, hacc, hexists, mid, oid, o, hcopy, ho, fun conf' hconf' => ?_⟩
  obtain ⟨hquiet, _, hdone, rfl, hprocessed, hw⟩ := hend conf' hconf'
  have hshared := hw.shared
  rw [commit_eq] at hshared
  refine ⟨hquiet, hw.pool, hdone, hprocessed, ?_, ?_, ?_⟩ <;> rw [hshared]
  · exact List.mem_cons_self ..
  · exact Function.update_self ..
  · exact ⟨rfl, rfl, rfl⟩

/-- A mug is ordered, and its message has not been delivered. -/
def undeliveredMug : SysConf :=
  (Catalogue.shop 3).after (.ofPool 2 .repository) (saleSteps 0 (mugRequest 0 "k"))

theorem undeliveredMug_quiet : undeliveredMug.Quiet := by
  have hdone : undeliveredMug.threads 0 = .running (.done (.ok (some ⟨false,
    ⟨0, 0, "k", .pending, some 2, some .authorized, 0, none⟩, none, some ⟨2, .authorized⟩, some 3⟩))) := rfl
  have hidle : ∀ t, undeliveredMug.threads (t + 1) = .idle := fun t => rfl
  intro t cmd k ht
  cases t with
  | zero =>
    rw [hdone] at ht
    cases ht
  | succ t =>
    rw [hidle] at ht
    cases ht

theorem delivery_alone_mug :
    ∃ b conf', undeliveredMug.world.broker.take .process 0 = some (processMessage 3 0 0, b) ∧
      (machine (.ofPool 2 .repository)).RunsOut 1 .proceed (.execute 1)
        (undeliveredMug.delivered (.ofPool 2 .repository) 1 (processMessage 3 0 0) b) conf' ∧
      conf'.Quiet ∧ ∃ oid, conf'.world.db.processed oid := by
  have hreach : Reachable (.ofPool 2 .repository) (.shop 3) undeliveredMug := Catalogue.reachable_after ..
  have hmessage : (undeliveredMug.world.broker.queue .process)[0]? = some (processMessage 3 0 0) := rfl
  have hidle : undeliveredMug.threads 1 = .idle := rfl
  have hroom : (undeliveredMug.world.pool .worker).length < (Config.ofPool 2 .repository).poolSize .worker := by decide
  obtain ⟨b, htake⟩ : ∃ b, undeliveredMug.world.broker.take .process 0 = some (processMessage 3 0 0, b) := by
    rw [Broker.take, hmessage]
    exact ⟨_, rfl⟩
  obtain ⟨_, _, ⟨conf', hconf'⟩, _, oid, _, _, _, hend⟩ :=
    hreach.delivery_alone undeliveredMug_quiet hidle hroom htake
  obtain ⟨hq, _, _, hprocessed, _⟩ := hend conf' hconf'
  exact ⟨b, conf', htake, hconf', hq, oid, hprocessed⟩

/-- Where nothing runs, a delivery processes its order. -/
theorem Reachable.redeliver (h : Reachable cfg c conf) (hq : conf.Quiet)
    (hroom : (conf.world.pool .worker).length < cfg.poolSize .worker) {m : Message} {mid oid : Uuid}
    (hm : m ∈ conf.world.broker.queue .process) (hc : m.isCopy mid oid) :
    ∃ conf', (machine cfg).Reach conf conf' ∧ conf'.Quiet ∧ conf'.world.pool = conf.world.pool ∧
      conf'.world.broker.queue .dlq = conf.world.broker.queue .dlq ∧ conf'.world.db.processed oid := by
  obtain ⟨t, ht⟩ := h.exists_idle
  obtain ⟨i, hi⟩ := List.mem_iff_getElem?.mp hm
  have htake : conf.world.broker.take .process i = some (m, ⟨Function.update conf.world.broker.queue .process
      ((conf.world.broker.queue .process).eraseIdx i), conf.world.broker.channel⟩) := by
    simp only [Broker.take, hi]
  obtain ⟨_, ⟨conf', hconf'⟩, mid', oid', o, hcopy, _, hend⟩ := h.delivery_ends hq ht hroom htake
  obtain ⟨hquiet, _, _, _, hprocessed, hw⟩ := hend conf' hconf'
  refine ⟨conf', (Machine.Reach.step _ .refl (h.spawn_delivered ht htake)).trans hconf'.1.reach, hquiet, hw.pool, ?_, ?_⟩
  · rw [hw.shared, commit_eq]
    exact (Broker.take_perm htake).2.1 .dlq (by decide)
  · obtain ⟨payload, hcontent, _, hoid⟩ := hc
    obtain ⟨payload', hcontent', _, hoid'⟩ := hcopy
    rw [hcontent] at hcontent'
    cases hcontent'
    rw [hoid] at hoid'
    cases hoid'
    exact hprocessed

theorem Reachable.recover (h : Reachable cfg c conf) (hq : conf.Quiet)
    (hroom : (conf.world.pool .worker).length < cfg.poolSize .worker) {mid oid : Uuid}
    (hb : conf.world.broker.redelivers mid oid) :
    ∃ conf', (machine cfg).Reach conf conf' ∧ conf'.Quiet ∧ conf'.world.pool = conf.world.pool ∧
      conf'.world.broker.queue .dlq = conf.world.broker.queue .dlq ∧ conf'.world.db.processed oid := by
  obtain ⟨b, hr, hdlq, m, hm, hc⟩ := hb.queued cfg
  have hreach : Reachable cfg c (setBroker b conf) := Machine.Reach.trans h hr
  obtain ⟨conf', hr', hq', hpool', hdlq', hp⟩ := hreach.redeliver hq hroom hm hc
  exact ⟨conf', hr.trans hr', hq', hpool', hdlq'.trans hdlq, hp⟩

theorem Reachable.processed_lasts (h : Reachable cfg c conf) (hr : (machine cfg).Reach conf conf') {oid : Uuid}
    (hp : conf.world.db.processed oid) : conf'.world.db.processed oid :=
  (Runs.invariant (I := fun s => SagaInv c s ∧ s.db.processed oid)
    (fun _ _ _ _ hI hs => ⟨hI.1.step hs, hI.1.processed hs hI.2⟩) (h.runs hr) ⟨h.saga.inv, hp⟩).2

theorem Reachable.published_lasts (h : Reachable cfg c conf) (hr : (machine cfg).Reach conf conf') {oid mid : Uuid}
    (hp : conf.world.phase t = .published oid mid) : conf'.world.phase t = .published oid mid :=
  Runs.invariant (I := fun s => s.phase t = .published oid mid) (fun _ _ _ _ hp hs => hs.published hp) (h.runs hr) hp

/-- No copy of the message is a dead letter. -/
def Broker.spares (b : Broker) (mid oid : Uuid) : Prop := ∀ m ∈ b.queue .dlq, ¬m.isCopy mid oid

theorem Shared.keeps.redelivers {s : Shared} {mid oid : Uuid} (h : s.keeps mid oid) (hs : s.broker.spares mid oid) :
    s.broker.redelivers mid oid := by
  rcases h with ⟨q, m, hm, hc⟩ | ⟨t, m, hm, _, hc⟩
  · refine .inl ⟨q, fun hq => ?_, m, hm, hc⟩
    subst hq
    exact hs m hm hc
  · exact .inr ⟨t, m, hm, hc⟩

/-- One call's order after the other. -/
theorem Reachable.recover_all (h : Reachable cfg c conf) (hq : conf.Quiet)
    (hroom : (conf.world.pool .worker).length < cfg.poolSize .worker) (ts : List Tid) :
    ∃ conf', (machine cfg).Reach conf conf' ∧ ∀ t ∈ ts, ∀ oid mid, conf.world.phase t = .published oid mid →
      conf.world.broker.spares mid oid → conf'.world.db.processed oid := by
  induction ts generalizing conf with
  | nil => exact ⟨conf, .refl, fun t ht => (List.not_mem_nil ht).elim⟩
  | cons t ts ih =>
    obtain ⟨conf₁, hr₁, hq₁, hpool, hdlq, hp₁⟩ : ∃ conf₁, (machine cfg).Reach conf conf₁ ∧ conf₁.Quiet ∧
        conf₁.world.pool = conf.world.pool ∧
        conf₁.world.broker.queue .dlq = conf.world.broker.queue .dlq ∧
        ∀ oid mid, conf.world.phase t = .published oid mid → conf.world.broker.spares mid oid →
          conf₁.world.db.processed oid := by
      by_cases hb : ∃ oid mid, conf.world.phase t = .published oid mid ∧ conf.world.broker.redelivers mid oid
      · obtain ⟨oid, mid, hp, hb⟩ := hb
        obtain ⟨conf₁, hr, hq, hpool, hdlq, hprocessed⟩ := h.recover hq hroom hb
        refine ⟨conf₁, hr, hq, hpool, hdlq, fun oid' mid' hp' _ => ?_⟩
        rw [hp] at hp'
        cases hp'
        exact hprocessed
      · refine ⟨conf, .refl, hq, rfl, rfl, fun oid mid hp hs => ?_⟩
        rcases h.saga.kept t oid mid hp with hd | hk
        · exact hd
        · exact (hb ⟨oid, mid, hp, hk.redelivers hs⟩).elim
    have hreach₁ : Reachable cfg c conf₁ := Machine.Reach.trans h hr₁
    obtain ⟨conf', hr', hall⟩ := ih hreach₁ hq₁ (by rw [hpool]; exact hroom)
    refine ⟨conf', hr₁.trans hr', fun u hu oid mid hp hs => ?_⟩
    rcases List.mem_cons.mp hu with rfl | hu
    · exact hreach₁.processed_lasts hr' (hp₁ oid mid hp hs)
    · refine hall u hu oid mid (h.published_lasts hr₁ hp) ?_
      unfold Broker.spares
      rw [hdlq]
      exact hs

/-- Whatever has happened, the system can still process every order whose
message has been published and is not a dead letter, as long as rejected BEGINs
have left the worker a connection. -/
theorem orders_recover (h : Reachable cfg c conf) (hroom : conf.world.leaked.length < cfg.poolSize .worker) :
    ∃ conf', (machine cfg).Reach conf conf' ∧ ∀ t m mid oid, .published t .process m ∈ conf.world.trace →
      m.isCopy mid oid → conf.world.broker.spares mid oid → conf'.world.db.processed oid := by
  obtain ⟨conf₁, hr₁, hq₁, htrace, hdlq, hpool⟩ := h.crash
  obtain ⟨S, hS⟩ := h.exists_started
  have hreach₁ : Reachable cfg c conf₁ := Machine.Reach.trans h hr₁
  obtain ⟨conf', hr', hall⟩ := hreach₁.recover_all hq₁ (Nat.lt_of_le_of_lt hpool hroom) S.toList
  refine ⟨conf', hr₁.trans hr', fun t m mid oid hm hc hs => ?_⟩
  obtain ⟨oid', mid', createdAt, hp, rfl⟩ := h.saga.leaves _ hm
  obtain ⟨_, hpayload, hmid, hoid⟩ := hc
  cases hpayload
  cases hmid
  cases hoid
  have hstarted : t ∈ S := hS t fun hidle => by
    rw [h.saga.inv.calls.unstarted t (h.jobs_of_idle hidle)] at hp
    cases hp
  refine hall t (Finset.mem_toList.mpr hstarted) oid mid ?_ ?_
  · unfold Shared.phase at hp ⊢
    rw [htrace]
    exact hp
  · unfold Broker.spares
    rw [hdlq]
    exact hs

/-- A worker dies before its transaction is committed. -/
theorem orders_recover_mug :
    let conf := (Catalogue.shop 3).after (.ofPool 2 .repository)
      (saleSteps 0 (mugRequest 0 "k") ++ .spawn 1 (.delivery 0) :: List.replicate 6 (.run 1 .proceed))
    ∃ conf', (machine (.ofPool 2 .repository)).Reach conf conf' ∧ conf'.world.db.processed 0 := by
  intro conf
  obtain ⟨conf', hr, hall⟩ := orders_recover (Catalogue.reachable_after (.ofPool 2 .repository) (.shop 3)
    (saleSteps 0 (mugRequest 0 "k") ++ .spawn 1 (.delivery 0) :: List.replicate 6 (.run 1 .proceed))) (by decide)
  refine ⟨conf', hr, hall 0 (processMessage 3 0 0) 3 0 (by decide) ⟨_, rfl, rfl, rfl⟩ fun m hm => ?_⟩
  cases hm

/-! ## What cannot be recovered -/

theorem Step.held_from {a : Option Tid} {s s' : Shared} (h : Step cfg a s s') {m : Message}
    (hc : s'.broker.channel t = .ready (some m)) :
    s.broker.channel t = .ready (some m) ∨ m ∈ s.broker.queue .process := by
  -- what a thread that has none left holds is nothing
  have none_held : ∀ {u : Tid} {ch : Channel} {b : Broker}, ch.unacked = none →
      (b.requeue u ch).channel t = .ready (some m) → b.channel t = .ready (some m) := by
    intro u ch b hch hc
    rw [Broker.channel_requeue] at hc
    by_cases hu : t = u
    · subst hu
      rw [Function.update_self] at hc
      rw [hc] at hch
      cases hch
    · rwa [Function.update_of_ne hu] at hc
  cases h with
  | @expire _ i b hb =>
    obtain ⟨⟨m₁, b₁⟩, ht, rfl⟩ := Option.map_eq_some_iff.mp hb
    rw [Broker.publish_channel] at hc
    exact .inl ((Broker.take_perm ht).2.2 ▸ hc)
  | loseChannel | lose | nack => exact .inl (none_held rfl hc)
  | @deliver u _ i msg b hn ht =>
    by_cases hu : t = u
    · subst hu
      simp only [Shared.start, Broker.setChannel, Function.update_self, Channel.ready.injEq, Option.some.injEq] at hc
      subst hc
      exact .inr (Broker.take_some ht).1
    · simp only [Shared.start, Broker.setChannel, Function.update_of_ne hu] at hc
      exact .inl ((Broker.take_perm ht).2.2 ▸ hc)
  | publish | republish => exact .inl ((Broker.publish_channel ..) ▸ hc)
  | @ack u _ msg payload hu hm hA =>
    by_cases he : t = u
    · subst he
      simp [Shared.acked, Broker.setChannel] at hc
    · simp only [Shared.acked, Broker.setChannel, Function.update_of_ne he] at hc
      exact .inl hc
  | reserve | release | process =>
    rw [commit_eq] at hc
    exact .inl hc
  | _ => exact .inl hc

theorem Republishes.of_isCopy {payload : OrdersProcessMessage} {rk : RoutingKey} {m m' : Message}
    (h : Republishes cfg payload rk m') (hm : m.content = .value payload) {mid oid : Uuid}
    (hc : m'.isCopy mid oid) : m.isCopy mid oid := by
  obtain ⟨payload', hc', hmid, hoid⟩ := hc
  cases h <;> cases hc' <;> exact ⟨payload, hm, hmid, hoid⟩

/-- Nobody is left who could process the order: the call it belongs to has
ended, and no consumer will see its message. -/
structure Stranded (idle : Tid → Prop) (oid : Uuid) (s : Shared) : Prop where
  unprocessed : ¬s.db.processed oid
  owner : ∃ t, ¬idle t ∧ (s.phase t).orderId? = some oid
  gone : ∀ mid, ¬s.broker.redelivers mid oid
  delivered : ∀ t m, idle t → s.jobs t = some (.deliver m) → ∀ mid, ¬m.isCopy mid oid

variable {a : Option Tid} {s s' : Shared} {idle : Tid → Prop} {oid : Uuid}

theorem Stranded.gone_step (hS : Stranded idle oid s) (hI : SagaInv c s) (h : Step cfg a s s')
    (ha : ∀ t, a = some t → idle t) (mid : Uuid) : ¬s'.broker.redelivers mid oid := by
  rintro (⟨q, hq, m, hm, hc⟩ | ⟨t, m, hm, hc⟩)
  · cases h.comesFrom hm with
    | queued hold => exact hS.gone mid (.inl ⟨q, hq, m, hold, hc⟩)
    | expired hold => exact hS.gone mid (.inl ⟨.retry, by decide, m, hold, hc⟩)
    | held hold => exact hS.gone mid (.inr ⟨_, m, hold, hc⟩)
    | @call t id mid' _ ht hp he =>
      -- only the call of the order publishes its message
      subst he
      obtain ⟨_, hpayload, _, hoid⟩ := hc
      cases hpayload
      cases hoid
      obtain ⟨u, hu, hown⟩ := hS.owner
      obtain rfl := hI.calls.unique t u oid (by rw [hp]; rfl) hown
      exact hu (ha t ht)
    | delivery ht hj hm' hr _ => exact hS.delivered _ _ (ha _ ht) hj mid (hr.of_isCopy hm' hc)
  · rcases h.held_from hm with hold | hold
    · exact hS.gone mid (.inr ⟨t, m, hold, hc⟩)
    · exact hS.gone mid (.inl ⟨.process, by decide, m, hold, hc⟩)

theorem Stranded.step (hS : Stranded idle oid s) (hI : SagaInv c s) (h : Step cfg a s s')
    (ha : ∀ t, a = some t → idle t) : Stranded idle oid s' where
  unprocessed := by
    rintro ⟨o, ho, hst⟩
    have old : ∀ pm ∈ s.db.processedMessages, pm.orderId ≠ oid := fun pm hpm he => by
      obtain ⟨_, o', ho', hst'⟩ := hI.messages.dedup pm hpm
      exact hS.unprocessed ⟨o', he ▸ ho', hst'⟩
    obtain ⟨pm, hpm, hid⟩ := (hI.step h).messages.processed oid o ho hst
    rcases h.processedMessages hI.tables with he | ⟨t, payload, mid, oid', order, _, ht, hr, _, he⟩
    · exact old pm (he ▸ hpm) hid
    · rw [he, List.mem_append, List.mem_singleton] at hpm
      rcases hpm with hpm | rfl
      · exact old pm hpm hid
      · obtain ⟨msg, hj, hc⟩ := hr.job
        exact hS.delivered t msg (ha t ht) hj mid ⟨payload, hc, hr.message, hid ▸ hr.subject⟩
  owner := by
    obtain ⟨t, ht, hp⟩ := hS.owner
    exact ⟨t, ht, by rw [h.phase_other fun he => ht (ha t he)]; exact hp⟩
  gone := hS.gone_step hI h ha
  delivered t m ht hj mid hc := by
    rcases h.delivered_from hj with hold | ⟨_, hm⟩
    · exact hS.delivered t m ht hold mid hc
    · exact hS.gone mid (.inl ⟨.process, by decide, m, hm, hc⟩)

/-- The row of the order stays as it is. -/
theorem Stranded.row_step (hS : Stranded idle oid s) (hI : SagaInv c s) (h : Step cfg a s s')
    (ha : ∀ t, a = some t → idle t) {o : Order} (ho : s.db.order? oid = some o) : s'.db.order? oid = some o := by
  obtain ⟨u, hu, hown⟩ := hS.owner
  have other : ∀ {t : Tid} {id : Uuid}, idle t → (s.phase t).orderId? = some id → oid ≠ id := by
    intro t id ht hid he
    subst he
    exact hu (hI.calls.unique t u oid hid hown ▸ ht)
  cases h with
  | reserve hr =>
    rw [order?_reserve hr, if_neg]
    · exact ho
    · intro he
      have hfree := hr.idFree
      rw [← he, ho] at hfree
      cases hfree
  | @release t _ id hp =>
    rw [order?_release hI.tables,
      Db.order?_updateOrder_ne _ .fail (fun _ => rfl) (other (ha t rfl) (by rw [hp]; rfl))]
    exact ho
  | @pay t _ id res hp _ =>
    have hne : oid ≠ id := other (ha t rfl) (by rw [hp]; rfl)
    exact (Db.order?_updateOrder_ne s.db (.pay res.paymentId res.status) (fun _ => rfl) hne).trans ho
  | @process t _ payload mid id order processedAt hr =>
    obtain ⟨msg, hj, hc⟩ := hr.job
    have hne : oid ≠ id := fun he => by
      subst he
      exact hS.delivered t msg (ha t rfl) hj mid ⟨payload, hc, hr.message, hr.subject⟩
    rw [order?_process]
    split
    · exact ho
    · exact (Db.order?_updateOrder_ne s.db (.process processedAt) (fun _ => rfl) hne).trans ho
  | _ => exact ho

theorem Stranded.run (hS : Stranded idle oid s) (hI : SagaInv c s) {o : Order} (ho : s.db.order? oid = some o)
    (h : Runs (Step cfg) (fun a => ∀ t, a = some t → idle t) s s') :
    Stranded idle oid s' ∧ s'.db.order? oid = some o :=
  (Runs.invariant (P := fun a => ∀ t, a = some t → idle t)
    (I := fun s => SagaInv c s ∧ Stranded idle oid s ∧ s.db.order? oid = some o)
    (fun _ _ _ ha hI hs => ⟨hI.1.step hs, hI.2.1.step hI.1 hs ha, hI.2.1.row_step hI.1 hs ha hI.2.2⟩) h
    ⟨hI, hS, ho⟩).2

/-- After a crash only what starts anew has an effect. -/
theorem Reachable.runs_quiet (h : Reachable cfg c conf) (hq : conf.Quiet) (hr : (machine cfg).Reach conf conf') :
    Runs (Step cfg) (fun a => ∀ t, a = some t → conf.threads t = .idle) conf.world.toShared conf'.world.toShared := by
  induction hr with
  | refl => exact .refl _
  | @step conf₁ conf₂ l hr hs ih =>
    refine ih.trans ((Reachable.step (Machine.Reach.trans h hr) hs).mono fun a ha t ht => ?_)
    by_contra hne
    have hover := hr.over hq hne
    exact (Machine.over_step hs (by rw [hover]; exact hne) (fun cmd k => by rw [hover]; exact hq t cmd k)).1 (ha ▸ ht)

theorem Reachable.stranded (h : Reachable cfg c conf) {o : Order} (ho : o ∈ conf.world.db.orders)
    (hp : ¬conf.world.db.processed o.id) (hgone : ∀ mid, ¬conf.world.broker.redelivers mid o.id) :
    Stranded (fun t => conf.threads t = .idle) o.id conf.world.toShared where
  unprocessed := hp
  owner := by
    obtain ⟨t, ht, _⟩ := h.saga.inv.owner_fits ho
    refine ⟨t, fun hidle => ?_, ht⟩
    rw [h.saga.inv.calls.unstarted t (h.jobs_of_idle hidle)] at ht
    cases ht
  gone := hgone
  delivered t m ht hj := by
    rw [h.jobs_of_idle ht] at hj
    cases hj

/-- Which orders a crash leaves to be processed: exactly those with a copy of
their message in the process or the retry queue, or with a consumer that has
not acknowledged it. The others stay as they are for good. -/
theorem recoverable_iff (h : Reachable cfg c conf) (hq : conf.Quiet)
    (hroom : conf.world.leaked.length < cfg.poolSize .worker) {o : Order} (ho : o ∈ conf.world.db.orders) :
    ((∃ conf', (machine cfg).Reach conf conf' ∧ conf'.world.db.processed o.id) ↔
      conf.world.db.processed o.id ∨ ∃ mid, conf.world.broker.redelivers mid o.id) ∧
    ((∀ mid, ¬conf.world.broker.redelivers mid o.id) → ∀ conf', (machine cfg).Reach conf conf' →
      conf'.world.db.order? o.id = some o) := by
  have hfound := h.saga.inv.tables.order?_of_mem ho
  have hstranded : ¬conf.world.db.processed o.id → (∀ mid, ¬conf.world.broker.redelivers mid o.id) →
      ∀ conf', (machine cfg).Reach conf conf' →
        Stranded (fun t => conf.threads t = .idle) o.id conf'.world.toShared ∧
          conf'.world.db.order? o.id = some o :=
    fun hnot hgone conf' hr => (h.stranded ho hnot hgone).run h.saga.inv hfound (h.runs_quiet hq hr)
  refine ⟨⟨fun ⟨conf', hr, hp⟩ => ?_, ?_⟩, fun hgone conf' hr => ?_⟩
  · by_contra hn
    obtain ⟨hnot, hgone⟩ := not_or.mp hn
    exact (hstranded hnot (not_exists.mp hgone) conf' hr).1.unprocessed hp
  · rintro (hp | ⟨mid, hb⟩)
    · exact ⟨conf, .refl, hp⟩
    · have hpool : conf.world.leaked = conf.world.pool .worker :=
        List.filter_eq_self.mpr fun t ht => h.pool_of_quiet hq ht
      obtain ⟨conf', hr, _, _, _, hp⟩ := h.recover hq (hpool ▸ hroom) hb
      exact ⟨conf', hr, hp⟩
  · by_cases hp : conf.world.db.processed o.id
    · obtain ⟨o', ho', hst⟩ := hp
      obtain rfl := Option.some.inj (hfound.symm.trans ho')
      exact (Runs.invariant (I := fun s => SagaInv c s ∧ s.db.order? o.id = some o)
        (fun _ _ _ _ hI hs => ⟨hI.1.step hs, hI.1.processed_order hs hI.2 hst⟩) (h.runs hr)
        ⟨h.saga.inv, hfound⟩).2
    · exact (hstranded hp hgone conf' hr).2

/-- A call dies while it waits for its payment. -/
def abandoned : SysConf :=
  (Catalogue.shop 3).after (.ofPool 2 .repository) (requestSteps 0 (mugRequest 0 "k") 11 ++ [.kill 0])

theorem recoverable_abandoned :
    newOrder 0 0 "k" 0 ∈ abandoned.world.db.orders ∧
    ∀ conf', (machine (.ofPool 2 .repository)).Reach abandoned conf' →
      conf'.world.db.order? 0 = some (newOrder 0 0 "k" 0) := by
  have hquiet : abandoned.Quiet := by
    intro t cmd k ht
    cases t with
    | zero => cases ht
    | succ t => cases ht
  have hqueue : ∀ q, abandoned.world.broker.queue q = [] := by
    intro q
    cases q <;> rfl
  have hchannel : ∀ t m, abandoned.world.broker.channel t ≠ .ready (some m) := by
    intro t m hm
    cases t with
    | zero => cases hm
    | succ t => cases hm
  have hreach : Reachable (.ofPool 2 .repository) (.shop 3) abandoned := Catalogue.reachable_after ..
  have hmem : newOrder 0 0 "k" 0 ∈ abandoned.world.db.orders := by decide
  have hgone : ∀ mid, ¬abandoned.world.broker.redelivers mid 0 := by
    rintro mid (⟨q, _, m, hm, _⟩ | ⟨t, m, hm, _⟩)
    · exact List.not_mem_nil (hqueue q ▸ hm)
    · exact hchannel t m hm
  exact ⟨hmem, (recoverable_iff hreach hquiet (by decide) hmem).2 hgone⟩

end OrdersBackend
