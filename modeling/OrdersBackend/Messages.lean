import OrdersBackend.Effects
import OrdersBackend.SystemSound

/-!
# Process messages

A published message stays in the broker until its order is processed, and an
order is processed once, together with its one dedup row.
-/

namespace OrdersBackend

open Conc

variable {cfg : Config} {c : Catalogue} {a : Option Tid} {s s' : Shared} {conf : SysConf}

/-! ## Copies in the broker -/

def Db.processed (db : Db) (oid : Uuid) : Prop := ∃ o, db.order? oid = some o ∧ o.status = .processed

/-- A copy of the message is in a queue, or delivered and not acknowledged. -/
def Broker.holds (b : Broker) (mid oid : Uuid) : Prop :=
  (∃ q, ∃ m ∈ b.queue q, m.isCopy mid oid) ∨ ∃ t m, b.channel t = .ready (some m) ∧ m.isCopy mid oid

/-- A copy that will not be acknowledged before its order is processed: the
ones whose delivery has published them again do not count. -/
def Shared.keeps (s : Shared) (mid oid : Uuid) : Prop :=
  (∃ q, ∃ m ∈ s.broker.queue q, m.isCopy mid oid) ∨
    ∃ t m, s.broker.channel t = .ready (some m) ∧ s.phase t ≠ .republished ∧ m.isCopy mid oid

/-- No published message is lost. -/
def Shared.Kept (s : Shared) : Prop :=
  ∀ t oid mid, s.phase t = .published oid mid → s.db.processed oid ∨ s.keeps mid oid

theorem Shared.keeps.holds {mid oid : Uuid} (h : s.keeps mid oid) : s.broker.holds mid oid := by
  rcases h with h | ⟨t, m, hc, _, hm⟩
  · exact .inl h
  · exact .inr ⟨t, m, hc, hm⟩

theorem SagaInv.processed (hI : SagaInv c s) (h : Step cfg a s s') {oid : Uuid} (hp : s.db.processed oid) :
    s'.db.processed oid := by
  obtain ⟨o, ho, hs⟩ := hp
  exact ⟨o, hI.processed_order h ho hs, hs⟩

theorem Broker.mem_publish_of_mem {rk : RoutingKey} {m m' : Message} {b : Broker} {q : Queue}
    (h : m' ∈ b.queue q) :
    m' ∈ (b.publish rk m).queue q := by
  rw [publish_queue]
  split
  · exact List.mem_append_left _ h
  · exact h

theorem Broker.published_mem (rk : RoutingKey) (m : Message) (b : Broker) : ∃ q, m ∈ (b.publish rk m).queue q := by
  cases rk with
  | process => exact ⟨.process, by rw [publish_queue]; simp [bindings]⟩
  | retry => exact ⟨.retry, by rw [publish_queue]; simp [bindings]⟩
  | dlq => exact ⟨.dlq, by rw [publish_queue]; simp [bindings]⟩

theorem Broker.mem_requeue_of_mem {t : Tid} {ch : Channel} {b : Broker} {q : Queue} {m : Message}
    (h : m ∈ b.queue q) : m ∈ (b.requeue t ch).queue q := by
  unfold requeue
  split
  · exact h
  · by_cases hq : q = .process
    · subst hq; simp [setChannel, push, h]
    · simpa [setChannel, push, hq] using h

theorem Broker.requeued_mem {t : Tid} {ch : Channel} {b : Broker} {m : Message}
    (h : b.channel t = .ready (some m)) : m ∈ (b.requeue t ch).queue .process := by
  unfold requeue
  rw [h]
  simp [Channel.unacked, setChannel, push]

/-- The row that stops a duplicate is that of the delivery's own order. -/
theorem SagaInv.processed_of_dedup (hI : SagaInv c s) {t : Tid} {msg : Message} {mid oid : Uuid}
    (hj : s.jobs t = some (.deliver msg)) (hm : msg.isCopy mid oid) (hs : (s.db.processed? mid).isSome) :
    s.db.processed oid := by
  obtain ⟨m, hf⟩ := Option.isSome_iff_exists.mp hs
  have hmem : m ∈ s.db.processedMessages := List.mem_of_find?_eq_some hf
  have hid : m.messageId = mid := by simpa using List.find?_some hf
  obtain ⟨⟨t', hp'⟩, o, ho, hst⟩ := hI.messages.dedup m hmem
  obtain ⟨payload, hcontent, hmid, hoid⟩ := hm
  obtain ⟨t'', mid', hmid', hp⟩ := (hI.messages.delivered t msg hj).call hcontent hoid
  rw [hmid] at hmid'
  cases hmid'
  -- the two calls that have published `mid` are one
  have htt : t' = t'' := hI.messages.unique t' t'' mid (by rw [hp', hid]; rfl) (by rw [hp]; rfl)
  subst htt
  rw [hp'] at hp
  cases hp
  exact ⟨o, ho, hst⟩

/-- A delivery counts as published again from that very step on. -/
theorem Step.unrepublished {t : Tid} (h : Step cfg (some t) s s') (ht : s.phase t ≠ .republished) :
    s'.phase t ≠ .republished ∨ ∃ msg payload rk msg', s.jobs t = some (.deliver msg) ∧
      msg.content = .value payload ∧ Republishes cfg payload rk msg' ∧ s' = s.published t rk msg' := by
  rw [or_iff_not_imp_left, not_not]
  intro hp
  cases h with
  | arrive | deliver | skipUuid | receive | nack | lose => exact (ht hp).elim
  | failed hc => rw [phase_log rfl, Phase.next_failed hc] at hp; exact (ht hp).elim
  | ackLost => rw [phase_log rfl] at hp; exact (ht hp).elim
  | ack => rw [phase_acked] at hp; exact (ht hp).elim
  | reserve => rw [phase_reserve] at hp; cases hp
  | request => rw [phase_request] at hp; cases hp
  | reject hc hr => rw [phase_reject hc hr] at hp; cases hp
  | release => rw [phase_release] at hp; cases hp
  | pay => rw [phase_pay] at hp; cases hp
  | identify hr => rw [phase_identify hr] at hp; cases hp
  | publish _ hr => rw [phase_publish _ hr] at hp; cases hp
  | process => rw [phase_process] at hp; cases hp
  | republish hj hm _ hr => exact ⟨_, _, _, _, hj, hm, hr, rfl⟩

theorem Step.publishes {t : Tid} {oid mid : Uuid} (h : Step cfg a s s') (hn : s.phase t ≠ .published oid mid)
    (hp : s'.phase t = .published oid mid) :
    ∃ createdAt, s' = s.published t .process (processMessage mid oid createdAt) := by
  have ha : a = some t := by
    by_contra ha
    rw [h.phase_other ha] at hp
    exact hn hp
  subst ha
  cases h with
  | arrive | deliver | skipUuid | receive | nack | lose => exact (hn hp).elim
  | failed hc => rw [phase_log rfl, Phase.next_failed hc] at hp; exact (hn hp).elim
  | ackLost => rw [phase_log rfl] at hp; exact (hn hp).elim
  | ack => rw [phase_acked] at hp; exact (hn hp).elim
  | reserve => rw [phase_reserve] at hp; cases hp
  | request => rw [phase_request] at hp; cases hp
  | reject hc hr => rw [phase_reject hc hr] at hp; cases hp
  | release => rw [phase_release] at hp; cases hp
  | pay => rw [phase_pay] at hp; cases hp
  | identify hr => rw [phase_identify hr] at hp; cases hp
  | publish createdAt hr =>
    rw [phase_publish _ hr] at hp
    cases hp
    exact ⟨createdAt, rfl⟩
  | process => rw [phase_process] at hp; cases hp
  | republish _ _ _ hr => rw [phase_republish hr] at hp; cases hp

theorem SagaInv.queued_kept (hI : SagaInv c s) (h : Step cfg a s s') {q : Queue} {m : Message} {mid oid : Uuid}
    (hm : m ∈ s.broker.queue q) (hc : m.isCopy mid oid) : s'.keeps mid oid := by
  have queued : ∀ {q : Queue}, m ∈ s'.broker.queue q → s'.keeps mid oid := fun hm => .inl ⟨_, m, hm, hc⟩
  cases h with
  | @expire _ i b hb =>
    obtain ⟨⟨m₁, b₁⟩, ht, rfl⟩ := Option.map_eq_some_iff.mp hb
    rcases (Broker.take_some ht).2.2.1 q m hm with rfl | hm
    · obtain ⟨q', hq'⟩ := Broker.published_mem deadLetterRoutingKey m b₁
      exact queued hq'
    · exact queued (Broker.mem_publish_of_mem hm)
  | loseChannel | lose | nack => exact queued (Broker.mem_requeue_of_mem hm)
  | @deliver t _ i msg b hj ht =>
    rcases (Broker.take_some ht).2.2.1 q m hm with rfl | hm
    · refine .inr ⟨t, m, Function.update_self .., ?_, hc⟩
      have hp : s.phase t = .start := hI.calls.unstarted t hj
      show s.phase t ≠ .republished
      rw [hp]
      exact nofun
    · exact queued hm
  | publish | republish => exact queued (Broker.mem_publish_of_mem hm)
  | reserve | release | process =>
    refine queued (q := q) ?_
    rw [commit_eq]
    exact hm
  | _ => exact queued hm

/-- What is delivered stays in the broker until its order is processed, or
another copy is published. -/
theorem SagaInv.held_kept (hI : SagaInv c s) (h : Step cfg a s s') {t : Tid} {m : Message} {mid oid : Uuid}
    (hm : s.broker.channel t = .ready (some m)) (hp : s.phase t ≠ .republished) (hc : m.isCopy mid oid) :
    s'.db.processed oid ∨ s'.keeps mid oid := by
  have hjob : s.jobs t = some (.deliver m) := hI.messages.held t m hm
  have kept : s'.phase t ≠ .republished → s'.broker.channel t = .ready (some m) →
      s'.db.processed oid ∨ s'.keeps mid oid := fun hp' hm' => .inr (.inr ⟨t, m, hm', hp', hc⟩)
  have hphase : s'.phase t ≠ .republished ∨ s'.keeps mid oid := by
    by_cases ha : a = some t
    · subst ha
      refine (h.unrepublished hp).imp_right ?_
      rintro ⟨msg, payload, rk, msg', hj, hcontent, hr, rfl⟩
      rw [hjob] at hj
      cases hj
      obtain ⟨q, hq⟩ := Broker.published_mem rk msg' s.broker
      exact .inl ⟨q, msg', hq, hr.isCopy hcontent hc⟩
    · rw [h.phase_other ha]; exact .inl hp
  rcases hphase with hphase | hk
  · have other : ∀ (u : Tid) (ch : Channel), u ≠ t → s'.broker.channel = Function.update s.broker.channel u ch →
        s'.db.processed oid ∨ s'.keeps mid oid := fun u ch hu he =>
      kept hphase (by rw [he, Function.update_of_ne hu.symm]; exact hm)
    have requeued : ∀ {u : Tid} {ch : Channel}, s'.broker = s.broker.requeue u ch →
        s'.db.processed oid ∨ s'.keeps mid oid := by
      intro u ch he
      by_cases hu : u = t
      · subst hu
        exact .inr (.inl ⟨.process, m, by rw [he]; exact Broker.requeued_mem hm, hc⟩)
      · exact other u ch hu (by rw [he, Broker.channel_requeue])
    cases h with
    | @expire _ i b hb =>
      obtain ⟨⟨m₁, b₁⟩, ht, rfl⟩ := Option.map_eq_some_iff.mp hb
      refine kept hphase ?_
      simpa only [Broker.publish_channel, (Broker.take_some ht).2.2.2] using hm
    | loseChannel | lose | nack => exact requeued rfl
    | @deliver u _ i msg b hj ht =>
      refine other u (.ready (some msg)) (fun hu => ?_) ?_
      · rw [hu, hjob] at hj; cases hj
      · simp only [Shared.start, Broker.setChannel, (Broker.take_some ht).2.2.2]
    | @ack u _ msg payload hch hcontent hA =>
      by_cases hu : u = t
      · subst hu
        rw [hm] at hch
        cases hch
        obtain ⟨payload', hcontent', hmid, hoid⟩ := hc
        rw [hcontent] at hcontent'
        cases hcontent'
        rcases hA with hA | ⟨mid', hmid', hs⟩
        · exact (hp hA).elim
        · rw [hmid] at hmid'
          cases hmid'
          exact .inl (hI.processed_of_dedup hjob ⟨payload, hcontent, hmid, hoid⟩ hs)
      · exact other u (.ready none) hu rfl
    | publish | republish => exact kept hphase ((congrFun (Broker.publish_channel ..) t).trans hm)
    | reserve | release | process =>
      refine kept hphase ?_
      rw [commit_eq]
      exact hm
    | _ => exact kept hphase hm
  · exact .inr hk

theorem SagaInv.kept_step (hI : SagaInv c s) (hK : s.Kept) (h : Step cfg a s s') : s'.Kept := by
  intro t oid mid hp
  have old : s.phase t = .published oid mid → s'.db.processed oid ∨ s'.keeps mid oid := by
    intro hp
    rcases hK t oid mid hp with hd | ⟨q, m, hm, hc⟩ | ⟨t', m, hm, hp', hc⟩
    · exact .inl (hI.processed h hd)
    · exact .inr (hI.queued_kept h hm hc)
    · exact hI.held_kept h hm hp' hc
  by_cases hp₀ : s.phase t = .published oid mid
  · exact old hp₀
  · obtain ⟨createdAt, rfl⟩ := h.publishes hp₀ hp
    obtain ⟨q, hq⟩ := Broker.published_mem .process (processMessage mid oid createdAt) s.broker
    exact .inr (.inl ⟨q, _, hq, _, rfl, rfl, rfl⟩)

theorem Saga.kept (h : Saga cfg c s) : s.Kept := by
  have hrun := Runs.invariant (I := fun s => SagaInv c s ∧ s.Kept)
    (fun _ _ _ _ hI hs => ⟨hI.1.step hs, hI.1.kept_step hI.2 hs⟩) h ⟨.initial c, fun _ _ _ hp => by cases hp⟩
  exact hrun.2

/-! ## No message is lost -/

theorem no_message_lost (h : Reachable cfg c conf) {t : Tid} {msg : Message}
    (hm : .published t .process msg ∈ conf.world.trace) :
    ∃ mid oid, msg.isCopy mid oid ∧ (conf.world.db.processed oid ∨ conf.world.broker.holds mid oid) ∧
      ∀ t' msg', .acked t' msg' ∈ conf.world.trace → msg'.isCopy mid oid →
        conf.world.db.processed oid ∨
          ∃ rk m, rk ≠ .process ∧ .published t' rk m ∈ conf.world.trace ∧ m.isCopy mid oid := by
  have hs := h.saga
  obtain ⟨oid, mid, createdAt, hp, rfl⟩ := hs.leaves _ hm
  refine ⟨mid, oid, ⟨_, rfl, rfl, rfl⟩, ?_, fun t' msg' hack hc => ?_⟩
  · rcases hs.kept t oid mid hp with hd | hk
    · exact .inl hd
    · exact .inr hk.holds
  · obtain ⟨payload, hj, hcontent, hA⟩ := hs.leaves _ hack
    rcases hA with hA | ⟨mid', hmid', hseen⟩
    · -- the delivery has published its message again
      right
      obtain ⟨rk, m, hrk, hpub⟩ := phaseIn_republished hA
      have hleft := hs.leaves _ hpub
      cases rk with
      | process => exact (hrk rfl).elim
      | retry | dlq =>
        obtain ⟨_, msg'', payload', hj', hcontent', hr⟩ := hleft
        rw [hj] at hj'
        cases hj'
        exact ⟨_, m, hrk, hpub, hr.isCopy hcontent' hc⟩
    · left
      obtain ⟨payload', hcontent', hmid, hoid⟩ := hc
      rw [hcontent] at hcontent'
      cases hcontent'
      rw [hmid] at hmid'
      cases hmid'
      exact hs.inv.processed_of_dedup hj ⟨payload, hcontent, hmid, hoid⟩ hseen

theorem no_message_lost_mug :
    let conf := (Catalogue.shop 3).after (.ofPool 2 .repository) (saleSteps 0 (mugRequest 0 "k"))
    ∃ mid oid, (processMessage 3 0 0).isCopy mid oid ∧
      (conf.world.db.processed oid ∨ conf.world.broker.holds mid oid) := by
  intro conf
  have hm : .published 0 .process (processMessage 3 0 0) ∈ conf.world.trace := by decide
  obtain ⟨mid, oid, hc, hk, _⟩ := no_message_lost (Catalogue.reachable_after (.ofPool 2 .repository) (.shop 3)
    (saleSteps 0 (mugRequest 0 "k"))) hm
  exact ⟨mid, oid, hc, hk⟩

/-! ## Orders are processed once -/

def Event.processes (id : Uuid) : Event → Bool
  | .wrote _ (.processOrder id' _) _ => id' = id
  | _ => false

theorem Saga.processes_once (h : Saga cfg c s) (id : Uuid) : s.trace.countP (Event.processes id) ≤ 1 := by
  refine (Runs.at_most_once (I := SagaInv c) (D := fun s => s.db.processed id) Shared.trace
    (fun _ _ _ _ hI hs => hI.step hs) (fun _ _ _ _ hI hs hd => hI.processed hs hd) ?_ h (.initial c) rfl).1
  intro a s s' _ hI hs
  cases hs with
  | answer | loseCall | expire | loseChannel | tick | arrive | deliver | skipUuid | receive | nack | lose =>
    exact ⟨[], rfl, .inl rfl⟩
  | execute | failed | ackLost | ack | request | reject | pay | identify | publish | republish =>
    exact ⟨[_], rfl, .inl rfl⟩
  | @reserve t _ req products plan order items hr =>
    refine ⟨_, by rw [commit_eq], .inl (countP_wroteEvents_zero t s.db fun wr hwr δ => ?_)⟩
    rcases mem_reserveLog hwr with ⟨_, _, rfl⟩ | rfl | ⟨_, rfl⟩ <;> rfl
  | @release t _ id' hp =>
    refine ⟨_, by rw [commit_eq], .inl (countP_wroteEvents_zero t s.db fun wr hwr δ => ?_)⟩
    rcases mem_releaseLog hwr with rfl | ⟨_, _, rfl⟩ <;> rfl
  | @process t _ payload mid oid order processedAt hr =>
    refine ⟨_, by rw [commit_eq], ?_⟩
    rw [countP_wroteEvents t (g := fun wr => Event.processes id (.wrote t wr 0)) (fun wr δ => by cases wr <;> rfl)]
    by_cases hst : order.status = .processed
    · left
      rw [processLog, if_pos hst]
      rfl
    · rw [processLog, if_neg hst]
      by_cases hid : oid = id
      · subst hid
        refine .inr ⟨by simp [Event.processes], ?_, ?_⟩
        · rintro ⟨o, ho, hs⟩
          rw [hr.found] at ho
          cases ho
          exact hst hs
        · refine ⟨order.process processedAt, ?_, rfl⟩
          have ho := order?_process s t mid oid order processedAt oid
          rw [if_neg hst, Db.order?_updateOrder_self (.process processedAt) (fun _ => rfl) hr.found] at ho
          rwa [processLog, if_neg hst] at ho
      · exact .inl (by simp [Event.processes, hid])

theorem Saga.wrote_processed (h : Saga cfg c s) :
    ∀ m ∈ s.db.processedMessages, ∃ t δ, Event.wrote t (.insertProcessed m) δ ∈ s.trace := by
  refine (Runs.invariant (I := fun s => SagaInv c s ∧ ∀ m ∈ s.db.processedMessages,
    ∃ t δ, Event.wrote t (.insertProcessed m) δ ∈ s.trace) ?_ h ⟨.initial c,
      fun m hm => (List.not_mem_nil hm).elim⟩).2
  rintro a s s' _ ⟨hI, hw⟩ hs
  refine ⟨hI.step hs, fun m hm => ?_⟩
  have old : m ∈ s.db.processedMessages → ∃ t δ, Event.wrote t (.insertProcessed m) δ ∈ s'.trace := by
    intro hm
    obtain ⟨t, δ, he⟩ := hw m hm
    obtain ⟨es, htr, _⟩ := hs.trace
    exact ⟨t, δ, by rw [htr]; exact List.mem_append_right _ he⟩
  rcases hs.processedMessages hI.tables with he | ⟨t, payload, mid, oid, order, processedAt, _, _, hs', he⟩
  · exact old (he ▸ hm)
  · rw [he] at hm
    rcases List.mem_append.mp hm with hm | hm
    · exact old hm
    · obtain rfl := List.mem_singleton.mp hm
      have hwr : Write.insertProcessed ⟨mid, oid, "orders-worker"⟩ ∈ processLog mid oid order processedAt :=
        List.mem_cons_self ..
      obtain ⟨δ, hδ⟩ := mem_wroteEvents_of_mem t s.db hwr
      refine ⟨t, δ, ?_⟩
      rw [hs', commit_eq]
      exact List.mem_append_left _ hδ

theorem processed_exactly_once (h : Reachable cfg c conf) :
    (∀ id, conf.world.db.processed id ↔ ∃ m ∈ conf.world.db.processedMessages, m.orderId = id) ∧
    (conf.world.db.processedMessages.map (·.messageId)).Nodup ∧
    (∀ id, conf.world.trace.countP (Event.processes id) ≤ 1) ∧
    (∀ conf', (machine cfg).Reach conf conf' → ∀ id o, conf.world.db.order? id = some o → o.status = .processed →
      conf'.world.db.order? id = some o) ∧
    (∀ m ∈ conf.world.db.processedMessages, ∃ t δ, .wrote t (.insertProcessed m) δ ∈ conf.world.trace) ∧
    (∀ t rk msg, rk ≠ .process → .published t rk msg ∈ conf.world.trace →
      ∀ m δ, .wrote t (.insertProcessed m) δ ∉ conf.world.trace) := by
  have hs := h.saga
  have hM := hs.inv.messages
  refine ⟨fun id => ⟨?_, ?_⟩, hs.inv.tables.messages, hs.processes_once, fun conf' hr id o ho hst => ?_,
    hs.wrote_processed, fun t rk msg hrk hpub m δ hw => ?_⟩
  · rintro ⟨o, ho, hst⟩
    exact hM.processed id o ho hst
  · rintro ⟨m, hm, rfl⟩
    exact (hM.dedup m hm).2
  · obtain ⟨o', ho', hev⟩ := hs.order (h.runs hr) ho
    rw [ho', hev.final (by rw [hst]; exact nofun)]
  · have hc : conf.world.phase t = .consumed := (hs.leaves _ hw).1
    have hleft := hs.leaves _ hpub
    cases rk with
    | process => exact hrk rfl
    | retry | dlq => rw [hleft.1] at hc; cases hc

theorem processed_exactly_once_mug :
    ((Catalogue.shop 3).after (.ofPool 2 .repository)
      (saleSteps 0 (mugRequest 0 "k") ++ deliverySteps 1 0)).world.db.processed 0 :=
  ((processed_exactly_once (Catalogue.reachable_after (.ofPool 2 .repository) (.shop 3)
    (saleSteps 0 (mugRequest 0 "k") ++ deliverySteps 1 0))).1 0).mpr ⟨⟨3, 0, "orders-worker"⟩, by decide, rfl⟩

end OrdersBackend
