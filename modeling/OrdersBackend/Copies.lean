import OrdersBackend.Lib.Integers
import OrdersBackend.SystemSound

/-!
# The copies of a process message

Whatever is requeued, retried or given up, a message on the topology is the one
a call has published, with nothing but `attempt` changed; how far `attempt` has
come is bounded by the queue the message is in.
-/

namespace OrdersBackend

open Conc Binary64

variable {cfg : Config} {c : Catalogue} {a : Option Tid} {s s' : Shared} {conf : SysConf}

/-- A message that was sent with attempt 0 may be retried `k` times. -/
def Config.allows (cfg : Config) (k : Nat) : Prop := ∀ j < k, (Number.count j).lt cfg.maxAttempts = true

/-- After `k` retries a message is given up. -/
def Config.exhausts (cfg : Config) (k : Nat) : Prop := (Number.count k).lt cfg.maxAttempts = false

/-- The process message of a call, as it is published for the `k`-th retry. -/
def processMessageAt (mid oid : Uuid) (createdAt k : Nat) : Message :=
  republished
    { messageId := some mid, orderId := some oid, createdAt := some createdAt,
      attempt := .primitive (.num (Number.count k)), correlationId := some mid, producer := some "orders-api",
      eventName := some "orders.process" }

/-- `m` is a message that a call has published, at attempt `k`. -/
def Shared.IsAttempt (s : Shared) (k : Nat) (m : Message) : Prop :=
  ∃ t mid oid createdAt, .published t .process (processMessage mid oid createdAt) ∈ s.trace ∧
    m = processMessageAt mid oid createdAt k

def Config.admits (cfg : Config) (k : Nat) : Queue → Prop
  | .process => cfg.allows k
  | .retry => 1 ≤ k ∧ cfg.allows k
  | .dlq => cfg.allows k ∧ cfg.exhausts k

theorem Config.admits_allows {k : Nat} {q : Queue} (h : cfg.admits k q) : cfg.allows k := by
  cases q with
  | process => exact h
  | retry => exact h.2
  | dlq => exact h.1

theorem Config.allows_succ {k : Nat} (h : cfg.allows k) (hlt : (Number.count k).lt cfg.maxAttempts = true) :
    cfg.allows (k + 1) := by
  intro j hj
  rcases Nat.lt_succ_iff_lt_or_eq.mp hj with hj | rfl
  · exact h j hj
  · exact hlt

/-- Up to `2 ^ 53` the configured number is that of the retries. -/
theorem Config.allows_iff {d : Double} {N k : Nat} (hmax : cfg.maxAttempts = .fin d) (hd : d.val = N)
    (hN : N ≤ 2 ^ 53) : cfg.allows k ↔ k ≤ N := by
  unfold Config.allows
  simp only [hmax, Number.count_lt hd, decide_eq_true_eq]
  constructor
  · intro h
    by_contra hk
    have := h N (by omega)
    omega
  · intro hk j hj
    omega

/-- No message is given up before or after. -/
theorem Config.eq_of_exhausts {d : Double} {N k : Nat} (hmax : cfg.maxAttempts = .fin d) (hd : d.val = N)
    (ha : cfg.allows k) (he : cfg.exhausts k) : k = N := by
  unfold Config.allows at ha
  unfold Config.exhausts at he
  simp only [hmax, Number.count_lt hd, decide_eq_true_eq, decide_eq_false_iff_not] at ha he
  by_contra hne
  have := ha N
  omega

/-- A counted attempt arrives as it was sent. -/
theorem stringify_count (k : Nat) :
    (Json.primitive (.num (Number.count k))).stringify = .primitive (.num (Number.count k)) := by
  obtain ⟨d, hd⟩ := Number.count_finite k
  rw [hd]
  rfl

theorem attempt_processMessageAt {mid oid : Uuid} {createdAt k : Nat} {payload : OrdersProcessMessage}
    (h : (processMessageAt mid oid createdAt k).content = .value payload) :
    payload.attempt = .primitive (.num (Number.count k)) := by
  cases h
  exact stringify_count k

/-- What a failed delivery publishes is admitted where it goes. -/
theorem Republishes.attempt {payload : OrdersProcessMessage} {rk : RoutingKey} {m m' : Message} {k : Nat}
    (h : Republishes cfg payload rk m') (hm : m.content = .value payload) (hk : cfg.allows k)
    (ha : s.IsAttempt k m) : ∃ k', s.IsAttempt k' m' ∧ ∀ q ∈ bindings rk, cfg.admits k' q := by
  obtain ⟨t, mid, oid, createdAt, hpub, rfl⟩ := ha
  have hattempt := attempt_processMessageAt hm
  cases h with
  | retry hv hlt =>
    rw [hattempt] at hv
    cases hv
    refine ⟨k + 1, ⟨t, mid, oid, createdAt, hpub, ?_⟩, ?_⟩
    · cases hm
      rfl
    · intro q hq
      obtain rfl := List.mem_singleton.mp hq
      exact ⟨Nat.succ_pos k, Config.allows_succ hk hlt⟩
  | dlq hv hge =>
    rw [hattempt] at hv
    cases hv
    refine ⟨k, ⟨t, mid, oid, createdAt, hpub, ?_⟩, ?_⟩
    · cases hm
      simp only [republished, processMessageAt, stringify_count]
    · intro q hq
      obtain rfl := List.mem_singleton.mp hq
      exact ⟨hk, hge⟩

/-! ## The invariant -/

structure Copies (cfg : Config) (s : Shared) : Prop where
  queued : ∀ q, ∀ m ∈ s.broker.queue q, ∃ k, s.IsAttempt k m ∧ cfg.admits k q
  delivered : ∀ t m, s.jobs t = some (.deliver m) → ∃ k, cfg.allows k ∧ s.IsAttempt k m

theorem Shared.IsAttempt.step {k : Nat} {m : Message} (ha : s.IsAttempt k m) (h : Step cfg a s s') :
    s'.IsAttempt k m := by
  obtain ⟨t, mid, oid, createdAt, hpub, hm⟩ := ha
  obtain ⟨es, htr, _⟩ := h.trace
  exact ⟨t, mid, oid, createdAt, by rw [htr]; exact List.mem_append_right es hpub, hm⟩

theorem Broker.mem_publish_bound {rk : RoutingKey} {m m' : Message} {b : Broker} {q : Queue}
    (h : m' ∈ (b.publish rk m).queue q) : m' ∈ b.queue q ∨ m' = m ∧ q ∈ bindings rk := by
  rw [publish_queue] at h
  by_cases hq : q ∈ bindings rk
  · rw [if_pos hq, List.mem_append, List.mem_singleton] at h
    exact h.imp_right fun hm => ⟨hm, hq⟩
  · rw [if_neg hq] at h
    exact .inl h

theorem Broker.mem_requeue_bound {t : Tid} {ch : Channel} {b : Broker} {q : Queue} {m : Message}
    (h : m ∈ (b.requeue t ch).queue q) : m ∈ b.queue q ∨ q = .process ∧ (b.channel t).unacked = some m := by
  by_cases hq : q = .process
  · exact (Broker.mem_requeue h).imp_right fun hm => ⟨hq, hm⟩
  · unfold requeue at h
    split at h
    · exact .inl h
    · simp only [setChannel, push, Function.update_of_ne hq] at h
      exact .inl h

/-- Where a message of a queue was before a step. -/
inductive ComesFrom (cfg : Config) (a : Option Tid) (s s' : Shared) (m : Message) : Queue → Prop
  | queued {q : Queue} (h : m ∈ s.broker.queue q) : ComesFrom cfg a s s' m q
  | expired (h : m ∈ s.broker.queue .retry) : ComesFrom cfg a s s' m .process
  | held {t : Tid} (h : s.broker.channel t = .ready (some m)) : ComesFrom cfg a s s' m .process
  | call {t : Tid} {id mid : Uuid} {createdAt : Nat} (ha : a = some t) (hp : s.phase t = .identified id mid)
      (hm : m = processMessage mid id createdAt) (hs : .published t .process m ∈ s'.trace) :
      ComesFrom cfg a s s' m .process
  | delivery {q : Queue} {t : Tid} {msg : Message} {payload : OrdersProcessMessage} {rk : RoutingKey}
      (ha : a = some t) (hj : s.jobs t = some (.deliver msg)) (hc : msg.content = .value payload)
      (hr : Republishes cfg payload rk m) (hq : q ∈ bindings rk) : ComesFrom cfg a s s' m q

theorem Step.comesFrom (h : Step cfg a s s') {q : Queue} {m : Message} (hm : m ∈ s'.broker.queue q) :
    ComesFrom cfg a s s' m q := by
  have requeued : ∀ {t : Tid} {ch : Channel}, m ∈ (s.broker.requeue t ch).queue q → ComesFrom cfg a s s' m q := by
    intro t ch hm
    rcases Broker.mem_requeue_bound hm with hold | ⟨rfl, hheld⟩
    · exact .queued hold
    · exact .held (Channel.unacked_eq_some hheld)
  cases h with
  | @expire _ i b hb =>
    obtain ⟨⟨m₁, b₁⟩, ht, rfl⟩ := Option.map_eq_some_iff.mp hb
    obtain ⟨hm₁, hold, _, _⟩ := Broker.take_some ht
    rcases Broker.mem_publish_bound hm with hm | ⟨rfl, hq⟩
    · exact .queued (hold q m hm)
    · obtain rfl := List.mem_singleton.mp hq
      exact .expired hm₁
  | loseChannel t | lose t | nack hc => exact requeued hm
  | deliver hj ht => exact .queued ((Broker.take_some ht).2.1 q m hm)
  | publish createdAt hp =>
    rcases Broker.mem_publish_bound hm with hm | ⟨rfl, hq⟩
    · exact .queued hm
    · obtain rfl := List.mem_singleton.mp hq
      exact .call rfl hp rfl (List.mem_cons_self ..)
  | republish hj hc hp hr =>
    rcases Broker.mem_publish_bound hm with hm | ⟨rfl, hq⟩
    · exact .queued hm
    · exact .delivery rfl hj hc hr hq
  | reserve | release | process =>
    rw [commit_eq] at hm
    exact .queued hm
  | _ => exact .queued hm

/-- What a consumer is handed was in the process queue. -/
theorem Step.delivered_from (h : Step cfg a s s') {t : Tid} {m : Message} (hj : s'.jobs t = some (.deliver m)) :
    s.jobs t = some (.deliver m) ∨ a = some t ∧ m ∈ s.broker.queue .process := by
  cases h with
  | @arrive u _ req hn =>
    by_cases hu : t = u
    · subst hu
      simp [Shared.start] at hj
    · exact .inl (by simpa [Shared.start, Function.update_of_ne hu] using hj)
  | @deliver u _ i msg b hn ht =>
    by_cases hu : t = u
    · subst hu
      simp only [Shared.start, Function.update_self, Option.some.injEq, Job.deliver.injEq] at hj
      subst hj
      exact .inr ⟨rfl, (Broker.take_some ht).1⟩
    · exact .inl (by simpa [Shared.start, Function.update_of_ne hu] using hj)
  | reserve | release | process =>
    rw [commit_eq] at hj
    exact .inl hj
  | _ => exact .inl hj

theorem Copies.queued_step (hC : Copies cfg s) (hI : SagaInv c s) (h : Step cfg a s s') (q : Queue) :
    ∀ m ∈ s'.broker.queue q, ∃ k, s'.IsAttempt k m ∧ cfg.admits k q := by
  intro m hm
  cases h.comesFrom hm with
  | queued hq =>
    obtain ⟨k, ha, hk⟩ := hC.queued q m hq
    exact ⟨k, ha.step h, hk⟩
  | expired hq =>
    obtain ⟨k, ha, hk⟩ := hC.queued .retry m hq
    exact ⟨k, ha.step h, Config.admits_allows hk⟩
  | held hc =>
    obtain ⟨k, hk, ha⟩ := hC.delivered _ m (hI.messages.held _ m hc)
    exact ⟨k, ha.step h, hk⟩
  | @call t id mid createdAt _ _ he hs =>
    subst he
    exact ⟨0, ⟨t, mid, id, createdAt, hs, rfl⟩, fun j hj => (Nat.not_lt_zero j hj).elim⟩
  | delivery ha hj hc hr hq =>
    obtain ⟨k, hk, ha⟩ := hC.delivered _ _ hj
    obtain ⟨k', ha', hk'⟩ := hr.attempt hc hk ha
    exact ⟨k', ha'.step h, hk' q hq⟩

theorem Copies.delivered_step (hC : Copies cfg s) (h : Step cfg a s s') (t : Tid) (m : Message)
    (hj : s'.jobs t = some (.deliver m)) : ∃ k, cfg.allows k ∧ s'.IsAttempt k m := by
  rcases h.delivered_from hj with hj | ⟨_, hm⟩
  · obtain ⟨k, hk, ha⟩ := hC.delivered t m hj
    exact ⟨k, hk, ha.step h⟩
  · obtain ⟨k, ha, hk⟩ := hC.queued .process m hm
    exact ⟨k, hk, ha.step h⟩

theorem Saga.copies (h : Saga cfg c s) : Copies cfg s := by
  refine (Runs.invariant (I := fun s => SagaInv c s ∧ Copies cfg s) ?_ h ⟨.initial c, ?_⟩).2
  · rintro a s s' _ ⟨hI, hC⟩ hstep
    exact ⟨hI.step hstep, hC.queued_step hI hstep, hC.delivered_step hstep⟩
  · exact ⟨fun q m hm => (List.not_mem_nil hm).elim, fun t m hj => absurd hj nofun⟩

/-- A dead letter has used up its attempts, one that waits for a retry has had
one, and none has had more, however often it has been delivered. -/
theorem copies_are_attempts (h : Reachable cfg c conf) :
    (∀ q, ∀ m ∈ conf.world.broker.queue q, ∃ k, conf.world.toShared.IsAttempt k m ∧ cfg.admits k q) ∧
      ∀ t m, conf.world.broker.channel t = .ready (some m) →
        ∃ k, cfg.allows k ∧ conf.world.toShared.IsAttempt k m := by
  have hs := h.saga
  exact ⟨hs.copies.queued, fun t m hm => hs.copies.delivered t m (hs.inv.messages.held t m hm)⟩

theorem copies_are_attempts_mug :
    let conf := (Catalogue.shop 3).after (.ofPool 2 .repository) (saleSteps 0 (mugRequest 0 "k"))
    ∃ k ≤ 3, conf.world.toShared.IsAttempt k (processMessage 3 0 0) := by
  intro conf
  obtain ⟨hqueued, _⟩ := copies_are_attempts (Catalogue.reachable_after (.ofPool 2 .repository) (.shop 3)
    (saleSteps 0 (mugRequest 0 "k")))
  obtain ⟨k, ha, hk⟩ := hqueued .process (processMessage 3 0 0) (by decide +kernel)
  exact ⟨k, (Config.allows_iff (d := .ofNat 3 (by norm_num)) rfl rfl (by norm_num)).mp hk, ha⟩

end OrdersBackend
