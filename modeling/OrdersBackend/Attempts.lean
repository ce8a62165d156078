import OrdersBackend.Copies
import OrdersBackend.Deliveries
import OrdersBackend.Idempotency
import OrdersBackend.Messages

/-!
# Attempts of a message

As long as nothing is put back on the queue, a process message has one token:
its copy that waits in a queue, the delivery that has not published it again,
or its dead letter. The token carries the number of retries so far, so the
last delivery of all comes when they are used up.
-/

namespace OrdersBackend

open Conc Async Binary64

variable {cfg : Config} {c : Catalogue} {mid oid : Uuid} {t u : Tid} {s s' : Shared} {m : Message}
variable {O R L : Finset Tid}

/-! ## Copies -/

def Message.copies (mid oid : Uuid) (m : Message) : Bool :=
  match m.content with
  | .value payload => payload.messageId = some mid && payload.orderId = some oid
  | _ => false

theorem copies_iff : m.copies mid oid = true ↔ m.isCopy mid oid := by
  unfold Message.copies Message.isCopy
  cases hm : m.content with
  | value payload => simp
  | _ => simp

theorem copies_republished {payload payload' : OrdersProcessMessage} (hm : m.content = .value payload)
    (hmid : payload'.messageId = payload.messageId) (hoid : payload'.orderId = payload.orderId) :
    (republished payload').copies mid oid = m.copies mid oid := by
  unfold Message.copies
  simp only [hm, republished, hmid, hoid]

theorem Republishes.copies {payload : OrdersProcessMessage} {rk : RoutingKey} {m' : Message}
    (hr : Republishes cfg payload rk m') (hm : m.content = .value payload) :
    m'.copies mid oid = m.copies mid oid := by
  cases hr <;> exact copies_republished hm rfl rfl

def Message.hasAttempt (n : Nat) (m : Message) : Prop :=
  ∀ payload, m.content = .value payload → payload.attempt = .primitive (.num (Number.count n))

/-- The thread is a delivery of a copy. -/
def Shared.tries (mid oid : Uuid) (s : Shared) (t : Tid) : Prop :=
  ∃ m, s.jobs t = some (.deliver m) ∧ m.copies mid oid = true

def Event.publishesTo (rk : RoutingKey) (t : Tid) : Event → Bool
  | .published t' rk' _ => t' = t && rk' = rk
  | _ => false

def Shared.publishedTo (rk : RoutingKey) (s : Shared) (t : Tid) : Bool := s.trace.any (Event.publishesTo rk t)

def Event.sends (mid oid : Uuid) : Event → Bool
  | .published _ .process m => m.copies mid oid
  | _ => false

/-- How often the message has been put on the process queue by a call. -/
def Shared.sends (mid oid : Uuid) (s : Shared) : Nat := s.trace.countP (Event.sends mid oid)

def Broker.queued (mid oid : Uuid) (b : Broker) : Nat :=
  (b.queue .process).countP (Message.copies mid oid) + (b.queue .retry).countP (Message.copies mid oid)

/-! ## The token -/

/-- The open deliveries of a message, those that have published it for a retry,
and those that have given it up. -/
structure Tokens (cfg : Config) (mid oid : Uuid) (s : Shared) (O R L : Finset Tid) : Prop where
  opens : ∀ t, t ∈ O ↔ s.tries mid oid t ∧ s.out t = false
  retried : ∀ t, t ∈ R ↔ s.tries mid oid t ∧ s.publishedTo .retry t = true
  dead : ∀ t, t ∈ L ↔ s.tries mid oid t ∧ s.publishedTo .dlq t = true
  apart : Disjoint R L
  token : O.card + L.card + s.broker.queued mid oid = s.sends mid oid
  queued : ∀ q, q ≠ .dlq → ∀ m ∈ s.broker.queue q, m.copies mid oid = true → m.hasAttempt R.card
  served : ∀ t ∈ O, ∀ m, s.jobs t = some (.deliver m) → m.hasAttempt R.card
  started : R.Nonempty → 0 < s.sends mid oid
  bound : cfg.allows R.card
  exhausted : L.Nonempty → cfg.exhausts R.card
  letters : ∀ m ∈ s.broker.queue .dlq, m.copies mid oid = true → L.Nonempty

theorem Tokens.initial (cfg : Config) (mid oid : Uuid) (c : Catalogue) : Tokens cfg mid oid c.shared ∅ ∅ ∅ where
  opens t := by simp [Shared.tries, Catalogue.shared]
  retried t := by simp [Shared.tries, Catalogue.shared]
  dead t := by simp [Shared.tries, Catalogue.shared]
  apart := Finset.disjoint_empty_right ∅
  token := rfl
  queued q _ m hm := by cases hm
  served t ht := by simp at ht
  started h := by simp at h
  bound k hk := by simp at hk
  exhausted h := by simp at h
  letters m hm := by cases hm

/-- What a step must leave for the sets to stay. -/
structure Undisturbed (mid oid : Uuid) (s s' : Shared) : Prop where
  jobs : ∀ t m, m.copies mid oid = true → (s'.jobs t = some (.deliver m) ↔ s.jobs t = some (.deliver m))
  out : ∀ t, s.tries mid oid t → s'.out t = s.out t
  published : ∀ rk t, s.tries mid oid t → s'.publishedTo rk t = s.publishedTo rk t
  sends : s'.sends mid oid = s.sends mid oid
  queued : s'.broker.queued mid oid = s.broker.queued mid oid
  waiting : ∀ q, q ≠ .dlq → ∀ m ∈ s'.broker.queue q, m.copies mid oid = true →
    ∃ q', q' ≠ .dlq ∧ m ∈ s.broker.queue q'
  letters : ∀ m ∈ s'.broker.queue .dlq, m.copies mid oid = true → m ∈ s.broker.queue .dlq

theorem Undisturbed.tries (h : Undisturbed mid oid s s') (t : Tid) : s'.tries mid oid t ↔ s.tries mid oid t := by
  constructor
  · rintro ⟨m, hj, hm⟩
    exact ⟨m, (h.jobs t m hm).mp hj, hm⟩
  · rintro ⟨m, hj, hm⟩
    exact ⟨m, (h.jobs t m hm).mpr hj, hm⟩

theorem Tokens.undisturbed (h : Tokens cfg mid oid s O R L) (hu : Undisturbed mid oid s s') :
    Tokens cfg mid oid s' O R L where
  opens t := by
    rw [h.opens, hu.tries]
    exact and_congr_right fun hs => by rw [hu.out t hs]
  retried t := by
    rw [h.retried, hu.tries]
    exact and_congr_right fun hs => by rw [hu.published .retry t hs]
  dead t := by
    rw [h.dead, hu.tries]
    exact and_congr_right fun hs => by rw [hu.published .dlq t hs]
  apart := h.apart
  token := by
    rw [hu.queued, hu.sends]
    exact h.token
  queued q hq m hm hc := by
    obtain ⟨q', hq', hm'⟩ := hu.waiting q hq m hm hc
    exact h.queued q' hq' m hm' hc
  served t ht m hj := by
    obtain ⟨m', hj', hc⟩ := ((h.opens t).mp ht).1
    have hj'' := (hu.jobs t m' hc).mpr hj'
    rw [hj''] at hj
    cases hj
    exact h.served t ht m hj'
  started hR := by
    rw [hu.sends]
    exact h.started hR
  bound := h.bound
  exhausted := h.exhausted
  letters m hm hc := h.letters m (hu.letters m hm hc) hc

/-! ## Steps that leave the token -/

theorem countP_of_quiet {f : Event → Bool} (hf : ∀ e, f e = true → e.publication = true) {es : List Event}
    (hes : ∀ e ∈ es, e.publication = false) (trace : List Event) : (es ++ trace).countP f = trace.countP f := by
  rw [List.countP_append, List.countP_eq_zero.mpr, Nat.zero_add]
  intro e he hfe
  have hp := hf e hfe
  rw [hes e he] at hp
  cases hp

/-- Nothing is published, and the queues stay but for the order. -/
theorem Undisturbed.quiet
    (hjobs : ∀ t m, m.copies mid oid = true → (s'.jobs t = some (.deliver m) ↔ s.jobs t = some (.deliver m)))
    (htr : ∃ es, s'.trace = es ++ s.trace ∧ ∀ e ∈ es, e.publication = false)
    (hqueued : s'.broker.queued mid oid = s.broker.queued mid oid)
    (hwaiting : ∀ q, q ≠ .dlq → ∀ m ∈ s'.broker.queue q, ∃ q', q' ≠ .dlq ∧ m ∈ s.broker.queue q')
    (hletters : s'.broker.queue .dlq = s.broker.queue .dlq) : Undisturbed mid oid s s' := by
  obtain ⟨es, he, hes⟩ := htr
  constructor
  · exact hjobs
  · intro t _
    unfold Shared.out
    rw [he]
    exact any_of_quiet (fun e hf => by cases e <;> first | rfl | cases hf) hes _
  · intro rk t _
    unfold Shared.publishedTo
    rw [he]
    exact any_of_quiet (fun e hf => by cases e <;> first | rfl | cases hf) hes _
  · unfold Shared.sends
    rw [he]
    exact countP_of_quiet (fun e hf => by cases e <;> first | rfl | cases hf) hes _
  · exact hqueued
  · intro q hq m hm _
    exact hwaiting q hq m hm
  · intro m hm _
    rw [← hletters]
    exact hm

theorem Undisturbed.frame (hjobs : s'.jobs = s.jobs) (hqueue : s'.broker.queue = s.broker.queue)
    (htr : ∃ es, s'.trace = es ++ s.trace ∧ ∀ e ∈ es, e.publication = false) : Undisturbed mid oid s s' := by
  refine .quiet (fun t m _ => by rw [hjobs]) htr ?_ (fun q hq m hm => ⟨q, hq, ?_⟩) (by rw [hqueue])
  · unfold Broker.queued
    rw [hqueue]
  · rw [← hqueue]
    exact hm

theorem countP_take {b b' : Broker} {q : Queue} {i : Nat} (h : b.take q i = some (m, b')) (f : Message → Bool) :
    (b.queue q).countP f = (b'.queue q).countP f + (if f m then 1 else 0) ∧
      ∀ q', q' ≠ q → b'.queue q' = b.queue q' := by
  obtain ⟨hperm, hrest, _⟩ := Broker.take_perm h
  exact ⟨by rw [hperm.countP_eq, List.countP_cons], hrest⟩

theorem Undisturbed.expire {i : Nat} {b : Broker} (hb : s.broker.expire i = some b) :
    Undisturbed mid oid s { s with broker := b } := by
  obtain ⟨⟨m, b'⟩, ht, rfl⟩ := Option.map_eq_some_iff.mp hb
  obtain ⟨hretry, hrest⟩ := countP_take ht (Message.copies mid oid)
  obtain ⟨hm, hold, _, _⟩ := Broker.take_some ht
  refine .quiet (fun _ _ _ => Iff.rfl) ⟨[], rfl, by simp⟩ ?_ (fun q hq m' hm' => ?_) ?_
  · have hprocess : b'.queue .process = s.broker.queue .process := hrest .process (by simp)
    simp only [Broker.queued, Broker.publish_queue, deadLetterRoutingKey, bindings, List.mem_singleton, if_true,
      reduceCtorEq, if_false, List.countP_append, List.countP_singleton, hprocess, hretry]
    omega
  · rcases Broker.mem_publish hm' with hm' | rfl
    · exact ⟨q, hq, hold q m' hm'⟩
    · exact ⟨.retry, by simp, hm⟩
  · rw [Broker.publish_queue, if_neg (by simp [deadLetterRoutingKey, bindings])]
    exact hrest .dlq (by simp)

theorem Undisturbed.publish {rk : RoutingKey} (hm : m.copies mid oid = false) (ht : ¬s.tries mid oid t) :
    Undisturbed mid oid s (s.published t rk m) := by
  have hne : ∀ u, s.tries mid oid u → t ≠ u := fun u hu he => ht (he ▸ hu)
  have old : ∀ q, ∀ m' ∈ (s.published t rk m).broker.queue q, m'.copies mid oid = true →
      m' ∈ s.broker.queue q := by
    intro q m' hm' hc
    rcases Broker.mem_publish hm' with hm' | rfl
    · exact hm'
    · rw [hm] at hc
      cases hc
  constructor
  · exact fun _ _ _ => Iff.rfl
  · intro u hu
    rw [Balanced.out_published]
    simp [hne u hu]
  · intro rk' u hu
    show (Event.publishesTo rk' u (.published t rk m) || _) = _
    simp only [Event.publishesTo, hne u hu, decide_false, Bool.false_and, Bool.false_or]
    rfl
  · show List.countP _ (.published t rk m :: s.trace) = _
    refine List.countP_cons_of_neg ?_
    cases rk <;> simp [Event.sends, hm]
  · simp only [Broker.queued, Shared.published, Broker.publish_queue]
    cases rk <;> simp [bindings, hm]
  · exact fun q hq m' hm' hc => ⟨q, hq, old q m' hm' hc⟩
  · exact fun m' hm' hc => old .dlq m' hm' hc

/-! ## Steps that move the token -/

theorem eq_of_publishesTo {rk : RoutingKey} {e : Event} (h : e.publishesTo rk t = true) :
    ∃ m, e = .published t rk m := by
  cases e with
  | published t' rk' m =>
    obtain ⟨ht, hrk⟩ := Bool.and_eq_true_iff.mp h
    obtain rfl := of_decide_eq_true ht
    obtain rfl := of_decide_eq_true hrk
    exact ⟨m, rfl⟩
  | _ => cases h

theorem publishedTo_of_out (h : s.out t = false) (rk : RoutingKey) : s.publishedTo rk t = false := by
  unfold Shared.out at h
  unfold Shared.publishedTo
  rw [List.any_eq_false] at h ⊢
  intro e he hp
  obtain ⟨m, rfl⟩ := eq_of_publishesTo hp
  exact h _ he (decide_eq_true rfl)

theorem jobs_delivered (b : Broker) (m : Message) (t u : Tid) :
    ({ s with broker := b }.start t (.deliver m)).jobs u = if u = t then some (.deliver m) else s.jobs u :=
  Function.update_apply ..

theorem Undisturbed.deliver (hj : s.jobs t = none) {i : Nat} {b : Broker}
    (ht : s.broker.take .process i = some (m, b)) (ch : Channel) (hc : m.copies mid oid = false) :
    Undisturbed mid oid s ({ s with broker := b.setChannel t ch }.start t (.deliver m)) := by
  obtain ⟨hprocess, hrest⟩ := countP_take ht (Message.copies mid oid)
  obtain ⟨_, hold, _, _⟩ := Broker.take_some ht
  refine .quiet (fun u m' hm' => ?_) ⟨[], rfl, by simp⟩ ?_ (fun q hq m' hm' => ⟨q, hq, hold q m' hm'⟩)
    (hrest .dlq (by simp))
  · rw [jobs_delivered]
    by_cases hu : u = t
    · subst hu
      simp only [if_true, hj, Option.some.injEq, Job.deliver.injEq, reduceCtorEq, iff_false]
      rintro rfl
      rw [hc] at hm'
      cases hm'
    · rw [if_neg hu]
  · show (b.queue .process).countP _ + (b.queue .retry).countP _ = _
    rw [Broker.queued, hprocess, hrest .retry (by simp), hc]
    simp

theorem Tokens.deliver (h : Tokens cfg mid oid s O R L) (hj : s.jobs t = none) (hout : s.out t = false) {i : Nat}
    {b : Broker} (ht : s.broker.take .process i = some (m, b)) (ch : Channel) (hc : m.copies mid oid = true) :
    Tokens cfg mid oid ({ s with broker := b.setChannel t ch }.start t (.deliver m)) (insert t O) R L := by
  obtain ⟨hprocess, hrest⟩ := countP_take ht (Message.copies mid oid)
  obtain ⟨hm, hold, _, _⟩ := Broker.take_some ht
  have hretry : b.queue .retry = s.broker.queue .retry := hrest .retry (by simp)
  have hdlq : b.queue .dlq = s.broker.queue .dlq := hrest .dlq (by simp)
  have hnot : ¬s.tries mid oid t := by
    rintro ⟨m', hj', _⟩
    rw [hj] at hj'
    cases hj'
  have htries : ∀ u, ({ s with broker := b.setChannel t ch }.start t (.deliver m)).tries mid oid u ↔
      u = t ∨ s.tries mid oid u := by
    intro u
    unfold Shared.tries
    rw [jobs_delivered]
    by_cases hu : u = t
    · subst hu
      simp [hc]
    · simp [hu]
  -- the new delivery has published nothing
  have hpublished : ∀ rk u, ({ s with broker := b.setChannel t ch }.start t (.deliver m)).tries mid oid u ∧
      s.publishedTo rk u = true ↔ s.tries mid oid u ∧ s.publishedTo rk u = true := by
    intro rk u
    rw [htries]
    by_cases hu : u = t
    · subst hu
      simp [publishedTo_of_out hout]
    · simp [hu]
  constructor
  · intro u
    rw [htries, Finset.mem_insert, h.opens]
    show _ ↔ _ ∧ s.out u = false
    by_cases hu : u = t
    · subst hu
      simp [hout]
    · simp [hu]
  · exact fun u => (h.retried u).trans (hpublished .retry u).symm
  · exact fun u => (h.dead u).trans (hpublished .dlq u).symm
  · exact h.apart
  · have htoken := h.token
    have hO : t ∉ O := fun hm => hnot ((h.opens t).mp hm).1
    show (insert t O).card + L.card + ((b.queue .process).countP _ + (b.queue .retry).countP _) = s.sends mid oid
    rw [Finset.card_insert_of_notMem hO, hretry]
    rw [Broker.queued, hprocess, if_pos hc] at htoken
    omega
  · intro q hq m' hm' hc'
    exact h.queued q hq m' (hold q m' hm') hc'
  · intro u hu m' hj'
    rw [jobs_delivered] at hj'
    by_cases hut : u = t
    · rw [if_pos hut] at hj'
      cases hj'
      exact h.queued .process (by simp) m hm hc
    · rw [if_neg hut] at hj'
      exact h.served u ((Finset.mem_insert.mp hu).resolve_left hut) m' hj'
  · exact h.started
  · exact h.bound
  · exact h.exhausted
  · intro m' hm' hc'
    refine h.letters m' ?_ hc'
    rw [← hdlq]
    exact hm'

theorem queued_published (t : Tid) (rk : RoutingKey) (hc : m.copies mid oid = true) :
    (s.published t rk m).broker.queued mid oid = s.broker.queued mid oid + if rk = .dlq then 0 else 1 := by
  simp only [Broker.queued, Shared.published, Broker.publish_queue]
  cases rk <;> simp [bindings, hc] <;> omega

theorem publishedTo_published (rk rk' : RoutingKey) (t u : Tid) :
    (s.published t rk m).publishedTo rk' u = (decide (t = u) && decide (rk = rk') || s.publishedTo rk' u) := rfl

theorem publishedTo_published_ne {rk rk' : RoutingKey} (h : rk ≠ rk') (t u : Tid) :
    (s.published t rk m).publishedTo rk' u = s.publishedTo rk' u := by
  rw [publishedTo_published, decide_eq_false h, Bool.and_false, Bool.false_or]

theorem sends_published {rk : RoutingKey} (h : rk ≠ .process) (t : Tid) :
    (s.published t rk m).sends mid oid = s.sends mid oid := by
  refine List.countP_cons_of_neg ?_
  cases rk with
  | process => exact (h rfl).elim
  | retry | dlq => simp [Event.sends]

theorem Tokens.send (h : Tokens cfg mid oid s O R L) (ht : ¬s.tries mid oid t) (hc : m.copies mid oid = true)
    (hm : m.hasAttempt 0) (hle : (s.published t .process m).sends mid oid ≤ 1) :
    Tokens cfg mid oid (s.published t .process m) O R L := by
  have hsends : (s.published t .process m).sends mid oid = s.sends mid oid + 1 :=
    List.countP_cons_of_pos (by simp [Event.sends, hc])
  have hnone : s.sends mid oid = 0 := by omega
  have htoken := h.token
  have hR : R.card = 0 := by
    rw [Finset.card_eq_zero, ← Finset.not_nonempty_iff_eq_empty]
    intro hR
    have hpos := h.started hR
    omega
  have hne : ∀ u, s.tries mid oid u → t ≠ u := fun u hu he => ht (he ▸ hu)
  constructor
  · intro u
    rw [h.opens, Balanced.out_published]
    exact and_congr_right fun hu => by simp [hne u hu]
  · intro u
    rw [publishedTo_published_ne (by decide)]
    exact h.retried u
  · intro u
    rw [publishedTo_published_ne (by decide)]
    exact h.dead u
  · exact h.apart
  · rw [queued_published t .process hc, hsends]
    simp only [reduceCtorEq, if_false]
    omega
  · intro q hq m' hm' hc'
    rcases Broker.mem_publish hm' with hm' | rfl
    · exact h.queued q hq m' hm' hc'
    · rw [hR]
      exact hm
  · exact h.served
  · intro _
    omega
  · exact h.bound
  · exact h.exhausted
  · intro m' hm' hc'
    refine h.letters m' ?_ hc'
    simpa [Shared.published, Broker.publish_queue, bindings] using hm'

/-- The token of a delivery that is still open: no other copy waits, no other
delivery is open, and none has given the message up. -/
theorem Tokens.alone (h : Tokens cfg mid oid s O R L) (ht : t ∈ O) (hle : s.sends mid oid ≤ 1) :
    O = {t} ∧ L = ∅ ∧ s.broker.queued mid oid = 0 ∧ s.sends mid oid = 1 := by
  have htoken := h.token
  have hpos : 0 < O.card := Finset.card_pos.mpr ⟨t, ht⟩
  have hone : O.card = 1 := by omega
  obtain ⟨u, rfl⟩ := Finset.card_eq_one.mp hone
  obtain rfl := Finset.mem_singleton.mp ht
  refine ⟨rfl, Finset.card_eq_zero.mp (by omega), by omega, by omega⟩

theorem not_copies_of_queued {b : Broker} (h : b.queued mid oid = 0) {q : Queue} (hq : q ≠ .dlq) :
    ∀ m ∈ b.queue q, m.copies mid oid = false := by
  unfold Broker.queued at h
  have hprocess : (b.queue .process).countP (Message.copies mid oid) = 0 := by omega
  have hretry : (b.queue .retry).countP (Message.copies mid oid) = 0 := by omega
  rw [List.countP_eq_zero] at hprocess hretry
  intro m hm
  cases q with
  | process => simpa using hprocess m hm
  | retry => simpa using hretry m hm
  | dlq => exact (hq rfl).elim

section
variable {payload : OrdersProcessMessage} {rk : RoutingKey} {m' : Message}

theorem Tokens.opens_published (h : Tokens cfg mid oid s O R L) (ht : t ∈ O) (hle : s.sends mid oid ≤ 1) (u : Tid) :
    u ∈ (∅ : Finset Tid) ↔ (s.published t rk m').tries mid oid u ∧ (s.published t rk m').out u = false := by
  obtain ⟨rfl, _⟩ := h.alone ht hle
  rw [Balanced.out_published]
  refine iff_of_false (Finset.notMem_empty u) ?_
  rintro ⟨htries, hout⟩
  obtain ⟨hne, hout⟩ := Bool.or_eq_false_iff.mp hout
  have hu := Finset.mem_singleton.mp ((h.opens u).mpr ⟨htries, hout⟩)
  exact (of_decide_eq_false hne) hu.symm

variable (h : Tokens cfg mid oid s O R L) (hj : s.jobs t = some (.deliver m)) (hc : m.copies mid oid = true)
variable (hout : s.out t = false) (hcontent : m.content = .value payload) (hle : s.sends mid oid ≤ 1)
include h hj hc hout hcontent hle

theorem Tokens.opened : t ∈ O ∧ t ∉ R ∧ L = ∅ ∧ s.broker.queued mid oid = 0 ∧ s.sends mid oid = 1 ∧
    payload.attempt = .primitive (.num (Number.count R.card)) := by
  have ht : t ∈ O := (h.opens t).mpr ⟨⟨m, hj, hc⟩, hout⟩
  obtain ⟨_, hL, hqueued, hsends⟩ := h.alone ht hle
  refine ⟨ht, fun hm => ?_, hL, hqueued, hsends, h.served t ht m hj payload hcontent⟩
  have hp := ((h.retried t).mp hm).2
  rw [publishedTo_of_out hout] at hp
  cases hp

theorem Tokens.retry {v : Primitive} (hv : payload.attempt.toPrimitive = .ok v) (hlt : v.lt cfg.maxAttempts = true) :
    Tokens cfg mid oid (s.published t .retry (republished { payload with attempt := .primitive v.succ })) ∅
      (insert t R) ∅ := by
  obtain ⟨ht, hR, rfl, hqueued, hsends, hattempt⟩ := h.opened hj hc hout hcontent hle
  rw [hattempt] at hv
  cases hv
  have hcopy : (republished { payload with
      attempt := .primitive (Primitive.num (Number.count R.card)).succ }).copies mid oid = true :=
    (copies_republished hcontent rfl rfl).trans hc
  have hcard : (insert t R).card = R.card + 1 := Finset.card_insert_of_notMem hR
  constructor
  · exact h.opens_published ht hle
  · intro u
    rw [Finset.mem_insert, h.retried, publishedTo_published]
    by_cases hu : u = t
    · subst hu
      exact iff_of_true (.inl rfl) ⟨⟨m, hj, hc⟩, by simp⟩
    · simp only [hu, Ne.symm hu, false_or, decide_false, Bool.false_and, Bool.false_or]
      rfl
  · intro u
    rw [publishedTo_published_ne (by decide)]
    exact h.dead u
  · exact Finset.disjoint_empty_right _
  · rw [queued_published t .retry hcopy, sends_published (by decide), hqueued, hsends]
    rfl
  · intro q hq m' hm' hc'
    rcases Broker.mem_publish hm' with hm' | rfl
    · rw [not_copies_of_queued hqueued hq m' hm'] at hc'
      cases hc'
    · intro payload' hp
      cases hp
      rw [hcard]
      exact stringify_count (R.card + 1)
  · intro u hu
    cases hu
  · intro _
    rw [sends_published (by decide), hsends]
    exact Nat.one_pos
  · rw [hcard]
    exact Config.allows_succ h.bound hlt
  · intro hL
    simp at hL
  · intro m' hm' hc'
    refine h.letters m' ?_ hc'
    simpa [Shared.published, Broker.publish_queue, bindings] using hm'

theorem Tokens.giveUp {v : Primitive} (hv : payload.attempt.toPrimitive = .ok v)
    (hge : v.lt cfg.maxAttempts = false) :
    Tokens cfg mid oid (s.published t .dlq (republished payload)) ∅ R {t} := by
  obtain ⟨ht, hR, rfl, hqueued, hsends, hattempt⟩ := h.opened hj hc hout hcontent hle
  rw [hattempt] at hv
  cases hv
  have hcopy : (republished payload).copies mid oid = true := (copies_republished hcontent rfl rfl).trans hc
  constructor
  · exact h.opens_published ht hle
  · intro u
    rw [publishedTo_published_ne (by decide)]
    exact h.retried u
  · intro u
    rw [Finset.mem_singleton, publishedTo_published]
    by_cases hu : u = t
    · subst hu
      exact iff_of_true rfl ⟨⟨m, hj, hc⟩, by simp⟩
    · have hdead := h.dead u
      simp only [Finset.notMem_empty, false_iff] at hdead
      simp only [hu, Ne.symm hu, false_iff, decide_false, Bool.false_and, Bool.false_or]
      exact hdead
  · exact Finset.disjoint_singleton_right.mpr hR
  · rw [queued_published t .dlq hcopy, sends_published (by decide), hqueued, hsends]
    rfl
  · intro q hq m' hm' hc'
    have hold : m' ∈ s.broker.queue q := by simpa [Shared.published, Broker.publish_queue, bindings, hq] using hm'
    rw [not_copies_of_queued hqueued hq m' hold] at hc'
    cases hc'
  · intro u hu
    cases hu
  · intro _
    rw [sends_published (by decide), hsends]
    exact Nat.one_pos
  · exact h.bound
  · exact fun _ => hge
  · intro m' _ _
    exact Finset.singleton_nonempty t

end

/-! ## Runs -/

theorem Saga.sends_le (h : Saga cfg c s) (mid oid : Uuid) : s.sends mid oid ≤ 1 := by
  have sender : ∀ {t : Tid} {m : Message}, .published t .process m ∈ s.trace → m.copies mid oid = true →
      (s.phase t).messageId? = some mid := by
    intro t m hm hc
    obtain ⟨oid', mid', createdAt, hp, rfl⟩ := h.leaves _ hm
    obtain ⟨payload, hcontent, hmid, _⟩ := copies_iff.mp hc
    cases hcontent
    rw [hp]
    exact hmid
  by_cases hnone : ∃ t m, .published t .process m ∈ s.trace ∧ m.copies mid oid = true
  · obtain ⟨t, m, hm, hc⟩ := hnone
    refine le_trans (List.countP_mono_left fun e he hf => ?_) (h.publishes_once t)
    cases e with
    | published t' rk m' =>
      cases rk with
      | process =>
        obtain rfl := h.inv.messages.unique t' t mid (sender he hf) (sender hm hc)
        simp [Event.publishes, Event.actor]
      | retry | dlq => cases hf
    | _ => cases hf
  · refine le_of_eq_of_le (List.countP_eq_zero.mpr fun e he hf => hnone ?_) (Nat.zero_le 1)
    cases e with
    | published t' rk m' =>
      cases rk with
      | process => exact ⟨t', m', he, hf⟩
      | retry | dlq => cases hf
    | _ => cases hf

variable {conf conf' : SysConf}

theorem Catalogue.mailbox_nil (c : Catalogue) : c.mailbox [] = c.initial := by
  have hqueue : Function.update (fun _ : Queue => ([] : List Message)) .process [] = fun _ => [] :=
    Function.update_eq_self ..
  unfold Catalogue.mailbox
  rw [hqueue]
  rfl

theorem Reachable.mail (h : Reachable cfg c conf) : (mail cfg []).Good conf := by
  refine mail_good (c := c) ?_
  rw [c.mailbox_nil]
  exact h

/-- A step that puts an unacknowledged delivery back on the queue: its consumer
dies or loses its channel, or sends a nack. -/
def Requeues (conf : SysConf) : SysLabel → Prop
  | .run t .proceed => (conf.world.broker.channel t).unacked ≠ none ∧
      ∃ k, conf.threads t = .running (.await .nack k)
  | .kill t | .env (.loseChannel t) => (conf.world.broker.channel t).unacked ≠ none
  | _ => False

/-- The runs in which nothing is put back. -/
def Undisrupted (cfg : Config) (c : Catalogue) (conf : SysConf) : Prop :=
  (machine cfg).ReachWhen (fun conf l => ¬Requeues conf l) c.initial conf

theorem Undisturbed.loseChannel (h : (s.broker.channel t).unacked = none) :
    Undisturbed mid oid s (s.loseChannel t) := by
  refine .frame rfl ?_ ⟨[], rfl, by simp⟩
  simp [Shared.loseChannel, Broker.requeue, h, Broker.setChannel]

theorem Undisturbed.env {act : EnvAct} (hs : s.env cfg act = some s')
    (hact : ∀ t, act = .loseChannel t → (s.broker.channel t).unacked = none) : Undisturbed mid oid s s' := by
  rcases env_cases hs with ⟨hb, hj, _, es, he, hes⟩ | ⟨i, b, rfl, hb, rfl⟩ | ⟨t, rfl, rfl⟩
  · exact .frame hj (congrArg Broker.queue hb) ⟨es, he, fun e hm => (hes e hm).2⟩
  · exact .expire hb
  · exact .loseChannel (hact t rfl)

theorem Undisturbed.request (hj : s.jobs t = none) (req : CreateOrderRequest) :
    Undisturbed mid oid s (s.start t (.create req)) := by
  refine .quiet (fun u m _ => ?_) ⟨[], rfl, by simp⟩ rfl (fun q hq m hm => ⟨q, hq, hm⟩) rfl
  by_cases hu : u = t
  · subst hu
    simp [Shared.start, hj]
  · simp [Shared.start, hu]

/-- What a command does that publishes nothing and puts nothing back. -/
theorem Undisturbed.does {cmd : Cmd} (hd : Does t cmd s s') (hpublish : ∀ rk m, cmd ≠ .publish rk m)
    (hnack : cmd ≠ .nack) : Undisturbed mid oid s s' :=
  .frame hd.jobs (hd.queue hpublish hnack) (hd.unpublished hpublish)

variable {w w' : World}

theorem Tokens.publish (h : Tokens cfg mid oid w.toShared O R L)
    {rk : RoutingKey} (hp : Permitted cfg t (.publish rk m) w) (hs : Saga cfg c w.toShared)
    (hs' : Saga cfg c (w.toShared.published t rk m)) :
    ∃ O' R' L', Tokens cfg mid oid (w.toShared.published t rk m) O' R' L' := by
  have hle := hs.sends_le mid oid
  rcases hp with ⟨⟨req, hj⟩, hreq⟩ | ⟨m₀, hj, hout, payload, hcontent, hr⟩
  · have ht : ¬w.toShared.tries mid oid t := by
      rintro ⟨m', hj', _⟩
      rw [hj] at hj'
      cases hj'
    by_cases hc : m.copies mid oid = true
    · cases rk with
      | process =>
        refine ⟨O, R, L, h.send ht hc ?_ (hs'.sends_le mid oid)⟩
        obtain ⟨_, _, _, _, rfl⟩ := hs'.leaves (.published t .process m) (List.mem_cons_self ..)
        intro payload hcontent
        cases hcontent
        rfl
      | retry | dlq => cases hreq
    · exact ⟨O, R, L, h.undisturbed (.publish (by simpa using hc) ht)⟩
  · by_cases hc : m₀.copies mid oid = true
    · cases hr with
      | retry hv hlt => exact ⟨∅, insert t R, ∅, h.retry hj hc hout hcontent hle hv hlt⟩
      | dlq hv hge => exact ⟨∅, R, {t}, h.giveUp hj hc hout hcontent hle hv hge⟩
    · refine ⟨O, R, L, h.undisturbed (.publish ?_ ?_)⟩
      · rw [hr.copies hcontent]
        simpa using hc
      · rintro ⟨m', hj', hc'⟩
        rw [hj] at hj'
        cases hj'
        exact hc hc'

theorem Tokens.does (h : Tokens cfg mid oid w.toShared O R L) {cmd : Cmd}
    (hp : Permitted cfg t cmd w) (hd : Does t cmd w.toShared s') (hnack : cmd ≠ .nack)
    (hs : Saga cfg c w.toShared) (hs' : Saga cfg c s') : ∃ O' R' L', Tokens cfg mid oid s' O' R' L' := by
  by_cases hpublish : ∃ rk m, cmd = .publish rk m
  · obtain ⟨rk, m, rfl⟩ := hpublish
    cases hd with
    | idle | draw => exact ⟨O, R, L, h.undisturbed (.frame rfl rfl ⟨[], rfl, by simp⟩)⟩
    | failed => exact ⟨O, R, L, h.undisturbed (.frame rfl rfl ⟨[_], rfl, by simp [Event.publication]⟩)⟩
    | publish =>
      unfold Shared.publish at hs' ⊢
      split at hs'
      · exact ⟨O, R, L, h⟩
      · exact h.publish hp hs hs'
  · exact ⟨O, R, L, h.undisturbed (.does hd (fun rk m he => hpublish ⟨rk, m, he⟩) hnack)⟩

theorem Undisturbed.nack {ch : Choice} {r : Except Err Unit} (hx : exec cfg t .nack ch w = some (r, w'))
    (hch : ch = .proceed → (w.broker.channel t).unacked = none) :
    Undisturbed mid oid w.toShared w'.toShared := by
  have nacked (hnone : (w.broker.channel t).unacked = none) :
      Undisturbed mid oid w.toShared (w.toShared.nack t) := by
    unfold Shared.nack
    split
    · rename_i m hm
      rw [hm] at hnone
      cases hnone
    · exact .frame rfl rfl ⟨[], rfl, by simp⟩
  cases ch with
  | proceed =>
    simp only [exec] at hx
    split at hx
    · cases hx
      exact .frame rfl rfl ⟨[_], rfl, by simp [Event.publication]⟩
    · obtain ⟨rfl, rfl⟩ := Prod.mk.inj (Option.some.inj hx)
      exact nacked (hch rfl)
  | unnoticed =>
    simp only [exec] at hx
    split at hx
    · rename_i hlost
      obtain ⟨rfl, rfl⟩ := Prod.mk.inj (Option.some.inj hx)
      exact nacked (by rw [of_decide_eq_true hlost]; rfl)
    · cases hx
  | fail e =>
    simp only [exec] at hx
    split at hx
    · cases hx
    · cases hx
      exact .frame rfl rfl ⟨[_], rfl, by simp [Event.publication]⟩
  | ackLost e =>
    simp only [exec] at hx
    split at hx <;> cases hx

theorem Tokens.arrive (h : Tokens cfg mid oid w.toShared O R L) (hmail : MailInv cfg [] w) {arr : Arrival}
    {p : Api Reply} (hx : w.arrive cfg t arr = some (p, w')) :
    ∃ O', Tokens cfg mid oid w'.toShared O' R L := by
  unfold World.arrive at hx
  split at hx
  · cases hx
  · rename_i hj
    split at hx
    · cases hx
      exact ⟨O, h.undisturbed (.request hj _)⟩
    · obtain ⟨ms, hd, he⟩ := Option.map_eq_some_iff.mp hx
      cases he
      obtain ⟨⟨m, b⟩, ht, rfl⟩ := Option.map_eq_some_iff.mp hd
      by_cases hc : m.copies mid oid = true
      · exact ⟨insert t O, h.deliver hj (hmail.out_unused hj) ht _ hc⟩
      · exact ⟨O, h.undisturbed (.deliver hj ht _ (by simpa using hc))⟩

/-- Every step keeps the token but one that puts a delivery back. -/
theorem Tokens.step (hreach : Reachable cfg c conf) {l : SysLabel}
    (hstep : (machine cfg).step conf l = some conf') (hl : ¬Requeues conf l)
    (h : Tokens cfg mid oid conf.world.toShared O R L) :
    ∃ O' R' L', Tokens cfg mid oid conf'.world.toShared O' R' L' := by
  have hsaga := hreach.saga
  have hsaga' : Saga cfg c conf'.world.toShared := Reachable.saga (Machine.Reach.step l hreach hstep)
  have hmail := hreach.mail
  rcases Machine.step_cases hstep with ⟨t, ch, cmd, k, r, w, rfl, ht, hx, rfl⟩ | ⟨t, cmd, k, rfl, ht, rfl⟩ |
    ⟨act, w, rfl, hx, rfl⟩ | ⟨t, arr, p, w, rfl, ht, hx, rfl⟩
  · have hd : Does t cmd conf.world.toShared w.toShared := Does.of_exec hx
    have hpre : Permitted cfg t cmd conf.world := hmail.pre ht
    by_cases hnack : cmd = .nack
    · subst hnack
      refine ⟨O, R, L, h.undisturbed (.nack hx fun hch => ?_)⟩
      by_contra hheld
      subst hch
      exact hl ⟨hheld, k, ht⟩
    · exact h.does hpre hd hnack hsaga hsaga'
  · exact ⟨O, R, L, h.undisturbed (.loseChannel (not_not.mp hl))⟩
  · obtain ⟨s, hs, rfl⟩ := Option.map_eq_some_iff.mp hx
    refine ⟨O, R, L, h.undisturbed (.env hs fun t hact => ?_)⟩
    subst hact
    exact not_not.mp hl
  · obtain ⟨O', h'⟩ := h.arrive hmail.1 hx
    exact ⟨O', R, L, h'⟩

theorem Undisrupted.reachable (h : Undisrupted cfg c conf) : Reachable cfg c conf := Machine.ReachWhen.reach h

theorem Undisrupted.tokens (h : Undisrupted cfg c conf) (mid oid : Uuid) :
    ∃ O R L, Tokens cfg mid oid conf.world.toShared O R L := by
  induction h with
  | refl => exact ⟨∅, ∅, ∅, .initial cfg mid oid c⟩
  | step l hr hl hs ih =>
    obtain ⟨O, R, L, h⟩ := ih
    exact h.step hr.reach hs hl

end OrdersBackend
