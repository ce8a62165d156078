import Mathlib.Algebra.Order.BigOperators.Group.Finset
import OrdersBackend.SystemSound

/-!
# The worker's mailbox

`orders.process` may hold any messages, not only those of `createOrder`. Each
is worth the deliveries it may still cause: one, and one for each attempt that
is left. A delivery that publishes its message again passes on less than its
own message was worth, so as long as no message is put back as it was the
deliveries are bounded by what has been put on the queue.
-/

namespace OrdersBackend

open Conc Async Binary64

variable {cfg : Config} {msgs : List Message} {t u : Tid} {s s' : Shared} {w w' : World} {m : Message}

/-! ## Attempts -/

/-- What a retry keeps of a message: everything but its attempt. -/
def Message.stem (m : Message) : Content :=
  match m.content with
  | .value payload => .value { payload with attempt := .primitive .undefined }
  | c => c

/-- The attempt a retry of `v` arrives with. -/
def Primitive.next (v : Primitive) : Primitive := v.succ.stringify

/-- `attempt + 1` is larger than `attempt`, and is so after it has been sent. -/
def Primitive.advances (v : Primitive) : Bool := v.toNumber.lt v.next.toNumber

/-- The retries of `v`, as long as each has a larger attempt. -/
def Primitive.left (max : Number) (v : Primitive) : Nat :=
  if _h : v.lt max = true ∧ v.advances = true then v.next.left max + 1 else 0
  termination_by v.toNumber.room
  decreasing_by exact Number.room_lt _h.2

def Message.left (cfg : Config) (m : Message) : Nat :=
  match m.content with
  | .value payload => (payload.attempt.toPrimitive.toOption.map (Primitive.left cfg.maxAttempts)).getD 0
  | _ => 0

def Message.exceeds (m' m : Message) : Prop :=
  ∃ payload payload' v v', m.content = .value payload ∧ m'.content = .value payload' ∧
    payload.attempt.toPrimitive = .ok v ∧ payload'.attempt.toPrimitive = .ok v' ∧ v.toNumber.lt v'.toNumber = true

/-- `attempt` can be compared with a number. -/
def Message.converts (m : Message) : Prop :=
  ∀ payload, m.content = .value payload → ∃ v, payload.attempt.toPrimitive = .ok v

/-- `attempt` is not below `maxAttempts`, or has a larger one after it. -/
def Message.advances (cfg : Config) (m : Message) : Prop :=
  ∀ payload v, m.content = .value payload → payload.attempt.toPrimitive = .ok v →
    v.lt cfg.maxAttempts = true → v.advances = true

theorem Primitive.left_next {v : Primitive} {max : Number} (h : v.lt max = true) (ha : v.advances = true) :
    v.next.left max < v.left max := by
  rw [Primitive.left.eq_def max v, dif_pos ⟨h, ha⟩]
  exact Nat.lt_succ_self _

theorem stem_republished {payload : OrdersProcessMessage} (h : m.content = .value payload) (v : Json) :
    (republished { payload with attempt := v }).stem = m.stem := by
  simp [Message.stem, republished, h]

/-! ## Worth -/

/-- The deliveries that `m` may still cause to messages with the stem `k`. -/
def worth (cfg : Config) (k : Content) (m : Message) : Nat := if m.stem = k then 1 + m.left cfg else 0

def total (cfg : Config) (k : Content) (ms : List Message) : Nat := (ms.map (worth cfg k)).sum

theorem total_append (k : Content) (ms ms' : List Message) :
    total cfg k (ms ++ ms') = total cfg k ms + total cfg k ms' := by
  simp [total]

theorem worth_succ (k : Content) {payload : OrdersProcessMessage} {v : Primitive} (hm : m.content = .value payload)
    (hv : payload.attempt.toPrimitive = .ok v) (hlt : v.lt cfg.maxAttempts = true) (ha : m.advances cfg) :
    worth cfg k (republished { payload with attempt := .primitive v.succ }) + (if m.stem = k then 1 else 0) ≤
      worth cfg k m := by
  have hleft := Primitive.left_next hlt (ha payload v hm hv hlt)
  have hbefore : m.left cfg = v.left cfg.maxAttempts := by simp [Message.left, hm, hv, Except.toOption]
  have hafter : (republished { payload with attempt := .primitive v.succ }).left cfg = v.next.left cfg.maxAttempts :=
    rfl
  unfold worth
  rw [stem_republished hm, hbefore, hafter]
  split
  · omega
  · simp

theorem total_take (cfg : Config) (k : Content) {b b' : Broker} {q : Queue} {i : Nat}
    (h : b.take q i = some (m, b')) :
    worth cfg k m + total cfg k (b'.queue q) = total cfg k (b.queue q) ∧ ∀ q', q' ≠ q →
    b'.queue q' = b.queue q' := by
  obtain ⟨hperm, hrest, _⟩ := Broker.take_perm h
  refine ⟨?_, hrest⟩
  unfold total
  rw [(hperm.map _).sum_eq, List.map_cons, List.sum_cons]

def Event.publication : Event → Bool
  | .published _ _ _ => true
  | _ => false

theorem any_of_quiet {f : Event → Bool} (hf : ∀ e, f e = true → e.publication = true) {es : List Event}
    (hes : ∀ e ∈ es, e.publication = false) (trace : List Event) : (es ++ trace).any f = trace.any f := by
  refine any_append_of_not (fun e he => ?_) trace
  by_contra hfe
  have hp := hf e (by simpa using hfe)
  rw [hes e he] at hp
  cases hp

def Shared.sent (s : Shared) : List Message :=
  s.trace.filterMap fun
    | .published _ .process m => some m
    | _ => none

def Event.publishedBy (t : Tid) : Event → Bool
  | .published t' _ _ => t' = t
  | _ => false

def Shared.out (s : Shared) (t : Tid) : Bool := s.trace.any (Event.publishedBy t)

/-- What the delivery itself counts for. -/
def single (k : Content) (m : Message) : Nat := if m.stem = k then 1 else 0

/-- What the delivery `t` may still cause, itself included. -/
def Shared.cost (cfg : Config) (k : Content) (s : Shared) (t : Tid) : Nat :=
  match s.jobs t with
  | some (.deliver m) => if s.out t then single k m else worth cfg k m
  | _ => 0

theorem cost_of_not_delivery {k : Content} (h : ¬∃ m, s.jobs t = some (.deliver m)) : s.cost cfg k t = 0 := by
  unfold Shared.cost
  split
  · rename_i m hm
    exact (h ⟨m, hm⟩).elim
  · rfl

/-- The deliveries so far, and those still to come, are paid for. -/
def Balanced (cfg : Config) (msgs : List Message) (k : Content) (s : Shared) : Prop :=
  ∃ S : Finset Tid, (∀ t, t ∈ S ↔ ∃ m, s.jobs t = some (.deliver m)) ∧
    S.sum (s.cost cfg k) + total cfg k (s.broker.queue .process) + total cfg k (s.broker.queue .retry) ≤
      total cfg k msgs + total cfg k s.sent

theorem one_le_cost {k : Content} (hj : s.jobs t = some (.deliver m)) (hk : m.stem = k) : 1 ≤ s.cost cfg k t := by
  simp only [Shared.cost, hj, single, worth, hk, if_true]
  split <;> omega

theorem Balanced.card_le {k : Content} (h : Balanced cfg msgs k s) {D : Finset Tid}
    (hD : ∀ t ∈ D, ∃ m, s.jobs t = some (.deliver m) ∧ m.stem = k) :
    D.card ≤ total cfg k msgs + total cfg k s.sent := by
  obtain ⟨S, hS, hle⟩ := h
  have hsub : D ⊆ S := by
    intro t ht
    obtain ⟨m, hj, _⟩ := hD t ht
    exact (hS t).mpr ⟨m, hj⟩
  have hcard : D.card ≤ D.sum (s.cost cfg k) := by
    rw [Finset.card_eq_sum_ones]
    refine Finset.sum_le_sum fun t ht => ?_
    obtain ⟨m, hj, hk⟩ := hD t ht
    exact one_le_cost hj hk
  have hmono : D.sum (s.cost cfg k) ≤ S.sum (s.cost cfg k) :=
    Finset.sum_le_sum_of_subset hsub
  omega

/-! ## Covered deliveries -/

/-- The commands of a delivery whose failure nothing in `handle` makes good. -/
def Cmd.vital : Cmd → Bool
  | .connect _ | .startTransaction _ | .rollbackTransaction _ | .publish _ _ | .ack => true
  | _ => false

/-- Nothing has gone wrong that `handle` does not cover: the message can be
read, no vital command has failed, and the channel has not been lost before the
message was acknowledged. -/
structure Covered (s : Shared) (t : Tid) (m : Message) : Prop where
  parses : ∃ payload, parse m = .ok payload
  vital : ∀ cmd : Cmd, cmd.vital = true → .failed t cmd ∉ s.trace
  kept : s.broker.channel t = .lost → .acked t m ∈ s.trace

def AllCovered (cfg : Config) (s : Shared) : Prop :=
  ∀ t m, s.jobs t = some (.deliver m) → Covered s t m ∧ m.converts ∧ m.advances cfg

/-- What holds of a delivery for ever once it has gone wrong. -/
structure Later (s s' : Shared) : Prop where
  jobs : ∀ t job, s.jobs t = some job → s'.jobs t = some job
  trace : ∀ e ∈ s.trace, e ∈ s'.trace
  lost : ∀ t, s.jobs t ≠ none → s.broker.channel t = .lost →
    s'.broker.channel t = .lost ∧ ∀ m, .acked t m ∈ s'.trace → .acked t m ∈ s.trace

theorem Covered.before (h : Covered s' t m) (hl : Later s s') (hj : s.jobs t ≠ none) : Covered s t m where
  parses := h.parses
  vital cmd hc hm := h.vital cmd hc (hl.trace _ hm)
  kept hlost := by
    obtain ⟨hlost', hacked⟩ := hl.lost t hj hlost
    exact hacked m (h.kept hlost')

theorem AllCovered.before (h : AllCovered cfg s') (hl : Later s s') : AllCovered cfg s := by
  intro t m hj
  obtain ⟨hc, ha⟩ := h t m (hl.jobs t _ hj)
  exact ⟨hc.before hl (by simp [hj]), ha⟩

/-! ## Steps -/

namespace Balanced

variable {k : Content}

theorem frame (h : Balanced cfg msgs k s)
    (hj : ∀ t m, s'.jobs t = some (.deliver m) ↔ s.jobs t = some (.deliver m))
    (hq : s'.broker.queue = s.broker.queue)
    (htr : ∃ es, s'.trace = es ++ s.trace ∧ ∀ e ∈ es, e.publication = false) : Balanced cfg msgs k s' := by
  obtain ⟨S, hS, hle⟩ := h
  obtain ⟨es, he, hes⟩ := htr
  have hpub : s'.out = s.out := by
    funext t
    unfold Shared.out
    rw [he]
    exact any_of_quiet (fun e hf => by cases e <;> first | rfl | cases hf) hes _
  have hsent : s'.sent = s.sent := by
    unfold Shared.sent
    rw [he, List.filterMap_append, List.filterMap_eq_nil_iff.mpr, List.nil_append]
    intro e hm
    have hquiet := hes e hm
    cases e with
    | published => cases hquiet
    | _ => rfl
  have hcost : s'.cost cfg k = s.cost cfg k := by
    funext t
    by_cases hd : ∃ m, s.jobs t = some (.deliver m)
    · obtain ⟨m, hm⟩ := hd
      simp only [Shared.cost, hm, (hj t m).mpr hm, hpub]
    · rw [cost_of_not_delivery hd, cost_of_not_delivery]
      rintro ⟨m, hm⟩
      exact hd ⟨m, (hj t m).mp hm⟩
  exact ⟨S, fun t => by simp only [hj, hS], by rw [hcost, hq, hsent]; exact hle⟩

theorem out_published (u : Tid) (rk : RoutingKey) (m : Message) (s : Shared) (t : Tid) :
    (s.published u rk m).out t = (decide (u = t) || s.out t) := rfl

theorem total_queue_published (u : Tid) (rk : RoutingKey) (m : Message) (s : Shared) (q : Queue) :
    total cfg k ((s.published u rk m).broker.queue q) =
      total cfg k (s.broker.queue q) + if q ∈ bindings rk then worth cfg k m else 0 := by
  simp only [Shared.published, Broker.publish_queue]
  split
  · rw [total_append]
    simp [total]
  · rfl

theorem sent (h : Balanced cfg msgs k s) (hj : ∀ m, s.jobs u ≠ some (.deliver m)) (m : Message) :
    Balanced cfg msgs k (s.published u .process m) := by
  obtain ⟨S, hS, hle⟩ := h
  refine ⟨S, hS, ?_⟩
  have hcost : (s.published u .process m).cost cfg k = s.cost cfg k := by
    funext t
    have hjobs : (s.published u .process m).jobs = s.jobs := rfl
    simp only [Shared.cost, out_published, hjobs]
    by_cases hu : u = t
    · subst hu
      split
      · rename_i m' hm'
        exact (hj m' hm').elim
      · rfl
    · simp [hu]
  have hsent : total cfg k (s.published u .process m).sent = worth cfg k m + total cfg k s.sent := rfl
  rw [hcost, hsent, total_queue_published, total_queue_published]
  simp only [bindings, List.mem_singleton, if_true, reduceCtorEq, if_false]
  omega

/-- A delivery publishes its message again, as one that is worth less. -/
theorem republish (h : Balanced cfg msgs k s) (hj : s.jobs u = some (.deliver m)) (hout : s.out u = false)
    {payload : OrdersProcessMessage} {rk : RoutingKey} {m' : Message} (hm : m.content = .value payload)
    (hr : Republishes cfg payload rk m') (ha : m.advances cfg) : Balanced cfg msgs k (s.published u rk m') := by
  obtain ⟨S, hS, hle⟩ := h
  refine ⟨S, hS, ?_⟩
  have hjobs : (s.published u rk m').jobs = s.jobs := rfl
  have hu : u ∈ S := (hS u).mpr ⟨m, hj⟩
  have hothers : ∀ t ∈ S.erase u, (s.published u rk m').cost cfg k t = s.cost cfg k t := by
    intro t ht
    have hne : u ≠ t := (Finset.ne_of_mem_erase ht).symm
    simp [Shared.cost, out_published, hjobs, hne]
  have hbefore : s.cost cfg k u = worth cfg k m := by simp [Shared.cost, hj, hout]
  have hafter : (s.published u rk m').cost cfg k u = single k m := by
    simp [Shared.cost, out_published, hjobs, hj]
  have hsum : s.cost cfg k u + (S.erase u).sum (s.cost cfg k) = S.sum (s.cost cfg k) :=
    Finset.add_sum_erase S _ hu
  have hsum' : (s.published u rk m').cost cfg k u + (S.erase u).sum ((s.published u rk m').cost cfg k) =
      S.sum ((s.published u rk m').cost cfg k) := Finset.add_sum_erase S _ hu
  rw [Finset.sum_congr rfl hothers, hafter] at hsum'
  rw [hbefore] at hsum
  rw [total_queue_published, total_queue_published]
  cases hr with
  | @retry v hv hlt =>
    have hworth := worth_succ k hm hv hlt ha
    have hsent : total cfg k (s.published u .retry (republished { payload with attempt := .primitive v.succ })).sent =
      total cfg k s.sent := rfl
    rw [hsent]
    simp only [bindings, List.mem_singleton, if_true, reduceCtorEq, if_false]
    unfold single at hsum'
    omega
  | dlq hv hlt =>
    have hsent : total cfg k (s.published u .dlq (republished payload)).sent = total cfg k s.sent := rfl
    have hworth : single k m ≤ worth cfg k m := by
      unfold single worth
      split <;> omega
    rw [hsent]
    simp only [bindings, List.mem_singleton, reduceCtorEq, if_false]
    omega

theorem deliver (h : Balanced cfg msgs k s) (hj : s.jobs u = none) (hout : s.out u = false) {i : Nat} {b : Broker}
    (ht : s.broker.take .process i = some (m, b)) (ch : Channel) :
    Balanced cfg msgs k ({ s with broker := b.setChannel u ch }.start u (.deliver m)) := by
  obtain ⟨S, hS, hle⟩ := h
  have hu : u ∉ S := by
    intro hu
    obtain ⟨m', hm'⟩ := (hS u).mp hu
    rw [hj] at hm'
    cases hm'
  have hjobs : ∀ t, ({ s with broker := b.setChannel u ch }.start u (.deliver m)).jobs t =
      if t = u then some (.deliver m) else s.jobs t := fun t => Function.update_apply ..
  refine ⟨insert u S, fun t => ?_, ?_⟩
  · rw [Finset.mem_insert, hS, hjobs]
    by_cases htu : t = u
    · simp [htu]
    · simp [htu]
  · have hcost : ({ s with broker := b.setChannel u ch }.start u (.deliver m)).cost cfg k u = worth cfg k m := by
      have ho : ({ s with broker := b.setChannel u ch }.start u (.deliver m)).out u = false := hout
      simp [Shared.cost, hjobs, ho]
    have hothers : ∀ t ∈ S, ({ s with broker := b.setChannel u ch }.start u
      (.deliver m)).cost cfg k t = s.cost cfg k t := by
      intro t hm
      have hne : t ≠ u := fun he => hu (he ▸ hm)
      have ho : ({ s with broker := b.setChannel u ch }.start u (.deliver m)).out t = s.out t := rfl
      simp [Shared.cost, hjobs, hne, ho]
    obtain ⟨hprocess, hrest⟩ := total_take cfg k ht
    have hretry : b.queue .retry = s.broker.queue .retry := hrest .retry (by simp)
    have hsent : total cfg k ({ s with broker := b.setChannel u ch }.start u
      (.deliver m)).sent = total cfg k s.sent := rfl
    rw [Finset.sum_insert hu, hcost, Finset.sum_congr rfl hothers, hsent]
    simp only [Shared.start, Broker.setChannel, hretry]
    omega

theorem expire (h : Balanced cfg msgs k s) {i : Nat} {b : Broker} (hb : s.broker.expire i = some b) :
    Balanced cfg msgs k { s with broker := b } := by
  obtain ⟨S, hS, hle⟩ := h
  refine ⟨S, hS, ?_⟩
  obtain ⟨⟨m, b'⟩, ht, rfl⟩ := Option.map_eq_some_iff.mp hb
  obtain ⟨hretry, hrest⟩ := total_take cfg k ht
  have hprocess : b'.queue .process = s.broker.queue .process := hrest .process (by simp)
  have hcost : Shared.cost cfg k { s with broker := b'.publish deadLetterRoutingKey m } = s.cost cfg k := rfl
  have hsent : total cfg k
    (Shared.sent { s with broker := b'.publish deadLetterRoutingKey m }) = total cfg k s.sent := rfl
  rw [hcost, hsent]
  simp only [Broker.publish_queue, deadLetterRoutingKey, bindings, List.mem_singleton, if_true,
    reduceCtorEq, if_false,
    total_append, hprocess]
  have hm : total cfg k [m] = worth cfg k m := by simp [total]
  omega

end Balanced

/-! ## What a step does to the others -/

/-- What a thread sees of the others' steps. -/
structure Apart (t : Tid) (w w' : World) : Prop where
  sess : w'.sess t = w.sess t
  job : w'.jobs t = w.jobs t
  channel : w'.broker.channel t = w.broker.channel t ∨ w'.broker.channel t = .lost
  events : ∀ e : Event, e.actor = some t → (e ∈ w'.trace ↔ e ∈ w.trace)
  consumed : ∀ mid, (w.db.processed? mid).isSome → (w'.db.processed? mid).isSome

namespace Apart

theorem refl (t : Tid) (w : World) : Apart t w w := ⟨rfl, rfl, .inl rfl, fun _ _ => Iff.rfl, fun _ h => h⟩

theorem trans {w'' : World} (h : Apart t w w') (h' : Apart t w' w'') : Apart t w w'' where
  sess := h'.sess.trans h.sess
  job := h'.job.trans h.job
  channel := by
    rcases h'.channel with he | he
    · rw [he]
      exact h.channel
    · exact .inr he
  events e he := (h'.events e he).trans (h.events e he)
  consumed mid hm := h'.consumed mid (h.consumed mid hm)

end Apart

theorem isSome_processed?_apply (db : Db) (wr : Write) {mid : Uuid} (h : (db.processed? mid).isSome) :
    ((wr.apply db).processed? mid).isSome := by
  cases wr with
  | insertProcessed m =>
    obtain ⟨x, hx⟩ := Option.isSome_iff_exists.mp h
    unfold Db.processed? at hx
    simp [Write.apply, Db.processed?, List.find?_append, hx]
  | _ => exact h

theorem isSome_processed?_applyAll (ws : List Write) (db : Db) {mid : Uuid} (h : (db.processed? mid).isSome) :
    ((db.applyAll ws).processed? mid).isSome := by
  induction ws generalizing db with
  | nil => exact h
  | cons wr ws ih => exact ih (wr.apply db) (isSome_processed?_apply db wr h)

/-- What a command of `t` may leave in the trace. -/
structure Event.Of (t : Tid) (cmd : Cmd) (e : Event) : Prop where
  actor : e.actor = some t
  publishes : ∀ t' rk m, e = .published t' rk m → cmd = .publish rk m
  rejects : ∀ f : Cmd → Bool, e.rejects t f = true → f cmd = true

theorem Event.Of.quiet {e : Event} (ha : e.actor = some t) (hp : e.publication = false)
    (hr : ∀ f, e.rejects t f = false) (cmd : Cmd) : e.Of t cmd := by
  refine ⟨ha, fun t' rk m he => ?_, fun f hf => ?_⟩
  · rw [he] at hp
    cases hp
  · rw [hr f] at hf
    cases hf

theorem Event.Of.published (t : Tid) (rk : RoutingKey) (m : Message) :
    (Event.published t rk m).Of t (.publish rk m) := by
  refine ⟨rfl, fun t' rk' m' he => ?_, fun f hf => ?_⟩
  · cases he
    rfl
  · cases hf

theorem Event.Of.failed (t : Tid) (cmd : Cmd) : (Event.failed t cmd).Of t cmd :=
  ⟨rfl, fun _ _ _ he => Event.noConfusion he, fun _ hf => (Bool.and_eq_true_iff.mp hf).2⟩

theorem Event.Of.ackLost (t : Tid) (cmd : Cmd) : (Event.ackLost t cmd).Of t cmd :=
  ⟨rfl, fun _ _ _ he => Event.noConfusion he, fun _ hf => (Bool.and_eq_true_iff.mp hf).2⟩

namespace Does

variable {cmd : Cmd}

theorem jobs (h : Does t cmd s s') : s'.jobs = s.jobs := by
  cases h with
  | commit | commitLost => simp only [Shared.log, commit_eq]
  | publish =>
    unfold Shared.publish
    split <;> rfl
  | ack =>
    unfold Shared.ack
    split <;> rfl
  | nack =>
    unfold Shared.nack
    split <;> rfl
  | _ => rfl

theorem events (h : Does t cmd s s') : ∃ es, s'.trace = es ++ s.trace ∧ ∀ e ∈ es, e.Of t cmd := by
  have commit : ∀ ws, ∃ es, (s.commit t ws).trace = es ++ s.trace ∧ ∀ e ∈ es, e.Of t cmd := by
    intro ws
    refine ⟨wroteEvents t s.db ws, by rw [commit_eq], fun e he => ?_⟩
    obtain ⟨wr, _, δ, rfl⟩ := mem_wroteEvents he
    exact .quiet rfl rfl (fun _ => rfl) cmd
  cases h with
  | idle | draw | receive => exact ⟨[], rfl, by simp⟩
  | commit slot ws => exact commit ws
  | commitLost slot ws =>
    obtain ⟨es, he, hes⟩ := commit ws
    refine ⟨.ackLost t (.commitTransaction slot) :: es, ?_, List.forall_mem_cons.mpr ⟨.ackLost t _, hes⟩⟩
    simp only [Shared.log, he, List.cons_append]
  | payLost id pid st =>
    refine ⟨[.ackLost t (.updatePayment id pid st), .wrote t (.payOrder id pid st) _], rfl,
      List.forall_mem_cons.mpr ⟨.ackLost t _, List.forall_mem_singleton.mpr ?_⟩⟩
    exact .quiet rfl rfl (fun _ => rfl) _
  | failed => exact ⟨[.failed t cmd], rfl, List.forall_mem_singleton.mpr (.failed t cmd)⟩
  | pay | send | generate =>
    refine ⟨[_], rfl, List.forall_mem_singleton.mpr ?_⟩
    exact .quiet rfl rfl (fun _ => rfl) _
  | publish rk msg =>
    unfold Shared.publish
    split
    · exact ⟨[], rfl, by simp⟩
    · exact ⟨[.published t rk msg], rfl, List.forall_mem_singleton.mpr (.published t rk msg)⟩
  | ack =>
    unfold Shared.ack
    split
    · refine ⟨[_], rfl, List.forall_mem_singleton.mpr ?_⟩
      exact .quiet rfl rfl (fun _ => rfl) _
    · exact ⟨[], rfl, by simp⟩
  | nack =>
    unfold Shared.nack
    split <;> exact ⟨[], rfl, by simp⟩

theorem trace (h : Does t cmd s s') : ∃ es, s'.trace = es ++ s.trace ∧ ∀ e ∈ es, e.actor = some t := by
  obtain ⟨es, he, hes⟩ := h.events
  exact ⟨es, he, fun e hm => (hes e hm).actor⟩

theorem unpublished (h : Does t cmd s s') (hc : ∀ rk m, cmd ≠ .publish rk m) :
    ∃ es, s'.trace = es ++ s.trace ∧ ∀ e ∈ es, e.publication = false := by
  obtain ⟨es, he, hes⟩ := h.events
  refine ⟨es, he, fun e hm => ?_⟩
  cases e with
  | published t' rk m => exact (hc rk m ((hes _ hm).publishes t' rk m rfl)).elim
  | _ => rfl

/-- The queues are left by all commands but those that publish or put back. -/
theorem queue (h : Does t cmd s s') (hc : ∀ rk m, cmd ≠ .publish rk m) (hn : cmd ≠ .nack) :
    s'.broker.queue = s.broker.queue := by
  cases h with
  | commit | commitLost => simp only [Shared.log, commit_eq]
  | publish rk m => exact (hc rk m rfl).elim
  | ack =>
    unfold Shared.ack
    split <;> rfl
  | nack => exact (hn rfl).elim
  | _ => rfl

theorem channel_ne (h : Does t cmd s s') (hne : u ≠ t) : s'.broker.channel u = s.broker.channel u := by
  cases h with
  | commit | commitLost => simp only [Shared.log, commit_eq]
  | publish =>
    unfold Shared.publish
    split
    · rfl
    · exact congrFun (Broker.publish_channel ..) u
  | ack =>
    unfold Shared.ack
    split
    · exact Function.update_of_ne hne ..
    · rfl
  | nack =>
    unfold Shared.nack
    split
    · simp only [Shared.nacked, Broker.channel_requeue]
      exact Function.update_of_ne hne ..
    · rfl
  | _ => rfl

theorem consumed (h : Does t cmd s s') {mid : Uuid} (hm : (s.db.processed? mid).isSome) :
    (s'.db.processed? mid).isSome := by
  cases h with
  | commit slot ws | commitLost slot ws =>
    simp only [Shared.log, commit_eq]
    exact isSome_processed?_applyAll ws s.db hm
  | pay | payLost => exact isSome_processed?_apply s.db _ hm
  | publish =>
    unfold Shared.publish
    split <;> exact hm
  | ack =>
    unfold Shared.ack
    split <;> exact hm
  | nack =>
    unfold Shared.nack
    split <;> exact hm
  | _ => exact hm

/-- An unacknowledged message leaves the channel as the one it held. -/
theorem channel (h : Does t cmd s s') :
    s'.broker.channel t = s.broker.channel t ∧ (∀ m, .acked t m ∈ s'.trace → .acked t m ∈ s.trace) ∨
      (∃ m, s.broker.channel t = .ready (some m)) ∧ s'.broker.channel t = .ready none := by
  have commit : ∀ (ws : List Write) (m : Message), .acked t m ∈ wroteEvents t s.db ws ++ s.trace →
      .acked t m ∈ s.trace := by
    intro ws m hm
    rcases List.mem_append.mp hm with hm | hm
    · obtain ⟨_, _, _, he⟩ := mem_wroteEvents hm
      cases he
    · exact hm
  cases h with
  | commit slot ws =>
    simp only [commit_eq]
    exact .inl ⟨trivial, commit ws⟩
  | commitLost slot ws =>
    simp only [Shared.log, commit_eq]
    refine .inl ⟨trivial, fun m hm => commit ws m ?_⟩
    simpa using hm
  | publish rk msg =>
    left
    unfold Shared.publish
    split
    · exact ⟨rfl, fun _ hm => hm⟩
    · refine ⟨congrFun (Broker.publish_channel ..) t, fun m hm => ?_⟩
      simpa [Shared.published] using hm
  | ack =>
    unfold Shared.ack
    split
    · rename_i m hm
      exact .inr ⟨⟨m, hm⟩, Function.update_self ..⟩
    · exact .inl ⟨rfl, fun _ hm => hm⟩
  | nack =>
    unfold Shared.nack
    split
    · rename_i m hm
      refine .inr ⟨⟨m, hm⟩, ?_⟩
      simp [Shared.nacked, Broker.channel_requeue]
    · exact .inl ⟨rfl, fun _ hm => hm⟩
  | pay | payLost | send | generate | failed =>
    refine .inl ⟨rfl, fun m hm => ?_⟩
    simpa [Shared.log, Shared.write, Shared.setRpc] using hm
  | _ => exact .inl ⟨rfl, fun _ hm => hm⟩

theorem lost (h : Does t cmd s s') (hlost : s.broker.channel t = .lost) :
    s'.broker.channel t = .lost ∧ ∀ m, .acked t m ∈ s'.trace → .acked t m ∈ s.trace := by
  rcases h.channel with ⟨hc, ha⟩ | ⟨⟨m, hm⟩, _⟩
  · exact ⟨hc.trans hlost, ha⟩
  · rw [hlost] at hm
    cases hm

theorem later (h : Does t cmd s s') : Later s s' where
  jobs u job hj := by rw [h.jobs]; exact hj
  trace e he := by
    obtain ⟨es, htr, _⟩ := h.trace
    rw [htr]
    exact List.mem_append_right _ he
  lost u _ hlost := by
    by_cases hu : u = t
    · subst hu
      exact h.lost hlost
    · refine ⟨(h.channel_ne hu).trans hlost, fun m hm => ?_⟩
      obtain ⟨es, htr, hes⟩ := h.trace
      rw [htr] at hm
      rcases List.mem_append.mp hm with hm | hm
      · exact (hu (Option.some.inj (hes _ hm))).elim
      · exact hm

theorem apart {w w' : World} (h : Does u cmd w.toShared w'.toShared) (hs : Stays t w w') (hne : t ≠ u) :
    Apart t w w' where
  sess := congrArg Local.sess hs.loc
  job := congrArg Local.job hs.loc
  channel := .inl (h.channel_ne hne)
  events e he := by
    obtain ⟨es, htr, hes⟩ := h.trace
    rw [htr, List.mem_append]
    refine ⟨fun hm => hm.resolve_left fun hm => ?_, .inr⟩
    exact hne (Option.some.inj (he.symm.trans (hes e hm)))
  consumed _ hm := h.consumed hm

end Does

/-! ## The protocol -/

/-- The commands of a request. -/
def Cmd.requests : Cmd → Bool
  | .ack | .nack | .publish .retry _ | .publish .dlq _ => false
  | _ => true

/-- A delivery publishes once, what it has read, and puts its message back when
something has gone wrong that `handle` does not cover. -/
def Delivers (cfg : Config) (t : Tid) (m : Message) (s : Shared) : Cmd → Prop
  | .publish rk m' => s.out t = false ∧ ∃ payload, m.content = .value payload ∧ Republishes cfg payload rk m'
  | .nack => Covered s t m → ¬m.converts
  | _ => True

def Permitted (cfg : Config) (t : Tid) (cmd : Cmd) (w : World) : Prop :=
  (∃ req, w.jobs t = some (.create req)) ∧ cmd.requests = true ∨
    ∃ m, w.jobs t = some (.deliver m) ∧ Delivers cfg t m w.toShared cmd

structure MailInv (cfg : Config) (msgs : List Message) (w : World) : Prop where
  logs : ∀ t, LogLocked t w
  unused : ∀ t, w.jobs t = none → ∀ e ∈ w.trace, e.actor ≠ some t
  held : ∀ t m, w.broker.channel t = .ready (some m) →
    w.jobs t = some (.deliver m) ∧ ∀ m', .acked t m' ∉ w.trace
  balanced : AllCovered cfg w.toShared → ∀ k, Balanced cfg msgs k w.toShared

theorem Permitted.job {cmd : Cmd} (h : Permitted cfg t cmd w) : w.jobs t ≠ none := by
  rcases h with ⟨⟨req, hj⟩, _⟩ | ⟨m, hj, _⟩
  · simp [hj]
  · simp [hj]

/-! ### Commands -/

theorem MailInv.balanced_exec (h : MailInv cfg msgs w) {cmd : Cmd} (hp : Permitted cfg t cmd w)
    (hd : Does t cmd w.toShared s') (hall : AllCovered cfg s') (k : Content) : Balanced cfg msgs k s' := by
  have hall₀ : AllCovered cfg w.toShared := hall.before hd.later
  have hb := h.balanced hall₀ k
  have hjobs : ∀ u m, s'.jobs u = some (.deliver m) ↔ w.jobs u = some (.deliver m) := by
    intro u m
    rw [hd.jobs]
  by_cases hpublish : ∃ rk msg, cmd = .publish rk msg
  · obtain ⟨rk, msg, rfl⟩ := hpublish
    cases hd with
    | idle => exact hb
    | draw => exact hb.frame hjobs rfl ⟨[], rfl, by simp⟩
    | failed => exact hb.frame hjobs rfl ⟨[_], rfl, by simp [Event.publication]⟩
    | publish =>
      unfold Shared.publish
      split
      · exact hb
      · rcases hp with ⟨⟨req, hj⟩, hreq⟩ | ⟨m, hj, hout, payload, hm, hr⟩
        · cases rk with
          | process => exact hb.sent (by simp [hj]) msg
          | retry | dlq => cases hreq
        · exact hb.republish hj hout hm hr (hall₀ t m hj).2.2
  · have hsilent : ∀ rk msg, cmd ≠ .publish rk msg := fun rk msg he => hpublish ⟨rk, msg, he⟩
    refine hb.frame hjobs (hd.queue hsilent ?_) (hd.unpublished hsilent)
    rintro rfl
    rcases hp with ⟨_, hreq⟩ | ⟨m, hj, hc⟩
    · cases hreq
    · exact hc (hall₀ t m hj).1 (hall₀ t m hj).2.1

theorem MailInv.exec (h : MailInv cfg msgs w) {cmd : Cmd} (hp : Permitted cfg t cmd w) {ch : Choice}
    {r : Except Err cmd.Res} (hx : exec cfg t cmd ch w = some (r, w')) :
    MailInv cfg msgs w' ∧ ∀ t', t' ≠ t → Apart t' w w' := by
  have hd := Does.of_exec hx
  have hapart : ∀ t', t' ≠ t → Apart t' w w' := fun t' ht' => hd.apart (exec_stays ht' (h.logs t) hx) ht'
  refine ⟨⟨fun u => ?_, fun u hj e he => ?_, fun u m hm => ?_, h.balanced_exec hp hd⟩, hapart⟩
  · by_cases hu : u = t
    · subst hu
      exact exec_logLocked (h.logs u) hx
    · exact (h.logs u).of_stays (exec_stays hu (h.logs t) hx)
  · have hne : u ≠ t := by
      intro hu
      subst hu
      rw [hd.jobs] at hj
      exact hp.job hj
    intro ha
    exact h.unused u (by rw [← hd.jobs]; exact hj) e (((hapart u hne).events e ha).mp he) ha
  · rw [hd.jobs]
    by_cases hu : u = t
    · subst hu
      rcases hd.channel with ⟨hc, hacked⟩ | ⟨_, hc⟩
      · obtain ⟨hj, hnone⟩ := h.held u m (hc.symm.trans hm)
        exact ⟨hj, fun m' hm' => hnone m' (hacked m' hm')⟩
      · rw [hc] at hm
        cases hm
    · obtain ⟨hj, hnone⟩ := h.held u m ((hd.channel_ne hu).symm.trans hm)
      exact ⟨hj, fun m' hm' => hnone m' (((hapart u hu).events _ rfl).mp hm')⟩

/-! ### The environment and the arrivals -/

theorem later_loseChannel (u : Tid) (s : Shared) : Later s (s.loseChannel u) where
  jobs _ _ h := h
  trace _ h := h
  lost t _ hlost := by
    refine ⟨?_, fun _ h => h⟩
    simp only [Shared.loseChannel, Broker.channel_requeue]
    by_cases ht : t = u
    · subst ht
      exact Function.update_self ..
    · rw [Function.update_of_ne ht]
      exact hlost

theorem MailInv.balanced_loseChannel (h : MailInv cfg msgs w) (u : Tid)
    (hall : AllCovered cfg (w.toShared.loseChannel u)) (k : Content) :
    Balanced cfg msgs k (w.toShared.loseChannel u) := by
  have hb := h.balanced (hall.before (later_loseChannel u _)) k
  cases hc : (w.broker.channel u).unacked with
  | none =>
    refine hb.frame (fun _ _ => Iff.rfl) ?_ ⟨[], rfl, by simp⟩
    simp [Shared.loseChannel, Broker.requeue, hc, Broker.setChannel]
  | some m =>
    -- the broker delivers the message again, but the delivery is not covered
    have hm : w.broker.channel u = .ready (some m) := by
      cases hch : w.broker.channel u with
      | ready x =>
        rw [hch] at hc
        simp only [Channel.unacked] at hc
        rw [hc]
      | lost =>
        rw [hch] at hc
        cases hc
    obtain ⟨hj, hnone⟩ := h.held u m hm
    have hlost : (w.toShared.loseChannel u).broker.channel u = .lost := by
      simp [Shared.loseChannel, Broker.channel_requeue]
    exact (hnone m ((hall u m hj).1.kept hlost)).elim

/-- What a step by nobody leaves of the broker, but for a lost channel. -/
theorem MailInv.of_quiet (h : MailInv cfg msgs w) (hb : s'.broker.channel = w.broker.channel)
    (hj : s'.jobs = w.jobs)
    (hdb : s'.db = w.db) (htr : ∃ es, s'.trace = es ++ w.trace ∧ ∀ e ∈ es, e.actor = none)
    (hbal : (∀ k, Balanced cfg msgs k w.toShared) → ∀ k, Balanced cfg msgs k s') :
    MailInv cfg msgs { w with toShared := s' } ∧ ∀ t, Apart t w { w with toShared := s' } := by
  obtain ⟨es, he, hes⟩ := htr
  have hevents : ∀ {t : Tid} (e : Event), e.actor = some t → (e ∈ s'.trace ↔ e ∈ w.trace) := by
    intro t e ha
    rw [he, List.mem_append]
    refine ⟨fun hm => hm.resolve_left fun hm => ?_, .inr⟩
    rw [hes e hm] at ha
    cases ha
  have hlater : Later w.toShared s' := by
    refine ⟨fun t job hjob => by rw [hj]; exact hjob, fun e hm => ?_, fun t _ hlost => ?_⟩
    · rw [he]
      exact List.mem_append_right _ hm
    · exact ⟨by rw [hb]; exact hlost, fun m hm => (hevents _ rfl).mp hm⟩
  refine ⟨⟨h.logs, fun t hjob e hm ha => ?_, fun t m hm => ?_, fun hall => hbal (h.balanced (hall.before hlater))⟩,
    fun t => ⟨rfl, congrFun hj t, .inl (congrFun hb t), hevents, fun mid hm => ?_⟩⟩
  · exact h.unused t ((congrFun hj t).symm.trans hjob) e ((hevents e ha).mp hm) ha
  · obtain ⟨hd, hnone⟩ := h.held t m ((congrFun hb t).symm.trans hm)
    exact ⟨(congrFun hj t).trans hd, fun m' hm' => hnone m' ((hevents _ rfl).mp hm')⟩
  · show (s'.db.processed? mid).isSome
    rw [hdb]
    exact hm

theorem MailInv.loseChannel (h : MailInv cfg msgs w) (u : Tid) :
    MailInv cfg msgs { w with toShared := w.toShared.loseChannel u } ∧
      ∀ t, Apart t w { w with toShared := w.toShared.loseChannel u } := by
  have hch : (w.toShared.loseChannel u).broker.channel = Function.update w.broker.channel u .lost := by
    simp only [Shared.loseChannel, Broker.channel_requeue]
  refine ⟨⟨h.logs, h.unused, fun t m hm => ?_, h.balanced_loseChannel u⟩,
    fun t => ⟨rfl, rfl, ?_, fun _ _ => Iff.rfl, fun _ h => h⟩⟩
  · rw [hch] at hm
    by_cases ht : t = u
    · subst ht
      simp at hm
    · rw [Function.update_of_ne ht] at hm
      exact h.held t m hm
  · rw [hch]
    by_cases ht : t = u
    · subst ht
      exact .inr (Function.update_self ..)
    · exact .inl (Function.update_of_ne ht ..)

/-- The environment leaves what is queued but for the expiry of a retry and the
loss of a channel. -/
theorem env_cases {act : EnvAct} (h : s.env cfg act = some s') :
    (s'.broker = s.broker ∧ s'.jobs = s.jobs ∧ s'.db = s.db ∧
      ∃ es, s'.trace = es ++ s.trace ∧ ∀ e ∈ es, e.actor = none ∧ e.publication = false) ∨
    (∃ i b, act = .expire i ∧ s.broker.expire i = some b ∧ s' = { s with broker := b }) ∨
    ∃ t, act = .loseChannel t ∧ s' = s.loseChannel t := by
  unfold Shared.env at h
  split at h
  · split at h
    · split at h
      · cases h
        exact .inl ⟨rfl, rfl, rfl, [_], rfl, by simp [Event.actor, Event.publication]⟩
      · cases h
    · cases h
  · split at h
    · split at h
      · cases h
        exact .inl ⟨rfl, rfl, rfl, [], rfl, by simp⟩
      · cases h
    · cases h
  · split at h
    · cases h
      exact .inl ⟨rfl, rfl, rfl, [], rfl, by simp⟩
    · cases h
  · split at h
    · cases h
      exact .inl ⟨rfl, rfl, rfl, [], rfl, by simp⟩
    · cases h
  · obtain ⟨b, hb, rfl⟩ := Option.map_eq_some_iff.mp h
    exact .inr (.inl ⟨_, b, rfl, hb, rfl⟩)
  · cases h
    exact .inr (.inr ⟨_, rfl, rfl⟩)
  · cases h
    exact .inl ⟨rfl, rfl, rfl, [], rfl, by simp⟩

theorem MailInv.env (h : MailInv cfg msgs w) {act : EnvAct} (hx : w.env cfg act = some w') :
    MailInv cfg msgs w' ∧ ∀ t, Apart t w w' := by
  obtain ⟨s', hs, rfl⟩ := Option.map_eq_some_iff.mp hx
  rcases env_cases hs with ⟨hb, hj, hdb, es, he, hes⟩ | ⟨i, b, rfl, hb, rfl⟩ | ⟨t, rfl, rfl⟩
  · refine h.of_quiet (congrArg Broker.channel hb) hj hdb ⟨es, he, fun e hm => (hes e hm).1⟩ fun hbal k => ?_
    exact (hbal k).frame (by simp [hj]) (congrArg Broker.queue hb) ⟨es, he, fun e hm => (hes e hm).2⟩
  · refine h.of_quiet ?_ rfl rfl ⟨[], rfl, by simp⟩ fun hbal k => (hbal k).expire hb
    obtain ⟨⟨m, b'⟩, ht, rfl⟩ := Option.map_eq_some_iff.mp hb
    rw [Broker.publish_channel, (Broker.take_some ht).2.2.2]
  · exact h.loseChannel t

theorem MailInv.kill (h : MailInv cfg msgs w) (u : Tid) :
    MailInv cfg msgs (w.kill u) ∧ ∀ t, t ≠ u → Apart t w (w.kill u) := by
  obtain ⟨hi, hapart⟩ := h.loseChannel u
  refine ⟨⟨fun t => ?_, hi.unused, hi.held, hi.balanced⟩, fun t ht => ?_⟩
  · by_cases ht : t = u
    · subst ht
      exact .kill w
    · exact (h.logs t).of_stays (.kill ht w)
  · exact ⟨congrArg Local.sess (Stays.kill ht w).loc, (hapart t).job, (hapart t).channel, (hapart t).events,
      (hapart t).consumed⟩

theorem MailInv.start (s' : Shared) (h : MailInv cfg msgs w) (hj : w.jobs t = none) {job : Job}
    (hjobs : s'.jobs = Function.update w.jobs t (some job)) (htr : s'.trace = w.trace) (hdb : s'.db = w.db)
    (hch : ∀ u, u ≠ t → s'.broker.channel u = w.broker.channel u)
    (hown : ∀ m, s'.broker.channel t = .ready (some m) → job = .deliver m)
    (hbal : (∀ k, Balanced cfg msgs k w.toShared) → ∀ k, Balanced cfg msgs k s') :
    MailInv cfg msgs { w with toShared := s' } ∧ ∀ t', t' ≠ t → Apart t' w { w with toShared := s' } := by
  have hother : ∀ u, u ≠ t → s'.jobs u = w.jobs u := fun u hu => by rw [hjobs, Function.update_of_ne hu]
  have hself : s'.jobs t = some job := by rw [hjobs, Function.update_self]
  have hlater : Later w.toShared s' := by
    refine ⟨fun u job' hu => ?_, fun e he => by rw [htr]; exact he, fun u hu hlost => ?_⟩
    · have hne : u ≠ t := fun he => by simp [he, hj] at hu
      rw [hother u hne]
      exact hu
    · have hne : u ≠ t := fun he => hu (he ▸ hj)
      exact ⟨(hch u hne).trans hlost, fun m hm => by rwa [htr] at hm⟩
  refine ⟨⟨h.logs, fun u hu e he => ?_, fun u m hm => ?_, fun hall => hbal (h.balanced (hall.before hlater))⟩,
    fun u hu => ⟨rfl, hother u hu, .inl (hch u hu), fun e _ => ?_, fun mid hm => ?_⟩⟩
  · have hne : u ≠ t := by
      intro hu'
      subst hu'
      rw [show s'.jobs u = none from hu] at hself
      cases hself
    refine h.unused u ((hother u hne).symm.trans hu) e ?_
    rw [← htr]
    exact he
  · show s'.jobs u = some (.deliver m) ∧ ∀ m', .acked u m' ∉ s'.trace
    rw [htr]
    by_cases hu : u = t
    · subst hu
      rw [hself, hown m hm]
      exact ⟨rfl, fun m' hm' => h.unused u hj _ hm' rfl⟩
    · obtain ⟨hd, hnone⟩ := h.held u m ((hch u hu).symm.trans hm)
      exact ⟨(hother u hu).trans hd, hnone⟩
  · show e ∈ s'.trace ↔ e ∈ w.trace
    rw [htr]
  · show (s'.db.processed? mid).isSome
    rw [hdb]
    exact hm

theorem MailInv.out_unused (h : MailInv cfg msgs w) (hj : w.jobs t = none) : w.toShared.out t = false := by
  unfold Shared.out
  rw [List.any_eq_false]
  intro e he
  have hne := h.unused t hj e he
  cases e with
  | published t' rk m =>
    have ht' : t' ≠ t := fun h => hne (congrArg some h)
    simp [Event.publishedBy, ht']
  | _ => simp [Event.publishedBy]

/-- What a fresh thread finds. -/
def Begun (cfg : Config) (t : Tid) (p : Api Reply) (w : World) : Prop :=
  (∃ req, p = requestThread cfg req ∧ w.jobs t = some (.create req)) ∨
    ∃ m, p = deliveryThread cfg m ∧ w.jobs t = some (.deliver m) ∧ w.broker.channel t = .ready (some m) ∧
      ∀ e ∈ w.trace, e.actor ≠ some t

theorem MailInv.arrive (h : MailInv cfg msgs w) {arr : Arrival} {p : Api Reply}
    (hx : w.arrive cfg t arr = some (p, w')) :
    MailInv cfg msgs w' ∧ (∀ t', t' ≠ t → Apart t' w w') ∧ Begun cfg t p w' := by
  unfold World.arrive at hx
  split at hx
  · cases hx
  · rename_i hj
    have hnone := h.unused t hj
    split at hx
    · rename_i req
      cases hx
      have hstart := h.start (w.toShared.start t (.create req)) hj rfl rfl rfl (fun _ _ => rfl)
        (fun m hm => ?_) fun hbal k => ?_
      · exact ⟨hstart.1, hstart.2, .inl ⟨req, rfl, Function.update_self ..⟩⟩
      · have hd := (h.held t m hm).1
        rw [hj] at hd
        cases hd
      · refine (hbal k).frame (fun u m => ?_) rfl ⟨[], rfl, by simp⟩
        by_cases hu : u = t
        · subst hu
          simp [Shared.start, hj]
        · simp [Shared.start, hu]
    · rename_i i
      obtain ⟨ms, hd, he⟩ := Option.map_eq_some_iff.mp hx
      cases he
      obtain ⟨⟨m, b⟩, ht, rfl⟩ := Option.map_eq_some_iff.mp hd
      have hch : b.channel = w.broker.channel := (Broker.take_some ht).2.2.2
      have hout : w.toShared.out t = false := h.out_unused hj
      have hstart := h.start
        ({ w.toShared with broker := b.setChannel t (.ready (some m)) }.start t (.deliver m)) hj rfl rfl rfl
        (fun u hu => ?_) (fun m' hm' => ?_) fun hbal k => (hbal k).deliver hj hout ht _
      · refine ⟨hstart.1, hstart.2, .inr ⟨m, rfl, Function.update_self .., Function.update_self .., hnone⟩⟩
      · simp [Shared.start, Broker.setChannel, hu, hch]
      · simp only [Shared.start, Broker.setChannel, Function.update_self, Channel.ready.injEq,
          Option.some.injEq] at hm'
        rw [hm']

end OrdersBackend
