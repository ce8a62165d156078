import OrdersBackend.SagaRuns

/-!
# Effects

What each event of the trace leaves for good, and which effects a thread or an
order can have only once.
-/

namespace OrdersBackend

open Conc

variable {cfg : Config} {c : Catalogue} {a : Option Tid} {s s' : Shared}

/-! ## What events leave -/

def Event.leaves (cfg : Config) (s : Shared) : Event → Prop
  | .wrote t (.stock _ _) _ => (s.phase t).orderId?.isSome
  | .wrote t (.insertOrder o) _ => (s.phase t).orderId? = some o.id
  | .wrote t (.insertProcessed m) _ => s.phase t = .consumed ∧ m ∈ s.db.processedMessages
  | .wrote t (.processOrder _ _) _ => s.phase t = .consumed
  | .sent t req => (s.phase t).orderId? = some req.orderId
  | .failed t (.sendAuthorize _) => (s.phase t).orderId?.isSome
  | .published t .process msg =>
    ∃ oid mid createdAt, s.phase t = .published oid mid ∧ msg = processMessage mid oid createdAt
  | .published t rk msg' => s.phase t = .republished ∧ ∃ msg payload, s.jobs t = some (.deliver msg) ∧
      msg.content = .value payload ∧ Republishes cfg payload rk msg'
  | .acked t msg => ∃ payload, s.jobs t = some (.deliver msg) ∧ msg.content = .value payload ∧ Ackable s t payload
  | _ => True

def Phase.final : Phase → Bool
  | .released _ | .published _ _ | .consumed | .republished => true
  | _ => false

theorem Phase.Move.final {p p' : Phase} (h : Move p p') (hp : p.final = true) : p' = p := by
  cases h <;> first | rfl | cases hp

theorem Step.final (h : Step cfg a s s') {t : Tid} {p : Phase} (hp : s.phase t = p) (hf : p.final = true) :
    s'.phase t = p := by
  by_cases ht : a = some t
  · subst ht
    rw [h.phase_self.final (by rw [hp]; exact hf), hp]
  · rw [h.phase_other ht, hp]

theorem SagaInv.mem_processedMessages (hI : SagaInv c s) (h : Step cfg a s s') {m : ProcessedMessage}
    (hm : m ∈ s.db.processedMessages) : m ∈ s'.db.processedMessages := by
  rcases h.processedMessages hI.tables with he | ⟨_, _, _, _, _, _, _, _, _, he⟩
  · rw [he]; exact hm
  · rw [he]; exact List.mem_append_left _ hm

theorem SagaInv.ackable (hI : SagaInv c s) (h : Step cfg a s s') {t : Tid} {payload : OrdersProcessMessage}
    (hA : Ackable s t payload) : Ackable s' t payload := by
  rcases hA with hp | ⟨mid, hm, hs⟩
  · exact .inl (h.final hp rfl)
  · exact .inr ⟨mid, hm, hI.isSome_processed? h hs⟩

theorem SagaInv.leaves_step (hI : SagaInv c s) (h : Step cfg a s s') {e : Event} (he : e.leaves cfg s) :
    e.leaves cfg s' := by
  have some_ : ∀ {t : Tid}, (s.phase t).orderId?.isSome → (s'.phase t).orderId?.isSome := by
    intro t ht
    obtain ⟨id, hid⟩ := Option.isSome_iff_exists.mp ht
    rw [h.orderId? hid]; rfl
  cases e with
  | wrote t wr δ =>
    cases wr with
    | stock => exact some_ he
    | insertOrder o => exact h.orderId? he
    | insertProcessed m => exact ⟨h.final he.1 rfl, hI.mem_processedMessages h he.2⟩
    | processOrder => exact h.final he rfl
    | _ => trivial
  | sent t req => exact h.orderId? he
  | published t rk msg =>
    cases rk with
    | process =>
      obtain ⟨oid, mid, createdAt, hp, hm⟩ := he
      exact ⟨oid, mid, createdAt, h.final hp rfl, hm⟩
    | retry | dlq =>
      obtain ⟨hp, msg', payload, hj, hr⟩ := he
      exact ⟨h.final hp rfl, msg', payload, h.jobs_mono hj, hr⟩
  | acked t msg =>
    obtain ⟨payload, hj, hm, hA⟩ := he
    exact ⟨payload, h.jobs_mono hj, hm, hI.ackable h hA⟩
  | failed t cmd =>
    cases cmd with
    | sendAuthorize => exact some_ he
    | _ => trivial
  | _ => trivial

/-- The events of a step leave what they stand for. -/
theorem SagaInv.leaves_new (hI : SagaInv c s) (h : Step cfg a s s') :
    ∃ es, s'.trace = es ++ s.trace ∧ ∀ e ∈ es, e.leaves cfg s' := by
  have nothing : ∀ {e : Event}, e ∈ ([] : List Event) → e.leaves cfg s' := fun h => by cases h
  have only : ∀ {e e' : Event}, e'.leaves cfg s' → e ∈ [e'] → e.leaves cfg s' :=
    fun h he => by rw [List.mem_singleton.mp he]; exact h
  cases h with
  | execute hs hr => exact ⟨[_], rfl, fun e => only trivial⟩
  | answer | loseCall | expire | loseChannel | tick | arrive | deliver | skipUuid | receive | nack | lose =>
    exact ⟨[], rfl, fun e => nothing⟩
  | @failed t _ cmd hc =>
    refine ⟨[.failed t cmd], rfl, fun e => only ?_⟩
    cases cmd <;> trivial
  | ackLost t _ cmd => exact ⟨[.ackLost t cmd], rfl, fun e => only trivial⟩
  | @ack t _ msg payload hc hm hA =>
    have hs : Step cfg (some t) s (s.acked t msg) := .ack hc hm hA
    exact ⟨[.acked t msg], rfl, fun e => only ⟨payload, hI.messages.held t msg hc, hm, hI.ackable hs hA⟩⟩
  | @reserve t _ req products plan order items hr =>
    refine ⟨_, by rw [commit_eq], fun e he => ?_⟩
    obtain ⟨wr, hwr, δ, rfl⟩ := mem_wroteEvents he
    have hp := phase_reserve t s products plan order items
    rcases mem_reserveLog hwr with ⟨_, _, rfl⟩ | rfl | ⟨item, rfl⟩
    · show ((Shared.phase _ t).orderId?).isSome
      rw [hp]; rfl
    · show (Shared.phase _ t).orderId? = some order.id
      rw [hp]; rfl
    · trivial
  | @request t _ req hr =>
    refine ⟨[.sent t req], rfl, fun e => only ?_⟩
    show (Shared.phase _ t).orderId? = some req.orderId
    rw [phase_request]; rfl
  | @reject t _ id cmd hc hr _ =>
    refine ⟨[.failed t cmd], rfl, fun e => only ?_⟩
    cases cmd <;> first | trivial | skip
    show ((Shared.phase _ t).orderId?).isSome
    rw [phase_reject hc hr]; rfl
  | @release t _ id hp =>
    refine ⟨_, by rw [commit_eq], fun e he => ?_⟩
    obtain ⟨wr, hwr, δ, rfl⟩ := mem_wroteEvents he
    rcases mem_releaseLog hwr with rfl | ⟨_, _, rfl⟩ <;> trivial
  | pay => exact ⟨[_], rfl, fun e => only trivial⟩
  | identify => exact ⟨[_], rfl, fun e => only trivial⟩
  | @publish t _ id mid createdAt hp =>
    exact ⟨[.published t .process (processMessage mid id createdAt)], rfl,
      fun e => only ⟨id, mid, createdAt, phase_publish _ hp, rfl⟩⟩
  | @process t _ payload mid oid order processedAt hr =>
    refine ⟨_, by rw [commit_eq], fun e he => ?_⟩
    obtain ⟨wr, hwr, δ, rfl⟩ := mem_wroteEvents he
    have hp := phase_process t s mid oid order processedAt
    rcases mem_processLog hwr with rfl | rfl
    · refine ⟨hp, ?_⟩
      rw [commit_eq]
      simp only [applyAll_processLog]
      split <;> simp [Db.updateOrder]
    · exact hp
  | @republish t _ msg payload rk msg' hj hm hp hr =>
    refine ⟨[.published t rk msg'], rfl, fun e => only ?_⟩
    have hl : (s.published t rk msg').phase t = .republished ∧ ∃ msg payload,
        (s.published t rk msg').jobs t = some (.deliver msg) ∧ msg.content = .value payload ∧
          Republishes cfg payload rk msg' := ⟨phase_republish hr, msg, payload, hj, hm, hr⟩
    cases hr with
    | retry | dlq => exact hl

theorem Saga.leaves (h : Saga cfg c s) : ∀ e ∈ s.trace, e.leaves cfg s := by
  refine (Runs.invariant (I := fun s => SagaInv c s ∧ ∀ e ∈ s.trace, e.leaves cfg s) ?_ h ⟨.initial c, ?_⟩).2
  · intro _ s s' _ hI hs
    refine ⟨hI.1.step hs, fun e he => ?_⟩
    obtain ⟨es, htr, hes⟩ := hI.1.leaves_new hs
    rw [htr, List.mem_append] at he
    rcases he with he | he
    · exact hes e he
    · exact hI.1.leaves_step hs (hI.2 e he)
  · intro e he
    exact absurd he List.not_mem_nil

theorem phaseIn_republished {t : Tid} {trace : List Event} (h : phaseIn t trace = .republished) :
    ∃ rk msg, rk ≠ .process ∧ Event.published t rk msg ∈ trace := by
  induction trace with
  | nil => cases h
  | cons e trace ih =>
    have later : phaseIn t trace = .republished → ∃ rk msg, rk ≠ .process ∧
      Event.published t rk msg ∈ e :: trace := by
      intro h
      obtain ⟨rk, msg, hrk, hm⟩ := ih h
      exact ⟨rk, msg, hrk, List.mem_cons_of_mem _ hm⟩
    rw [phase_cons] at h
    split at h
    · rename_i ha
      generalize phaseIn t trace = p at h later
      cases e with
      | published t' rk msg =>
        obtain rfl : t' = t := by simpa [Event.actor] using ha
        cases rk with
        | process => cases p <;> first | exact later rfl | cases h
        | retry => exact ⟨.retry, msg, by simp, List.mem_cons_self ..⟩
        | dlq => exact ⟨.dlq, msg, by simp, List.mem_cons_self ..⟩
      | wrote t' wr δ => cases wr <;> first | exact later h | cases h
      | failed t' cmd => cases cmd <;> first | exact later h | (cases p <;> first | exact later rfl | cases h)
      | generated => cases p <;> first | exact later rfl | cases h
      | sent => cases h
      | executed => exact later h
      | acked => exact later h
      | ackLost => exact later h
    · exact later h

/-! ## What happens once -/

theorem countP_wroteEvents (t : Tid) {f : Event → Bool} {g : Write → Bool} (hfg : ∀ wr δ, f (.wrote t wr δ) = g wr)
    (db : Db) (ws : List Write) : (wroteEvents t db ws).countP f = ws.countP g := by
  induction ws generalizing db with
  | nil => rfl
  | cons wr ws ih =>
    rw [wroteEvents, List.countP_append, ih, List.countP_singleton, hfg, List.countP_cons]

theorem countP_wroteEvents_zero (t : Tid) {f : Event → Bool} (db : Db) {ws : List Write}
    (h : ∀ wr ∈ ws, ∀ δ, f (.wrote t wr δ) = false) : (wroteEvents t db ws).countP f = 0 := by
  refine List.countP_eq_zero.mpr fun e he => ?_
  obtain ⟨wr, hwr, δ, rfl⟩ := mem_wroteEvents he
  rw [h wr hwr δ]
  exact nofun

/-- An effect of a thread that its phase shows for good happens once. -/
theorem Saga.once {t : Tid} {f : Event → Bool} {D : Phase → Prop} (hf : ∀ e, f e = true → e.actor = some t)
    (hD : ∀ p p' : Phase, p.Move p' → D p → D p')
    (hturn : ∀ p es p', Turn cfg t p es p' → es.countP f = 0 ∨ es.countP f = 1 ∧ ¬ D p ∧ D p')
    (h : Saga cfg c s) : s.trace.countP f ≤ 1 := by
  refine (Runs.at_most_once (I := fun _ => True) (D := fun s => D (s.phase t)) Shared.trace
    (fun _ _ _ _ _ _ => trivial) ?_ ?_ h trivial rfl).1
  · intro a s s' _ _ hs hd
    by_cases ha : a = some t
    · subst ha
      exact hD _ _ hs.phase_self hd
    · rw [hs.phase_other ha]; exact hd
  · intro a s s' _ _ hs
    by_cases ha : a = some t
    · subst ha
      obtain ⟨es, he, ht⟩ := hs.turn
      exact ⟨es, he, hturn _ _ _ ht⟩
    · obtain ⟨es, he, hes⟩ := hs.trace
      refine ⟨es, he, .inl (List.countP_eq_zero.mpr fun e hm hfe => ha ?_)⟩
      rw [← hes e hm, hf e hfe]

end OrdersBackend
