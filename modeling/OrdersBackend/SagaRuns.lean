import OrdersBackend.SagaInv

/-!
# The states of the saga

A step keeps the messages genuine and the dedup rows truthful, so all the
invariants hold in every state of the saga, and what a run leaves of an
earlier state follows.
-/

namespace OrdersBackend

open Conc

variable {cfg : Config} {c : Catalogue} {a : Option Tid} {s s' : Shared}

/-! ## Messages -/

theorem Phase.Move.published {p p' : Phase} (h : Move p p') {oid mid : Uuid} (hp : p = .published oid mid) :
    p' = .published oid mid := by
  subst hp
  cases h
  rfl

theorem Step.published (h : Step cfg a s s') {t : Tid} {oid mid : Uuid} (hp : s.phase t = .published oid mid) :
    s'.phase t = .published oid mid := by
  by_cases ht : a = some t
  · subst ht
    exact h.phase_self.published hp
  · rw [h.phase_other ht]; exact hp

theorem Shared.Genuine.step {m : Message} (hm : s.Genuine m) (h : Step cfg a s s') : s'.Genuine m := by
  obtain ⟨t, oid, mid, hp, hc⟩ := hm
  exact ⟨t, oid, mid, h.published hp, hc⟩

theorem Republishes.isCopy {payload : OrdersProcessMessage} {rk : RoutingKey} {m m' : Message}
    (h : Republishes cfg payload rk m') (hm : m.content = .value payload) {mid oid : Uuid}
    (hc : m.isCopy mid oid) : m'.isCopy mid oid := by
  obtain ⟨payload', hc', hmid, hoid⟩ := hc
  rw [hm] at hc'
  cases hc'
  cases h <;> exact ⟨_, rfl, hmid, hoid⟩

theorem Broker.mem_publish {rk : RoutingKey} {m m' : Message} {b : Broker} {q : Queue}
    (h : m' ∈ (b.publish rk m).queue q) : m' ∈ b.queue q ∨ m' = m := by
  rw [publish_queue] at h
  split at h
  · simpa using h
  · exact .inl h

theorem Broker.take_perm {q : Queue} {i : Nat} {m : Message} {b b' : Broker} (h : b.take q i = some (m, b')) :
    (b.queue q).Perm (m :: b'.queue q) ∧ (∀ q', q' ≠ q → b'.queue q' = b.queue q') ∧ b'.channel = b.channel := by
  unfold take at h
  split at h
  · cases h
  · rename_i m₁ hm
    cases h
    obtain ⟨hi, rfl⟩ := List.getElem?_eq_some_iff.mp hm
    refine ⟨?_, fun q' hq => Function.update_of_ne hq .., rfl⟩
    simp only [Function.update_self]
    exact (List.getElem_cons_eraseIdx_perm hi).symm

theorem Broker.take_some {q : Queue} {i : Nat} {m : Message} {b b' : Broker} (h : b.take q i = some (m, b')) :
    m ∈ b.queue q ∧ (∀ q', ∀ m' ∈ b'.queue q', m' ∈ b.queue q') ∧
      (∀ q', ∀ m' ∈ b.queue q', m' = m ∨ m' ∈ b'.queue q') ∧ b'.channel = b.channel := by
  obtain ⟨hperm, hrest, hch⟩ := take_perm h
  refine ⟨hperm.symm.subset (List.mem_cons_self ..), fun q' m' h' => ?_, fun q' m' h' => ?_, hch⟩
  · by_cases hq : q' = q
    · subst hq
      exact hperm.symm.subset (List.mem_cons_of_mem m h')
    · rw [← hrest q' hq]
      exact h'
  · by_cases hq : q' = q
    · subst hq
      exact List.mem_cons.mp (hperm.subset h')
    · rw [hrest q' hq]
      exact .inr h'

theorem Broker.mem_requeue {t : Tid} {ch : Channel} {b : Broker} {q : Queue} {m : Message}
    (h : m ∈ (b.requeue t ch).queue q) : m ∈ b.queue q ∨ (b.channel t).unacked = some m := by
  unfold requeue at h
  split at h
  · exact .inl h
  · rename_i m₁ hm
    by_cases hq : q = .process
    · subst hq
      simp only [setChannel, push, Function.update_self, List.mem_append, List.mem_singleton] at h
      rcases h with h | h
      · exact .inl h
      · exact .inr (by rw [hm, h])
    · simp only [setChannel, push, Function.update_of_ne hq] at h
      exact .inl h

theorem Broker.channel_requeue (t : Tid) (ch : Channel) (b : Broker) :
    (b.requeue t ch).channel = Function.update b.channel t ch := by
  unfold requeue
  split <;> rfl

theorem Channel.unacked_eq_some {ch : Channel} {m : Message} (h : ch.unacked = some m) : ch = .ready (some m) := by
  cases ch with
  | ready m' => exact congrArg Channel.ready h
  | lost => cases h

theorem Step.messageId? (h : Step cfg a s s') {t : Tid} {mid : Uuid} (hm : (s'.phase t).messageId? = some mid) :
    (s.phase t).messageId? = some mid ∨ a = some t ∧ mid = s.uuids ∧ s'.uuids = s.uuids + 1 := by
  by_cases ht : a = some t
  · subst ht
    have hmove := h.phase_self
    cases hp : s.phase t with
    | identified id mid' | published id mid' | start | reserved id | requested id | rejected id | released id
    | consumed | republished =>
      rw [hp] at hmove
      generalize s'.phase t = p' at hmove hm
      cases hmove <;> exact .inl hm
    | paid id =>
      rw [hp] at hmove
      generalize hp' : s'.phase t = p' at hmove hm
      cases hmove with
      | stay => cases hm
      | identify _ mid' =>
        cases hm
        exact .inr ⟨rfl, h.identifies hp hp'⟩
  · rw [h.phase_other ht] at hm
    exact .inl hm

theorem SagaInv.queued_step (hI : SagaInv c s) (h : Step cfg a s s') (q : Queue) :
    ∀ m ∈ s'.broker.queue q, s'.Genuine m := by
  intro m hm
  have queued : ∀ {q' : Queue}, m ∈ s.broker.queue q' → s'.Genuine m :=
    fun hm => (hI.messages.queued _ m hm).step h
  have old : m ∈ s.broker.queue q → s'.Genuine m := queued
  have lasts : ∀ {t : Tid} {oid mid : Uuid}, s.phase t = .published oid mid → s'.phase t = .published oid mid :=
    h.published
  have requeued : ∀ {t : Tid} {ch : Channel}, m ∈ (s.broker.requeue t ch).queue q → s'.Genuine m := by
    intro t ch hm
    rcases Broker.mem_requeue hm with hm | hm
    · exact old hm
    · have hj := hI.messages.held t m (Channel.unacked_eq_some hm)
      exact (hI.messages.delivered t m hj).step h
  cases h with
  | @expire _ i b hb =>
    obtain ⟨⟨m₁, b₁⟩, ht, rfl⟩ := Option.map_eq_some_iff.mp hb
    obtain ⟨hm₁, hold, _, _⟩ := Broker.take_some ht
    rcases Broker.mem_publish hm with hm | rfl
    · exact old (hold q m hm)
    · exact queued hm₁
  | loseChannel t | lose t | nack hc => exact requeued hm
  | deliver hj ht => exact old ((Broker.take_some ht).2.1 q m hm)
  | @publish t _ id mid createdAt hp =>
    rcases Broker.mem_publish hm with hm | rfl
    · exact old hm
    · exact ⟨t, id, mid, phase_publish _ hp, _, rfl, rfl, rfl⟩
  | @republish t _ msg payload rk msg' hj hc hp hr =>
    rcases Broker.mem_publish hm with hm | rfl
    · exact old hm
    · obtain ⟨t', oid, mid, hph, hcopy⟩ := hI.messages.delivered t msg hj
      exact ⟨t', oid, mid, lasts hph, hr.isCopy hc hcopy⟩
  | reserve | release | process => rw [commit_eq] at hm; exact old hm
  | _ => exact old hm

theorem SagaInv.held_step (hI : SagaInv c s) (h : Step cfg a s s') (t : Tid) (m : Message)
    (hm : s'.broker.channel t = .ready (some m)) : s'.jobs t = some (.deliver m) := by
  have old : s.broker.channel t = .ready (some m) → s'.jobs t = some (.deliver m) :=
    fun hm => h.jobs_mono (hI.messages.held t m hm)
  have closed : ∀ {u : Tid} {ch : Channel}, ch.unacked = none →
      Function.update s.broker.channel u ch t = .ready (some m) → s'.jobs t = some (.deliver m) := by
    intro u ch hch hm
    by_cases hu : t = u
    · subst hu
      rw [Function.update_self] at hm
      rw [hm] at hch
      cases hch
    · rw [Function.update_of_ne hu] at hm
      exact old hm
  cases h with
  | @expire _ i b hb =>
    obtain ⟨⟨m₁, b₁⟩, ht, rfl⟩ := Option.map_eq_some_iff.mp hb
    obtain ⟨_, _, _, hch⟩ := Broker.take_some ht
    rw [Broker.publish_channel, hch] at hm
    exact old hm
  | loseChannel u | lose u | nack hc =>
    simp only [Shared.loseChannel, Shared.nacked, Broker.channel_requeue] at hm
    exact closed rfl hm
  | @deliver u _ i msg b hj ht =>
    simp only [Shared.start, Broker.setChannel, (Broker.take_some ht).2.2.2] at hm
    by_cases hu : t = u
    · subst hu
      rw [Function.update_self] at hm
      cases hm
      exact Function.update_self ..
    · rw [Function.update_of_ne hu] at hm
      exact old hm
  | ack hc => exact closed rfl hm
  | publish | republish => exact old (by rw [← hm]; exact (congrFun (Broker.publish_channel ..) t).symm)
  | reserve | release | process => rw [commit_eq] at hm; exact old hm
  | _ => exact old hm

theorem SagaInv.delivered_step (hI : SagaInv c s) (h : Step cfg a s s') (t : Tid) (m : Message)
    (hj : s'.jobs t = some (.deliver m)) : s'.Genuine m := by
  have old : s.jobs t = some (.deliver m) → s'.Genuine m := fun hj => (hI.messages.delivered t m hj).step h
  have queued : m ∈ s.broker.queue .process → s'.Genuine m := fun hm => (hI.messages.queued _ m hm).step h
  cases h with
  | @arrive u _ req hn =>
    by_cases hu : t = u
    · subst hu
      simp [Shared.start] at hj
    · exact old (by simpa [Shared.start, Function.update_of_ne hu] using hj)
  | @deliver u _ i msg b hn ht =>
    by_cases hu : t = u
    · subst hu
      simp only [Shared.start, Function.update_self, Option.some.injEq, Job.deliver.injEq] at hj
      subst hj
      exact queued (Broker.take_some ht).1
    · exact old (by simpa [Shared.start, Function.update_of_ne hu] using hj)
  | reserve | release | process => rw [commit_eq] at hj; exact old hj
  | _ => exact old hj

theorem SagaInv.processed_order (hI : SagaInv c s) (h : Step cfg a s s') {id : Uuid} {o : Order}
    (ho : s.db.order? id = some o) (hs : o.status = .processed) : s'.db.order? id = some o := by
  obtain ⟨o', ho', hev⟩ := hI.order h ho
  rw [ho', hev.final (by rw [hs]; exact nofun)]

theorem Step.processedMessages (hT : Tables c s.db) (h : Step cfg a s s') :
    s'.db.processedMessages = s.db.processedMessages ∨
      ∃ t payload mid oid order processedAt, a = some t ∧ Processes s t payload mid oid order ∧
        s' = s.commit t (processLog mid oid order processedAt) ∧
        s'.db.processedMessages = s.db.processedMessages ++ [⟨mid, oid, "orders-worker"⟩] := by
  cases h with
  | @reserve _ _ req products plan order items hr =>
    left
    obtain ⟨ps, he, _⟩ := applyAll_reserveLog ⟨hr.current, hr.distinct, hr.accepted⟩ order items
    rw [commit_eq]
    simp only [he]
  | @release _ _ id hp =>
    left
    obtain ⟨ps, he, _⟩ := applyAll_releaseLog id hT.itemProducts
    rw [commit_eq]
    simp only [he]
  | @process t _ payload mid oid order processedAt hr =>
    refine .inr ⟨t, payload, mid, oid, order, processedAt, rfl, hr, rfl, ?_⟩
    rw [commit_eq]
    simp only [applyAll_processLog]
    split <;> rfl
  | _ => exact .inl rfl

/-- An order is processed together with its dedup row. -/
theorem SagaInv.processed_new (hI : SagaInv c s) (h : Step cfg a s s') {id : Uuid} {o o' : Order}
    (ho : s.db.order? id = some o) (hn : o.status ≠ .processed) (ho' : s'.db.order? id = some o')
    (hs : o'.status = .processed) : ∃ mid : Uuid,
      s'.db.processedMessages = s.db.processedMessages ++ [⟨mid, id, "orders-worker"⟩] := by
  have same : s'.db.order? id = s.db.order? id → False := by
    intro he
    rw [he, ho] at ho'
    cases ho'
    exact hn hs
  have updated : ∀ {id' : Uuid} (f : Order → Order), (∀ o, (f o).id = o.id) →
      (∀ o, (f o).status = .processed → o.status = .processed) →
      s'.db.order? id = (s.db.updateOrder id' f).order? id → False := by
    intro id' f hf hfs he
    by_cases hid : id = id'
    · subst hid
      rw [he, Db.order?_updateOrder_self f hf ho] at ho'
      cases ho'
      exact hn (hfs o hs)
    · exact same (he.trans (Db.order?_updateOrder_ne _ f hf hid))
  cases h with
  | @reserve _ _ req products plan order items hr =>
    refine (same ?_).elim
    rw [order?_reserve hr, if_neg]
    intro he
    have := hr.idFree
    rw [← he, ho] at this
    cases this
  | release => exact (updated .fail (fun _ => rfl) (fun _ => nofun) (order?_release hI.tables ..)).elim
  | @pay _ _ id' res =>
    exact (updated (.pay res.paymentId res.status) (fun _ => rfl) (fun _ h => h) rfl).elim
  | @process t _ payload mid oid order processedAt hr =>
    rw [order?_process] at ho'
    by_cases hp : order.status = .processed
    · rw [if_pos hp, ho] at ho'
      cases ho'
      exact (hn hs).elim
    · rw [if_neg hp] at ho'
      by_cases hid : id = oid
      · subst hid
        refine ⟨mid, ?_⟩
        rw [commit_eq]
        simp only [applyAll_processLog, if_neg hp]
        rfl
      · rw [Db.order?_updateOrder_ne _ (.process processedAt) (fun _ => rfl) hid, ho] at ho'
        cases ho'
        exact (hn hs).elim
  | _ => exact (same rfl).elim

theorem SagaInv.messages_step (hI : SagaInv c s) (h : Step cfg a s s') : Messages s' where
  fresh t mid hm := by
    have hle := h.uuids_le
    rcases h.messageId? hm with hm | ⟨_, rfl, hu⟩
    · exact Nat.lt_of_lt_of_le (hI.messages.fresh t mid hm) hle
    · rw [hu]; exact Nat.lt_succ_self _
  unique t t' mid hm hm' := by
    rcases h.messageId? hm with h₁ | ⟨h₁, he, _⟩ <;> rcases h.messageId? hm' with h₂ | ⟨h₂, he', _⟩
    · exact hI.messages.unique t t' mid h₁ h₂
    · exact absurd (hI.messages.fresh t mid h₁) (by rw [he']; exact Nat.lt_irrefl _)
    · exact absurd (hI.messages.fresh t' mid h₂) (by rw [he]; exact Nat.lt_irrefl _)
    · exact Option.some.inj (h₁.symm.trans h₂)
  queued := hI.queued_step h
  held := hI.held_step h
  delivered := hI.delivered_step h
  dedup m hm := by
    have old : m ∈ s.db.processedMessages → (∃ t, s'.phase t = .published m.orderId m.messageId) ∧
        ∃ o, s'.db.order? m.orderId = some o ∧ o.status = .processed := by
      intro hm
      obtain ⟨⟨t, hp⟩, o, ho, hs⟩ := hI.messages.dedup m hm
      exact ⟨⟨t, h.published hp⟩, o, hI.processed_order h ho hs, hs⟩
    rcases h.processedMessages hI.tables with he | ⟨t, payload, mid, oid, order, processedAt, _, hr, hs', he⟩
    · exact old (he ▸ hm)
    · rw [he] at hm
      rcases List.mem_append.mp hm with hm | hm
      · exact old hm
      · obtain rfl := List.mem_singleton.mp hm
        obtain ⟨t', req, hph, ho⟩ := hI.processes hr
        refine ⟨⟨t', h.published hph⟩, ?_⟩
        rw [hs']
        simp only [order?_process]
        by_cases hs : order.status = .processed
        · exact ⟨order, by rw [if_pos hs]; exact ho.found, hs⟩
        · exact ⟨order.process processedAt, by
            rw [if_neg hs]; exact Db.order?_updateOrder_self (.process processedAt) (fun _ => rfl) ho.found, rfl⟩
  processed id o ho hs := by
    have mono : ∀ m ∈ s.db.processedMessages, m ∈ s'.db.processedMessages := by
      intro m hm
      rcases h.processedMessages hI.tables with he | ⟨_, _, _, _, _, _, _, _, _, he⟩
      · rw [he]; exact hm
      · rw [he]; exact List.mem_append_left _ hm
    cases hs₀ : s.db.order? id with
    | none =>
      obtain ⟨t, _, hp, _⟩ := hI.order_new h hs₀ ho
      obtain ⟨req, o', ho'⟩ := (hI.calls_step h).owns t id (by rw [hp]; rfl)
      have hf := ho'.fits
      rw [hp, ← Option.some.inj (ho.symm.trans ho'.found)] at hf
      rw [hf.2.status] at hs
      cases hs
    | some o₀ =>
      by_cases hn : o₀.status = .processed
      · obtain ⟨m, hm, he⟩ := hI.messages.processed id o₀ hs₀ hn
        exact ⟨m, mono m hm, he⟩
      · obtain ⟨mid, he⟩ := hI.processed_new h hs₀ hn ho hs
        exact ⟨_, he ▸ List.mem_append_right _ (List.mem_singleton_self _), rfl⟩

/-! ## Runs -/

theorem SagaInv.tables_step (hI : SagaInv c s) (h : Step cfg a s s') : Tables c s'.db := by
  have hT := hI.tables
  cases h with
  | @reserve _ _ req products plan order items hr =>
    rw [commit_eq]
    exact hT.reserve ⟨hr.current, hr.distinct, hr.accepted⟩ hr.keyFree hr.idFree hr.new hr.lines
  | @release t _ id hp =>
    obtain ⟨req, o, ho⟩ := hI.calls.owns t id (by rw [hp]; rfl)
    have hf := ho.fits
    rw [hp] at hf
    have hlive : s.db.live id = true := by
      unfold Db.live
      rw [ho.found]
      simp [hf.status]
    rw [commit_eq]
    exact hT.release hlive
  | @pay t _ id res hp hr =>
    obtain ⟨req, o, ho⟩ := hI.calls.owns t id (by rw [hp]; rfl)
    have hf := ho.fits
    rw [hp] at hf
    refine hT.updateOrder (f := .pay res.paymentId res.status) (fun _ => ⟨rfl, rfl, rfl⟩) fun o' ho' => ?_
    have : o' = o := Option.some.inj (ho'.symm.trans ho.found)
    subst this
    have hs : o'.status ≠ .failed := by rw [hf.2.status]; exact nofun
    exact ⟨hs, hs⟩
  | @process t _ payload mid oid order processedAt hr =>
    have hins := hT.insertProcessed (m := ⟨mid, oid, "orders-worker"⟩) hr.unseen
    rw [commit_eq]
    simp only [applyAll_processLog]
    by_cases hp : order.status = .processed
    · rw [if_pos hp]; exact hins
    · rw [if_neg hp]
      obtain ⟨t', req, hph, ho⟩ := hI.processes hr
      have hf := ho.fits
      rw [hph] at hf
      obtain ⟨res, _, hA⟩ := hf
      refine hins.updateOrder (f := .process processedAt) (fun _ => ⟨rfl, rfl, rfl⟩) fun o' ho' => ?_
      have : o' = order := Option.some.inj (ho'.symm.trans hr.found)
      subst this
      refine ⟨?_, nofun⟩
      rcases hA with hA | hA <;> rw [hA.status] <;> exact nofun
  | _ => exact hT

theorem SagaInv.step (hI : SagaInv c s) (h : Step cfg a s s') : SagaInv c s' :=
  ⟨hI.tables_step h, hI.calls_step h, hI.messages_step h⟩

theorem SagaInv.initial (c : Catalogue) : SagaInv c c.shared where
  tables := .initial c
  calls :=
    { owns := fun _ _ h => by cases h
      idle := fun _ _ => rfl
      unstarted := fun _ _ => rfl
      owner := fun _ _ h => by cases h
      unique := fun _ _ _ h => by cases h
      fresh := fun _ _ h => by cases h }
  messages :=
    { fresh := fun _ _ h => by cases h
      unique := fun _ _ _ h => by cases h
      queued := fun _ _ h => by cases h
      held := fun _ _ h => by cases h
      delivered := fun _ _ h => by cases h
      dedup := fun _ h => by cases h
      processed := fun _ _ h => by cases h }

theorem Saga.inv (h : Saga cfg c s) : SagaInv c s :=
  Runs.invariant (fun _ _ _ _ hI hs => SagaInv.step hI hs) h (.initial c)

theorem Saga.run {P : Option Tid → Prop} (h : Saga cfg c s) (hr : Runs (Step cfg) P s s') : Saga cfg c s' :=
  Runs.trans h (hr.mono fun _ _ => trivial)

theorem Saga.order {P : Option Tid → Prop} (h : Saga cfg c s) (hr : Runs (Step cfg) P s s') {id : Uuid} {o : Order}
    (ho : s.db.order? id = some o) : ∃ o', s'.db.order? id = some o' ∧ o.Evolves o' := by
  have hrel := Runs.relates (I := SagaInv c)
    (R := fun s s' => ∀ id o, s.db.order? id = some o → ∃ o', s'.db.order? id = some o' ∧ o.Evolves o')
    (fun _ _ _ _ hI hs => SagaInv.step hI hs) (fun _ _ o ho => ⟨o, ho, .refl o⟩)
    (fun _ _ _ h₁ h₂ id o ho => by
      obtain ⟨o', ho', hev⟩ := h₁ id o ho
      obtain ⟨o'', ho'', hev'⟩ := h₂ id o' ho'
      exact ⟨o'', ho'', hev.trans hev'⟩)
    (fun _ _ _ _ hI hs _ _ ho => hI.order hs ho) hr h.inv
  exact hrel id o ho

/-! ## What a run leaves -/

theorem SagaInv.itemsOf (hI : SagaInv c s) (h : Step cfg a s s') {id : Uuid} (hid : (s.db.order? id).isSome) :
    s'.db.itemsOf id = s.db.itemsOf id := by
  cases h with
  | @reserve _ _ req products plan order items hr =>
    obtain ⟨ps, he, _⟩ := applyAll_reserveLog ⟨hr.current, hr.distinct, hr.accepted⟩ order items
    rw [commit_eq]
    simp only [he, Db.itemsOf, List.filter_append]
    have hne : id ≠ order.id := by
      intro he
      rw [he, hr.idFree] at hid
      cases hid
    have hnil : items.filter (fun i => i.orderId = id) = [] := by
      rw [List.filter_eq_nil_iff]
      intro i hi
      obtain ⟨_, _, hl⟩ := line_of_item hr.lines hi
      simpa [hl.order] using hne.symm
    rw [hnil, List.append_nil]
  | @release _ _ id' hp =>
    obtain ⟨ps, he, _⟩ := applyAll_releaseLog id' hI.tables.itemProducts
    rw [commit_eq]
    simp only [he]
    rfl
  | @process t _ payload mid oid order processedAt hr =>
    rw [commit_eq]
    simp only [applyAll_processLog]
    split <;> rfl
  | _ => rfl

theorem SagaInv.isSome_order? (hI : SagaInv c s) (h : Step cfg a s s') {id : Uuid}
    (hid : (s.db.order? id).isSome) : (s'.db.order? id).isSome := by
  obtain ⟨o, ho⟩ := Option.isSome_iff_exists.mp hid
  obtain ⟨o', ho', _⟩ := hI.order h ho
  exact Option.isSome_iff_exists.mpr ⟨o', ho'⟩

theorem SagaInv.isSome_processed? (hI : SagaInv c s) (h : Step cfg a s s') {mid : Uuid}
    (hm : (s.db.processed? mid).isSome) : (s'.db.processed? mid).isSome := by
  unfold Db.processed? at hm ⊢
  rw [List.find?_isSome] at hm ⊢
  obtain ⟨m, hmem, hid⟩ := hm
  rcases h.processedMessages hI.tables with he | ⟨_, _, _, _, _, _, _, _, _, he⟩
  · exact ⟨m, he ▸ hmem, hid⟩
  · exact ⟨m, he ▸ List.mem_append_left _ hmem, hid⟩

theorem Step.channel_lost (h : Step cfg a s s') {t : Tid} (ht : a ≠ some t)
    (hl : s.broker.channel t = .lost) : s'.broker.channel t = .lost := by
  have other : ∀ {u : Tid} {ch : Channel}, some u ≠ some t → Function.update s.broker.channel u ch t = .lost := by
    intro u ch hu
    rw [Function.update_of_ne fun e => hu (by rw [e])]
    exact hl
  cases h with
  | @expire _ i b hb =>
    obtain ⟨⟨m₁, b₁⟩, hb₁, rfl⟩ := Option.map_eq_some_iff.mp hb
    simpa only [Broker.publish_channel, (Broker.take_some hb₁).2.2.2] using hl
  | loseChannel u =>
    simp only [Shared.loseChannel, Broker.channel_requeue]
    by_cases hu : t = u
    · subst hu; exact Function.update_self ..
    · rw [Function.update_of_ne hu]; exact hl
  | lose u => simpa only [Shared.loseChannel, Broker.channel_requeue] using other ht
  | nack hc => simpa only [Shared.nacked, Broker.channel_requeue] using other ht
  | deliver hj hb =>
    simp only [Shared.start, Broker.setChannel, (Broker.take_some hb).2.2.2]
    exact other ht
  | ack hc => exact other ht
  | publish | republish => exact (congrFun (Broker.publish_channel ..) t).trans hl
  | reserve | release | process => rw [commit_eq]; exact hl
  | _ => exact hl

section
variable {P : Option Tid → Prop} (h : Saga cfg c s) (hr : Runs (Step cfg) P s s')
include h hr

theorem Saga.users : s'.db.users = s.db.users :=
  (h.run hr).inv.tables.users.trans h.inv.tables.users.symm

theorem Saga.itemsOf {id : Uuid} (hid : (s.db.order? id).isSome) : s'.db.itemsOf id = s.db.itemsOf id := by
  have hrel := Runs.relates (I := SagaInv c)
    (R := fun s s' => (s.db.order? id).isSome → (s'.db.order? id).isSome ∧ s'.db.itemsOf id = s.db.itemsOf id)
    (fun _ _ _ _ hI hs => SagaInv.step hI hs) (fun _ hid => ⟨hid, rfl⟩)
    (fun _ _ _ h₁ h₂ hid => ⟨(h₂ (h₁ hid).1).1, (h₂ (h₁ hid).1).2.trans (h₁ hid).2⟩)
    (fun _ _ _ _ hI hs hid => ⟨hI.isSome_order? hs hid, hI.itemsOf hs hid⟩) hr h.inv
  exact (hrel hid).2

theorem Saga.isSome_processed? {mid : Uuid} (hm : (s.db.processed? mid).isSome) :
    (s'.db.processed? mid).isSome := by
  have hrel := Runs.invariant (I := fun s => SagaInv c s ∧ (s.db.processed? mid).isSome)
    (fun _ _ _ _ hI hs => ⟨hI.1.step hs, hI.1.isSome_processed? hs hI.2⟩) hr ⟨h.inv, hm⟩
  exact hrel.2

end

theorem uuids_of_run {P : Option Tid → Prop} (hr : Runs (Step cfg) P s s') : s.uuids ≤ s'.uuids :=
  Runs.relates (I := fun _ => True) (R := fun s s' => s.uuids ≤ s'.uuids) (fun _ _ _ _ _ _ => trivial)
    (fun _ => Nat.le_refl _) (fun _ _ _ => Nat.le_trans) (fun _ _ _ _ _ hs => hs.uuids_le) hr trivial

theorem jobs_of_run {P : Option Tid → Prop} (hr : Runs (Step cfg) P s s') {t : Tid} {job : Job}
    (h : s.jobs t = some job) : s'.jobs t = some job :=
  Runs.invariant (I := fun s => s.jobs t = some job) (fun _ _ _ _ h hs => hs.jobs_mono h) hr h

theorem answered_of_others {t : Tid} (hr : Runs (Step cfg) (· ≠ some t) s s') {res : AuthorizeResponse}
    (h : s.rpc t = .answered res) : s'.rpc t = .answered res :=
  Runs.invariant (I := fun s => s.rpc t = .answered res) (fun _ _ _ ht h hs => hs.rpc_answered ht h) hr h

theorem lost_of_others {t : Tid} (hr : Runs (Step cfg) (· ≠ some t) s s')
    (h : s.broker.channel t = .lost) : s'.broker.channel t = .lost :=
  Runs.invariant (I := fun s => s.broker.channel t = .lost) (fun _ _ _ ht h hs => hs.channel_lost ht h) hr h

end OrdersBackend
