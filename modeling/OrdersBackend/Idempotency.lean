import OrdersBackend.Effects
import OrdersBackend.SystemSound

/-!
# One set of effects per key

However many calls with one user and idempotency key there are, one of them
at most reserves stock, asks for a payment and publishes a message.
-/

namespace OrdersBackend

open Conc

variable {cfg : Config} {c : Catalogue} {s : Shared} {conf : SysConf}

def Shared.serves (s : Shared) (userId : Uuid) (idempotencyKey : String) (t : Tid) : Bool :=
  match s.jobs t with
  | some (.create req) => req.actor.id = userId ∧ req.idempotencyKey = idempotencyKey
  | _ => false

/-- How often the calls of the user with the key have had an effect. -/
def Shared.effects (s : Shared) (userId : Uuid) (idempotencyKey : String) (f : Event → Bool) : Nat :=
  s.trace.countP fun e => f e && e.actor.any (s.serves userId idempotencyKey)

namespace Event

def reserves (p : Uuid) : Event → Bool
  | .wrote _ (.stock p' _) _ => p' = p
  | _ => false

def authorizes : Event → Bool
  | .sent _ _ | .failed _ (.sendAuthorize _) => true
  | _ => false

def publishes : Event → Bool
  | .published _ .process _ => true
  | _ => false

/-- What a call does that has an order. -/
def effective (e : Event) : Prop := (∃ p, e.reserves p = true) ∨ e.authorizes = true ∨ e.publishes = true

end Event

/-- The procedure `t` has had an effect. -/
def Shared.affects (s : Shared) (t : Tid) : Prop := ∃ e ∈ s.trace, e.effective ∧ e.actor = some t

/-! ## One call at most has an order -/

theorem serves_iff {u : Uuid} {k : String} {t : Tid} : s.serves u k t = true ↔
    ∃ req, s.jobs t = some (.create req) ∧ req.actor.id = u ∧ req.idempotencyKey = k := by
  unfold Shared.serves
  split
  · rename_i req hj
    simp only [hj, Option.some.injEq, Job.create.injEq, decide_eq_true_eq, exists_eq_left']
  · rename_i hn
    simp only [Bool.false_eq_true, false_iff]
    rintro ⟨req, hj, _⟩
    exact hn req hj

theorem SagaInv.serves_unique (hI : SagaInv c s) {u : Uuid} {k : String} {t t' : Tid} (ht : s.serves u k t = true)
    (ht' : s.serves u k t' = true) (hp : (s.phase t).orderId?.isSome)
    (hp' : (s.phase t').orderId?.isSome) : t = t' := by
  have own : ∀ {t : Tid}, s.serves u k t = true → (s.phase t).orderId?.isSome →
      ∃ o ∈ s.db.orders, o.userId = u ∧ o.idempotencyKey = k ∧ (s.phase t).orderId? = some o.id := by
    intro t ht hp
    obtain ⟨id, hid⟩ := Option.isSome_iff_exists.mp hp
    obtain ⟨req, o, ho⟩ := hI.calls.owns t id hid
    obtain ⟨req', hj, hu, hk⟩ := serves_iff.mp ht
    rw [ho.job] at hj
    cases hj
    exact ⟨o, Db.order?_mem ho.found, ho.user.trans hu, ho.key.trans hk, by rw [hid, ho.id]⟩
  obtain ⟨o, hm, hu, hk, hid⟩ := own ht hp
  obtain ⟨o', hm', hu', hk', hid'⟩ := own ht' hp'
  have hoo : o = o' := by
    refine List.inj_on_of_nodup_map hI.tables.orderKeys hm hm' ?_
    rw [hu, hk, hu', hk']
  subst hoo
  exact hI.calls.unique t t' o.id hid hid'

/-- Who has an effect has an order. -/
theorem Saga.orderId?_of_effective (h : Saga cfg c s) {e : Event} (he : e ∈ s.trace) (hf : e.effective) {t : Tid}
    (ht : e.actor = some t) : (s.phase t).orderId?.isSome := by
  have hleft := h.leaves e he
  unfold Event.effective at hf
  cases e with
  | wrote t' wr δ =>
    cases ht
    cases wr <;> first | exact hleft | simp [Event.reserves, Event.authorizes, Event.publishes] at hf
  | sent t' req =>
    cases ht
    rw [show (s.phase t).orderId? = some req.orderId from hleft]
    rfl
  | failed t' cmd =>
    cases ht
    cases cmd <;> first | exact hleft | simp [Event.reserves, Event.authorizes, Event.publishes] at hf
  | published t' rk msg =>
    cases ht
    cases rk with
    | process =>
      obtain ⟨oid, mid, _, hp, _⟩ := hleft
      rw [show s.phase t = .published oid mid from hp]
      rfl
    | _ => simp [Event.reserves, Event.authorizes, Event.publishes] at hf
  | _ => simp [Event.reserves, Event.authorizes, Event.publishes] at hf

theorem Saga.effects_once (h : Saga cfg c s) (u : Uuid) (k : String) {f : Event → Bool}
    (hf : ∀ e, f e = true → e.effective)
    (honce : ∀ t, s.trace.countP (fun e => f e && e.actor == some t) ≤ 1) : s.effects u k f ≤ 1 := by
  unfold Shared.effects
  by_cases hex : ∃ e ∈ s.trace, (f e && e.actor.any (s.serves u k)) = true
  · obtain ⟨e, he, hfe⟩ := hex
    rw [Bool.and_eq_true, Option.any_eq_true] at hfe
    obtain ⟨hfe, t, ht, hserve⟩ := hfe
    refine Nat.le_trans (List.countP_mono_left fun e' he' hfe' => ?_) (honce t)
    rw [Bool.and_eq_true, Option.any_eq_true] at hfe'
    obtain ⟨hfe', t', ht', hserve'⟩ := hfe'
    have htt := h.inv.serves_unique hserve hserve' (h.orderId?_of_effective he (hf e hfe) ht)
      (h.orderId?_of_effective he' (hf e' hfe') ht')
    rw [hfe', ht', htt]
    simp
  · rw [List.countP_eq_zero.mpr fun e he hfe => hex ⟨e, he, hfe⟩]
    exact Nat.zero_le 1

/-! ## What one call does -/

theorem countP_of_nodup {α β : Type} [DecidableEq β] {l : List α} {key : α → β} (h : (l.map key).Nodup) (b : β) :
    l.countP (fun a => key a = b) ≤ 1 := by
  have hc := List.nodup_iff_count_le_one.mp h b
  rw [List.count, List.countP_map] at hc
  exact Nat.le_trans (List.countP_mono_left fun a _ ha => by simpa using ha) hc

theorem countP_stockWrites (products : List Product) (plan : OrderPlan) (p : Uuid) :
    (plan.quantityByProductId.entries.filterMap (stockWrite (productsById products))).countP
      (fun wr => Event.reserves p (.wrote 0 wr 0)) ≤ 1 := by
  rw [List.countP_filterMap]
  refine Nat.le_trans (List.countP_mono_left fun e _ he => ?_) (countP_of_nodup plan.quantityByProductId.nodup p)
  unfold stockWrite at he
  cases hg : (productsById products).get? e.1 with
  | none => simp [hg] at he
  | some product =>
    have hid : product.id = e.1 := by
      obtain ⟨a, _, ha⟩ := List.mem_map.mp (JsMap.mem_of_get?_ofList hg)
      rw [← (Prod.mk.inj ha).2]
      exact (Prod.mk.inj ha).1
    simpa [hg, Event.reserves, hid] using he

theorem Saga.reserves_once (h : Saga cfg c s) (t : Tid) (p : Uuid) :
    s.trace.countP (fun e => e.reserves p && e.actor == some t) ≤ 1 := by
  refine h.once (t := t) (D := fun p => p.orderId?.isSome)
    (fun e he => by simpa using (Bool.and_eq_true_iff.mp he).2)
    (fun p p' hm hp => ?_) (fun p₀ es p' ht => ?_)
  · obtain ⟨id, hid⟩ := Option.isSome_iff_exists.mp hp
    rw [hm.orderId? hid]; rfl
  · cases ht with
    | reserve db products plan order items =>
      rw [countP_wroteEvents t (g := fun wr => Event.reserves p (.wrote 0 wr 0))
        (fun wr δ => by cases wr <;> simp [Event.reserves, Event.actor])]
      have hitems : (items.map Write.insertItem).countP (fun wr => Event.reserves p (.wrote 0 wr 0)) = 0 := by
        rw [List.countP_map]
        simp [Event.reserves, Function.comp_def]
      have hle := countP_stockWrites products plan p
      rw [reserveLog, List.countP_append, List.countP_cons, hitems]
      simp only [Event.reserves, Bool.false_eq_true, if_false, Nat.add_zero]
      have hcases : ∀ n : Nat, n ≤ 1 → n = 0 ∨ n = 1 := by omega
      exact (hcases _ hle).imp_right fun h₁ => ⟨h₁, by simp [Phase.orderId?], rfl⟩
    | release db id =>
      refine .inl (countP_wroteEvents_zero t db fun wr hwr δ => ?_)
      rcases mem_releaseLog hwr with rfl | ⟨_, _, rfl⟩ <;> rfl
    | consume db mid oid order processedAt =>
      refine .inl (countP_wroteEvents_zero t db fun wr hwr δ => ?_)
      rcases mem_processLog hwr with rfl | rfl <;> rfl
    | _ => exact .inl rfl

/-- The call has gone to the payments service, or has not come through to it. -/
def Phase.called : Phase → Bool
  | .start | .reserved _ | .consumed | .republished => false
  | _ => true

theorem Saga.authorizes_once (h : Saga cfg c s) (t : Tid) :
    s.trace.countP (fun e => e.authorizes && e.actor == some t) ≤ 1 := by
  refine h.once (t := t) (D := fun p => p.called) (fun e he => by simpa using (Bool.and_eq_true_iff.mp he).2)
    (fun p p' hm hp => by cases hm <;> first | exact hp | rfl) (fun p es p' ht => ?_)
  cases ht with
  | reserve db | release db | consume db => exact .inl (countP_wroteEvents_zero t db fun _ _ _ => rfl)
  | request req => exact .inr ⟨by simp [Event.authorizes, Event.actor], by simp [Phase.called], rfl⟩
  | @unsent id cmd hc =>
    cases cmd with
    | sendAuthorize req => exact .inr ⟨by simp [Event.authorizes, Event.actor], by simp [Phase.called], rfl⟩
    | _ => exact .inl rfl
  | @failed _ cmd hc => cases cmd <;> first | exact .inl rfl | cases hc
  | _ => exact .inl rfl

theorem Saga.publishes_once (h : Saga cfg c s) (t : Tid) :
    s.trace.countP (fun e => e.publishes && e.actor == some t) ≤ 1 := by
  refine h.once (t := t) (D := fun p => ∃ oid mid, p = .published oid mid)
    (fun e he => by simpa using (Bool.and_eq_true_iff.mp he).2) (fun p p' hm hp => ?_) (fun p es p' ht => ?_)
  · obtain ⟨oid, mid, rfl⟩ := hp
    exact ⟨oid, mid, hm.final rfl⟩
  · cases ht with
    | reserve db | release db | consume db => exact .inl (countP_wroteEvents_zero t db fun _ _ _ => rfl)
    | publish id mid createdAt => exact .inr ⟨by simp [Event.publishes, Event.actor], by simp, id, mid, rfl⟩
    | republish hr => cases hr <;> exact .inl rfl
    | _ => exact .inl rfl

/-! ## One set of effects -/

/-- Whatever has been reserved, asked for and published for a user's key is the
work of one call, which has done each of it once. -/
theorem one_set_of_effects (h : Reachable cfg c conf) (userId : Uuid) (idempotencyKey : String) :
    conf.world.db.orders.countP (fun o => o.userId = userId ∧ o.idempotencyKey = idempotencyKey) ≤ 1 ∧
    (∀ p, conf.world.effects userId idempotencyKey (Event.reserves p) ≤ 1) ∧
    conf.world.effects userId idempotencyKey Event.authorizes ≤ 1 ∧
    conf.world.effects userId idempotencyKey Event.publishes ≤ 1 ∧
    ∀ t t', conf.world.serves userId idempotencyKey t = true → conf.world.serves userId idempotencyKey t' = true →
      conf.world.affects t → conf.world.affects t' → t = t' := by
  have hs := h.saga
  refine ⟨?_, fun p => ?_, ?_, ?_, fun t t' ht ht' haff haff' => ?_⟩
  · have hle := countP_of_nodup hs.inv.tables.orderKeys (userId, idempotencyKey)
    simpa using hle
  · exact hs.effects_once userId idempotencyKey (fun e he => .inl ⟨p, he⟩) fun t => hs.reserves_once t p
  · exact hs.effects_once userId idempotencyKey (fun e he => .inr (.inl he)) hs.authorizes_once
  · exact hs.effects_once userId idempotencyKey (fun e he => .inr (.inr he)) hs.publishes_once
  · obtain ⟨e, he, hf, hactor⟩ := haff
    obtain ⟨e', he', hf', hactor'⟩ := haff'
    exact hs.inv.serves_unique ht ht' (hs.orderId?_of_effective he hf hactor)
      (hs.orderId?_of_effective he' hf' hactor')

/-- The call that loses finds the order, and does nothing. -/
theorem one_set_of_effects_mug :
    let conf := (Catalogue.shop 3).after (.ofPool 2 .repository) (saleSteps 0 (mugRequest 0 "k") ++
      requestSteps 1 (mugRequest 0 "k") 6)
    conf.world.effects 0 "k" (Event.reserves 0) = 1 ∧ conf.world.effects 0 "k" Event.authorizes = 1 ∧
      conf.world.effects 0 "k" Event.publishes = 1 ∧ ¬conf.world.affects 1 := by
  intro conf
  have hreach : Reachable (.ofPool 2 .repository) (.shop 3) conf := Catalogue.reachable_after ..
  obtain ⟨_, _, _, _, hone⟩ := one_set_of_effects hreach 0 "k"
  have hfirst : conf.world.affects 0 := ⟨.wrote 0 (.stock 0 2) (-1), by decide, .inl ⟨0, rfl⟩, rfl⟩
  refine ⟨by decide, by decide, by decide, fun hsecond => ?_⟩
  exact absurd (hone 0 1 rfl rfl hfirst hsecond) (by decide)

end OrdersBackend
