import OrdersBackend.CallSpec

/-!
# Payment, compensation and publish

What follows the commit of a reservation only does steps of the saga.
-/

namespace OrdersBackend

open Conc Async

variable {cfg : Config} {c : Catalogue} {t : Tid} {L : Local} {held : List (Row × RowVal)} {F : Shared → Prop}
variable {w : World} {req : CreateOrderRequest}

/-! ## The compensation -/

/-- A command of a compensation has failed; the query runner is still held. -/
structure Undone (cfg : Config) (c : Catalogue) (t : Tid) (req : CreateOrderRequest) (api : Nat) (e : Err)
    (L : Local) (held : List (Row × RowVal)) (w : World) : Prop where
  error : isUniqueViolation e = false
  now : Now cfg c t L held (fun _ => True) w
  job : L.job = some (.create req)
  conns : L.api = api
  idle : L.sess.active = false
  undone : L.undone = true

theorem wp_increments {id : Uuid} {items : List OrderItem} {Q : Except Err Unit → World → Prop}
    (hF : Lasting cfg c t F) (hitems : ∀ s, F s → s.db.itemsOf id = items) (hheld : Takes held [])
    (h : Now cfg c t (Local.call req ⟨false, false, some [.failOrder id]⟩ (.rejected id) 2) held F w)
    (hok : ∀ held w', Now cfg c t (Local.call req ⟨false, false, some (.failOrder id ::
      items.map fun i => .addStock i.productId i.quantity)⟩ (.rejected id) 2) held F w' → Q (.ok ()) w')
    (herr : ∀ e L held w', Undone cfg c t req 2 e L held w' → Q (.error e) w') :
    Wp cfg c t (forEach (fun item : OrderItem => issue
    (.incrementStock item.productId item.quantity)) items) Q w := by
  refine (discipline cfg c).wp_forEach (fun past rest w => past ++ rest = items ∧ ∃ held,
    Takes held (past.map (·.productId)) ∧ Now cfg c t
      (Local.call req ⟨false, false, some (.failOrder id :: past.map fun i => .addStock i.productId i.quantity)⟩
        (.rejected id) 2) held F w) items [] ⟨rfl, held, hheld, h⟩ ?_ ?_
  · rintro past item rest w₁ ⟨hl, held₁, ht, h₁⟩
    refine wp_quiet rfl h₁ hF (Option.some_ne_none _) (fun w' h' => ?_) (fun w' r w'' h' _ hp => ?_)
      (fun e w' _ hu h' => ?_)
    · refine ⟨id, _, rest.map (·.productId), h'.phase, ?_, h'.takes ht⟩
      rw [hitems _ h'.fact, ← hl]
      simp
    · obtain ⟨hs, rfl⟩ := stmt_map hp
      have hn := h'.stmt hs
      refine ⟨by rw [(stmt_eq hs).2.1]; exact .refl _, by simpa using hl,
        held₁ ++ [(.product item.productId, w'.db.row (.product item.productId))], ?_, ?_⟩
      · rw [List.map_append]
        exact ht.append _ _
      · rw [List.map_append]
        exact hn
    · exact herr e _ _ w' ⟨hu, h'.top, rfl, rfl, rfl, rfl⟩
  · rintro past w₁ ⟨hl, held₁, _, h₁⟩
    rw [List.append_nil] at hl
    subst hl
    exact hok held₁ w₁ h₁

theorem wp_compensationCatch {e : Err} (h : Undone cfg c t req 2 e L held w) :
    Wp cfg c t (do
      tryCatch (issue (.rollbackTransaction .em)) fun _ => pure ()
      throw e : Api Unit) (fun r w' => r = .error e ∧ ∃ L', Undone cfg c t req 2 e L' [] w') w := by
  have hjob : L.job ≠ none := by simp [h.job]
  refine (discipline cfg c).wp_bind ?_
  refine (discipline cfg c).wp_tryCatch ?_
  refine wp_rollback h.now .trivial hjob (fun w' _ _ h' => ?_) (fun w' hs _ _ => by cases hs)
    (fun e' w' _ h' => ?_)
  · exact ⟨rfl, _, h.error, h', h.job, h.conns, by simp [Local.inTx, h.idle], h.undone⟩
  · exact ⟨rfl, _, h.error, h', h.job, h.conns, h.idle, rfl⟩

theorem wp_failOrderAndReleaseStock {id : Uuid} {Q : Except Err Unit → World → Prop}
    (h : Now cfg c t (Local.call req ⟨false, false, none⟩ (.rejected id) 1) [] (fun _ => True) w)
    (hok : ∀ w', Now cfg c t (Local.call req ⟨false, false, none⟩ (.released id) 1) [] (fun _ => True) w' →
      Q (.ok ()) w')
    (herr : ∀ e L held w', Undone cfg c t req 1 e L held w' → Q (.error e) w') :
    Wp cfg c t (failOrderAndReleaseStock id) Q w := by
  refine wp_withConnection h .trivial rfl rfl (fun w₁ h₁ => ?_) (fun e w' hu h' => ?_)
  · -- the transaction itself; what it throws, it throws again after a rollback
    have hcatch : ∀ {e : Err} {L : Local} {held : List (Row × RowVal)} {w : World},
      Undone cfg c t req 2 e L held w →
        Wp cfg c t (do
          tryCatch (issue (.rollbackTransaction .em)) fun _ => pure ()
          throw e : Api Unit) (fun r w'' => ∃ L' G, Now cfg c t L' [] G w'' ∧ Lasting cfg c t G ∧ L'.job ≠ none ∧
            ∀ w₁, Now cfg c t (L'.drop .api) [] G w₁ → Q r w₁) w := by
      intro e L held w hund
      refine (discipline cfg c).wp_mono (fun r w' hr => ?_) (wp_compensationCatch hund)
      obtain ⟨rfl, L', hL⟩ := hr
      refine ⟨L', _, hL.now, .trivial, by simp [hL.job], fun w₂ h₂ => ?_⟩
      exact herr e _ _ w₂ ⟨hL.error, h₂, hL.job, by simp [Local.drop, hL.conns], hL.idle, hL.undone⟩
    refine (discipline cfg c).wp_tryCatch ?_
    refine (discipline cfg c).wp_bind ?_
    refine wp_startTransaction .em h₁ .trivial (Option.some_ne_none _) (fun w₂ h₂ => ?_) (fun e w₂ hu h₂ => ?_)
    · refine (discipline cfg c).wp_bind ?_
      refine (discipline cfg c).wp_bind ?_
      refine wp_read (fun w => (w.view t).withItems ((w.view t).order? id)) (fun _ => rfl) rfl (fun _ => trivial)
        h₂ .trivial (Option.some_ne_none _) (fun w₃ h₃ hi => ?_) (fun e w₃ _ hu h₃ => ?_)
      · -- the order is there, and pending
        obtain ⟨req', o, ho⟩ := hi.saga.inv.calls.owns t id (by rw [show w₃.phase t = _ from h₃.phase]; rfl)
        have hfits := ho.fits
        rw [show w₃.phase t = _ from h₃.phase] at hfits
        have hview := h₃.view_nil (.inr rfl)
        have hst : o.status ≠ .failed := by simp [hfits.status]
        have hfound : (w₃.view t).withItems ((w₃.view t).order? id) = some (o, w₃.db.itemsOf id) := by
          rw [hview, ho.found]
          simp [Db.withItems, ho.id]
        rw [hfound]
        simp only [if_neg hst]
        have hF : Lasting cfg c t fun s => (s.db.order? id).isSome ∧ s.db.itemsOf id = w₃.db.itemsOf id :=
          .items id _
        have h₃' := h₃.weaken (G := fun s => (s.db.order? id).isSome ∧ s.db.itemsOf id = w₃.db.itemsOf id)
          fun _ => ⟨by rw [ho.found]; rfl, rfl⟩
        rw [ho.id]
        refine (discipline cfg c).wp_bind ?_
        refine wp_quiet rfl h₃' hF (Option.some_ne_none _) (fun _ _ => trivial) (fun w' r w'' h' _ hp => ?_)
          (fun e w' _ hu h' => ?_)
        · obtain ⟨hs, rfl⟩ := stmt_map hp
          refine ⟨by rw [(stmt_eq hs).2.1]; exact .refl _, ?_⟩
          refine wp_increments hF (fun _ hf => hf.2) (by simp [Takes, Write.rows]) (h'.stmt hs)
            (fun held₂ w₄ h₄ => ?_) (fun e L held w' hund => hcatch hund)
          refine wp_commit h₄ hF (Option.some_ne_none _) rfl .trivial (fun w₅ h₅ _ => ?_) (fun w₅ h₅ => ?_)
            (fun e w₅ hu h₅ => ?_)
            (fun e w₅ hu h₅ => ?_)
          · have hstep : Step cfg (some t) w₅.toShared _ := .release (h₅.phase : w₅.phase t = .rejected id)
            rw [releaseLog, h₅.fact.2] at hstep
            exact ⟨.single rfl hstep, trivial⟩
          · have hp : (Write.failOrder id :: (w₃.db.itemsOf id).map fun i =>
                Write.addStock i.productId i.quantity).foldl Phase.write (.rejected id) = .released id :=
              foldl_releaseLog w₃.db id _
            refine ⟨_, _, h₅, .trivial, Option.some_ne_none _, fun w₆ h₆ => hok w₆ ?_⟩
            simp only [Local.call, Local.to, hp] at h₆
            exact h₆
          · exact hcatch ⟨hu, h₅.top, rfl, rfl, rfl, rfl⟩
          · exact hcatch ⟨hu, h₅, rfl, rfl, rfl, rfl⟩
        · exact hcatch ⟨hu, h'.top, rfl, rfl, rfl, rfl⟩
      · exact hcatch ⟨hu, h₃, rfl, rfl, rfl, rfl⟩
    · exact hcatch ⟨hu, h₂, rfl, rfl, rfl, rfl⟩
  · exact herr e _ _ w' ⟨hu, h', rfl, rfl, rfl, rfl⟩

/-! ## The payment -/

theorem not_uniqueViolation_rpcError (e : Err) : isUniqueViolation (handlePaymentsRpcError e) = false := by
  cases e with
  | grpc code =>
    by_cases hc : code = 4 <;> simp [handlePaymentsRpcError, hc, isUniqueViolation, isPgError, Err.code,
      gatewayTimeoutError, serviceUnavailableError]
  | _ => simp [handlePaymentsRpcError, isUniqueViolation, isPgError, Err.code, serviceUnavailableError]

theorem Undone.caught {e : Err} (h : Undone cfg c t req 1 e L held w) : Caught cfg c t req e L held w :=
  ⟨h.job, h.conns, .inr ⟨h.idle, .inl h.undone, h.error⟩, h.now⟩

theorem Now.reject (h : Now cfg c t L held F w) (hjob : L.job ≠ none) (cmd : Cmd) (hc : cmd.authorizes = true)
    {id : Uuid} (hp : L.phase = .reserved id ∨ L.phase = .requested id)
    (hs : L.phase = .reserved id ∨ cmd = .awaitAuthorize) :
    Own cfg t w.toShared (w.toShared.log (.failed t cmd)) ∧
      Now cfg c t (L.to (.rejected id)) held (fun _ => True) (w.logEvent (.failed t cmd)) := by
  have hp' : w.phase t = .reserved id ∨ w.phase t = .requested id := by rw [h.phase]; exact hp
  have hs : Own cfg t w.toShared (w.toShared.log (.failed t cmd)) :=
    .single rfl (.reject hc hp' (by rw [h.phase]; exact hs))
  have hflags : cmd.late = false ∧ cmd.undoes = false := by
    cases cmd <;> first | exact ⟨rfl, rfl⟩ | cases hc
  refine ⟨hs, h.own hjob hs (phase_reject hc hp') ?_ ?_ (fun _ _ => rfl) trivial⟩
  · rw [Shared.log, rejectedIn_cons, Now.rejects_self, hflags.1, Bool.false_or]
  · rw [Shared.log, rejectedIn_cons, Now.rejects_self, hflags.2, Bool.false_or]

theorem wp_authorizePayment {order : Order} {plan : OrderPlan} {items : List OrderItem}
    {Q : Except Err AuthorizeResponse → World → Prop}
    (h : Now cfg c t (Local.call req ⟨false, false, none⟩ (.reserved order.id) 1) []
      (fun s => (s.db.order? order.id).isSome ∧ s.db.itemsOf order.id = items) w)
    (hamount : (items.map fun item => (item.priceAtPurchase : Int) * item.quantity).sum = plan.amountCents)
    (hok : ∀ res w', Now cfg c t (Local.call req ⟨false, false, none⟩ (.requested order.id) 1) []
      (fun s => s.rpc t = .answered res) w' → Q (.ok res) w')
    (herr : ∀ e L held w', Caught cfg c t req e L held w' → Q (.error e) w') :
    Wp cfg c t (authorizePayment cfg order plan req.idempotencyKey) Q w := by
  -- whatever fails, the order is failed and its stock released
  have hrelease : ∀ (e : Err) (w : World),
      Now cfg c t (Local.call req ⟨false, false, none⟩ (.rejected order.id) 1) [] (fun _ => True) w →
      Wp cfg c t (do
        failOrderAndReleaseStock order.id
        throw (handlePaymentsRpcError e) : Api AuthorizeResponse) Q w := by
    intro e w hn
    refine (discipline cfg c).wp_bind ?_
    refine wp_failOrderAndReleaseStock hn (fun w' h' => ?_) (fun e' L held w' hund => herr e' _ _ w' hund.caught)
    exact herr _ _ _ w' ⟨rfl, rfl, .inr ⟨rfl, .inr (.inl ⟨rfl, .inr ⟨order.id, rfl⟩⟩),
      not_uniqueViolation_rpcError e⟩, h'⟩
  refine (discipline cfg c).wp_tryCatch ?_
  refine (discipline cfg c).wp_bind ?_
  refine wp_issue h (.items order.id items) (Option.some_ne_none _)
    (fun _ _ => trivial) fun w' h' _ ch r w'' hx => ?_
  rcases exec_cases hx with hp | ⟨e, _, hu, rfl, rfl⟩ | ⟨e, w₁, _, h₁, _⟩
  · simp only [perform] at hp
    split at hp
    · rename_i hidle
      cases hp
      have hreq : Requests w'.toShared t (authorizeRequest cfg order plan req.idempotencyKey) :=
        ⟨h'.phase, hidle, by
          show plan.amountCents = w'.db.total order.id
          rw [Db.total, h'.fact.2, hamount], req, h'.job, rfl⟩
      refine ⟨.single rfl (.request hreq), ?_⟩
      have hn := h'.own (G := fun _ => True) (Option.some_ne_none _) (.single rfl (.request hreq))
        (phase_request ..) rfl rfl
        (by simp) trivial
      refine wp_issue hn .trivial (Option.some_ne_none _) (fun _ _ => trivial) fun w₂ h₂ _ ch r w₃ hx => ?_
      rcases exec_cases hx with hp | ⟨e, _, hu, rfl, rfl⟩ | ⟨e, w₁, _, h₁, _⟩
      · simp only [perform] at hp
        split at hp
        · rename_i res hres
          cases hp
          have hs : Own cfg t w₂.toShared (w₂.toShared.setRpc t (.answered res)) :=
            .single rfl (.receive (h₂.phase : w₂.phase t = .requested order.id) hres)
          refine ⟨hs, hok res _ ?_⟩
          exact h₂.own (Option.some_ne_none _) hs (h₂.phase : w₂.phase t = _) rfl rfl (by simp)
            (Function.update_self ..)
        · cases hp
      · obtain ⟨hs, hn'⟩ := h₂.reject (Option.some_ne_none _) .awaitAuthorize rfl (.inr rfl) (.inr rfl)
        exact ⟨hs, hrelease e _ hn'⟩
      · cases h₁
    · cases hp
  · obtain ⟨hs, hn'⟩ := h'.reject (Option.some_ne_none _) (.sendAuthorize _) rfl (.inl rfl) (.inl rfl)
    exact ⟨hs, hrelease e _ hn'⟩
  · cases h₁

/-- A late failure: the payment may be there, the order stays pending. -/
theorem caught_late {e : Err} {phase : Phase} {sess : Session} {late undone : Bool} {worker : Nat} (id : Uuid)
    (hu : isUniqueViolation e = false) (hs : sess.active = false) (hl : late = true)
    (hp : phase = .requested id ∨ phase = .paid id ∨ ∃ mid, phase = .identified id mid)
    (h : Now cfg c t ⟨sess, some (.create req), phase, late, undone, 1, worker⟩ held (fun _ => True) w) :
    ∃ L held, Caught cfg c t req e L held w :=
  ⟨_, _, rfl, rfl, .inr ⟨hs, .inr (.inr ⟨hl, id, hp⟩), hu⟩, h⟩

theorem wp_updatePayment {id : Uuid} {payment : AuthorizeResponse} {Q : Except Err Unit → World → Prop}
    (h : Now cfg c t (Local.call req ⟨false, false, none⟩ (.requested id) 2) []
      (fun s => s.rpc t = .answered payment) w)
    (hok : ∀ w', Now cfg c t (Local.call req ⟨false, false, none⟩ (.paid id) 2) []
      (fun s => s.rpc t = .answered payment) w' → Q (.ok ()) w')
    (herr : ∀ e phase w', isUniqueViolation e = false → phase = .requested id ∨ phase = .paid id →
      Now cfg c t ((Local.call req ⟨false, false, none⟩ phase 2).fails
        (.updatePayment id payment.paymentId payment.status)) [] (fun _ => True) w' → Q (.error e) w') :
    Wp cfg c t (issue (.updatePayment id payment.paymentId payment.status)) Q w := by
  refine wp_issue h (.answered payment) (Option.some_ne_none _) (fun _ _ => trivial) fun w' h' _ ch r w'' hx => ?_
  have hs : Own cfg t w'.toShared (w'.toShared.write t (.payOrder id payment.paymentId payment.status)) :=
    .single rfl (.pay (h'.phase : w'.phase t = .requested id) h'.fact)
  have hn := h'.own (G := fun s => s.rpc t = .answered payment)
    (Option.some_ne_none _) hs (phase_pay ..) rfl rfl nofun h'.fact
  rcases exec_cases hx with hp | ⟨e, _, hu, rfl, rfl⟩ | ⟨e, w₁, hu, h₁, rfl, rfl⟩
  · simp only [perform] at hp
    split at hp
    · cases hp
      exact ⟨hs, hok _ hn⟩
    · cases hp
  · exact ⟨.single rfl (.failed rfl), herr e _ _ hu (.inl rfl) (h'.top.failed .trivial rfl)⟩
  · simp only [performLost] at h₁
    split at h₁
    · cases h₁
      exact ⟨hs.snoc rfl (.ackLost t _ _), herr e _ _ hu (.inr rfl) (hn.top.ackLost .trivial _)⟩
    · cases h₁

theorem wp_publishProcess {order : Order} {payment : AuthorizeResponse} {Q : Except Err Uuid → World → Prop}
    (h : Now cfg c t (Local.call req ⟨false, false, none⟩ (.paid order.id) 1) []
      (fun s => s.rpc t = .answered payment) w)
    (hok : ∀ mid phase w', phase = .published order.id mid ∨ phase = .identified order.id mid →
      Now cfg c t (Local.call req ⟨false, false, none⟩ phase 1) [] (fun s => s.rpc t = .answered payment) w' →
      Q (.ok mid) w')
    (herr : ∀ e w', (∃ L held, Caught cfg c t req e L held w') → Q (.error e) w') :
    Wp cfg c t (publishProcess order) Q w := by
  have hF : Lasting cfg c t fun s => s.rpc t = .answered payment := .answered payment
  refine (discipline cfg c).wp_bind ?_
  refine wp_quiet rfl h hF (Option.some_ne_none _) (fun _ _ => trivial) (fun w₁ r w₂ h₁ _ hp => ?_) nofun
  cases hp
  have hs₁ : Step cfg (some t) w₁.toShared _ := .identify (h₁.phase : w₁.phase t = .paid order.id)
  have hn₁ := h₁.own (G := fun s => s.rpc t = .answered payment) (Option.some_ne_none _) (.single rfl hs₁)
    (phase_identify h₁.phase)
    rfl rfl (by simp) h₁.fact
  refine ⟨.single rfl hs₁, ?_⟩
  refine (discipline cfg c).wp_bind ?_
  refine wp_read (fun w => w.clock) (fun _ => rfl) rfl (fun _ => trivial) hn₁ hF (Option.some_ne_none _)
    (fun w₃ h₃ _ => ?_) nofun
  refine (discipline cfg c).wp_bind ?_
  refine wp_quiet rfl h₃ hF (Option.some_ne_none _) (fun _ _ => trivial) (fun w₄ r w₅ h₄ _ hp => ?_)
    (fun e w₄ _ hu h₄ => ?_)
  · cases hp
    unfold Shared.publish
    split
    · exact ⟨.refl _, hok _ _ _ (.inr rfl) h₄⟩
    · have hs₄ : Step cfg (some t) w₄.toShared _ :=
        .publish w₃.clock (h₄.phase : w₄.phase t = .identified order.id w₁.uuids)
      refine ⟨.single rfl hs₄, hok _ _ _ (.inl rfl) ?_⟩
      exact h₄.own (Option.some_ne_none _) (.single rfl hs₄) (phase_publish _ h₄.phase) rfl rfl (by simp) h₄.fact
  · exact herr e w₄ (caught_late order.id hu rfl rfl (.inr (.inr ⟨_, rfl⟩)) h₄.top)

theorem stored_of_paid {phase : Phase} {id mid : Uuid} {payment : AuthorizeResponse} {res : CreateOrderResult}
    (h : Now cfg c t (Local.call req ⟨false, false, none⟩ phase 1) [] (fun s => s.rpc t = .answered payment) w)
    (hp : phase = .published id mid ∨ phase = .identified id mid) (hid : res.order.id = id)
    (hpay : res.payment = some payment) (hitems : res.items = none) : Stored w.toShared req res := by
  have hphase : w.phase t = phase := h.phase
  obtain ⟨req', o, ho⟩ := h.saga.inv.calls.owns t id (by rw [hphase]; rcases hp with rfl | rfl <;> rfl)
  have hreq : req = req' := by
    have := h.job.symm.trans ho.job
    simpa [Local.call] using this
  subst hreq
  have hpaid : o.paidWith (some payment) := by
    have hf := ho.fits
    rw [hphase, h.fact] at hf
    rcases hp with rfl | rfl
    · obtain ⟨res', hr, hA | hA⟩ := hf <;> (cases hr; exact hA.payment)
    · obtain ⟨res', hr, hA⟩ := hf
      cases hr
      exact hA.payment
  refine ⟨⟨o, hid ▸ ho.found, ho.user, ho.key, fun payment' hp' => ?_⟩, fun items hi => ?_⟩
  · rw [hpay] at hp'
    cases hp'
    exact hpaid
  · rw [hitems] at hi; cases hi

theorem wp_settle {order : Order} {plan : OrderPlan} {items : List OrderItem}
    (h : Now cfg c t (Local.call req ⟨false, false, none⟩ (.reserved order.id) 1) []
      (fun s => (s.db.order? order.id).isSome ∧ s.db.itemsOf order.id = items) w)
    (hamount : (items.map fun item => (item.priceAtPurchase : Int) * item.quantity).sum = plan.amountCents) :
    Wp cfg c t (settle cfg order plan req.idempotencyKey) (Tried cfg c t req) w := by
  refine (discipline cfg c).wp_bind ?_
  refine wp_authorizePayment h hamount (fun payment w₁ h₁ => ?_) (fun e L held w₁ hc => ⟨L, held, hc⟩)
  refine (discipline cfg c).wp_bind ?_
  refine wp_withConnection h₁ (.answered payment) rfl rfl (fun w₂ h₂ => ?_) (fun e w₂ hu h₂ => ?_)
  · refine wp_updatePayment h₂ (fun w₃ h₃ => ?_) (fun e phase w₃ hu hp h₃ => ?_)
    · refine ⟨_, _, h₃, .answered payment, Option.some_ne_none _, fun w₄ h₄ => ?_⟩
      refine (discipline cfg c).wp_bind ?_
      refine wp_publishProcess h₄ (fun mid phase w₅ hp h₅ => ?_) (fun e w₅ hc => hc)
      refine ⟨_, _, h₅.weaken fun _ => ?_, rfl, rfl, nofun, fun _ => ⟨mid, hp⟩⟩
      exact stored_of_paid h₅ hp rfl rfl rfl
    · refine ⟨_, _, h₃, .trivial, Option.some_ne_none _, fun w₄ h₄ => caught_late order.id hu rfl rfl ?_ h₄⟩
      exact hp.imp_right .inl
  · exact caught_late order.id hu rfl rfl (.inl rfl) h₂.top

end OrdersBackend
