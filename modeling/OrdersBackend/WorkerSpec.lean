import OrdersBackend.Rules

/-!
# The worker's handler

A delivery is acknowledged only when its message has been consumed, or has
been published again; otherwise it goes back to the queue.
-/

namespace OrdersBackend

open Conc Async

variable {cfg : Config} {c : Catalogue} {t : Tid} {L : Local} {held : List (Row × RowVal)} {F : Shared → Prop}
variable {w : World} {msg : Message} {payload : OrdersProcessMessage}

/-- The part of a delivery that nothing has gone wrong for. -/
def Local.delivery (msg : Message) (sess : Session) (phase : Phase) (worker : Nat) : Local :=
  ⟨sess, some (.deliver msg), phase, false, false, 0, worker⟩

def Delivered (cfg : Config) (c : Catalogue) (t : Tid) (msg : Message) (w : World) : Prop :=
  ∃ L held, Now cfg c t L held (fun _ => True) w ∧ L.job = some (.deliver msg)

/-- What the `catch` of `handle` finds: the message has been consumed before,
or the transaction has not, or cannot be rolled back. -/
inductive Thrown (cfg : Config) (c : Catalogue) (t : Tid) (msg : Message)
    (payload : OrdersProcessMessage) (e : Err)
    (w : World) : Prop
  | seen {L : Local} {held : List (Row × RowVal)} (hu : isUniqueViolation e = true)
      (hjob : L.job = some (.deliver msg))
      {mid : Uuid} (hm : payload.messageId = some mid)
      (h : Now cfg c t L held (fun s => (s.db.processed? mid).isSome) w)
  | failed {L : Local} {held : List (Row × RowVal)} (hu : isUniqueViolation e = false)
      (hjob : L.job = some (.deliver msg))
      (hp : L.phase = .start ∨ L.sess.broken = true ∨ L.sess.active = false)
      (h : Now cfg c t L held (fun _ => True) w)

/-! ## Acknowledgements -/

theorem Now.delivered (h : Now cfg c t L held F w) (hjob : L.job = some (.deliver msg)) :
    Delivered cfg c t msg w :=
  ⟨L, held, h.weaken fun _ => trivial, hjob⟩

theorem Now.unacked (h : Now cfg c t L held F w) (hjob : L.job = some (.deliver msg)) {m : Message}
    (hc : w.broker.channel t = .ready (some m)) : m = msg := by
  have hm := h.saga.inv.messages.held t m hc
  have := hm.symm.trans (h.job.trans hjob)
  simpa using this

theorem wp_ack {Q : Except Err Unit → World → Prop} (h : Now cfg c t L held F w) (hF : Lasting cfg c t F)
    (hjob : L.job = some (.deliver msg)) (hcontent : msg.content = .value payload)
    (hready : ∀ w', Now cfg c t L held F w' → w'.broker.channel t = .lost ∨ Ackable w'.toShared t payload)
    (hok : ∀ w', Now cfg c t L held (fun _ => True) w' → Q (.ok ()) w')
    (herr : ∀ e w', isUniqueViolation e = false → Now cfg c t L held (fun _ => True) w' → Q (.error e) w') :
    Wp cfg c t (issue .ack) Q w := by
  have hj : L.job ≠ none := by simp [hjob]
  refine wp_quiet rfl h hF hj (fun _ _ => trivial) (fun w₁ r w₂ h₁ _ hp => ?_)
    (fun e w₁ _ hu h₁ => herr e w₁ hu (h₁.weaken fun _ => trivial))
  cases hp
  unfold Shared.ack
  split
  · rename_i m hc
    have hm := h₁.unacked hjob hc
    have hA : Ackable w₁.toShared t payload := (hready w₁ h₁).resolve_left (by simp [hc])
    have hs : Own cfg t w₁.toShared (w₁.toShared.acked t m) := .single rfl (.ack hc (hm ▸ hcontent) hA)
    refine ⟨hs, hok _ ?_⟩
    have := h₁.own (G := fun _ => True) hj hs (phase_acked t m w₁.toShared) rfl rfl (fun _ _ => rfl) trivial
    rwa [h₁.phase] at this
  · exact ⟨.refl _, hok _ (h₁.weaken fun _ => trivial)⟩

theorem wp_nack {Q : Except Err Unit → World → Prop} (h : Delivered cfg c t msg w)
    (hQ : ∀ r w', Delivered cfg c t msg w' → Q r w') : Wp cfg c t (issue .nack) Q w := by
  obtain ⟨L, held, h, hjob⟩ := h
  have hj : L.job ≠ none := by simp [hjob]
  refine wp_quiet rfl h .trivial hj (fun _ _ => trivial) (fun w₁ r w₂ h₁ _ hp => ?_)
    (fun e w₁ _ _ h₁ => hQ _ w₁ (h₁.delivered hjob))
  cases hp
  unfold Shared.nack
  split
  · rename_i m hc
    have hs : Own cfg t w₁.toShared (w₁.toShared.nacked t) := .single rfl (.nack hc)
    have hn := h₁.own (G := fun _ => True) hj hs rfl rfl rfl (fun _ _ => rfl) trivial
    exact ⟨hs, hQ _ _ (hn.delivered hjob)⟩
  · exact ⟨.refl _, hQ _ _ (h₁.delivered hjob)⟩

/-! ## The `catch` -/

/-- A failed delivery is published again, unless its channel is lost, and then
acknowledged. -/
theorem wp_republish {rk : RoutingKey} {msg' : Message} (h : Now cfg c t L held (fun _ => True) w)
    (hjob : L.job = some (.deliver msg)) (hcontent : msg.content = .value payload) (hp : L.phase = .start)
    (hr : Republishes cfg payload rk msg') :
    Wp cfg c t (do
      issue (.publish rk msg')
      issue .ack : Api Unit) (fun _ w' => Delivered cfg c t msg w') w := by
  have hj : L.job ≠ none := by simp [hjob]
  refine (discipline cfg c).wp_bind ?_
  refine wp_quiet rfl h .trivial hj (fun _ _ => trivial) (fun w₁ r w₂ h₁ _ hx => ?_)
    (fun e w₁ _ _ h₁ => h₁.delivered hjob)
  cases hx
  unfold Shared.publish
  split
  · rename_i hc
    refine ⟨.refl _, ?_⟩
    refine wp_ack (h₁.weaken (G := fun s => s.broker.channel t = .lost) fun _ => hc) .lost hjob hcontent
      (fun w₃ h₃ => .inl h₃.fact) (fun w₃ h₃ => h₃.delivered hjob) (fun e w₃ _ h₃ => h₃.delivered hjob)
  · have hjobs : w₁.jobs t = some (.deliver msg) := h₁.job.trans hjob
    have hs : Own cfg t w₁.toShared (w₁.toShared.published t rk msg') :=
      .single rfl (.republish hjobs hcontent (h₁.phase.trans hp) hr)
    have hn := h₁.own (G := fun _ => True) hj hs (phase_republish hr) rfl rfl (fun _ _ => rfl) trivial
    refine ⟨hs, ?_⟩
    refine wp_ack (L := L.to .republished) hn .trivial hjob hcontent (fun w₃ h₃ => .inr (.inl h₃.phase))
      (fun w₃ h₃ => h₃.delivered hjob) (fun e w₃ _ h₃ => h₃.delivered hjob)

theorem wp_handleCatch {e : Err} (hcontent : msg.content = .value payload) (h : Thrown cfg c t msg payload e w) :
    Wp cfg c t (handleCatch cfg payload e) (fun _ w' => Delivered cfg c t msg w') w := by
  unfold handleCatch
  cases h with
  | @seen L held hu hjob mid hm h =>
    have hj : L.job ≠ none := by simp [hjob]
    have hF : Lasting cfg c t fun s => (s.db.processed? mid).isSome := .consumed mid
    rw [if_pos hu]
    refine (discipline cfg c).wp_bind ?_
    refine wp_rollback h hF hj (fun w₁ _ _ h₁ => ?_) (fun w₁ _ _ h₁ => h₁.delivered hjob)
      (fun e' w₁ _ h₁ => h₁.delivered hjob)
    exact wp_ack h₁ hF hjob hcontent (fun w₂ h₂ => .inr (.inr ⟨mid, hm, h₂.fact⟩))
      (fun w₂ h₂ => h₂.delivered hjob) (fun e w₂ _ h₂ => h₂.delivered hjob)
  | @failed L held hu hjob hp h =>
    have hj : L.job ≠ none := by simp [hjob]
    rw [if_neg (by simp [hu])]
    refine (discipline cfg c).wp_bind ?_
    refine wp_rollback h .trivial hj (fun w₁ hb ha h₁ => ?_) (fun w₁ _ _ h₁ => h₁.delivered hjob)
      (fun e' w₁ _ h₁ => h₁.delivered hjob)
    -- the rollback went through, so nothing was committed
    have hstart : L.phase = .start := by
      rcases hp with hp | hp | hp
      · exact hp
      · rw [hb] at hp; cases hp
      · rw [ha rfl] at hp; cases hp
    refine (discipline cfg c).wp_check (fun _ _ => h₁.delivered hjob) fun attempt hv => ?_
    by_cases hlt : attempt.lt cfg.maxAttempts = true
    · rw [if_pos hlt]
      exact wp_republish h₁ hjob hcontent hstart (.retry hv hlt)
    · rw [if_neg hlt]
      exact wp_republish h₁ hjob hcontent hstart (.dlq hv (by simpa using hlt))

/-! ## The `try` -/

def Handled (cfg : Config) (c : Catalogue) (t : Tid) (msg : Message) (payload : OrdersProcessMessage) :
    Except Err Unit → World → Prop
  | .ok _, w => Delivered cfg c t msg w
  | .error e, w => Thrown cfg c t msg payload e w

theorem isSome_processed?_process (s : Shared) (t : Tid) (mid oid : Uuid) (order : Order) (processedAt : Nat) :
    ((s.commit t (processLog mid oid order processedAt)).db.processed? mid).isSome := by
  rw [commit_eq]
  simp only [applyAll_processLog]
  split <;> simp [Db.processed?, Db.updateOrder]

/-- The dedup row and the status take effect together; then the delivery is
acknowledged. -/
theorem wp_commitProcessed {mid oid : Uuid} (order : Order) (items : List OrderItem) (processedAt : Nat)
    (hcontent : msg.content = .value payload) (hm : payload.messageId = some mid) (ho : payload.orderId = some oid)
    (h : Now cfg c t (.delivery msg ⟨true, false, some (processLog mid oid order processedAt)⟩ .start 1)
      [(.message mid, .message none), (.order oid, .order (some order) items)] (fun _ => True) w) :
    Wp cfg c t (do
      issue (.commitTransaction .qr)
      issue .ack : Api Unit) (Handled cfg c t msg payload) w := by
  have hG : Lasting cfg c t fun s => (s.db.processed? mid).isSome := .consumed mid
  refine (discipline cfg c).wp_bind ?_
  refine wp_commit h .trivial (Option.some_ne_none _) rfl hG (fun w₁ h₁ _ => ?_) (fun w₁ h₁ => ?_)
    (fun e w₁ hu h₁ => ?_)
    (fun e w₁ hu h₁ => ?_)
  · have hunseen := h₁.row (r := .message mid) (v := .message none) (by simp)
    have hfound := h₁.row (r := .order oid) (v := .order (some order) items) (by simp)
    rw [Db.row, RowVal.message.injEq] at hunseen
    rw [Db.row, RowVal.order.injEq] at hfound
    have hs : Step cfg (some t) w₁.toShared (w₁.toShared.commit t (processLog mid oid order processedAt)) :=
      .process processedAt ⟨⟨msg, h₁.job, hcontent⟩, hm, ho, h₁.phase, hunseen, hfound.1⟩
    refine ⟨.single rfl hs, ?_⟩
    exact isSome_processed?_process ..
  · refine wp_ack h₁ hG rfl hcontent (fun w₂ h₂ => .inr (.inr ⟨mid, hm, h₂.fact⟩)) (fun w₂ h₂ => h₂.delivered rfl)
      (fun e w₂ hu h₂ => .failed hu rfl (.inr (.inr rfl)) h₂)
  · exact .failed hu rfl (.inl rfl) h₁
  · exact .failed hu rfl (.inr (.inl rfl)) (h₁.weaken fun _ => trivial)

theorem wp_processOrder {mid oid : Uuid} {order : Order} {items : List OrderItem}
    (hcontent : msg.content = .value payload) (hm : payload.messageId = some mid) (ho : payload.orderId = some oid)
    (hid : order.id = oid)
    (h : Now cfg c t (.delivery msg ⟨true, false, some [.insertProcessed ⟨mid, oid, "orders-worker"⟩]⟩ .start 1)
      [(.message mid, .message none), (.order oid, .order (some order) items)] (fun _ => True) w) :
    Wp cfg c t (if order.status = .processed then do
        issue (.commitTransaction .qr)
        issue .ack
      else do
        issue .simulateWork
        issue (.saveProcessed order.id)
        issue (.commitTransaction .qr)
        issue .ack) (Handled cfg c t msg payload) w := by
  by_cases hst : order.status = .processed
  · rw [if_pos hst]
    refine wp_commitProcessed order items 0 hcontent hm ho ?_
    rw [processLog, if_pos hst]
    exact h
  · rw [if_neg hst]
    refine (discipline cfg c).wp_bind ?_
    refine wp_quiet rfl h .trivial (Option.some_ne_none _) (fun _ _ => trivial) (fun w₁ r w₂ h₁ _ hp => ?_)
      (fun e w₁ _ hu h₁ => .failed hu rfl (.inl rfl) h₁)
    cases hp
    refine ⟨.refl _, ?_⟩
    refine (discipline cfg c).wp_bind ?_
    refine wp_quiet rfl h₁ .trivial (Option.some_ne_none _) (fun _ _ => trivial) (fun w₂ r w₃ h₂ _ hp => ?_)
      (fun e w₂ _ hu h₂ => .failed hu rfl (.inl rfl) h₂)
    obtain ⟨hs, rfl⟩ := stmt_map hp
    refine ⟨by rw [(stmt_eq hs).2.1]; exact .refl _, ?_⟩
    refine wp_commitProcessed order items w₂.clock hcontent hm ho ?_
    rw [processLog, if_neg hst]
    rw [hid] at hs
    exact h₂.stmt_held hs (by simp [Write.rows])

theorem wp_handleTry (hcontent : msg.content = .value payload)
    (h : Now cfg c t (.delivery msg ⟨true, false, some []⟩ .start 1) [] (fun _ => True) w) :
    Wp cfg c t (handleTry payload) (Handled cfg c t msg payload) w := by
  have thrown : ∀ {e : Err} {ws : Option (List Write)} {held : List (Row × RowVal)} {w : World},
      isUniqueViolation e = false → Now cfg c t (.delivery msg ⟨true, false, ws⟩ .start 1) held (fun _ => True) w →
      Thrown cfg c t msg payload e w := fun hu h => .failed hu rfl (.inl rfl) h
  refine (discipline cfg c).wp_bind ?_
  refine wp_quiet rfl h .trivial (Option.some_ne_none _) (fun _ _ => trivial) (fun w₁ r w₂ h₁ _ hp => ?_)
    (fun e w₁ _ hu h₁ => thrown hu h₁)
  simp only [perform] at hp
  split at hp
  · rename_i mid oid hm ho
    split at hp
    · have hview := h₁.view_nil (.inr rfl)
      rw [hview] at hp
      split at hp
      · -- a duplicate
        rename_i hseen
        cases hp
        exact ⟨.refl _, .seen isUniqueViolation_uniqueViolation rfl hm (h₁.weaken fun _ => hseen)⟩
      · rename_i hunseen
        obtain ⟨hs, rfl⟩ := stmt_map hp
        have hrow : w₁.db.row (.message mid) = .message none := by
          rw [Db.row]
          simpa using hunseen
        have hn := h₁.stmt hs
        simp only [Write.rows, List.map_cons, List.map_nil, hrow, List.nil_append] at hn
        refine ⟨by rw [(stmt_eq hs).2.1]; exact .refl _, ?_⟩
        refine (discipline cfg c).wp_bind ?_
        refine wp_quiet rfl hn .trivial (Option.some_ne_none _) (fun _ _ => trivial) (fun w₃ r w₄ h₃ _ hp => ?_)
          (fun e w₃ _ hu h₃ => thrown hu h₃)
        rw [ho] at hp
        simp only [perform] at hp
        split at hp
        · cases hp
          refine ⟨.refl _, ?_⟩
          have hview : (w₃.view t).order? oid = w₃.db.order? oid := by
            rw [World.view, h₃.sess]; rfl
          have hn₄ := h₃.lock (.order oid)
          rw [Db.row] at hn₄
          rw [hview]
          cases hf : w₃.db.order? oid with
          | none => exact thrown (by decide) hn₄
          | some order =>
            rw [hf] at hn₄
            exact wp_processOrder hcontent hm ho (Db.order?_id hf) hn₄
        · cases hp
    · cases hp
  · cases hp
    exact ⟨.refl _, thrown (by decide) h₁⟩

/-! ## The delivery -/

theorem wp_handle (h : Now cfg c t (.delivery msg .init .start 0) [] (fun _ => True) w) :
    Wp cfg c t (handle cfg msg) (fun _ w' => Delivered cfg c t msg w') w := by
  refine (discipline cfg c).wp_bind ?_
  cases hp : parse msg with
  | error e => exact h.delivered rfl
  | ok payload =>
    have hcontent : msg.content = .value payload := by
      unfold parse at hp
      split at hp <;> first | cases hp; assumption | cases hp
    refine (discipline cfg c).wp_bind ?_
    refine wp_connect .worker h .trivial (Option.some_ne_none _) (fun w₁ h₁ => ?_)
      (fun e w₁ _ h₁ => h₁.delivered rfl)
    refine (discipline cfg c).wp_bind ?_
    refine wp_startTransaction .qr h₁ .trivial (Option.some_ne_none _) (fun w₂ h₂ => ?_)
      (fun e w₂ _ h₂ => h₂.delivered rfl)
    refine (discipline cfg c).wp_tryFinally ?_
    have htry := (discipline cfg c).wp_tryCatch (f := handleCatch cfg payload)
      (Q := fun _ w' => Delivered cfg c t msg w')
      ((discipline cfg c).wp_mono (fun r w' hr => ?_) (wp_handleTry hcontent h₂))
    · refine (discipline cfg c).wp_mono (fun r w' hr => ?_) htry
      obtain ⟨L, held, hn, hjob⟩ := hr
      refine wp_release .worker hn .trivial (by simp [hjob]) (fun w'' h'' => ?_)
      cases r <;> exact h''.delivered hjob
    · cases r with
      | ok _ => exact hr
      | error e => exact wp_handleCatch hcontent hr

theorem wp_onMessage (h : Now cfg c t (.delivery msg .init .start 0) [] (fun _ => True) w) :
    Wp cfg c t (onMessage cfg msg) (fun _ w' => Delivered cfg c t msg w') w := by
  refine (discipline cfg c).wp_tryCatch ((discipline cfg c).wp_mono (fun r w' hr => ?_) (wp_handle h))
  cases r with
  | ok _ => exact hr
  | error e => exact wp_nack hr fun _ _ h => h

theorem wp_deliveryThread (h : Now cfg c t (.delivery msg .init .start 0) [] (fun _ => True) w) :
    Wp cfg c t (deliveryThread cfg msg) ((discipline cfg c).post t) w := by
  have hend : ∀ (r : Except Err Reply) (w' : World), Delivered cfg c t msg w' →
    (discipline cfg c).post t r w' := by
    rintro r w' ⟨L, held, hn, hjob⟩
    refine ⟨hn.saga, fun req hj => ?_⟩
    have := hj.symm.trans (hn.job.trans hjob)
    simp at this
  refine (discipline cfg c).wp_bind ((discipline cfg c).wp_mono (fun r w' hr => ?_) (wp_onMessage h))
  cases r with
  | ok _ => exact hend _ w' hr
  | error e => exact hend _ w' hr

end OrdersBackend
