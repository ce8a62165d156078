import OrdersBackend.Rules

/-!
# The `catch` of `createOrder`

What the stages of a call leave when they return and when they throw, and
that the `catch` turns the latter into a reply.
-/

namespace OrdersBackend

open Conc Async

/-- The part of a call that nothing has gone wrong for. -/
def Local.call (req : CreateOrderRequest) (sess : Session) (phase : Phase) (api : Nat) : Local :=
  ⟨sess, some (.create req), phase, false, false, api, 0⟩

/-- What the `catch` of `createOrder` finds: the reservation is still open, or
its COMMIT went through unnoticed, or the call is over as `Rejected` says. -/
def CatchReady (e : Err) (L : Local) : Prop :=
  L.sess.active = true ∧ (L.sess.broken = true ∨ L.phase = .start ∧ L.late = false) ∨
    L.sess.active = false ∧ L.Rejected ∧ isUniqueViolation e = false

structure Caught (cfg : Config) (c : Catalogue) (t : Tid) (req : CreateOrderRequest) (e : Err) (L : Local)
    (held : List (Row × RowVal)) (w : World) : Prop where
  job : L.job = some (.create req)
  api : L.api = 1
  ready : CatchReady e L
  now : Now cfg c t L held (fun _ => True) w

/-- How a call that ends with `r` leaves its thread. -/
def Local.Replies (L : Local) : Except Err CreateOrderResult → Prop
  | .error _ => L.Rejected
  | .ok res => (res.reused = true → L.phase = .start) ∧
      (res.reused = false → ∃ mid, L.phase = .published res.order.id mid ∨ L.phase = .identified res.order.id mid)

def Says (req : CreateOrderRequest) : Except Err CreateOrderResult → Shared → Prop
  | .error _, _ => True
  | .ok res, s => Stored s req res

def Replied (cfg : Config) (c : Catalogue) (t : Tid) (req : CreateOrderRequest) (api : Nat)
    (r : Except Err CreateOrderResult) (w : World) : Prop :=
  ∃ L held, Now cfg c t L held (Says req r) w ∧ L.job = some (.create req) ∧ L.api = api ∧ L.Replies r

/-- What the `try` of `createOrder` leaves. -/
def Tried (cfg : Config) (c : Catalogue) (t : Tid) (req : CreateOrderRequest) (r : Except Err CreateOrderResult)
    (w : World) : Prop :=
  match r with
  | .ok res => Replied cfg c t req 1 (.ok res) w
  | .error e => ∃ L held, Caught cfg c t req e L held w

variable {cfg : Config} {c : Catalogue} {t : Tid} {L : Local} {held : List (Row × RowVal)} {F : Shared → Prop}
variable {w : World} {req : CreateOrderRequest}

theorem Now.top (h : Now cfg c t L held F w) : Now cfg c t L held (fun _ => True) w := h.weaken fun _ => trivial

/-! ## The `catch` -/

theorem wp_rollbackIfActive {Q : Except Err Unit → World → Prop} (h : Now cfg c t L held F w)
    (hF : Lasting cfg c t F) (hjob : L.job ≠ none)
    (hidle : ∀ w', L.sess.active = false → Now cfg c t L held F w' → Q (.ok ()) w')
    (hok : ∀ w', L.sess.active = true → L.sess.broken = false → Now cfg c t (L.inTx ⟨false, false, none⟩) [] F w' →
      Q (.ok ()) w')
    (hfail : ∀ e w', Now cfg c t
      ((L.inTx ⟨L.sess.active, L.sess.broken, none⟩).fails (.rollbackTransaction .qr)) [] F w' → Q (.error e) w') :
    Wp cfg c t rollbackIfActive Q w := by
  refine (discipline cfg c).wp_bind ?_
  refine wp_read (fun w => (w.sess t).active) (fun _ => rfl) rfl (fun _ => trivial) h hF hjob
    (fun w' h' _ => ?_) nofun
  simp only [h'.sess]
  cases ha : L.sess.active with
  | false => exact hidle w' ha h'
  | true =>
    refine wp_rollback h' hF hjob (fun w'' hb _ h'' => hok w'' ha hb h'') (fun w'' _ hn _ => ?_)
      (fun e w'' _ h'' => hfail e w'' h'')
    rw [ha] at hn
    cases hn

theorem stored_of_key {s : Shared} (hs : Saga cfg c s) {o : Order}
    (h : s.db.orderByKey? req.actor.id req.idempotencyKey = some o) :
    Stored s req (reusedResult (o, s.db.itemsOf o.id)) := by
  obtain ⟨hm, hu, hk⟩ := Db.orderByKey?_mem h
  have hid : s.db.order? o.id = some o := hs.inv.tables.order?_of_mem hm
  refine ⟨⟨o, hid, hu, hk, fun payment hp => ?_⟩, fun items hi => ?_⟩
  · simp only [reusedResult, paymentOf] at hp
    split at hp
    · rename_i pid st h₁ h₂
      cases hp
      exact ⟨h₁, h₂⟩
    · cases hp
  · simp only [reusedResult, Option.some.injEq] at hi
    exact hi

theorem wp_createOrderCatch {e : Err} (h : Caught cfg c t req e L held w) :
    Wp cfg c t (createOrderCatch req.actor req.idempotencyKey e) (Replied cfg c t req 1) w := by
  have hjob : L.job ≠ none := by simp [h.job]
  have hrej : ∀ {L' : Local} {held' : List (Row × RowVal)} {w' : World} (e' : Err),
      Now cfg c t L' held' (fun _ => True) w' → L'.job = L.job → L'.api = L.api → L'.Rejected →
      Replied cfg c t req 1 (.error e') w' :=
    fun _ hn hj ha hr => ⟨_, _, hn, hj.trans h.job, ha.trans h.api, hr⟩
  refine (discipline cfg c).wp_bind ?_
  refine wp_rollbackIfActive h.now .trivial hjob (fun w' ha h' => ?_) (fun w' ha hb h' => ?_) (fun e' w' h' => ?_)
  · -- the reservation was over
    rcases h.ready with ⟨hn, _⟩ | ⟨_, hr, hu⟩
    · rw [ha] at hn; cases hn
    · rw [if_neg (by simp [hu])]
      exact hrej e h' rfl rfl hr
  · rcases h.ready with ⟨_, hn | ⟨hp, hl⟩⟩ | ⟨hn, _⟩
    · rw [hb] at hn; cases hn
    · -- rolled back: nothing is reserved
      have hr : (L.inTx ⟨false, false, none⟩).Rejected := .inr (.inl ⟨hl, .inl hp⟩)
      by_cases hu : isUniqueViolation e = true
      · rw [if_pos hu]
        refine (discipline cfg c).wp_bind ?_
        refine wp_withConnection h' .trivial h.job h.api (fun w₁ h₁ => ?_)
          (fun e' w₁ _ h₁ => hrej e' h₁ rfl rfl hr)
        refine wp_read (fun w => (w.view t).withItems ((w.view t).orderByKey? req.actor.id req.idempotencyKey))
          (fun _ => rfl) rfl (fun _ => trivial) h₁ .trivial hjob (fun w₂ h₂ _ => ?_) (fun e' w₂ _ _ h₂ => ?_)
        · have hview := h₂.view_nil (.inl rfl)
          cases hf : w₂.db.orderByKey? req.actor.id req.idempotencyKey with
          | none =>
            refine ⟨_, _, h₂, .trivial, hjob, fun w₃ h₃ => ?_⟩
            simp only [hview, hf]
            exact hrej _ h₃ rfl rfl hr
          | some o =>
            have hst := stored_of_key h₂.saga hf
            refine ⟨_, _, h₂.weaken fun _ => hst, .stored req _, hjob, fun w₃ h₃ => ?_⟩
            simp only [hview, hf]
            exact ⟨_, _, h₃, h.job, h.api, fun _ => hp, nofun⟩
        · exact ⟨_, _, h₂, .trivial, hjob, fun w₃ h₃ => hrej e' h₃ rfl rfl hr⟩
      · rw [if_neg hu]
        exact hrej e h' rfl rfl hr
    · rw [ha] at hn; cases hn
  · exact hrej e' h' rfl rfl (.inl rfl)

end OrdersBackend
