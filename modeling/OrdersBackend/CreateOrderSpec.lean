import OrdersBackend.ReserveSpec
import OrdersBackend.SettleSpec

/-!
# The whole call

`createOrder` from its first `await` to its reply only does steps of the saga,
and its reply is what the saga has come to.
-/

namespace OrdersBackend

open Conc Async

variable {cfg : Config} {c : Catalogue} {t : Tid} {L : Local} {held : List (Row × RowVal)} {F : Shared → Prop}
variable {w : World} {req : CreateOrderRequest}

/-! ## The `try` -/

theorem wp_commitReused {existing : Order × List OrderItem}
    (h : Now cfg c t (.reserving req []) [] (fun s => Stored s req (reusedResult existing)) w) :
    Wp cfg c t (do
      issue (.commitTransaction .qr)
      pure (reusedResult existing) : Api CreateOrderResult) (Tried cfg c t req) w := by
  have hF : Lasting cfg c t fun s => Stored s req (reusedResult existing) := .stored req _
  refine (discipline cfg c).wp_bind ?_
  refine wp_commit h hF (Option.some_ne_none _) rfl hF (fun w' h' _ => ⟨.refl _, h'.fact⟩) (fun w' h' => ?_)
    (fun e w' _ h' => ?_)
    (fun e w' _ h' => ?_)
  · exact ⟨_, _, h', rfl, rfl, fun _ => rfl, nofun⟩
  · exact caught_open rfl h'
  · exact ⟨_, _, rfl, rfl, .inl ⟨rfl, .inl rfl⟩, h'.top⟩

theorem wp_createOrderTry (h : Now cfg c t (.reserving req []) [] (fun _ => True) w) :
    Wp cfg c t (createOrderTry cfg req.actor req.dto req.idempotencyKey) (Tried cfg c t req) w := by
  refine (discipline cfg c).wp_bind ?_
  refine wp_read (fun w => (w.view t).user? req.actor.id)
    (fun _ => rfl) rfl (fun _ => trivial) h .trivial (Option.some_ne_none _)
    (fun w₁ h₁ _ => ?_) (fun e w₁ _ _ h₁ => caught_open rfl h₁)
  rw [h₁.view_nil (.inr rfl)]
  cases hu : w₁.db.user? req.actor.id with
  | none => exact caught_open rfl h₁
  | some user =>
    have h₁' := h₁.weaken (G := fun s => (s.db.user? req.actor.id).isSome) fun _ => by rw [hu]; rfl
    have hU : Lasting cfg c t fun s => (s.db.user? req.actor.id).isSome := .user _
    refine (discipline cfg c).wp_bind ?_
    refine wp_read (fun w => (w.view t).withItems ((w.view t).orderByKey? req.actor.id req.idempotencyKey))
      (fun _ => rfl) rfl (fun _ => trivial) h₁' hU (Option.some_ne_none _) (fun w₂ h₂ _ => ?_)
        (fun e w₂ _ _ h₂ => caught_open rfl h₂)
    rw [h₂.view_nil (.inr rfl)]
    cases hf : w₂.db.orderByKey? req.actor.id req.idempotencyKey with
    | some o => exact wp_commitReused (h₂.weaken fun _ => stored_of_key h₂.saga hf)
    | none =>
      refine (discipline cfg c).wp_bind ?_
      exact wp_reserve h₂ (fun order plan items w₃ hamount h₃ => wp_settle h₃ hamount) (fun e w₃ hc => hc)

/-! ## The call -/

theorem Lasting.ofSays (r : Except Err CreateOrderResult) : Lasting cfg c t (Says req r) := by
  cases r with
  | error e => exact .trivial
  | ok res => exact .stored req res

theorem wp_createOrder
    (h : Now cfg c t (.call req .init .start 0) [] (fun _ => True) w) :
    Wp cfg c t (createOrder cfg req.actor req.dto req.idempotencyKey)
    (fun r w' => ∃ api, Replied cfg c t req api r w')
      w := by
  have hrej : ∀ {L : Local} {w' : World} (e : Err), Now cfg c t L [] (fun _ => True) w' →
      L.job = some (.create req) → L.phase = .start → L.late = false →
        ∃ api, Replied cfg c t req api (.error e) w' :=
    fun _ hn hj hp hl => ⟨_, _, _, hn, hj, rfl, .inr (.inl ⟨hl, .inl hp⟩)⟩
  unfold createOrder
  split
  · exact hrej _ h rfl rfl rfl
  split
  · exact hrej _ h rfl rfl rfl
  refine (discipline cfg c).wp_bind ?_
  refine wp_connect .api h .trivial (Option.some_ne_none _) (fun w₁ h₁ => ?_)
    (fun e w₁ _ h₁ => hrej e h₁ rfl rfl rfl)
  refine (discipline cfg c).wp_bind ?_
  refine wp_startTransaction .qr h₁ .trivial (Option.some_ne_none _) (fun w₂ h₂ => ?_)
    (fun e w₂ _ h₂ => hrej e h₂ rfl rfl rfl)
  have htry := (discipline cfg c).wp_tryCatch (f := createOrderCatch req.actor req.idempotencyKey)
    (Q := Replied cfg c t req 1) ((discipline cfg c).wp_mono (fun r w' hr => ?_) (wp_createOrderTry h₂))
  · refine (discipline cfg c).wp_tryFinally ((discipline cfg c).wp_mono (fun r w' hr => ?_) htry)
    obtain ⟨L, held, hn, hj, _, hrep⟩ := hr
    refine wp_release .api hn (.ofSays r) (by simp [hj]) (fun w'' h'' => ?_)
    exact ⟨_, _, _, h'', hj, rfl, hrep⟩
  · cases r with
    | ok res => exact hr
    | error e =>
      obtain ⟨L, held, hc⟩ := hr
      exact wp_createOrderCatch hc

theorem Replied.ended {api : Nat} {r : Except Err CreateOrderResult} (h : Replied cfg c t req api r w) :
    (discipline cfg c).post t (r.map some) w := by
  obtain ⟨L, held, hn, hj, _, hrep⟩ := h
  refine ⟨hn.saga, fun req' hj' => ?_⟩
  have hreq : req' = req := by
    have := hj'.symm.trans (hn.job.trans hj)
    simpa using this
  subst hreq
  cases r with
  | error e =>
    show (w.loc t).Rejected
    rw [hn.loc]
    exact hrep
  | ok res =>
    have hp := hn.phase
    refine ⟨res, rfl, ?_, ?_, hn.fact⟩
    · rw [hp]; exact hrep.1
    · rw [hp]; exact hrep.2

theorem wp_requestThread (h : Now cfg c t (.call req .init .start 0) [] (fun _ => True) w) :
    Wp cfg c t (requestThread cfg req) ((discipline cfg c).post t) w := by
  refine (discipline cfg c).wp_bind ((discipline cfg c).wp_mono (fun r w' hr => ?_) (wp_createOrder h))
  obtain ⟨api, hr⟩ := hr
  cases r with
  | ok res => exact hr.ended
  | error e => exact hr.ended

end OrdersBackend
