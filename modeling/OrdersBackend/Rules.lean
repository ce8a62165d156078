import OrdersBackend.Assertions

/-!
# Rules for the commands

The weakest precondition of each kind of command, in terms of assertions. A
command that rejects leaves the assertion, up to the flags of the thread.
-/

namespace OrdersBackend

open Conc Async

variable {cfg : Config} {c : Catalogue} {t : Tid} {L : Local} {held : List (Row × RowVal)} {F : Shared → Prop}
variable {w : World} {α : Type}

abbrev Wp (cfg : Config) (c : Catalogue) (t : Tid) (p : Api α) (Q : Except Err α → World → Prop)
    (w : World) : Prop :=
  (discipline cfg c).wp t p Q w

/-- The commands that, when they reject, have changed nothing. -/
def Cmd.quiet : Cmd → Bool
  | .commitTransaction _ | .rollbackTransaction _ | .updatePayment _ _ _ | .sendAuthorize _ |
      .awaitAuthorize => false
  | _ => true

def Local.gain (p : Pool) (L : Local) : Local :=
  match p with
  | .api => { L with api := L.api + 1 }
  | .worker => { L with worker := L.worker + 1 }

def Local.drop (p : Pool) (L : Local) : Local :=
  match p with
  | .api => { L with api := L.api - 1 }
  | .worker => { L with worker := L.worker - 1 }

theorem Cmd.quiet_eq {cmd : Cmd} (h : cmd.quiet = true) (w : World) :
    reject t cmd w = w ∧ performLost t cmd w = none ∧ cmd.authorizes = false := by
  cases cmd <;> first | exact ⟨rfl, rfl, rfl⟩ | cases h

namespace Now

variable {w' : World}

theorem addConn (h : Now cfg c t L held F w) (p : Pool) : Now cfg c t (L.gain p) held F (w.addConn p t) where
  saga := h.saga
  loc := by
    rw [← h.loc]
    cases p <;> simp [World.loc, World.addConn, Local.gain]
  owned := h.owned
  vals := h.vals
  fact := h.fact

theorem removeConn (h : Now cfg c t L held F w) (p : Pool) : Now cfg c t (L.drop p) held F (w.removeConn p t) where
  saga := h.saga
  loc := by
    rw [← h.loc]
    cases p <;> simp [World.loc, World.removeConn, Local.drop]
  owned := h.owned
  vals := h.vals
  fact := h.fact

end Now

theorem wp_issue {cmd : Cmd} {Q : Except Err cmd.Res → World → Prop} (h : Now cfg c t L held F w)
    (hF : Lasting cfg c t F) (hjob : L.job ≠ none) (hready : ∀ w', Now cfg c t L held F w' → Ready t cmd w')
    (hx : ∀ w', Now cfg c t L held F w' → WorldInv cfg c w' → ∀ ch r w'', exec cfg t cmd ch w' = some (r, w'') →
      Own cfg t w'.toShared w''.toShared ∧ Q r w'') : Wp cfg c t (issue cmd) Q w := by
  refine (discipline cfg c).wp_call fun w' hr hi => ?_
  have h' := h.stays hF hr.1 hr.2
  exact ⟨⟨by rw [h'.job]; exact hjob, hready w' h'⟩, fun ch r w'' _ => hx w' h' hi ch r w''⟩

theorem wp_quiet {cmd : Cmd} {Q : Except Err cmd.Res → World → Prop} (hq : cmd.quiet = true)
    (h : Now cfg c t L held F w) (hF : Lasting cfg c t F) (hjob : L.job ≠ none)
    (hready : ∀ w', Now cfg c t L held F w' → Ready t cmd w')
    (hok : ∀ w' r w'', Now cfg c t L held F w' → WorldInv cfg c w' → perform cfg t cmd w' = some (r, w'') →
      Own cfg t w'.toShared w''.toShared ∧ Q r w'')
    (herr : ∀ e w', cmd.infallible = false → isUniqueViolation e = false →
      Now cfg c t (L.fails cmd) held F w' → Q (.error e) w') : Wp cfg c t (issue cmd) Q w := by
  refine wp_issue h hF hjob hready fun w' h' hi ch r w'' hx => ?_
  obtain ⟨hrej, hlost, hauth⟩ := Cmd.quiet_eq hq w' (t := t)
  rcases exec_cases hx with hp | ⟨e, hf, hu, rfl, rfl⟩ | ⟨e, w₁, _, h₁, _⟩
  · exact hok w' r w'' h' hi hp
  · rw [hrej]
    exact ⟨Runs.single rfl (.failed hauth), herr e _ hf hu (h'.failed hF hauth)⟩
  · rw [hlost] at h₁; cases h₁

theorem wp_read {cmd : Cmd} {Q : Except Err cmd.Res → World → Prop} (v : World → cmd.Res)
    (hv : ∀ w, perform cfg t cmd w = some (.ok (v w), w)) (hq : cmd.quiet = true)
    (hready : ∀ w, Ready t cmd w) (h : Now cfg c t L held F w) (hF : Lasting cfg c t F) (hjob : L.job ≠ none)
    (hok : ∀ w', Now cfg c t L held F w' → WorldInv cfg c w' → Q (.ok (v w')) w')
    (herr : ∀ e w', cmd.infallible = false → isUniqueViolation e = false →
      Now cfg c t (L.fails cmd) held F w' → Q (.error e) w') : Wp cfg c t (issue cmd) Q w := by
  refine wp_quiet hq h hF hjob (fun w' _ => hready w') (fun w' r w'' h' hi hp => ?_) herr
  rw [hv w'] at hp
  cases hp
  exact ⟨.refl _, hok w' h' hi⟩

theorem wp_move {cmd : Cmd} {Q : Except Err cmd.Res → World → Prop} (L' : Local) (held' : List (Row × RowVal))
    (hq : cmd.quiet = true) (h : Now cfg c t L held F w) (hF : Lasting cfg c t F) (hjob : L.job ≠ none)
    (hready : ∀ w', Now cfg c t L held F w' → Ready t cmd w')
    (hperf : ∀ w' r w'', Now cfg c t L held F w' → WorldInv cfg c w' → perform cfg t cmd w' = some (r, w'') →
      ∃ v, r = .ok v ∧ w''.toShared = w'.toShared ∧ Now cfg c t L' held' F w'')
    (hok : ∀ v w', Now cfg c t L' held' F w' → Q (.ok v) w')
    (herr : ∀ e w', cmd.infallible = false → isUniqueViolation e = false →
      Now cfg c t (L.fails cmd) held F w' → Q (.error e) w') : Wp cfg c t (issue cmd) Q w := by
  refine wp_quiet hq h hF hjob hready (fun w' r w'' h' hi hp => ?_) herr
  obtain ⟨v, rfl, hs, h''⟩ := hperf w' r w'' h' hi hp
  exact ⟨by rw [hs]; exact .refl _, hok v w'' h''⟩

/-! ## Connections -/

theorem wp_connect {Q : Except Err Unit → World → Prop} (p : Pool) (h : Now cfg c t L held F w)
    (hF : Lasting cfg c t F) (hjob : L.job ≠ none)
    (hok : ∀ w', Now cfg c t (L.gain p) held F w' → Q (.ok ()) w')
    (herr : ∀ e w', isUniqueViolation e = false → Now cfg c t L held F w' → Q (.error e) w') :
    Wp cfg c t (issue (.connect p)) Q w := by
  refine wp_move (L.gain p) held rfl h hF hjob (fun _ _ => True.intro) (fun w' r w'' h' _ hp => ?_)
    (fun _ w' => hok w')
    fun e w' _ hu h' => herr e w' hu h'
  simp only [perform] at hp
  split at hp
  · cases hp
    exact ⟨(), rfl, rfl, h'.addConn p⟩
  · cases hp

theorem wp_release {Q : Except Err Unit → World → Prop} (p : Pool) (h : Now cfg c t L held F w)
    (hF : Lasting cfg c t F) (hjob : L.job ≠ none)
    (hok : ∀ w', Now cfg c t (L.drop p) held F w' → Q (.ok ()) w') : Wp cfg c t (issue (.release p)) Q w := by
  refine wp_move (L.drop p) held rfl h hF hjob (fun _ _ => True.intro) (fun w' r w'' h' _ hp => ?_)
    (fun _ w' => hok w') nofun
  cases hp
  exact ⟨(), rfl, rfl, h'.removeConn p⟩

theorem wp_startTransaction {Q : Except Err Unit → World → Prop} (slot : Slot) (h : Now cfg c t L held F w)
    (hF : Lasting cfg c t F) (hjob : L.job ≠ none)
    (hok : ∀ w', Now cfg c t
      (L.inTx { L.sess with active := slot == .qr || L.sess.active, log := some [] }) held F w' → Q (.ok ()) w')
    (herr : ∀ e w', isUniqueViolation e = false →
      Now cfg c t (L.fails (.startTransaction slot)) held F w' → Q (.error e) w') :
    Wp cfg c t (issue (.startTransaction slot)) Q w := by
  refine wp_move (L.inTx { L.sess with active := slot == .qr || L.sess.active, log := some [] }) held rfl h hF hjob
    (fun _ _ => True.intro) (fun w' r w'' h' _ hp => ?_) (fun _ w' => hok w')
    fun e w' _ hu h' => herr e w' hu h'
  cases hp
  refine ⟨(), rfl, rfl, ?_⟩
  rw [h'.sess]
  exact h'.setSession _

theorem wp_withConnection {use : Use} {body : Api α} {Q : Except Err α → World → Prop}
    (h : Now cfg c t L [] F w) (hF : Lasting cfg c t F) {req : CreateOrderRequest}
    (hjob : L.job = some (.create req)) (hapi : L.api = 1)
    (hbody : ∀ w', Now cfg c t (L.gain .api) [] F w' → Wp cfg c t body (fun r w'' =>
      ∃ L' G, Now cfg c t L' [] G w'' ∧ Lasting cfg c t G ∧ L'.job ≠ none ∧
        ∀ w₁, Now cfg c t (L'.drop .api) [] G w₁ → Q r w₁) w')
    (herr : ∀ e w', isUniqueViolation e = false → Now cfg c t (L.fails (.acquire use)) [] F w' → Q (.error e) w') :
    Wp cfg c t (withConnection use body) Q w := by
  have hj : L.job ≠ none := by simp [hjob]
  refine (discipline cfg c).wp_bind ?_
  refine wp_move (L.gain .api) [] rfl h hF hj
    (fun w' h' => ⟨⟨req, h'.job.trans hjob⟩, h'.api.trans hapi, fun r hr => ?_⟩) (fun w' r w'' h' _ hp => ?_)
    (fun _ w' h' => ?_) fun e w' _ hu h' => herr e w' hu h'
  · exact List.not_mem_nil ((h'.owned r).mp hr)
  · simp only [perform] at hp
    split at hp
    · cases hp
      exact ⟨(), rfl, rfl, h'.addConn .api⟩
    · cases hp
  · refine (discipline cfg c).wp_tryFinally ((discipline cfg c).wp_mono (fun r w'' hr => ?_) (hbody w' h'))
    obtain ⟨L', G, hn, hG, hj', hQ⟩ := hr
    refine wp_move (L'.drop .api) [] rfl hn hG hj' (fun _ _ => True.intro) (fun w₁ r₁ w₂ h₁ _ hp => ?_)
      (fun _ w₁ h₁ => hQ w₁ h₁) (fun e w₁ hf => by simp [Cmd.infallible] at hf)
    cases hp
    exact ⟨(), rfl, rfl, h₁.removeConn .api⟩

/-! ## Transactions -/

theorem rejectedIn_commit (u t : Tid) (f : Cmd → Bool) (ws : List Write) (s : Shared) :
    rejectedIn u f (s.commit t ws).trace = rejectedIn u f s.trace := by
  rw [commit_eq]
  refine rejectedIn_append u f (fun e he => ?_) s.trace
  obtain ⟨wr, _, δ, rfl⟩ := mem_wroteEvents he
  rfl

theorem Now.commitTx {G : Shared → Prop} {ws : List Write} (h : Now cfg c t L held F w) (hjob : L.job ≠ none)
    (hs : Own cfg t w.toShared (w.toShared.commit t ws)) (hG : G (w.toShared.commit t ws)) (active broken : Bool) :
    Now cfg c t ((L.to (ws.foldl Phase.write L.phase)).inTx ⟨active, broken, none⟩) [] G
      (w.commitTx t ws active broken) := by
  have h₀ : Now cfg c t L [] F (w.unlockAll t) := h.unlockAll
  have h₁ := h₀.own (G := G) hjob hs (phase_commit t ws w.toShared)
    (rejectedIn_commit t t _ ws w.toShared) (rejectedIn_commit t t _ ws w.toShared) nofun hG
  rw [h.phase] at h₁
  exact h₁.setSession _

theorem wp_commit {G : Shared → Prop} {slot : Slot} {ws : List Write} {Q : Except Err Unit → World → Prop}
    (h : Now cfg c t L held F w) (hF : Lasting cfg c t F) (hjob : L.job ≠ none) (hlog : L.sess.log = some ws)
    (hG : Lasting cfg c t G)
    (hstep : ∀ w', Now cfg c t L held F w' → WorldInv cfg c w' →
      Own cfg t w'.toShared (w'.toShared.commit t ws) ∧ G (w'.toShared.commit t ws))
    (hok : ∀ w', Now cfg c t
      ((L.to (ws.foldl Phase.write L.phase)).inTx ⟨slot == .em && L.sess.active, false, none⟩) [] G w' →
      Q (.ok ()) w')
    (hfail : ∀ e w', isUniqueViolation e = false → Now cfg c t
      ((L.inTx ⟨L.sess.active, L.sess.broken, none⟩).fails (.commitTransaction slot)) [] F w' → Q (.error e) w')
    (hlost : ∀ e w', isUniqueViolation e = false → Now cfg c t
      (((L.to (ws.foldl Phase.write L.phase)).inTx ⟨L.sess.active, true, none⟩).fails (.commitTransaction slot))
        [] G w' → Q (.error e) w') :
    Wp cfg c t (issue (.commitTransaction slot)) Q w := by
  refine wp_issue h hF hjob (fun _ _ => True.intro) fun w' h' hi ch r w'' hx => ?_
  have hws : (w'.sess t).log = some ws := by rw [h'.sess, hlog]
  obtain ⟨hs, hg⟩ := hstep w' h' hi
  rcases exec_cases hx with hp | ⟨e, _, hu, rfl, rfl⟩ | ⟨e, w₁, hu, h₁, rfl, rfl⟩
  · simp only [perform, hws] at hp
    cases hp
    exact ⟨hs, hok _ (by rw [h'.sess]; exact h'.commitTx hjob hs hg _ _)⟩
  · refine ⟨Runs.single rfl (.failed rfl), hfail e _ hu ?_⟩
    have he := h'.endTx L.sess.active L.sess.broken
    rw [← h'.sess] at he ⊢
    exact he.failed hF rfl
  · simp only [performLost, hws, Option.map_some, Option.some.injEq] at h₁
    subst h₁
    refine ⟨hs.snoc rfl (.ackLost t _ _), hlost e _ hu ?_⟩
    have he := h'.commitTx hjob hs hg L.sess.active true
    rw [← h'.sess] at he ⊢
    exact he.ackLost hG _

theorem wp_rollback {slot : Slot} {Q : Except Err Unit → World → Prop} (h : Now cfg c t L held F w)
    (hF : Lasting cfg c t F) (hjob : L.job ≠ none)
    (hok : ∀ w', L.sess.broken = false → (slot = .qr → L.sess.active = true) →
      Now cfg c t (L.inTx ⟨slot == .em && L.sess.active, false, none⟩) [] F w' → Q (.ok ()) w')
    (hidle : ∀ w', slot = .qr → L.sess.active = false → Now cfg c t L held F w' →
      Q (.error transactionNotStarted) w')
    (hfail : ∀ e w', isUniqueViolation e = false → Now cfg c t
      ((L.inTx ⟨L.sess.active, L.sess.broken, none⟩).fails (.rollbackTransaction slot)) [] F w' →
      Q (.error e) w') :
    Wp cfg c t (issue (.rollbackTransaction slot)) Q w := by
  refine wp_issue h hF hjob (fun _ _ => True.intro) fun w' h' hi ch r w'' hx => ?_
  have hsess := h'.sess
  rcases exec_cases hx with hp | ⟨e, _, hu, rfl, rfl⟩ | ⟨e, w₁, _, h₁, _⟩
  · simp only [perform, hsess] at hp
    split at hp
    · cases hp
    · rename_i hb
      rw [Bool.not_eq_true] at hb
      split at hp
      · rename_i ha
        cases hp
        simp only [Bool.and_eq_true, beq_iff_eq, Bool.not_eq_true'] at ha
        exact ⟨.refl _, hidle _ ha.1 ha.2 h'⟩
      · rename_i ha
        cases hp
        refine ⟨.refl _, hok _ hb (fun hs => ?_) (h'.endTx _ _)⟩
        simpa [hs] using ha
  · refine ⟨Runs.single rfl (.failed rfl), hfail e _ hu ?_⟩
    have he := h'.endTx L.sess.active L.sess.broken
    rw [← hsess] at he ⊢
    exact he.failed hF rfl
  · cases h₁

end OrdersBackend
