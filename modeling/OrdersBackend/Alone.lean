import OrdersBackend.Lib.Alone
import OrdersBackend.RowWaits

/-!
# A thread left alone

Nothing runs beside a call or a delivery but the payments service, for it, and
nothing fails. It finds every row free, and comes to one end.
-/

namespace OrdersBackend

open Conc Async

variable {cfg : Config} {t : Tid} {s : Shared} {pool : Pool → List Tid} {sess : Session} {ws : List Write}
variable {w w' : World} {p : Pool} {α : Type}

/-- Left alone, the procedure comes to an end with `Q`. -/
abbrev Lone (cfg : Config) (t : Tid) (Q : Except Err α → World → Prop) (p : Api α) (w : World) : Prop :=
  (machine cfg).Ends t .proceed (.execute t) Q p w

/-- The world of `t`, in which nobody else has locked a row. -/
structure Sole (t : Tid) (s : Shared) (pool : Pool → List Tid) (sess : Session) (w : World) : Prop where
  shared : w.toShared = s
  pool : w.pool = pool
  session : w.sess t = sess
  locks : ∀ r, w.locks r = none ∨ sess.log ≠ none ∧ w.locks r = some t

/-- The payments service has no request of `t` to serve. -/
def Shared.unserved (t : Tid) (s : Shared) : Prop := ∀ req, s.rpc t ≠ .requested req

theorem unserved_of_idle (h : s.rpc t = .idle) : s.unserved t := by
  intro req hreq
  rw [h] at hreq
  cases hreq

theorem execute_none (h : w.toShared.unserved t) : (machine cfg).env (.execute t) w = none := by
  simp only [machine, World.env, Shared.env]
  split
  · exact (h _ ‹_›).elim
  · rfl

namespace Sole

theorem lockable (h : Sole t s pool sess w) (r : Row) : w.lockable t r = true := by
  rcases h.locks r with hr | ⟨_, hr⟩ <;> simp [World.lockable, hr]

theorem view (h : Sole t s pool ⟨true, false, some ws⟩ w) : w.view t = s.db.applyAll ws := by
  unfold World.view
  rw [h.session, ← h.shared]

/-- A command of `t` is refused by its channel, which is lost. -/
theorem refused (h : Sole t s pool sess w) (hs : s.unserved t) {cmd : Cmd} {Q : Except Err cmd.Res → World → Prop}
    (hlost : w.refuses t cmd = true) (hQ : Q (.error channelClosed) (w.logEvent (.failed t cmd))) :
    Lone cfg t Q (issue cmd) w := ends_call (if_pos hlost) (execute_none (h.shared ▸ hs)) hQ

/-- A command of `t` goes through. -/
theorem issue (h : Sole t s pool sess w) (hs : s.unserved t) (cmd : Cmd) {r : Except Err cmd.Res}
    {Q : Except Err cmd.Res → World → Prop} (hx : perform cfg t cmd w = some (r, w')) (hQ : Q r w')
    (hopen : w.refuses t cmd = false := by rfl) : Lone cfg t Q (issue cmd) w :=
  ends_call ((exec_proceed hopen).trans hx) (execute_none (h.shared ▸ hs)) hQ

theorem logEvent (h : Sole t s pool sess w) (e : Event) : Sole t (s.log e) pool sess (w.logEvent e) :=
  ⟨congrArg (Shared.log e) h.shared, h.pool, h.session, h.locks⟩

theorem lock (h : Sole t s pool ⟨true, false, some ws⟩ w) (r : Row) :
    Sole t s pool ⟨true, false, some ws⟩ (w.lock t r) := by
  refine ⟨h.shared, h.pool, h.session, fun r' => ?_⟩
  by_cases hr : r' = r
  · subst hr
    exact .inr ⟨Option.some_ne_none _, Function.update_self ..⟩
  · have hlocks : (w.lock t r).locks r' = w.locks r' := Function.update_of_ne hr ..
    rw [hlocks]
    exact h.locks r'

theorem stmt (h : Sole t s pool ⟨true, false, some ws⟩ w) (wr : Write) :
    ∃ w', w.stmt t wr = some w' ∧ Sole t s pool ⟨true, false, some (ws ++ [wr])⟩ w' := by
  have hsome : (w.stmt t wr).isSome = true := stmt_isSome fun r _ => h.lockable r
  obtain ⟨w', hw⟩ := Option.isSome_iff_exists.mp hsome
  obtain ⟨_, hs, hp, hsess, hlocks⟩ := stmt_eq hw
  refine ⟨w', hw, hs.trans h.shared, hp.trans h.pool, ?_, fun r => ?_⟩
  · rw [hsess, Function.update_self, h.session]
    rfl
  · rw [hlocks]
    split
    · exact .inr ⟨Option.some_ne_none _, rfl⟩
    · exact (h.locks r).imp_right fun hr => ⟨Option.some_ne_none _, hr.2⟩

theorem nextUuid (h : Sole t s pool sess w) : Sole t { s with uuids := s.uuids + 1 } pool sess w.nextUuid := by
  refine ⟨?_, h.pool, h.session, h.locks⟩
  rw [← h.shared]
  rfl

theorem setShared (h : Sole t s pool sess w) (s' : Shared) : Sole t s' pool sess { w with toShared := s' } :=
  ⟨rfl, h.pool, h.session, h.locks⟩

theorem addConn (h : Sole t s pool sess w) (p : Pool) :
    Sole t s (Function.update pool p (t :: pool p)) sess (w.addConn p t) :=
  ⟨h.shared, by rw [← h.pool]; rfl, h.session, h.locks⟩

theorem removeConn (h : Sole t s pool sess w) (p : Pool) :
    Sole t s (Function.update pool p ((pool p).erase t)) sess (w.removeConn p t) :=
  ⟨h.shared, by rw [← h.pool]; rfl, h.session, h.locks⟩

/-- The transaction of `t` is over. -/
theorem endTx (h : Sole t s pool sess w) (active broken : Bool) :
    Sole t s pool ⟨active, broken, none⟩ (w.endTx t active broken) := by
  refine ⟨h.shared, h.pool, Function.update_self .., fun r => .inl ?_⟩
  show (if w.locks r = some t then none else w.locks r) = none
  rcases h.locks r with hr | ⟨_, hr⟩ <;> simp [hr]

theorem commitTx (h : Sole t s pool sess w) (ws : List Write) (active broken : Bool) :
    Sole t (s.commit t ws) pool ⟨active, broken, none⟩ (w.commitTx t ws active broken) := by
  have hw := (h.setShared (s.commit t ws)).endTx active broken
  rw [← h.shared] at hw ⊢
  exact hw

end Sole

theorem erase_update (pool : Pool → List Tid) (p : Pool) (t : Tid) :
    Function.update (Function.update pool p (t :: pool p)) p
      ((Function.update pool p (t :: pool p) p).erase t) = pool := by
  rw [Function.update_self, List.erase_cons_head, Function.update_idem, Function.update_eq_self]

/-! ## Transactions -/

section
variable {Q : Except Err Unit → World → Prop}

/-- A procedure with a connection of its own. -/
theorem lone_connect (h : Sole t s pool sess w) (hs : s.unserved t) (p : Pool)
    (hroom : (pool p).length < cfg.poolSize p)
    (hQ : ∀ w', Sole t s (Function.update pool p (t :: pool p)) sess w' → Q (.ok ()) w') :
    Lone cfg t Q (issue (.connect p)) w := by
  refine h.issue hs (.connect p) (r := .ok ()) ?_ (hQ _ (h.addConn p))
  simp only [perform, h.pool, hroom, if_true]

theorem lone_startTransaction (h : Sole t s pool sess w) (hs : s.unserved t) (hsound : sess.broken = false)
    (hQ : ∀ w', Sole t s pool ⟨true, false, some []⟩ w' → Q (.ok ()) w') :
    Lone cfg t Q (issue (.startTransaction .qr)) w := by
  refine h.issue hs (.startTransaction .qr) rfl (hQ _ ⟨h.shared, h.pool, ?_, fun r => ?_⟩)
  · show Function.update w.sess t _ t = _
    rw [Function.update_self, h.session, hsound]
    rfl
  · exact (h.locks r).imp_right fun hr => ⟨Option.some_ne_none _, hr.2⟩

theorem lone_commit (h : Sole t s pool ⟨true, false, some ws⟩ w) (hs : s.unserved t)
    (hQ : ∀ w', Sole t (s.commit t ws) pool ⟨false, false, none⟩ w' → Q (.ok ()) w') :
    Lone cfg t Q (issue (.commitTransaction .qr)) w := by
  refine h.issue hs (.commitTransaction .qr) (r := .ok ()) ?_ (hQ _ (h.commitTx ws false false))
  simp only [perform, h.session]
  rfl

theorem lone_rollback (h : Sole t s pool ⟨true, false, some ws⟩ w) (hs : s.unserved t)
    (hQ : ∀ w', Sole t s pool ⟨false, false, none⟩ w' → Q (.ok ()) w') :
    Lone cfg t Q (issue (.rollbackTransaction .qr)) w := by
  refine h.issue hs (.rollbackTransaction .qr) (r := .ok ()) ?_ (hQ _ (h.endTx false false))
  simp only [perform, h.session]
  rfl

theorem lone_release (h : Sole t s (Function.update pool p (t :: pool p)) sess w) (hs : s.unserved t)
    (hQ : ∀ w', Sole t s pool sess w' → Q (.ok ()) w') : Lone cfg t Q (issue (.release p)) w := by
  refine h.issue hs (.release p) rfl (hQ _ ?_)
  have hw := h.removeConn p
  rwa [erase_update] at hw

end

end OrdersBackend
