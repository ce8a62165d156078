import OrdersBackend.SagaStep

/-!
# What a thread can count on

A thread's session, its phase and its connections are its own, and the rows
it has locked keep their committed values: whatever another thread, the
services or a crash of another thread do, `Stays` holds.
-/

namespace OrdersBackend

open Conc

/-! ## Failures after the point of no return -/

/-- The commands between a stored payment and the reply, whose failure nothing
compensates. -/
def Cmd.late : Cmd → Bool
  | .acquire .payment | .updatePayment _ _ _ | .publish .process _ => true
  | _ => false

/-- The commands of a rollback or of a compensation. -/
def Cmd.undoes : Cmd → Bool
  | .rollbackTransaction _ | .acquire .compensation | .startTransaction .em | .findOrderById _ | .saveFailed _
  | .incrementStock _ _ | .commitTransaction .em => true
  | _ => false

def Event.rejects (t : Tid) (f : Cmd → Bool) : Event → Bool
  | .failed t' c | .ackLost t' c => t' = t && f c
  | _ => false

def rejectedIn (t : Tid) (f : Cmd → Bool) (trace : List Event) : Bool := trace.any (Event.rejects t f)

theorem rejectedIn_cons (t : Tid) (f : Cmd → Bool) (e : Event) (trace : List Event) :
    rejectedIn t f (e :: trace) = (e.rejects t f || rejectedIn t f trace) := rfl

theorem any_append_of_not {f : Event → Bool} {es : List Event} (h : ∀ e ∈ es, f e = false) (trace : List Event) :
    (es ++ trace).any f = trace.any f := by
  rw [List.any_append, List.any_eq_false.mpr fun e he => by rw [h e he]; exact nofun, Bool.false_or]

theorem rejectedIn_append (t : Tid) (f : Cmd → Bool) {es : List Event} (h : ∀ e ∈ es, e.rejects t f = false)
    (trace : List Event) : rejectedIn t f (es ++ trace) = rejectedIn t f trace := any_append_of_not h trace

theorem rejects_of_actor {t : Tid} {e : Event} (h : e.actor ≠ some t) (f : Cmd → Bool) :
    e.rejects t f = false := by
  cases e with
  | failed t' c | ackLost t' c =>
    have hne : t' ≠ t := fun he => h (congrArg some he)
    simp [Event.rejects, hne]
  | _ => rfl

/-! ## The thread's own part of the world -/

structure Local where
  sess : Session
  job : Option Job
  phase : Phase
  late : Bool
  undone : Bool
  api : Nat
  worker : Nat

def Local.init : Local := ⟨.init, none, .start, false, false, 0, 0⟩

def World.loc (t : Tid) (w : World) : Local where
  sess := w.sess t
  job := w.jobs t
  phase := w.phase t
  late := rejectedIn t Cmd.late w.trace
  undone := rejectedIn t Cmd.undoes w.trace
  api := (w.pool .api).count t
  worker := (w.pool .worker).count t

structure Stays (t : Tid) (w w' : World) : Prop where
  loc : w'.loc t = w.loc t
  locks : ∀ r, w'.locks r = some t ↔ w.locks r = some t
  rows : ∀ r, w.locks r = some t → w'.db.row r = w.db.row r

namespace Stays

variable {t u : Tid} {w w' w'' : World}

theorem refl (t : Tid) (w : World) : Stays t w w := ⟨rfl, fun _ => Iff.rfl, fun _ _ => rfl⟩

theorem trans (h : Stays t w w') (h' : Stays t w' w'') : Stays t w w'' where
  loc := h'.loc.trans h.loc
  locks r := (h'.locks r).trans (h.locks r)
  rows r hr := (h'.rows r ((h.locks r).mpr hr)).trans (h.rows r hr)

/-! ### Steps of another thread `u` -/

theorem lock (hne : t ≠ u) {r : Row} (h : w.lockable u r = true) : Stays t w (w.lock u r) where
  loc := rfl
  locks r' := by
    by_cases hr : r' = r
    · subst hr
      have h₁ : (w.lock u r').locks r' = some u := Function.update_self ..
      rw [h₁]
      simp only [World.lockable, Bool.or_eq_true, beq_iff_eq] at h
      rcases h with h | h <;> simp [h, hne.symm]
    · have h₁ : (w.lock u r).locks r' = w.locks r' := Function.update_of_ne hr ..
      rw [h₁]
  rows _ _ := rfl

theorem locks_list (hne : t ≠ u) (rows : List Row) (w : World) (h : rows.all (w.lockable u) = true) :
    Stays t w (rows.foldl (World.lock u) w) := by
  induction rows generalizing w with
  | nil => exact .refl t w
  | cons r rows ih =>
    rw [List.all_cons, Bool.and_eq_true] at h
    rw [List.foldl_cons]
    refine (lock hne h.1).trans (ih _ ?_)
    rw [List.all_eq_true] at h ⊢
    intro r' hr'
    have := h.2 r' hr'
    simp only [World.lockable, World.lock] at this ⊢
    by_cases hrr : r' = r
    · subst hrr; simp
    · rwa [Function.update_of_ne hrr]

theorem setSession (hne : t ≠ u) (s : Session) (w : World) : Stays t w (w.setSession u s) where
  loc := by simp [World.loc, World.setSession, Function.update_of_ne hne]
  locks _ := Iff.rfl
  rows _ _ := rfl

theorem unlockAll (hne : t ≠ u) (w : World) : Stays t w (w.unlockAll u) where
  loc := rfl
  locks r := by
    simp only [World.unlockAll]
    by_cases h : w.locks r = some u
    · rw [if_pos h, h]; simp [hne.symm]
    · rw [if_neg h]
  rows _ _ := rfl

theorem endTx (hne : t ≠ u) (active broken : Bool) (w : World) : Stays t w (w.endTx u active broken) :=
  (unlockAll hne w).trans (setSession hne _ _)

theorem shared {s : Shared} (hj : s.jobs t = w.jobs t)
    (htr : ∃ es, s.trace = es ++ w.trace ∧ ∀ e ∈ es, e.actor ≠ some t)
    (hrows : ∀ r, w.locks r = some t → s.db.row r = w.db.row r) : Stays t w { w with toShared := s } where
  loc := by
    obtain ⟨es, he, hes⟩ := htr
    have h₁ := phaseIn_append hes w.trace
    have h₂ := rejectedIn_append t Cmd.late (fun e h => rejects_of_actor (hes e h) Cmd.late) w.trace
    have h₃ := rejectedIn_append t Cmd.undoes (fun e h => rejects_of_actor (hes e h) Cmd.undoes) w.trace
    rw [← he] at h₁ h₂ h₃
    simp only [World.loc, Shared.phase, hj, h₁, h₂, h₃]
  locks _ := Iff.rfl
  rows := hrows

theorem logEvent (hne : t ≠ u) {e : Event} (he : e.actor = some u) (w : World) : Stays t w (w.logEvent e) :=
  shared rfl ⟨[e], rfl, by simp [he, hne.symm]⟩ fun _ _ => rfl

theorem commit (hne : t ≠ u) {ws : List Write} (h : ∀ wr ∈ ws, ∀ r ∈ wr.rows, w.locks r = some u) :
    Stays t w { w with toShared := w.toShared.commit u ws } := by
  refine shared (by rw [commit_eq]) ⟨wroteEvents u w.db ws, by rw [commit_eq], fun e he => ?_⟩ fun r hr => ?_
  · obtain ⟨wr, _, δ, rfl⟩ := mem_wroteEvents he
    exact fun hu => hne (Option.some.inj hu).symm
  · rw [commit_eq]
    apply row_applyAll
    intro wr hw hmem
    rw [h wr hw r hmem] at hr
    exact hne (Option.some.inj hr).symm

theorem write (hne : t ≠ u) {wr : Write} (h : wr.rows.all (w.lockable u) = true) :
    Stays t w { w with toShared := w.toShared.write u wr } := by
  refine shared rfl ⟨[_], rfl, by simp [Event.actor, hne.symm]⟩ fun r hr => ?_
  apply row_apply
  intro hmem
  have := List.all_eq_true.mp h r hmem
  simp only [World.lockable, hr, Bool.or_eq_true, beq_iff_eq] at this
  rcases this with h | h
  · cases h
  · exact hne (Option.some.inj h)

theorem stmt (hne : t ≠ u) {wr : Write} (h : w.stmt u wr = some w') : Stays t w w' := by
  unfold World.stmt at h
  split at h
  · rename_i hl
    cases h
    exact (locks_list hne wr.rows w hl).trans (setSession hne _ _)
  · cases h

theorem addConn (hne : t ≠ u) (p : Pool) (w : World) : Stays t w (w.addConn p u) where
  loc := by
    cases p <;> simp [World.loc, World.addConn, hne.symm]
  locks _ := Iff.rfl
  rows _ _ := rfl

theorem removeConn (hne : t ≠ u) (p : Pool) (w : World) : Stays t w (w.removeConn p u) where
  loc := by
    cases p <;> simp [World.loc, World.removeConn, List.count_erase_of_ne hne]
  locks _ := Iff.rfl
  rows _ _ := rfl

theorem nextUuid (t : Tid) (w : World) : Stays t w w.nextUuid := ⟨rfl, fun _ => Iff.rfl, fun _ _ => rfl⟩

end Stays

/-! ## Commands -/

/-- The rows of `t`'s writes are locked by it until the transaction ends. -/
def LogLocked (t : Tid) (w : World) : Prop :=
  ∀ ws, (w.sess t).log = some ws → ∀ wr ∈ ws, ∀ r ∈ wr.rows, w.locks r = some t

theorem LogLocked.of_stays {t : Tid} {w w' : World} (h : LogLocked t w) (hs : Stays t w w') : LogLocked t w' := by
  intro ws hlog wr hw r hr
  have hsess : w'.sess t = w.sess t := congrArg Local.sess hs.loc
  rw [hsess] at hlog
  exact (hs.locks r).mpr (h ws hlog wr hw r hr)

theorem World.fallible_of_refuses {t : Tid} {w : World} {c : Cmd} (h : w.refuses t c = true) :
    c.infallible = false ∧ reject t c w = w := by
  cases c with
  | publish | ack | nack => exact ⟨rfl, rfl⟩
  | _ => cases h

theorem World.refuses_of_open {t : Tid} {w : World} (h : w.broker.channel t ≠ .lost) (c : Cmd) :
    w.refuses t c = false := by
  cases c <;> first | rfl | exact decide_eq_false h

theorem exec_proceed {cfg : Config} {t : Tid} {c : Cmd} {w : World} (h : w.refuses t c = false) :
    exec cfg t c .proceed w = perform cfg t c w := by
  simp only [exec, h, Bool.false_eq_true, if_false]

/-- A command that a lost channel refuses is not blocked. -/
theorem blocked_of_exec {cfg : Config} {t : Tid} {c : Cmd} {w : World} (h : exec cfg t c .proceed w = none) :
    perform cfg t c w = none := by
  simp only [exec] at h
  split at h
  · cases h
  · exact h

theorem isSome_exec {cfg : Config} {t : Tid} {c : Cmd} {w : World} (h : (perform cfg t c w).isSome) :
    (exec cfg t c .proceed w).isSome := by
  by_contra hn
  rw [blocked_of_exec (Option.not_isSome_iff_eq_none.mp hn)] at h
  cases h

theorem exec_cases {cfg : Config} {t : Tid} {c : Cmd} {ch : Choice} {w w' : World} {r : Except Err c.Res}
    (h : exec cfg t c ch w = some (r, w')) :
    perform cfg t c w = some (r, w') ∨
    (∃ e, c.infallible = false ∧ isUniqueViolation e = false ∧ r = .error e ∧
      w' = (reject t c w).logEvent (.failed t c)) ∨
    (∃ e w₁, isUniqueViolation e = false ∧ performLost t c w = some w₁ ∧ r = .error e ∧
      w' = w₁.logEvent (.ackLost t c)) := by
  cases ch with
  | proceed =>
    simp only [exec] at h
    split at h
    · rename_i hc
      obtain ⟨hfallible, hreject⟩ := World.fallible_of_refuses hc
      cases h
      exact .inr (.inl ⟨channelClosed, hfallible, rfl, rfl, by rw [hreject]⟩)
    · exact .inl h
  | unnoticed =>
    simp only [exec] at h
    split at h
    · exact .inl h
    · cases h
  | fail e =>
    simp only [exec] at h
    split at h
    · cases h
    · rename_i hc
      simp only [Bool.or_eq_true, not_or, Bool.not_eq_true] at hc
      cases h
      exact .inr (.inl ⟨e, hc.1, hc.2, rfl, rfl⟩)
  | ackLost e =>
    simp only [exec] at h
    split at h
    · cases h
    · rename_i hc
      rw [Bool.not_eq_true] at hc
      obtain ⟨w₁, h₁, he⟩ := Option.map_eq_some_iff.mp h
      cases he
      exact .inr (.inr ⟨e, w₁, hc, h₁, rfl, rfl⟩)

theorem stmt_map {α : Type} {t : Tid} {wr : Write} {w w' : World} {a r : α}
    (h : (w.stmt t wr).map (fun w' => (a, w')) = some (r, w')) : w.stmt t wr = some w' ∧ r = a := by
  obtain ⟨w₁, h₁, he⟩ := Option.map_eq_some_iff.mp h
  cases he
  exact ⟨h₁, rfl⟩

theorem perform_stays {cfg : Config} {t u : Tid} (hne : t ≠ u) {c : Cmd} {w w' : World} {r : Except Err c.Res}
    (hlog : LogLocked u w) (h : perform cfg u c w = some (r, w')) : Stays t w w' := by
  have locked : ∀ {row : Row}, w.lockable u row = true → [row].all (w.lockable u) = true := by simp
  cases c with
  | connect p | acquire use =>
    simp only [perform] at h
    split at h
    · cases h; exact .addConn hne _ w
    · cases h
  | release p | free => cases h; exact .removeConn hne _ w
  | startTransaction slot => cases h; exact .setSession hne _ w
  | isTransactionActive | findUser | findOrder | findOrderById | matchProducts | simulateWork | now =>
    cases h; exact .refl t w
  | commitTransaction slot =>
    simp only [perform] at h
    split at h
    · cases h; exact .refl t w
    · rename_i ws hws
      cases h
      exact (Stays.commit hne (hlog ws hws)).trans (.endTx hne _ _ _)
  | rollbackTransaction slot =>
    simp only [perform] at h
    split at h
    · cases h
    · split at h
      · cases h; exact .refl t w
      · cases h; exact .endTx hne _ _ w
  | lockProduct id =>
    simp only [perform] at h
    split at h
    · rename_i hl
      cases h; exact .lock hne hl
    · cases h
  | lockOrder id =>
    simp only [perform] at h
    split at h
    · cases h; exact .refl t w
    · split at h
      · rename_i hl
        cases h; exact .lock hne hl
      · cases h
  | saveStock | incrementStock | saveFailed | saveProcessed => exact .stmt hne (stmt_map h).1
  | insertItem => exact (Stays.nextUuid t w).trans (.stmt hne (stmt_map h).1)
  | insertOrder userId key =>
    simp only [perform] at h
    split at h
    · split at h
      · cases h; exact .refl t w
      · exact (Stays.nextUuid t w).trans (.stmt hne (stmt_map h).1)
    · cases h
  | insertProcessed mid oid handler =>
    simp only [perform] at h
    split at h
    · split at h
      · split at h
        · cases h; exact .refl t w
        · exact .stmt hne (stmt_map h).1
      · cases h
    · cases h; exact .refl t w
  | updatePayment id pid st =>
    simp only [perform] at h
    split at h
    · rename_i hl
      cases h; exact .write hne (locked hl)
    · cases h
  | sendAuthorize req =>
    simp only [perform] at h
    split at h
    · cases h
      exact .shared rfl ⟨[_], rfl, by simp [Event.actor, hne.symm]⟩ fun _ _ => rfl
    · cases h
  | awaitAuthorize =>
    simp only [perform] at h
    split at h
    · cases h; exact .shared rfl ⟨[], rfl, by simp⟩ fun _ _ => rfl
    · cases h
  | uuid => cases h; exact (Stays.nextUuid t w).trans (.logEvent hne rfl _)
  | publish rk msg =>
    cases h
    unfold Shared.publish
    split
    · exact .refl t w
    · exact .shared rfl ⟨[_], rfl, by simp [Event.actor, hne.symm]⟩ fun _ _ => rfl
  | ack =>
    cases h
    unfold Shared.ack
    split
    · exact .shared rfl ⟨[_], rfl, by simp [Event.actor, hne.symm]⟩ fun _ _ => rfl
    · exact .refl t w
  | nack =>
    cases h
    unfold Shared.nack
    split
    · exact .shared rfl ⟨[], rfl, by simp⟩ fun _ _ => rfl
    · exact .refl t w

theorem reject_stays {t u : Tid} (hne : t ≠ u) (c : Cmd) (w : World) : Stays t w (reject u c w) := by
  unfold reject
  split
  · exact .endTx hne _ _ w
  · exact .endTx hne _ _ w
  · exact .refl t w

theorem performLost_stays {t u : Tid} (hne : t ≠ u) {c : Cmd} {w w' : World} (hlog : LogLocked u w)
    (h : performLost u c w = some w') : Stays t w w' := by
  unfold performLost at h
  split at h
  · obtain ⟨ws, hws, rfl⟩ := Option.map_eq_some_iff.mp h
    exact (Stays.commit hne (hlog ws hws)).trans (.endTx hne _ _ _)
  · split at h
    · rename_i hl
      cases h
      exact .write hne (by simpa [Write.rows] using hl)
    · cases h
  · cases h

theorem exec_stays {cfg : Config} {t u : Tid} (hne : t ≠ u) {c : Cmd} {ch : Choice} {w w' : World}
    {r : Except Err c.Res} (hlog : LogLocked u w) (h : exec cfg u c ch w = some (r, w')) : Stays t w w' := by
  rcases exec_cases h with h | ⟨e, _, _, _, rfl⟩ | ⟨e, w₁, _, h₁, _, rfl⟩
  · exact perform_stays hne hlog h
  · exact (reject_stays hne c w).trans (.logEvent hne rfl _)
  · exact (performLost_stays hne hlog h₁).trans (.logEvent hne rfl _)

/-! ## The thread's own log -/

theorem locks_foldl_lock (t : Tid) (rows : List Row) (w : World) (r : Row) :
    (rows.foldl (World.lock t) w).locks r = if r ∈ rows then some t else w.locks r := by
  induction rows generalizing w with
  | nil => rfl
  | cons r' rows ih =>
    rw [List.foldl_cons, ih]
    by_cases h : r ∈ rows
    · simp [h]
    · by_cases he : r = r'
      · subst he; simp [h, World.lock]
      · simp [h, he, World.lock]

theorem foldl_lock_frame (t : Tid) (rows : List Row) (w : World) :
    (rows.foldl (World.lock t) w).toShared = w.toShared ∧ (rows.foldl (World.lock t) w).sess = w.sess ∧
      (rows.foldl (World.lock t) w).pool = w.pool := by
  induction rows generalizing w with
  | nil => exact ⟨rfl, rfl, rfl⟩
  | cons r rows ih => exact ih (w.lock t r)

theorem stmt_eq {t : Tid} {wr : Write} {w w' : World} (h : w.stmt t wr = some w') :
    (∀ r ∈ wr.rows, w.lockable t r = true) ∧ w'.toShared = w.toShared ∧ w'.pool = w.pool ∧
      w'.sess = Function.update w.sess t { w.sess t with log := (w.sess t).log.map (· ++ [wr]) } ∧
      ∀ r, w'.locks r = if r ∈ wr.rows then some t else w.locks r := by
  unfold World.stmt at h
  split at h
  · rename_i hl
    cases h
    obtain ⟨h₁, h₂, h₃⟩ := foldl_lock_frame t wr.rows w
    refine ⟨List.all_eq_true.mp hl, h₁, h₃, ?_, locks_foldl_lock t wr.rows w⟩
    simp only [World.setSession, h₂]
  · cases h

theorem LogLocked.stmt {t : Tid} {wr : Write} {w w' : World} (hlog : LogLocked t w) (h : w.stmt t wr = some w') :
    LogLocked t w' := by
  obtain ⟨_, _, _, hs, hl⟩ := stmt_eq h
  intro ws hws wr' hw r hr
  rw [hs, Function.update_self] at hws
  obtain ⟨ws₀, hws₀, rfl⟩ := Option.map_eq_some_iff.mp hws
  rw [hl]
  split
  · rfl
  · rename_i hn
    rcases List.mem_append.mp hw with hw | hw
    · exact hlog ws₀ hws₀ wr' hw r hr
    · rw [List.mem_singleton.mp hw] at hr
      exact (hn hr).elim

theorem LogLocked.closed {t : Tid} {w : World} (h : (w.sess t).log = none ∨ (w.sess t).log = some []) :
    LogLocked t w := by
  intro ws hws wr hw
  rcases h with h | h <;> rw [h] at hws
  · cases hws
  · cases hws; cases hw

theorem LogLocked.lock {t : Tid} {w : World} (h : LogLocked t w) (r : Row) : LogLocked t (w.lock t r) := by
  intro ws hws wr hw r' hr'
  by_cases he : r' = r
  · subst he; exact Function.update_self ..
  · exact (Function.update_of_ne he ..).trans (h ws hws wr hw r' hr')

theorem endTx_log (t : Tid) (active broken : Bool) (w : World) :
    ((w.endTx t active broken).sess t).log = none := by
  simp [World.endTx, World.setSession]

theorem perform_logLocked {cfg : Config} {t : Tid} {c : Cmd} {w w' : World} {r : Except Err c.Res}
    (hlog : LogLocked t w) (h : perform cfg t c w = some (r, w')) : LogLocked t w' := by
  cases c with
  | connect p | acquire use =>
    simp only [perform] at h
    split at h
    · cases h; exact hlog
    · cases h
  | startTransaction slot => cases h; exact .closed (.inr (by simp [World.setSession]))
  | commitTransaction slot =>
    simp only [perform] at h
    split at h
    · cases h; exact hlog
    · cases h; exact .closed (.inl (endTx_log ..))
  | rollbackTransaction slot =>
    simp only [perform] at h
    split at h
    · cases h
    · split at h
      · cases h; exact hlog
      · cases h; exact .closed (.inl (endTx_log ..))
  | lockProduct id =>
    simp only [perform] at h
    split at h
    · cases h; exact hlog.lock _
    · cases h
  | lockOrder id =>
    simp only [perform] at h
    split at h
    · cases h; exact hlog
    · split at h
      · cases h; exact hlog.lock _
      · cases h
  | saveStock | incrementStock | saveFailed | saveProcessed => exact hlog.stmt (stmt_map h).1
  | insertItem => exact LogLocked.stmt (w := w.nextUuid) hlog (stmt_map h).1
  | insertOrder userId key =>
    simp only [perform] at h
    split at h
    · split at h
      · cases h; exact hlog
      · exact LogLocked.stmt (w := w.nextUuid) hlog (stmt_map h).1
    · cases h
  | insertProcessed mid oid handler =>
    simp only [perform] at h
    split at h
    · split at h
      · split at h
        · cases h; exact hlog
        · exact hlog.stmt (stmt_map h).1
      · cases h
    · cases h; exact hlog
  | updatePayment id pid st =>
    simp only [perform] at h
    split at h
    · cases h; exact hlog
    · cases h
  | sendAuthorize req | awaitAuthorize =>
    simp only [perform] at h
    split at h
    · cases h; exact hlog
    · cases h
  | _ => cases h; exact hlog

theorem exec_logLocked {cfg : Config} {t : Tid} {c : Cmd} {ch : Choice} {w w' : World} {r : Except Err c.Res}
    (hlog : LogLocked t w) (h : exec cfg t c ch w = some (r, w')) : LogLocked t w' := by
  rcases exec_cases h with h | ⟨e, _, _, _, rfl⟩ | ⟨e, w₁, _, h₁, _, rfl⟩
  · exact perform_logLocked hlog h
  · show LogLocked t (reject t c w)
    unfold reject
    split
    · exact .closed (.inl (endTx_log ..))
    · exact .closed (.inl (endTx_log ..))
    · exact hlog
  · show LogLocked t w₁
    unfold performLost at h₁
    split at h₁
    · obtain ⟨ws, hws, rfl⟩ := Option.map_eq_some_iff.mp h₁
      exact .closed (.inl (endTx_log ..))
    · split at h₁
      · cases h₁; exact hlog
      · cases h₁
    · cases h₁

/-! ## What a command leaves -/

/-- The commands that, when they go through, leave the shared state but for the
uuids drawn. -/
def Cmd.silent : Cmd → Bool
  | .commitTransaction _ | .updatePayment _ _ _ | .sendAuthorize _ | .awaitAuthorize | .uuid | .publish _ _ | .ack
  | .nack => false
  | _ => true

theorem perform_silent {cfg : Config} {t : Tid} {c : Cmd} (hc : c.silent = true) {w w' : World}
    {r : Except Err c.Res}
    (h : perform cfg t c w = some (r, w')) :
    w'.toShared = w.toShared ∨ w'.toShared = { w.toShared with uuids := w.uuids + 1 } := by
  cases c with
  | connect | acquire | lockProduct =>
    simp only [perform] at h
    split at h
    · cases h
      exact .inl rfl
    · cases h
  | lockOrder id =>
    simp only [perform] at h
    split at h
    · cases h
      exact .inl rfl
    · split at h
      · cases h
        exact .inl rfl
      · cases h
  | rollbackTransaction slot =>
    simp only [perform] at h
    split at h
    · cases h
    · split at h
      · cases h
        exact .inl rfl
      · cases h
        exact .inl rfl
  | saveStock | incrementStock | saveFailed | saveProcessed => exact .inl (stmt_eq (stmt_map h).1).2.1
  | insertItem => exact .inr (stmt_eq (stmt_map h).1).2.1
  | insertOrder u k =>
    simp only [perform] at h
    split at h
    · split at h
      · cases h
        exact .inl rfl
      · exact .inr (stmt_eq (stmt_map h).1).2.1
    · cases h
  | insertProcessed mid oid handler =>
    simp only [perform] at h
    split at h
    · split at h
      · split at h
        · cases h
          exact .inl rfl
        · exact .inl (stmt_eq (stmt_map h).1).2.1
      · cases h
    · cases h
      exact .inl rfl
  | commitTransaction | updatePayment | sendAuthorize | awaitAuthorize | uuid | publish | ack | nack => cases hc
  | _ =>
    cases h
    exact .inl rfl

/-- What a command of `t`, however it ends, does to the shared state. -/
inductive Does (t : Tid) : Cmd → Shared → Shared → Prop
  | idle (c : Cmd) (s : Shared) : Does t c s s
  | draw (c : Cmd) (s : Shared) : Does t c s { s with uuids := s.uuids + 1 }
  | commit (slot : Slot) (ws : List Write) (s : Shared) : Does t (.commitTransaction slot) s (s.commit t ws)
  | commitLost (slot : Slot) (ws : List Write) (s : Shared) :
      Does t (.commitTransaction slot) s ((s.commit t ws).log (.ackLost t (.commitTransaction slot)))
  | pay (id paymentId : Uuid) (st : PaymentStatus) (s : Shared) :
      Does t (.updatePayment id paymentId st) s (s.write t (.payOrder id paymentId st))
  | payLost (id paymentId : Uuid) (st : PaymentStatus) (s : Shared) :
      Does t (.updatePayment id paymentId st) s
        ((s.write t (.payOrder id paymentId st)).log (.ackLost t (.updatePayment id paymentId st)))
  | send {s : Shared} {req : AuthorizeRequest} (h : s.rpc t = .idle) :
      Does t (.sendAuthorize req) s ((s.setRpc t (.requested req)).log (.sent t req))
  | receive {s : Shared} {res : AuthorizeResponse} (h : s.rpc t = .executed res) :
      Does t .awaitAuthorize s (s.setRpc t (.answered res))
  | generate (s : Shared) : Does t .uuid s ({ s with uuids := s.uuids + 1 }.log (.generated t s.uuids))
  | publish (rk : RoutingKey) (msg : Message) (s : Shared) : Does t (.publish rk msg) s (s.publish t rk msg)
  | ack (s : Shared) : Does t .ack s (s.ack t)
  | nack (s : Shared) : Does t .nack s (s.nack t)
  | failed {c : Cmd} (h : c.infallible = false) (s : Shared) : Does t c s (s.log (.failed t c))

theorem Does.of_perform {cfg : Config} {t : Tid} {c : Cmd} {w w' : World} {r : Except Err c.Res}
    (h : perform cfg t c w = some (r, w')) : Does t c w.toShared w'.toShared := by
  cases hc : c.silent with
  | true =>
    rcases perform_silent hc h with he | he
    · rw [he]
      exact .idle _ _
    · rw [he]
      exact .draw _ _
  | false =>
    cases c with
    | commitTransaction slot =>
      simp only [perform] at h
      split at h
      · cases h
        exact .idle _ _
      · cases h
        exact .commit _ _ _
    | updatePayment =>
      simp only [perform] at h
      split at h
      · cases h
        exact .pay _ _ _ _
      · cases h
    | sendAuthorize =>
      simp only [perform] at h
      split at h
      · rename_i hr
        cases h
        exact .send hr
      · cases h
    | awaitAuthorize =>
      simp only [perform] at h
      split at h
      · rename_i hr
        cases h
        exact .receive hr
      · cases h
    | uuid =>
      cases h
      exact .generate _
    | publish =>
      cases h
      exact .publish _ _ _
    | ack =>
      cases h
      exact .ack _
    | nack =>
      cases h
      exact .nack _
    | _ => simp [Cmd.silent] at hc

theorem Does.of_exec {cfg : Config} {t : Tid} {c : Cmd} {ch : Choice} {w w' : World} {r : Except Err c.Res}
    (h : exec cfg t c ch w = some (r, w')) : Does t c w.toShared w'.toShared := by
  rcases exec_cases h with h | ⟨e, hc, _, _, rfl⟩ | ⟨e, w₁, _, h₁, _, rfl⟩
  · exact .of_perform h
  · have hs : (reject t c w).toShared = w.toShared := by
      unfold reject
      split <;> rfl
    show Does t c w.toShared ((reject t c w).toShared.log (.failed t c))
    rw [hs]
    exact .failed hc _
  · unfold performLost at h₁
    split at h₁
    · obtain ⟨ws, _, rfl⟩ := Option.map_eq_some_iff.mp h₁
      exact .commitLost _ ws _
    · split at h₁
      · cases h₁
        exact .payLost _ _ _ _
      · cases h₁
    · cases h₁

end OrdersBackend
