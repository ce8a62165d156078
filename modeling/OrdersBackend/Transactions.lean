import OrdersBackend.Lib.Steady
import OrdersBackend.Mailbox
import OrdersBackend.Rules

/-!
# Transactions and their rows

A row is locked by a thread only while its transaction is open, and every
procedure ends with its transaction closed. The rows are taken level by level:
a delivery its message and then its order, a compensation its order and then
the products, a reservation the products and then its key.
-/

namespace OrdersBackend

open Conc Async Protocol

variable {cfg : Config} {c : Catalogue} {t u : Tid} {w w' : World} {cmd : Cmd} {ch : Choice} {α : Type}

/-! ## What a thread has open -/

structure Tx where
  /-- `qr.isTransactionActive`. -/
  active : Bool
  broken : Bool
  isOpen : Bool

def World.tx (t : Tid) (w : World) : Tx := ⟨(w.sess t).active, (w.sess t).broken, (w.sess t).log.isSome⟩

/-- The rows a statement needs before it takes effect. -/
def Cmd.rows (w : World) : Cmd → List Row
  | .lockProduct id | .saveStock id _ | .incrementStock id _ => [.product id]
  | .insertOrder u k => [.orderKey u k, .order w.uuids]
  | .insertItem id _ _ _ | .saveFailed id | .updatePayment id _ _ | .saveProcessed id => [.order id]
  | .lockOrder (some id) => [.order id]
  | .insertProcessed (some mid) (some _) _ => [.message mid]
  | _ => []

/-- The statements that keep their rows until the transaction ends. -/
def Cmd.locks : Cmd → Bool
  | .lockProduct _ | .saveStock _ _ | .incrementStock _ _ | .insertOrder _ _ | .insertItem _ _ _ _ | .saveFailed _ |
      .saveProcessed _ | .lockOrder _ | .insertProcessed _ _ _ => true
  | _ => false

/-- The commands that open a transaction or close it. -/
def Cmd.delimits : Cmd → Bool
  | .startTransaction _ | .commitTransaction _ | .rollbackTransaction _ => true
  | _ => false

/-- The commands that wait for a connection of the pool or for the network. -/
def Cmd.waits : Cmd → Bool
  | .connect _ | .acquire _ | .sendAuthorize _ | .awaitAuthorize => true
  | _ => false

/-! ## The effect of a command -/

theorem stmt_tx {wr : Write} (h : w.stmt t wr = some w') :
    w'.tx t = w.tx t ∧ w'.uuids = w.uuids ∧ ∀ row, w'.locks row = if row ∈ wr.rows then some t else w.locks row := by
  obtain ⟨_, hshared, _, hsess, hlocks⟩ := stmt_eq h
  refine ⟨?_, congrArg Shared.uuids hshared, hlocks⟩
  unfold World.tx
  rw [hsess, Function.update_self]
  simp

/-- A statement that goes through has its rows; one that does not leaves all
as it was. -/
def Acquires (t : Tid) (cmd : Cmd) (w : World) (ok : Prop) (w' : World) : Prop :=
  w'.tx t = w.tx t ∧ ∀ row, w'.locks row = some t ↔ w.locks row = some t ∨ ok ∧ row ∈ cmd.rows w

theorem Acquires.of_rows {rows : List Row} (htx : w'.tx t = w.tx t)
    (hlocks : ∀ row, w'.locks row = if row ∈ rows then some t else w.locks row)
    (hrows : ∀ row, row ∈ rows ↔ row ∈ cmd.rows w) {ok : Prop} (hok : ok) : Acquires t cmd w ok w' := by
  refine ⟨htx, fun row => ?_⟩
  rw [hlocks row, ← hrows row]
  by_cases hr : row ∈ rows
  · simp [hr, hok]
  · simp [hr]

theorem Acquires.same {ok : Prop} (hok : ¬ok) (w : World) : Acquires t cmd w ok w :=
  ⟨rfl, fun row => by simp [hok]⟩

theorem acquires_lock {row : Row} (hrows : cmd.rows w = [row]) {ok : Prop} (hok : ok) :
    Acquires t cmd w ok (w.lock t row) := by
  have htx : (w.lock t row).tx t = w.tx t := rfl
  refine .of_rows htx (fun row' => ?_) (fun row' => by rw [hrows]) hok
  by_cases hr : row' = row
  · subst hr
    simp [World.lock]
  · simp [World.lock, hr]

theorem perform_acquires {r : Except Err cmd.Res} (hc : cmd.locks = true) (h : perform cfg t cmd w = some (r, w')) :
    Acquires t cmd w (∃ a, r = .ok a) w' := by
  cases cmd with
  | lockProduct id =>
    simp only [perform] at h
    split at h
    · cases h
      exact acquires_lock rfl ⟨_, rfl⟩
    · cases h
  | lockOrder id =>
    simp only [perform] at h
    split at h
    · cases h
      exact ⟨rfl, fun row => by simp [Cmd.rows]⟩
    · split at h
      · cases h
        exact acquires_lock rfl ⟨_, rfl⟩
      · cases h
  | saveStock | incrementStock | saveFailed | saveProcessed =>
    obtain ⟨hs, hr⟩ := stmt_map h
    obtain ⟨htx, _, hlocks⟩ := stmt_tx hs
    exact .of_rows htx hlocks (fun _ => Iff.rfl) ⟨_, hr⟩
  | insertItem =>
    obtain ⟨hs, hr⟩ := stmt_map h
    obtain ⟨htx, _, hlocks⟩ := stmt_tx hs
    exact .of_rows (w := w) htx hlocks (fun _ => Iff.rfl) ⟨_, hr⟩
  | insertOrder =>
    simp only [perform] at h
    split at h
    · split at h
      · cases h
        exact .same (by simp) w
      · obtain ⟨hs, hr⟩ := stmt_map h
        obtain ⟨htx, _, hlocks⟩ := stmt_tx hs
        exact .of_rows (w := w) htx hlocks (fun row => by simp [Write.rows, Cmd.rows, or_comm]) ⟨_, hr⟩
    · cases h
  | insertProcessed =>
    simp only [perform] at h
    split at h
    · split at h
      · split at h
        · cases h
          exact .same (by simp) w
        · obtain ⟨hs, hr⟩ := stmt_map h
          obtain ⟨htx, _, hlocks⟩ := stmt_tx hs
          exact .of_rows htx hlocks (fun _ => Iff.rfl) ⟨_, hr⟩
      · cases h
    · cases h
      exact .same (by simp) w
  | _ => cases hc

theorem perform_keeps {r : Except Err cmd.Res} (hl : cmd.locks = false) (hd : cmd.delimits = false)
    (h : perform cfg t cmd w = some (r, w')) : w'.sess = w.sess ∧ w'.locks = w.locks := by
  cases cmd with
  | connect | acquire | updatePayment | sendAuthorize | awaitAuthorize =>
    simp only [perform] at h
    split at h <;> cases h
    exact ⟨rfl, rfl⟩
  | release | free | isTransactionActive | findUser | findOrder | findOrderById | matchProducts | simulateWork |
      now | uuid | publish | ack | nack =>
    cases h
    exact ⟨rfl, rfl⟩
  | startTransaction | commitTransaction | rollbackTransaction => cases hd
  | _ => cases hl

theorem reject_keeps (hd : cmd.delimits = false) (w : World) :
    (reject t cmd w).sess = w.sess ∧ (reject t cmd w).locks = w.locks := by
  cases cmd with
  | commitTransaction | rollbackTransaction => cases hd
  | _ => exact ⟨rfl, rfl⟩

theorem performLost_keeps (hd : cmd.delimits = false) (h : performLost t cmd w = some w') :
    cmd.locks = false ∧ w'.sess = w.sess ∧ w'.locks = w.locks := by
  unfold performLost at h
  split at h
  · cases hd
  · split at h
    · cases h
      exact ⟨rfl, rfl, rfl⟩
    · cases h
  · cases h

theorem exec_acquires {r : Except Err cmd.Res} (hc : cmd.locks = true) (h : exec cfg t cmd ch w = some (r, w')) :
    Acquires t cmd w (∃ a, r = .ok a) w' := by
  have hd : cmd.delimits = false := by
    cases cmd <;> first | rfl | cases hc
  rcases exec_cases h with h | ⟨e, _, _, rfl, rfl⟩ | ⟨e, w₁, _, h₁, _⟩
  · exact perform_acquires hc h
  · obtain ⟨hsess, hlocks⟩ := reject_keeps (t := t) hd w
    refine ⟨?_, fun row => ?_⟩
    · show (reject t cmd w).tx t = _
      unfold World.tx
      rw [hsess]
    · show (reject t cmd w).locks row = some t ↔ _
      rw [hlocks]
      simp
  · rw [(performLost_keeps hd h₁).1] at hc
    cases hc

theorem exec_keeps {r : Except Err cmd.Res} (hl : cmd.locks = false) (hd : cmd.delimits = false)
    (h : exec cfg t cmd ch w = some (r, w')) : w'.sess = w.sess ∧ w'.locks = w.locks := by
  rcases exec_cases h with h | ⟨e, _, _, _, rfl⟩ | ⟨e, w₁, _, h₁, _, rfl⟩
  · exact perform_keeps hl hd h
  · exact reject_keeps hd w
  · exact (performLost_keeps hd h₁).2

theorem exec_start {slot : Slot} {r : Except Err Unit} (h : exec cfg t (.startTransaction slot) ch w = some (r, w')) :
    w'.locks = w.locks ∧ ((∃ e, r = .error e) ∧ w'.sess = w.sess ∨
      r = .ok () ∧ w'.tx t = ⟨slot == .qr || (w.tx t).active, (w.tx t).broken, true⟩) := by
  rcases exec_cases h with h | ⟨e, _, _, rfl, rfl⟩ | ⟨e, w₁, _, h₁, _⟩
  · cases h
    refine ⟨rfl, .inr ⟨rfl, ?_⟩⟩
    simp [World.tx, World.setSession]
  · exact ⟨rfl, .inl ⟨⟨e, rfl⟩, rfl⟩⟩
  · cases h₁

theorem endTx_tx (active broken : Bool) (w : World) :
    ((w.endTx t active broken).tx t).isOpen = false ∧ ∀ row, (w.endTx t active broken).locks row ≠ some t := by
  refine ⟨by simp [World.tx, endTx_log], fun row hr => ?_⟩
  simp only [World.endTx, World.setSession, World.unlockAll] at hr
  split at hr
  · cases hr
  · rename_i hn
    exact hn hr

/-- A COMMIT or ROLLBACK closes the transaction of its slot, however it ends. -/
theorem exec_end {slot : Slot} {r : Except Err cmd.Res}
    (hc : cmd = .commitTransaction slot ∨ cmd = .rollbackTransaction slot ∧
      (slot = .qr → (w.tx t).isOpen = true → (w.tx t).active = true))
    (h : exec cfg t cmd ch w = some (r, w')) :
    (w'.tx t).isOpen = false ∧ ((∀ row, w'.locks row ≠ some t) ∨ w'.sess = w.sess ∧ w'.locks = w.locks) := by
  have hlost : ∀ {w₁ : World}, performLost t cmd w = some w₁ → (w₁.tx t).isOpen = false ∧
      (∀ row, w₁.locks row ≠ some t) := by
    intro w₁ h₁
    rcases hc with rfl | ⟨rfl, _⟩
    · obtain ⟨ws, _, rfl⟩ := Option.map_eq_some_iff.mp h₁
      exact endTx_tx ..
    · cases h₁
  rcases exec_cases h with h | ⟨e, _, _, _, rfl⟩ | ⟨e, w₁, _, h₁, _, rfl⟩
  · rcases hc with rfl | ⟨rfl, hactive⟩
    · simp only [perform] at h
      split at h
      · rename_i hlog
        cases h
        exact ⟨by simp [World.tx, hlog], .inr ⟨rfl, rfl⟩⟩
      · cases h
        exact ⟨(endTx_tx ..).1, .inl (endTx_tx ..).2⟩
    · simp only [perform] at h
      split at h
      · cases h
      · split at h
        · rename_i hinactive
          cases h
          refine ⟨?_, .inr ⟨rfl, rfl⟩⟩
          rw [Bool.and_eq_true, beq_iff_eq] at hinactive
          cases hopen : (w.tx t).isOpen with
          | false => rfl
          | true =>
            have := hactive hinactive.1 hopen
            simp [World.tx] at this
            simp [this] at hinactive
        · cases h
          exact ⟨(endTx_tx ..).1, .inl (endTx_tx ..).2⟩
  · have hreject : reject t cmd w = w.endTx t (w.sess t).active (w.sess t).broken := by
      rcases hc with rfl | ⟨rfl, _⟩ <;> rfl
    obtain ⟨hclosed, hfree⟩ := endTx_tx (t := t) (w.sess t).active (w.sess t).broken w
    rw [hreject]
    exact ⟨hclosed, .inl hfree⟩
  · exact ⟨(hlost h₁).1, .inl (hlost h₁).2⟩

theorem exec_commit_ok {slot : Slot} {a : Unit} (h : exec cfg t (.commitTransaction slot) ch w = some (.ok a, w')) :
    (w'.tx t).broken = false := by
  rcases exec_cases h with h | ⟨e, _, _, he, _⟩ | ⟨e, w₁, _, _, he, _⟩
  · simp only [perform] at h
    split at h
    · cases h
    · cases h
      simp [World.tx, World.commitTx, World.endTx, World.setSession]
  · cases he
  · cases he

/-! ## The protocol -/

def Row.level : Row → Nat
  | .message _ => 0
  | .order _ => 1
  | .product _ => 2
  | .orderKey _ _ => 3

/-- A row may be waited for by a thread that holds `r`; products are taken one
after the other. -/
def Row.precedes (r row : Row) : Prop := r.level < row.level ∨ r.level = 2 ∧ row.level = 2

/-- The order a statement names is one there is: a new one, that of the
delivery, or one the thread has locked. -/
def Cmd.Names (t : Tid) (w : World) : Cmd → Prop
  | .saveFailed id => id < w.uuids
  | .lockOrder (some id) => ∃ m payload, w.jobs t = some (.deliver m) ∧ m.content = .value payload ∧
      payload.orderId = some id
  | .insertItem id _ _ _ | .saveProcessed id => w.locks (.order id) = some t
  | _ => True

/-- When a thread may wait for a command. -/
structure MayIssue (t : Tid) (cmd : Cmd) (w : World) : Prop where
  opened : cmd.locks = true → (w.tx t).isOpen = true
  closable : cmd = .rollbackTransaction .qr → (w.tx t).isOpen = true → (w.tx t).active = true
  sound : ∀ slot, cmd = .rollbackTransaction slot → (w.tx t).isOpen = true → (w.tx t).broken = false
  outside : cmd.waits = true → (w.tx t).isOpen = false
  above : ∀ row ∈ cmd.rows w, w.locks row = some t ∨ row = .order w.uuids ∨ ∀ r, w.locks r = some t → r.precedes row
  names : cmd.Names t w

/-- Nothing of the thread's own has changed. -/
structure Intact (t : Tid) (w w' : World) : Prop where
  tx : w'.tx t = w.tx t
  locks : ∀ row, w'.locks row = some t ↔ w.locks row = some t
  uuids : w.uuids ≤ w'.uuids
  job : w'.jobs t = w.jobs t

theorem Stays.intact (h : Stays t w w') (hu : w.uuids ≤ w'.uuids) : Intact t w w' where
  tx := by
    have hsess : w'.sess t = w.sess t := congrArg Local.sess h.loc
    unfold World.tx
    rw [hsess]
  locks := h.locks
  uuids := hu
  job := congrArg Local.job h.loc

theorem Does.uuids_le {s s' : Shared} (h : Does t cmd s s') : s.uuids ≤ s'.uuids := by
  cases h with
  | draw | generate => exact Nat.le_succ _
  | commit => rw [commit_eq]
  | commitLost slot ws =>
    show s.uuids ≤ (s.commit t ws).uuids
    rw [commit_eq]
  | publish =>
    unfold Shared.publish
    split <;> exact Nat.le_refl _
  | ack =>
    unfold Shared.ack
    split <;> exact Nat.le_refl _
  | nack =>
    unfold Shared.nack
    split <;> exact Nat.le_refl _
  | _ => exact Nat.le_refl _

structure TxInv (w : World) : Prop where
  logs : ∀ t, LogLocked t w
  opened : ∀ t row, w.locks row = some t → (w.tx t).isOpen = true

theorem TxInv.of_intact (h : ∀ row, w.locks row = some t → (w.tx t).isOpen = true) (hk : Intact t w w') :
    ∀ row, w'.locks row = some t → (w'.tx t).isOpen = true := by
  intro row hr
  rw [hk.tx]
  exact h row ((hk.locks row).mp hr)

theorem TxInv.exec (h : TxInv w) (hp : MayIssue t cmd w) {r : Except Err cmd.Res}
    (hx : exec cfg t cmd ch w = some (r, w')) : ∀ row, w'.locks row = some t → (w'.tx t).isOpen = true := by
  intro row hr
  have same : w'.sess = w.sess → w'.locks = w.locks → (w'.tx t).isOpen = true := by
    intro hs hl
    rw [hl] at hr
    unfold World.tx
    rw [hs]
    exact h.opened t row hr
  cases hl : cmd.locks with
  | true =>
    rw [(exec_acquires hl hx).1]
    exact hp.opened hl
  | false =>
    cases hd : cmd.delimits with
    | false => exact same (exec_keeps hl hd hx).1 (exec_keeps hl hd hx).2
    | true =>
      have ended : ∀ slot, (cmd = .commitTransaction slot ∨ cmd = .rollbackTransaction slot ∧
          (slot = .qr → (w.tx t).isOpen = true → (w.tx t).active = true)) → (w'.tx t).isOpen = true := by
        intro slot hc
        rcases (exec_end hc hx).2 with hfree | ⟨hs, hl⟩
        · exact (hfree row hr).elim
        · exact same hs hl
      cases cmd with
      | startTransaction slot =>
        obtain ⟨hl, ⟨_, hs⟩ | ⟨_, htx⟩⟩ := exec_start hx
        · exact same hs hl
        · rw [htx]
      | commitTransaction slot => exact ended slot (.inl rfl)
      | rollbackTransaction slot => exact ended slot (.inr ⟨rfl, fun hq => hp.closable (by rw [hq])⟩)
      | _ => cases hd

def transactions (cfg : Config) : Protocol (machine cfg) where
  allows _ := True
  inv := TxInv
  rely := Intact
  guar _ _ _ := True
  pre := MayIssue
  post t _ w := (w.tx t).isOpen = false
  rely_refl _ _ := ⟨rfl, fun _ => Iff.rfl, Nat.le_refl _, rfl⟩
  rely_trans _ _ _ _ h h' :=
    ⟨h'.tx.trans h.tx, fun row => (h'.locks row).trans (h.locks row), h.uuids.trans h'.uuids, h'.job.trans h.job⟩
  post_rely _ _ _ _ h hk := by
    rw [hk.tx]
    exact h
  exec_ok t cmd ch w r w' _ hi hp hx _ := by
    have hstays : ∀ u, u ≠ t → Stays u w w' := fun u hne => exec_stays hne (hi.logs t) hx
    have hintact : ∀ u, u ≠ t → Intact u w w' := fun u hne => (hstays u hne).intact (Does.of_exec hx).uuids_le
    refine ⟨⟨fun u => ?_, fun u => ?_⟩, hintact⟩
    · by_cases hu : u = t
      · subst hu
        exact exec_logLocked (hi.logs u) hx
      · exact (hi.logs u).of_stays (hstays u hu)
    · by_cases hu : u = t
      · subst hu
        exact hi.exec hp hx
      · exact TxInv.of_intact (hi.opened u) (hintact u hu)
  kill_ok t w _ hi := by
    have hintact : ∀ u, u ≠ t → Intact u w (w.kill t) := fun u hne => (Stays.kill hne w).intact (Nat.le_of_eq (by rfl))
    refine ⟨⟨fun u => ?_, fun u => ?_⟩, hintact⟩
    · by_cases hu : u = t
      · subst hu
        exact .kill w
      · exact (hi.logs u).of_stays (.kill hu w)
    · by_cases hu : u = t
      · subst hu
        intro row hr
        simp only [machine, World.kill, World.setSession, World.unlockAll] at hr
        split at hr
        · cases hr
        · rename_i hn
          exact (hn hr).elim
      · exact TxInv.of_intact (hi.opened u) (hintact u hu)
  env_ok act w w' _ hi h := by
    obtain ⟨s, hs, rfl⟩ := Option.map_eq_some_iff.mp h
    have hstep := step_of_env hs
    have hstays : ∀ u, Stays u w { w with toShared := s } := fun u => by
      obtain ⟨es, he, hes⟩ := hstep.trace
      exact .shared (hstep.jobs_other nofun) ⟨es, he, fun e hm => by rw [hes e hm]; exact nofun⟩
        fun r _ => by rw [db_of_none hstep]
    have hintact : ∀ u, Intact u w { w with toShared := s } := fun u => (hstays u).intact hstep.uuids_le
    exact ⟨⟨fun u => (hi.logs u).of_stays (hstays u), fun u => TxInv.of_intact (hi.opened u) (hintact u)⟩, hintact⟩
  spawn_ok t arr w p w' _ hi h := by
    obtain ⟨_, s, rfl, hstep, hdb, htr, _⟩ := arrive_cases h
    have hintact : ∀ u, u ≠ t → Intact u w { w with toShared := s } := fun u hne =>
      ⟨rfl, fun _ => Iff.rfl, hstep.uuids_le, hstep.jobs_other fun e => hne (Option.some.inj e).symm⟩
    exact ⟨⟨hi.logs, hi.opened⟩, hintact⟩

/-! ## Rules -/

abbrev TxWp (cfg : Config) (t : Tid) (p : Api α) (Q : Except Err α → World → Prop) (w : World) : Prop :=
  (transactions cfg).wp t p Q w

abbrev TxSteady (cfg : Config) (t : Tid) (I : World → Prop) (p : Api α) : Prop := (transactions cfg).Steady t I p

/-- What is said of the thread's own part only. -/
def OfThread (t : Tid) (I : World → Prop) : Prop := ∀ w w', I w → Intact t w w' → I w'

def Closed (t : Tid) (w : World) : Prop := (w.tx t).isOpen = false

/-- No transaction is open, and the connection is not lost. -/
def Clean (t : Tid) (w : World) : Prop := (w.tx t).isOpen = false ∧ (w.tx t).broken = false

/-- The transaction that `slot` has opened can be closed by it, and has only
rows as described. -/
structure Open (t : Tid) (slot : Slot) (may : Row → Prop) (w : World) : Prop where
  opened : (w.tx t).isOpen = true
  active : slot = .qr → (w.tx t).active = true
  sound : (w.tx t).broken = false
  held : ∀ row, w.locks row = some t → may row

/-- A rollback of the query runner closes what is open. -/
def Failing (t : Tid) (w : World) : Prop :=
  (w.tx t).isOpen = true → (w.tx t).active = true ∧ (w.tx t).broken = false

/-- A ROLLBACK of what is open goes through. -/
def Undoable (t : Tid) (w : World) : Prop := (w.tx t).isOpen = true → (w.tx t).broken = false

theorem ofThread_closed : OfThread t (Closed t) := fun w w' h hk => by
  unfold Closed
  rw [hk.tx]
  exact h

theorem ofThread_clean : OfThread t (Clean t) := fun w w' h hk => by
  unfold Clean
  rw [hk.tx]
  exact h

theorem ofThread_undoable : OfThread t (Undoable t) := fun w w' h hk => by
  unfold Undoable
  rw [hk.tx]
  exact h

theorem ofThread_failing : OfThread t (Failing t) := fun w w' h hk => by
  unfold Failing
  rw [hk.tx]
  exact h

theorem Open.of_tx {slot : Slot} {may may' : Row → Prop} (h : Open t slot may w) (htx : w'.tx t = w.tx t)
    (hheld : ∀ row, w'.locks row = some t → may' row) : Open t slot may' w' where
  opened := htx ▸ h.opened
  active := htx ▸ h.active
  sound := htx ▸ h.sound
  held := hheld

theorem ofThread_open {slot : Slot} {may : Row → Prop} : OfThread t (Open t slot may) := fun _ _ h hk =>
  h.of_tx hk.tx fun row hr => h.held row ((hk.locks row).mp hr)

theorem OfThread.and {I J : World → Prop} (hI : OfThread t I) (hJ : OfThread t J) :
    OfThread t fun w => I w ∧ J w := fun w w' h hk => ⟨hI w w' h.1 hk, hJ w w' h.2 hk⟩

theorem ofThread_uuid (id : Uuid) : OfThread t fun w => id < w.uuids :=
  fun _ _ h hk => Nat.lt_of_lt_of_le h hk.uuids

theorem ofThread_locked (row : Row) : OfThread t fun w => w.locks row = some t :=
  fun _ _ h hk => (hk.locks row).mpr h

theorem Open.mono {slot : Slot} {may may' : Row → Prop} (h : Open t slot may w) (hmay : ∀ row, may row → may' row) :
    Open t slot may' w := ⟨h.opened, h.active, h.sound, fun row hr => hmay row (h.held row hr)⟩

theorem Open.failing {may : Row → Prop} (h : Open t .qr may w) : Failing t w := fun _ => ⟨h.active rfl, h.sound⟩

theorem Open.undoable {slot : Slot} {may : Row → Prop} (h : Open t slot may w) : Undoable t w := fun _ => h.sound

theorem Failing.undoable (h : Failing t w) : Undoable t w := fun ho => (h ho).2

theorem Clean.closed (h : Clean t w) : Closed t w := h.1

theorem Closed.failing (h : Closed t w) : Failing t w := fun ho => by
  rw [h] at ho
  cases ho

theorem Closed.undoable (h : Closed t w) : Undoable t w := h.failing.undoable

theorem Closed.unlocked (h : Closed t w) (hi : TxInv w) (row : Row) : w.locks row ≠ some t := fun hr => by
  have ho := hi.opened t row hr
  rw [h] at ho
  cases ho

/-- The commands that leave transactions and locks alone. -/
def Cmd.plain (cmd : Cmd) : Bool := !cmd.locks && !cmd.delimits

theorem Cmd.plain_iff : cmd.plain = true ↔ cmd.locks = false ∧ cmd.delimits = false := by
  simp [Cmd.plain]

/-- The commands that need no row and do not wait. -/
def Cmd.rowless (cmd : Cmd) : Bool :=
  match cmd with
  | .updatePayment _ _ _ => false
  | _ => cmd.plain && !cmd.waits

theorem plain_of_rowless (hc : cmd.rowless = true) : cmd.plain = true := by
  cases cmd <;> first | rfl | cases hc

theorem waits_of_rowless (hc : cmd.rowless = true) : cmd.waits = false := by
  cases cmd <;> first | rfl | cases hc

theorem waits_of_locks (hc : cmd.locks = true) : cmd.waits = false := by
  cases cmd <;> first | rfl | cases hc

theorem rows_of_rowless (hc : cmd.rowless = true) (w : World) : cmd.rows w = [] := by
  cases cmd <;> first | rfl | cases hc

theorem mayIssue_plain (hc : cmd.plain = true) (hout : cmd.waits = true → (w.tx t).isOpen = false)
    (hrows : ∀ row ∈ cmd.rows w,
      w.locks row = some t ∨ row = .order w.uuids ∨ ∀ r, w.locks r = some t → r.precedes row) : MayIssue t cmd w where
  opened h := by
    rw [(Cmd.plain_iff.mp hc).1] at h
    cases h
  closable h := by
    rw [h] at hc
    cases hc
  sound slot h := by
    rw [h] at hc
    cases hc
  outside := hout
  above := hrows
  names := by cases cmd <;> trivial

theorem mayIssue_rowless (hc : cmd.rowless = true) (w : World) : MayIssue t cmd w := by
  refine mayIssue_plain (plain_of_rowless hc) (fun hw => ?_) fun row hr => ?_
  · rw [waits_of_rowless hc] at hw
    cases hw
  · rw [rows_of_rowless hc] at hr
    cases hr

theorem mayIssue_closed (hc : cmd.plain = true) (hw : Closed t w) (hi : TxInv w) : MayIssue t cmd w :=
  mayIssue_plain hc (fun _ => hw) fun _ _ => .inr (.inr fun r hr => (hw.unlocked hi r hr).elim)

theorem intact_exec {r : Except Err cmd.Res} (hc : cmd.plain = true) (hx : exec cfg t cmd ch w = some (r, w')) :
    Intact t w w' where
  tx := by
    unfold World.tx
    rw [(exec_keeps (Cmd.plain_iff.mp hc).1 (Cmd.plain_iff.mp hc).2 hx).1]
  locks row := by rw [(exec_keeps (Cmd.plain_iff.mp hc).1 (Cmd.plain_iff.mp hc).2 hx).2]
  uuids := (Does.of_exec hx).uuids_le
  job := congrFun (Does.of_exec hx).jobs t

theorem wp_tx {I : World → Prop} {Q : Except Err cmd.Res → World → Prop} (hI : OfThread t I) (hw : I w)
    (hpre : ∀ w', I w' → TxInv w' → MayIssue t cmd w')
    (hQ : ∀ ch r w' w'', I w' → TxInv w' → exec cfg t cmd ch w' = some (r, w'') → Q r w'') :
    TxWp cfg t (issue cmd) Q w := by
  intro w' hk hi
  have hw' : I w' := hI w w' hw hk
  exact ⟨hpre w' hw' hi, fun ch r w'' _ hx => ⟨trivial, hQ ch r w' w'' hw' hi hx⟩⟩

theorem steady_rowless {I : World → Prop} (hI : OfThread t I) {p : Api α}
    (hp : p.Issues fun cmd => cmd.rowless = true) : TxSteady cfg t I p := by
  refine steady_issues hI (fun cmd w hc _ _ => mayIssue_rowless hc w) (fun cmd ch r w w' hc hw hx => ⟨trivial, ?_⟩) hp
  exact hI w w' hw (intact_exec (plain_of_rowless hc) hx)

theorem steady_rowless_call {I : World → Prop} (hI : OfThread t I) (hc : cmd.rowless = true) :
    TxSteady cfg t I (issue cmd) := steady_rowless hI (issues_call hc)

/-- What neither the thread nor anyone else can make false. -/
def Lasts (t : Tid) (J : World → Prop) : Prop :=
  ∀ w w', J w → w.uuids ≤ w'.uuids → w'.jobs t = w.jobs t → J w'

theorem Lasts.ofThread {J : World → Prop} (hJ : Lasts t J) : OfThread t J := fun w w' h hk => hJ w w' h hk.uuids hk.job

theorem Lasts.exec {J : World → Prop} (hJ : Lasts t J) (hw : J w) {r : Except Err cmd.Res}
    (hx : exec cfg t cmd ch w = some (r, w')) : J w' :=
  hJ w w' hw (Does.of_exec hx).uuids_le (congrFun (Does.of_exec hx).jobs t)

theorem lasts_uuid (id : Uuid) : Lasts t fun w => id < w.uuids := fun _ _ h hu _ => Nat.lt_of_lt_of_le h hu

theorem lasts_job (m : Message) : Lasts t fun w => w.jobs t = some (.deliver m) := fun _ _ h _ hj => hj.trans h

section
variable {I : World → Prop} (hI : OfThread t I) (hclosed : ∀ w, I w → Closed t w)
include hI hclosed

/-- Between its transactions a thread may wait for anything. -/
theorem steady_closed {p : Api α} (hp : p.Issues fun cmd => cmd.plain = true) : TxSteady cfg t I p := by
  refine steady_issues hI (fun cmd w hc hw hi => mayIssue_closed hc (hclosed w hw) hi)
    (fun cmd ch r w w' hc hw hx => ⟨trivial, ?_⟩) hp
  exact hI w w' hw (intact_exec hc hx)

theorem steady_closed_call (hc : cmd.plain = true) : TxSteady cfg t I (issue cmd) :=
  steady_closed hI hclosed (issues_call hc)

theorem steady_withConnection {use : Use} {body : Api α} (hbody : TxSteady cfg t I body) :
    TxSteady cfg t I (withConnection use body) := by
  refine steady_bracket (fun w hw => ?_) hbody fun w hw => steady_closed_call hI hclosed rfl w hw
  refine Protocol.wp_mono _ (fun r w' hw' => ?_) (steady_closed_call hI hclosed rfl w hw)
  cases r <;> exact hw'

end

section
variable {J : World → Prop} (hJ : Lasts t J)
include hJ

theorem wp_begin {slot : Slot} {Q : Except Err Unit → World → Prop} (hw : Clean t w ∧ J w)
    (hok : ∀ w', Open t slot (fun _ => False) w' ∧ J w' → Q (.ok ()) w')
    (herr : ∀ e w', Closed t w' ∧ J w' → Q (.error e) w') : TxWp cfg t (issue (.startTransaction slot)) Q w := by
  refine wp_tx (ofThread_clean.and hJ.ofThread) hw (fun w' _ _ => ?_) fun ch r w' w'' hw' hi hx => ?_
  · exact ⟨nofun, nofun, nofun, nofun, nofun, trivial⟩
  · obtain ⟨hl, ⟨⟨e, rfl⟩, hs⟩ | ⟨rfl, htx⟩⟩ := exec_start hx
    · refine herr e w'' ⟨?_, hJ.exec hw'.2 hx⟩
      unfold Closed World.tx
      rw [hs]
      exact hw'.1.closed
    · refine hok w'' ⟨⟨by rw [htx], fun hq => by rw [htx, hq]; rfl, by rw [htx]; exact hw'.1.2, fun row hr => ?_⟩,
        hJ.exec hw'.2 hx⟩
      rw [hl] at hr
      exact hw'.1.closed.unlocked hi row hr

theorem wp_commitTx {slot : Slot} {I : World → Prop} {Q : Except Err Unit → World → Prop} (hI : OfThread t I)
    (hw : I w ∧ J w) (hok : ∀ w', Clean t w' ∧ J w' → Q (.ok ()) w')
    (herr : ∀ e w', Closed t w' ∧ J w' → Q (.error e) w') : TxWp cfg t (issue (.commitTransaction slot)) Q w := by
  refine wp_tx (hI.and hJ.ofThread) hw (fun w' _ _ => ⟨nofun, nofun, nofun, nofun, nofun, trivial⟩)
    fun ch r w' w'' hw' hi hx => ?_
  have hclosed := (exec_end (.inl rfl) hx).1
  have hJ' := hJ.exec hw'.2 hx
  cases r with
  | ok _ => exact hok w'' ⟨⟨hclosed, exec_commit_ok hx⟩, hJ'⟩
  | error e => exact herr e w'' ⟨hclosed, hJ'⟩

/-- Whatever comes of a ROLLBACK, the transaction is closed. -/
theorem wp_rollbackTx {slot : Slot} {I : World → Prop} {Q : Except Err Unit → World → Prop} (hI : OfThread t I)
    (hw : I w ∧ J w) (hundo : ∀ w', I w' → Undoable t w') (hfail : slot = .qr → ∀ w', I w' → Failing t w')
    (hQ : ∀ r w', Closed t w' ∧ J w' → Q r w') : TxWp cfg t (issue (.rollbackTransaction slot)) Q w := by
  have hactive : ∀ w', I w' → slot = .qr → (w'.tx t).isOpen = true → (w'.tx t).active = true :=
    fun w' hw' hq ho => (hfail hq w' hw' ho).1
  refine wp_tx (hI.and hJ.ofThread) hw (fun w' hw' _ => ?_) fun ch r w' w'' hw' hi hx => ?_
  · refine ⟨nofun, fun he => ?_, fun _ _ => hundo w' hw'.1, nofun, nofun, trivial⟩
    cases he
    exact hactive w' hw'.1 rfl
  · exact hQ r w'' ⟨(exec_end (.inr ⟨rfl, hactive w' hw'.1⟩) hx).1, hJ.exec hw'.2 hx⟩

/-- A statement whose rows come after those the thread has. -/
theorem wp_lock {slot : Slot} {may : Row → Prop} (may' : Row → Prop) {Q : Except Err cmd.Res → World → Prop}
    (hc : cmd.locks = true) (hw : Open t slot may w ∧ J w)
    (habove : ∀ w', J w' → ∀ row ∈ cmd.rows w', row = .order w'.uuids ∨ ∀ r, may r → r.precedes row)
    (hnames : ∀ w', J w' → cmd.Names t w')
    (hgain : ∀ w' row, may row ∨ row ∈ cmd.rows w' → may' row)
    (hok : ∀ a w' w'', perform cfg t cmd w' = some (.ok a, w'') → Open t slot may' w'' ∧ J w'' →
      (∀ row ∈ cmd.rows w', w''.locks row = some t) → Q (.ok a) w'')
    (herr : ∀ e w'', Open t slot may w'' ∧ J w'' → Q (.error e) w'') : TxWp cfg t (issue cmd) Q w := by
  have hd : cmd.delimits = false := by
    cases cmd <;> first | rfl | cases hc
  refine wp_tx (ofThread_open.and hJ.ofThread) hw (fun w' hw' _ => ?_) fun ch r w' w'' hw' hi hx => ?_
  · refine ⟨fun _ => hw'.1.opened, fun he => ?_, fun _ _ _ => hw'.1.sound, fun hwait => ?_, fun row hr => ?_,
      hnames w' hw'.2⟩
    · rw [he] at hc
      cases hc
    · rw [waits_of_locks hc] at hwait
      cases hwait
    · exact .inr ((habove w' hw'.2 row hr).imp_right fun h r hr' => h r (hw'.1.held r hr'))
  · obtain ⟨htx, hlocks⟩ := exec_acquires hc hx
    have hJ' := hJ.exec hw'.2 hx
    cases r with
    | ok a =>
      have hperform : perform cfg t cmd w' = some (.ok a, w'') := by
        rcases exec_cases hx with h | ⟨e, _, _, he, _⟩ | ⟨e, w₁, _, _, he, _⟩
        · exact h
        · cases he
        · cases he
      refine hok a w' w'' hperform ⟨hw'.1.of_tx htx fun row hr => ?_, hJ'⟩ fun row hr =>
        (hlocks row).mpr (.inr ⟨⟨a, rfl⟩, hr⟩)
      rcases (hlocks row).mp hr with hold | ⟨_, hnew⟩
      · exact hgain w' row (.inl (hw'.1.held row hold))
      · exact hgain w' row (.inr hnew)
    | error e =>
      refine herr e w'' ⟨hw'.1.of_tx htx fun row hr => ?_, hJ'⟩
      rcases (hlocks row).mp hr with hold | ⟨⟨a, ha⟩, _⟩
      · exact hw'.1.held row hold
      · cases ha

end

end OrdersBackend
