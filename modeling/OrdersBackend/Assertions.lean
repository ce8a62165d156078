import OrdersBackend.Discipline

/-!
# Assertions

What is known of a thread between two of its commands: its part of the world,
the rows it has locked with their values, and a fact about the shared state
that outlasts the others' steps. Each command moves an assertion on.
-/

namespace OrdersBackend

open Conc

variable {cfg : Config} {c : Catalogue} {t : Tid}

/-- A fact that the others' steps, and steps that touch nothing it may speak
of, preserve. -/
structure Lasting (cfg : Config) (c : Catalogue) (t : Tid) (F : Shared → Prop) : Prop where
  others : ∀ {s s' : Shared}, Saga cfg c s → Others cfg t s s' → F s → F s'
  quiet : ∀ s s' : Shared, s'.db = s.db → s'.rpc = s.rpc → s'.broker = s.broker → s.uuids ≤ s'.uuids → F s → F s'

structure Now (cfg : Config) (c : Catalogue) (t : Tid) (L : Local) (held : List (Row × RowVal))
    (F : Shared → Prop) (w : World) : Prop where
  saga : Saga cfg c w.toShared
  loc : w.loc t = L
  owned : ∀ r, w.locks r = some t ↔ r ∈ held.map Prod.fst
  vals : ∀ rv ∈ held, w.db.row rv.1 = rv.2
  fact : F w.toShared

namespace Lasting

theorem trivial : Lasting cfg c t fun _ => True := ⟨fun _ _ _ => True.intro, fun _ _ _ _ _ _ _ => True.intro⟩

theorem and {F G : Shared → Prop} (hF : Lasting cfg c t F) (hG : Lasting cfg c t G) :
    Lasting cfg c t fun s => F s ∧ G s :=
  ⟨fun hs ho h => ⟨hF.others hs ho h.1, hG.others hs ho h.2⟩,
    fun s s' h₁ h₂ h₃ h₄ h => ⟨hF.quiet s s' h₁ h₂ h₃ h₄ h.1, hG.quiet s s' h₁ h₂ h₃ h₄ h.2⟩⟩

theorem user (id : Uuid) : Lasting cfg c t fun s => (s.db.user? id).isSome where
  others hs ho h := by
    unfold Db.user? at h ⊢
    rw [hs.users ho]; exact h
  quiet _ _ h₁ _ _ _ h := by rw [h₁]; exact h

theorem uuid (n : Nat) : Lasting cfg c t fun s => n < s.uuids where
  others _ ho h := Nat.lt_of_lt_of_le h (uuids_of_run ho)
  quiet _ _ _ _ _ h₄ h := Nat.lt_of_lt_of_le h h₄

theorem answered (res : AuthorizeResponse) : Lasting cfg c t fun s => s.rpc t = .answered res where
  others _ ho h := answered_of_others ho h
  quiet _ _ _ h₂ _ _ h := by rw [h₂]; exact h

theorem stored (req : CreateOrderRequest) (res : CreateOrderResult) :
    Lasting cfg c t fun s => Stored s req res where
  others hs ho h := h.run hs ho
  quiet _ _ h₁ _ _ _ h := ⟨by rw [h₁]; exact h.order, by rw [h₁]; exact h.items⟩

theorem items (id : Uuid) (items : List OrderItem) :
    Lasting cfg c t fun s => (s.db.order? id).isSome ∧ s.db.itemsOf id = items where
  others hs ho h := by
    obtain ⟨o, hf⟩ := Option.isSome_iff_exists.mp h.1
    obtain ⟨o', hf', _⟩ := hs.order ho hf
    exact ⟨by rw [hf']; rfl, (hs.itemsOf ho h.1).trans h.2⟩
  quiet _ _ h₁ _ _ _ h := by rw [h₁]; exact h

theorem consumed (mid : Uuid) : Lasting cfg c t fun s => (s.db.processed? mid).isSome where
  others hs ho h := hs.isSome_processed? ho h
  quiet _ _ h₁ _ _ _ h := by rw [h₁]; exact h

theorem lost : Lasting cfg c t fun s => s.broker.channel t = .lost where
  others _ ho h := lost_of_others ho h
  quiet _ _ _ _ h₃ _ h := by rw [h₃]; exact h

end Lasting

namespace Now

variable {L : Local} {held : List (Row × RowVal)} {F : Shared → Prop} {w w' : World}

theorem stays (h : Now cfg c t L held F w) (hF : Lasting cfg c t F) (hs : Stays t w w')
    (ho : Others cfg t w.toShared w'.toShared) : Now cfg c t L held F w' where
  saga := h.saga.run ho
  loc := hs.loc.trans h.loc
  owned r := (hs.locks r).trans (h.owned r)
  vals rv hrv := by
    rw [← h.vals rv hrv]
    exact hs.rows rv.1 ((h.owned rv.1).mpr (List.mem_map_of_mem hrv))
  fact := hF.others h.saga ho h.fact

theorem weaken {G : Shared → Prop} (h : Now cfg c t L held F w) (hG : F w.toShared → G w.toShared) :
    Now cfg c t L held G w := ⟨h.saga, h.loc, h.owned, h.vals, hG h.fact⟩

theorem phase (h : Now cfg c t L held F w) : w.phase t = L.phase := congrArg Local.phase h.loc

theorem job (h : Now cfg c t L held F w) : w.jobs t = L.job := congrArg Local.job h.loc

theorem sess (h : Now cfg c t L held F w) : w.sess t = L.sess := congrArg Local.sess h.loc

theorem api (h : Now cfg c t L held F w) : (w.pool .api).count t = L.api := congrArg Local.api h.loc

theorem row (h : Now cfg c t L held F w) {r : Row} {v : RowVal} (hr : (r, v) ∈ held) : w.db.row r = v :=
  h.vals (r, v) hr

theorem view_nil (h : Now cfg c t L held F w) (hl : L.sess.log = none ∨ L.sess.log = some []) :
    w.view t = w.db := by
  unfold World.view
  rw [h.sess]
  rcases hl with hl | hl <;> rw [hl]
  rfl

end Now

/-! ## Effects of commands -/

def Local.fails (cmd : Cmd) (L : Local) : Local :=
  { L with late := cmd.late || L.late, undone := cmd.undoes || L.undone }

def Local.inTx (sess : Session) (L : Local) : Local := { L with sess }

def Local.to (phase : Phase) (L : Local) : Local := { L with phase }

namespace Now

variable {L : Local} {held : List (Row × RowVal)} {F : Shared → Prop} {w w' : World}

theorem rejects_self (t : Tid) (cmd : Cmd) (f : Cmd → Bool) : Event.rejects t f (.failed t cmd) = f cmd := by
  simp [Event.rejects]

theorem failed (h : Now cfg c t L held F w) (hF : Lasting cfg c t F) {cmd : Cmd} (hc : cmd.authorizes = false) :
    Now cfg c t (L.fails cmd) held F (w.logEvent (.failed t cmd)) where
  saga := h.saga.snoc trivial (.failed hc)
  loc := by
    rw [← h.loc]
    have hp : (w.logEvent (.failed t cmd)).phase t = w.phase t :=
      (phase_log rfl w.toShared).trans (Phase.next_failed hc _ t)
    unfold World.loc Local.fails
    rw [hp]
    simp only [World.logEvent, Shared.log, rejectedIn_cons, rejects_self]
  owned := h.owned
  vals := h.vals
  fact := hF.quiet w.toShared _ rfl rfl rfl (Nat.le_refl _) h.fact

theorem ackLost (h : Now cfg c t L held F w) (hF : Lasting cfg c t F) (cmd : Cmd) :
    Now cfg c t (L.fails cmd) held F (w.logEvent (.ackLost t cmd)) where
  saga := h.saga.snoc trivial (.ackLost t _ cmd)
  loc := by
    rw [← h.loc]
    have hp : (w.logEvent (.ackLost t cmd)).phase t = w.phase t := phase_log rfl w.toShared
    have hr : ∀ f, Event.rejects t f (.ackLost t cmd) = f cmd := fun f => by simp [Event.rejects]
    unfold World.loc Local.fails
    rw [hp]
    simp only [World.logEvent, Shared.log, rejectedIn_cons, hr]
  owned := h.owned
  vals := h.vals
  fact := hF.quiet w.toShared _ rfl rfl rfl (Nat.le_refl _) h.fact

theorem setSession (h : Now cfg c t L held F w) (s : Session) :
    Now cfg c t (L.inTx s) held F (w.setSession t s) where
  saga := h.saga
  loc := by
    rw [← h.loc]
    simp [World.loc, Local.inTx, World.setSession]
  owned := h.owned
  vals := h.vals
  fact := h.fact

theorem unlockAll (h : Now cfg c t L held F w) : Now cfg c t L [] F (w.unlockAll t) where
  saga := h.saga
  loc := h.loc
  owned r := by
    simp only [World.unlockAll, List.map_nil, List.not_mem_nil, iff_false]
    split
    · simp
    · assumption
  vals := by simp
  fact := h.fact

theorem endTx (h : Now cfg c t L held F w) (active broken : Bool) :
    Now cfg c t (L.inTx ⟨active, broken, none⟩) [] F (w.endTx t active broken) :=
  h.unlockAll.setSession _

theorem lock (h : Now cfg c t L held F w) (r : Row) :
    Now cfg c t L (held ++ [(r, w.db.row r)]) F (w.lock t r) where
  saga := h.saga
  loc := h.loc
  owned r' := by
    rw [List.map_append, List.mem_append, ← h.owned r']
    by_cases he : r' = r
    · subst he; simp [World.lock]
    · simp [World.lock, he]
  vals rv hrv := by
    rcases List.mem_append.mp hrv with hrv | hrv
    · exact h.vals rv hrv
    · rw [List.mem_singleton.mp hrv]; rfl
  fact := h.fact

theorem nextUuid (h : Now cfg c t L held F w) (hF : Lasting cfg c t F) : Now cfg c t L held F w.nextUuid where
  saga := h.saga.snoc trivial (.skipUuid t w.toShared)
  loc := h.loc
  owned := h.owned
  vals := h.vals
  fact := hF.quiet w.toShared _ rfl rfl rfl (Nat.le_succ _) h.fact

/-- A statement appends to the log, and locks what it had not locked. -/
theorem stmt (h : Now cfg c t L held F w) {wr : Write} (hs : w.stmt t wr = some w') :
    Now cfg c t (L.inTx { L.sess with log := L.sess.log.map (· ++ [wr]) })
      (held ++ wr.rows.map fun r => (r, w.db.row r)) F w' := by
  obtain ⟨_, hsh, hpool, hsess, hlocks⟩ := stmt_eq hs
  refine ⟨hsh ▸ h.saga, ?_, fun r => ?_, fun rv hrv => ?_, hsh ▸ h.fact⟩
  · rw [← h.loc]
    unfold World.loc Local.inTx
    rw [hsess, hpool, hsh, Function.update_self]
  · rw [hlocks, List.map_append, List.mem_append, ← h.owned r]
    have hm : r ∈ (wr.rows.map fun r => (r, w.db.row r)).map Prod.fst ↔ r ∈ wr.rows := by simp
    rw [hm]
    by_cases hr : r ∈ wr.rows <;> simp [hr]
  · rw [hsh]
    rcases List.mem_append.mp hrv with hrv | hrv
    · exact h.vals rv hrv
    · obtain ⟨r, _, rfl⟩ := List.mem_map.mp hrv
      rfl

theorem same_rows {held' : List (Row × RowVal)} (h : Now cfg c t L held' F w)
    (h₁ : ∀ rv ∈ held, rv ∈ held') (h₂ : ∀ rv ∈ held', rv.1 ∈ held.map Prod.fst) : Now cfg c t L held F w where
  saga := h.saga
  loc := h.loc
  owned r := by
    rw [h.owned r]
    constructor
    · intro hr
      obtain ⟨rv, hrv, rfl⟩ := List.mem_map.mp hr
      exact h₂ rv hrv
    · intro hr
      obtain ⟨rv, hrv, rfl⟩ := List.mem_map.mp hr
      exact List.mem_map_of_mem (h₁ rv hrv)
  vals rv hrv := h.vals rv (h₁ rv hrv)
  fact := h.fact

theorem stmt_held (h : Now cfg c t L held F w) {wr : Write} (hs : w.stmt t wr = some w')
    (hr : ∀ r ∈ wr.rows, r ∈ held.map Prod.fst) :
    Now cfg c t (L.inTx { L.sess with log := L.sess.log.map (· ++ [wr]) }) held F w' := by
  refine (h.stmt hs).same_rows (fun rv h => List.mem_append_left _ h) fun rv hrv => ?_
  rcases List.mem_append.mp hrv with hrv | hrv
  · exact List.mem_map_of_mem hrv
  · obtain ⟨r, hm, rfl⟩ := List.mem_map.mp hrv
    exact hr r hm

theorem own {G : Shared → Prop} {s : Shared} {p : Phase} (h : Now cfg c t L held F w) (hjob : L.job ≠ none)
    (hs : Own cfg t w.toShared s) (hp : s.phase t = p)
    (hl : rejectedIn t Cmd.late s.trace = rejectedIn t Cmd.late w.trace)
    (hu : rejectedIn t Cmd.undoes s.trace = rejectedIn t Cmd.undoes w.trace)
    (hrows : ∀ rv ∈ held, s.db.row rv.1 = w.db.row rv.1) (hG : G s) :
    Now cfg c t (L.to p) held G { w with toShared := s } where
  saga := h.saga.run hs
  loc := by
    have hj : s.jobs t = w.jobs t := by
      cases hj : w.jobs t with
      | some job => exact jobs_of_run hs hj
      | none => exact (hjob (h.job.symm.trans hj)).elim
    rw [← h.loc]
    unfold World.loc Local.to
    simp only [hp, hl, hu, hj]
  owned := h.owned
  vals rv hrv := (hrows rv hrv).trans (h.vals rv hrv)
  fact := hG

end Now

/-! ## Products -/

def Takes (held : List (Row × RowVal)) (ids : List Uuid) : Prop := ∀ q, Row.product q ∈ held.map Prod.fst ↔ q ∈ ids

theorem Takes.append {held : List (Row × RowVal)} {past : List Uuid} (h : Takes held past) (id : Uuid)
    (v : RowVal) :
    Takes (held ++ [(.product id, v)]) (past ++ [id]) := by
  intro q
  have hq := h q
  simp only [List.map_append, List.mem_append, hq]
  simp

theorem Now.takes {L : Local} {held : List (Row × RowVal)} {F : Shared → Prop} {w : World} {past : List Uuid}
    (h : Now cfg c t L held F w) (ht : Takes held past) (q : Uuid) :
    w.locks (.product q) = some t ↔ q ∈ past := (h.owned _).trans (ht q)

end OrdersBackend
