import OrdersBackend.Mailbox

/-!
# Calls that compete for a key

Any number of calls of one request run next to each other, nothing else runs
and nothing fails. While the order is not there, the stock covers two of them
(or there is just one); once it is there, the stock still covers one. This is
a discipline of its own, for the runs without failures.
-/

namespace OrdersBackend

open Conc

/-- The calls of one request. -/
structure Contest where
  req : CreateOrderRequest
  calls : Tid → Prop

def Db.Covers (db : Db) (k : Int) (items : List OrderItemInput) : Prop :=
  ∀ item ∈ items, (db.product? item.productId).isSome ∧ k * lineSum items item.productId ≤ db.stock item.productId

/-- The ids of the products a request names, in the order they are locked. -/
def Catalogue.rowsOf (c : Catalogue) (req : CreateOrderRequest) : List Uuid :=
  (c.products.filter fun p => p.id ∈ (req.dto.items.map (·.productId)).eraseDups).map (·.id)

namespace Contest

variable (con : Contest)

def Alone : Prop := ∀ t u, con.calls t → con.calls u → t = u

/-- The steps of a run in which only the calls run and nothing fails. -/
def Calm : SysLabel → Prop
  | .run t ch => con.calls t ∧ ch = .proceed
  | .kill _ => False
  | .env (.loseRequest _) | .env (.loseResponse _) | .env (.loseChannel _) => False
  | .env _ => True
  | .spawn t arr => con.calls t ∧ arr = .request con.req

def order? (s : Shared) : Option Order := s.db.orderByKey? con.req.actor.id con.req.idempotencyKey

/-- The order is not there and the stock covers two calls, or a call has
brought it about and the stock covers another one. -/
structure Rivalry (s : Shared) : Prop where
  user : (s.db.user? con.req.actor.id).isSome
  stock : con.order? s = none ∧ s.db.Covers 1 con.req.dto.items ∧ (con.Alone ∨ s.db.Covers 2 con.req.dto.items) ∨
    (con.order? s).isSome ∧ (∃ u, con.calls u ∧ (s.phase u).orderId?.isSome) ∧
      (con.Alone ∨ s.db.Covers 1 con.req.dto.items)

/-- Nobody else has a connection or a lock. -/
def Bystanders (w : World) : Prop := ∀ t, ¬con.calls t → (w.pool .api).count t = 0 ∧ ∀ r, w.locks r ≠ some t

/-- No call's channel is lost. -/
def Open (s : Shared) : Prop := ∀ t, con.calls t → s.broker.channel t ≠ .lost

def Stage (rows : List Uuid) (t : Tid) : Cmd → World → Prop
  | .connect p, w => p = .api ∧ (w.pool .api).count t = 0 ∧ ∀ r, w.locks r ≠ some t
  | .acquire use, w => Ready t (.acquire use) w
  | .lockProduct id, w =>
    ∃ past rest, rows = past ++ id :: rest ∧ ∀ r, w.locks r = some t ↔ r ∈ past.map Row.product
  | .saveStock id _, w => w.locks (.product id) = some t
  | .insertOrder _ _, w => rows ≠ [] ∧ ∀ id ∈ rows, w.locks (.product id) = some t
  | .insertItem id _ _ _, w => w.locks (.order id) = some t
  | .updatePayment id _ _, w => (w.db.order? id).isSome
  | .sendAuthorize _, w => w.rpc t = .idle
  | .awaitAuthorize, w => (∃ req, w.rpc t = .requested req) ∨ ∃ res, w.rpc t = .executed res
  | .rollbackTransaction slot, w => slot = .qr ∧ (w.sess t).broken = false
  | .release _, _ | .free, _ | .startTransaction _, _ | .isTransactionActive, _ | .commitTransaction _, _
  | .findUser _, _ | .findOrder _ _, _ | .matchProducts _, _ | .uuid, _ | .now, _ | .publish _ _, _ => True
  | _, _ => False

def Unborn (t : Tid) (w : World) : Prop :=
  ∀ id, w.locks (.order id) = some t → w.db.order? id = none ∧ id < w.uuids

/-- The row of a key is locked after the products. -/
def Keyed (rows : List Uuid) (t : Tid) (w : World) : Prop :=
  ∀ u k, w.locks (.orderKey u k) = some t → ∀ id ∈ rows, w.locks (.product id) = some t

end Contest

/-- An Authorize call that is out stays out, until it is answered. -/
structure Served (t : Tid) (s s' : Shared) : Prop where
  idle : s.rpc t = .idle → s'.rpc t = .idle
  pending : ((∃ req, s.rpc t = .requested req) ∨ ∃ res, s.rpc t = .executed res) →
    (∃ req, s'.rpc t = .requested req) ∨ ∃ res, s'.rpc t = .executed res

theorem Served.of_eq {t : Tid} {s s' : Shared} (h : s'.rpc t = s.rpc t) : Served t s s' :=
  ⟨fun hi => h.trans hi, fun hp => by rw [h]; exact hp⟩

theorem Served.trans {t : Tid} {s s' s'' : Shared} (h : Served t s s') (h' : Served t s' s'') : Served t s s'' :=
  ⟨fun hi => h'.idle (h.idle hi), fun hp => h'.pending (h.pending hp)⟩

variable {cfg : Config} {c : Catalogue} {con : Contest}

theorem Step.rpc_of_own {t u : Tid} {s s' : Shared} (h : Step cfg (some t) s s') (hu : u ≠ t) :
    s'.rpc u = s.rpc u := by
  cases h with
  | request | receive => exact Function.update_of_ne hu _ _
  | reserve | release | process => rw [commit_eq]
  | _ => rfl

theorem rpc_of_own {t u : Tid} {s s' : Shared} (h : Own cfg t s s') (hu : u ≠ t) : s'.rpc u = s.rpc u := by
  refine Runs.invariant (I := fun s' => s'.rpc u = s.rpc u) (fun a s₁ s₂ ha he hs => ?_) h rfl
  subst ha
  exact (hs.rpc_of_own hu).trans he

/-! ## What keeps the rivalry -/

namespace Contest

theorem Rivalry.keep {a : Option Tid} {s s' : Shared} (h : con.Rivalry s) (hs : Step cfg a s s')
    (hu : s'.db.users = s.db.users) (hp : s'.db.products = s.db.products)
    (ho : (con.order? s').isSome = (con.order? s).isSome) : con.Rivalry s' := by
  have hcovers : ∀ k, s.db.Covers k con.req.dto.items → s'.db.Covers k con.req.dto.items := by
    intro k hk item hi
    have := hk item hi
    unfold Db.product? Db.stock at this ⊢
    rw [hp]; exact this
  refine ⟨by have := h.user; unfold Db.user? at this ⊢; rw [hu]; exact this, ?_⟩
  rcases h.stock with ⟨hnone, h₁, h₂⟩ | ⟨hsome, ⟨u, hcall, hphase⟩, h₁⟩
  · refine .inl ⟨?_, hcovers 1 h₁, h₂.imp_right (hcovers 2)⟩
    rw [hnone] at ho
    simpa using ho
  · refine .inr ⟨ho.trans hsome, ⟨u, hcall, ?_⟩, h₁.imp_right (hcovers 1)⟩
    obtain ⟨id, hid⟩ := Option.isSome_iff_exists.mp hphase
    rw [hs.orderId? hid]
    rfl

theorem Rivalry.same_db {a : Option Tid} {s s' : Shared} (h : con.Rivalry s) (hs : Step cfg a s s')
    (hdb : s'.db = s.db) : con.Rivalry s' := h.keep hs (by rw [hdb]) (by rw [hdb]) (by unfold order?; rw [hdb])

/-- A call that has not reserved yet finds stock for its lines. -/
theorem Rivalry.covers {s : Shared} (h : con.Rivalry s) {t : Tid} (ht : con.calls t) (hp : s.phase t = .start) :
    s.db.Covers 1 con.req.dto.items := by
  rcases h.stock with ⟨_, h₁, _⟩ | ⟨_, ⟨u, hu, hphase⟩, halone | h₁⟩
  · exact h₁
  · rw [halone u t hu ht, hp] at hphase
    cases hphase
  · exact h₁

theorem Bystanders.of_stays {w w' : World} (h : con.Bystanders w) (hs : ∀ t, ¬con.calls t → Stays t w w') :
    con.Bystanders w' := by
  intro t ht
  have hst := hs t ht
  refine ⟨(congrArg Local.api hst.loc).trans (h t ht).1, fun r hr => (h t ht).2 r ((hst.locks r).mp hr)⟩

theorem Open.of_eq {s s' : Shared} (h : con.Open s) (hb : s'.broker.channel = s.broker.channel) : con.Open s' :=
  fun t ht => by rw [hb]; exact h t ht

theorem Open.does {t : Tid} {cmd : Cmd} {s s' : Shared} (h : con.Open s) (hd : Does t cmd s s') : con.Open s' := by
  intro u hu
  by_cases he : u = t
  · subst he
    rcases hd.channel with ⟨hc, _⟩ | ⟨_, hc⟩
    · rw [hc]
      exact h u hu
    · rw [hc]
      exact nofun
  · rw [hd.channel_ne he]
    exact h u hu

theorem Open.env {act : EnvAct} {s s' : Shared} (h : con.Open s) (ha : con.Calm (.env act))
    (hs : s.env cfg act = some s') : con.Open s' := by
  rcases env_cases hs with ⟨hb, _⟩ | ⟨i, b, rfl, hb, rfl⟩ | ⟨t, rfl, rfl⟩
  · exact h.of_eq (congrArg Broker.channel hb)
  · obtain ⟨⟨m, b₁⟩, hb₁, rfl⟩ := Option.map_eq_some_iff.mp hb
    refine h.of_eq ?_
    simp only [Broker.publish_channel, (Broker.take_some hb₁).2.2.2]
  · exact ha.elim

/-! ## The protocol -/

theorem arrive_request {t : Tid} {req : CreateOrderRequest} {w w' : World} {p : Api Reply}
    (h : w.arrive cfg t (.request req) = some (p, w')) :
    w.jobs t = none ∧ p = requestThread cfg req ∧
    w' = { w with toShared := w.toShared.start t (.create req) } := by
  unfold World.arrive at h
  split at h
  · cases h
  · rename_i hj
    cases h
    exact ⟨hj, rfl, rfl⟩

/-- A call has ended well, and holds nothing. -/
def Over (con : Contest) (t : Tid) (r : Except Err Reply) (w : World) : Prop :=
  con.calls t → w.jobs t = some (.create con.req) ∧ (∃ res, r = .ok (some res)) ∧ (w.pool .api).count t = 0 ∧
    ∀ r, w.locks r ≠ some t

theorem Over.of_stays {t : Tid} {r : Except Err Reply} {w w' : World} (h : con.Over t r w) (hs : Stays t w w') :
    con.Over t r w' := by
  intro ht
  obtain ⟨hjob, hres, hapi, hlocks⟩ := h ht
  exact ⟨(congrArg Local.job hs.loc).trans hjob, hres, (congrArg Local.api hs.loc).trans hapi,
    fun r hr => hlocks r ((hs.locks r).mp hr)⟩

theorem Stage.ready {rows : List Uuid} {t : Tid} {cmd : Cmd} {w : World}
    (hrows : rows.Sublist (w.db.products.map (·.id)))
    (h : Stage rows t cmd w) : Ready t cmd w := by
  cases cmd with
  | acquire use => exact h
  | lockProduct id =>
    obtain ⟨past, rest, rfl, hlocks⟩ := h
    exact ⟨past, rest, hrows, fun q => by rw [hlocks]; simp⟩
  | saveStock id n => exact h
  | incrementStock => exact h.elim
  | _ => trivial

theorem served_of_env {act : EnvAct} {t : Tid} {s s' : Shared} (ha : con.Calm (.env act))
    (h : s.env cfg act = some s') : Served t s s' := by
  have hstep := step_of_env h
  refine ⟨fun hi => (hstep.rpc_idle (by simp)).mpr hi, fun hpend => ?_⟩
  rcases hstep.rpc_other (show none ≠ some t by simp) with he | ⟨_, ⟨res, hr⟩ | hlost⟩
  · rw [he]; exact hpend
  · exact .inr ⟨res, hr⟩
  · -- the network loses nothing in these runs
    have hsame : s'.rpc t = s.rpc t ∨ s'.rpc t ≠ .lost := by
      unfold Shared.env at h
      cases act with
      | loseRequest | loseResponse | loseChannel => exact ha.elim
      | execute u =>
        simp only at h
        split at h
        · split at h
          · cases h
            by_cases hu : t = u
            · subst hu
              exact .inr (by simp [Shared.execute])
            · exact .inl (Function.update_of_ne hu _ _)
          · cases h
        · cases h
      | answer u res =>
        simp only at h
        split at h
        · split at h
          · cases h
            by_cases hu : t = u
            · subst hu
              exact .inr (by simp [Shared.setRpc])
            · exact .inl (Function.update_of_ne hu _ _)
          · cases h
        · cases h
      | expire i =>
        obtain ⟨b, _, rfl⟩ := Option.map_eq_some_iff.mp h
        exact .inl rfl
      | tick => cases h; exact .inl rfl
    rcases hsame with he | hne
    · rw [he]; exact hpend
    · exact (hne hlost).elim

def protocol (con : Contest) (cfg : Config) (c : Catalogue) : Protocol (machine cfg) where
  allows := con.Calm
  inv w := WorldInv cfg c w ∧ con.Rivalry w.toShared ∧ con.Bystanders w ∧ con.Open w.toShared
  rely t w w' := Stays t w w' ∧ Others cfg t w.toShared w'.toShared ∧ Served t w.toShared w'.toShared
  guar t w w' := Own cfg t w.toShared w'.toShared ∧ con.Rivalry w'.toShared
  pre t cmd w := con.calls t ∧ w.jobs t = some (.create con.req) ∧ Stage (c.rowsOf con.req) t cmd w ∧ Unborn t w ∧
    Keyed (c.rowsOf con.req) t w
  post := con.Over
  rely_refl t w := ⟨.refl t w, .refl _, .of_eq rfl⟩
  rely_trans _ _ _ _ h h' := ⟨h.1.trans h'.1, h.2.1.trans h'.2.1, h.2.2.trans h'.2.2⟩
  post_rely _ _ _ _ h h' := h.of_stays h'.1
  exec_ok t cmd ch w r w' _ hI hp hx hg := by
    have hrows : (c.rowsOf con.req).Sublist (w.db.products.map (·.id)) := by
      rw [ids_of_shape hI.1.saga.inv.tables.products]
      exact List.filter_sublist.map _
    have hpre : (discipline cfg c).pre t cmd w := ⟨by rw [hp.2.1]; simp, hp.2.2.1.ready hrows⟩
    obtain ⟨hW, hrely⟩ := (discipline cfg c).exec_ok t cmd ch w r w' trivial hI.1 hpre hx hg.1
    refine ⟨⟨hW, hg.2, hI.2.2.1.of_stays fun t' ht' => (hrely t' fun he => ht' (he ▸ hp.1)).1,
      hI.2.2.2.does (.of_exec hx)⟩, fun t' ht' => ?_⟩
    obtain ⟨hs, ho⟩ := hrely t' ht'
    exact ⟨hs, ho, .of_eq (rpc_of_own hg.1 ht')⟩
  kill_ok _ _ ha := ha.elim
  env_ok act w w' ha hI h := by
    obtain ⟨hW, hrely⟩ := (discipline cfg c).env_ok act w w' trivial hI.1 h
    obtain ⟨s', hs', rfl⟩ := Option.map_eq_some_iff.mp h
    have hstep := step_of_env hs'
    refine ⟨⟨hW, hI.2.1.same_db hstep (db_of_none hstep),
      hI.2.2.1.of_stays fun t _ => (hrely t).1, hI.2.2.2.env ha hs'⟩, fun t => ⟨(hrely t).1, (hrely t).2, ?_⟩⟩
    exact served_of_env ha hs'
  spawn_ok t arr w p w' ha hI h := by
    obtain ⟨hW, hrely⟩ := (discipline cfg c).spawn_ok t arr w p w' trivial hI.1 h
    have hchannel : w'.broker.channel = w.broker.channel := by
      obtain ⟨_, rfl⟩ := ha
      rw [(arrive_request h).2.2]
      rfl
    obtain ⟨_, s, rfl, hstep, hdb, _⟩ := arrive_cases h
    refine ⟨⟨hW, hI.2.1.same_db hstep hdb,
        hI.2.2.1.of_stays fun t' ht' => (hrely t' fun he => ht' (he ▸ ha.1)).1, hI.2.2.2.of_eq hchannel⟩,
      fun t' ht' => ⟨(hrely t' ht').1, (hrely t' ht').2, .of_eq (hstep.rpc_of_own ht')⟩⟩

end Contest

end OrdersBackend
