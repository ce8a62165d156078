import OrdersBackend.Contest

/-!
# A call among its rivals

What a call that competes with others does, command by command: it always
returns, and whenever it waits, `Stage` says what for.
-/

namespace OrdersBackend

open Conc Async

namespace Contest

variable {cfg : Config} {c : Catalogue} {con : Contest} {t : Tid} {L : Local} {held : List (Row × RowVal)}
variable {F : Shared → Prop} {w : World} {α : Type}

abbrev Wp (con : Contest) (cfg : Config) (c : Catalogue) (t : Tid) (p : Api α) (Q : Except Err α → World → Prop)
    (w : World) : Prop := (con.protocol cfg c).wp t p Q w

/-- A fact that the others' steps preserve while nothing fails. -/
def Steady (cfg : Config) (c : Catalogue) (t : Tid) (F : Shared → Prop) : Prop :=
  ∀ s s' : Shared, Saga cfg c s → Others cfg t s s' → Served t s s' → F s → F s'

theorem Steady.top : Steady cfg c t fun _ => True := fun _ _ _ _ _ _ => trivial

theorem Steady.of_lasting (hF : Lasting cfg c t F) : Steady cfg c t F := fun _ _ hs ho _ h => hF.others hs ho h

theorem Steady.and {G : Shared → Prop} (hF : Steady cfg c t F) (hG : Steady cfg c t G) :
    Steady cfg c t fun s => F s ∧ G s :=
  fun s s' hs ho hv h => ⟨hF s s' hs ho hv h.1, hG s s' hs ho hv h.2⟩

/-- The orders whose rows are locked are still to come, and the row of a key is
locked after the products. -/
structure Clean (rows : List Uuid) (held : List (Row × RowVal)) (uuids : Nat) : Prop where
  orders : ∀ rv ∈ held, ∀ id, rv.1 = .order id → rv.2 = .order none [] ∧ id < uuids
  keys : ∀ rv ∈ held, ∀ u k, rv.1 = .orderKey u k → ∀ id ∈ rows, Row.product id ∈ held.map Prod.fst

theorem Clean.nil {rows : List Uuid} {n : Nat} : Clean rows [] n := ⟨by simp, by simp⟩

theorem Clean.mono {rows : List Uuid} {n m : Nat} (h : Clean rows held n) (hle : n ≤ m) : Clean rows held m :=
  ⟨fun rv hrv id he => (h.orders rv hrv id he).imp_right fun hlt => Nat.lt_of_lt_of_le hlt hle, h.keys⟩

/-- What is known of a call that competes. -/
structure Contends (con : Contest) (cfg : Config) (c : Catalogue) (t : Tid) (L : Local)
    (held : List (Row × RowVal))
    (F : Shared → Prop) (w : World) : Prop where
  now : Now cfg c t L held F w
  call : con.calls t
  job : L.job = some (.create con.req)
  clean : Clean (c.rowsOf con.req) held w.uuids
  rivalry : con.Rivalry w.toShared

namespace Contends

variable {w' : World} {L' : Local} {held' : List (Row × RowVal)} {G : Shared → Prop}

theorem jobs (h : Contends con cfg c t L held F w) : w.jobs t = some (.create con.req) := h.now.job.trans h.job

theorem unborn (h : Contends con cfg c t L held F w) : Unborn t w := by
  intro id hid
  obtain ⟨rv, hrv, he⟩ := List.mem_map.mp ((h.now.owned _).mp hid)
  have hrow := h.now.vals rv hrv
  rw [(h.clean.orders rv hrv id he).1, he, Db.row, RowVal.order.injEq] at hrow
  exact ⟨hrow.1, (h.clean.orders rv hrv id he).2⟩

theorem owns (h : Contends con cfg c t L held F w) {r : Row} (hr : r ∈ held.map Prod.fst) : w.locks r = some t :=
  (h.now.owned r).mpr hr

theorem keyed (h : Contends con cfg c t L held F w) : Keyed (c.rowsOf con.req) t w := by
  intro u k hk id hid
  obtain ⟨rv, hrv, he⟩ := List.mem_map.mp ((h.now.owned _).mp hk)
  exact h.owns (h.clean.keys rv hrv u k he id hid)

theorem free (h : Contends con cfg c t L [] F w) (r : Row) : w.locks r ≠ some t :=
  fun hr => List.not_mem_nil ((h.now.owned r).mp hr)

theorem weaken (h : Contends con cfg c t L held F w) (hG : F w.toShared → G w.toShared) :
    Contends con cfg c t L held G w := ⟨h.now.weaken hG, h.call, h.job, h.clean, h.rivalry⟩

theorem top (h : Contends con cfg c t L held F w) : Contends con cfg c t L held (fun _ => True) w :=
  h.weaken fun _ => trivial

theorem rivalry_nextUuid (h : Contends con cfg c t L held F w) : con.Rivalry w.nextUuid.toShared :=
  h.rivalry.same_db (.skipUuid t w.toShared : Step cfg (some t) w.toShared _) rfl

theorem move (h : Contends con cfg c t L held F w) (hs : w'.toShared = w.toShared) (hn : Now cfg c t L' held' G w')
    (hj : L'.job = L.job) (hc : Clean (c.rowsOf con.req) held' w.uuids) :
    Contends con cfg c t L' held' G w' := ⟨hn, h.call, hj.trans h.job, by rw [hs]; exact hc, hs ▸ h.rivalry⟩

end Contends

/-! ## Rules -/

theorem wp_issue {cmd : Cmd} {Q : Except Err cmd.Res → World → Prop} (h : Contends con cfg c t L held F w)
    (hF : Steady cfg c t F)
    (hstage : ∀ w', Contends con cfg c t L held F w' → WorldInv cfg c w' → Stage (c.rowsOf con.req) t cmd w')
    (hx : ∀ w' r w'', Contends con cfg c t L held F w' → WorldInv cfg c w' → perform cfg t cmd w' = some (r, w'') →
      Own cfg t w'.toShared w''.toShared ∧ con.Rivalry w''.toShared ∧ Q r w'') :
    con.Wp cfg c t (issue cmd) Q w := by
  refine (con.protocol cfg c).wp_call fun w' hr hi => ?_
  have hn : Now cfg c t L held F w' :=
    { saga := h.now.saga.run hr.2.1
      loc := hr.1.loc.trans h.now.loc
      owned := fun r => (hr.1.locks r).trans (h.now.owned r)
      vals := fun rv hrv => by
        rw [← h.now.vals rv hrv]
        exact hr.1.rows rv.1 ((h.now.owned rv.1).mpr (List.mem_map_of_mem hrv))
      fact := hF _ _ h.now.saga hr.2.1 hr.2.2 h.now.fact }
  have h' : Contends con cfg c t L held F w' := ⟨hn, h.call, h.job, h.clean.mono (uuids_of_run hr.2.1), hi.2.1⟩
  refine ⟨⟨h.call, h'.jobs, hstage w' h' hi.1, h'.unborn, h'.keyed⟩, fun ch r w'' ha hp => ?_⟩
  obtain ⟨-, rfl⟩ := ha
  have hp : perform cfg t cmd w' = some (r, w'') :=
    (exec_proceed (World.refuses_of_open (hi.2.2.2 t h.call) cmd)).symm.trans hp
  obtain ⟨hown, hriv, hQ⟩ := hx w' r w'' h' hi.1 hp
  exact ⟨⟨hown, hriv⟩, hQ⟩

theorem wp_read {cmd : Cmd} {Q : Except Err cmd.Res → World → Prop} (v : World → cmd.Res)
    (hv : ∀ w, perform cfg t cmd w = some (.ok (v w), w)) (hstage : ∀ w, Stage (c.rowsOf con.req) t cmd w)
    (h : Contends con cfg c t L held F w) (hF : Steady cfg c t F)
    (hok : ∀ w', Contends con cfg c t L held F w' → WorldInv cfg c w' → Q (.ok (v w')) w') :
    con.Wp cfg c t (issue cmd) Q w := by
  refine wp_issue h hF (fun w' _ _ => hstage w') fun w' r w'' h' hi hp => ?_
  rw [hv w'] at hp
  cases hp
  exact ⟨.refl _, h'.rivalry, hok w' h' hi⟩

theorem wp_move {cmd : Cmd} {Q : Except Err cmd.Res → World → Prop} (h : Contends con cfg c t L held F w)
    (hF : Steady cfg c t F)
    (hstage : ∀ w', Contends con cfg c t L held F w' → WorldInv cfg c w' → Stage (c.rowsOf con.req) t cmd w')
    (hx : ∀ w' r w'', Contends con cfg c t L held F w' → WorldInv cfg c w' → perform cfg t cmd w' = some (r, w'') →
      w''.toShared = w'.toShared ∧ Q r w'') : con.Wp cfg c t (issue cmd) Q w := by
  refine wp_issue h hF hstage fun w' r w'' h' hi hp => ?_
  obtain ⟨hs, hQ⟩ := hx w' r w'' h' hi hp
  exact ⟨by rw [hs]; exact .refl _, by rw [hs]; exact h'.rivalry, hQ⟩

theorem wp_connect {Q : Except Err Unit → World → Prop} (h : Contends con cfg c t L [] F w) (hF : Steady cfg c t F)
    (hapi : L.api = 0) (hok : ∀ w', Contends con cfg c t (L.gain .api) [] F w' → Q (.ok ()) w') :
    con.Wp cfg c t (issue (.connect .api)) Q w := by
  refine wp_move h hF (fun w' h' _ => ⟨rfl, h'.now.api.trans hapi, h'.free⟩) fun w' r w'' h' _ hp => ?_
  simp only [perform] at hp
  split at hp
  · cases hp
    exact ⟨rfl, hok _ (h'.move rfl (h'.now.addConn .api) rfl h'.clean)⟩
  · cases hp

theorem wp_release {Q : Except Err Unit → World → Prop} (h : Contends con cfg c t L held F w)
    (hF : Steady cfg c t F)
    (hok : ∀ w', Contends con cfg c t (L.drop .api) held F w' → Q (.ok ()) w') :
    con.Wp cfg c t (issue (.release .api)) Q w := by
  refine wp_move h hF (fun _ _ _ => trivial) fun w' r w'' h' _ hp => ?_
  cases hp
  exact ⟨rfl, hok _ (h'.move rfl (h'.now.removeConn .api) rfl h'.clean)⟩

theorem wp_startTransaction {Q : Except Err Unit → World → Prop} (h : Contends con cfg c t L held F w)
    (hF : Steady cfg c t F) (hok : ∀ w', Contends con cfg c t
      (L.inTx { L.sess with active := true, log := some [] }) held F w' → Q (.ok ()) w') :
    con.Wp cfg c t (issue (.startTransaction .qr)) Q w := by
  refine wp_move h hF (fun _ _ _ => trivial) fun w' r w'' h' _ hp => ?_
  cases hp
  refine ⟨rfl, hok _ (h'.move rfl ?_ rfl h'.clean)⟩
  rw [h'.now.sess]
  exact h'.now.setSession _

theorem wp_withConnection {use : Use} {body : Api α} {Q : Except Err α → World → Prop}
    (h : Contends con cfg c t L [] F w) (hF : Steady cfg c t F) (hapi : L.api = 1)
    (hbody : ∀ w', Contends con cfg c t (L.gain .api) [] F w' → con.Wp cfg c t body (fun r w'' =>
      ∃ L' G, Contends con cfg c t L' [] G w'' ∧ Steady cfg c t G ∧
        ∀ w₁, Contends con cfg c t (L'.drop .api) [] G w₁ → Q r w₁) w') :
    con.Wp cfg c t (withConnection use body) Q w := by
  refine (con.protocol cfg c).wp_bind ?_
  refine wp_move h hF (fun w' h' _ => ⟨⟨con.req, h'.jobs⟩, h'.now.api.trans hapi, h'.free⟩)
    fun w' r w'' h' _ hp => ?_
  simp only [perform] at hp
  split at hp
  · cases hp
    refine ⟨rfl, ?_⟩
    have h₁ : Contends con cfg c t (L.gain .api) [] F (w'.addConn .api t) :=
      h'.move rfl (h'.now.addConn .api) rfl h'.clean
    refine (con.protocol cfg c).wp_tryFinally ((con.protocol cfg c).wp_mono (fun r w₁ hr => ?_) (hbody _ h₁))
    obtain ⟨L', G, hn, hG, hQ⟩ := hr
    refine wp_move hn hG (fun _ _ _ => trivial) fun w₂ r₂ w₃ h₂ _ hp₂ => ?_
    cases hp₂
    exact ⟨rfl, hQ _ (h₂.move rfl (h₂.now.removeConn .api) rfl h₂.clean)⟩
  · cases hp

theorem wp_commit {G : Shared → Prop} {ws : List Write} {Q : Except Err Unit → World → Prop}
    (h : Contends con cfg c t L held F w) (hF : Steady cfg c t F) (hlog : L.sess.log = some ws)
    (hstep : ∀ w', Contends con cfg c t L held F w' → WorldInv cfg c w' →
      Own cfg t w'.toShared (w'.toShared.commit t ws) ∧ con.Rivalry (w'.toShared.commit t ws) ∧
        G (w'.toShared.commit t ws))
    (hok : ∀ w', Contends con cfg c t
      ((L.to (ws.foldl Phase.write L.phase)).inTx ⟨false, false, none⟩) [] G w' → Q (.ok ()) w') :
    con.Wp cfg c t (issue (.commitTransaction .qr)) Q w := by
  refine wp_issue h hF (fun _ _ _ => trivial) fun w' r w'' h' hi hp => ?_
  have hws : (w'.sess t).log = some ws := by rw [h'.now.sess, hlog]
  have hjob : L.job ≠ none := by simp [h.job]
  obtain ⟨hs, hriv, hg⟩ := hstep w' h' hi
  simp only [perform, hws] at hp
  cases hp
  refine ⟨hs, hriv, hok _ ⟨h'.now.commitTx hjob hs hg _ _, h.call, h.job, .nil, hriv⟩⟩

theorem wp_rollback {Q : Except Err Unit → World → Prop} (h : Contends con cfg c t L held F w)
    (hF : Steady cfg c t F) (hactive : L.sess.active = true) (hbroken : L.sess.broken = false)
    (hok : ∀ w', Contends con cfg c t (L.inTx ⟨false, false, none⟩) [] F w' → Q (.ok ()) w') :
    con.Wp cfg c t (issue (.rollbackTransaction .qr)) Q w := by
  refine wp_move h hF (fun w' h' _ => ⟨rfl, by rw [h'.now.sess]; exact hbroken⟩) fun w' r w'' h' _ hp => ?_
  simp only [perform, h'.now.sess, hactive, hbroken] at hp
  cases hp
  exact ⟨rfl, hok _ (h'.move rfl (h'.now.endTx _ _) rfl .nil)⟩

theorem Contends.stmt {w' : World} {wr : Write} (h : Contends con cfg c t L held F w) (hs : w.stmt t wr = some w')
    (hr : ∀ r ∈ wr.rows, r ∈ held.map Prod.fst) :
    Contends con cfg c t (L.inTx { L.sess with log := L.sess.log.map (· ++ [wr]) }) held F w' :=
  h.move (stmt_eq hs).2.1 (h.now.stmt_held hs hr) rfl h.clean

/-! ## The reservation -/

theorem isSome_product?_rowsOf (hT : Tables c w.db) {id : Uuid} (hid : id ∈ c.rowsOf con.req) :
    (w.db.product? id).isSome := by
  obtain ⟨p, hp, rfl⟩ := List.mem_map.mp hid
  refine Tables.isSome_product?_of_shape hT.products ?_
  rw [List.find?_isSome]
  exact ⟨p, (List.mem_filter.mp hp).1, by simp⟩

theorem rowsOf_nodup (c : Catalogue) (req : CreateOrderRequest) : (c.rowsOf req).Nodup :=
  c.productIds.sublist (List.filter_sublist.map _)

/-- The rows a request locks are the same at any time. -/
theorem matches_eq (hT : Tables c w.db) (ids : List Uuid) :
    (w.db.products.filter fun p => p.id ∈ ids).map (·.id) =
      (c.products.filter fun p => p.id ∈ ids).map (·.id) := by
  have hfilter : ∀ ps : List Product, (ps.filter fun p => p.id ∈ ids).map (·.id) =
      (ps.map (·.id)).filter fun id => id ∈ ids := by
    intro ps
    rw [List.filter_map]
    rfl
  rw [hfilter, hfilter, ids_of_shape hT.products]

/-- What a reservation has read once all its rows are locked. -/
structure Read (con : Contest) (c : Catalogue) (products : List Product) (held : List (Row × RowVal)) : Prop where
  locked : Locked products held
  ids : products.map (·.id) = c.rowsOf con.req
  rows : held.map Prod.fst = (c.rowsOf con.req).map Row.product

theorem wp_lockProducts {Q : Except Err (List Product) → World → Prop} (hF : Steady cfg c t F)
    (hok : ∀ products held w', con.Read c products held →
      Contends con cfg c t (.reserving con.req []) held F w' → Q (.ok products) w') :
    ∀ (rest past : List Uuid) (products : List Product) (held : List (Row × RowVal)) (w : World),
      c.rowsOf con.req = past ++ rest → products.map (·.id) = past → held.map Prod.fst = past.map Row.product →
      Locked products held → Contends con cfg c t (.reserving con.req []) held F w →
      con.Wp cfg c t (lockProducts rest products) Q w
  | [], past, products, held, w, hrows, hids, hheld, hl, h => by
    rw [List.append_nil] at hrows
    exact hok products held w ⟨hl, by rw [hids, hrows], by rw [hheld, hrows]⟩ h
  | id :: rest, past, products, held, w, hrows, hids, hheld, hl, h => by
    refine (con.protocol cfg c).wp_bind ?_
    refine wp_move h hF (fun w' h' _ => ⟨past, rest, hrows, fun r => by rw [h'.now.owned r, hheld]⟩)
      fun w' r w'' h' hi hp => ?_
    simp only [perform] at hp
    split at hp
    · cases hp
      refine ⟨rfl, ?_⟩
      have hmem : id ∈ c.rowsOf con.req := hrows ▸ List.mem_append_right _ (List.mem_cons_self ..)
      obtain ⟨p, hp⟩ := Option.isSome_iff_exists.mp (isSome_product?_rowsOf hi.saga.inv.tables hmem)
      have hid := Db.product?_id hp
      rw [h'.now.view_nil (.inr rfl), hp]
      have hn := h'.now.lock (.product id)
      have hrow : w'.db.row (.product id) = .product (some p) := by rw [Db.row, hp]
      rw [hrow] at hn
      refine wp_lockProducts hF hok rest (past ++ [id]) _ _ _ (by simp [hrows]) (by simp [hids, hid])
        (by simp [hheld]) (fun q hq => ?_) (h'.move rfl hn rfl ⟨fun rv hrv => ?_, fun rv hrv u k he => ?_⟩)
      · rcases List.mem_append.mp hq with hq | hq
        · exact List.mem_append_left _ (hl q hq)
        · simp only [Option.toList_some, List.mem_singleton] at hq
          subst hq
          rw [hid]
          exact List.mem_append_right _ (List.mem_singleton_self _)
      · rcases List.mem_append.mp hrv with hrv | hrv
        · exact h'.clean.orders rv hrv
        · rw [List.mem_singleton.mp hrv]
          simp
      · rcases List.mem_append.mp hrv with hrv | hrv
        · intro i hi
          rw [List.map_append]
          exact List.mem_append_left _ (h'.clean.keys rv hrv u k he i hi)
        · rw [List.mem_singleton.mp hrv] at he
          cases he
    · cases hp

theorem wp_selectProductsForUpdate {Q : Except Err (List Product) → World → Prop} (hF : Steady cfg c t F)
    (h : Contends con cfg c t (.reserving con.req []) [] F w)
    (hok : ∀ products held w', con.Read c products held →
      Contends con cfg c t (.reserving con.req []) held F w' → Q (.ok products) w') :
    con.Wp cfg c t (selectProductsForUpdate (con.req.dto.items.map (·.productId)).eraseDups) Q w := by
  refine (con.protocol cfg c).wp_bind ?_
  refine wp_read (fun w => ((w.view t).products.filter fun p =>
    p.id ∈ (con.req.dto.items.map (·.productId)).eraseDups).map (·.id)) (fun _ => rfl) (fun _ => trivial) h hF
    fun w' h' hi => ?_
  rw [h'.now.view_nil (.inr rfl), matches_eq hi.saga.inv.tables]
  exact wp_lockProducts hF hok _ [] [] [] w' rfl rfl rfl (by simp [Locked]) h'

theorem fillable {products : List Product} (hr : con.Read c products held)
    (h : Contends con cfg c t (.reserving con.req []) held F w) (hT : Tables c w.db) :
    Fillable products con.req.dto.items := by
  intro item hi
  obtain ⟨hsome, hle⟩ := h.rivalry.covers h.call h.now.phase item hi
  obtain ⟨p, hp⟩ := Option.isSome_iff_exists.mp hsome
  have hid := Db.product?_id hp
  have hrow : item.productId ∈ products.map (·.id) := by
    rw [hr.ids, Catalogue.rowsOf, ← matches_eq hT]
    refine List.mem_map.mpr ⟨p, List.mem_filter.mpr ⟨Db.product?_mem hp, ?_⟩, hid⟩
    rw [hid]
    simpa using ⟨item, hi, rfl⟩
  obtain ⟨q, hq, hqid⟩ := List.mem_map.mp hrow
  have hcur := h.now.row (hr.locked q hq)
  rw [Db.row, RowVal.product.injEq, hqid] at hcur
  refine ⟨q, hq, hqid, ?_⟩
  have hstock : w.db.stock item.productId = q.stock := by
    unfold Db.stock stockIn
    unfold Db.product? at hcur
    rw [hcur]; rfl
  omega

theorem wp_saveProducts {products : List Product} {plan : OrderPlan} {Q : Except Err Unit → World → Prop}
    (hF : Steady cfg c t F) (hr : con.Read c products held)
    (hplan : buildOrderPlan products con.req.dto.items = .ok plan)
    (h : Contends con cfg c t (.reserving con.req []) held F w)
    (hok : ∀ w', Contends con cfg c t (.reserving con.req
      (plan.quantityByProductId.entries.filterMap (stockWrite (productsById products)))) held F w' →
      Q (.ok ()) w') :
    con.Wp cfg c t (saveProducts (productsById products) plan.quantityByProductId.entries) Q w := by
  have hn : (products.map (·.id)).Nodup := hr.ids ▸ rowsOf_nodup c con.req
  refine (con.protocol cfg c).wp_forEach (fun past rest w => past ++ rest = plan.quantityByProductId.entries ∧
    Contends con cfg c t (.reserving con.req (past.filterMap (stockWrite (productsById products)))) held F w) _ []
    ⟨rfl, h⟩ ?_ ?_
  · rintro past entry rest w₁ ⟨hl, h₁⟩
    have hentry : entry ∈ plan.quantityByProductId.entries := by rw [← hl]; simp
    rw [(buildOrderPlan_ok hn hplan).1] at hentry
    obtain ⟨hmem, _⟩ := mem_aggregate.mp hentry
    obtain ⟨item, hi, hie⟩ := List.mem_map.mp hmem
    obtain ⟨p, hp, hid, _⟩ := (buildOrderPlan_ok hn hplan).2.2 item hi
    have hg : (productsById products).get? entry.1 = some p :=
      (get?_productsById hn _ _).mpr ⟨hp, hid.trans hie⟩
    have hheld : Row.product p.id ∈ held.map Prod.fst := List.mem_map_of_mem (hr.locked p hp)
    simp only [hg]
    refine wp_move h₁ hF (fun w' h' _ => h'.owns hheld) fun w' r w'' h' _ hp' => ?_
    obtain ⟨hs, rfl⟩ := stmt_map hp'
    refine ⟨(stmt_eq hs).2.1, by simpa using hl, ?_⟩
    have hw : stockWrite (productsById products) entry = some (.stock p.id (p.stock - entry.2)) := by
      rw [stockWrite, hg]; rfl
    rw [List.filterMap_append, List.filterMap_cons, hw]
    exact h'.stmt hs (by simpa [Write.rows] using hheld)
  · rintro past w₁ ⟨hl, h₁⟩
    rw [List.append_nil] at hl
    subst hl
    exact hok w₁ h₁

theorem Steady.ordered : Steady cfg c t fun s => (con.order? s).isSome := by
  intro s s' hs ho _ h
  obtain ⟨o, hf⟩ := Option.isSome_iff_exists.mp h
  obtain ⟨hm, hu, hk⟩ := Db.orderByKey?_mem hf
  obtain ⟨o', hf', hev⟩ := hs.order ho (hs.inv.tables.order?_of_mem hm)
  unfold order? Db.orderByKey?
  rw [List.find?_isSome]
  exact ⟨o', Db.order?_mem hf', by simpa using ⟨hev.userId.trans hu, hev.key.trans hk⟩⟩

theorem wp_insertOrder {ws : List Write} {Q : Except Err Order → World → Prop} (hF : Steady cfg c t F)
    (hne : c.rowsOf con.req ≠ []) (hrows : ∀ id ∈ c.rowsOf con.req, Row.product id ∈ held.map Prod.fst)
    (hws : ∀ wr ∈ ws, wr.onStock = true) (h : Contends con cfg c t (.reserving con.req ws) held F w)
    (hok : ∀ id createdAt w', Contends con cfg c t
      (.reserving con.req (ws ++ [.insertOrder (newOrder id con.req.actor.id con.req.idempotencyKey createdAt)]))
      (held ++ [(.order id, .order none []), (.orderKey con.req.actor.id con.req.idempotencyKey, .orderKey none)])
      (fun s => id < s.uuids) w' → Q (.ok (newOrder id con.req.actor.id con.req.idempotencyKey createdAt)) w')
    (hlost : ∀ w', Contends con cfg c t (.reserving con.req ws) held (fun s => (con.order? s).isSome) w' →
      Q (.error uniqueViolation) w') :
    con.Wp cfg c t (issue (.insertOrder con.req.actor.id con.req.idempotencyKey)) Q w := by
  refine wp_issue h hF (fun w' h' _ => ⟨hne, fun id hid => h'.owns (hrows id hid)⟩) fun w' r w'' h' _ hp => ?_
  have hview : (w'.view t).orderByKey? con.req.actor.id con.req.idempotencyKey = con.order? w'.toShared := by
    rw [World.view, h'.now.sess]
    exact orderByKey?_onStock hws _ _ _
  simp only [perform, hview] at hp
  split at hp
  · split at hp
    · rename_i hsome
      cases hp
      exact ⟨.refl _, h'.rivalry, hlost w' (h'.weaken fun _ => hsome)⟩
    · rename_i hfree
      obtain ⟨hs, rfl⟩ := stmt_map hp
      have hnone : con.order? w'.toShared = none := by simpa using hfree
      have hsh := (stmt_eq hs).2.1
      have hn := (h'.now.top.nextUuid .trivial).stmt hs
      have hrow := row_fresh h'.now.saga
      have hkey : w'.db.row (.orderKey con.req.actor.id con.req.idempotencyKey) = .orderKey none := by
        rw [Db.row, show w'.db.orderByKey? con.req.actor.id con.req.idempotencyKey = none from hnone]; rfl
      have huuid : w'.uuids < w''.uuids := by rw [hsh]; exact Nat.lt_succ_self _
      simp only [Write.rows, List.map_cons, List.map_nil] at hn
      rw [show w'.nextUuid.db = w'.db from rfl, hrow, hkey] at hn
      have hriv : con.Rivalry w''.toShared := by
        rw [hsh]
        exact h'.rivalry_nextUuid
      refine ⟨by rw [hsh]; exact .single rfl (.skipUuid t w'.toShared), hriv, hok w'.uuids w'.clock w'' ?_⟩
      refine ⟨hn.weaken fun _ => huuid, h'.call, h'.job,
        ⟨fun rv hrv id he => ?_, fun _ _ _ _ _ id hid => ?_⟩, hriv⟩
      swap
      · rw [List.map_append]
        exact List.mem_append_left _ (hrows id hid)
      rcases List.mem_append.mp hrv with hrv | hrv
      · exact (h'.clean.orders rv hrv id he).imp_right fun hlt => Nat.lt_trans hlt huuid
      · simp only [List.mem_cons, List.not_mem_nil, or_false] at hrv
        rcases hrv with rfl | rfl
        · cases he
          exact ⟨rfl, huuid⟩
        · cases he
  · cases hp

theorem wp_saveItems {products : List Product} {order : Order} {ws : List Write}
    {Q : Except Err Unit → World → Prop}
    (hF : Steady cfg c t F) (hquiet : ∀ s s' : Shared, s.uuids ≤ s'.uuids → F s → F s')
    (hn : (products.map (·.id)).Nodup) (hfill : Fillable products con.req.dto.items)
    (hheld : Row.order order.id ∈ held.map Prod.fst) (h : Contends con cfg c t (.reserving con.req ws) held F w)
    (hok : ∀ items w', List.Forall₂ (IsLine (productsById products) order.id) con.req.dto.items items →
      Contends con cfg c t (.reserving con.req (ws ++ items.map .insertItem)) held F w' → Q (.ok ()) w') :
    con.Wp cfg c t (saveItems (productsById products) order con.req.dto.items) Q w := by
  refine (con.protocol cfg c).wp_forEach (fun past rest w => past ++ rest = con.req.dto.items ∧ ∃ items,
    List.Forall₂ (IsLine (productsById products) order.id) past items ∧
      Contends con cfg c t (.reserving con.req (ws ++ items.map .insertItem)) held F w) _ []
    ⟨rfl, [], .nil, by simpa using h⟩ ?_ ?_
  · rintro past input rest w₁ ⟨hl, items, hlines, h₁⟩
    have hinput : input ∈ con.req.dto.items := by rw [← hl]; simp
    obtain ⟨p, hp, hid, _⟩ := hfill input hinput
    have hg : (productsById products).get? input.productId = some p := (get?_productsById hn _ _).mpr ⟨hp, hid⟩
    simp only [hg]
    refine wp_issue h₁ hF (fun w' h' _ => h'.owns hheld) fun w' r w'' h' _ hp' => ?_
    obtain ⟨hs, rfl⟩ := stmt_map hp'
    have hsh := (stmt_eq hs).2.1
    have hriv : con.Rivalry w''.toShared := by
      rw [hsh]
      exact h'.rivalry_nextUuid
    have hnext : Contends con cfg c t (.reserving con.req (ws ++ items.map .insertItem)) held F w'.nextUuid :=
      ⟨⟨h'.now.saga.snoc trivial (.skipUuid t w'.toShared), h'.now.loc, h'.now.owned, h'.now.vals,
        hquiet w'.toShared _ (Nat.le_succ _) h'.now.fact⟩, h'.call, h'.job,
        h'.clean.mono (Nat.le_succ _),
        h'.rivalry_nextUuid⟩
    have hline : IsLine (productsById products) order.id input ⟨w'.uuids, order.id, p.id,
      input.quantity, p.price⟩ :=
      ⟨rfl, hid, rfl, by rw [hg]; rfl⟩
    refine ⟨by rw [hsh]; exact .single rfl (.skipUuid t w'.toShared), hriv, by simpa using hl,
      items ++ [⟨w'.uuids, order.id, p.id, input.quantity, p.price⟩],
        List.rel_append hlines (.cons hline .nil), ?_⟩
    rw [List.map_append, ← List.append_assoc]
    exact hnext.stmt hs (by simpa [Write.rows] using hheld)
  · rintro past w₁ ⟨hl, items, hlines, h₁⟩
    rw [List.append_nil] at hl
    subst hl
    exact hok items w₁ hlines h₁

theorem Rivalry.reserve {s : Shared} {products : List Product} {plan : OrderPlan} {order : Order}
    {items : List OrderItem} (h : con.Rivalry s) (ht : con.calls t)
    (hr : Reserves s t con.req products plan order items) :
    con.Rivalry (s.commit t (reserveLog products plan order items)) := by
  obtain ⟨ps, he, hshape, hstock⟩ := applyAll_reserveLog ⟨hr.current, hr.distinct, hr.accepted⟩ order items
  obtain ⟨createdAt, hnew⟩ := hr.new
  have hdb : (s.commit t (reserveLog products plan order items)).db =
      { s.db with products := ps, orders := s.db.orders ++ [order], orderItems := s.db.orderItems ++ items } := by
    rw [commit_eq]; exact he
  rcases h.stock with ⟨_, _, hroom⟩ | ⟨hsome, _⟩
  · refine ⟨by rw [hdb]; exact h.user, .inr ⟨?_, ⟨t, ht, ?_⟩, hroom.imp_right fun h₂ item hi => ?_⟩⟩
    · unfold order? Db.orderByKey?
      rw [hdb, List.find?_isSome]
      exact ⟨order, by simp, by rw [hnew]; simp [newOrder]⟩
    · rw [phase_reserve]; rfl
    · obtain ⟨hfound, hle⟩ := h₂ item hi
      rw [hdb]
      refine ⟨Tables.isSome_product?_of_shape hshape hfound, ?_⟩
      have := hstock item.productId
      show 1 * lineSum con.req.dto.items item.productId ≤ stockIn ps item.productId
      omega
  · have hfree : con.order? s = none := hr.keyFree
    rw [hfree] at hsome
    cases hsome

theorem wp_reserve {Q : Except Err (Order × OrderPlan) → World → Prop}
    (h : Contends con cfg c t (.reserving con.req []) [] (fun _ => True) w)
    (hok : ∀ order plan items w',
      (items.map fun item => (item.priceAtPurchase : Int) * item.quantity).sum = plan.amountCents →
      Contends con cfg c t (.call con.req ⟨false, false, none⟩ (.reserved order.id) 1) []
        (fun s => (s.db.order? order.id).isSome ∧ s.db.itemsOf order.id = items) w' → Q (.ok (order, plan)) w')
    (hlost : ∀ ws held w', Contends con cfg c t (.reserving con.req ws) held (fun s => (con.order? s).isSome) w' →
      Q (.error uniqueViolation) w') :
    con.Wp cfg c t (reserve con.req.actor con.req.dto con.req.idempotencyKey) Q w := by
  refine (con.protocol cfg c).wp_bind ?_
  refine wp_selectProductsForUpdate .top h fun products held w₁ hr h₁ => ?_
  have hn : (products.map (·.id)).Nodup := hr.ids ▸ rowsOf_nodup c con.req
  have hfill := fillable hr h₁ h₁.now.saga.inv.tables
  obtain ⟨plan, hplan⟩ := (buildOrderPlan_ok_iff hn).mpr hfill
  have hne : c.rowsOf con.req ≠ [] := by
    obtain ⟨item, hi⟩ := List.exists_mem_of_ne_nil _ con.req.dto.nonempty
    obtain ⟨p, hp, _⟩ := hfill item hi
    rw [← hr.ids]
    exact List.ne_nil_of_mem (List.mem_map_of_mem hp)
  refine (con.protocol cfg c).wp_bind ?_
  simp only [hplan]
  refine (con.protocol cfg c).wp_bind ?_
  refine wp_saveProducts .top hr hplan h₁ fun w₂ h₂ => ?_
  refine (con.protocol cfg c).wp_bind ?_
  refine wp_insertOrder .top hne (fun id hid => by rw [hr.rows]; exact List.mem_map_of_mem hid)
    (onStock_stockWrites _ _) h₂ (fun id createdAt w₃ h₃ => ?_) fun w₃ h₃ => hlost _ _ w₃ h₃
  have hF : Steady cfg c t fun s => id < s.uuids := .of_lasting (.uuid id)
  refine (con.protocol cfg c).wp_bind ?_
  refine wp_saveItems hF (fun _ _ hle hlt => Nat.lt_of_lt_of_le hlt hle) hn hfill (by simp [newOrder]) h₃
    fun items w₄ hlines h₄ => ?_
  have hlog : plan.quantityByProductId.entries.filterMap (stockWrite (productsById products)) ++
      [.insertOrder (newOrder id con.req.actor.id con.req.idempotencyKey createdAt)] ++ items.map .insertItem =
        reserveLog products plan (newOrder id con.req.actor.id con.req.idempotencyKey createdAt) items := by
    rw [reserveLog, List.append_assoc]; rfl
  rw [hlog] at h₄
  refine (con.protocol cfg c).wp_bind ?_
  refine wp_commit (G := fun s => (s.db.order? id).isSome ∧ s.db.itemsOf id = items) h₄ hF rfl
    (fun w₅ h₅ _ => ?_) fun w₅ h₅ => ?_
  · have hres := reserves_of_held createdAt hr.locked hn hplan hlines
      (h₅.now.weaken fun hf => ⟨h₅.rivalry.user, hf⟩)
    have hfound := (order?_reserve hres id).trans (if_pos rfl)
    exact ⟨.single rfl (.reserve hres), h₅.rivalry.reserve h₅.call hres,
      Option.isSome_iff_exists.mpr ⟨_, hfound⟩, itemsOf_reserve hres⟩
  · refine hok _ plan items w₅ (amount_lines hn hplan hlines) ?_
    have hp := foldl_reserveLog products plan
      (newOrder id con.req.actor.id con.req.idempotencyKey createdAt) items .start
    simp only [Local.reserving, Local.call, Local.to, hp] at h₅
    exact h₅

/-! ## The payment -/

def Pending (t : Tid) (s : Shared) : Prop := (∃ req, s.rpc t = .requested req) ∨ ∃ res, s.rpc t = .executed res

theorem Steady.pending : Steady cfg c t (Pending t) := fun _ _ _ _ hv h => hv.pending h

theorem Contends.own {G : Shared → Prop} {s : Shared} {p : Phase} (h : Contends con cfg c t L [] F w)
    (hs : Own cfg t w.toShared s) (hp : s.phase t = p)
    (hl : rejectedIn t Cmd.late s.trace = rejectedIn t Cmd.late w.trace)
    (hu : rejectedIn t Cmd.undoes s.trace = rejectedIn t Cmd.undoes w.trace) (hr : con.Rivalry s) (hG : G s) :
    Contends con cfg c t (L.to p) [] G { w with toShared := s } where
  now := h.now.own (by simp [h.job]) hs hp hl hu (by simp) hG
  call := h.call
  job := h.job
  clean := .nil
  rivalry := hr

theorem wp_authorizePayment {order : Order} {plan : OrderPlan} {items : List OrderItem}
    {Q : Except Err AuthorizeResponse → World → Prop}
    (h : Contends con cfg c t (.call con.req ⟨false, false, none⟩ (.reserved order.id) 1) []
      (fun s => (s.db.order? order.id).isSome ∧ s.db.itemsOf order.id = items) w)
    (hamount : (items.map fun item => (item.priceAtPurchase : Int) * item.quantity).sum = plan.amountCents)
    (hok : ∀ res w', Contends con cfg c t (.call con.req ⟨false, false, none⟩ (.requested order.id) 1) []
      (fun s => s.rpc t = .answered res ∧ (s.db.order? order.id).isSome ∧ s.db.itemsOf order.id = items) w' →
      Q (.ok res) w') :
    con.Wp cfg c t (authorizePayment cfg order plan con.req.idempotencyKey) Q w := by
  have hI : Steady cfg c t fun s => (s.db.order? order.id).isSome ∧ s.db.itemsOf order.id = items :=
    .of_lasting (.items order.id items)
  refine (con.protocol cfg c).wp_tryCatch ?_
  refine (con.protocol cfg c).wp_bind ?_
  have hidle : ∀ w', Contends con cfg c t (.call con.req ⟨false, false, none⟩ (.reserved order.id) 1) []
      (fun s => (s.db.order? order.id).isSome ∧ s.db.itemsOf order.id = items) w' → w'.rpc t = .idle := by
    intro w' h'
    have hphase : w'.phase t = .reserved order.id := h'.now.phase
    obtain ⟨req, o, ho⟩ := h'.now.saga.inv.calls.owns t order.id (by rw [hphase]; rfl)
    have hfits := ho.fits
    rw [hphase] at hfits
    exact hfits.1
  refine wp_issue h hI (fun w' h' _ => hidle w' h') fun w' r w'' h' _ hp => ?_
  simp only [perform, hidle w' h'] at hp
  cases hp
  have hreq : Requests w'.toShared t (authorizeRequest cfg order plan con.req.idempotencyKey) :=
    ⟨h'.now.phase, hidle w' h', by
      show plan.amountCents = w'.db.total order.id
      rw [Db.total, h'.now.fact.2, hamount], con.req, h'.jobs, rfl⟩
  have hs : Step cfg (some t) w'.toShared _ := .request hreq
  have hriv := h'.rivalry.same_db hs rfl
  have h₁ := h'.own (G := fun s => Pending t s ∧ (s.db.order? order.id).isSome ∧ s.db.itemsOf order.id = items)
    (.single rfl hs) (phase_request ..) rfl rfl hriv ⟨.inl ⟨_, Function.update_self ..⟩, h'.now.fact⟩
  refine ⟨.single rfl hs, hriv, ?_⟩
  refine wp_issue h₁ (Steady.pending.and hI) (fun w₂ h₂ _ => h₂.now.fact.1) fun w₂ r w₃ h₂ _ hp => ?_
  simp only [perform] at hp
  split at hp
  · rename_i res hres
    cases hp
    have hs : Step cfg (some t) w₂.toShared (w₂.toShared.setRpc t (.answered res)) :=
      .receive (h₂.now.phase : w₂.phase t = .requested order.id) hres
    have hriv₂ := h₂.rivalry.same_db hs rfl
    refine ⟨.single rfl hs, hriv₂, hok res _ ?_⟩
    exact h₂.own (.single rfl hs) (h₂.now.phase : w₂.phase t = _) rfl rfl hriv₂ ⟨Function.update_self ..,
      h₂.now.fact.2⟩
  · cases hp

theorem wp_settle {order : Order} {plan : OrderPlan} {items : List OrderItem}
    {Q : Except Err CreateOrderResult → World → Prop}
    (h : Contends con cfg c t (.call con.req ⟨false, false, none⟩ (.reserved order.id) 1) []
      (fun s => (s.db.order? order.id).isSome ∧ s.db.itemsOf order.id = items) w)
    (hamount : (items.map fun item => (item.priceAtPurchase : Int) * item.quantity).sum = plan.amountCents)
    (hok : ∀ res L w', Contends con cfg c t L [] (fun _ => True) w' → L.api = 1 → Q (.ok res) w') :
    con.Wp cfg c t (settle cfg order plan con.req.idempotencyKey) Q w := by
  refine (con.protocol cfg c).wp_bind ?_
  refine wp_authorizePayment h hamount fun payment w₁ h₁ => ?_
  have hA : Steady cfg c t fun s => s.rpc t = .answered payment := .of_lasting (.answered payment)
  have hF := hA.and (.of_lasting (.items order.id items))
  refine (con.protocol cfg c).wp_bind ?_
  refine wp_withConnection h₁ hF rfl fun w₂ h₂ => ?_
  refine wp_issue h₂ hF (fun w₃ h₃ _ => h₃.now.fact.2.1) fun w₃ r w₄ h₃ _ hp => ?_
  simp only [perform] at hp
  split at hp
  · cases hp
    have hs : Step cfg (some t) w₃.toShared (w₃.toShared.write t
      (.payOrder order.id payment.paymentId payment.status)) :=
      .pay (h₃.now.phase : w₃.phase t = .requested order.id) h₃.now.fact.1
    have hriv : con.Rivalry (w₃.toShared.write t (.payOrder order.id payment.paymentId payment.status)) := by
      refine h₃.rivalry.keep hs rfl rfl ?_
      have hkey := Db.orderByKey?_updateOrder w₃.db (.pay payment.paymentId payment.status)
        (fun _ => ⟨rfl, rfl⟩) order.id
        con.req.actor.id con.req.idempotencyKey
      exact (congrArg Option.isSome hkey).trans Option.isSome_map
    refine ⟨.single rfl hs, hriv, _, _, h₃.own (G := fun s => s.rpc t = .answered payment) (.single rfl hs)
      (phase_pay ..)
      rfl rfl hriv h₃.now.fact.1, hA, fun w₅ h₅ => ?_⟩
    refine (con.protocol cfg c).wp_bind ?_
    refine (con.protocol cfg c).wp_bind ?_
    refine wp_issue h₅ hA (fun _ _ _ => trivial) fun w₆ r w₇ h₆ _ hp => ?_
    cases hp
    have hs₆ : Step cfg (some t) w₆.toShared _ := .identify (h₆.now.phase : w₆.phase t = .paid order.id)
    have hriv₆ := h₆.rivalry.same_db hs₆ rfl
    have h₇ := h₆.own (G := fun _ => True) (.single rfl hs₆) (phase_identify h₆.now.phase) rfl rfl hriv₆ trivial
    refine ⟨.single rfl hs₆, hriv₆, ?_⟩
    refine (con.protocol cfg c).wp_bind ?_
    refine wp_read (fun w => w.clock) (fun _ => rfl) (fun _ => trivial) h₇ .top fun w₈ h₈ _ => ?_
    refine (con.protocol cfg c).wp_bind ?_
    refine wp_issue h₈ .top (fun _ _ _ => trivial) fun w₉ r w₁₀ h₉ _ hp => ?_
    cases hp
    unfold Shared.publish
    split
    · exact ⟨.refl _, h₉.rivalry, hok _ _ _ h₉ rfl⟩
    · have hs₉ : Step cfg (some t) w₉.toShared _ :=
        .publish w₈.clock (h₉.now.phase : w₉.phase t = .identified order.id w₆.uuids)
      have hriv₉ := h₉.rivalry.same_db hs₉ rfl
      have h₁₀ := h₉.own (G := fun _ => True) (.single rfl hs₉)
        (phase_publish _ h₉.now.phase) rfl rfl hriv₉ trivial
      exact ⟨.single rfl hs₉, hriv₉, hok _ _ _ h₁₀ rfl⟩
  · cases hp

/-! ## The call -/

/-- What the `try` leaves: a reply, or the reservation of a call that lost. -/
def Tried (con : Contest) (cfg : Config) (c : Catalogue) (t : Tid) (r : Except Err CreateOrderResult) (w : World) :
    Prop :=
  match r with
  | .ok _ => ∃ L, Contends con cfg c t L [] (fun _ => True) w ∧ L.api = 1
  | .error e => e = uniqueViolation ∧
      ∃ ws held, Contends con cfg c t (.reserving con.req ws) held (fun s => (con.order? s).isSome) w

theorem wp_createOrderTry (h : Contends con cfg c t (.reserving con.req []) [] (fun _ => True) w) :
    con.Wp cfg c t (createOrderTry cfg con.req.actor con.req.dto con.req.idempotencyKey)
    (con.Tried cfg c t) w := by
  refine (con.protocol cfg c).wp_bind ?_
  refine wp_read (fun w => (w.view t).user? con.req.actor.id) (fun _ => rfl) (fun _ => trivial) h .top
    fun w₁ h₁ _ => ?_
  obtain ⟨user, hu⟩ := Option.isSome_iff_exists.mp h₁.rivalry.user
  rw [h₁.now.view_nil (.inr rfl)]
  simp only [hu]
  refine (con.protocol cfg c).wp_bind ?_
  refine wp_read (fun w => (w.view t).withItems ((w.view t).orderByKey? con.req.actor.id con.req.idempotencyKey))
    (fun _ => rfl) (fun _ => trivial) h₁ .top fun w₂ h₂ _ => ?_
  rw [h₂.now.view_nil (.inr rfl)]
  cases w₂.db.orderByKey? con.req.actor.id con.req.idempotencyKey with
  | some o =>
    refine (con.protocol cfg c).wp_bind ?_
    refine wp_commit (G := fun _ => True) h₂ .top rfl (fun w₃ h₃ _ => ⟨.refl _, h₃.rivalry, trivial⟩)
      fun w₃ h₃ => ?_
    exact ⟨_, h₃, rfl⟩
  | none =>
    refine (con.protocol cfg c).wp_bind ?_
    refine wp_reserve h₂ (fun order plan items w₃ hamount h₃ => ?_) fun ws held w₃ h₃ => ⟨rfl, ws, held, h₃⟩
    exact wp_settle h₃ hamount fun res L w₄ h₄ hapi => ⟨L, h₄, hapi⟩

theorem wp_createOrderCatch {ws : List Write}
    (h : Contends con cfg c t (.reserving con.req ws) held (fun s => (con.order? s).isSome) w) :
    con.Wp cfg c t (createOrderCatch con.req.actor con.req.idempotencyKey uniqueViolation)
      (fun r w' => (∃ res, r = .ok res) ∧ ∃ L, Contends con cfg c t L [] (fun _ => True) w' ∧ L.api = 1) w := by
  refine (con.protocol cfg c).wp_bind ?_
  refine (con.protocol cfg c).wp_bind ?_
  refine wp_read (fun w => (w.sess t).active) (fun _ => rfl) (fun _ => trivial) h .ordered fun w₁ h₁ _ => ?_
  simp only [h₁.now.sess]
  refine wp_rollback h₁ .ordered rfl rfl fun w₂ h₂ => ?_
  simp only [isUniqueViolation_uniqueViolation, if_true]
  refine (con.protocol cfg c).wp_bind ?_
  refine wp_withConnection h₂ .ordered rfl fun w₃ h₃ => ?_
  refine wp_read (fun w => (w.view t).withItems ((w.view t).orderByKey? con.req.actor.id con.req.idempotencyKey))
    (fun _ => rfl) (fun _ => trivial) h₃ .ordered fun w₄ h₄ _ => ?_
  obtain ⟨o, ho⟩ := Option.isSome_iff_exists.mp h₄.now.fact
  have hfound : w₄.db.orderByKey? con.req.actor.id con.req.idempotencyKey = some o := ho
  refine ⟨_, _, h₄.top, .top, fun w₅ h₅ => ?_⟩
  rw [h₄.now.view_nil (.inl rfl), hfound]
  exact ⟨⟨_, rfl⟩, _, h₅, rfl⟩

theorem wp_requestThread (hkey : con.req.idempotencyKey ≠ "")
    (h : Contends con cfg c t (.call con.req .init .start 0) [] (fun _ => True) w) :
    con.Wp cfg c t (requestThread cfg con.req) (con.Over t) w := by
  refine (con.protocol cfg c).wp_bind ?_
  unfold createOrder
  rw [if_neg hkey, if_neg con.req.dto.nonempty]
  refine (con.protocol cfg c).wp_bind ?_
  refine wp_connect h .top rfl fun w₁ h₁ => ?_
  refine (con.protocol cfg c).wp_bind ?_
  refine wp_startTransaction h₁ .top fun w₂ h₂ => ?_
  have htry := (con.protocol cfg c).wp_tryCatch (f := createOrderCatch con.req.actor con.req.idempotencyKey)
    (Q := fun r w' => (∃ res, r = .ok res) ∧ ∃ L, Contends con cfg c t L [] (fun _ => True) w' ∧ L.api = 1)
    ((con.protocol cfg c).wp_mono (fun r w' hr => ?_) (wp_createOrderTry h₂))
  · refine (con.protocol cfg c).wp_tryFinally ((con.protocol cfg c).wp_mono (fun r w' hr => ?_) htry)
    obtain ⟨⟨res, rfl⟩, L, hn, hapi⟩ := hr
    refine wp_release hn .top fun w'' h'' => ?_
    exact fun _ => ⟨h''.jobs, ⟨res, rfl⟩, h''.now.api.trans (by simp [Local.drop, hapi]), h''.free⟩
  · cases r with
    | ok res => exact ⟨⟨res, rfl⟩, hr⟩
    | error e =>
      obtain ⟨rfl, ws, held, hc⟩ := hr
      exact wp_createOrderCatch hc

end Contest

end OrdersBackend
