import OrdersBackend.ContestSpec
import OrdersBackend.Lib.Termination
import OrdersBackend.Pool

/-!
# No call waits for ever

From a state at rest, calls of one request run and nothing fails. The products
are locked in one order, and with fewer calls in flight than connections one
of those in flight can always go on; no run goes on for ever.
-/

namespace OrdersBackend

open Conc

structure AtRest (conf : SysConf) : Prop where
  threads : ∀ t cmd k, conf.threads t ≠ .running (.await cmd k)
  locks : ∀ r, conf.world.locks r = none
  pool : conf.world.pool .api = []

/-- A single call with the request passes all checks, and creates the order. -/
structure Creates (s : Shared) (req : CreateOrderRequest) : Prop where
  key : req.idempotencyKey ≠ ""
  user : (s.db.user? req.actor.id).isSome
  free : s.db.orderByKey? req.actor.id req.idempotencyKey = none
  accepted : ∃ plan, buildOrderPlan
    (s.db.products.filter fun p => p.id ∈ (req.dto.items.map (·.productId)).eraseDups) req.dto.items = .ok plan

theorem Creates.covers {s : Shared} {req : CreateOrderRequest} (h : Creates s req)
    (hn : (s.db.products.map (·.id)).Nodup) : s.db.Covers 1 req.dto.items := by
  have hfill := (buildOrderPlan_ok_iff (hn.sublist (List.filter_sublist.map _))).mp h.accepted
  intro item hi
  obtain ⟨p, hp, hid, hle⟩ := hfill item hi
  have hm := (List.mem_filter.mp hp).1
  have hfound : s.db.products.find? (fun q => q.id = item.productId) = some p := by
    cases hf : s.db.products.find? fun q => q.id = item.productId with
    | none => simpa [hid] using List.find?_eq_none.mp hf p hm
    | some q =>
      have hq : q.id = item.productId := by simpa using List.find?_some hf
      exact congrArg some (List.inj_on_of_nodup_map hn (List.mem_of_find?_eq_some hf) hm (hq.trans hid.symm))
  refine ⟨by unfold Db.product?; rw [hfound]; rfl, ?_⟩
  rw [Db.stock, stockIn, hfound, Int.one_mul]
  exact hle

/-- A step of a call in flight, or of the payments service for it. -/
def Moves (conf : SysConf) (l : SysLabel) : Prop :=
  ∃ t, inFlight conf t ∧ (l = .run t .proceed ∨ l = .env (.execute t) ∨ ∃ res, l = .env (.answer t res))

namespace Contest

variable {cfg : Config} {c : Catalogue} {con : Contest} {conf₀ conf conf' : SysConf}

def Run (con : Contest) (cfg : Config) (conf₀ conf : SysConf) : Prop :=
  (machine cfg).ReachWhen (fun _ l => con.Calm l) conf₀ conf

/-! ## The start -/

theorem idle_of_jobs (h : Reachable cfg c conf) {t : Tid} (hj : conf.world.jobs t = none) :
    conf.threads t = .idle := by
  by_contra hne
  suffices hs : ∀ t, conf.threads t ≠ .idle → conf.world.jobs t ≠ none from hs t hne hj
  clear hne hj
  induction h with
  | refl => exact fun t ht => (ht rfl).elim
  | @step conf conf' l hr hs ih =>
    intro t ht
    have hkeep : conf.world.jobs t ≠ none → conf'.world.jobs t ≠ none := by
      intro hj
      obtain ⟨job, hjob⟩ := Option.ne_none_iff_exists'.mp hj
      rw [jobs_of_run (Reachable.step hr hs) hjob]
      simp
    rcases Machine.step_cases hs with ⟨t', ch, cmd, k, r, w, rfl, hp, hx, rfl⟩ | ⟨t', cmd, k, rfl, hp, rfl⟩ |
      ⟨e, w, rfl, hx, rfl⟩ | ⟨t', arr, p, w, rfl, hp, hx, rfl⟩
    · by_cases he : t = t'
      · subst he
        exact hkeep (ih t (by rw [hp]; simp))
      · exact hkeep (ih t (by simpa [he] using ht))
    · by_cases he : t = t'
      · subst he
        exact hkeep (ih t (by rw [hp]; simp))
      · exact hkeep (ih t (by simpa [he] using ht))
    · exact hkeep (ih t ht)
    · by_cases he : t = t'
      · subst he
        obtain ⟨_, s, rfl, _, _, _, hp⟩ := arrive_cases hx
        rcases hp with ⟨req, _, hp⟩ | ⟨msg, _, hp⟩
        · rw [show s.jobs t = some (.create req) from hp]; simp
        · rw [show s.jobs t = some (.deliver msg) from hp]; simp
      · exact hkeep (ih t (by simpa [he] using ht))

structure Starts (con : Contest) (cfg : Config) (c : Catalogue) (conf₀ : SysConf) : Prop where
  reachable : Reachable cfg c conf₀
  rest : AtRest conf₀
  channels : con.Open conf₀.world.toShared
  unused : ∀ t, con.calls t → conf₀.world.jobs t = none
  creates : Creates conf₀.world.toShared con.req
  room : con.Alone ∨ conf₀.world.db.Covers 2 con.req.dto.items

theorem Starts.good (h : con.Starts cfg c conf₀) : (con.protocol cfg c).Good conf₀ := by
  refine ⟨⟨h.reachable.good.1, ⟨h.creates.user, .inl ⟨h.creates.free,
    h.creates.covers h.reachable.saga.inv.tables.productIds, h.room⟩⟩, fun t _ => ?_, h.channels⟩, ?_⟩
  · rw [h.rest.pool]
    exact ⟨rfl, fun r => by rw [h.rest.locks r]; simp⟩
  · intro t p hp
    cases p with
    | await cmd k => exact (h.rest.threads t cmd k hp).elim
    | done r =>
      intro ht
      rw [idle_of_jobs h.reachable (h.unused t ht)] at hp
      cases hp

theorem wp_arrive (hkey : con.req.idempotencyKey ≠ "") (t : Tid) (arr : Arrival) (w : World)
    (p : Api Reply) (w' : World)
    (ha : con.Calm (.spawn t arr)) (hI : (con.protocol cfg c).inv w)
    (h : (machine cfg).spawn t arr w = some (p, w')) :
    con.Wp cfg c t p (con.Over t) w' := by
  obtain ⟨ht, rfl⟩ := ha
  obtain ⟨hj, rfl, rfl⟩ := arrive_request h
  have hU : Unused t w := hI.1.unused t hj
  have hjob : (w.toShared.start t (.create con.req)).jobs t = some (.create con.req) := Function.update_self ..
  have hs : Step cfg (some t) w.toShared (w.toShared.start t (.create con.req)) := .arrive con.req hj
  refine wp_requestThread hkey ⟨?_, ht, rfl, .nil, hI.2.1.same_db hs rfl⟩
  exact ⟨hI.1.saga.snoc trivial (.arrive con.req hj), loc_arrive hU hjob rfl, fun r => by simpa using hU.locks r,
    by simp, trivial⟩

theorem Starts.good_of_run (h : con.Starts cfg c conf₀) (hr : con.Run cfg conf₀ conf) :
    (con.protocol cfg c).Good conf := (con.protocol cfg c).sound (wp_arrive h.creates.key) h.good hr

theorem Starts.reach (h : con.Starts cfg c conf₀) (hr : con.Run cfg conf₀ conf) : Reachable cfg c conf :=
  h.reachable.trans hr.reach

theorem Starts.running (h : con.Starts cfg c conf₀) (hr : con.Run cfg conf₀ conf) {t : Tid} (ht : con.calls t)
    (hj : conf.world.jobs t ≠ none) : ∃ p, conf.threads t = .running p := by
  induction hr with
  | refl => exact (hj (h.unused t ht)).elim
  | @step conf conf' l hr ha hs ih =>
    have hsteps := Reachable.step (h.reach hr) hs
    have hother : l.actor ≠ some t → conf.world.jobs t ≠ none := by
      intro hne hnone
      refine hj ?_
      refine Runs.invariant (I := fun s => s.jobs t = none) (fun a s s' hact hn hst => ?_) hsteps hnone
      subst hact
      rw [hst.jobs_other hne, hn]
    rcases Machine.step_cases hs with ⟨t', ch, cmd, k, r, w, rfl, hp, hx, rfl⟩ | ⟨t', cmd, k, rfl, hp, rfl⟩ |
      ⟨e, w, rfl, hx, rfl⟩ | ⟨t', arr, p, w, rfl, hp, hx, rfl⟩
    · by_cases he : t = t'
      · subst he
        exact ⟨k r, by simp⟩
      · have := ih (hother (by simpa [Label.actor] using Ne.symm he))
        simpa [he] using this
    · exact ha.elim
    · exact ih (hother (by simp [Label.actor]))
    · by_cases he : t = t'
      · subst he
        exact ⟨p, by simp⟩
      · have := ih (hother (by simpa [Label.actor] using Ne.symm he))
        simpa [he] using this

/-! ## Nobody waits for ever -/

section
variable (h : con.Starts cfg c conf₀) (hr : con.Run cfg conf₀ conf)
include h hr

theorem Starts.pre {t : Tid} {cmd : Cmd} {k : Except Err cmd.Res → Api Reply}
    (ht : conf.threads t = .running (.await cmd k)) : (con.protocol cfg c).pre t cmd conf.world :=
  (h.good_of_run hr).pre ht

/-- Who holds a connection or a lock is a call that waits. -/
theorem Starts.waits_of_holds {u : Tid} (hu : (conf.world.pool .api).count u ≠ 0 ∨
    ∃ r, conf.world.locks r = some u) :
    ∃ cmd k, conf.threads u = .running (.await cmd k) := by
  have hg := h.good_of_run hr
  have hcall : con.calls u := by
    by_contra hn
    obtain ⟨h₁, h₂⟩ := hg.1.2.2.1 u hn
    rcases hu with hu | ⟨r, hu⟩
    · exact hu h₁
    · exact h₂ r hu
  have hjob : conf.world.jobs u ≠ none := by
    intro hn
    have hU := hg.1.1.unused u hn
    rcases hu with hu | ⟨r, hu⟩
    · exact hu (congrArg Local.api hU.loc)
    · exact hU.locks r hu
  obtain ⟨p, hp⟩ := h.running hr hcall hjob
  cases p with
  | await cmd k => exact ⟨cmd, k, hp⟩
  | done r =>
    obtain ⟨_, _, h₁, h₂⟩ := hg.post hp hcall
    rcases hu with hu | ⟨r, hu⟩
    · exact (hu h₁).elim
    · exact (h₂ r hu).elim

theorem Starts.inFlight_of_waits {t : Tid} {cmd : Cmd} {k : Except Err cmd.Res → Api Reply}
    (ht : conf.threads t = .running (.await cmd k)) : inFlight conf t := ⟨⟨cmd, k, ht⟩, con.req, (h.pre hr ht).2.1⟩

theorem Starts.order_free {t : Tid} {id : Uuid} (hid : (conf.world.db.order? id).isSome ∨ conf.world.uuids ≤ id) :
    conf.world.lockable t (.order id) = true := by
  cases hl : conf.world.locks (.order id) with
  | none => simp [World.lockable, hl]
  | some u =>
    obtain ⟨cmd, k, hu⟩ := h.waits_of_holds hr (.inr ⟨_, hl⟩)
    obtain ⟨hnone, hlt⟩ := (h.pre hr hu).2.2.2.1 id hl
    rcases hid with hid | hid
    · rw [hnone] at hid; cases hid
    · exact absurd hlt (Nat.not_lt.mpr hid)

end

def WaitsPool (conf : SysConf) (t : Tid) : Prop :=
  waits conf t ∨ ∃ k, conf.threads t = .running (.await (.connect .api) k)

def WaitsProduct (conf : SysConf) (t u : Tid) (id : Uuid) : Prop :=
  ∃ k, conf.threads t = .running (.await (.lockProduct id) k) ∧ conf.world.locks (.product id) = some u ∧ u ≠ t

def Stuck (cfg : Config) (conf : SysConf) : Prop := ∀ l, Moves conf l → (machine cfg).step conf l = none

theorem held_of_not_lockable {t : Tid} {w : World} {r : Row} (h : w.lockable t r = false) :
    ∃ u, w.locks r = some u ∧ u ≠ t := by
  cases hl : w.locks r with
  | none => simp [World.lockable, hl] at h
  | some u =>
    refine ⟨u, rfl, fun he => ?_⟩
    simp [World.lockable, hl, he] at h

theorem isSome_stmt {t : Tid} {w : World} {wr : Write} (h : ∀ r ∈ wr.rows, w.lockable t r = true) :
    (w.stmt t wr).isSome := by
  unfold World.stmt
  rw [if_pos (List.all_eq_true.mpr h)]
  rfl

theorem lockable_of_owns {t : Tid} {w : World} {r : Row} (h : w.locks r = some t) : w.lockable t r = true := by
  simp [World.lockable, h]

theorem answers {t : Tid} (ht : inFlight conf t) {req : AuthorizeRequest}
    (hreq : conf.world.rpc t = .requested req) :
    ¬Stuck cfg conf := by
  intro hstuck
  cases hs : cfg.service with
  | repository =>
    have := hstuck _ ⟨t, ht, .inr (.inl rfl)⟩
    simp [Machine.step, machine, World.env, Shared.env, hreq, hs] at this
  | conforming =>
    have := hstuck _ ⟨t, ht, .inr (.inr ⟨⟨0, .authorized⟩, rfl⟩)⟩
    simp [Machine.step, machine, World.env, Shared.env, hreq, hs] at this

section
variable (h : con.Starts cfg c conf₀) (hr : con.Run cfg conf₀ conf)
include h hr

theorem Starts.key_free {t : Tid} (hne : c.rowsOf con.req ≠ [])
    (hrows : ∀ id ∈ c.rowsOf con.req, conf.world.locks (.product id) = some t) (u : Uuid) (k : String) :
    conf.world.lockable t (.orderKey u k) = true := by
  by_contra hn
  obtain ⟨v, hv, hvt⟩ := held_of_not_lockable (by simpa using hn)
  obtain ⟨cmd, k', hth⟩ := h.waits_of_holds hr (.inr ⟨_, hv⟩)
  obtain ⟨id, hid⟩ := List.exists_mem_of_ne_nil _ hne
  have hboth := (h.pre hr hth).2.2.2.2 u k hv id hid
  rw [hrows id hid] at hboth
  exact hvt (Option.some.inj hboth).symm

/-- A call that cannot move waits for the pool or for a product. -/
theorem Starts.blocked (hstuck : Stuck cfg conf) {t : Tid}
    {cmd : Cmd} {k : Except Err cmd.Res → Api Reply} (ht : conf.threads t = .running (.await cmd k)) :
    (WaitsPool conf t ∧ cfg.poolSize .api ≤ (conf.world.pool .api).length) ∨ ∃ u id, WaitsProduct conf t u id := by
  have hflight := h.inFlight_of_waits hr ht
  obtain ⟨_, _, hstage, _⟩ := h.pre hr ht
  have hnone : perform cfg t cmd conf.world = none := by
    have := hstuck _ ⟨t, hflight, .inl rfl⟩
    simp only [Machine.step, ht, Option.map_eq_none_iff] at this
    exact blocked_of_exec this
  have hstmt : ∀ {w : World} {wr : Write} {α : Type} {f : World → α}, (w.stmt t wr).map f = none →
      ¬∀ r ∈ wr.rows, w.lockable t r = true := by
    intro w wr α f hm hl
    have := isSome_stmt hl
    rw [Option.map_eq_none_iff.mp hm] at this
    cases this
  cases cmd with
  | connect p =>
    obtain ⟨rfl, _⟩ := hstage
    simp only [perform] at hnone
    split at hnone
    · cases hnone
    · rename_i hfull
      exact .inl ⟨.inr ⟨k, ht⟩, Nat.not_lt.mp hfull⟩
  | acquire use =>
    simp only [perform] at hnone
    split at hnone
    · cases hnone
    · rename_i hfull
      exact .inl ⟨.inl ⟨use, k, ht⟩, Nat.not_lt.mp hfull⟩
  | lockProduct id =>
    simp only [perform] at hnone
    split at hnone
    · cases hnone
    · rename_i hheld
      obtain ⟨u, hu, hne⟩ := held_of_not_lockable (by simpa using hheld)
      exact .inr ⟨u, id, k, ht, hu, hne⟩
  | saveStock id n =>
    refine absurd ?_ (hstmt hnone)
    simpa [Write.rows] using lockable_of_owns hstage
  | insertItem id p q price =>
    refine absurd ?_ (hstmt hnone)
    simpa [Write.rows] using lockable_of_owns (w := conf.world.nextUuid) hstage
  | insertOrder u k' =>
    have hkey := h.key_free hr hstage.1 hstage.2 u k'
    simp only [perform, hkey, if_true] at hnone
    split at hnone
    · cases hnone
    · refine absurd (fun r hr' => ?_) (hstmt hnone)
      simp only [Write.rows, List.mem_cons, List.not_mem_nil, or_false] at hr'
      rcases hr' with rfl | rfl
      · exact h.order_free hr (.inr (Nat.le_refl _))
      · exact hkey
  | updatePayment id pid st =>
    simp only [perform, h.order_free hr (.inl hstage), if_true] at hnone
    cases hnone
  | sendAuthorize req =>
    have hidle : conf.world.rpc t = .idle := hstage
    simp only [perform, hidle] at hnone
    cases hnone
  | awaitAuthorize =>
    rcases hstage with ⟨req, hreq⟩ | ⟨res, hres⟩
    · exact (answers hflight hreq hstuck).elim
    · simp only [perform, hres] at hnone
      cases hnone
  | rollbackTransaction slot =>
    obtain ⟨_, hb⟩ := hstage
    simp only [perform, hb, Bool.false_eq_true, if_false] at hnone
    split at hnone <;> cases hnone
  | commitTransaction slot =>
    simp only [perform] at hnone
    split at hnone <;> cases hnone
  | release | free | startTransaction | isTransactionActive | findUser | findOrder | matchProducts | uuid |
      now | publish =>
    cases hnone
  | _ => exact hstage.elim

/-- Who has locked a product and waits for one waits for a later one, so the
last of the products somebody waits for is free. -/
theorem Starts.no_waitsProduct (hstuck : Stuck cfg conf) {t u : Tid} {id : Uuid} {past rest : List Uuid}
    (hrows : c.rowsOf con.req = past ++ id :: rest) (hw : WaitsProduct conf t u id) : False := by
  induction hn : rest.length using Nat.strong_induction_on generalizing t u id past rest with
  | _ n ih =>
    obtain ⟨_, _, hu, _⟩ := hw
    obtain ⟨cmd, k, hth⟩ := h.waits_of_holds hr (.inr ⟨_, hu⟩)
    have hstage := (h.pre hr hth).2.2.1
    rcases h.blocked hr hstuck hth with ⟨⟨use, k', hpool⟩ | ⟨k', hpool⟩, _⟩ | ⟨v, id', hprod⟩
    · exact (h.pre hr hpool).2.2.1.2.2 _ hu
    · exact (h.pre hr hpool).2.2.1.2.2 _ hu
    · have ⟨k', hlock, _⟩ := hprod
      obtain ⟨past', rest', hrows', hlocks⟩ := (h.pre hr hlock).2.2.1
      obtain ⟨id₀, hmem, he⟩ := List.mem_map.mp ((hlocks _).mp hu)
      cases he
      obtain ⟨a, b, rfl⟩ := List.append_of_mem hmem
      have hnodup := rowsOf_nodup c con.req
      rw [hrows, List.nodup_append, List.nodup_cons] at hnodup
      obtain ⟨_, ⟨hrest, _⟩, hpast⟩ := hnodup
      have heq : past ++ id :: rest = a ++ id :: (b ++ id' :: rest') := by
        rw [← hrows, hrows']
        simp
      obtain ⟨_, _, rfl⟩ := (List.append_cons_inj_of_notMem
        (fun hm => hpast id hm id (List.mem_cons_self ..) rfl) hrest).mp heq
      refine ih rest'.length ?_ hrows' hprod rfl
      rw [← hn, List.length_append, List.length_cons]
      omega

/-- With fewer calls in flight than connections, one of them can go on. -/
theorem Starts.goes_on {n : Nat} (hn : n < cfg.poolSize .api) (hf : InFlightAtMost n conf) {t : Tid}
    (ht : inFlight conf t) : ∃ l, Moves conf l ∧ ((machine cfg).step conf l).isSome := by
  by_contra hstop
  have hstuck : Stuck cfg conf := by
    intro l hl
    by_contra hne
    exact hstop ⟨l, hl, Option.isSome_iff_ne_none.mpr hne⟩
  have hpool : ∀ {u cmd k}, conf.threads u = .running (.await cmd k) →
      WaitsPool conf u ∧ cfg.poolSize .api ≤ (conf.world.pool .api).length := by
    intro u cmd k hu
    rcases h.blocked hr hstuck hu with hw | ⟨v, id, hw⟩
    · exact hw
    · have ⟨k', hlock, _⟩ := hw
      obtain ⟨past, rest, hrows, _⟩ := (h.pre hr hlock).2.2.1
      exact (h.no_waitsProduct hr hstuck hrows hw).elim
  -- whoever has a connection waits for another one
  have hwaits : ∀ u ∈ conf.world.pool .api, waits conf u := by
    intro u hu
    have hcount : (conf.world.pool .api).count u ≠ 0 := Nat.pos_iff_ne_zero.mp (List.count_pos_iff.mpr hu)
    obtain ⟨cmd, k, hth⟩ := h.waits_of_holds hr (.inl hcount)
    rcases (hpool hth).1 with hw | ⟨k', hconnect⟩
    · exact hw
    · exact (hcount (h.pre hr hconnect).2.2.1.2.1).elim
  obtain ⟨⟨cmd, k, hth⟩, _⟩ := ht
  obtain ⟨ts, hlen, hts⟩ := hf
  have hnodup := nodup_of_waits (h.reach hr) hwaits
  have hle := (List.subperm_of_subset hnodup fun u hu => hts u (by
    obtain ⟨use, k', hu⟩ := hwaits u hu
    exact h.inFlight_of_waits hr hu)).length_le
  have hfull := (hpool hth).2
  omega

end

end Contest

/-! ## No run goes on for ever -/

variable {cfg : Config} {c : Catalogue} {conf : SysConf}

/-- What the payments service still has to do for `t`. -/
def owed (w : World) (t : Tid) : Nat :=
  match w.rpc t with
  | .requested _ => 1
  | _ => 0

theorem owed_of_eq {w w' : World} {t : Tid} (h : w'.rpc t = w.rpc t) : owed w' t = owed w t := by
  unfold owed
  rw [h]

theorem owed_env {t : Tid} {act : EnvAct} {w w' : World} (ha : act = .execute t ∨ ∃ res, act = .answer t res)
    (h : w.env cfg act = some w') : owed w' t < owed w t ∧ ∀ t', t' ≠ t → owed w' t' = owed w t' := by
  obtain ⟨s, hs, rfl⟩ := Option.map_eq_some_iff.mp h
  rcases ha with rfl | ⟨res, rfl⟩
  · simp only [Shared.env] at hs
    split at hs
    · rename_i req hreq
      split at hs
      · cases hs
        exact ⟨by simp [owed, hreq, Shared.execute], fun t' ht' => owed_of_eq (Function.update_of_ne ht' _ _)⟩
      · cases hs
    · cases hs
  · simp only [Shared.env] at hs
    split at hs
    · rename_i req hreq
      split at hs
      · cases hs
        exact ⟨by simp [owed, hreq, Shared.setRpc], fun t' ht' => owed_of_eq (Function.update_of_ne ht' _ _)⟩
      · cases hs
    · cases hs

theorem Reachable.exists_started (h : Reachable cfg c conf) : ∃ S :
    Finset Tid, ∀ t, conf.threads t ≠ .idle → t ∈ S := by
  induction h with
  | refl => exact ⟨∅, fun t ht => (ht rfl).elim⟩
  | @step conf conf' l _ hs ih =>
    obtain ⟨S, hS⟩ := ih
    have hstart : ∀ (u : Tid) (th : Thread Cmd Cmd.Res Err Reply) t, Function.update conf.threads u th t ≠ .idle →
        t ∈ insert u S := by
      intro u th t ht
      by_cases he : t = u
      · exact he ▸ Finset.mem_insert_self ..
      · rw [Function.update_of_ne he] at ht
        exact Finset.mem_insert_of_mem (hS t ht)
    rcases Machine.step_cases hs with ⟨t, _, _, _, _, _, _, _, _, rfl⟩ | ⟨t, _, _, _, _, rfl⟩ | ⟨_, _, _, _, rfl⟩ |
      ⟨t, _, _, _, _, _, _, rfl⟩
    · exact ⟨_, hstart t _⟩
    · exact ⟨_, hstart t _⟩
    · exact ⟨S, hS⟩
    · exact ⟨_, hstart t _⟩

/-- Each move uses up a step of a call, or the request the call has out. -/
theorem Reachable.comes_to_rest (h : Reachable cfg c conf) :
    Acc (fun conf'' conf' => ∃ l, Moves conf' l ∧ (machine cfg).step conf' l = some conf'') conf := by
  obtain ⟨S, hS⟩ := h.exists_started
  refine Machine.acc_of_moves (I := fun conf => Reachable cfg c conf ∧ ∀ t, conf.threads t ≠ .idle → t ∈ S) owed S
    (fun conf₁ l conf₂ hI hl hs => ?_) ⟨h, hS⟩
  obtain ⟨hreach, hS⟩ := hI
  obtain ⟨t, ⟨⟨cmd, k, hth⟩, _⟩, hl⟩ := hl
  have ht : t ∈ S := hS t (by rw [hth]; simp)
  rcases Machine.step_cases hs with ⟨t', ch, cmd', k', r, w, rfl, hp, hx, rfl⟩ | ⟨_, _, _, rfl, _, _⟩ |
    ⟨act, w, rfl, hx, rfl⟩ | ⟨_, _, _, _, rfl, _, _, _⟩
  · obtain ⟨rfl, _⟩ : t' = t ∧ ch = .proceed := by simpa using hl
    have hown : Own cfg t' conf₁.world.toShared w.toShared := hreach.good.guar hp trivial hx
    refine ⟨⟨Machine.Reach.step _ hreach hs, fun u hu => ?_⟩, t', ht, ?_,
      fun u hu => ⟨Function.update_of_ne hu _ _,
      owed_of_eq (rpc_of_own hown hu)⟩⟩
    · by_cases he : u = t'
      · exact he ▸ ht
      · exact hS u (by simpa [he] using hu)
    · have hdown : Thread.Below (.running (k' r), owed w t') (.running (.await cmd' k'), owed conf₁.world t') :=
        .left _ _ (.running (.step cmd' k' r))
      simpa [hp] using hdown
  · simp at hl
  · obtain ⟨hlt, hothers⟩ := owed_env (t := t) (by simpa using hl) hx
    exact ⟨⟨Machine.Reach.step _ hreach hs, hS⟩, t, ht, .right _ hlt, fun u hu => ⟨rfl, hothers u hu⟩⟩
  · simp at hl

end OrdersBackend
