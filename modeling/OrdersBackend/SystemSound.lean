import OrdersBackend.CreateOrderSpec
import OrdersBackend.WorkerSpec

/-!
# The system refines the saga

Every procedure of the system keeps the discipline from its start, so every
reachable configuration is a state of the saga, and every call that has ended
has ended as the saga says.
-/

namespace OrdersBackend

open Conc

variable {cfg : Config} {c : Catalogue} {t : Tid} {conf : SysConf}

theorem loc_arrive {w : World} (h : Unused t w) {s : Shared} {job : Job} (hj : s.jobs t = some job)
    (htr : s.trace = w.trace) :
    World.loc t { w with toShared := s } = ⟨.init, some job, .start, false, false, 0, 0⟩ := by
  have hl := h.loc
  unfold World.loc Local.init at hl
  simp only [Local.mk.injEq] at hl
  obtain ⟨hsess, _, hphase, hlate, hund, hapi, hworker⟩ := hl
  have hp : s.phase t = .start := by
    unfold Shared.phase at hphase ⊢
    rw [htr]; exact hphase
  unfold World.loc
  simp only [hsess, hj, hp, htr, hlate, hund, hapi, hworker]

theorem wp_arrive (t : Tid) (arr : Arrival) (w : World) (p : Api Reply) (w' : World)
    (_ : (discipline cfg c).allows (.spawn t arr)) (hI : (discipline cfg c).inv w)
    (h : (machine cfg).spawn t arr w = some (p, w')) :
    Wp cfg c t p ((discipline cfg c).post t) w' := by
  obtain ⟨hj, s, rfl, hstep, _, htr, hp⟩ := arrive_cases h
  have hU : Unused t w := hI.unused t hj
  have hn : ∀ job, s.jobs t = some job → Now cfg c t ⟨.init, some job, .start, false, false, 0, 0⟩ []
      (fun _ => True) { w with toShared := s } := fun job hjob =>
    ⟨hI.saga.snoc trivial hstep, loc_arrive hU hjob htr, fun r => by simpa using hU.locks r, nofun, trivial⟩
  rcases hp with ⟨req, rfl, hp⟩ | ⟨msg, rfl, hp⟩
  · exact wp_requestThread (hn _ hp)
  · exact wp_deliveryThread (hn _ hp)

theorem Reachable.good (h : Reachable cfg c conf) : (discipline cfg c).Good conf :=
  (discipline cfg c).sound wp_arrive (discipline_initial cfg c) (h.when fun _ _ => trivial)

theorem Reachable.saga (h : Reachable cfg c conf) : Saga cfg c conf.world.toShared := h.good.1.saga

/-- A step of the system is a run of steps of the saga by the same actor. -/
theorem Reachable.step {conf' : SysConf} {l : SysLabel} (h : Reachable cfg c conf)
    (hs : (machine cfg).step conf l = some conf') :
    Runs (Step cfg) (· = l.actor) conf.world.toShared conf'.world.toShared := by
  rcases Machine.step_cases hs with ⟨t, ch, cmd, k, r, w, rfl, hp, hx, rfl⟩ | ⟨t, cmd, k, rfl, hp, rfl⟩ |
    ⟨e, w, rfl, hx, rfl⟩ | ⟨t, arr, p, w, rfl, hp, hx, rfl⟩
  · exact h.good.guar hp trivial hx
  · exact .single rfl (.lose t conf.world.toShared)
  · obtain ⟨s', hs', rfl⟩ := Option.map_eq_some_iff.mp hx
    exact .single rfl (step_of_env hs')
  · obtain ⟨_, s, rfl, hstep, _⟩ := arrive_cases hx
    exact .single rfl hstep

theorem Reachable.runs {conf' : SysConf} (h : Reachable cfg c conf) (hr : (machine cfg).Reach conf conf') :
    Runs (Step cfg) (fun _ => True) conf.world.toShared conf'.world.toShared := by
  induction hr with
  | refl => exact .refl _
  | step l hr hs ih => exact ih.trans ((Reachable.step (h.trans hr) hs).mono fun _ _ => trivial)

theorem Reachable.ended (h : Reachable cfg c conf) {r : Except Err Reply}
    (ht : conf.threads t = .running (.done r)) :
    Ended t r conf.world := (h.good.post ht).2

/-- A thread that waits for a further connection holds its query runner only. -/
theorem Reachable.ready (h : Reachable cfg c conf) {cmd : Cmd} {k : Except Err cmd.Res → Api Reply}
    (ht : conf.threads t = .running (.await cmd k)) : Ready t cmd conf.world := (h.good.pre ht).2

/-- The transactions, payments and messages of interleaved calls take effect as
whole steps of the saga, each by the thread that has moved; a call that has
rejected is undone as far as it could be, and the result of one that has
resolved is stored. -/
theorem system_refines_saga (h : Reachable cfg c conf) :
    Saga cfg c conf.world.toShared ∧
    (∀ l conf', (machine cfg).step conf l = some conf' →
      Runs (Step cfg) (· = l.actor) conf.world.toShared conf'.world.toShared) ∧
    (∀ t req e, conf.world.jobs t = some (.create req) → conf.threads t = .running (.done (.error e)) →
      (conf.world.loc t).Rejected) ∧
    ∀ t req reply, conf.world.jobs t = some (.create req) → conf.threads t = .running (.done (.ok reply)) →
      ∃ res, reply = some res ∧ Resolved conf.world t req res :=
  ⟨h.saga, fun _ _ hs => h.step hs, fun _ req _ hj ht => h.ended ht req hj, fun _ req _ hj ht => h.ended ht req hj⟩

/-- The mug is sold. -/
theorem system_refines_saga_mug :
    let conf := (Catalogue.shop 3).after (.ofPool 2 .repository) (saleSteps 0 (mugRequest 0 "k"))
    Saga (.ofPool 2 .repository) (.shop 3) conf.world.toShared ∧
      ∃ res, res.order.id = 0 ∧ Resolved conf.world 0 (mugRequest 0 "k") res := by
  intro conf
  obtain ⟨hs, _, _, hok⟩ := system_refines_saga
    (Catalogue.reachable_after (.ofPool 2 .repository) (.shop 3) (saleSteps 0 (mugRequest 0 "k")))
  obtain ⟨res, hres, hresolved⟩ := hok 0 (mugRequest 0 "k") (some ⟨false,
    ⟨0, 0, "k", .pending, some 2, some .authorized, 0, none⟩, none, some ⟨2, .authorized⟩, some 3⟩) rfl rfl
  cases hres
  exact ⟨hs, _, rfl, hresolved⟩

end OrdersBackend
