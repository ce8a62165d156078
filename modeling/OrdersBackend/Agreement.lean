import OrdersBackend.ContestProgress
import OrdersBackend.Idempotency

/-!
# Concurrent calls of one request agree

As long as the stock covers two of them, calls of one request that compete all
return the order one of them has created, and nobody waits for ever. The call
that loses does not fail for the stock that the winner has taken.
-/

namespace OrdersBackend

open Conc

namespace Contest

variable {cfg : Config} {c : Catalogue} {con : Contest} {conf₀ conf : SysConf} {t : Tid}

/-- Every call that has ended has returned the order, which is new to the one
that has created it. -/
def Agreed (con : Contest) (conf : SysConf) : Prop :=
  ∃ u, ∀ t, con.calls t → ∀ r, conf.threads t = .running (.done r) → con.calls u ∧
    ∃ res o, r = .ok (some res) ∧ con.order? conf.world.toShared = some o ∧ res.order.id = o.id ∧
      (res.reused = false ↔ t = u)

theorem order?_of_stored {s : Shared} (hT : Tables c s.db) {id : Uuid} {o : Order} (hf : s.db.order? id = some o)
    (hu : o.userId = con.req.actor.id) (hk : o.idempotencyKey = con.req.idempotencyKey) :
    con.order? s = some o := by
  have hkey := hT.orderByKey?_of_mem (Db.order?_mem hf)
  rw [hu, hk] at hkey
  exact hkey

section
variable (h : con.Starts cfg c conf₀) (hr : con.Run cfg conf₀ conf)
include h hr

theorem Starts.resolved (ht : con.calls t) {r : Except Err Reply} (hth : conf.threads t = .running (.done r)) :
    conf.world.jobs t = some (.create con.req) ∧ ∃ res o, r = .ok (some res) ∧
      con.order? conf.world.toShared = some o ∧ res.order.id = o.id ∧ Resolved conf.world t con.req res := by
  have hg := h.good_of_run hr
  obtain ⟨hjob, ⟨res, rfl⟩, _⟩ := hg.post hth ht
  obtain ⟨res', he, hres⟩ := (h.reach hr).ended hth con.req hjob
  cases he
  obtain ⟨o, hf, hu, hk, _⟩ := hres.stored.order
  exact ⟨hjob, res, o, rfl, order?_of_stored hg.1.1.saga.inv.tables hf hu hk, (Db.order?_id hf).symm, hres⟩

theorem Starts.job (ht : con.calls t) (hj : conf.world.jobs t ≠ none) :
    conf.world.jobs t = some (.create con.req) := by
  obtain ⟨p, hp⟩ := h.running hr ht hj
  cases p with
  | await cmd k => exact (h.pre hr hp).2.1
  | done r => exact (h.resolved hr ht hp).1

theorem Starts.agreed : con.Agreed conf := by
  have hg := h.good_of_run hr
  have hinv := hg.1.1.saga.inv
  rcases hg.1.2.1.stock with ⟨hnone, _⟩ | ⟨_, ⟨u, hu, hphase⟩, _⟩
  · -- without the order no call has ended
    refine ⟨0, fun t ht r hth => ?_⟩
    obtain ⟨_, res, o, _, hsome, _⟩ := h.resolved hr ht hth
    rw [hnone] at hsome
    cases hsome
  · refine ⟨u, fun t ht r hth => ⟨hu, ?_⟩⟩
    obtain ⟨hjob, res, o, he, hsome, hid, hres⟩ := h.resolved hr ht hth
    refine ⟨res, o, he, hsome, hid, fun hnew => ?_, fun htu => ?_⟩
    · have hju : conf.world.jobs u = some (.create con.req) := by
        refine h.job hr hu fun hnone => ?_
        rw [hinv.calls.unstarted u hnone] at hphase
        cases hphase
      have hserve : ∀ {t : Tid}, conf.world.jobs t = some (.create con.req) →
          conf.world.serves con.req.actor.id con.req.idempotencyKey t = true :=
        fun hj => serves_iff.mpr ⟨con.req, hj, rfl, rfl⟩
      refine hinv.serves_unique (hserve hjob) (hserve hju) ?_ hphase
      obtain ⟨mid, hp | hp⟩ := hres.created hnew <;> rw [hp] <;> rfl
    · cases hre : res.reused with
      | false => rfl
      | true =>
        rw [← htu, hres.reused hre] at hphase
        cases hphase

end

/-- In every run of the calls, those that have ended have returned the one
order; with fewer calls in flight than connections none of them waits for
ever; and the run comes to an end. -/
theorem same_key_calls_agree (h : con.Starts cfg c conf₀) (hr : con.Run cfg conf₀ conf) :
    con.Agreed conf ∧
    (∀ n, n < cfg.poolSize .api → InFlightAtMost n conf →
      ∀ t, inFlight conf t → ∃ l, Moves conf l ∧ ((machine cfg).step conf l).isSome) ∧
    Acc (fun conf'' conf' => ∃ l, Moves conf' l ∧ (machine cfg).step conf' l = some conf'') conf :=
  ⟨h.agreed hr, fun _ hn hf _ ht => h.goes_on hr hn hf ht, (h.reach hr).comes_to_rest⟩

def mugs : Contest := ⟨mugRequest 0 "k", (· < 2)⟩

/-- Both calls look for the order before one of them reserves; this one goes
through, and then the other one makes `n` more steps. -/
def mugSteps (n : Nat) : List SysLabel :=
  requestSteps 0 mugs.req 4 ++ requestSteps 1 mugs.req 4 ++ List.replicate 7 (.run 0 .proceed) ++
    .env (.execute 0) :: List.replicate 8 (.run 0 .proceed) ++ List.replicate n (.run 1 .proceed)

theorem calm_mugSteps (n : Nat) : ∀ l ∈ mugSteps n, mugs.Calm l := by
  have hproceed : ∀ (t m : Nat), t < 2 → ∀ l ∈ List.replicate m (.run t .proceed), mugs.Calm l := by
    intro t m ht l hl
    rw [List.eq_of_mem_replicate hl]
    exact ⟨ht, rfl⟩
  have hrequest : ∀ (t m : Nat), t < 2 → ∀ l ∈ requestSteps t mugs.req m, mugs.Calm l := by
    intro t m ht l hl
    rcases List.mem_cons.mp hl with rfl | hl
    · exact ⟨ht, rfl⟩
    · exact hproceed t m ht l hl
  intro l hl
  simp only [mugSteps, List.mem_append, List.mem_cons] at hl
  rcases hl with (((hl | hl) | hl) | rfl | hl) | hl
  · exact hrequest 0 4 (by decide) l hl
  · exact hrequest 1 4 (by decide) l hl
  · exact hproceed 0 7 (by decide) l hl
  · trivial
  · exact hproceed 0 8 (by decide) l hl
  · exact hproceed 1 n (by decide) l hl

theorem starts_mugs : mugs.Starts (.ofPool 3 .repository) (.shop 2) (Catalogue.shop 2).initial where
  reachable := .refl
  rest := ⟨fun t cmd k h => by simp [Catalogue.initial] at h, fun _ => rfl, rfl⟩
  channels _ _ := nofun
  unused _ _ := rfl
  creates := ⟨by simp [mugs, mugRequest], rfl, rfl, _, rfl⟩
  room := by
    refine .inr fun item hi => ?_
    rw [List.mem_singleton.mp hi]
    decide

theorem same_key_calls_agree_mugs :
    let conf := (Catalogue.shop 2).after (.ofPool 3 .repository) (mugSteps 10)
    mugs.Agreed conf ∧ ∃ res, conf.threads 1 = .running (.done (.ok (some res))) ∧ res.reused = true :=
  ⟨(same_key_calls_agree starts_mugs (Catalogue.reachWhen_after _ _ (calm_mugSteps 10))).1, _, rfl, rfl⟩

/-- With one mug in stock, the call that loses finds none. -/
theorem same_key_calls_disagree :
    let conf := (Catalogue.shop 1).after (.ofPool 3 .repository) (mugSteps 5)
    AtRest (Catalogue.shop 1).initial ∧ Creates (Catalogue.shop 1).shared mugs.req ∧
      mugs.Run (.ofPool 3 .repository) (Catalogue.shop 1).initial conf ∧
      conf.threads 1 = .running (.done (.error (.http
        (conflictError "Insufficient product stock" (.stock 0 1 0))))) ∧
      ¬mugs.Agreed conf := by
  refine ⟨⟨fun t cmd k h => by simp [Catalogue.initial] at h, fun _ => rfl, rfl⟩,
    ⟨by simp [mugs, mugRequest], rfl, rfl, _, rfl⟩, Catalogue.reachWhen_after _ _ (calm_mugSteps 5), rfl, ?_⟩
  rintro ⟨u, hu⟩
  obtain ⟨_, res, o, hr, _⟩ := hu 1 Nat.one_lt_two _ rfl
  cases hr

end Contest

end OrdersBackend
