import OrdersBackend.Charge
import OrdersBackend.Contest
import OrdersBackend.Lib.LockOrder
import OrdersBackend.Payments

/-!
# Locks on products

A reservation locks its products in the order of the table, a compensation in
the order of the lines. Nobody waits for himself through the locks of products
as long as the two orders agree for every call that compensates.
-/

namespace OrdersBackend

open Conc

variable {cfg : Config} {c : Catalogue} {t : Tid} {s : Shared} {conf : SysConf}

def Cmd.productRow : Cmd → Option Uuid
  | .lockProduct id | .saveStock id _ | .incrementStock id _ => some id
  | _ => none

/-- The next command of `t` locks the row of a product that is not its own. -/
def wantsProduct (conf : SysConf) (t : Tid) (id : Uuid) : Prop :=
  ∃ cmd k, conf.threads t = .running (.await cmd k) ∧ cmd.productRow = some id ∧
    conf.world.locks (.product id) ≠ some t

def productOwner (conf : SysConf) (id : Uuid) : Option Tid := conf.world.locks (.product id)

/-! ## The lines of a call -/

theorem productIds_of_lines {byId : JsMap Uuid Product} {id : Uuid} {inputs : List OrderItemInput}
    {items : List OrderItem}
    (h : List.Forall₂ (IsLine byId id) inputs items) : items.map (·.productId) = inputs.map (·.productId) := by
  induction h with
  | nil => rfl
  | cons hl _ ih => rw [List.map_cons, List.map_cons, ih, hl.product]

/-! ## Calls that compensate -/

theorem failed_of_cons {u : Tid} {cmd : Cmd} {e : Event} {es : List Event} (hne : e ≠ .failed u cmd)
    (hm : .failed u cmd ∈ e :: es) : .failed u cmd ∈ es := by
  rcases List.mem_cons.mp hm with he | hm
  · exact (hne he.symm).elim
  · exact hm

theorem failed_of_commit {u : Tid} {cmd : Cmd} {ws : List Write} {s : Shared}
    (hm : .failed u cmd ∈ (s.commit t ws).trace) : .failed u cmd ∈ s.trace := by
  rw [commit_eq] at hm
  rcases List.mem_append.mp hm with hm | hm
  · obtain ⟨_, _, _, he⟩ := mem_wroteEvents hm
    cases he
  · exact hm

theorem failed_of_perform {u : Tid} {cmd cmd' : Cmd} {w w' : World} {r : Except Err cmd.Res}
    (h : perform cfg t cmd w = some (r, w')) (hm : .failed u cmd' ∈ w'.trace) : .failed u cmd' ∈ w.trace := by
  cases cmd with
  | commitTransaction slot =>
    simp only [perform] at h
    split at h
    · cases h
      exact hm
    · cases h
      exact failed_of_commit hm
  | updatePayment | sendAuthorize =>
    simp only [perform] at h
    split at h
    · cases h
      exact failed_of_cons (by simp) hm
    · cases h
  | awaitAuthorize =>
    simp only [perform] at h
    split at h
    · cases h
      exact hm
    · cases h
  | uuid =>
    cases h
    exact failed_of_cons (by simp) hm
  | publish =>
    cases h
    simp only [Shared.publish] at hm
    split at hm
    · exact hm
    · exact failed_of_cons (by simp) hm
  | ack =>
    cases h
    simp only [Shared.ack] at hm
    split at hm
    · exact failed_of_cons (by simp) hm
    · exact hm
  | nack =>
    cases h
    simp only [Shared.nack] at hm
    split at hm <;> exact hm
  | _ => rcases perform_silent rfl h with he | he <;> rwa [he] at hm

theorem failed_of_performLost {u : Tid} {cmd cmd' : Cmd} {w w' : World} (h : performLost t cmd w = some w')
    (hm : .failed u cmd' ∈ w'.trace) : .failed u cmd' ∈ w.trace := by
  unfold performLost at h
  split at h
  · obtain ⟨ws, _, rfl⟩ := Option.map_eq_some_iff.mp h
    exact failed_of_commit hm
  · split at h
    · cases h
      exact failed_of_cons (by simp) hm
    · cases h
  · cases h

theorem failed_of_exec {u : Tid} {cmd cmd' : Cmd} {ch : Choice} {w w' : World} {r : Except Err cmd.Res}
    (h : exec cfg t cmd ch w = some (r, w')) (hm : .failed u cmd' ∈ w'.trace) :
    .failed u cmd' ∈ w.trace ∨ u = t ∧ cmd' = cmd ∧ (w.refuses t cmd = true ∨ ∃ e, ch = .fail e) := by
  cases ch with
  | proceed =>
    simp only [exec] at h
    split at h
    · rename_i hc
      cases h
      rcases List.mem_cons.mp hm with he | hm
      · cases he
        exact .inr ⟨rfl, rfl, .inl hc⟩
      · exact .inl hm
    · exact .inl (failed_of_perform h hm)
  | unnoticed =>
    simp only [exec] at h
    split at h
    · exact .inl (failed_of_perform h hm)
    · cases h
  | fail e =>
    simp only [exec] at h
    split at h
    · cases h
    · cases h
      rcases List.mem_cons.mp hm with he | hm
      · cases he
        exact .inr ⟨rfl, rfl, .inr ⟨e, rfl⟩⟩
      · left
        unfold reject at hm
        split at hm <;> exact hm
  | ackLost e =>
    simp only [exec] at h
    split at h
    · cases h
    · obtain ⟨w₁, h₁, he⟩ := Option.map_eq_some_iff.mp h
      cases he
      exact .inl (failed_of_performLost h₁ (failed_of_cons (by simp) hm))

/-- The lines name their products in the order in which the database locks
them. -/
def CreateOrderRequest.inLockOrder (c : Catalogue) (req : CreateOrderRequest) : Prop :=
  (req.dto.items.map (·.productId)).eraseDups = c.rowsOf req

instance (c : Catalogue) (req : CreateOrderRequest) : Decidable (req.inLockOrder c) :=
  inferInstanceAs (Decidable (_ = _))

/-- The step does not make a call compensate whose lines are in another
order. -/
def lockOrdered (c : Catalogue) (conf : SysConf) : SysLabel → Bool
  | .run t (.fail _) =>
    match conf.threads t, conf.world.jobs t with
    | .running (.await cmd _), some (.create req) => !cmd.authorizes || decide (req.inLockOrder c)
    | _, _ => true
  | _ => true

abbrev LockOrdered (c : Catalogue) (conf : SysConf) (l : SysLabel) : Prop := lockOrdered c conf l = true

theorem inLockOrder_of_failed (h : (machine cfg).ReachWhen (LockOrdered c) c.initial conf) {cmd : Cmd}
    (hc : cmd.authorizes = true) (hm : .failed t cmd ∈ conf.world.trace) :
    conf.world.jobs t ≠ none ∧ ∀ req, conf.world.jobs t = some (.create req) → req.inLockOrder c := by
  induction h with
  | refl => simp [Catalogue.initial, Catalogue.shared] at hm
  | @step conf conf' l hr hord hs ih =>
    have hreach : Reachable cfg c conf := hr.reach
    have hruns := Reachable.step hreach hs
    have old : (conf.world.jobs t ≠ none ∧ ∀ req, conf.world.jobs t = some (.create req) → req.inLockOrder c) →
        conf'.world.jobs t ≠ none ∧ ∀ req, conf'.world.jobs t = some (.create req) → req.inLockOrder c := by
      rintro ⟨hj, hreq⟩
      obtain ⟨job, hjob⟩ := Option.ne_none_iff_exists'.mp hj
      rw [jobs_of_run hruns hjob, ← hjob]
      exact ⟨hj, hreq⟩
    rcases Machine.step_cases hs with ⟨u, ch, cmd', k, r, w, rfl, hp, hx, rfl⟩ | ⟨u, cmd', k, rfl, hp, rfl⟩ |
      ⟨act, w, rfl, hx, rfl⟩ | ⟨u, arr, p, w, rfl, hp, hx, rfl⟩
    · rcases failed_of_exec hx hm with hm | ⟨rfl, rfl, hrefuses | ⟨e, rfl⟩⟩
      · exact old (ih hm)
      · cases cmd with
        | publish | ack | nack => cases hc
        | _ => cases hrefuses
      · refine old ⟨(hreach.good.pre hp).1, fun req hj => ?_⟩
        simpa [LockOrdered, lockOrdered, hp, hj, hc] using hord
    · exact old (ih hm)
    · obtain ⟨s', hs', rfl⟩ := Option.map_eq_some_iff.mp hx
      obtain ⟨es, htr, hes⟩ := (step_of_env hs').trace
      rw [show (World.mk s' conf.world.sess conf.world.locks conf.world.pool).trace = es ++ conf.world.trace from htr] at hm
      rcases List.mem_append.mp hm with hm | hm
      · cases hes _ hm
      · exact old (ih hm)
    · obtain ⟨_, s', rfl, _, _, htr, _⟩ := arrive_cases hx
      exact old (ih (htr ▸ hm))

/-! ## No cycle -/

/-- What a call has locked comes before the product it waits for. -/
theorem products_inOrder (h : (machine cfg).ReachWhen (LockOrdered c) c.initial conf) :
    InOrder (fun id => (c.products.map (·.id)).idxOf id) (wantsProduct conf) (productOwner conf) := by
  have hreach : Reachable cfg c conf := h.reach
  have hs := hreach.saga
  have hids : conf.world.db.products.map (·.id) = c.products.map (·.id) := ids_of_shape hs.inv.tables.products
  rintro t id ⟨cmd, k, hth, hrow, hfree⟩ q hq
  have hready := hreach.ready hth
  cases cmd with
  | lockProduct id' =>
    cases hrow
    obtain ⟨past, rest, hsub, hlocks⟩ := hready
    rw [hids] at hsub
    exact idxOf_lt_of_sublist c.productIds hsub ((hlocks q).mp hq)
  | saveStock id' n =>
    cases hrow
    exact (hfree hready).elim
  | incrementStock id' n =>
    cases hrow
    obtain ⟨oid, past, rest, hp, hitems, hlocks⟩ := hready
    obtain ⟨req, products, plan, hb⟩ := hs.booked (show (conf.world.phase t).orderId? = some oid by rw [hp]; rfl)
    obtain ⟨cmd, hc, hm⟩ := hs.unauthorized (.inl hp)
    have hord := (inLockOrder_of_failed h hc hm).2 req hb.job
    have hnew : id ∉ past := fun hin => hfree ((hlocks id).mpr hin)
    obtain ⟨rest', hdups⟩ : ∃ rest', (past ++ id :: rest).eraseDups = past.eraseDups ++ id :: rest' :=
      eraseDups_new hnew
    have hsub : (past.eraseDups ++ id :: rest').Sublist (c.products.map (·.id)) := by
      rw [← hdups, ← hitems, productIds_of_lines hb.lines, hord]
      exact List.filter_sublist.map _
    exact idxOf_lt_of_sublist c.productIds hsub (by simpa using (hlocks q).mp hq)
  | _ => cases hrow

/-- As long as the calls that compensate name their products in the order of
the locks, no call waits for itself. -/
theorem no_lock_cycle (h : (machine cfg).ReachWhen (LockOrdered c) c.initial conf) (t : Tid) :
    ¬Relation.TransGen (WaitsFor (wantsProduct conf) (productOwner conf)) t t := (products_inOrder h).no_cycle t

/-! ## Two orders of the same products -/

def Catalogue.pair : Catalogue where
  users := [⟨0⟩, ⟨1⟩]
  products := [⟨0, "Mug", 500, 3, none⟩, ⟨1, "Cup", 300, 3, none⟩]
  productIds := by simp
  stockNonneg := by simp

def pairRequest (userId first second : Uuid) : CreateOrderRequest where
  actor := ⟨userId, .user⟩
  dto := ⟨[⟨first, 1⟩, ⟨second, 1⟩], by simp, by simp⟩
  idempotencyKey := "k"

def compensationSteps (first second : Uuid) (n : Nat) : List SysLabel :=
  requestSteps 0 (pairRequest 0 first second) 14 ++ .run 0 (.fail (.grpc 14)) :: List.replicate 5
    (.run 0 .proceed) ++
    requestSteps 1 (pairRequest 1 0 1) n

/-- The products are locked in one order: the other call waits, and no more. -/
theorem no_lock_cycle_pair :
    let conf := Catalogue.pair.afterWhen (.ofPool 3 .repository) (lockOrdered .pair) (compensationSteps 0 1 5)
    WaitsFor (wantsProduct conf) (productOwner conf) 1 0 ∧
      ¬Relation.TransGen (WaitsFor (wantsProduct conf) (productOwner conf)) 1 1 := by
  intro conf
  have hcycle := no_lock_cycle (Catalogue.reachable_afterWhen (.ofPool 3 .repository) (lockOrdered .pair) .pair
    (compensationSteps 0 1 5)) 1
  exact ⟨⟨0, ⟨_, _, rfl, rfl, by decide⟩, rfl⟩, hcycle⟩

/-- The lines of the first order name the second product first. -/
theorem lock_cycle :
    let conf := Catalogue.pair.after (.ofPool 3 .repository) (compensationSteps 1 0 6)
    Reachable (.ofPool 3 .repository) .pair conf ∧
      Relation.TransGen (WaitsFor (wantsProduct conf) (productOwner conf)) 0 0 := by
  intro conf
  refine ⟨Catalogue.reachable_after .., .tail (.single (b := 1) ⟨0, ⟨_, _, rfl, rfl, by decide⟩, rfl⟩) ?_⟩
  exact ⟨1, ⟨_, _, rfl, rfl, by decide⟩, rfl⟩

end OrdersBackend
