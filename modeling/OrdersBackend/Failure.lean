import OrdersBackend.Effects
import OrdersBackend.SystemSound

/-!
# Calls that fail

What a call that rejects leaves of its stock and of its order. A rollback or
the compensation undoes it, unless the call fails after its payment has been
authorized.
-/

namespace OrdersBackend

open Conc

variable {cfg : Config} {c : Catalogue} {a : Option Tid} {s s' : Shared} {conf : SysConf} {t : Tid}

def Write.product? : Write → Option Uuid
  | .stock p _ | .addStock p _ => some p
  | _ => none

def Event.stockChange (t : Tid) (p : Uuid) : Event → Int
  | .wrote t' wr δ => if t' = t ∧ wr.product? = some p then δ else 0
  | _ => 0

/-- The net effect of `t` on the stock of `p`. -/
def Shared.netStock (s : Shared) (t : Tid) (p : Uuid) : Int := (s.trace.map (Event.stockChange t p)).sum

/-- All that `t` has done to the stock is undone, and its order, if any, has
failed. -/
def Shared.undoneBy (s : Shared) (t : Tid) : Prop :=
  (∀ p, s.netStock t p = 0) ∧
    ∀ o δ, .wrote t (.insertOrder o) δ ∈ s.trace → ∀ o', s.db.order? o.id = some o' → o'.status = .failed

/-! ## Stock changes of a transaction -/

theorem stock_updateProduct (db : Db) (q : Uuid) (f : Product → Product) (hf : ∀ x, (f x).id = x.id) (p : Uuid) :
    (db.updateProduct q f).stock p - db.stock p =
      if q = p then ((db.product? q).map fun x => (f x).stock - x.stock).getD 0 else 0 := by
  have h := stockIn_updateProduct db q f hf p
  rw [Db.stock, h]
  by_cases hp : q = p
  · subst hp
    rw [if_pos rfl, if_pos rfl]
    show _ - ((db.product? q).map (·.stock)).getD 0 = _
    cases db.product? q <;> simp
  · rw [if_neg (Ne.symm hp), if_neg hp]
    exact Int.sub_self _

theorem delta_stock (db : Db) (wr : Write) (p : Uuid) :
    (if wr.product? = some p then wr.delta db else 0) = (wr.apply db).stock p - db.stock p := by
  cases wr with
  | stock q n =>
    rw [Write.apply, stock_updateProduct db q (.setStock n) fun _ => rfl]
    cases hx : db.product? q <;> simp [Write.product?, Write.delta, hx, Product.setStock]
  | addStock q n =>
    rw [Write.apply, stock_updateProduct db q (.addStock n) fun _ => rfl]
    cases hx : db.product? q <;> simp [Write.product?, Write.delta, hx, Product.addStock]
  | _ => exact (Int.sub_self _).symm

theorem stockChange_wroteEvents (t : Tid) (p : Uuid) (ws : List Write) (db : Db) :
    ((wroteEvents t db ws).map (Event.stockChange t p)).sum = (db.applyAll ws).stock p - db.stock p := by
  induction ws generalizing db with
  | nil => exact (Int.sub_self _).symm
  | cons wr ws ih =>
    have h := delta_stock db wr p
    rw [wroteEvents, List.map_append, List.sum_append, ih]
    simp only [Event.stockChange, true_and, List.map_cons, List.map_nil, List.sum_cons, List.sum_nil, h]
    show (Db.applyAll (wr.apply db) ws).stock p - _ + _ = (Db.applyAll (wr.apply db) ws).stock p - _
    omega

theorem netStock_append {es : List Event} (h : s'.trace = es ++ s.trace) (t : Tid) (p : Uuid) :
    s'.netStock t p = (es.map (Event.stockChange t p)).sum + s.netStock t p := by
  rw [Shared.netStock, h, List.map_append, List.sum_append]
  rfl

theorem stockChange_of_actor {e : Event} (h : e.actor ≠ some t) (p : Uuid) : e.stockChange t p = 0 := by
  cases e with
  | wrote t' wr δ =>
    have hne : t' ≠ t := fun he => h (congrArg some he)
    simp [Event.stockChange, hne]
  | _ => rfl

/-! ## What a call holds -/

/-- The order whose stock a call holds. -/
def Phase.holding? : Phase → Option Uuid
  | .released _ => none
  | p => p.orderId?

/-- What a call in phase `p` holds of a product. -/
def Db.held (db : Db) (phase : Phase) (p : Uuid) : Int :=
  match phase.holding? with
  | some id => quantityOf (db.itemsOf id) p
  | none => 0

structure Holdings (s : Shared) : Prop where
  net : ∀ t p, s.netStock t p = -s.db.held (s.phase t) p
  items : ∀ t id, (s.phase t).orderId? = some id → s.db.itemsOf id ≠ []

theorem Phase.holding?_orderId? {p : Phase} {id : Uuid} (h : p.holding? = some id) : p.orderId? = some id := by
  cases p <;> first | exact h | cases h

theorem SagaInv.held (hI : SagaInv c s) (h : Step cfg a s s') (t : Tid) (p : Uuid) :
    s'.db.held (s.phase t) p = s.db.held (s.phase t) p := by
  unfold Db.held
  split
  · rename_i id hid
    obtain ⟨req, o, ho⟩ := hI.calls.owns t id (Phase.holding?_orderId? hid)
    rw [hI.itemsOf h (by rw [ho.found]; rfl)]
  · rfl

theorem SagaInv.items_step (hI : SagaInv c s) (hH : Holdings s) (h : Step cfg a s s') (t : Tid) (id : Uuid)
    (hid : (s'.phase t).orderId? = some id) : s'.db.itemsOf id ≠ [] := by
  have old : (s.phase t).orderId? = some id → s'.db.itemsOf id ≠ [] := by
    intro hid
    obtain ⟨req, o, ho⟩ := hI.calls.owns t id hid
    rw [hI.itemsOf h (by rw [ho.found]; rfl)]
    exact hH.items t id hid
  by_cases ha : a = some t
  · subst ha
    rcases h.reserves hid with hid | ⟨req, products, plan, order, items, hr, rfl, rfl⟩
    · exact old hid
    · rw [itemsOf_reserve hr]
      intro hnil
      have hl := hr.lines
      rw [hnil] at hl
      exact req.dto.nonempty (List.forall₂_nil_right_iff.mp hl)
  · rw [h.phase_other ha] at hid
    exact old hid

theorem SagaInv.net_step (hI : SagaInv c s) (hH : Holdings s) (h : Step cfg a s s') (t : Tid) (p : Uuid) :
    s'.netStock t p = -s'.db.held (s'.phase t) p := by
  have same : ∀ es, s'.trace = es ++ s.trace → (es.map (Event.stockChange t p)).sum = 0 →
      (s'.phase t).holding? = (s.phase t).holding? → s'.netStock t p = -s'.db.held (s'.phase t) p := by
    intro es he hsum hp
    have hheld := hI.held h t p
    rw [netStock_append he, hsum, Int.zero_add, hH.net t p, ← hheld]
    unfold Db.held
    rw [hp]
  by_cases ha : a = some t
  · subst ha
    cases h with
    | arrive | deliver | skipUuid | receive | nack | lose => exact same [] rfl rfl rfl
    | failed hc => exact same [_] rfl rfl (by rw [phase_log rfl, Phase.next_failed hc])
    | ackLost => exact same [_] rfl rfl (by rw [phase_log rfl]; rfl)
    | ack => exact same [_] rfl rfl (by rw [phase_acked])
    | @reserve _ _ req products plan order items hr =>
      obtain ⟨ps, he, _, hstock⟩ := applyAll_reserveLog ⟨hr.current, hr.distinct, hr.accepted⟩ order items
      have hheld : (s.commit t (reserveLog products plan order items)).db.held (.reserved order.id) p =
          lineSum req.dto.items p := by
        show quantityOf (Db.itemsOf _ order.id) p = _
        rw [itemsOf_reserve hr]
        exact quantityOf_lines hr.lines p
      have hnet := hH.net t p
      rw [hr.phase] at hnet
      rw [phase_reserve, hheld, netStock_append (by rw [commit_eq]), stockChange_wroteEvents, he, hnet]
      have := hstock p
      show stockIn ps p - _ + -0 = _
      omega
    | request hr => exact same [_] rfl rfl (by rw [phase_request, hr.phase]; rfl)
    | reject hc hr =>
      refine same [_] rfl rfl ?_
      rw [phase_reject hc hr]
      rcases hr with hr | hr <;> rw [hr] <;> rfl
    | @release _ _ id hp =>
      obtain ⟨ps, he, _, hstock⟩ := applyAll_releaseLog id hI.tables.itemProducts
      have hnet := hH.net t p
      rw [hp] at hnet
      rw [phase_release, netStock_append (by rw [commit_eq]), stockChange_wroteEvents, he, hnet]
      have := hstock p
      show stockIn ps p - _ + -quantityOf (s.db.itemsOf id) p = -0
      omega
    | pay hp _ => exact same [_] rfl (by simp [Event.stockChange, Write.product?]) (by rw [phase_pay, hp]; rfl)
    | identify hp => exact same [_] rfl rfl (by rw [phase_identify hp, hp]; rfl)
    | publish createdAt hp => exact same [_] rfl rfl (by rw [phase_publish _ hp, hp]; rfl)
    | @process _ _ payload mid oid order processedAt hr =>
      refine same _ (by rw [commit_eq]) ?_ (by rw [phase_process, hr.phase]; rfl)
      rw [stockChange_wroteEvents, applyAll_processLog]
      simp only
      split <;> exact Int.sub_self _
    | republish _ _ hp hr => exact same [_] rfl rfl (by rw [phase_republish hr, hp]; rfl)
  · obtain ⟨es, he, hes⟩ := h.trace
    refine same es he (List.sum_eq_zero fun n hn => ?_) (by rw [h.phase_other ha])
    obtain ⟨e, hm, rfl⟩ := List.mem_map.mp hn
    exact stockChange_of_actor ((hes e hm).trans_ne ha) p

theorem Saga.holdings (h : Saga cfg c s) : Holdings s := by
  refine (Runs.invariant (I := fun s => SagaInv c s ∧ Holdings s) ?_ h ⟨.initial c, fun _ _ => rfl, nofun⟩).2
  rintro a s s' _ ⟨hI, hH⟩ hs
  exact ⟨hI.step hs, hI.net_step hH hs, hI.items_step hH hs⟩

/-! ## Calls that reject -/

theorem quantityOf_pos {items : List OrderItem} (h : ∀ item ∈ items, 1 ≤ item.quantity) {item : OrderItem}
    (hi : item ∈ items) : 1 ≤ quantityOf items item.productId := by
  induction items with
  | nil => cases hi
  | cons item' items ih =>
    have h₁ := h item' (List.mem_cons_self ..)
    have h₂ := fun i hi => h i (List.mem_cons_of_mem _ hi)
    rw [quantityOf_cons]
    rcases List.mem_cons.mp hi with rfl | hi
    · have := quantityOf_nonneg h₂ item.productId
      rw [if_pos rfl]; omega
    · have := ih h₂ hi
      split <;> omega

/-- A call that still holds its order's stock has not undone it. -/
theorem Saga.not_undoneBy (h : Saga cfg c s) {id : Uuid} (hp : (s.phase t).holding? = some id) :
    ¬ s.undoneBy t := by
  intro hu
  obtain ⟨item, hi⟩ := List.exists_mem_of_ne_nil _ (h.holdings.items t id (Phase.holding?_orderId? hp))
  have hq := quantityOf_pos (fun i hi => h.inv.tables.quantities i (List.mem_filter.mp hi).1) hi
  have hnet := h.holdings.net t item.productId
  rw [hu.1] at hnet
  have hheld : s.db.held (s.phase t) item.productId = quantityOf (s.db.itemsOf id) item.productId := by
    rw [Db.held, hp]
  rw [hheld] at hnet
  change 1 ≤ quantityOf (s.db.itemsOf id) item.productId at hq
  omega

theorem Saga.undoneBy_start (h : Saga cfg c s) (hp : s.phase t = .start) : s.undoneBy t := by
  refine ⟨fun p => ?_, fun o δ hw => ?_⟩
  · rw [h.holdings.net, hp]; rfl
  · have hleft : (s.phase t).orderId? = some o.id := h.leaves _ hw
    rw [hp] at hleft
    cases hleft

theorem Saga.undoneBy_released (h : Saga cfg c s) {id : Uuid} (hp : s.phase t = .released id) : s.undoneBy t := by
  refine ⟨fun p => ?_, fun o δ hw o' ho' => ?_⟩
  · rw [h.holdings.net, hp]; rfl
  · have hleft : (s.phase t).orderId? = some o.id := h.leaves _ hw
    obtain ⟨req, o₁, ho₁⟩ := h.inv.calls.owns t o.id hleft
    have hf := ho₁.fits
    rw [hp, Option.some.inj (ho₁.found.symm.trans ho')] at hf
    exact hf.status

/-- A call that rejects, all of whose undo commands go through, has undone
what it did exactly if nothing has failed after its authorization. -/
theorem rejected_undone_iff (h : Reachable cfg c conf) {req : CreateOrderRequest} {e : Err}
    (hj : conf.world.jobs t = some (.create req)) (ht : conf.threads t = .running (.done (.error e)))
    (hu : rejectedIn t Cmd.undoes conf.world.trace = false) :
    conf.world.undoneBy t ↔ rejectedIn t Cmd.late conf.world.trace = false := by
  have hs := h.saga
  have hend : (conf.world.loc t).Rejected := h.ended ht req hj
  rcases hend with hend | ⟨hl, hp⟩ | ⟨hl, id, hp⟩
  · rw [show rejectedIn t Cmd.undoes conf.world.trace = true from hend] at hu
    cases hu
  · refine ⟨fun _ => hl, fun _ => ?_⟩
    rcases hp with hp | ⟨id, hp⟩
    · exact hs.undoneBy_start hp
    · exact hs.undoneBy_released hp
  · have hhold : (conf.world.phase t).holding? = some id := by
      rcases hp with hp | hp | ⟨mid, hp⟩ <;> rw [show conf.world.phase t = _ from hp] <;> rfl
    refine ⟨fun hun => (hs.not_undoneBy hhold hun).elim, fun hn => ?_⟩
    rw [show rejectedIn t Cmd.late conf.world.trace = true from hl] at hn
    cases hn

/-- The channel is lost between the payment and the publish of its message. -/
def lateFailure : List SysLabel :=
  requestSteps 0 (mugRequest 0 "k") 11 ++ .env (.execute 0) :: List.replicate 6 (.run 0 .proceed) ++
    .env (.loseChannel 0) :: List.replicate 3 (.run 0 .proceed)

theorem rejected_undone_fails :
    let conf := (Catalogue.shop 3).after (.ofPool 2 .repository) lateFailure
    conf.threads 0 = .running (.done (.error channelClosed)) ∧
      rejectedIn 0 Cmd.undoes conf.world.trace = false ∧ conf.world.db.orders.map (·.status) = [.pending] ∧
      ¬ conf.world.undoneBy 0 :=
  ⟨rfl, rfl, rfl, fun hu => absurd (hu.1 0) (by decide)⟩

/-- The payment of a mug is refused. -/
def refusedSteps : List SysLabel :=
  requestSteps 0 (mugRequest 0 "k") 11 ++ .run 0 (.fail (.grpc 14)) :: List.replicate 9 (.run 0 .proceed)

/-- The call rejects once it has failed its order and given the mug back. -/
theorem rejected_undone_iff_refused :
    let conf := (Catalogue.shop 3).after (.ofPool 2 .repository) refusedSteps
    conf.world.db.orders.map (·.status) = [.failed] ∧ conf.world.undoneBy 0 := by
  intro conf
  have hj : conf.world.jobs 0 = some (.create (mugRequest 0 "k")) := rfl
  have ht : conf.threads 0 = .running (.done (.error (.http
      (serviceUnavailableError "Payments authorization failed" (.service "payments" "grpc" (some 14)))))) := rfl
  exact ⟨rfl, (rejected_undone_iff (Catalogue.reachable_after ..) hj ht rfl).mpr rfl⟩

end OrdersBackend
