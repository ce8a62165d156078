import OrdersBackend.RowLocks
import OrdersBackend.Transactions

/-!
# The procedures and their transactions

`createOrder` and `handle` keep the protocol of the rows, whatever fails.
-/

namespace OrdersBackend

open Conc Async Protocol

variable {cfg : Config} {c : Catalogue} {t u : Tid} {w w' : World} {cmd : Cmd} {ch : Choice} {α : Type}
variable {slot : Slot} {J : World → Prop}

theorem perform_of_ok {a : cmd.Res} (hx : exec cfg t cmd ch w = some (.ok a, w')) :
    perform cfg t cmd w = some (.ok a, w') := by
  rcases exec_cases hx with h | ⟨e, _, _, he, _⟩ | ⟨e, w₁, _, _, he, _⟩
  · exact h
  · cases he
  · cases he

/-- The rows a call may have when it goes for a product. -/
def Row.isMid (r : Row) : Prop := r.level = 1 ∨ r.level = 2

theorem precedes_product {r : Row} (h : r.isMid) (id : Uuid) : r.precedes (.product id) := by
  rcases h with h | h
  · left
    rw [h]
    exact Nat.one_lt_two
  · exact .inr ⟨h, rfl⟩

theorem precedes_orderKey {r : Row} (h : r.isMid) (userId : Uuid) (key : String) :
    r.precedes (.orderKey userId key) := by
  left
  rcases h with h | h
  · rw [h]
    show 1 < 3
    decide
  · rw [h]
    show 2 < 3
    decide

theorem rows_of_productRow {id : Uuid} (h : cmd.productRow = some id) (w : World) :
    cmd.locks = true ∧ cmd.rows w = [.product id] ∧ cmd.Names t w := by
  cases cmd with
  | lockProduct | saveStock | incrementStock =>
    cases h
    exact ⟨rfl, rfl, trivial⟩
  | _ => cases h

/-- Statements on products, and reads. -/
theorem steady_products (hJ : Lasts t J) {p : Api α}
    (hp : p.Issues fun cmd => cmd.rowless = true ∨ ∃ id, cmd.productRow = some id) :
    TxSteady cfg t (fun w => Open t slot Row.isMid w ∧ J w) p := by
  have hI : OfThread t fun w => Open t slot Row.isMid w ∧ J w := ofThread_open.and hJ.ofThread
  refine steady_issues hI (fun cmd w hc hw _ => ?_) (fun cmd ch r w w' hc hw hx => ⟨trivial, ?_⟩) hp
  · rcases hc with hc | ⟨id, hc⟩
    · exact mayIssue_rowless hc w
    · obtain ⟨hl, hrows, hnames⟩ := rows_of_productRow (t := t) hc w
      refine ⟨fun _ => hw.1.opened, fun he => ?_, fun _ _ _ => hw.1.sound, fun hwait => ?_, fun row hr => ?_, hnames⟩
      · rw [he] at hl
        cases hl
      · rw [waits_of_locks hl] at hwait
        cases hwait
      · rw [hrows, List.mem_singleton] at hr
        subst hr
        exact .inr (.inr fun r hr => precedes_product (hw.1.held r hr) id)
  · rcases hc with hc | ⟨id, hc⟩
    · exact hI w w' hw (intact_exec (plain_of_rowless hc) hx)
    · obtain ⟨hl, hrows, _⟩ := rows_of_productRow (t := t) hc w
      obtain ⟨htx, hlocks⟩ := exec_acquires hl hx
      refine ⟨hw.1.of_tx htx fun row hr => ?_, hJ.exec hw.2 hx⟩
      rcases (hlocks row).mp hr with hold | ⟨_, hnew⟩
      · exact hw.1.held row hold
      · rw [hrows, List.mem_singleton] at hnew
        subst hnew
        exact .inr rfl

/-- The transaction is open, and the order is the thread's. -/
def OwnsOrder (t : Tid) (id : Uuid) (w : World) : Prop :=
  Open t .qr (fun _ => True) w ∧ w.locks (.order id) = some t

theorem ofThread_ownsOrder (id : Uuid) : OfThread t (OwnsOrder t id) := ofThread_open.and (ofThread_locked _)

/-- The statements on an order that the thread has locked. -/
def Cmd.onOrder (id : Uuid) : Cmd → Bool
  | .insertItem id' _ _ _ | .saveProcessed id' => id' = id
  | _ => false

theorem rows_of_onOrder {id : Uuid} (h : cmd.onOrder id = true) (w : World) :
    cmd.locks = true ∧ cmd.rows w = [.order id] ∧ (w.locks (.order id) = some t → cmd.Names t w) := by
  cases cmd with
  | insertItem | saveProcessed =>
    obtain rfl := of_decide_eq_true h
    exact ⟨rfl, rfl, id⟩
  | _ => cases h

theorem steady_onOrder {id : Uuid} (hJ : Lasts t J) {p : Api α}
    (hp : p.Issues fun cmd => cmd.rowless = true ∨ cmd.onOrder id = true) :
    TxSteady cfg t (fun w => OwnsOrder t id w ∧ J w) p := by
  have hI : OfThread t fun w => OwnsOrder t id w ∧ J w := (ofThread_ownsOrder id).and hJ.ofThread
  refine steady_issues hI (fun cmd w hc hw _ => ?_) (fun cmd ch r w w' hc hw hx => ⟨trivial, ?_⟩) hp
  · rcases hc with hc | hc
    · exact mayIssue_rowless hc w
    · obtain ⟨hl, hrows, hnames⟩ := rows_of_onOrder (t := t) hc w
      refine ⟨fun _ => hw.1.1.opened, fun he => ?_, fun _ _ _ => hw.1.1.sound, fun hwait => ?_, fun row hr => ?_,
        hnames hw.1.2⟩
      · rw [he] at hl
        cases hl
      · rw [waits_of_locks hl] at hwait
        cases hwait
      · rw [hrows, List.mem_singleton] at hr
        subst hr
        exact .inl hw.1.2
  · rcases hc with hc | hc
    · exact hI w w' hw (intact_exec (plain_of_rowless hc) hx)
    · obtain ⟨htx, hlocks⟩ := exec_acquires (rows_of_onOrder (t := t) hc w).1 hx
      exact ⟨⟨hw.1.1.of_tx htx fun _ _ => trivial, (hlocks _).mpr (.inl hw.1.2)⟩, hJ.exec hw.2 hx⟩

/-! ## `createOrder` -/

theorem issues_lockProducts (ids : List Uuid) : ∀ products : List Product,
    (lockProducts ids products).Issues fun cmd => cmd.rowless = true ∨ ∃ id, cmd.productRow = some id := by
  induction ids with
  | nil => exact fun _ => issues_done _
  | cons id ids ih => exact fun products => issues_bind (issues_call (.inr ⟨id, rfl⟩)) fun product => ih _

theorem issues_saveProducts (byId : JsMap Uuid Product) (entries : List (Uuid × Int)) :
    (saveProducts byId entries).Issues fun cmd => cmd.rowless = true ∨ ∃ id, cmd.productRow = some id := by
  refine issues_forEach (fun entry => ?_) entries
  split
  · exact issues_done _
  · exact issues_call (.inr ⟨_, rfl⟩)

theorem issues_saveItems (byId : JsMap Uuid Product) (order : Order) (inputs : List OrderItemInput) :
    (saveItems byId order inputs).Issues fun cmd => cmd.rowless = true ∨ cmd.onOrder order.id = true := by
  refine issues_forEach (fun input => ?_) inputs
  split
  · exact issues_done _
  · exact issues_call (.inr (decide_eq_true rfl))

theorem insertOrder_ok {userId : Uuid} {key : String} {order : Order}
    (h : perform cfg t (.insertOrder userId key) w = some (.ok order, w')) :
    order.id = w.uuids ∧ w'.uuids = w.uuids + 1 := by
  simp only [perform] at h
  split at h
  · split at h
    · cases h
    · obtain ⟨hs, he⟩ := stmt_map h
      cases he
      exact ⟨rfl, (stmt_tx hs).2.1⟩
  · cases h

/-- How a stage inside the `try` of the query runner may end. -/
def Leaves (t : Tid) (J : α → World → Prop) : Except Err α → World → Prop
  | .ok a, w => Clean t w ∧ J a w
  | .error _, w => Failing t w

theorem tx_reserve (actor : RequestUser) (dto : CreateOrderDto) (key : String)
    (hw : Open t .qr (fun _ => False) w) :
    TxWp cfg t (reserve actor dto key) (Leaves t fun r w => r.1.id < w.uuids) w := by
  have hT : Lasts t fun _ => True := fun _ _ _ _ _ => trivial
  have hselect : ∀ ids, (selectProductsForUpdate ids).Issues
      fun cmd => cmd.rowless = true ∨ ∃ id, cmd.productRow = some id := fun ids =>
    issues_bind (issues_call (.inl rfl)) fun rows => issues_lockProducts rows []
  refine wp_bind _ (wp_mono _ (fun r w₁ hw₁ => ?_) (steady_products hT (hselect _) w ⟨hw.mono nofun, trivial⟩))
  cases r with
  | error e => exact hw₁.1.failing
  | ok products =>
    refine wp_check _ (fun _ _ => hw₁.1.failing) fun plan _ => ?_
    refine wp_bind _ (wp_mono _ (fun r w₂ hw₂ => ?_) (steady_products hT (issues_saveProducts _ _) w₁ hw₁))
    cases r with
    | error e => exact hw₂.1.failing
    | ok _ =>
      refine wp_bind _ (wp_lock hT (fun _ => True) rfl hw₂ (fun w' _ row hr => ?_) (fun _ _ => trivial)
        (fun _ _ _ => trivial) (fun order w' w₃ hp hw₃ hlocked => ?_) fun e w₃ hw₃ => hw₃.1.failing)
      · simp only [Cmd.rows, List.mem_cons, List.not_mem_nil, or_false] at hr
        rcases hr with rfl | rfl
        · exact .inr fun r hr => precedes_orderKey hr _ _
        · exact .inl rfl
      · obtain ⟨hid, huuids⟩ := insertOrder_ok hp
        have hown : OwnsOrder t order.id w₃ := ⟨hw₃.1, hlocked _ (by simp [Cmd.rows, hid])⟩
        have hnew : order.id < w₃.uuids := by
          rw [hid, huuids]
          exact Nat.lt_succ_self _
        have hJ : Lasts t fun w => order.id < w.uuids := lasts_uuid order.id
        refine wp_bind _ (wp_mono _ (fun r w₄ hw₄ => ?_) (steady_onOrder hJ (issues_saveItems _ order _) w₃ ⟨hown, hnew⟩))
        cases r with
        | error e => exact hw₄.1.1.failing
        | ok _ =>
          exact wp_bind _ (wp_commitTx hJ (ofThread_ownsOrder order.id) hw₄ (fun w₅ hw₅ => hw₅)
            fun e w₅ hw₅ => hw₅.1.failing)

theorem tx_transaction (hJ : Lasts t J) {body : Api Unit} (hw : Clean t w ∧ J w)
    (hbody : ∀ w, Open t .em (fun _ => False) w ∧ J w → TxWp cfg t body (fun r w' => match r with
      | .ok _ => (∃ may, Open t .em may w') ∧ J w'
      | .error _ => Undoable t w') w) : TxWp cfg t (transaction body) (fun _ w' => Closed t w') w := by
  have hclean : OfThread t fun w => Clean t w ∧ J w := ofThread_clean.and hJ.ofThread
  refine wp_bind _ (wp_mono _ (fun r w₁ hw₁ => ?_)
    (steady_closed_call hclean (fun _ h => h.1.closed) rfl w hw))
  cases r with
  | error e => exact hw₁.1.closed
  | ok _ =>
    refine wp_tryFinally _ (wp_mono _ (fun r w₂ hw₂ => ?_) (?_ : TxWp cfg t _ (fun _ w' => Closed t w') w₁))
    · refine wp_mono _ (fun r' w₃ hw₃ => ?_) (steady_closed_call ofThread_closed (fun _ h => h) rfl w₂ hw₂)
      cases r' <;> exact hw₃
    refine wp_tryCatch _ (wp_mono _ (Q := fun r w' => match r with
      | .ok _ => Closed t w'
      | .error _ => Undoable t w') (fun r w₂ hw₂ => ?_) ?_)
    · cases r with
      | ok _ => exact hw₂
      | error e =>
        refine wp_bind _ (wp_tryCatch _ (wp_rollbackTx (J := fun _ => True) (fun _ _ _ _ _ => trivial)
          ofThread_undoable ⟨hw₂, trivial⟩ (fun _ h => h) nofun fun r w₃ hw₃ => ?_))
        cases r <;> exact hw₃.1
    · refine wp_bind _ (wp_begin hJ hw₁ (fun w₂ hw₂ => ?_) fun e w₂ hw₂ => hw₂.1.undoable)
      refine wp_bind _ (wp_mono _ (fun r w₃ hw₃ => ?_) (hbody w₂ hw₂))
      cases r with
      | error e => exact hw₃
      | ok _ =>
        obtain ⟨⟨may, hopen⟩, hj⟩ := hw₃
        exact wp_commitTx hJ ofThread_open ⟨hopen, hj⟩ (fun _ h => h.1.closed) fun _ _ h => h.1.undoable

theorem tx_failOrder (orderId : Uuid) (hw : Clean t w ∧ orderId < w.uuids) :
    TxWp cfg t (failOrderAndReleaseStock orderId) (fun _ w' => Closed t w') w := by
  have hJ : Lasts t fun w => orderId < w.uuids := lasts_uuid orderId
  refine tx_transaction hJ hw fun w₁ hw₁ => ?_
  refine wp_bind _ (wp_tx (ofThread_open.and hJ.ofThread) hw₁ (fun w' _ _ => mayIssue_rowless rfl w')
    fun ch r w' w'' hw' _ hx => ?_)
  have hw'' := (ofThread_open.and hJ.ofThread) w' w'' hw' (intact_exec rfl hx)
  cases r with
  | error e => exact hw''.1.undoable
  | ok found =>
    cases found with
    | none => exact ⟨⟨_, hw''.1⟩, hw''.2⟩
    | some found =>
      obtain ⟨order, items⟩ := found
      have hid : order.id = orderId := by
        have h := perform_of_ok hx
        simp only [perform, Db.withItems, Option.some.injEq, Prod.mk.injEq, Except.ok.injEq] at h
        obtain ⟨o, ho, he⟩ := Option.map_eq_some_iff.mp h.1
        cases he
        exact Db.order?_id ho
      simp only
      split
      · exact ⟨⟨_, hw''.1⟩, hw''.2⟩
      · refine wp_bind _ (wp_lock hJ Row.isMid rfl hw'' (fun _ _ _ _ => .inr fun _ hr => hr.elim) (fun w hw => hid ▸ hw)
          (fun w row hr => ?_) (fun a w w₂ _ hw₂ _ => ?_) fun e w hw => hw.1.undoable)
        · rcases hr with hr | hr
          · exact hr.elim
          · cases List.mem_singleton.mp hr
            exact .inl rfl
        · refine wp_mono _ (fun r w₃ hw₃ => ?_) (steady_products hJ (issues_forEach (fun item => ?_) items) w₂ hw₂)
          · cases r with
            | ok _ => exact ⟨⟨_, hw₃.1⟩, hw₃.2⟩
            | error e => exact hw₃.1.undoable
          · exact issues_call (.inr ⟨_, rfl⟩)

theorem tx_settle (order : Order) (plan : OrderPlan) (key : String) (hw : Clean t w ∧ order.id < w.uuids) :
    TxWp cfg t (settle cfg order plan key) (fun _ w' => Closed t w') w := by
  have hI : OfThread t fun w => Clean t w ∧ order.id < w.uuids := ofThread_clean.and (ofThread_uuid order.id)
  have hauth : (authorize (authorizeRequest cfg order plan key)).Issues fun cmd => cmd.plain = true :=
    issues_bind (issues_call rfl) fun _ => issues_call rfl
  refine wp_bind _ (wp_tryCatch _ (wp_mono _ (fun r w₁ hw₁ => ?_)
    (steady_closed hI (fun _ h => h.1.closed) hauth w hw)))
  cases r with
  | error e =>
    refine wp_bind _ (wp_mono _ (fun r w₂ hw₂ => ?_) (tx_failOrder order.id hw₁))
    cases r <;> exact hw₂
  | ok payment =>
    have hc : ∀ w : World, Closed t w → Closed t w := fun _ h => h
    refine steady_bind (steady_withConnection ofThread_closed hc (steady_closed_call ofThread_closed hc rfl))
      (fun _ => steady_bind (steady_closed ofThread_closed hc ?_) fun _ => steady_done _) w₁ hw₁.1.closed
    exact issues_bind (issues_call rfl) fun _ => issues_bind (issues_call rfl) fun _ =>
      issues_bind (issues_call rfl) fun _ => issues_done _

/-- How what stands in the `try` of a query runner may end. -/
def Ends (t : Tid) (r : Except Err α) (w : World) : Prop :=
  match r with
  | .ok _ => Closed t w
  | .error _ => Failing t w

theorem Ends.of_closed {r : Except Err α} (h : Closed t w) : Ends t r w := by
  cases r with
  | ok _ => exact h
  | error e => exact h.failing

theorem tx_createOrderTry (actor : RequestUser) (dto : CreateOrderDto) (key : String)
    (hw : Open t .qr (fun _ => False) w) : TxWp cfg t (createOrderTry cfg actor dto key) (Ends t) w := by
  have hT : Lasts t fun _ => True := fun _ _ _ _ _ => trivial
  refine wp_bind _ (wp_mono _ (fun r w₁ hw₁ => ?_) (steady_rowless_call ofThread_open rfl w hw))
  cases r with
  | error e => exact hw₁.failing
  | ok user =>
    cases user with
    | none => exact hw₁.failing
    | some user =>
      refine wp_bind _ (wp_mono _ (fun r w₂ hw₂ => ?_) (steady_rowless_call ofThread_open rfl w₁ hw₁))
      cases r with
      | error e => exact hw₂.failing
      | ok existing =>
        cases existing with
        | some existing =>
          exact wp_bind _ (wp_commitTx hT ofThread_open ⟨hw₂, trivial⟩ (fun w₃ hw₃ => hw₃.1.closed)
            fun e w₃ hw₃ => hw₃.1.failing)
        | none =>
          refine wp_bind _ (wp_mono _ (fun r w₃ hw₃ => ?_) (tx_reserve actor dto key hw₂))
          cases r with
          | error e => exact hw₃
          | ok r => exact wp_mono _ (fun r' w₄ hw₄ => .of_closed hw₄) (tx_settle r.1 r.2 key hw₃)

theorem tx_createOrderCatch (actor : RequestUser) (key : String) (e : Err) (hw : Failing t w) :
    TxWp cfg t (createOrderCatch actor key e) (fun _ w' => Closed t w') w := by
  have hT : Lasts t fun _ => True := fun _ _ _ _ _ => trivial
  have hrollback : TxWp cfg t rollbackIfActive (fun _ w' => Closed t w') w := by
    refine wp_bind _ (wp_tx ofThread_failing hw (fun w' _ _ => mayIssue_rowless rfl w') fun ch r w' w'' hw' _ hx => ?_)
    rcases exec_cases hx with h | ⟨e, hf, _⟩ | ⟨e, w₁, _, h₁, _⟩
    · cases h
      cases hactive : (w'.sess t).active with
      | true =>
        exact wp_rollbackTx hT ofThread_failing ⟨hw', trivial⟩ (fun _ h => h.undoable) (fun _ _ h => h)
          fun r w₁ hw₁ => hw₁.1
      | false =>
        cases hopen : (w'.tx t).isOpen with
        | false => exact hopen
        | true =>
          have hactive' : (w'.sess t).active = true := (hw' hopen).1
          rw [hactive] at hactive'
          cases hactive'
    · cases hf
    · cases h₁
  refine wp_bind _ (wp_mono _ (fun r w₁ hw₁ => ?_) hrollback)
  cases r with
  | error e => exact hw₁
  | ok _ =>
    simp only
    split
    · have hc : ∀ w : World, Closed t w → Closed t w := fun _ h => h
      refine steady_bind (steady_withConnection ofThread_closed hc (steady_closed_call ofThread_closed hc rfl))
        (fun found => ?_) w₁ hw₁
      cases found with
      | some existing => exact steady_done _
      | none => exact steady_done _
    · exact hw₁

/-- A query runner whose `catch` and `finally` close what its body leaves open. -/
theorem tx_queryRunner {p : Pool} (hJ : Lasts t J) {body : Api α} (hw : Clean t w ∧ J w)
    (hbody : ∀ w', Open t .qr (fun _ => False) w' ∧ J w' → TxWp cfg t body (fun _ w'' => Closed t w'') w') :
    TxWp cfg t (do
      issue (.connect p)
      issue (.startTransaction .qr)
      tryFinally body (issue (.release p))) (fun _ w' => Closed t w') w := by
  refine wp_bind _ (wp_mono _ (fun r w₁ hw₁ => ?_)
    (steady_closed_call (ofThread_clean.and hJ.ofThread) (fun _ h => h.1.closed) rfl w hw))
  cases r with
  | error e => exact hw₁.1.closed
  | ok _ =>
    refine wp_bind _ (wp_begin hJ hw₁ (fun w₂ hw₂ => ?_) fun e w₂ hw₂ => hw₂.1)
    refine wp_tryFinally _ (wp_mono _ (fun r w₃ hw₃ => ?_) (hbody w₂ hw₂))
    refine wp_mono _ (fun r' w₄ hw₄ => ?_) (steady_rowless_call ofThread_closed rfl w₃ hw₃)
    cases r' <;> exact hw₄

theorem tx_createOrder (hw : Clean t w) (actor : RequestUser) (dto : CreateOrderDto) (key : String) :
    TxWp cfg t (createOrder cfg actor dto key) (fun _ w' => Closed t w') w := by
  unfold createOrder
  split
  · exact hw.closed
  split
  · exact hw.closed
  refine tx_queryRunner (J := fun _ => True) (fun _ _ _ _ _ => trivial) ⟨hw, trivial⟩ fun w' hw' => ?_
  refine wp_tryCatch _ (wp_mono _ (fun r w'' hr => ?_) (tx_createOrderTry actor dto key hw'.1))
  cases r with
  | ok _ => exact hr
  | error e => exact tx_createOrderCatch actor key e hr

/-! ## `handle` -/

theorem rows_insertProcessed {mid oid : Option Uuid} {handler : String} {row : Row}
    (h : row ∈ (Cmd.insertProcessed mid oid handler).rows w) : ∃ mid, row = .message mid := by
  cases mid with
  | none => cases h
  | some mid =>
    cases oid with
    | none => cases h
    | some oid => exact ⟨mid, List.mem_singleton.mp h⟩

theorem rows_lockOrder {id : Option Uuid} {row : Row} (h : row ∈ (Cmd.lockOrder id).rows w) : ∃ id, row = .order id := by
  cases id with
  | none => cases h
  | some id => exact ⟨id, List.mem_singleton.mp h⟩

theorem rows_of_lockedOrder {id : Option Uuid} {order : Order}
    (h : perform cfg t (.lockOrder id) w = some (.ok (some order), w')) :
    .order order.id ∈ (Cmd.lockOrder id).rows w := by
  cases id with
  | none => cases h
  | some id =>
    simp only [perform] at h
    split at h
    · simp only [Option.some.injEq, Prod.mk.injEq, Except.ok.injEq] at h
      rw [Db.order?_id h.1]
      exact List.mem_singleton_self _
    · cases h

theorem content_of_parse {m : Message} {payload : OrdersProcessMessage} (h : parse m = .ok payload) :
    m.content = .value payload := by
  unfold parse at h
  split at h
  · cases h
  · cases h
  · rename_i hm
    cases h
    exact hm

theorem tx_handleTry {m : Message} {payload : OrdersProcessMessage} (hm : m.content = .value payload)
    (hw : Open t .qr (fun _ => False) w ∧ w.jobs t = some (.deliver m)) :
    TxWp cfg t (handleTry payload) (Ends t) w := by
  have hJ := lasts_job (t := t) m
  have hend : ∀ w, Open t .qr (fun _ => True) w ∧ w.jobs t = some (.deliver m) →
      TxWp cfg t (do issue (.commitTransaction .qr); issue .ack) (Ends t) w := by
    intro w hw
    refine wp_bind _ (wp_commitTx hJ ofThread_open hw (fun w₁ hw₁ => ?_) fun e w₁ hw₁ => hw₁.1.failing)
    exact wp_mono _ (fun r w₂ hw₂ => .of_closed hw₂) (steady_rowless_call ofThread_closed rfl w₁ hw₁.1.closed)
  refine wp_bind _ (wp_lock hJ (fun row => row.level = 0) rfl hw (fun _ _ _ _ => .inr fun _ hr => hr.elim)
    (fun _ _ => trivial) (fun w' row hr => ?_) (fun _ w' w₁ _ hw₁ _ => ?_) fun e w₁ hw₁ => hw₁.1.failing)
  · rcases hr with hr | hr
    · exact hr.elim
    · obtain ⟨mid, rfl⟩ := rows_insertProcessed hr
      rfl
  · refine wp_bind _ (wp_lock hJ (fun _ => True) rfl hw₁ (fun w' _ row hr => ?_) (fun w' hw' => ?_)
      (fun _ _ _ => trivial) (fun order w' w₂ hp hw₂ hlocked => ?_) fun e w₂ hw₂ => hw₂.1.failing)
    · obtain ⟨id, rfl⟩ := rows_lockOrder hr
      refine .inr fun r hr' => .inl ?_
      rw [hr']
      exact Nat.zero_lt_one
    · cases hid : payload.orderId with
      | none => trivial
      | some id => exact ⟨m, payload, hw', hm, hid⟩
    · cases order with
      | none => exact hw₂.1.failing
      | some order =>
        simp only
        split
        · exact hend w₂ hw₂
        · have hown : OwnsOrder t order.id w₂ := ⟨hw₂.1, hlocked _ (rows_of_lockedOrder hp)⟩
          refine wp_bind _ (wp_mono _ (fun r w₃ hw₃ => ?_) (steady_onOrder hJ (issues_call (.inl rfl)) w₂ ⟨hown, hw₂.2⟩))
          cases r with
          | error e => exact hw₃.1.1.failing
          | ok _ =>
            have hsave : (issue (.saveProcessed order.id)).Issues
                fun cmd => cmd.rowless = true ∨ cmd.onOrder order.id = true := issues_call (.inr (decide_eq_true rfl))
            refine wp_bind _ (wp_mono _ (fun r w₄ hw₄ => ?_) (steady_onOrder hJ hsave w₃ hw₃))
            cases r with
            | error e => exact hw₄.1.1.failing
            | ok _ => exact hend w₄ ⟨hw₄.1.1, hw₄.2⟩

theorem tx_handleCatch (payload : OrdersProcessMessage) (e : Err) (hw : Failing t w) :
    TxWp cfg t (handleCatch cfg payload e) (fun _ w' => Closed t w') w := by
  have hrollback : ∀ {p : Api Unit}, TxSteady cfg t (Closed t) p →
      TxWp cfg t (do issue (.rollbackTransaction .qr); p) (fun _ w' => Closed t w') w := by
    intro p hp
    refine wp_bind _ (wp_rollbackTx (J := fun _ => True) (fun _ _ _ _ _ => trivial) ofThread_failing ⟨hw, trivial⟩
      (fun _ h => h.undoable) (fun _ _ h => h) fun r w₁ hw₁ => ?_)
    cases r with
    | error e => exact hw₁.1
    | ok _ => exact hp w₁ hw₁.1
  unfold handleCatch
  split
  · exact hrollback (steady_rowless_call ofThread_closed rfl)
  · refine hrollback (steady_rowless ofThread_closed (issues_bind (issues_done _) fun attempt => ?_))
    split
    · exact issues_bind (issues_call rfl) fun _ => issues_call rfl
    · exact issues_bind (issues_call rfl) fun _ => issues_call rfl

theorem tx_onMessage {m : Message} (hw : Clean t w ∧ w.jobs t = some (.deliver m)) :
    TxWp cfg t (onMessage cfg m) (fun _ w' => Closed t w') w := by
  have hhandle : TxWp cfg t (handle cfg m) (fun _ w' => Closed t w') w := by
    refine wp_check _ (fun e _ => hw.1.closed) fun payload hpayload => ?_
    refine tx_queryRunner (lasts_job m) hw fun w' hw' => ?_
    refine wp_tryCatch _ (wp_mono _ (fun r w'' hr => ?_) (tx_handleTry (content_of_parse hpayload) hw'))
    cases r with
    | ok _ => exact hr
    | error e => exact tx_handleCatch payload e hr
  refine wp_tryCatch _ (wp_mono _ (fun r w' hw' => ?_) hhandle)
  cases r with
  | ok _ => exact hw'
  | error e => exact steady_rowless_call ofThread_closed rfl w' hw'

/-! ## Runs -/

theorem tx_arrive (t : Tid) (arr : Arrival) (w : World) (p : Api Reply) (w' : World)
    (_ : (transactions cfg).allows (.spawn t arr)) (_ : (transactions cfg).inv w) (hw : Clean t w)
    (h : (machine cfg).spawn t arr w = some (p, w')) : TxWp cfg t p ((transactions cfg).post t) w' := by
  obtain ⟨_, s, rfl, _, _, _, hp⟩ := arrive_cases h
  have hclean : Clean t { w with toShared := s } := hw
  rcases hp with ⟨req, rfl, _⟩ | ⟨msg, rfl, hjob⟩
  · refine wp_bind _ (wp_mono _ (fun r w₁ hw₁ => ?_) (tx_createOrder hclean req.actor req.dto req.idempotencyKey))
    cases r <;> exact hw₁
  · refine wp_bind _ (wp_mono _ (fun r w₁ hw₁ => ?_) (tx_onMessage (m := msg) ⟨hclean, hjob⟩))
    cases r <;> exact hw₁

variable {conf : SysConf}

theorem Reachable.transactions (h : Reachable cfg c conf) :
    (transactions cfg).Good conf ∧ (∀ t, conf.threads t = .idle → Clean t conf.world) ∧
      ∀ t, conf.threads t = .killed → Closed t conf.world := by
  apply (OrdersBackend.transactions cfg).sound_threads _ _ _ tx_arrive _ _ _ (h.when fun _ _ => trivial)
  · exact fun t => ofThread_clean
  · exact fun t => ofThread_closed
  · intro t w _
    simp [Closed, World.tx, machine, World.kill, World.setSession, Session.init]
  · refine ⟨⟨fun _ ws hlog => ?_, fun _ row hr => ?_⟩, fun _ p hp => ?_⟩
    · cases hlog
    · cases hr
    · cases hp
  · intro t _
    exact ⟨rfl, rfl⟩
  · intro t ht
    cases ht

/-- Only a procedure that is under way has a transaction open. -/
theorem Reachable.running_of_open (h : Reachable cfg c conf) (ht : (conf.world.tx t).isOpen = true) :
    ∃ cmd k, conf.threads t = .running (.await cmd k) ∧ cmd.waits = false := by
  obtain ⟨hgood, hidle, hkilled⟩ := h.transactions
  have hnot : ¬Closed t conf.world := fun hc => by
    rw [hc] at ht
    cases ht
  cases hth : conf.threads t with
  | idle => exact (hnot (hidle t hth).closed).elim
  | killed => exact (hnot (hkilled t hth)).elim
  | running p =>
    cases p with
    | done r => exact (hnot (hgood.post hth)).elim
    | await cmd k =>
      exact ⟨cmd, k, rfl, Bool.eq_false_iff.mpr fun hw => hnot ((hgood.pre hth).outside hw)⟩

/-- A transaction is open only in a procedure that is under way, and not while
that waits for a connection or for the payments service. Rows are locked in
open transactions only, and nothing is written in one but in rows it has
locked. -/
theorem transactions_bounded (h : Reachable cfg c conf) :
    (∀ t, (conf.world.sess t).log.isSome →
      ∃ cmd k, conf.threads t = .running (.await cmd k) ∧ cmd.waits = false) ∧
    (∀ t row, conf.world.locks row = some t → (conf.world.sess t).log.isSome) ∧
    ∀ t ws, (conf.world.sess t).log = some ws → ∀ wr ∈ ws, ∀ row ∈ wr.rows, conf.world.locks row = some t := by
  have hgood := h.transactions.1
  exact ⟨fun t ht => h.running_of_open ht, hgood.1.opened, hgood.1.logs⟩

/-- A mug is locked while it is reserved. -/
theorem transactions_bounded_mug :
    let conf := (Catalogue.shop 3).after (.ofPool 2 .repository) (requestSteps 0 (mugRequest 0 "k") 6)
    conf.world.locks (.product 0) = some 0 ∧ (conf.world.sess 0).log.isSome := by
  intro conf
  have hlocked : conf.world.locks (.product 0) = some 0 := by decide
  exact ⟨hlocked, (transactions_bounded (Catalogue.reachable_after (.ofPool 2 .repository) (.shop 3)
    (requestSteps 0 (mugRequest 0 "k") 6))).2.1 0 _ hlocked⟩

end OrdersBackend
