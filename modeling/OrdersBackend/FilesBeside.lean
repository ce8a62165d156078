import OrdersBackend.CompletionRaces
import OrdersBackend.Lib.Beside
import OrdersBackend.Mailbox
import OrdersBackend.SystemSound

/-!
# The orders beside the files

The process that takes the orders also serves the files. No order procedure
looks at the image of a product, and the files change nothing else of what the
orders see: without the images, the orders of that process refine the saga as
they do on their own.
-/

namespace OrdersBackend

open Conc Async

variable {cfg : Config} {fc : FilesConfig} {c : Catalogue} {t : Tid}

/-! ## Without images -/

def Product.unpictured (p : Product) : Product := { p with imageFileId := none }

def Db.unpictured (db : Db) : Db := { db with products := db.products.map Product.unpictured }

def Shared.unpictured (s : Shared) : Shared := { s with db := s.db.unpictured }

def World.unpictured (w : World) : World := { w with toShared := w.toShared.unpictured }

def Catalogue.unpictured (c : Catalogue) : Catalogue where
  users := c.users
  products := c.products.map Product.unpictured
  productIds := by
    rw [List.map_map]
    exact c.productIds
  stockNonneg p hp := by
    obtain ⟨q, hq, rfl⟩ := List.mem_map.mp hp
    exact c.stockNonneg q hq

theorem product?_unpictured (db : Db) (id : Uuid) :
    db.unpictured.product? id = (db.product? id).map Product.unpictured := List.find?_map ..

theorem updateProduct_unpictured (db : Db) (id : Uuid) {f : Product → Product}
    (hf : ∀ p, (f p).unpictured = f p.unpictured) :
    (db.updateProduct id f).unpictured = db.unpictured.updateProduct id f := by
  have hrow : ∀ p : Product, (if p.id = id then f p else p).unpictured =
      if p.unpictured.id = id then f p.unpictured else p.unpictured := by
    intro p
    show _ = if p.id = id then _ else _
    split
    · exact hf p
    · rfl
  simp only [Db.updateProduct, Db.unpictured, List.map_map]
  congr 1
  exact List.map_congr_left fun p _ => hrow p

theorem apply_unpictured (db : Db) (wr : Write) : (wr.apply db).unpictured = wr.apply db.unpictured := by
  cases wr with
  | stock p n => exact updateProduct_unpictured db p fun _ => rfl
  | addStock p q => exact updateProduct_unpictured db p fun _ => rfl
  | _ => rfl

theorem applyAll_unpictured (ws : List Write) (db : Db) :
    (db.applyAll ws).unpictured = db.unpictured.applyAll ws := by
  induction ws generalizing db with
  | nil => rfl
  | cons wr ws ih => exact (ih (wr.apply db)).trans (congrArg (Db.applyAll · ws) (apply_unpictured db wr))

theorem delta_unpictured (db : Db) (wr : Write) : wr.delta db.unpictured = wr.delta db := by
  cases wr with
  | stock p n | addStock p n =>
    simp only [Write.delta, product?_unpictured]
    cases db.product? p <;> rfl
  | _ => rfl

theorem write_unpictured (t : Tid) (s : Shared) (wr : Write) :
    s.unpictured.write t wr = (s.write t wr).unpictured := by
  simp only [Shared.write, Shared.unpictured, apply_unpictured, delta_unpictured]

theorem commit_unpictured (t : Tid) (ws : List Write) (s : Shared) :
    s.unpictured.commit t ws = (s.commit t ws).unpictured := by
  induction ws generalizing s with
  | nil => rfl
  | cons wr ws ih => exact (congrArg (Shared.commit t ws) (write_unpictured t s wr)).trans (ih (s.write t wr))

theorem toShared_unpictured (w : World) : w.unpictured.toShared = w.toShared.unpictured := rfl

namespace World

variable (w : World)

@[simp] theorem sess_unpictured : w.unpictured.sess = w.sess := rfl

@[simp] theorem rpc_unpictured : w.unpictured.rpc = w.rpc := rfl

@[simp] theorem broker_unpictured : w.unpictured.broker = w.broker := rfl

@[simp] theorem jobs_unpictured : w.unpictured.jobs = w.jobs := rfl

@[simp] theorem nextUuid_unpictured : w.unpictured.nextUuid = w.nextUuid.unpictured := rfl

end World

theorem view_unpictured (t : Tid) (w : World) : w.unpictured.view t = (w.view t).unpictured := by
  simp only [World.view, World.sess_unpictured]
  cases (w.sess t).log with
  | none => rfl
  | some ws => exact (applyAll_unpictured ws w.db).symm

theorem foldl_lock_unpictured (t : Tid) (rows : List Row) (w : World) :
    rows.foldl (World.lock t) w.unpictured = (rows.foldl (World.lock t) w).unpictured := by
  induction rows generalizing w with
  | nil => rfl
  | cons r rows ih => exact ih (w.lock t r)

theorem stmt_unpictured (t : Tid) (wr : Write) (w : World) :
    w.unpictured.stmt t wr = (w.stmt t wr).map World.unpictured := by
  simp only [World.stmt, foldl_lock_unpictured]
  show (if wr.rows.all (w.lockable t) then _ else none) = _
  split <;> rfl

theorem commitTx_unpictured (t : Tid) (ws : List Write) (active broken : Bool) (w : World) :
    w.unpictured.commitTx t ws active broken = (w.commitTx t ws active broken).unpictured := by
  unfold World.commitTx
  rw [toShared_unpictured, commit_unpictured]
  rfl

theorem publish_unpictured (t : Tid) (rk : RoutingKey) (msg : Message) (w : World) :
    w.unpictured.toShared.publish t rk msg = (w.toShared.publish t rk msg).unpictured := by
  simp only [Shared.publish, World.broker_unpictured]
  cases w.broker.channel t <;> rfl

theorem ack_unpictured (t : Tid) (w : World) : w.unpictured.toShared.ack t = (w.toShared.ack t).unpictured := by
  simp only [Shared.ack, World.broker_unpictured]
  cases w.broker.channel t with
  | lost => rfl
  | ready unacked => cases unacked <;> rfl

theorem nack_unpictured (t : Tid) (w : World) : w.unpictured.toShared.nack t = (w.toShared.nack t).unpictured := by
  simp only [Shared.nack, World.broker_unpictured]
  cases w.broker.channel t with
  | lost => rfl
  | ready unacked => cases unacked <;> rfl

/-! ## Commands -/

/-- What a result is without images. -/
def Cmd.blur : (c : Cmd) → c.Res → c.Res
  | .lockProduct _, product => product.map Product.unpictured
  | _, r => r

def blurred {c : Cmd} (rw : Except Err c.Res × World) : Except Err c.Res × World :=
  (rw.1.map c.blur, rw.2.unpictured)

theorem perform_unpictured (t : Tid) (cmd : Cmd) (w : World) :
    perform cfg t cmd w.unpictured = (perform cfg t cmd w).map blurred := by
  cases cmd with
  | connect p =>
    simp only [perform]
    show (if (w.pool p).length < cfg.poolSize p then _ else none) = _
    split <;> rfl
  | acquire use =>
    simp only [perform]
    show (if (w.pool .api).length < cfg.poolSize .api then _ else none) = _
    split <;> rfl
  | commitTransaction slot =>
    simp only [perform, World.sess_unpictured, commitTx_unpictured]
    cases (w.sess t).log <;> rfl
  | rollbackTransaction slot =>
    simp only [perform]
    show (if (w.sess t).broken = true then none else if (slot == .qr && !(w.sess t).active) = true then _ else _) = _
    split
    · rfl
    · split <;> rfl
  | findUser | findOrder | findOrderById =>
    simp only [perform, view_unpictured]
    rfl
  | matchProducts ids =>
    simp only [perform, view_unpictured, Db.unpictured, List.filter_map, List.map_map]
    rfl
  | lockProduct id =>
    simp only [perform, view_unpictured, product?_unpictured]
    show (if w.lockable t (.product id) then _ else none) = _
    split <;> rfl
  | saveStock | incrementStock | saveFailed | saveProcessed =>
    simp only [perform, stmt_unpictured, Option.map_map]
    rfl
  | insertOrder u k =>
    simp only [perform, view_unpictured, World.nextUuid_unpictured, stmt_unpictured]
    show (if w.lockable t (.orderKey u k) then
      if ((w.view t).orderByKey? u k).isSome then _ else _ else none) = _
    split
    · split
      · rfl
      · rw [Option.map_map, Option.map_map]
        rfl
    · rfl
  | insertItem o p q price =>
    simp only [perform, World.nextUuid_unpictured, stmt_unpictured, Option.map_map]
    rfl
  | updatePayment id pid st =>
    simp only [perform, toShared_unpictured, write_unpictured]
    show (if w.lockable t (.order id) then _ else none) = _
    split <;> rfl
  | insertProcessed mid oid handler =>
    rcases mid with _ | mid
    · rfl
    · rcases oid with _ | oid
      · rfl
      · simp only [perform, view_unpictured, stmt_unpictured]
        show (if w.lockable t (.message mid) then
          if ((w.view t).processed? mid).isSome then _ else _ else none) = _
        split
        · split
          · rfl
          · rw [Option.map_map, Option.map_map]
            rfl
        · rfl
  | lockOrder id =>
    cases id with
    | none => rfl
    | some id =>
      simp only [perform, view_unpictured]
      show (if w.lockable t (.order id) then _ else none) = _
      split <;> rfl
  | sendAuthorize | awaitAuthorize =>
    simp only [perform, World.rpc_unpictured]
    cases w.rpc t <;> rfl
  | publish rk msg =>
    simp only [perform, publish_unpictured]
    rfl
  | ack =>
    simp only [perform, ack_unpictured]
    rfl
  | nack =>
    simp only [perform, nack_unpictured]
    rfl
  | _ => rfl

theorem reject_unpictured (t : Tid) (cmd : Cmd) (w : World) :
    reject t cmd w.unpictured = (reject t cmd w).unpictured := by
  cases cmd <;> rfl

theorem performLost_unpictured (t : Tid) (cmd : Cmd) (w : World) :
    performLost t cmd w.unpictured = (performLost t cmd w).map World.unpictured := by
  cases cmd with
  | commitTransaction slot =>
    simp only [performLost, commitTx_unpictured, Option.map_map]
    rfl
  | updatePayment id pid st =>
    simp only [performLost, toShared_unpictured, write_unpictured]
    show (if w.lockable t (.order id) then _ else none) = _
    split <;> rfl
  | _ => rfl

theorem refuses_unpictured (t : Tid) (cmd : Cmd) (w : World) : w.unpictured.refuses t cmd = w.refuses t cmd := by
  cases cmd <;> rfl

/-- A command does without the images what it does with them. -/
theorem exec_unpictured (t : Tid) (cmd : Cmd) (ch : Choice) (w : World) :
    exec cfg t cmd ch w.unpictured = (exec cfg t cmd ch w).map blurred := by
  cases ch with
  | proceed =>
    simp only [exec, refuses_unpictured, perform_unpictured]
    split <;> rfl
  | unnoticed =>
    simp only [exec, refuses_unpictured, perform_unpictured]
    split <;> rfl
  | fail e =>
    simp only [exec, reject_unpictured]
    split <;> rfl
  | ackLost e =>
    simp only [exec, performLost_unpictured]
    split
    · rfl
    · rw [Option.map_map, Option.map_map]
      rfl

theorem env_unpictured (act : EnvAct) (w : World) :
    w.unpictured.env cfg act = (w.env cfg act).map World.unpictured := by
  cases act with
  | execute t | answer t res =>
    simp only [World.env, Shared.env, World.rpc_unpictured]
    cases w.rpc t with
    | requested req =>
      simp only
      split <;> rfl
    | _ => rfl
  | loseRequest t | loseResponse t =>
    simp only [World.env, Shared.env, World.rpc_unpictured]
    cases w.rpc t <;> rfl
  | expire i =>
    simp only [World.env, Shared.env, World.broker_unpictured, Option.map_map]
    rfl
  | loseChannel t | tick => rfl

theorem arrive_unpictured (t : Tid) (arr : Arrival) (w : World) :
    w.unpictured.arrive cfg t arr = (w.arrive cfg t arr).map fun pw => (pw.1, pw.2.unpictured) := by
  simp only [World.arrive, World.jobs_unpictured]
  cases w.jobs t with
  | some job => rfl
  | none =>
    cases arr with
    | request req => rfl
    | delivery i =>
      simp only [Shared.deliver, World.broker_unpictured, Option.map_map]
      rfl

/-! ## The procedures -/

theorem get?_productsById_unpictured (products : List Product) (id : Uuid) :
    (productsById (products.map Product.unpictured)).get? id =
      ((productsById products).get? id).map Product.unpictured := by
  unfold productsById
  rw [← JsMap.get?_ofList_map, List.map_map, List.map_map]
  rfl

theorem amountLoop_unpictured (products : List Product) (entries : List (Uuid × Int)) (amountCents : Int) :
    amountLoop (productsById (products.map Product.unpictured)) entries amountCents =
      amountLoop (productsById products) entries amountCents := by
  induction entries generalizing amountCents with
  | nil => rfl
  | cons e entries ih =>
    simp only [amountLoop, get?_productsById_unpictured]
    cases (productsById products).get? e.1 with
    | none => rfl
    | some product =>
      show (if product.stock < e.2 then _ else amountLoop _ entries (amountCents + product.price * e.2)) = _
      rw [ih]
      rfl

theorem buildOrderPlan_unpictured (products : List Product) (items : List OrderItemInput) :
    buildOrderPlan (products.map Product.unpictured) items = buildOrderPlan products items := by
  have hhas : (productsById (products.map Product.unpictured)).has = (productsById products).has := by
    funext id
    rw [JsMap.has, get?_productsById_unpictured, Option.isSome_map]
    rfl
  simp only [buildOrderPlan, amountLoop_unpictured]
  rw [hhas]

theorem saveProducts_unpictured (products : List Product) :
    saveProducts (productsById (products.map Product.unpictured)) = saveProducts (productsById products) := by
  unfold saveProducts
  congr 1
  funext entry
  rw [get?_productsById_unpictured]
  cases (productsById products).get? entry.1 <;> rfl

theorem saveItems_unpictured (products : List Product) (order : Order) :
    saveItems (productsById (products.map Product.unpictured)) order = saveItems (productsById products) order := by
  unfold saveItems
  congr 1
  funext itemInput
  rw [get?_productsById_unpictured]
  cases (productsById products).get? itemInput.productId <;> rfl

abbrev ImageBlind {α : Type} (p : Api α) : Prop := p.Blind Cmd.blur

section
variable {α : Type} {k : List Product → Api α}

theorem bind_lockProducts_congr (hk : ∀ products, k (products.map Product.unpictured) = k products)
    (ids : List Uuid) (products products' : List Product)
    (h : products.map Product.unpictured = products'.map Product.unpictured) :
    (lockProducts ids products).bind k = (lockProducts ids products').bind k := by
  induction ids generalizing products products' with
  | nil =>
    show k products = k products'
    rw [← hk products, h, hk products']
  | cons id rest ih =>
    refine congrArg (Async.await (Cmd.lockProduct id)) (funext fun r => ?_)
    cases r with
    | error e => rfl
    | ok product => exact ih _ _ (by rw [List.map_append, List.map_append, h])

theorem blind_lockProducts (hk : ∀ products, k (products.map Product.unpictured) = k products)
    (hb : ∀ products, ImageBlind (k products)) (ids : List Uuid) (products : List Product) :
    ImageBlind ((lockProducts ids products).bind k) := by
  induction ids generalizing products with
  | nil => exact hb products
  | cons id rest ih =>
    refine ⟨fun r => ?_, fun r => ?_⟩
    · cases r with
      | error e => rfl
      | ok product =>
        refine bind_lockProducts_congr hk rest _ _ ?_
        cases product <;> simp [Cmd.blur, Product.unpictured]
    · cases r with
      | error e => exact blind_done _
      | ok product => exact ih _

end

theorem blind_reserve (actor : RequestUser) (dto : CreateOrderDto) (key : String) :
    ImageBlind (reserve actor dto key) := by
  refine ⟨fun r => ?_, fun r => ?_⟩
  · cases r <;> rfl
  · cases r with
    | error e => exact blind_done _
    | ok rows =>
      show ImageBlind ((lockProducts rows []).bind _)
      refine blind_lockProducts (fun products => ?_) (fun products => ?_) rows []
      · rw [buildOrderPlan_unpictured, saveProducts_unpictured]
        simp only [saveItems_unpictured]
      · refine blind_bind (blind_done _) fun plan => blind_bind (blind_forEach (fun entry => ?_) _) fun _ => ?_
        · cases (productsById products).get? entry.1 with
          | none => exact blind_done _
          | some product => exact blind_call fun _ => rfl
        · refine blind_bind (blind_call fun _ => rfl) fun order =>
            blind_bind (blind_forEach (fun input => ?_) _) fun _ =>
              blind_bind (blind_call fun _ => rfl) fun _ => blind_done _
          cases (productsById products).get? input.productId with
          | none => exact blind_done _
          | some product => exact blind_call fun _ => rfl

theorem blind_withConnection {α : Type} {use : Use} {body : Api α} (h : ImageBlind body) :
    ImageBlind (withConnection use body) :=
  blind_bind (blind_call fun _ => rfl) fun _ => blind_tryFinally h (blind_call fun _ => rfl)

theorem blind_transaction {body : Api Unit} (h : ImageBlind body) : ImageBlind (transaction body) := by
  refine blind_withConnection (blind_tryCatch ?_ fun e => ?_)
  · exact blind_bind (blind_call fun _ => rfl) fun _ => blind_bind h fun _ => blind_call fun _ => rfl
  · exact blind_bind (blind_tryCatch (blind_call fun _ => rfl) fun _ => blind_done _) fun _ => blind_done _

theorem blind_failOrderAndReleaseStock (id : Uuid) : ImageBlind (failOrderAndReleaseStock id) := by
  refine blind_transaction (blind_bind (blind_call fun _ => rfl) fun found => ?_)
  rcases found with _ | ⟨order, items⟩
  · exact blind_done _
  · by_cases hs : order.status = .failed
    · simp only [if_pos hs]
      exact blind_done _
    · simp only [if_neg hs]
      exact blind_bind (blind_call fun _ => rfl) fun _ => blind_forEach (fun item => blind_call fun _ => rfl) items

theorem blind_settle (order : Order) (plan : OrderPlan) (key : String) : ImageBlind (settle cfg order plan key) := by
  refine blind_bind (blind_tryCatch ?_ fun error => ?_) fun payment => ?_
  · exact blind_bind (blind_call fun _ => rfl) fun _ => blind_call fun _ => rfl
  · exact blind_bind (blind_failOrderAndReleaseStock order.id) fun _ => blind_done _
  · refine blind_bind (blind_withConnection (blind_call fun _ => rfl)) fun _ => blind_bind ?_ fun _ => blind_done _
    exact blind_bind (blind_call fun _ => rfl) fun _ => blind_bind (blind_call fun _ => rfl) fun _ =>
      blind_bind (blind_call fun _ => rfl) fun _ => blind_done _

theorem blind_createOrderTry (actor : RequestUser) (dto : CreateOrderDto) (key : String) :
    ImageBlind (createOrderTry cfg actor dto key) := by
  refine blind_bind (blind_call fun _ => rfl) fun user => ?_
  cases user with
  | none => exact blind_done _
  | some user =>
    refine blind_bind (blind_call fun _ => rfl) fun existing => ?_
    cases existing with
    | some existing => exact blind_bind (blind_call fun _ => rfl) fun _ => blind_done _
    | none => exact blind_bind (blind_reserve actor dto key) fun r => blind_settle r.1 r.2 key

theorem blind_createOrderCatch (actor : RequestUser) (key : String) (e : Err) :
    ImageBlind (createOrderCatch actor key e) := by
  refine blind_bind (blind_bind (blind_call fun _ => rfl) fun active => ?_) fun _ => ?_
  · cases active with
    | true => exact blind_call fun _ => rfl
    | false => exact blind_done _
  · by_cases hu : isUniqueViolation e = true
    · rw [if_pos hu]
      refine blind_bind (blind_withConnection (blind_call fun _ => rfl)) fun found => ?_
      cases found <;> exact blind_done _
    · rw [if_neg hu]
      exact blind_done _

theorem blind_requestThread (req : CreateOrderRequest) : ImageBlind (requestThread cfg req) := by
  refine blind_bind ?_ fun _ => blind_done _
  unfold createOrder
  split
  · exact blind_done _
  · split
    · exact blind_done _
    · refine blind_bind (blind_call fun _ => rfl) fun _ => blind_bind (blind_call fun _ => rfl) fun _ => ?_
      exact blind_tryFinally (blind_tryCatch (blind_createOrderTry ..) fun e => blind_createOrderCatch ..)
        (blind_call fun _ => rfl)

theorem blind_handleTry (payload : OrdersProcessMessage) : ImageBlind (handleTry payload) := by
  refine blind_bind (blind_call fun _ => rfl) fun _ => blind_bind (blind_call fun _ => rfl) fun order => ?_
  cases order with
  | none => exact blind_done _
  | some order =>
    by_cases hs : order.status = .processed
    · simp only [if_pos hs]
      exact blind_bind (blind_call fun _ => rfl) fun _ => blind_call fun _ => rfl
    · simp only [if_neg hs]
      exact blind_bind (blind_call fun _ => rfl) fun _ => blind_bind (blind_call fun _ => rfl) fun _ =>
        blind_bind (blind_call fun _ => rfl) fun _ => blind_call fun _ => rfl

theorem blind_handleCatch (payload : OrdersProcessMessage) (e : Err) : ImageBlind (handleCatch cfg payload e) := by
  unfold handleCatch
  split
  · exact blind_bind (blind_call fun _ => rfl) fun _ => blind_call fun _ => rfl
  · refine blind_bind (blind_call fun _ => rfl) fun _ => blind_bind (blind_done _) fun attempt => ?_
    split
    · exact blind_bind (blind_call fun _ => rfl) fun _ => blind_call fun _ => rfl
    · exact blind_bind (blind_call fun _ => rfl) fun _ => blind_call fun _ => rfl

theorem blind_deliveryThread (msg : Message) : ImageBlind (deliveryThread cfg msg) := by
  refine blind_bind (blind_tryCatch ?_ fun _ => blind_call fun _ => rfl) fun _ => blind_done _
  refine blind_bind (blind_done _) fun payload => blind_bind (blind_call fun _ => rfl) fun _ =>
    blind_bind (blind_call fun _ => rfl) fun _ => ?_
  exact blind_tryFinally (blind_tryCatch (blind_handleTry payload) fun e => blind_handleCatch payload e)
    (blind_call fun _ => rfl)

/-! ## The files -/

theorem issues_fileThread (req : FileRequest) : (fileThread fc req).Issues fun cmd => cmd.isRight := by
  cases req with
  | presign user dto =>
    refine issues_bind (issues_bind (issues_done _) fun _ => issues_bind (issues_bind (issues_call rfl) fun id => ?_)
      fun key => issues_bind (issues_done _) fun bucket => issues_bind (issues_call rfl) fun file =>
        issues_bind (issues_call rfl) fun url => issues_done _) fun _ => issues_done _
    cases dto.entityType <;> exact issues_done _
  | complete user fileId =>
    refine issues_bind (issues_bind (issues_call rfl) fun found => ?_) fun _ => issues_done _
    cases found with
    | none => exact issues_done _
    | some file =>
      simp only
      split
      · exact issues_done _
      · split
        · exact issues_done _
        · refine issues_bind (issues_call rfl) fun _ => ?_
          split
          · exact issues_call rfl
          · exact issues_done _
  | getFileUrl user fileId =>
    refine issues_bind (issues_bind (issues_call rfl) fun found => ?_) fun _ => issues_done _
    cases found with
    | none => exact issues_done _
    | some file =>
      simp only
      split
      · exact issues_done _
      · split
        · exact issues_done _
        · split
          · split <;> exact issues_done _
          · exact issues_call rfl

theorem updateImage_unpictured (w : FilesWorld) (t : Tid) (productId fileId : Uuid) :
    (w.updateImage t productId fileId).orders.unpictured = w.orders.unpictured := by
  have himage : (w.orders.db.updateProduct productId fun p => { p with imageFileId := some fileId }).unpictured =
      w.orders.db.unpictured := by
    simp only [Db.unpictured, Db.updateProduct, List.map_map]
    congr 1
    refine List.map_congr_left fun p _ => ?_
    show (if p.id = productId then _ else p).unpictured = p.unpictured
    split <;> rfl
  show World.unpictured { w.orders with db := _ } = _
  simp only [World.unpictured, Shared.unpictured, himage]

/-- All that the orders see of the files is that uuids are drawn. -/
theorem execFile_unpictured {w w' : FilesWorld} {cmd : FileCmd} {ch : Choice} {r : Except Err cmd.Res}
    (hx : execFile t cmd ch w = some (r, w')) :
    w'.orders.unpictured = w.orders.unpictured ∨ w'.orders.unpictured = w.orders.unpictured.nextUuid := by
  rcases execFile_effect hx with rfl | ⟨_, r', hst⟩
  · exact .inl rfl
  · cases cmd with
    | uuid =>
      cases hst
      exact .inr rfl
    | insertFile ownerId file =>
      cases ownerId with
      | text s =>
        cases hst
        exact .inl rfl
      | uuid ownerId =>
        simp only [FilesWorld.statement] at hst
        split at hst
        · cases hst
          exact .inl rfl
        · cases hst
          exact .inr rfl
    | findFile id =>
      cases id <;> cases hst <;> exact .inl rfl
    | updateImage productId fileId =>
      simp only [FilesWorld.statement] at hst
      split at hst
      · cases hst
        exact .inl (updateImage_unpictured w t productId fileId)
      · cases hst
    | saveFile file =>
      cases hst
      exact .inl rfl
    | createPresignedPutUrl | createPresignedGetUrl =>
      cases hst
      exact .inl rfl

/-! ## One process -/

def filesBeside (cfg : Config) (fc : FilesConfig) : (machine cfg).Beside (filesMachine cfg fc) where
  view w := w.orders.unpictured
  blur := Cmd.blur
  guest t w := (w.requests t).isSome
  exec t cmd ch w r w' hx := by
    obtain ⟨⟨r', o⟩, ho, he⟩ := Option.map_eq_some_iff.mp hx
    cases he
    show exec cfg t cmd ch w.orders.unpictured = _
    rw [exec_unpictured, ho]
    rfl
  kill t w := by
    show (ite _ w { w with orders := w.orders.kill t }).orders.unpictured = _ ∨
      (ite _ w { w with orders := w.orders.kill t }).orders.unpictured = _
    split
    · exact .inl rfl
    · exact .inr rfl
  env act w w' hx := by
    obtain ⟨o, ho, rfl⟩ := Option.map_eq_some_iff.mp hx
    show w.orders.unpictured.env cfg act = _
    rw [env_unpictured, ho]
    rfl
  spawn t arr w p w' hx := by
    obtain ⟨⟨p₀, o⟩, ho, he⟩ := Option.map_eq_some_iff.mp hx
    cases he
    refine ⟨p₀, rfl, ?_, ?_⟩
    · obtain ⟨_, s, _, _, _, _, ⟨req, rfl, _⟩ | ⟨msg, rfl, _⟩⟩ := arrive_cases ho
      · exact blind_requestThread req
      · exact blind_deliveryThread msg
    · show w.orders.unpictured.arrive cfg t arr = _
      rw [arrive_unpictured, ho]
      rfl
  join t req w p w' hx := by
    simp only [filesMachine] at hx
    split at hx
    · cases hx
    · cases hx
      exact ⟨rfl, issues_fileThread req, by simp⟩
  exec_guest t t' cmd ch w r w' hx hg := by rwa [(exec_history hx).1]
  kill_guest t t' w hg := by rwa [(kill_history cfg fc t w).1]
  env_guest t' act w w' hx hg := by
    obtain ⟨o, _, rfl⟩ := Option.map_eq_some_iff.mp hx
    exact hg
  spawn_guest t t' a w p w' hx hg := by
    by_cases ht : t' = t
    · subst ht
      cases a with
      | inl arr =>
        obtain ⟨⟨p₀, o⟩, _, he⟩ := Option.map_eq_some_iff.mp hx
        cases he
        exact hg
      | inr req =>
        simp only [filesMachine] at hx
        rw [Option.isSome_iff_exists.mp hg |>.choose_spec] at hx
        cases hx
    · rwa [(spawn_history hx).1 t' ht]

theorem WorldInv.nextUuid {w : World} (hI : WorldInv cfg c w) (t : Tid) :
    WorldInv cfg c w.nextUuid ∧
      ∀ t', t' ≠ t → Stays t' w w.nextUuid ∧ Others cfg t' w.toShared w.nextUuid.toShared := by
  have hstays : ∀ t', Stays t' w w.nextUuid := fun t' => ⟨rfl, fun _ => Iff.rfl, fun _ _ => rfl⟩
  exact hI.of_stays (.single rfl (.skipUuid t w.toShared)) (fun t' _ => hstays t')
    ((hI.logs t).of_stays (hstays t)) fun hj => (hI.unused t hj).of_stays (hstays t)

theorem polite_files : (filesBeside cfg fc).Polite (discipline cfg c) := by
  intro t cmd ch w r w' hx hI
  show WorldInv cfg c w'.orders.unpictured ∧ ∀ t', t' ≠ t → Stays t' w.orders.unpictured w'.orders.unpictured ∧
    Others cfg t' w.orders.unpictured.toShared w'.orders.unpictured.toShared
  rcases execFile_unpictured hx with he | he <;> rw [he]
  · exact ⟨hI, fun t' _ => ⟨.refl t' _, .refl _⟩⟩
  · exact hI.nextUuid t

variable {conf conf' : FilesConf}

theorem FilesReachable.beside (h : FilesReachable cfg fc c conf) :
    (filesBeside cfg fc).Good (discipline cfg c.unpictured) conf := by
  have hstart : (filesBeside cfg fc).Good (discipline cfg c.unpictured) c.withFiles :=
    ⟨(discipline_initial cfg c.unpictured).1, fun _ _ hp => by cases hp⟩
  exact Machine.Beside.sound (fun _ => trivial) polite_files wp_arrive hstart h

/-- A step of the process is, on the orders, a run of steps of the saga by the
same actor. -/
theorem FilesReachable.step {l : FilesLabel} (h : FilesReachable cfg fc c conf)
    (hs : (filesMachine cfg fc).step conf l = some conf') :
    Runs (Step cfg) (· = l.actor) conf.world.orders.unpictured.toShared
      conf'.world.orders.unpictured.toShared := by
  have hgood := h.beside
  let X := filesBeside cfg fc
  show Runs (Step cfg) (· = l.actor) (X.view conf.world).toShared (X.view conf'.world).toShared
  rcases Machine.step_cases hs with ⟨t, ch, cmd, k, r, w, rfl, hp, hx, rfl⟩ | ⟨t, cmd, k, rfl, hp, rfl⟩ |
    ⟨e, w, rfl, hx, rfl⟩ | ⟨t, a, p, w, rfl, hp, hx, rfl⟩
  · rcases hgood.keeps t _ hp with ⟨p₀, hp₀, hb, hwp⟩ | ⟨hissues, _⟩
    · exact (hgood.exec (fun _ => trivial) hp₀ hb hwp hx).1
    · cases cmd with
      | inl cmd => cases hissues.1
      | inr cmd =>
        have hview : X.view w = X.view conf.world ∨ X.view w = (X.view conf.world).nextUuid := execFile_unpictured hx
        rcases hview with he | he <;> rw [he]
        · exact .refl _
        · exact .single rfl (.skipUuid t _)
  · rcases X.kill t conf.world with he | he <;> rw [he]
    · exact .refl _
    · exact .single rfl (.lose t _)
  · obtain ⟨s, hs', he⟩ := Option.map_eq_some_iff.mp (X.env _ _ _ hx)
    rw [← he]
    exact .single rfl (step_of_env hs')
  · cases a with
    | inl arr =>
      obtain ⟨_, _, _, hx₀⟩ := X.spawn _ _ _ _ _ hx
      obtain ⟨_, s, he, hstep, _⟩ := arrive_cases hx₀
      rw [he]
      exact .single rfl hstep
    | inr req =>
      rw [(X.join _ _ _ _ _ hx).1]
      exact .refl _

/-- Only a thread that starts takes on a request or a message. -/
theorem step_taken {l : FilesLabel} (hs : (filesMachine cfg fc).step conf l = some conf') (t : Tid) :
    (∃ a, l = .spawn t a) ∨ conf'.world.requests t = conf.world.requests t ∧
      conf'.world.orders.jobs t = conf.world.orders.jobs t := by
  rcases Machine.step_cases hs with ⟨u, ch, cmd, k, r, w, rfl, _, hx, rfl⟩ | ⟨u, cmd, k, rfl, _, rfl⟩ |
    ⟨e, w, rfl, hx, rfl⟩ | ⟨u, a, p, w, rfl, _, hx, rfl⟩
  · refine .inr ⟨congrFun (exec_history hx).1 t, ?_⟩
    cases cmd with
    | inl cmd =>
      obtain ⟨⟨r', o⟩, ho, he⟩ := Option.map_eq_some_iff.mp hx
      cases he
      exact congrFun (Does.of_exec ho).jobs t
    | inr cmd =>
      show w.orders.unpictured.jobs t = conf.world.orders.jobs t
      rcases execFile_unpictured hx with he | he <;> rw [he] <;> rfl
  · refine .inr ⟨congrFun (kill_history cfg fc u conf.world).1 t, ?_⟩
    show ((filesBeside cfg fc).view ((filesMachine cfg fc).kill u conf.world)).jobs t = conf.world.orders.jobs t
    rcases (filesBeside cfg fc).kill u conf.world with he | he <;> rw [he] <;> rfl
  · obtain ⟨o, ho, rfl⟩ := Option.map_eq_some_iff.mp hx
    obtain ⟨s, hs', rfl⟩ := Option.map_eq_some_iff.mp ho
    exact .inr ⟨rfl, (step_of_env hs').jobs_other (by simp)⟩
  · by_cases hu : t = u
    · exact .inl ⟨a, by rw [hu]⟩
    · refine .inr ⟨(spawn_history hx).1 t hu, ?_⟩
      cases a with
      | inl arr =>
        obtain ⟨⟨p₀, o⟩, ho, he⟩ := Option.map_eq_some_iff.mp hx
        cases he
        obtain ⟨_, s, rfl, hstep, _⟩ := arrive_cases ho
        exact hstep.jobs_other fun he => hu (Option.some.inj he).symm
      | inr req =>
        simp only [filesMachine] at hx
        split at hx
        · cases hx
        · cases hx
          rfl

/-- No thread serves both. -/
theorem FilesReachable.apart (h : FilesReachable cfg fc c conf) (t : Tid) :
    (conf.threads t = .idle → conf.world.requests t = none ∧ conf.world.orders.jobs t = none) ∧
    (conf.world.requests t = none ∨ conf.world.orders.jobs t = none) := by
  induction h with
  | refl => exact ⟨fun _ => ⟨rfl, rfl⟩, .inl rfl⟩
  | @step conf₁ conf₂ l _ hs ih =>
    rcases step_taken hs t with ⟨a, rfl⟩ | ⟨hr, hj⟩
    · have hnot : conf₂.threads t ≠ .idle := fun hidle => (Machine.idle_step hs hidle).1 rfl
      refine ⟨fun hidle => (hnot hidle).elim, ?_⟩
      rcases Machine.step_cases hs with ⟨u, ch, cmd, k, r, w, hl, _⟩ | ⟨u, cmd, k, hl, _⟩ | ⟨e, w, hl, _⟩ |
        ⟨u, a, p, w, hl, hidle, hx, rfl⟩
      · cases hl
      · cases hl
      · cases hl
      · cases hl
        cases a with
        | inl arr =>
          obtain ⟨⟨p₀, o⟩, _, he⟩ := Option.map_eq_some_iff.mp hx
          cases he
          exact .inl (ih.1 hidle).1
        | inr req =>
          have hview := ((filesBeside cfg fc).join _ _ _ _ _ hx).1
          exact .inr ((congrArg (fun o : World => o.jobs t) hview).trans (ih.1 hidle).2)
    · rw [hr, hj]
      exact ⟨fun hidle => ih.1 (Machine.idle_step hs hidle).2, ih.2⟩

/-- In the process that takes the orders and serves the files the orders refine
the saga as on their own: what the files do neither breaks a transaction in two
nor changes what a call ends with. -/
theorem orders_beside_files (h : FilesReachable cfg fc c conf) :
    Saga cfg c.unpictured conf.world.orders.unpictured.toShared ∧
    (∀ l conf', (filesMachine cfg fc).step conf l = some conf' →
      Runs (Step cfg) (· = l.actor) conf.world.orders.unpictured.toShared
        conf'.world.orders.unpictured.toShared) ∧
    (∀ t req e, conf.world.orders.jobs t = some (.create req) → conf.threads t = .running (.done (.error e)) →
      (conf.world.orders.loc t).Rejected) ∧
    ∀ t req reply, conf.world.orders.jobs t = some (.create req) → conf.threads t = .running (.done (.ok reply)) →
      ∃ res, reply = .inl (some res) ∧ Resolved conf.world.orders t req res := by
  have hgood := h.beside
  have hended : ∀ t req r, conf.world.orders.jobs t = some (.create req) → conf.threads t = .running (.done r) →
      ∃ r₀ : Except Err Reply, r = r₀.map Sum.inl ∧ Ended t r₀ conf.world.orders.unpictured := by
    intro t req r hj ht
    rcases hgood.keeps t _ ht with ⟨p₀, hp₀, _, hwp⟩ | ⟨_, hguest⟩
    · cases p₀ with
      | done r₀ =>
        cases hp₀
        exact ⟨r₀, rfl, hwp.2⟩
      | await cmd k => cases hp₀
    · rcases (h.apart t).2 with hn | hn
      · have hsome : (conf.world.requests t).isSome := hguest
        rw [hn] at hsome
        cases hsome
      · rw [hj] at hn
        cases hn
  refine ⟨hgood.inv.saga, fun _ _ hs => h.step hs, fun t req e hj ht => ?_, fun t req reply hj ht => ?_⟩
  · obtain ⟨r₀, hr, hend⟩ := hended t req _ hj ht
    cases r₀ with
    | error e => exact hend req hj
    | ok reply => cases hr
  · obtain ⟨r₀, hr, hend⟩ := hended t req _ hj ht
    cases r₀ with
    | error e => cases hr
    | ok reply₀ =>
      cases hr
      obtain ⟨res, rfl, hres⟩ := hend req hj
      exact ⟨res, rfl, hres.reused, hres.created, hres.stored.order, hres.stored.items⟩

def besideFiles : SysLabel → FilesLabel
  | .run t ch => .run t ch
  | .kill t => .kill t
  | .env e => .env e
  | .spawn t arr => .spawn t (.inl arr)

/-- The mug gets an image while it is paid for. -/
def picturedSale : FilesConf :=
  ((filesMachine (.ofPool 2 .repository) (.ofBucket "media")).run (Catalogue.shop 1).withFiles
    (fileSteps 0 (.presign shopAdmin mugImage) 3 ++ (requestSteps 2 (mugRequest 0 "k") 11).map besideFiles ++
      fileSteps 1 (.complete shopAdmin 1) 3 ++ .env (.execute 2) :: List.replicate 8 (.run 2 .proceed))).getD
    (Catalogue.shop 1).withFiles

theorem orders_beside_files_mug :
    FilesReachable (.ofPool 2 .repository) (.ofBucket "media") (.shop 1) picturedSale ∧
    (∃ p ∈ picturedSale.world.orders.db.products, p.imageFileId = some 1) ∧
    Saga (.ofPool 2 .repository) (Catalogue.shop 1).unpictured picturedSale.world.orders.unpictured.toShared ∧
    ∃ res, res.order.id = 2 ∧ Resolved picturedSale.world.orders 2 (mugRequest 0 "k") res := by
  have hreach : FilesReachable (.ofPool 2 .repository) (.ofBucket "media") (.shop 1) picturedSale :=
    Machine.reach_getD_run _ _
  have hj : picturedSale.world.orders.jobs 2 = some (.create (mugRequest 0 "k")) := rfl
  have hth : picturedSale.threads 2 = .running (.done (.ok (.inl (some ⟨false,
    ⟨2, 0, "k", .pending, some 4, some .authorized, 0, none⟩, none, some ⟨4, .authorized⟩, some 5⟩)))) := rfl
  obtain ⟨hsaga, _, _, hok⟩ := orders_beside_files hreach
  obtain ⟨res, hres, hresolved⟩ := hok 2 (mugRequest 0 "k") _ hj hth
  cases hres
  exact ⟨hreach, ⟨⟨0, "Mug", 500, 0, some 1⟩, by decide, rfl⟩, hsaga, _, rfl, hresolved⟩

end OrdersBackend
