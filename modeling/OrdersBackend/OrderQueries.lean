import OrdersBackend.Integrity
import OrdersBackend.Lib.Paging
import OrdersBackend.OrderReads

/-!
# The list of orders of a running system

The query `orders` on the states the system reaches: the loader answers as one
lookup per item would, no item is without its product, and a client that goes
through the pages misses no order, also while orders arrive and are processed.
-/

namespace OrdersBackend

open Conc Paging

variable {cfg : Config} {c : Catalogue} {conf conf' : SysConf} {headers : Headers}
variable {ties : TieOrder} {filter : Option OrdersFilterInput} {pagination : Option OrdersPaginationInput}

/-! ## The loader -/

/-- The models of the orders, with a lookup of its own for each item. -/
def modelsBy (load : Uuid → Option Product) (orders : List (Order × List OrderItem)) : Option (List OrderModel) :=
  orders.mapM fun o => (o.2.mapM (itemModel load)).map fun items => ⟨o.1.id, o.1.status, o.1.createdAt, items⟩

theorem mapM_congr {α β : Type} {f g : α → Option β} {l : List α} (h : ∀ a ∈ l, f a = g a) : l.mapM f = l.mapM g := by
  induction l with
  | nil => rfl
  | cons a l ih =>
    rw [List.mapM_cons, List.mapM_cons, h a (List.mem_cons_self ..), ih fun b hb => h b (List.mem_cons_of_mem _ hb)]

theorem exists_mapM {α β : Type} {f : α → Option β} {R : α → β → Prop} {l : List α}
    (h : ∀ a ∈ l, ∃ b, f a = some b ∧ R a b) : ∃ bs, l.mapM f = some bs ∧ List.Forall₂ R l bs := by
  induction l with
  | nil => exact ⟨[], rfl, .nil⟩
  | cons a l ih =>
    obtain ⟨b, hb, hab⟩ := h a (List.mem_cons_self ..)
    obtain ⟨bs, hbs, hl⟩ := ih fun a' ha' => h a' (List.mem_cons_of_mem _ ha')
    exact ⟨b :: bs, by simp [List.mapM_cons, hb, hbs], .cons hab hl⟩

theorem nodup_filter_ids {ps : List Product} (hn : (ps.map (·.id)).Nodup) (f : Product → Bool) :
    ((ps.filter f).map (·.id)).Nodup := hn.sublist (List.filter_sublist.map _)

theorem productLoader_eq {db : Db} (hn : (db.products.map (·.id)).Nodup) {ids : List Uuid} {id : Uuid}
    (hid : id ∈ ids) : productLoader db ids id = db.product? id := by
  apply Option.ext
  intro p
  rw [productLoader, get?_productsById (nodup_filter_ids hn _), List.mem_filter]
  constructor
  · rintro ⟨⟨hp, _⟩, rfl⟩
    unfold Db.product?
    cases hf : db.products.find? fun x => x.id = p.id with
    | none => simpa using List.find?_eq_none.mp hf p hp
    | some p' =>
      have hpid : p'.id = p.id := by simpa using List.find?_some hf
      exact congrArg some (List.inj_on_of_nodup_map hn (List.mem_of_find?_eq_some hf) hp hpid)
  · intro hp
    have hpid := Db.product?_id hp
    exact ⟨⟨Db.product?_mem hp, by simpa [hpid] using hid⟩, hpid⟩

/-- The batch answers every item as a lookup of its own would. -/
theorem orderModels_eq {db : Db} (hn : (db.products.map (·.id)).Nodup) (orders : List (Order × List OrderItem)) :
    orderModels db orders = modelsBy db.product? orders := by
  unfold orderModels modelsBy
  refine mapM_congr fun o ho => congrArg _ (mapM_congr fun item hi => ?_)
  have hmem : item.productId ∈ orders.flatMap fun o => o.2.map (·.productId) :=
    List.mem_flatMap.mpr ⟨o, ho, List.mem_map_of_mem hi⟩
  rw [itemModel, itemModel, productLoader_eq hn hmem]

/-! ## What the query shows -/

structure ShowsItem (c : Catalogue) (item : OrderItem) (model : OrderItemModel) : Prop where
  id : model.id = item.id
  quantity : model.quantity = item.quantity
  product : ∃ p ∈ c.products, p.id = item.productId ∧ model.product = ⟨p.id, p.title, p.price⟩ ∧
    p.price = item.priceAtPurchase

structure ShowsOrder (c : Catalogue) (order : Order × List OrderItem) (model : OrderModel) : Prop where
  id : model.id = order.1.id
  status : model.status = order.1.status
  createdAt : model.createdAt = order.1.createdAt
  items : List.Forall₂ (ShowsItem c) order.2 model.items
  nonempty : model.items ≠ []

theorem Reachable.shows_item (h : Reachable cfg c conf) {item : OrderItem} (hi : item ∈ conf.world.db.orderItems) :
    ∃ model, itemModel conf.world.db.product? item = some model ∧ ShowsItem c item model := by
  have hs := h.saga
  obtain ⟨_, p, hp, hid, hprice⟩ := hs.sound.priced item hi
  have htables : shape c.products = shape conf.world.db.products := hs.inv.tables.products.symm
  obtain ⟨product, hfound, hshape⟩ := exists_of_shape htables hp
  have hpid : product.id = p.id := by simpa [Product.setStock] using congrArg Product.id hshape
  have htitle : product.title = p.title := by simpa [Product.setStock] using congrArg Product.title hshape
  have hpprice : product.price = p.price := by simpa [Product.setStock] using congrArg Product.price hshape
  have hlook : conf.world.db.product? item.productId = some product := by
    rw [← productLoader_eq hs.inv.tables.productIds (List.mem_singleton_self _), productLoader,
      get?_productsById (nodup_filter_ids hs.inv.tables.productIds _), List.mem_filter]
    exact ⟨⟨hfound, by simp [hpid, hid]⟩, hpid.trans hid⟩
  refine ⟨⟨item.id, item.quantity, ⟨product.id, product.title, product.price⟩⟩, by simp [itemModel, hlook], rfl, rfl,
    p, hp, hid, ?_, hprice⟩
  rw [hpid, htitle, hpprice]

theorem Reachable.shows_order (h : Reachable cfg c conf) {o : Order} (ho : o ∈ conf.world.db.orders) :
    ∃ model, ((conf.world.db.itemsOf o.id).mapM (itemModel conf.world.db.product?)).map
        (fun items => (⟨o.id, o.status, o.createdAt, items⟩ : OrderModel)) = some model ∧
      ShowsOrder c (o, conf.world.db.itemsOf o.id) model := by
  obtain ⟨items, hitems, hall⟩ := exists_mapM (l := conf.world.db.itemsOf o.id) fun item hi =>
    h.shows_item (List.mem_filter.mp hi).1
  refine ⟨_, by rw [hitems]; rfl, rfl, rfl, rfl, hall, ?_⟩
  rintro rfl
  obtain ⟨i, hi, hid⟩ := h.saga.sound.ordered o ho
  have hmem : i ∈ conf.world.db.itemsOf o.id := List.mem_filter.mpr ⟨hi, by simpa using hid⟩
  rw [List.forall₂_nil_right_iff.mp hall] at hmem
  cases hmem

/-- In a state the system reaches the list is answered, with every item showing
its product as it is in the catalogue and was when the item was bought. -/
theorem orders_query_answers (h : Reachable cfg c conf)
    (hvalid : (filter.all OrdersFilterInput.valid && pagination.all OrdersPaginationInput.valid) = true)
    (hq : filter.all OrdersFilterInput.queryable = true) :
    ∃ orders models, findOrders ties conf.world.db filter pagination = .ok orders ∧
      respond ties headers (.orders filter pagination) conf.world.db = .orders models ∧
      modelsBy conf.world.db.product? orders = some models ∧ List.Forall₂ (ShowsOrder c) orders models := by
  obtain ⟨orders, hfound, hrows⟩ : ∃ orders, findOrders ties conf.world.db filter pagination = .ok orders ∧
      ∀ o ∈ orders, o.1 ∈ conf.world.db.orders ∧ o.2 = conf.world.db.itemsOf o.1.id := by
    refine ⟨_, by rw [findOrders, if_pos hq], fun o ho => ?_⟩
    obtain ⟨o', ho', rfl⟩ := List.mem_map.mp ho
    have hsorted := (List.drop_subset _ _) ((List.take_subset _ _) ((ties.perm _).subset ho'))
    rw [List.mem_insertionSort, List.mem_filter] at hsorted
    exact ⟨hsorted.1, rfl⟩
  obtain ⟨models, hmodels, hall⟩ := exists_mapM (l := orders)
    (f := fun o => (o.2.mapM (itemModel conf.world.db.product?)).map fun items =>
      (⟨o.1.id, o.1.status, o.1.createdAt, items⟩ : OrderModel)) (R := ShowsOrder c) fun o ho => by
    obtain ⟨hmem, hitems⟩ := hrows o ho
    rw [hitems]
    obtain ⟨model, hmodel, hshows⟩ := h.shows_order hmem
    refine ⟨model, hmodel, ?_⟩
    rw [← hitems] at hshows
    exact hshows
  refine ⟨orders, models, hfound, ?_, hmodels, hall⟩
  have heq : orderModels conf.world.db orders = some models :=
    (orderModels_eq h.saga.inv.tables.productIds orders).trans hmodels
  simp only [respond, hvalid, hfound, heq]
  rfl

theorem orders_query_answers_mug :
    let conf := (Catalogue.shop 3).after (.ofPool 2 .repository) (saleSteps 0 (mugRequest 0 "k"))
    ∃ orders models, findOrders .byId conf.world.db none none = .ok orders ∧
      respond .byId ⟨none, none⟩ (.orders none none) conf.world.db = .orders models ∧
      modelsBy conf.world.db.product? orders = some models ∧ List.Forall₂ (ShowsOrder (.shop 3)) orders models :=
  orders_query_answers (Catalogue.reachable_after (.ofPool 2 .repository) (.shop 3) (saleSteps 0 (mugRequest 0 "k")))
    rfl rfl

/-! ## Pages -/

/-- All that the filter lets through, newest first. -/
def listing (db : Db) (filter : Option OrdersFilterInput) : List (Order × List OrderItem) :=
  ((accepted db filter).insertionSort Order.before).map fun o => (o, db.itemsOf o.id)

/-- The arguments of the `k`-th page of `n` orders. -/
def pageInput (n k : Nat) : Option OrdersPaginationInput := some ⟨some (n : Int), some ((k * n : Nat) : Int)⟩

/-- A page has the orders that are next in the list. -/
theorem findOrders_page (ties : TieOrder) (db : Db) (hq : filter.all OrdersFilterInput.queryable = true) {n : Nat}
    (hn : 1 ≤ n) (hmax : n ≤ 100) (k : Nat) :
    ∃ rows, findOrders ties db filter (pageInput n k) = .ok rows ∧ rows.Perm (page n k (listing db filter)) ∧
      rows.Pairwise fun row row' => row'.1.createdAt ≤ row.1.createdAt := by
  have hlimit : (limitOf (pageInput n k)).toNat = n := by
    simp only [limitOf, pageInput, Option.bind_some, Option.getD_some]
    omega
  have hoffset : (offsetOf (pageInput n k)).toNat = k * n := by
    simp only [offsetOf, pageInput, Option.bind_some, Option.getD_some]
    omega
  refine ⟨_, by rw [findOrders, if_pos hq], ?_, (ties.sorted _).map _ fun _ _ h => h⟩
  rw [hlimit, hoffset, listing, ← map_page]
  exact (ties.perm _).map _

/-- Newer orders come before older ones. -/
theorem listing_sorted (db : Db) (filter : Option OrdersFilterInput) :
    (listing db filter).Pairwise fun row row' => row.1.before row'.1 :=
  (List.pairwise_insertionSort _ _).map _ fun _ _ h => h

/-- In one state the pages are the list, without overlap and without a gap. Only
orders of one time may change places, within a page. -/
theorem pages_tile (ties : Nat → TieOrder) (db : Db) (hq : filter.all OrdersFilterInput.queryable = true) {n : Nat}
    (hn : 1 ≤ n) (hmax : n ≤ 100) (m : Nat) :
    ∃ pages, (List.range m).mapM (fun k => findOrders (ties k) db filter (pageInput n k)) = .ok pages ∧
      List.Forall₂ (fun k rows => rows.Perm (page n k (listing db filter))) (List.range m) pages ∧
      pages.flatten.Perm ((listing db filter).take (m * n)) ∧
      (pages.flatten.Pairwise fun row row' => row'.1.createdAt ≤ row.1.createdAt) ∧
      (((listing db filter).map fun row => row.1.createdAt).Nodup →
        pages.flatten = (listing db filter).take (m * n)) := by
  choose rows hrows hperm hsorted using fun k => findOrders_page (ties k) db hq hn hmax k
  have hnewer : (listing db filter).Pairwise fun row row' => row'.1.createdAt ≤ row.1.createdAt :=
    (listing_sorted db filter).imp fun h => h.elim Nat.le_of_lt fun h => h.1.ge
  have hflat := flatMap_perm hperm m
  have hpairwise := flatMap_pairwise hnewer hperm hsorted m
  refine ⟨(List.range m).map rows, ?_, ?_, hflat, hpairwise, fun hdistinct => ?_⟩
  · rw [funext hrows]
    exact List.mapM_pure
  · rw [List.forall₂_map_right_iff, List.forall₂_same]
    exact fun k _ => hperm k
  · refine List.Perm.eq_of_pairwise (fun a b ha hb hab hba => ?_) hpairwise (hnewer.sublist (List.take_sublist _ _)) hflat
    have hmem : a ∈ listing db filter := List.take_subset _ _ (hflat.subset ha)
    exact List.inj_on_of_nodup_map hdistinct hmem (List.take_subset _ _ hb) (Nat.le_antisymm hba hab)

theorem pages_tile_mug :
    let db := ((Catalogue.shop 3).after (.ofPool 2 .repository) (saleSteps 0 (mugRequest 0 "k"))).world.db
    ∃ pages, (List.range 2).mapM (fun k => findOrders .byId db none (pageInput 1 k)) = .ok pages ∧
      pages.flatten.Perm ((listing db none).take 2) := by
  intro db
  have hq : (none : Option OrdersFilterInput).all OrdersFilterInput.queryable = true := rfl
  obtain ⟨pages, hpages, _, hperm, _⟩ := pages_tile (fun _ => .byId) db hq (n := 1) (by decide) (by decide) 2
  exact ⟨pages, hpages, hperm⟩

/-! ## Pages of a running system -/

/-- What the list is sorted by. -/
def Order.rank (o : Order) : Nat × Uuid := (o.createdAt, o.id)

def rankBefore (a b : Nat × Uuid) : Prop := b.1 < a.1 ∨ a.1 = b.1 ∧ a.2 ≤ b.2

instance : DecidableRel rankBefore := fun a b => inferInstanceAs (Decidable (b.1 < a.1 ∨ a.1 = b.1 ∧ a.2 ≤ b.2))

instance : Std.Total rankBefore := ⟨fun a b => by unfold rankBefore; grind⟩

instance : IsTrans (Nat × Uuid) rankBefore := ⟨fun a b c h h' => by unfold rankBefore at *; grind⟩

instance : Std.Antisymm rankBefore :=
  ⟨fun a b h h' => by unfold rankBefore at *; exact Prod.ext (by grind) (by grind)⟩

theorem rank_listing (db : Db) (filter : Option OrdersFilterInput) :
    (listing db filter).map (fun row => row.1.rank) = ((accepted db filter).map Order.rank).insertionSort rankBefore := by
  rw [listing, List.map_map]
  exact List.map_insertionSort _ _ _ _ fun _ _ _ _ => Iff.rfl

theorem nodup_ranks {db : Db} (h : (db.orders.map (·.id)).Nodup) (filter : Option OrdersFilterInput) :
    ((accepted db filter).map Order.rank).Nodup := by
  refine List.Nodup.of_map Prod.snd ?_
  rw [List.map_map]
  exact h.sublist (List.filter_sublist.map _)

/-- A filter for orders that are pending alone may come to refuse an order. -/
theorem accepts_evolves (hstatus : filter.bind (·.status) ≠ some .pending) {o o' : Order} (hev : o.Evolves o')
    (h : filter.all (·.accepts o) = true) : filter.all (·.accepts o') = true := by
  cases filter with
  | none => rfl
  | some f =>
    obtain ⟨status, dateFrom, dateTo⟩ := f
    simp only [Option.all_some, OrdersFilterInput.accepts, Bool.and_eq_true] at h ⊢
    rw [hev.createdAt]
    refine ⟨⟨?_, h.1.2⟩, h.2⟩
    cases status with
    | none => rfl
    | some st =>
      have hst : o.status = st := by simpa using h.1.1
      have hfinal : o.status ≠ .pending := by
        rw [hst]
        exact fun he => hstatus (by rw [he]; rfl)
      rw [hev.final hfinal]
      exact h.1.1

theorem Reachable.ranks_subset (h : Reachable cfg c conf) (hr : (machine cfg).Reach conf conf')
    (hstatus : filter.bind (·.status) ≠ some .pending) :
    (accepted conf.world.db filter).map Order.rank ⊆ (accepted conf'.world.db filter).map Order.rank := by
  intro rank hrank
  obtain ⟨o, ho, rfl⟩ := List.mem_map.mp hrank
  obtain ⟨hmem, hacc⟩ := List.mem_filter.mp ho
  obtain ⟨o', ho', hev⟩ := h.saga.order (h.runs hr) (h.saga.inv.tables.order?_of_mem hmem)
  refine List.mem_map.mpr ⟨o', List.mem_filter.mpr ⟨Db.order?_mem ho', accepts_evolves hstatus hev hacc⟩, ?_⟩
  rw [Order.rank, Order.rank, hev.createdAt, hev.id]

theorem Reachable.listing_grows (h : Reachable cfg c conf) (hr : (machine cfg).Reach conf conf')
    (hstatus : filter.bind (·.status) ≠ some .pending) :
    ((listing conf.world.db filter).map fun row => row.1.rank).Sublist
      ((listing conf'.world.db filter).map fun row => row.1.rank) := by
  rw [rank_listing, rank_listing]
  exact insertionSort_sublist rankBefore (nodup_ranks h.saga.inv.tables.orderIds filter) (h.ranks_subset hr hstatus)

theorem mem_listing {db : Db} {row : Order × List OrderItem} (h : row ∈ listing db filter) : row.1 ∈ db.orders := by
  obtain ⟨o, ho, rfl⟩ := List.mem_map.mp h
  exact (List.mem_filter.mp ((List.mem_insertionSort _).mp ho)).1

/-- A client asks for one page after the other, each in whatever state the
system has come to, until a page is not full. Unless it asks for the pending
orders alone, it has then seen every order that was there at its first
request. -/
theorem paging_complete (ties : Nat → TieOrder) {confs : Nat → SysConf} (h : Reachable cfg c (confs 0))
    (hrun : ∀ k, (machine cfg).Reach (confs k) (confs (k + 1)))
    (hq : filter.all OrdersFilterInput.queryable = true) (hstatus : filter.bind (·.status) ≠ some .pending) {n m : Nat}
    (hn : 1 ≤ n) (hmax : n ≤ 100) {last : List (Order × List OrderItem)}
    (hlast : findOrders (ties m) (confs m).world.db filter (pageInput n m) = .ok last) (hshort : last.length < n)
    {o : Order} (ho : o ∈ (confs 0).world.db.orders) (hacc : filter.all (·.accepts o) = true) :
    ∃ k ≤ m, ∃ rows, findOrders (ties k) (confs k).world.db filter (pageInput n k) = .ok rows ∧
      ∃ row ∈ rows, row.1.id = o.id ∧ o.Evolves row.1 := by
  have hfrom : ∀ k, (machine cfg).Reach (confs 0) (confs k) := by
    intro k
    induction k with
    | zero => exact .refl
    | succ k ih => exact ih.trans (hrun k)
  have hreach : ∀ k, Reachable cfg c (confs k) := fun k => h.trans (hfrom k)
  have hgrow := fun k => (hreach k).listing_grows (hrun k) hstatus
  choose rows hrows hperm _ using fun k => findOrders_page (ties k) (confs k).world.db hq hn hmax k
  have hfirst : o.rank ∈ (listing (confs 0).world.db filter).map fun row => row.1.rank := by
    rw [rank_listing, List.mem_insertionSort]
    exact List.mem_map_of_mem (List.mem_filter.mpr ⟨ho, hacc⟩)
  have hend : (page n m ((listing (confs m).world.db filter).map fun row => row.1.rank)).length < n := by
    rw [← map_page, List.length_map, ← (hperm m).length_eq]
    rw [hrows m] at hlast
    rwa [Except.ok.inj hlast]
  obtain ⟨k, hk, hseen⟩ := seen_of_short hgrow hfirst hend
  rw [← map_page] at hseen
  obtain ⟨row, hrow, hrank⟩ := List.mem_map.mp hseen
  have hid : row.1.id = o.id := congrArg Prod.snd hrank
  refine ⟨k, hk, _, hrows k, row, (hperm k).symm.subset hrow, hid, ?_⟩
  -- the row is what has become of the order since
  obtain ⟨o', ho', hev⟩ := h.saga.order (h.runs (hfrom k)) (h.saga.inv.tables.order?_of_mem ho)
  have hmem := mem_listing (List.drop_subset _ _ (List.take_subset _ _ hrow))
  have hrow' := (hreach k).saga.inv.tables.order?_of_mem hmem
  rw [hid, ho'] at hrow'
  rwa [← Option.some.inj hrow']

def soldOne : SysConf := (Catalogue.shop 3).after (.ofPool 2 .repository) (saleSteps 0 (mugRequest 0 "k"))

def soldTwo : SysConf :=
  ((machine (.ofPool 2 .repository)).run soldOne (.env .tick :: saleSteps 1 (mugRequest 1 "l"))).getD soldOne

/-- A second order arrives between the first page and the second. -/
def pagedShop : Nat → SysConf
  | 0 => soldOne
  | _ + 1 => soldTwo

theorem paging_complete_mug :
    ∃ k ≤ 2, ∃ rows, findOrders .byId (pagedShop k).world.db none (pageInput 1 k) = .ok rows ∧ ∃ row ∈ rows, row.1.id = 0 := by
  have hrun : ∀ k, (machine (.ofPool 2 .repository)).Reach (pagedShop k) (pagedShop (k + 1)) := by
    intro k
    cases k with
    | zero => exact Machine.reach_getD_run soldOne (.env .tick :: saleSteps 1 (mugRequest 1 "l"))
    | succ k => exact .refl
  have hlast : findOrders .byId (pagedShop 2).world.db none (pageInput 1 2) = .ok [] := by decide
  obtain ⟨k, hk, rows, hrows, row, hrow, hid, _⟩ := paging_complete (fun _ => .byId)
    (o := ⟨0, 0, "k", .pending, some 2, some .authorized, 0, none⟩)
    (Catalogue.reachable_after (.ofPool 2 .repository) (.shop 3) (saleSteps 0 (mugRequest 0 "k"))) hrun rfl
    (by decide) (by decide) (by decide) hlast (by decide) (by decide) rfl
  exact ⟨k, hk, rows, hrows, row, hrow, hid⟩

end OrdersBackend
