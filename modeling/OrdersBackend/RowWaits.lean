import OrdersBackend.TransactionsSound

/-!
# Who waits for whom

Of all the rows, only those of products are taken in no order of their own, so
only through them can transactions wait for each other in a circle. Where the
calls keep to the order of the locks there is no circle at all, and whoever
follows the waits comes to a transaction whose next command goes through.
-/

namespace OrdersBackend

open Conc

variable {cfg : Config} {c : Catalogue} {t u : Tid} {w w' : World} {cmd : Cmd} {ch : Choice} {conf conf' : SysConf}

/-- The next command of `t` needs a row that another has locked. -/
def wantsRow (conf : SysConf) (t : Tid) (row : Row) : Prop :=
  ∃ cmd k, conf.threads t = .running (.await cmd k) ∧ row ∈ cmd.rows conf.world ∧
    ∃ u, u ≠ t ∧ conf.world.locks row = some u

def rowOwner (conf : SysConf) (row : Row) : Option Tid := conf.world.locks row

/-! ## Orders that have locks -/

theorem MayIssue.locked_row (hp : MayIssue t cmd w) {r : Except Err cmd.Res} (hx : exec cfg t cmd ch w = some (r, w'))
    {row : Row} (hr : w'.locks row = some t) :
    w.locks row = some t ∨ cmd.locks = true ∧ row ∈ cmd.rows w ∧ ∃ a, r = .ok a := by
  cases hl : cmd.locks with
  | true =>
    rcases ((exec_acquires hl hx).2 row).mp hr with hold | ⟨hok, hnew⟩
    · exact .inl hold
    · exact .inr ⟨rfl, hnew, hok⟩
  | false =>
    left
    cases hd : cmd.delimits with
    | false =>
      rw [(exec_keeps hl hd hx).2] at hr
      exact hr
    | true =>
      have ended : ∀ slot, (cmd = .commitTransaction slot ∨ cmd = .rollbackTransaction slot ∧
          (slot = .qr → (w.tx t).isOpen = true → (w.tx t).active = true)) → w.locks row = some t := by
        intro slot hc
        rcases (exec_end hc hx).2 with hfree | ⟨_, hl⟩
        · exact (hfree row hr).elim
        · rw [hl] at hr
          exact hr
      cases cmd with
      | startTransaction slot =>
        rw [(exec_start hx).1] at hr
        exact hr
      | commitTransaction slot => exact ended slot (.inl rfl)
      | rollbackTransaction slot => exact ended slot (.inr ⟨rfl, fun hq => hp.closable (by rw [hq])⟩)
      | _ => cases hd

/-- The order of a delivered message is there. -/
theorem SagaInv.order_lt {s : Shared} (h : SagaInv c s) {m : Message} (hm : s.jobs t = some (.deliver m))
    {payload : OrdersProcessMessage} (hc : m.content = .value payload) {id : Uuid} (hid : payload.orderId = some id) :
    id < s.uuids := by
  obtain ⟨t', mid, _, hp⟩ := (h.messages.delivered t m hm).call hc hid
  obtain ⟨req, o, ho⟩ := h.calls.owns t' id (by rw [hp]; rfl)
  exact h.calls.fresh id o ho.found

/-- A row is locked by a statement of its owner only. -/
theorem Reachable.row_locked (h : Reachable cfg c conf) {l : SysLabel} (hs : (machine cfg).step conf l = some conf')
    {row : Row} (hr : conf'.world.locks row = some t) :
    conf.world.locks row = some t ∨ ∃ cmd ch a, MayIssue t cmd conf.world ∧
      exec cfg t cmd ch conf.world = some (.ok a, conf'.world) ∧ cmd.locks = true ∧ row ∈ cmd.rows conf.world := by
  have hgood := h.transactions.1
  rcases Machine.step_cases hs with ⟨u, ch, cmd, k, r, w, rfl, hp, hx, rfl⟩ | ⟨u, cmd, k, rfl, hp, rfl⟩ |
    ⟨act, w, rfl, hx, rfl⟩ | ⟨u, arr, p, w, rfl, hp, hx, rfl⟩
  · have hturn : MayIssue u cmd conf.world := hgood.pre hp
    by_cases hu : u = t
    · subst hu
      rcases hturn.locked_row hx hr with hold | ⟨hc, hrow, a, rfl⟩
      · exact .inl hold
      · exact .inr ⟨cmd, ch, a, hturn, hx, hc, hrow⟩
    · exact .inl (((exec_stays (Ne.symm hu) (hgood.1.logs u) hx).locks row).mp hr)
  · left
    simp only [machine, World.kill, World.setSession, World.unlockAll] at hr
    split at hr
    · cases hr
    · exact hr
  · obtain ⟨s, _, rfl⟩ := Option.map_eq_some_iff.mp hx
    exact .inl hr
  · obtain ⟨_, s, rfl, _⟩ := arrive_cases hx
    exact .inl hr

theorem Reachable.order_lt (h : Reachable cfg c conf) {id : Uuid} {t : Tid}
    (hr : conf.world.locks (.order id) = some t) : id < conf.world.uuids := by
  induction h generalizing id with
  | refl => cases hr
  | @step conf conf' l hreach hs ih =>
    have hreach : Reachable cfg c conf := hreach
    have hle : conf.world.uuids ≤ conf'.world.uuids := uuids_of_run (Reachable.step hreach hs)
    rcases hreach.row_locked hs hr with hold | ⟨cmd, ch, a, hturn, hx, hc, hrow⟩
    · exact Nat.lt_of_lt_of_le (ih hold) hle
    · have hnames := hturn.names
      have named : ∀ {id'}, id' < conf.world.uuids → Row.order id ∈ [Row.order id'] → id < conf'.world.uuids := by
        intro id' hlt hrow
        cases List.mem_singleton.mp hrow
        exact Nat.lt_of_lt_of_le hlt hle
      cases cmd with
      | saveFailed id' => exact named hnames hrow
      | insertItem | saveProcessed => exact named (ih hnames) hrow
      | lockOrder id' =>
        cases id' with
        | none => cases hrow
        | some id' =>
          obtain ⟨m, payload, hm, hc, hid⟩ := hnames
          exact named (hreach.saga.inv.order_lt hm hc hid) hrow
      | insertOrder userId key =>
        have huuids := (insertOrder_ok (perform_of_ok hx)).2
        rcases List.mem_cons.mp hrow with he | hrow
        · cases he
        · cases List.mem_singleton.mp hrow
          rw [huuids]
          exact Nat.lt_succ_self _
      | insertProcessed mid oid handler =>
        obtain ⟨mid, he⟩ := rows_insertProcessed hrow
        cases he
      | lockProduct | saveStock | incrementStock => cases List.mem_singleton.mp hrow
      | _ => cases hc

/-! ## The levels -/

theorem rows_inLevels (h : Reachable cfg c conf) : InLevels Row.level 2 (wantsRow conf) (rowOwner conf) := by
  rintro t row ⟨cmd, k, hth, hrow, u, hne, hu⟩ r hr
  have hturn : MayIssue t cmd conf.world := h.transactions.1.pre hth
  rcases hturn.above row hrow with hown | rfl | habove
  · rw [hu] at hown
    exact (hne (Option.some.inj hown)).elim
  · exact (Nat.lt_irrefl _ (h.order_lt hu)).elim
  · exact habove r hr

theorem productRow_of_rows {id : Uuid} (h : .product id ∈ cmd.rows w) : cmd.productRow = some id := by
  cases cmd with
  | lockProduct | saveStock | incrementStock =>
    cases List.mem_singleton.mp h
    rfl
  | insertOrder =>
    rcases List.mem_cons.mp h with he | h
    · cases he
    · cases List.mem_singleton.mp h
  | insertItem | saveFailed | updatePayment | saveProcessed => cases List.mem_singleton.mp h
  | lockOrder =>
    obtain ⟨_, he⟩ := rows_lockOrder h
    cases he
  | insertProcessed =>
    obtain ⟨_, he⟩ := rows_insertProcessed h
    cases he
  | _ => cases h

theorem wantsProduct_of_wantsRow {row : Row} (h : wantsRow conf t row) (hl : row.level = 2) :
    ∃ id, row = .product id ∧ wantsProduct conf t id := by
  obtain ⟨cmd, k, hth, hrow, u, hne, hu⟩ := h
  cases row with
  | product id =>
    refine ⟨id, rfl, cmd, k, hth, productRow_of_rows hrow, fun he => ?_⟩
    rw [he] at hu
    exact hne (Option.some.inj hu).symm
  | _ => cases hl

/-- Transactions that wait for each other in a circle do so through the rows of
products. -/
theorem row_cycle_iff (h : Reachable cfg c conf) (t : Tid) :
    Relation.TransGen (WaitsFor (wantsRow conf) (rowOwner conf)) t t ↔
      Relation.TransGen (WaitsFor (wantsProduct conf) (productOwner conf)) t t := by
  constructor
  · intro hp
    refine Relation.TransGen.mono (fun t u hw => ?_) _ _ ((rows_inLevels h).cycle hp)
    obtain ⟨row, ⟨hr, hl⟩, ho⟩ := hw
    obtain ⟨id, rfl, hid⟩ := wantsProduct_of_wantsRow hr hl
    exact ⟨id, hid, ho⟩
  · intro hp
    refine Relation.TransGen.mono (fun t u hw => ?_) _ _ hp
    obtain ⟨id, ⟨cmd, k, hth, hrow, hfree⟩, ho⟩ := hw
    refine ⟨.product id, ⟨cmd, k, hth, ?_, u, fun he => hfree (he ▸ ho), ho⟩, ho⟩
    rw [(rows_of_productRow (t := t) hrow conf.world).2.1]
    exact List.mem_singleton_self _

/-- The lines of the first order name the second product first. -/
theorem row_cycle_pair :
    let conf := Catalogue.pair.after (.ofPool 3 .repository) (compensationSteps 1 0 6)
    Relation.TransGen (WaitsFor (wantsRow conf) (rowOwner conf)) 0 0 := by
  intro conf
  refine (row_cycle_iff (Catalogue.reachable_after (.ofPool 3 .repository) .pair (compensationSteps 1 0 6)) 0).mpr ?_
  exact .tail (.single (b := 1) ⟨0, ⟨_, _, rfl, rfl, by decide⟩, rfl⟩) ⟨1, ⟨_, _, rfl, rfl, by decide⟩, rfl⟩

/-! ## No transaction is stuck -/

/-- The place of a row in the order of the locks. -/
def Row.rank (c : Catalogue) : Row → Nat
  | .message _ => 0
  | .order _ => 1
  | .product id => 2 + (c.products.map (·.id)).idxOf id
  | .orderKey _ _ => 3 + c.products.length

theorem Row.rank_le (c : Catalogue) (row : Row) : row.rank c ≤ 3 + c.products.length := by
  cases row with
  | product id =>
    have hle : (c.products.map (·.id)).idxOf id ≤ (c.products.map (·.id)).length := List.idxOf_le_length
    rw [List.length_map] at hle
    show 2 + _ ≤ _
    omega
  | message | order | orderKey =>
    simp only [rank]
    omega

theorem Row.rank_lt_of_level (c : Catalogue) {r row : Row} (h : r.level < row.level) : r.rank c < row.rank c := by
  have hle : ∀ id, (c.products.map (·.id)).idxOf id ≤ c.products.length := fun id => by
    simpa using List.idxOf_le_length (l := c.products.map (·.id)) (a := id)
  cases r with
  | product id =>
    have := hle id
    cases row <;> simp only [level, rank] at h ⊢ <;> omega
  | message | order | orderKey => cases row <;> simp only [level, rank] at h ⊢ <;> omega

theorem rows_inOrder (h : (machine cfg).ReachWhen (LockOrdered c) c.initial conf) :
    InOrder (Row.rank c) (wantsRow conf) (rowOwner conf) := by
  have hreach : Reachable cfg c conf := h.reach
  intro t row hwant r hr
  rcases rows_inLevels hreach t row hwant r hr with hlt | ⟨hr2, hrow2⟩
  · exact Row.rank_lt_of_level c hlt
  · obtain ⟨id, rfl, hid⟩ := wantsProduct_of_wantsRow hwant hrow2
    cases r with
    | product q =>
      have hlt : (c.products.map (·.id)).idxOf q < (c.products.map (·.id)).idxOf id := products_inOrder h t id hid q hr
      simp only [Row.rank]
      omega
    | message | order | orderKey => cases hr2

theorem stmt_isSome {wr : Write} (h : ∀ row ∈ wr.rows, w.lockable t row = true) : (w.stmt t wr).isSome = true := by
  unfold World.stmt
  rw [if_pos (List.all_eq_true.mpr h)]
  rfl

/-- A command that waits for nothing but its rows, and has them. -/
theorem perform_isSome (hwait : cmd.waits = false)
    (hback : ∀ slot, cmd = .rollbackTransaction slot → (w.sess t).broken = false)
    (hrows : ∀ row ∈ cmd.rows w, w.lockable t row = true) : (perform cfg t cmd w).isSome = true := by
  cases cmd with
  | connect | acquire | sendAuthorize | awaitAuthorize => cases hwait
  | rollbackTransaction slot =>
    simp only [perform, hback slot rfl]
    split
    · contradiction
    · split <;> rfl
  | commitTransaction slot =>
    simp only [perform]
    split <;> rfl
  | lockProduct id | updatePayment id =>
    simp only [perform]
    rw [if_pos (hrows _ (List.mem_singleton_self _))]
    rfl
  | saveStock | incrementStock | saveFailed | saveProcessed =>
    simp only [perform, Option.isSome_map]
    exact stmt_isSome hrows
  | insertItem =>
    simp only [perform, Option.isSome_map]
    exact stmt_isSome (w := w.nextUuid) hrows
  | insertOrder userId key =>
    simp only [perform]
    rw [if_pos (hrows _ (List.mem_cons_self ..))]
    split
    · rfl
    · simp only [Option.isSome_map]
      refine stmt_isSome (w := w.nextUuid) fun row hr => hrows row ?_
      simpa [Write.rows, Cmd.rows, or_comm] using hr
  | insertProcessed mid oid handler =>
    cases mid with
    | none => rfl
    | some mid =>
      cases oid with
      | none => rfl
      | some oid =>
        have hfree := hrows _ (List.mem_singleton_self _)
        simp only [perform]
        rw [if_pos hfree]
        split
        · rfl
        · simp only [Option.isSome_map]
          exact stmt_isSome hrows
  | lockOrder id =>
    cases id with
    | none => rfl
    | some id =>
      simp only [perform]
      rw [if_pos (hrows _ (List.mem_singleton_self _))]
      rfl
  | _ => rfl

/-- Where the calls keep to the order of the locks, whoever follows the waits of
a transaction comes to one whose next command goes through. -/
theorem transactions_proceed (h : (machine cfg).ReachWhen (LockOrdered c) c.initial conf)
    (ht : (conf.world.sess t).log.isSome) :
    ∃ u, Relation.ReflTransGen (WaitsFor (wantsRow conf) (rowOwner conf)) t u ∧
      ∃ cmd k, conf.threads u = .running (.await cmd k) ∧ (perform cfg u cmd conf.world).isSome = true := by
  have hreach : Reachable cfg c conf := h.reach
  have hgood := hreach.transactions.1
  obtain ⟨u, hu, hfree⟩ := (rows_inOrder h).exists_free (Row.rank_le c) t
  have hopen : (conf.world.tx u).isOpen = true := by
    rcases Relation.ReflTransGen.cases_tail hu with rfl | ⟨v, _, row, _, ho⟩
    · exact ht
    · exact hgood.1.opened u row ho
  obtain ⟨cmd, k, hth, hwait⟩ := hreach.running_of_open hopen
  have hissue : MayIssue u cmd conf.world := hgood.pre hth
  refine ⟨u, hu, cmd, k, hth, perform_isSome hwait (fun slot hc => hissue.sound slot hc hopen) fun row hr => ?_⟩
  cases ho : conf.world.locks row with
  | none => simp [World.lockable, ho]
  | some v =>
    by_cases hv : v = u
    · subst hv
      simp [World.lockable, ho]
    · exact (hfree v ⟨row, ⟨cmd, k, hth, hr, v, hv, ho⟩, ho⟩).elim

/-- The first call compensates, the second waits for its first product. -/
theorem transactions_proceed_pair :
    let conf := Catalogue.pair.afterWhen (.ofPool 3 .repository) (lockOrdered .pair) (compensationSteps 0 1 5)
    (conf.world.sess 1).log.isSome ∧ ∃ u, Relation.ReflTransGen (WaitsFor (wantsRow conf) (rowOwner conf)) 1 u ∧
      ∃ cmd k, conf.threads u = .running (.await cmd k) ∧
        (perform (.ofPool 3 .repository) u cmd conf.world).isSome = true := by
  intro conf
  have hopen : (conf.world.sess 1).log.isSome := by decide
  exact ⟨hopen, transactions_proceed (Catalogue.reachable_afterWhen (.ofPool 3 .repository) (lockOrdered .pair) .pair
    (compensationSteps 0 1 5)) hopen⟩

end OrdersBackend
