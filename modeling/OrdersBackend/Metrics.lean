import OrdersBackend.Lib.Grouping
import OrdersBackend.SystemSound

/-!
# Metrics

`AppService.getMetrics` counts the orders by status in one statement and the
dedup rows in a second one, with the system running in between.
-/

namespace OrdersBackend

open Conc

variable {cfg : Config} {c : Catalogue} {s s' : Shared} {conf conf' : SysConf}

structure Metrics where
  ordersByStatus : JsMap OrderStatus Nat
  processedMessages : Nat

def getMetrics (orderStatusRows : List (OrderStatus × Nat)) (processedMessages : Nat) : Metrics where
  ordersByStatus := orderStatusRows.foldl (fun acc row => acc.set row.1 row.2) .empty
  processedMessages

def Db.statuses (db : Db) : List OrderStatus := db.orders.map (·.status)

/-- A response whose first statement has read `db` and whose second `db'`. -/
def Metrics.Answers (m : Metrics) (db db' : Db) : Prop :=
  ∃ rows, Grouping.IsGrouped db.statuses rows ∧ m = getMetrics rows db'.processedMessages.length

def Metrics.total (m : Metrics) : Nat := (m.ordersByStatus.entries.map Prod.snd).sum

def Metrics.count (m : Metrics) (st : OrderStatus) : Nat := (m.ordersByStatus.get? st).getD 0

theorem Metrics.Answers.get? {m : Metrics} {db db' : Db} (h : m.Answers db db') (st : OrderStatus) (n : Nat) :
    m.ordersByStatus.get? st = some n ↔ 0 < n ∧ n = db.statuses.count st := by
  obtain ⟨rows, hrows, rfl⟩ := h
  exact (JsMap.get?_ofList rows hrows.keys_nodup st n).trans (hrows.mem_iff st n)

theorem Metrics.Answers.count {m : Metrics} {db db' : Db} (h : m.Answers db db') (st : OrderStatus) :
    m.count st = db.statuses.count st := by
  unfold Metrics.count
  cases hg : m.ordersByStatus.get? st with
  | some n => exact ((h.get? st n).mp hg).2
  | none =>
    by_contra hne
    have hpos : 0 < db.statuses.count st := Nat.pos_of_ne_zero (Ne.symm hne)
    have hsome := (h.get? st _).mpr ⟨hpos, rfl⟩
    rw [hg] at hsome
    cases hsome

theorem Metrics.Answers.total {m : Metrics} {db db' : Db} (h : m.Answers db db') : m.total = db.orders.length := by
  obtain ⟨rows, hrows, rfl⟩ := h
  have hentries : (JsMap.ofList rows).entries = rows := JsMap.entries_ofList rows hrows.keys_nodup
  unfold Metrics.total
  show ((JsMap.ofList rows).entries.map Prod.snd).sum = _
  rw [hentries, hrows.sum_counts, Db.statuses, List.length_map]

/-! ## Dedup rows and processed orders -/

def Db.idsWith (db : Db) (st : OrderStatus) : List Uuid :=
  (db.orders.filter fun o => o.status = st).map (·.id)

theorem length_idsWith (db : Db) (st : OrderStatus) : (db.idsWith st).length = db.statuses.count st := by
  rw [Db.idsWith, Db.statuses, List.length_map, ← List.countP_eq_length_filter, List.count, List.countP_map]
  rfl

theorem Saga.mem_idsWith (h : Saga cfg c s) {st : OrderStatus} {id : Uuid} :
    id ∈ s.db.idsWith st ↔ ∃ o, s.db.order? id = some o ∧ o.status = st := by
  unfold Db.idsWith
  rw [List.mem_map]
  constructor
  · rintro ⟨o, ho, rfl⟩
    obtain ⟨hmem, hst⟩ := List.mem_filter.mp ho
    exact ⟨o, Db.order?_of_mem h.inv.tables.orderIds hmem, of_decide_eq_true hst⟩
  · rintro ⟨o, ho, hst⟩
    exact ⟨o, List.mem_filter.mpr ⟨Db.order?_mem ho, decide_eq_true hst⟩, Db.order?_id ho⟩

theorem Saga.idsWith_nodup (h : Saga cfg c s) (st : OrderStatus) : (s.db.idsWith st).Nodup :=
  h.inv.tables.orderIds.sublist (List.filter_sublist.map _)

/-- The dedup rows are of different orders: the calls that have published two
of them for one order are one call, which has published one message. -/
theorem Saga.dedup_orders_nodup (h : Saga cfg c s) : (s.db.processedMessages.map (·.orderId)).Nodup := by
  have hI := h.inv
  refine List.Nodup.map_on (fun m hm m' hm' he => ?_) hI.tables.messages.of_map
  obtain ⟨⟨t, hp⟩, _⟩ := hI.messages.dedup m hm
  obtain ⟨⟨t', hp'⟩, _⟩ := hI.messages.dedup m' hm'
  have htt : t = t' := hI.calls.unique t t' m.orderId (by rw [hp]; rfl) (by rw [hp', he]; rfl)
  subst htt
  rw [hp, Phase.published.injEq] at hp'
  exact List.inj_on_of_nodup_map hI.tables.messages hm hm' hp'.2

theorem Saga.dedup_perm (h : Saga cfg c s) :
    (s.db.processedMessages.map (·.orderId)).Perm (s.db.idsWith .processed) := by
  rw [List.perm_ext_iff_of_nodup h.dedup_orders_nodup (h.idsWith_nodup .processed)]
  intro id
  rw [h.mem_idsWith, List.mem_map]
  constructor
  · rintro ⟨m, hm, rfl⟩
    exact (h.inv.messages.dedup m hm).2
  · rintro ⟨o, ho, hst⟩
    exact h.inv.messages.processed id o ho hst

theorem Saga.count_processed (h : Saga cfg c s) :
    s.db.statuses.count .processed = s.db.processedMessages.length := by
  rw [← length_idsWith, ← h.dedup_perm.length_eq, List.length_map]

/-! ## Growth -/

theorem Saga.idsWith_subset (h : Saga cfg c s) (hr : Runs (Step cfg) (fun _ => True) s s') {st : OrderStatus}
    (hst : st ≠ .pending) : s.db.idsWith st ⊆ s'.db.idsWith st := by
  intro id hid
  obtain ⟨o, ho, hs⟩ := h.mem_idsWith.mp hid
  obtain ⟨o', ho', hev⟩ := h.order hr ho
  refine (h.run hr).mem_idsWith.mpr ⟨o', ho', ?_⟩
  rw [hev.final (by rw [hs]; exact hst), hs]

theorem Saga.count_mono (h : Saga cfg c s) (hr : Runs (Step cfg) (fun _ => True) s s') {st : OrderStatus}
    (hst : st ≠ .pending) : s.db.statuses.count st ≤ s'.db.statuses.count st := by
  rw [← length_idsWith, ← length_idsWith]
  exact (List.subperm_of_subset (h.idsWith_nodup st) (h.idsWith_subset hr hst)).length_le

theorem Saga.orders_mono (h : Saga cfg c s) (hr : Runs (Step cfg) (fun _ => True) s s') :
    s.db.orders.length ≤ s'.db.orders.length := by
  have hsub : s.db.orders.map (·.id) ⊆ s'.db.orders.map (·.id) := by
    intro id hid
    obtain ⟨o, ho, rfl⟩ := List.mem_map.mp hid
    obtain ⟨o', ho', _⟩ := h.order hr (Db.order?_of_mem h.inv.tables.orderIds ho)
    exact List.mem_map.mpr ⟨o', Db.order?_mem ho', Db.order?_id ho'⟩
  have hlen := (List.subperm_of_subset h.inv.tables.orderIds hsub).length_le
  simpa using hlen

/-! ## What a response says -/

theorem Reachable.count_messages (h : Reachable cfg c conf') {m : Metrics} {db : Db}
    (hm : m.Answers db conf'.world.db) : m.processedMessages = conf'.world.db.statuses.count .processed := by
  obtain ⟨rows, _, rfl⟩ := hm
  exact h.saga.count_processed.symm

/-- The counts of one response fit together, whatever commits between its two
statements. -/
theorem metrics_consistent (h : Reachable cfg c conf) (hr : (machine cfg).Reach conf conf') {m : Metrics}
    (hm : m.Answers conf.world.db conf'.world.db) :
    m.total = conf.world.db.orders.length ∧
      (∀ st n, m.ordersByStatus.get? st = some n ↔ 0 < n ∧ n = conf.world.db.statuses.count st) ∧
      m.processedMessages = conf'.world.db.statuses.count .processed ∧
      m.count .processed ≤ m.processedMessages := by
  have hreach : Reachable cfg c conf' := h.trans hr
  have hmessages := hreach.count_messages hm
  refine ⟨hm.total, hm.get?, hmessages, ?_⟩
  rw [hm.count, hmessages]
  exact h.saga.count_mono (h.runs hr) nofun

/-- Of two responses, one asked for after the other has been given, the second
never counts less. -/
theorem metrics_monotone {conf₁ conf₂ conf₃ conf₄ : SysConf} (h : Reachable cfg c conf₁)
    (h₁ : (machine cfg).Reach conf₁ conf₂) (h₂ : (machine cfg).Reach conf₂ conf₃)
    (h₃ : (machine cfg).Reach conf₃ conf₄) {m m' : Metrics} (hm : m.Answers conf₁.world.db conf₂.world.db)
    (hm' : m'.Answers conf₃.world.db conf₄.world.db) :
    m.total ≤ m'.total ∧ m.count .failed ≤ m'.count .failed ∧ m.count .processed ≤ m.processedMessages ∧
      m.processedMessages ≤ m'.count .processed ∧ m'.count .processed ≤ m'.processedMessages := by
  have hreach₂ : Reachable cfg c conf₂ := h.trans h₁
  have hreach₃ : Reachable cfg c conf₃ := hreach₂.trans h₂
  have hreach₄ : Reachable cfg c conf₄ := hreach₃.trans h₃
  have hrun₁ := h.runs h₁
  have hrun₂ := hreach₂.runs h₂
  rw [hreach₂.count_messages hm, hreach₄.count_messages hm']
  simp only [hm.total, hm'.total, hm.count, hm'.count]
  refine ⟨?_, ?_, ?_, ?_, ?_⟩
  · exact h.saga.orders_mono (hrun₁.trans hrun₂)
  · exact h.saga.count_mono (hrun₁.trans hrun₂) nofun
  · exact h.saga.count_mono hrun₁ nofun
  · exact hreach₂.saga.count_mono hrun₂ nofun
  · exact hreach₃.saga.count_mono (hreach₃.runs h₃) nofun

/-! ## A delivery between the two statements -/

def soldMug : SysConf := (Catalogue.shop 3).after (.ofPool 2 .repository) (saleSteps 0 (mugRequest 0 "k"))

def deliveredMug : SysConf := ((machine (.ofPool 2 .repository)).run soldMug (deliverySteps 1 0)).getD soldMug

theorem soldMug_reaches : (machine (.ofPool 2 .repository)).Reach soldMug deliveredMug :=
  Machine.reach_getD_run soldMug (deliverySteps 1 0)

theorem answers_mug (db db' : Db) : (getMetrics (Grouping.counts db.statuses) db'.processedMessages.length).Answers
    db db' := ⟨_, .refl _, rfl⟩

theorem metrics_consistent_mug :
    let m := getMetrics (Grouping.counts soldMug.world.db.statuses) deliveredMug.world.db.processedMessages.length
    m.count .processed = 0 ∧ m.processedMessages = 1 ∧ m.total = 1 := by
  intro m
  obtain ⟨htotal, _, hmessages, _⟩ := metrics_consistent (Catalogue.reachable_after (.ofPool 2 .repository) (.shop 3)
    (saleSteps 0 (mugRequest 0 "k"))) soldMug_reaches (answers_mug _ _)
  exact ⟨by decide, hmessages, htotal⟩

theorem metrics_monotone_mug :
    let m := getMetrics (Grouping.counts soldMug.world.db.statuses) soldMug.world.db.processedMessages.length
    let m' := getMetrics (Grouping.counts deliveredMug.world.db.statuses)
      deliveredMug.world.db.processedMessages.length
    m.total ≤ m'.total ∧ m.processedMessages ≤ m'.count .processed := by
  intro m m'
  obtain ⟨htotal, _, _, hmessages, _⟩ := metrics_monotone (Catalogue.reachable_after (.ofPool 2 .repository) (.shop 3)
    (saleSteps 0 (mugRequest 0 "k"))) .refl soldMug_reaches .refl (answers_mug _ _) (answers_mug _ _)
  exact ⟨htotal, hmessages⟩

end OrdersBackend
