import Mathlib.Data.List.Dedup
import Mathlib.Data.List.Induction
import OrdersBackend.PaymentsStore

/-!
# The payments ledger

What `PaymentsStore` is for: a ledger to which each new payment is appended
with its idempotency key, if it has one, and in which nothing is ever changed.
The two maps of the store are the ledger, listed by id and by key.
-/

namespace OrdersBackend

open Conc

/-! ## The ledger -/

/-- A key that the store looks at: present and not empty. -/
def AuthorizeRequest.key? (input : AuthorizeRequest) : Option String := input.idempotencyKey.filter (· ≠ "")

def AuthorizeRequest.newRecord (input : AuthorizeRequest) (uuid : Uuid) : PaymentRecord :=
  ⟨uuid, input.orderId, input.amountCents, input.currency, .authorized⟩

structure LedgerEntry where
  key : Option String
  record : PaymentRecord

abbrev Ledger := List LedgerEntry

namespace Ledger

def find? (l : Ledger) (key : String) : Option PaymentRecord :=
  (List.find? (fun e => e.key = some key) l).map (·.record)

def authorize (l : Ledger) (uuid : Uuid) (input : AuthorizeRequest) : PaymentRecord × Ledger :=
  match input.key?.bind l.find? with
  | some r => (r, l)
  | none => (input.newRecord uuid, l ++ [⟨input.key?, input.newRecord uuid⟩])

end Ledger

/-- The store lists the ledger. -/
structure PaymentsStore.Represents (store : PaymentsStore) (l : Ledger) : Prop where
  byId : store.byId.entries = l.map fun e => (e.record.paymentId, e.record)
  byKey : store.byIdempotencyKey.entries = l.filterMap fun e => e.key.map (·, e.record.paymentId)

variable {store : PaymentsStore} {l : Ledger} {input : AuthorizeRequest} {uuid : Uuid}

namespace PaymentsStore

theorem existing_eq (store : PaymentsStore) (input : AuthorizeRequest) :
    store.existing input.idempotencyKey =
      input.key?.bind fun key => (store.byIdempotencyKey.get? key).bind store.byId.get? := by
  unfold existing AuthorizeRequest.key?
  cases input.idempotencyKey with
  | none => rfl
  | some key =>
    by_cases hk : key = ""
    · simp [hk, Option.filter]
    · simp only [hk, if_false, Option.filter, ne_eq, not_false_eq_true, decide_true, if_true, Option.bind_some]
      cases store.byIdempotencyKey.get? key <;> rfl

theorem create_eq (store : PaymentsStore) (uuid : Uuid) (input : AuthorizeRequest) :
    store.create uuid input = (input.newRecord uuid,
      { byId := store.byId.set uuid (input.newRecord uuid)
        byIdempotencyKey := match input.key? with
          | some key => store.byIdempotencyKey.set key uuid
          | none => store.byIdempotencyKey }) := by
  unfold create AuthorizeRequest.key?
  cases input.idempotencyKey with
  | none => rfl
  | some key =>
    by_cases hk : key = ""
    · simp [hk, AuthorizeRequest.newRecord, Option.filter]
    · simp [hk, AuthorizeRequest.newRecord, Option.filter]

theorem represents_empty : empty.Represents [] := ⟨rfl, rfl⟩

namespace Represents

theorem get?_byId (h : store.Represents l) {e : LedgerEntry} (he : e ∈ l) :
    store.byId.get? e.record.paymentId = some e.record := by
  rw [JsMap.get?_eq_some_iff, h.byId]
  exact List.mem_map.mpr ⟨e, he, rfl⟩

theorem of_get?_byKey (h : store.Represents l) {key : String} {id : Uuid}
    (hk : store.byIdempotencyKey.get? key = some id) : ∃ e ∈ l, e.key = some key ∧ e.record.paymentId = id := by
  rw [JsMap.get?_eq_some_iff, h.byKey] at hk
  obtain ⟨e, he, heq⟩ := List.mem_filterMap.mp hk
  obtain ⟨k, hek, hpair⟩ := Option.map_eq_some_iff.mp heq
  cases hpair
  exact ⟨e, he, hek, rfl⟩

/-- The lookup through both maps finds the first entry with the key. -/
theorem lookup (h : store.Represents l) (key : String) :
    (store.byIdempotencyKey.get? key).bind store.byId.get? = l.find? key := by
  unfold Ledger.find?
  cases hf : List.find? (fun e => e.key = some key) l with
  | none =>
    cases hk : store.byIdempotencyKey.get? key with
    | none => rfl
    | some id =>
      obtain ⟨e, he, hek, _⟩ := h.of_get?_byKey hk
      have hno := List.find?_eq_none.mp hf e he
      simp [hek] at hno
  | some e =>
    have he := List.mem_of_find?_eq_some hf
    have hek : e.key = some key := by simpa using List.find?_some hf
    have hk : store.byIdempotencyKey.get? key = some e.record.paymentId := by
      rw [JsMap.get?_eq_some_iff, h.byKey]
      exact List.mem_filterMap.mpr ⟨e, he, by rw [hek]; rfl⟩
    rw [hk, Option.bind_some, h.get?_byId he]
    rfl

theorem existing (h : store.Represents l) (input : AuthorizeRequest) :
    store.existing input.idempotencyKey = input.key?.bind l.find? := by
  rw [existing_eq]
  exact congrArg _ (funext h.lookup)

/-- The code's store and the ledger go on together. -/
theorem authorize (h : store.Represents l) (hfresh : store.byId.get? uuid = none) (input : AuthorizeRequest) :
    (store.authorize uuid input).1 = (l.authorize uuid input).1 ∧
      (store.authorize uuid input).2.Represents (l.authorize uuid input).2 := by
  have he := h.existing input
  unfold Ledger.authorize
  cases hf : input.key?.bind l.find? with
  | some r =>
    rw [hf] at he
    rw [authorize_existing he]
    exact ⟨rfl, h⟩
  | none =>
    rw [hf] at he
    rw [authorize_create he, create_eq]
    refine ⟨rfl, ?_, ?_⟩
    · simp only [JsMap.entries_set_of_get?_none _ _ hfresh, h.byId, List.map_append]
      rfl
    · cases hk : input.key? with
      | none => simp [h.byKey]
      | some key =>
        have hnone : store.byIdempotencyKey.get? key = none := by
          cases hg : store.byIdempotencyKey.get? key with
          | none => rfl
          | some id =>
            obtain ⟨e, hel, hek, hid⟩ := h.of_get?_byKey hg
            rw [hk, Option.bind_some, ← h.lookup, hg, Option.bind_some, ← hid, h.get?_byId hel] at hf
            cases hf
        simp only [JsMap.entries_set_of_get?_none _ _ hnone, h.byKey, List.filterMap_append]
        rfl

end Represents

end PaymentsStore

/-! ## Runs of the store -/

inductive StoreCall where
  | authorize (input : AuthorizeRequest)
  | getStatus (paymentId : Uuid)

/-- The store of a running service, and how many uuids it has drawn. -/
structure LiveStore where
  store : PaymentsStore
  drawn : Nat

variable (randomUUID : Nat → Uuid)

namespace LiveStore

def init : LiveStore := ⟨.empty, 0⟩

def serve (s : LiveStore) : StoreCall → Option PaymentRecord × LiveStore
  | .authorize input =>
    let (r, store) := s.store.authorize (randomUUID s.drawn) input
    (some r, ⟨store, if (s.store.existing input.idempotencyKey).isSome then s.drawn else s.drawn + 1⟩)
  | .getStatus paymentId => (s.store.getStatus paymentId, s)

def after (calls : List StoreCall) : LiveStore := calls.foldl (fun s call => (s.serve randomUUID call).2) init

/-- What the call returns that comes after `past`. -/
def reply (past : List StoreCall) (call : StoreCall) : Option PaymentRecord :=
  ((after randomUUID past).serve randomUUID call).1

end LiveStore

namespace Ledger

def serve (l : Ledger) : StoreCall → Option PaymentRecord × Ledger
  | .authorize input =>
    let (r, l') := l.authorize (randomUUID l.length) input
    (some r, l')
  | .getStatus paymentId => ((List.find? (fun e => e.record.paymentId = paymentId) l).map (·.record), l)

def after (calls : List StoreCall) : Ledger := calls.foldl (fun l call => (l.serve randomUUID call).2) []

end Ledger

/-- The store lists the ledger, whose records have the uuids drawn so far. -/
structure LiveStore.Represents (s : LiveStore) (l : Ledger) : Prop where
  store : s.store.Represents l
  drawn : s.drawn = l.length
  ids : l.map (·.record.paymentId) = (List.range l.length).map randomUUID

variable {randomUUID} {s : LiveStore}

theorem LiveStore.Represents.fresh (h : s.Represents randomUUID l) (hinj : Function.Injective randomUUID) :
    s.store.byId.get? (randomUUID s.drawn) = none := by
  rw [JsMap.get?_eq_none_iff, JsMap.keys, h.store.byId, List.map_map]
  show randomUUID s.drawn ∉ l.map (·.record.paymentId)
  rw [h.ids, h.drawn]
  intro hm
  obtain ⟨n, hn, he⟩ := List.mem_map.mp hm
  exact Nat.ne_of_lt (List.mem_range.mp hn) (hinj he)

theorem LiveStore.Represents.serve (h : s.Represents randomUUID l) (hinj : Function.Injective randomUUID)
    (call : StoreCall) : (s.serve randomUUID call).1 = (l.serve randomUUID call).1 ∧
      (s.serve randomUUID call).2.Represents randomUUID (l.serve randomUUID call).2 := by
  cases call with
  | authorize input =>
    obtain ⟨hreply, hstore⟩ := h.store.authorize (h.fresh hinj) input
    have he := h.store.existing input
    simp only [LiveStore.serve, Ledger.serve]
    rw [h.drawn] at hreply hstore ⊢
    refine ⟨congrArg some hreply, hstore, ?_, ?_⟩
    · rw [he]
      unfold Ledger.authorize
      cases input.key?.bind l.find? <;> simp
    · unfold Ledger.authorize
      cases input.key?.bind l.find? with
      | some r => exact h.ids
      | none =>
        simp only [List.map_append, h.ids, List.length_append, List.length_singleton, List.range_succ]
        rfl
  | getStatus paymentId =>
    refine ⟨?_, h⟩
    show s.store.byId.get? paymentId = _
    unfold JsMap.get?
    rw [h.store.byId, List.find?_map, Option.map_map]
    rfl

theorem LiveStore.represents_init : init.Represents randomUUID [] :=
  ⟨PaymentsStore.represents_empty, rfl, rfl⟩

theorem LiveStore.represents_after (hinj : Function.Injective randomUUID) (calls : List StoreCall) :
    (after randomUUID calls).Represents randomUUID (Ledger.after randomUUID calls) := by
  have run : ∀ (calls : List StoreCall) (s : LiveStore) (l : Ledger), s.Represents randomUUID l →
      (calls.foldl (fun s call => (s.serve randomUUID call).2) s).Represents randomUUID
        (calls.foldl (fun l call => (l.serve randomUUID call).2) l) := by
    intro calls
    induction calls with
    | nil => exact fun _ _ h => h
    | cons call calls ih => exact fun s l h => ih _ _ (h.serve hinj call).2
  exact run calls init [] represents_init

theorem LiveStore.reply_eq (hinj : Function.Injective randomUUID) (past : List StoreCall) (call : StoreCall) :
    reply randomUUID past call = ((Ledger.after randomUUID past).serve randomUUID call).1 :=
  ((represents_after hinj past).serve hinj call).1

/-! ## Histories -/

def StoreCall.key? : StoreCall → Option String
  | .authorize input => input.key?
  | .getStatus _ => none

def StoreCall.keyless : StoreCall → Bool
  | .authorize input => input.key?.isNone
  | .getStatus _ => false

def usedKeys (calls : List StoreCall) : List String := calls.filterMap StoreCall.key?

namespace Ledger

theorem after_concat (past : List StoreCall) (call : StoreCall) :
    after randomUUID (past ++ [call]) = ((after randomUUID past).serve randomUUID call).2 := by
  simp [after]

theorem find?_eq_none {key : String} : l.find? key = none ↔ key ∉ l.filterMap (·.key) := by
  simp [find?, List.mem_filterMap]

theorem authorize_found {r : PaymentRecord} (h : input.key?.bind l.find? = some r) :
    l.authorize uuid input = (r, l) := by
  unfold authorize
  rw [h]

theorem authorize_new (h : input.key?.bind l.find? = none) :
    l.authorize uuid input = (input.newRecord uuid, l ++ [⟨input.key?, input.newRecord uuid⟩]) := by
  unfold authorize
  rw [h]

theorem le_serve (l : Ledger) (call : StoreCall) : l <+: (l.serve randomUUID call).2 := by
  cases call with
  | getStatus paymentId => exact List.prefix_refl l
  | authorize input =>
    simp only [serve]
    cases h : input.key?.bind l.find? with
    | some r =>
      have hsame : (l.authorize (randomUUID l.length) input).2 = l := congrArg Prod.snd (authorize_found h)
      exact ⟨[], by rw [hsame, List.append_nil]⟩
    | none => exact ⟨_, (congrArg Prod.snd (authorize_new h)).symm⟩

theorem after_append (past later : List StoreCall) : after randomUUID past <+: after randomUUID (past ++ later) := by
  induction later using List.reverseRecOn with
  | nil => simp
  | append_singleton later call ih =>
    rw [← List.append_assoc, after_concat]
    exact ih.trans (le_serve _ call)

theorem exists_entry {call : StoreCall} {r : PaymentRecord} (h : (l.serve randomUUID call).1 = some r) :
    ∃ e ∈ (l.serve randomUUID call).2, e.record = r := by
  have of_find : ∀ {p : LedgerEntry → Bool}, (List.find? p l).map (·.record) = some r → ∃ e ∈ l, e.record = r := by
    intro p hf
    obtain ⟨e, he, hr⟩ := Option.map_eq_some_iff.mp hf
    exact ⟨e, List.mem_of_find?_eq_some he, hr⟩
  cases call with
  | getStatus paymentId => exact of_find h
  | authorize input =>
    simp only [serve, Option.some.injEq] at h ⊢
    cases hf : input.key?.bind l.find? with
    | some r' =>
      rw [authorize_found hf] at h ⊢
      obtain ⟨key, _, hk⟩ := Option.bind_eq_some_iff.mp hf
      rw [← h]
      obtain ⟨e, he, hr⟩ := Option.map_eq_some_iff.mp hk
      exact ⟨e, List.mem_of_find?_eq_some he, hr⟩
    | none =>
      rw [authorize_new hf] at h ⊢
      exact ⟨_, List.mem_append_right _ (List.mem_singleton_self _), h⟩

/-- The ledger has one entry for each key used, and one for each keyless call. -/
structure Records (calls : List StoreCall) (l : Ledger) : Prop where
  keys : ∀ key, key ∈ l.filterMap (·.key) ↔ key ∈ usedKeys calls
  nodup : (l.filterMap (·.key)).Nodup
  keyless : l.countP (fun e => e.key.isNone) = calls.countP StoreCall.keyless

theorem Records.serve {calls : List StoreCall} (h : Records calls l) (call : StoreCall) :
    Records (calls ++ [call]) (l.serve randomUUID call).2 := by
  cases call with
  | getStatus paymentId =>
    have hl : (Ledger.serve randomUUID l (.getStatus paymentId)).2 = l := rfl
    rw [hl]
    refine ⟨fun key => ?_, h.nodup, ?_⟩
    · simpa [usedKeys, StoreCall.key?] using h.keys key
    · simpa [StoreCall.keyless] using h.keyless
  | authorize input =>
    simp only [Ledger.serve]
    cases hkey : input.key? with
    | none =>
      rw [authorize_new (by rw [hkey]; rfl), hkey]
      refine ⟨fun key => ?_, ?_, ?_⟩
      · simpa [usedKeys, StoreCall.key?, hkey] using h.keys key
      · simpa using h.nodup
      · simpa [StoreCall.keyless, hkey] using h.keyless
    | some k =>
      cases hf : l.find? k with
      | some r =>
        have hk : k ∈ l.filterMap (·.key) := by
          by_contra hno
          rw [find?_eq_none.mpr hno] at hf
          cases hf
        rw [authorize_found (by rw [hkey]; exact hf)]
        refine ⟨fun key => ?_, h.nodup, ?_⟩
        · rw [h.keys, usedKeys, usedKeys, List.filterMap_append, List.mem_append]
          refine ⟨.inl, fun hm => hm.elim id fun hm => ?_⟩
          simp only [List.filterMap_cons, StoreCall.key?, hkey, List.filterMap_nil, List.mem_singleton] at hm
          rw [hm]
          exact (h.keys k).mp hk
        · simpa [StoreCall.keyless, hkey] using h.keyless
      | none =>
        rw [authorize_new (by rw [hkey]; exact hf), hkey]
        refine ⟨fun key => ?_, ?_, ?_⟩
        · have hk := h.keys key
          unfold usedKeys at hk ⊢
          rw [List.filterMap_append, List.filterMap_append, List.mem_append, List.mem_append, hk]
          simp [StoreCall.key?, hkey]
        · rw [List.filterMap_append]
          refine h.nodup.append (by simp) ?_
          simpa using find?_eq_none.mp hf
        · simpa [StoreCall.keyless, hkey] using h.keyless

theorem records_after (calls : List StoreCall) : Records calls (after randomUUID calls) := by
  induction calls using List.reverseRecOn with
  | nil => exact ⟨fun _ => Iff.rfl, List.nodup_nil, rfl⟩
  | append_singleton calls call ih =>
    rw [after_concat]
    exact ih.serve call

theorem Records.length_eq {calls : List StoreCall} (h : Records calls l) :
    l.length = (usedKeys calls).dedup.length + calls.countP StoreCall.keyless := by
  have hperm : (l.filterMap (·.key)).Perm (usedKeys calls).dedup := by
    rw [List.perm_ext_iff_of_nodup h.nodup (List.nodup_dedup _)]
    intro key
    rw [h.keys, List.mem_dedup]
  rw [← hperm.length_eq, ← h.keyless, List.length_filterMap_eq_countP,
    List.length_eq_countP_add_countP (fun e : LedgerEntry => e.key.isSome)]
  congr 1
  refine List.countP_congr fun e _ => ?_
  cases e.key <;> simp

end Ledger

/-! ## Every history -/

section
variable (hinj : Function.Injective randomUUID)
include hinj

theorem LiveStore.fresh_after (calls : List StoreCall) :
    (after randomUUID calls).store.byId.get? (randomUUID (after randomUUID calls).drawn) = none :=
  (represents_after hinj calls).fresh hinj

/-- A call that finds no record makes one under the next uuid. -/
theorem LiveStore.reply_new {past : List StoreCall}
    (hnone : input.key?.bind (Ledger.after randomUUID past).find? = none) :
    reply randomUUID past (.authorize input) =
      some (input.newRecord (randomUUID (after randomUUID past).drawn)) := by
  rw [reply_eq hinj, (represents_after hinj past).drawn]
  simp only [Ledger.serve]
  rw [Ledger.authorize_new hnone]

/-- The first call with a key decides what every later one returns. -/
theorem LiveStore.reply_again {past : List StoreCall} {key : String} (hkey : input.key? = some key)
    (hnew : key ∉ usedKeys past) (later : List StoreCall) {input' : AuthorizeRequest}
    (hkey' : input'.key? = some key) :
    reply randomUUID (past ++ .authorize input :: later) (.authorize input') =
      some (input.newRecord (randomUUID (after randomUUID past).drawn)) := by
  have hnone : (Ledger.after randomUUID past).find? key = none := by
    rw [Ledger.find?_eq_none, (Ledger.records_after past).keys]
    exact hnew
  have hfirst : (Ledger.after randomUUID (past ++ [.authorize input])).find? key =
      some (input.newRecord (randomUUID (after randomUUID past).drawn)) := by
    rw [Ledger.after_concat, (represents_after hinj past).drawn]
    simp only [Ledger.serve]
    rw [Ledger.authorize_new (by rw [hkey]; exact hnone), hkey]
    unfold Ledger.find? at hnone ⊢
    rw [List.find?_append, Option.map_eq_none_iff.mp hnone]
    simp
  have hpre : Ledger.after randomUUID (past ++ [.authorize input]) <+:
      Ledger.after randomUUID (past ++ [.authorize input] ++ later) := Ledger.after_append _ later
  rw [List.append_assoc, List.singleton_append] at hpre
  obtain ⟨rest, hrest⟩ := hpre
  have hfound : (Ledger.after randomUUID (past ++ .authorize input :: later)).find? key =
      some (input.newRecord (randomUUID (after randomUUID past).drawn)) := by
    unfold Ledger.find? at hfirst ⊢
    obtain ⟨e, he, hr⟩ := Option.map_eq_some_iff.mp hfirst
    rw [← hrest, List.find?_append, he]
    exact congrArg some hr
  rw [reply_eq hinj]
  simp only [Ledger.serve]
  rw [Ledger.authorize_found (by rw [hkey']; exact hfound)]

theorem LiveStore.getStatus_after {past : List StoreCall} {call : StoreCall} {r : PaymentRecord}
    (h : reply randomUUID past call = some r) (later : List StoreCall) :
    (after randomUUID (past ++ call :: later)).store.getStatus r.paymentId = some r := by
  rw [reply_eq hinj] at h
  obtain ⟨e, he, hr⟩ := Ledger.exists_entry h
  rw [← Ledger.after_concat] at he
  have hpre : Ledger.after randomUUID (past ++ [call]) <+: Ledger.after randomUUID (past ++ [call] ++ later) :=
    Ledger.after_append _ later
  rw [List.append_assoc, List.singleton_append] at hpre
  rw [← hr]
  exact (represents_after hinj _).store.get?_byId (hpre.subset he)

end

/-- Every key leads to a record, the first call with a key makes the record that
all calls with it return, a keyless call makes a record of its own, nothing
else makes records, and no record that has been returned ever changes. -/
theorem payments_ledger (hinj : Function.Injective randomUUID) :
    (∀ calls key id, (LiveStore.after randomUUID calls).store.byIdempotencyKey.get? key = some id →
      ∃ r, (LiveStore.after randomUUID calls).store.byId.get? id = some r) ∧
    (∀ past input key, input.key? = some key → key ∉ usedKeys past → ∃ uuid,
      (LiveStore.after randomUUID past).store.byId.get? uuid = none ∧
      LiveStore.reply randomUUID past (.authorize input) = some (input.newRecord uuid) ∧
      ∀ later input', input'.key? = some key →
        LiveStore.reply randomUUID (past ++ .authorize input :: later) (.authorize input') =
          some (input.newRecord uuid)) ∧
    (∀ past input, input.key? = none → ∃ uuid,
      (LiveStore.after randomUUID past).store.byId.get? uuid = none ∧
      LiveStore.reply randomUUID past (.authorize input) = some (input.newRecord uuid)) ∧
    (∀ calls, (LiveStore.after randomUUID calls).store.byId.entries.length =
      (usedKeys calls).dedup.length + calls.countP StoreCall.keyless) ∧
    ∀ past call later r, LiveStore.reply randomUUID past call = some r →
      (LiveStore.after randomUUID (past ++ call :: later)).store.getStatus r.paymentId = some r := by
  refine ⟨fun calls key id hk => ?_, fun past input key hkey hnew => ?_, fun past input hkey => ?_, fun calls => ?_,
    fun past call later r h => LiveStore.getStatus_after hinj h later⟩
  · have hrep := (LiveStore.represents_after hinj calls).store
    obtain ⟨e, he, _, hid⟩ := hrep.of_get?_byKey hk
    rw [← hid]
    exact ⟨e.record, hrep.get?_byId he⟩
  · refine ⟨_, LiveStore.fresh_after hinj past, LiveStore.reply_new hinj ?_,
      fun later input' hkey' => LiveStore.reply_again hinj hkey hnew later hkey'⟩
    rw [hkey, Option.bind_some, Ledger.find?_eq_none, (Ledger.records_after past).keys]
    exact hnew
  · refine ⟨_, LiveStore.fresh_after hinj past, LiveStore.reply_new hinj ?_⟩
    rw [hkey]
    rfl
  · rw [(LiveStore.represents_after hinj calls).store.byId, List.length_map]
    exact (Ledger.records_after calls).length_eq

def mugPayment (key : String) : AuthorizeRequest := ⟨0, 500, "USD", some key⟩

/-- Two calls with a key and two without. -/
def mugPayments : List StoreCall :=
  [.authorize (mugPayment "k"), .authorize (mugPayment ""), .authorize (mugPayment "k"), .authorize (mugPayment "")]

theorem payments_ledger_mug : (LiveStore.after id mugPayments).store.byId.entries.length = 3 ∧
    (LiveStore.after id mugPayments).store.getStatus 0 = some ((mugPayment "k").newRecord 0) :=
  ⟨(payments_ledger Function.injective_id).2.2.2.1 mugPayments,
    (payments_ledger Function.injective_id).2.2.2.2 [] (.authorize (mugPayment "k")) mugPayments.tail _ rfl⟩

/-! ## The controller -/

namespace PaymentsGrpcController

def authorize (store : PaymentsStore) (uuid : Uuid) (req : AuthorizeRequest) : AuthorizeResponse × PaymentsStore :=
  let (r, store) := store.authorize uuid req
  (⟨r.paymentId, r.status⟩, store)

/-- An unknown payment is reported as failed. -/
def getPaymentStatus (store : PaymentsStore) (paymentId : Uuid) : AuthorizeResponse :=
  match store.getStatus paymentId with
  | none => ⟨paymentId, .failed⟩
  | some r => ⟨r.paymentId, r.status⟩

end PaymentsGrpcController

end OrdersBackend
