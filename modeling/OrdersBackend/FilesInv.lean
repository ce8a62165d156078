import OrdersBackend.Discipline
import OrdersBackend.Files

/-!
# The invariant of the files

Every file was inserted by a presign call that its owner was allowed to make,
every ready file was completed by its owner, and the image of a product is a
ready file of that product. What the steps of the others can do to a file is
`Kept`: its status may turn to ready, and nothing else of it changes.
-/

namespace OrdersBackend

open Conc Async

def FileRecord.core (f : FileRecord) : FileRecord := { f with status := .pending }

namespace FilesWorld

def Created (w : FilesWorld) (f : FileRecord) : Prop :=
  ∃ t user dto, w.requests t = some (.presign user dto) ∧ .inserted t f.id ∈ w.history ∧
    user.id = .uuid f.ownerId ∧
    assertCanPresign user dto = .ok () ∧ f.entityType = dto.entityType ∧ f.entityId = dto.entityId

def CreatedByAdmin (w : FilesWorld) (f : FileRecord) : Prop :=
  ∃ t user dto, w.requests t = some (.presign user dto) ∧ .inserted t f.id ∈ w.history ∧
    user.id = .uuid f.ownerId ∧
    user.role = .admin

def Completed (w : FilesWorld) (f : FileRecord) : Prop :=
  ∃ t user, w.requests t = some (.complete user f.id) ∧ .saved t f.id ∈ w.history ∧ user.id = .uuid f.ownerId

def Shows (w : FilesWorld) (f : FileRecord) (productId : Uuid) : Prop :=
  f ∈ w.files ∧ f.status = .ready ∧ f.entityType = .product ∧ f.entityId = productId

/-- The file is the image that the product came with, or it shows the product. -/
def Pictured (c : Catalogue) (w : FilesWorld) (productId fileId : Uuid) : Prop :=
  (∃ p ∈ c.products, p.id = productId ∧ p.imageFileId = some fileId) ∨ ∃ f, w.Shows f productId ∧ f.id = fileId

end FilesWorld

structure FilesInv (c : Catalogue) (w : FilesWorld) : Prop where
  products : (w.orders.db.products.map (·.id)).Nodup
  ids : (w.files.map (·.id)).Nodup
  keys : (w.files.map (·.key)).Nodup
  fresh : ∀ f ∈ w.files, f.id < w.orders.uuids
  created : ∀ f ∈ w.files, w.Created f
  completed : ∀ f ∈ w.files, f.status = .ready → w.Completed f
  images : ∀ p ∈ w.orders.db.products, ∀ id, p.imageFileId = some id → w.Pictured c p.id id

/-- What a step leaves of the files and of what the procedures have done. -/
structure Kept (w w' : FilesWorld) : Prop where
  files : ∀ f ∈ w.files, ∃ f' ∈ w'.files, f'.core = f.core ∧ (f.status = .ready → f' = f)
  requests : ∀ t req, w.requests t = some req → w'.requests t = some req
  history : ∀ e ∈ w.history, e ∈ w'.history

variable {c : Catalogue} {w w' w'' : FilesWorld} {t : Tid}

theorem Kept.refl (w : FilesWorld) : Kept w w where
  files f hf := ⟨f, hf, rfl, fun _ => rfl⟩
  requests _ _ h := h
  history _ h := h

theorem Kept.trans (h : Kept w w') (h' : Kept w' w'') : Kept w w'' where
  files f hf := by
    obtain ⟨f₁, hf₁, hc₁, hr₁⟩ := h.files f hf
    obtain ⟨f₂, hf₂, hc₂, hr₂⟩ := h'.files f₁ hf₁
    refine ⟨f₂, hf₂, hc₂.trans hc₁, fun hs => ?_⟩
    have he : f₁ = f := hr₁ hs
    subst he
    exact hr₂ hs
  requests t req hreq := h'.requests t req (h.requests t req hreq)
  history e he := h'.history e (h.history e he)

theorem Kept.ready (h : Kept w w') {f : FileRecord} (hf : f ∈ w.files) (hs : f.status = .ready) :
    f ∈ w'.files := by
  obtain ⟨f', hf', _, he⟩ := h.files f hf
  rw [← he hs]
  exact hf'

/-! ## Files that differ in their status -/

theorem eq_of_core {f f' : FileRecord} (h : f'.core = f.core) : f' = { f with status := f'.status } := by
  have he : { f'.core with status := f'.status } = { f.core with status := f'.status } := by rw [h]
  exact he

theorem id_of_core {f f' : FileRecord} (h : f'.core = f.core) : f'.id = f.id := by rw [eq_of_core h]

theorem FilesWorld.Created.of_core {f f' : FileRecord} (h : w.Created f) (hc : f'.core = f.core) :
    w.Created f' := by
  rw [eq_of_core hc]
  exact h

theorem FilesWorld.Completed.of_core {f f' : FileRecord} (h : w.Completed f) (hc : f'.core = f.core) :
    w.Completed f' := by
  rw [eq_of_core hc]
  exact h

theorem Kept.created (h : Kept w w') {f : FileRecord} (hf : w.Created f) : w'.Created f := by
  obtain ⟨t, user, dto, hreq, hins, hrest⟩ := hf
  exact ⟨t, user, dto, h.requests t _ hreq, h.history _ hins, hrest⟩

theorem Kept.completed (h : Kept w w') {f : FileRecord} (hf : w.Completed f) : w'.Completed f := by
  obtain ⟨t, user, hreq, hsaved, huser⟩ := hf
  exact ⟨t, user, h.requests t _ hreq, h.history _ hsaved, huser⟩

theorem Kept.shows (h : Kept w w') {f : FileRecord} {p : Uuid} (hf : w.Shows f p) : w'.Shows f p :=
  ⟨h.ready hf.1 hf.2.1, hf.2⟩

theorem Kept.pictured (h : Kept w w') {p id : Uuid} (hp : w.Pictured c p id) : w'.Pictured c p id := by
  rcases hp with hp | ⟨f, hf, hid⟩
  · exact .inl hp
  · exact .inr ⟨f, h.shows hf, hid⟩

namespace FilesInv

theorem file_eq (h : FilesInv c w) {f f' : FileRecord} (hf : f ∈ w.files) (hf' : f' ∈ w.files)
    (hid : f'.id = f.id) :
    f' = f := List.inj_on_of_nodup_map h.ids hf' hf hid

theorem file?_mem {id : Uuid} {f : FileRecord} (hf : w.file? id = some f) : f ∈ w.files ∧ f.id = id :=
  ⟨List.mem_of_find?_eq_some hf, by simpa using List.find?_some hf⟩

theorem admin (h : FilesInv c w) {f : FileRecord} (hf : f ∈ w.files) (hp : f.entityType = .product) :
    w.CreatedByAdmin f := by
  obtain ⟨t, user, dto, hreq, hins, huser, hcan, htype, _⟩ := h.created f hf
  refine ⟨t, user, dto, hreq, hins, huser, ?_⟩
  unfold assertCanPresign at hcan
  rw [← htype, hp] at hcan
  by_cases hrole : user.role = .admin
  · exact hrole
  · simp [hrole] at hcan

theorem avatar (h : FilesInv c w) {f : FileRecord} (hf : f ∈ w.files) (hu : f.entityType = .user) :
    f.entityId = f.ownerId := by
  obtain ⟨t, user, dto, _, _, huser, hcan, htype, hentity⟩ := h.created f hf
  unfold assertCanPresign at hcan
  rw [← htype, hu, huser] at hcan
  by_cases hid : f.ownerId = dto.entityId
  · rw [hentity, hid]
  · simp [hid] at hcan

end FilesInv

/-! ## The steps of the orders -/

def OrdersKept (o o' : World) : Prop := shape o'.db.products = shape o.db.products ∧ o.uuids ≤ o'.uuids

theorem shape_apply (db : Db) (wr : Write) : shape (wr.apply db).products = shape db.products := by
  cases wr with
  | stock p n => exact shape_updateProduct db p (.setStock n) fun _ => rfl
  | addStock p q => exact shape_updateProduct db p (.addStock q) fun _ => rfl
  | _ => rfl

theorem shape_commit (t : Tid) (ws : List Write) (s : Shared) :
    shape (s.commit t ws).db.products = shape s.db.products ∧ (s.commit t ws).uuids = s.uuids := by
  induction ws generalizing s with
  | nil => exact ⟨rfl, rfl⟩
  | cons wr ws ih =>
    obtain ⟨hp, hu⟩ := ih (s.write t wr)
    exact ⟨hp.trans (shape_apply s.db wr), hu⟩

theorem Does.kept {c : Cmd} {s s' : Shared} (h : Does t c s s') :
    shape s'.db.products = shape s.db.products ∧ s.uuids ≤ s'.uuids := by
  cases h with
  | commit slot ws | commitLost slot ws =>
    obtain ⟨hp, hu⟩ := shape_commit t ws s
    exact ⟨hp, hu.ge⟩
  | publish rk msg =>
    unfold Shared.publish
    split <;> exact ⟨rfl, Nat.le_refl _⟩
  | ack =>
    unfold Shared.ack
    split <;> exact ⟨rfl, Nat.le_refl _⟩
  | nack =>
    unfold Shared.nack
    split <;> exact ⟨rfl, Nat.le_refl _⟩
  | draw | generate => exact ⟨rfl, Nat.le_succ _⟩
  | _ => exact ⟨rfl, Nat.le_refl _⟩

theorem image_of_shape {ps ps' : List Product} (h : shape ps' = shape ps) {p' : Product} (hp' : p' ∈ ps') :
    ∃ p ∈ ps, p.id = p'.id ∧ p.imageFileId = p'.imageFileId := by
  have hm : p'.setStock 0 ∈ shape ps := h ▸ List.mem_map_of_mem hp'
  obtain ⟨p, hp, he⟩ := List.mem_map.mp hm
  have hid : (p.setStock 0).id = (p'.setStock 0).id := by rw [he]
  have himage : (p.setStock 0).imageFileId = (p'.setStock 0).imageFileId := by rw [he]
  exact ⟨p, hp, hid, himage⟩

theorem FilesInv.orders (h : FilesInv c w) {o : World} (ho : OrdersKept w.orders o) :
    FilesInv c { w with orders := o } where
  products := by
    rw [ids_of_shape ho.1]
    exact h.products
  ids := h.ids
  keys := h.keys
  fresh f hf := Nat.lt_of_lt_of_le (h.fresh f hf) ho.2
  created := h.created
  completed := h.completed
  images p hp id hid := by
    obtain ⟨q, hq, hqid, hqimage⟩ := image_of_shape ho.1 hp
    rw [← hqid]
    exact h.images q hq id (hqimage.trans hid)

theorem Kept.orders (o : World) : Kept w { w with orders := o } where
  files f hf := ⟨f, hf, rfl, fun _ => rfl⟩
  requests _ _ h := h
  history _ h := h

/-! ## The steps of the files -/

/-- What must hold when `t` issues a statement on the files. -/
def FilesWorld.May (t : Tid) (w : FilesWorld) : FileCmd → Prop
  | .insertFile ownerId file => ∃ user dto, w.requests t = some (.presign user dto) ∧ user.id = ownerId ∧
      assertCanPresign user dto = .ok () ∧ file.entityType = dto.entityType ∧ file.entityId = dto.entityId ∧
      file.status = .pending
  | .saveFile file => ∃ user, w.requests t = some (.complete user file.id) ∧ user.id = .uuid file.ownerId ∧
      file.status = .ready ∧ ∃ f ∈ w.files, f.core = file.core
  | .updateImage productId fileId => ∃ user f, w.requests t = some (.complete user fileId) ∧ w.Shows f productId ∧
      f.id = fileId ∧ user.id = .uuid f.ownerId
  | _ => True

theorem Kept.insertFile (t : Tid) (file : FileRecord) : Kept w (w.insertFile t file) where
  files f hf := ⟨f, List.mem_append_left _ hf, rfl, fun _ => rfl⟩
  requests _ _ h := h
  history _ h := List.mem_cons_of_mem _ h

theorem FilesInv.insertFile (h : FilesInv c w) {ownerId : Uuid} {file : FileFields}
    (hmay : w.May t (.insertFile (.uuid ownerId) file)) (hkey : ∀ f ∈ w.files, f.key ≠ file.key) :
    FilesInv c (w.insertFile t { file with id := w.orders.uuids, ownerId }) := by
  obtain ⟨user, dto, hreq, huser, hcan, htype, hentity, hstatus⟩ := hmay
  have hkept := Kept.insertFile (w := w) t { file with id := w.orders.uuids, ownerId }
  constructor
  · exact h.products
  · apply nodup_map_append h.ids
    intro f hf
    exact (h.fresh f hf).ne
  · apply nodup_map_append h.keys
    exact hkey
  · intro f hf
    rcases List.mem_append.mp hf with hf | hf
    · exact Nat.lt_succ_of_lt (h.fresh f hf)
    · rw [List.mem_singleton.mp hf]
      exact Nat.lt_succ_self _
  · intro f hf
    rcases List.mem_append.mp hf with hf | hf
    · exact hkept.created (h.created f hf)
    · rw [List.mem_singleton.mp hf]
      exact ⟨t, user, dto, hreq, List.mem_cons_self .., huser, hcan, htype, hentity⟩
  · intro f hf hs
    rcases List.mem_append.mp hf with hf | hf
    · exact hkept.completed (h.completed f hf hs)
    · rw [List.mem_singleton.mp hf] at hs
      rw [show file.status = .ready from hs] at hstatus
      cases hstatus
  · intro p hp id hid
    exact hkept.pictured (h.images p hp id hid)

theorem saved_core (h : FilesInv c w) {file row : FileRecord} (hrow : row ∈ w.files) (hcore : row.core = file.core)
    {f : FileRecord} (hf : f ∈ w.files) : (if f.id = file.id then file else f).core = f.core := by
  split
  · rename_i hid
    rw [h.file_eq hrow hf (hid.trans (id_of_core hcore).symm)]
    exact hcore.symm
  · rfl

theorem saveFile_map (t : Tid) (h : FilesInv c w) {file row : FileRecord} (hrow : row ∈ w.files)
    (hcore : row.core = file.core) {β : Type} (g : FileRecord → β) (hg : ∀ f, g f = g f.core) :
    (w.saveFile t file).files.map g = w.files.map g := by
  show (w.files.map _).map g = _
  rw [List.map_map]
  apply List.map_congr_left
  intro f hf
  show g (if f.id = file.id then file else f) = g f
  rw [hg, saved_core h hrow hcore hf, ← hg]

theorem Kept.saveFile (h : FilesInv c w) {file : FileRecord} (hmay : w.May t (.saveFile file)) :
    Kept w (w.saveFile t file) := by
  obtain ⟨user, _, _, hready, row, hrow, hcore⟩ := hmay
  constructor
  · intro f hf
    have hc := saved_core h hrow hcore hf
    refine ⟨_, List.mem_map_of_mem hf, hc, fun hs => ?_⟩
    rw [eq_of_core hc]
    split
    · rw [hready, ← hs]
    · rfl
  · intro t req hreq
    exact hreq
  · intro e he
    exact List.mem_cons_of_mem _ he

theorem FilesInv.saveFile (h : FilesInv c w) {file : FileRecord} (hmay : w.May t (.saveFile file)) :
    FilesInv c (w.saveFile t file) := by
  have hkept := Kept.saveFile h hmay
  obtain ⟨user, hreq, huser, hready, row, hrow, hcore⟩ := hmay
  constructor
  · exact h.products
  · rw [saveFile_map t h hrow hcore (·.id) fun _ => rfl]
    exact h.ids
  · rw [saveFile_map t h hrow hcore (·.key) fun _ => rfl]
    exact h.keys
  · intro f' hf'
    obtain ⟨f, hf, rfl⟩ := List.mem_map.mp hf'
    rw [id_of_core (saved_core h hrow hcore hf)]
    exact h.fresh f hf
  · intro f' hf'
    obtain ⟨f, hf, rfl⟩ := List.mem_map.mp hf'
    exact (hkept.created (h.created f hf)).of_core (saved_core h hrow hcore hf)
  · intro f' hf' hs
    obtain ⟨f, hf, rfl⟩ := List.mem_map.mp hf'
    by_cases hid : f.id = file.id
    · simp only [if_pos hid]
      exact ⟨t, user, hreq, List.mem_cons_self .., huser⟩
    · simp only [if_neg hid] at hs ⊢
      exact hkept.completed (h.completed f hf hs)
  · intro p hp id hid
    exact hkept.pictured (h.images p hp id hid)

theorem Kept.updateImage (t : Tid) (productId fileId : Uuid) : Kept w (w.updateImage t productId fileId) where
  files f hf := ⟨f, hf, rfl, fun _ => rfl⟩
  requests _ _ h := h
  history _ h := List.mem_cons_of_mem _ h

theorem FilesInv.updateImage (h : FilesInv c w) {productId fileId : Uuid}
    (hmay : w.May t (.updateImage productId fileId)) : FilesInv c (w.updateImage t productId fileId) := by
  have hkept := Kept.updateImage (w := w) t productId fileId
  obtain ⟨user, f, _, hshows, hid, _⟩ := hmay
  constructor
  · show ((w.orders.db.products.map _).map _).Nodup
    rw [List.map_map]
    refine Eq.subst (motive := List.Nodup) (List.map_congr_left fun p _ => ?_) h.products
    by_cases hp : p.id = productId <;> simp [hp]
  · exact h.ids
  · exact h.keys
  · exact h.fresh
  · intro f' hf'
    exact hkept.created (h.created f' hf')
  · intro f' hf' hs
    exact hkept.completed (h.completed f' hf' hs)
  · intro p' hp' id' hid'
    obtain ⟨p, hp, rfl⟩ := List.mem_map.mp hp'
    by_cases hpid : p.id = productId
    · simp only [if_pos hpid, Option.some.injEq] at hid' ⊢
      subst hid' hpid
      exact .inr ⟨f, hkept.shows hshows, hid⟩
    · simp only [if_neg hpid] at hid' ⊢
      exact hkept.pictured (h.images p hp id' hid')

theorem FilesInv.draw (h : FilesInv c w) : FilesInv c { w with orders := w.orders.nextUuid } :=
  h.orders ⟨rfl, Nat.le_succ _⟩

theorem FilesInv.statement (h : FilesInv c w) {cmd : FileCmd} (hmay : w.May t cmd) {r : Except Err cmd.Res}
    (hx : w.statement t cmd = some (r, w')) : FilesInv c w' ∧ Kept w w' := by
  cases cmd with
  | uuid =>
    cases hx
    exact ⟨h.draw, .orders _⟩
  | insertFile ownerId file =>
    cases ownerId with
    | text s =>
      cases hx
      exact ⟨h, .refl w⟩
    | uuid ownerId =>
      simp only [FilesWorld.statement] at hx
      split at hx
      · cases hx
        exact ⟨h, .refl w⟩
      · rename_i hkey
        cases hx
        simp only [List.any_eq_true, decide_eq_true_eq, not_exists, not_and] at hkey
        exact ⟨h.insertFile hmay hkey, .insertFile t _⟩
  | findFile id =>
    cases id <;> cases hx <;> exact ⟨h, .refl w⟩
  | saveFile file =>
    cases hx
    exact ⟨h.saveFile hmay, .saveFile h hmay⟩
  | updateImage productId fileId =>
    simp only [FilesWorld.statement] at hx
    split at hx
    · cases hx
      exact ⟨h.updateImage hmay, .updateImage t productId fileId⟩
    · cases hx
  | createPresignedPutUrl | createPresignedGetUrl =>
    cases hx
    exact ⟨h, .refl w⟩

theorem execFile_cases {cmd : FileCmd} {ch : Choice} {r : Except Err cmd.Res}
    (h : execFile t cmd ch w = some (r, w')) :
    w.statement t cmd = some (r, w') ∨
      ∃ e, r = .error e ∧ (w' = w ∨ ∃ r', w.statement t cmd = some (r', w')) := by
  unfold execFile at h
  split at h
  · exact .inl h
  · cases h
  · split at h
    · cases h
    · cases h
      exact .inr ⟨_, rfl, .inl rfl⟩
  · split at h
    · cases h
    · obtain ⟨⟨r', w₁⟩, hx, he⟩ := Option.map_eq_some_iff.mp h
      cases he
      exact .inr ⟨_, rfl, .inr ⟨r', hx⟩⟩

theorem FilesInv.execFile (h : FilesInv c w) {cmd : FileCmd} (hmay : w.May t cmd) {ch : Choice}
    {r : Except Err cmd.Res}
    (hx : execFile t cmd ch w = some (r, w')) : FilesInv c w' ∧ Kept w w' := by
  rcases execFile_cases hx with hx | ⟨e, _, rfl | ⟨r', hx⟩⟩
  · exact h.statement hmay hx
  · exact ⟨h, .refl w'⟩
  · exact h.statement hmay hx

end OrdersBackend
