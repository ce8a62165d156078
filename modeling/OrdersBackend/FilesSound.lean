import OrdersBackend.FilesInv

/-!
# Files in every run

The procedures of the files keep the invariant against each other and against
those of the orders, and hand out only URLs that a file record grants to the
caller.
-/

namespace OrdersBackend

open Conc Async

variable {cfg : Config} {fc : FilesConfig} {c : Catalogue} {w w' : FilesWorld} {t : Tid}

def FilesWorld.Grants (w : FilesWorld) (f : FileRecord) (user : Caller) : Url → Prop
  | .signedPut bucket key _ _ => f.key = key ∧ f.bucket = bucket ∧ user.id = .uuid f.ownerId
  | .signedGet bucket key _ => f.key = key ∧ f.bucket = bucket ∧ user.id = .uuid f.ownerId ∧ w.Completed f
  | .cloudfront _ key => f.key = key ∧ f.visibility = .Public
  | .s3 bucket _ key => f.key = key ∧ f.bucket = bucket ∧ f.visibility = .Public

def FilesWorld.Granted (w : FilesWorld) (user : Caller) (url : Url) : Prop := ∃ f ∈ w.files, w.Grants f user url

/-- Every URL of a reply is granted to the user who has asked. -/
def FilesWorld.Answered (t : Tid) (r : Except Err (Reply ⊕ FileReply)) (w : FilesWorld) : Prop :=
  ∀ reply, r = .ok (.inr reply) → ∃ req, w.requests t = some req ∧ ∀ url ∈ reply.urls, w.Granted req.user url

theorem Kept.grants (h : Kept w w') {f f' : FileRecord} (hc : f'.core = f.core) {user : Caller} {url : Url}
    (hg : w.Grants f user url) : w'.Grants f' user url := by
  have he := eq_of_core hc
  cases url with
  | signedGet bucket key =>
    obtain ⟨hkey, hbucket, huser, hdone⟩ := hg
    have hdone' := (h.completed hdone).of_core hc
    rw [he] at hdone' ⊢
    exact ⟨hkey, hbucket, huser, hdone'⟩
  | _ =>
    rw [he]
    exact hg

theorem Kept.granted (h : Kept w w') {user : Caller} {url : Url} (hg : w.Granted user url) :
    w'.Granted user url := by
  obtain ⟨f, hf, hg⟩ := hg
  obtain ⟨f', hf', hc, _⟩ := h.files f hf
  exact ⟨f', hf', h.grants hc hg⟩

theorem Kept.answered (h : Kept w w') {r : Except Err (Reply ⊕ FileReply)} (ha : w.Answered t r) :
    w'.Answered t r := by
  intro reply hr
  obtain ⟨req, hreq, hurls⟩ := ha reply hr
  exact ⟨req, h.requests t req hreq, fun url hurl => h.granted (hurls url hurl)⟩

/-! ## The orders beside the files -/

theorem OrdersKept.of_env {o o' : World} {act : EnvAct} (h : o.env cfg act = some o') : OrdersKept o o' := by
  obtain ⟨s, hs, rfl⟩ := Option.map_eq_some_iff.mp h
  have hstep := step_of_env hs
  refine ⟨?_, hstep.uuids_le⟩
  show shape s.db.products = shape o.db.products
  rw [db_of_none hstep]

theorem OrdersKept.of_arrive {o o' : World} {arr : Arrival} {p : Api Reply}
    (h : o.arrive cfg t arr = some (p, o')) : OrdersKept o o' := by
  obtain ⟨_, s, rfl, hstep, hdb, _⟩ := arrive_cases h
  refine ⟨?_, hstep.uuids_le⟩
  show shape s.db.products = shape o.db.products
  rw [hdb]

theorem OrdersKept.of_kill (cfg : Config) (fc : FilesConfig) (t : Tid) (w : FilesWorld) :
    OrdersKept w.orders ((filesMachine cfg fc).kill t w).orders := by
  show OrdersKept w.orders (ite _ w { w with orders := w.orders.kill t }).orders
  split <;> exact ⟨rfl, Nat.le_refl _⟩

theorem OrdersKept.of_spawn {a : Arrival ⊕ FileRequest} {p : FilesApi (Reply ⊕ FileReply)}
    (hx : (filesMachine cfg fc).spawn t a w = some (p, w')) : OrdersKept w.orders w'.orders := by
  cases a with
  | inl arr =>
    obtain ⟨⟨p', o⟩, ho, he⟩ := Option.map_eq_some_iff.mp hx
    cases he
    exact .of_arrive ho
  | inr req =>
    simp only [filesMachine] at hx
    split at hx
    · cases hx
    · cases hx
      exact ⟨rfl, Nat.le_refl _⟩

theorem FilesInv.env (h : FilesInv c w) {act : EnvAct} (hx : (filesMachine cfg fc).env act w = some w') :
    FilesInv c w' ∧ Kept w w' := by
  obtain ⟨o, ho, rfl⟩ := Option.map_eq_some_iff.mp hx
  exact ⟨h.orders (.of_env ho), .orders o⟩

theorem FilesInv.kill (h : FilesInv c w) :
    FilesInv c ((filesMachine cfg fc).kill t w) ∧ Kept w ((filesMachine cfg fc).kill t w) := by
  show FilesInv c (if _ then _ else _) ∧ Kept w (if _ then _ else _)
  split
  · exact ⟨h, .refl w⟩
  · exact ⟨h.orders ⟨rfl, Nat.le_refl _⟩, .orders _⟩

theorem FilesInv.request (h : FilesInv c w) {req : FileRequest} (hn : w.requests t = none) :
    FilesInv c { w with requests := Function.update w.requests t (some req) } ∧
      Kept w { w with requests := Function.update w.requests t (some req) } := by
  have hkept : Kept w { w with requests := Function.update w.requests t (some req) } := by
    constructor
    · intro f hf
      exact ⟨f, hf, rfl, fun _ => rfl⟩
    · intro u req' hu
      have hne : u ≠ t := by
        intro he
        rw [he, hn] at hu
        cases hu
      exact (Function.update_of_ne hne ..).trans hu
    · intro e he
      exact he
  refine ⟨?_, hkept⟩
  constructor
  · exact h.products
  · exact h.ids
  · exact h.keys
  · exact h.fresh
  · intro f hf
    exact hkept.created (h.created f hf)
  · intro f hf hs
    exact hkept.completed (h.completed f hf hs)
  · exact h.images

theorem FilesInv.spawn (h : FilesInv c w) {a : Arrival ⊕ FileRequest} {p : FilesApi (Reply ⊕ FileReply)}
    (hx : (filesMachine cfg fc).spawn t a w = some (p, w')) : FilesInv c w' ∧ Kept w w' := by
  cases a with
  | inl arr =>
    obtain ⟨⟨p', o⟩, ho, he⟩ := Option.map_eq_some_iff.mp hx
    cases he
    exact ⟨h.orders (.of_arrive ho), .orders o⟩
  | inr req =>
    simp only [filesMachine] at hx
    split at hx
    · cases hx
    · rename_i hn
      cases hx
      exact h.request hn

/-! ## The protocol -/

/-- What must hold when `t` issues a command; the orders may do what they do. -/
def FilesWorld.MayIssue (t : Tid) (w : FilesWorld) : Cmd ⊕ FileCmd → Prop
  | .inl _ => True
  | .inr c => w.May t c

theorem FilesInv.exec (h : FilesInv c w) {cmd : Cmd ⊕ FileCmd} (hmay : w.MayIssue t cmd) {ch : Choice}
    {r : Except Err (Sum.elim Cmd.Res FileCmd.Res cmd)}
    (hx : (filesMachine cfg fc).exec t cmd ch w = some (r, w')) :
    FilesInv c w' ∧ Kept w w' := by
  cases cmd with
  | inl c =>
    obtain ⟨⟨r', o⟩, ho, he⟩ := Option.map_eq_some_iff.mp hx
    cases he
    exact ⟨h.orders (Does.of_exec ho).kept, .orders o⟩
  | inr c => exact h.execFile hmay hx

def filesProtocol (cfg : Config) (fc : FilesConfig) (c : Catalogue) : Protocol (filesMachine cfg fc) where
  allows _ := True
  inv := FilesInv c
  rely _ := Kept
  guar _ _ _ := True
  pre t c w := w.MayIssue t c
  post t r w := w.Answered t r
  rely_refl _ := .refl
  rely_trans _ _ _ _ := .trans
  post_rely _ _ _ _ ha h := h.answered ha
  exec_ok _ _ _ _ _ _ _ h hmay hx _ := ⟨(h.exec hmay hx).1, fun _ _ => (h.exec hmay hx).2⟩
  kill_ok _ _ _ h := ⟨h.kill.1, fun _ _ => h.kill.2⟩
  env_ok _ _ _ _ h hx := ⟨(h.env hx).1, fun _ => (h.env hx).2⟩
  spawn_ok _ _ _ _ _ _ h hx := ⟨(h.spawn hx).1, fun _ _ => (h.spawn hx).2⟩

/-! ## The procedures -/

abbrev FilesWp (cfg : Config) (fc : FilesConfig) (c : Catalogue) {α : Type} (t : Tid) (p : FilesApi α)
    (Q : Except Err α → FilesWorld → Prop) (w : FilesWorld) : Prop := (filesProtocol cfg fc c).wp t p Q w

/-- A statement: what its caller must have, and what it leaves when it resolves. -/
theorem wp_file {cmd : FileCmd} {Q : Except Err cmd.Res → FilesWorld → Prop}
    (hmay : ∀ w', Kept w w' → w'.May t cmd)
    (herr : ∀ e w', Kept w w' → Q (.error e) w')
    (hok : ∀ r w' w'', Kept w w' → FilesInv c w' → w'.statement t cmd = some (r, w'') → Kept w w'' → Q r w'') :
    FilesWp cfg fc c t (issueFile cmd) Q w := by
  intro w' hk hi
  refine ⟨hmay w' hk, fun ch r w'' _ hx => ⟨trivial, ?_⟩⟩
  have hk' := hk.trans (hi.execFile (hmay w' hk) hx).2
  rcases execFile_cases hx with hx | ⟨e, rfl, _⟩
  · exact hok r w' w'' hk hi hx hk'
  · exact herr e w'' hk'

/-- The call that `t` serves, and what its outcome hands out. -/
structure Gives {α : Type} (t : Tid) (req : FileRequest) (urls : α → List Url) (r : Except Err α)
    (w : FilesWorld) :
    Prop where
  request : w.requests t = some req
  granted : ∀ a, r = .ok a → ∀ url ∈ urls a, w.Granted req.user url

theorem Gives.error {α : Type} {req : FileRequest} {urls : α → List Url} (h : w.requests t = some req) (e : Err) :
    Gives t req urls (.error e) w := ⟨h, by simp⟩

theorem Gives.none {α : Type} {req : FileRequest} {urls : α → List Url} (h : w.requests t = some req)
    (hn : ∀ a, urls a = []) (r : Except Err α) : Gives t req urls r w := by
  refine ⟨h, fun a _ url hurl => ?_⟩
  rw [hn a] at hurl
  cases hurl

theorem Gives.one {α : Type} {req : FileRequest} {urls : α → List Url} (h : w.requests t = some req)
    {a : α} {url : Url}
    (ha : urls a = [url]) (hg : w.Granted req.user url) : Gives t req urls (.ok a) w := by
  refine ⟨h, fun a' he url' hurl => ?_⟩
  cases he
  rw [ha, List.mem_singleton] at hurl
  rw [hurl]
  exact hg

theorem wp_reply {α : Type} {req : FileRequest} {urls : α → List Url} {p : FilesApi α} (f : α → FileReply)
    (hf : ∀ a, (f a).urls = urls a) (h : FilesWp cfg fc c t p (Gives t req urls) w) :
    FilesWp cfg fc c t (p >>= fun a => pure (.inr (f a))) (fun r w => w.Answered t r) w := by
  refine Protocol.wp_bind _ (Protocol.wp_mono _ (fun r w' hr => ?_) h)
  cases r with
  | error e =>
    intro reply he
    cases he
  | ok a =>
    intro reply he
    cases he
    refine ⟨req, hr.request, fun url hurl => ?_⟩
    rw [hf a] at hurl
    exact hr.granted a rfl url hurl

theorem wp_buildKey {dto : PresignFileDto} {Q : Except Err ObjectKey → FilesWorld → Prop}
    (hQ : ∀ r w', Kept w w' → Q r w') : FilesWp cfg fc c t (buildKey dto) Q w := by
  refine Protocol.wp_bind _ (wp_file (fun _ _ => trivial) (fun e w' hk => hQ _ w' hk) fun r w' w'' _ _ _ hk => ?_)
  cases r with
  | error e => exact hQ _ w'' hk
  | ok fileUuid => cases hd : dto.entityType <;> exact hQ _ w'' hk

theorem insertFile_ok {ownerId : IdText} {file : FileFields} {f : FileRecord}
    (hx : w.statement t (.insertFile ownerId file) = some (.ok f, w')) :
    f ∈ w'.files ∧ ownerId = .uuid f.ownerId := by
  cases ownerId with
  | text s => cases hx
  | uuid ownerId =>
    simp only [FilesWorld.statement] at hx
    split at hx
    · cases hx
    · cases hx
      exact ⟨List.mem_append_right _ (List.mem_singleton_self _), rfl⟩

theorem saveFile_mem {file row : FileRecord} (hrow : row ∈ w.files) (hid : row.id = file.id) :
    file ∈ (w.saveFile t file).files := List.mem_map.mpr ⟨row, hrow, if_pos hid⟩

theorem findFile_ok {id : IdText} {f : FileRecord} (hx : w.statement t (.findFile id) = some (.ok (some f), w')) :
    w' = w ∧ f ∈ w.files := by
  cases id with
  | text s => cases hx
  | uuid id =>
    obtain ⟨hr, rfl⟩ := Prod.mk.inj (Option.some.inj hx)
    exact ⟨rfl, (FilesInv.file?_mem (Except.ok.inj hr)).1⟩

theorem wp_presign {user : Caller} {dto : PresignFileDto} (hreq : w.requests t = some (.presign user dto)) :
    FilesWp cfg fc c t (presign fc user dto) (Gives t (.presign user dto) fun result => [result.uploadUrl]) w := by
  refine Protocol.wp_check _ (fun e _ => .error hreq e) fun _ hcan => ?_
  refine Protocol.wp_bind _ (wp_buildKey fun r w₁ hk₁ => ?_)
  have hreq₁ := hk₁.requests t _ hreq
  cases r with
  | error e => exact .error hreq₁ e
  | ok key =>
    refine Protocol.wp_check _ (fun e _ => .error hreq₁ e) fun bucket _ => ?_
    refine Protocol.wp_bind _ (wp_file (fun w' hk => ?_) (fun e w' hk => .error (hk.requests t _ hreq₁) e)
      fun r w' w₂ _ _ hx hk₂ => ?_)
    · exact ⟨user, dto, hk.requests t _ hreq₁, rfl, hcan, rfl, rfl, rfl⟩
    · have hreq₂ := hk₂.requests t _ hreq₁
      cases r with
      | error e => exact .error hreq₂ e
      | ok file =>
        obtain ⟨hf, huser⟩ := insertFile_ok hx
        refine Protocol.wp_bind _ (wp_file (fun _ _ => trivial) (fun e w' hk => .error (hk.requests t _ hreq₂) e)
          fun r w' w₃ _ _ hx hk₃ => ?_)
        cases hx
        refine .one (hk₃.requests t _ hreq₂) rfl (hk₃.granted ?_)
        exact ⟨file, hf, rfl, rfl, huser⟩

theorem wp_complete {user : Caller} {fileId : Uuid} (hreq : w.requests t = some (.complete user fileId)) :
    FilesWp cfg fc c t (complete user fileId) (Gives t (.complete user fileId) fun _ => []) w := by
  refine Protocol.wp_bind _ (wp_file (fun _ _ => trivial) (fun e w' hk => .error (hk.requests t _ hreq) e)
    fun r w' w₁ _ _ hx hk₁ => ?_)
  have hreq₁ := hk₁.requests t _ hreq
  cases hx
  cases hfound : w'.file? fileId with
  | none => exact .error hreq₁ _
  | some file =>
    obtain ⟨hf, hid⟩ := FilesInv.file?_mem hfound
    subst hid
    simp only
    split
    · exact .error hreq₁ _
    · rename_i howner
      split
      · exact .error hreq₁ _
      · refine Protocol.wp_bind _ (wp_file (fun w₂ hk₂ => ?_) (fun e w₂ hk => .error (hk.requests t _ hreq₁) e)
          fun r w₂ w₃ hk₂ _ hx hk₃ => ?_)
        · obtain ⟨f, hf₂, hc, _⟩ := hk₂.files file hf
          exact ⟨user, hk₂.requests t _ hreq₁, (not_not.mp howner).symm, rfl, f, hf₂, hc⟩
        · cases hx
          have hreq₃ := hk₃.requests t _ hreq₁
          obtain ⟨row, hrow, hc, _⟩ := hk₂.files file hf
          have hsaved : { file with status := .ready } ∈ (w₂.saveFile t { file with status := .ready }).files :=
            saveFile_mem hrow (id_of_core hc)
          simp only
          split
          · rename_i htype
            refine wp_file (fun w₄ hk₄ => ?_) (fun e w₄ hk => .error (hk.requests t _ hreq₃) e)
              fun r w₄ w₅ _ _ hx hk₅ => .none (hk₅.requests t _ hreq₃) (fun _ => rfl) r
            exact ⟨user, _, hk₄.requests t _ hreq₃, hk₄.shows ⟨hsaved, rfl, htype, rfl⟩, rfl,
              (not_not.mp howner).symm⟩
          · exact .none hreq₃ (fun _ => rfl) _

theorem wp_getFileUrl {user : Caller} {fileId : IdText} (hreq : w.requests t = some (.getFileUrl user fileId)) :
    FilesWp cfg fc c t (getFileUrl fc user fileId) (Gives t (.getFileUrl user fileId) fun url => [url]) w := by
  refine Protocol.wp_bind _ (wp_file (fun _ _ => trivial) (fun e w' hk => .error (hk.requests t _ hreq) e)
    fun r w' w₁ _ hi hx hk₁ => ?_)
  have hreq₁ := hk₁.requests t _ hreq
  cases r with
  | error e => exact .error hreq₁ e
  | ok found =>
    cases found with
    | none => exact .error hreq₁ _
    | some file =>
      obtain ⟨rfl, hf⟩ := findFile_ok hx
      simp only
      split
      · exact .error hreq₁ _
      · rename_i hready
        split
        · exact .error hreq₁ _
        · rename_i hprivate
          split
          · rename_i hpublic
            split
            · exact .one hreq₁ rfl ⟨file, hf, rfl, hpublic⟩
            · exact .one hreq₁ rfl ⟨file, hf, rfl, rfl, hpublic⟩
          · rename_i hpublic
            have howner : user.id = .uuid file.ownerId := by
              cases hv : file.visibility with
              | Private => simpa [hv, eq_comm] using hprivate
              | Public => exact (hpublic hv).elim
            refine wp_file (fun _ _ => trivial) (fun e w₂ hk => .error (hk.requests t _ hreq₁) e)
              fun r w₂ w₃ _ _ hx hk₃ => ?_
            cases hx
            refine .one (hk₃.requests t _ hreq₁) rfl (hk₃.granted ?_)
            exact ⟨file, hf, rfl, rfl, howner, hi.completed file hf (not_not.mp hready)⟩

theorem wp_fileThread {req : FileRequest} (hreq : w.requests t = some req) :
    FilesWp cfg fc c t (fileThread fc req) (fun r w => w.Answered t r) w := by
  cases req with
  | presign user dto => exact wp_reply .presigned (fun _ => rfl) (wp_presign hreq)
  | complete user fileId => exact wp_reply (fun _ => .ok) (fun _ => rfl) (wp_complete hreq)
  | getFileUrl user fileId => exact wp_reply .url (fun _ => rfl) (wp_getFileUrl hreq)

theorem wp_filesSpawn (t : Tid) (a : Arrival ⊕ FileRequest) (w : FilesWorld) (p : FilesApi (Reply ⊕ FileReply))
    (w' : FilesWorld) (_ : (filesProtocol cfg fc c).allows (.spawn t a)) (_ : (filesProtocol cfg fc c).inv w)
    (h : (filesMachine cfg fc).spawn t a w = some (p, w')) :
    (filesProtocol cfg fc c).wp t p ((filesProtocol cfg fc c).post t) w' := by
  cases a with
  | inl arr =>
    obtain ⟨⟨p', o⟩, _, he⟩ := Option.map_eq_some_iff.mp h
    cases he
    apply Protocol.wp_inl
    · intro cmd w
      trivial
    · intro w w'
      trivial
    · intro r w reply hr
      cases r <;> cases hr
  | inr req =>
    simp only [filesMachine] at h
    split at h
    · cases h
    · cases h
      exact wp_fileThread (Function.update_self ..)

/-! ## Runs -/

theorem filesInv_initial (c : Catalogue) : FilesInv c c.withFiles.world where
  products := c.productIds
  ids := List.nodup_nil
  keys := List.nodup_nil
  fresh _ hf := by cases hf
  created _ hf := by cases hf
  completed _ hf := by cases hf
  images p hp id hid := .inl ⟨p, hp, rfl, hid⟩

def FilesReachable (cfg : Config) (fc : FilesConfig) (c : Catalogue) (conf : FilesConf) : Prop :=
  (filesMachine cfg fc).Reach c.withFiles conf

variable {conf conf' : FilesConf}

theorem FilesReachable.good (h : FilesReachable cfg fc c conf) : (filesProtocol cfg fc c).Good conf :=
  (filesProtocol cfg fc c).sound wp_filesSpawn ⟨filesInv_initial c, fun _ _ hp => by cases hp⟩
    (h.when fun _ _ => trivial)

theorem FilesReachable.inv (h : FilesReachable cfg fc c conf) : FilesInv c conf.world := h.good.1

/-! ## A file in the shop -/

def FilesConfig.ofBucket (bucket : String) : FilesConfig := ⟨some bucket, none, none, none⟩

def mugImage : PresignFileDto where
  entityType := .product
  entityId := 0
  contentType := .png
  size := 1
  visibility := none
  sizePositive := by decide
  sizeMax := by decide

def fileSteps (t : Tid) (req : FileRequest) (n : Nat) : List (Label Tid Choice EnvAct (Arrival ⊕ FileRequest)) :=
  .spawn t (.inr req) :: List.replicate n (.run t .proceed)

def Catalogue.pictured (c : Catalogue) (admin : Caller) : FilesConf :=
  ((filesMachine (.ofPool 1 .repository) (.ofBucket "media")).run c.withFiles
    (fileSteps 0 (.presign admin mugImage) 3 ++ fileSteps 1 (.complete admin 1) 3 ++
      fileSteps 2 (.getFileUrl admin (.uuid 1)) 2)).getD c.withFiles

theorem Catalogue.filesReachable_pictured (c : Catalogue) (admin : Caller) :
    FilesReachable (.ofPool 1 .repository) (.ofBucket "media") c (c.pictured admin) := Machine.reach_getD_run _ _

/-! ## Product images -/

theorem image_eq {ps ps' : List Product} (hn : (ps.map (·.id)).Nodup) (h : shape ps' = shape ps) {p p' : Product}
    (hp : p ∈ ps) (hp' : p' ∈ ps') (hid : p'.id = p.id) : p'.imageFileId = p.imageFileId := by
  obtain ⟨q, hq, hqid, himage⟩ := image_of_shape h hp'
  have he : q = p := List.inj_on_of_nodup_map hn hq hp (hqid.trans hid)
  rw [← himage, he]

theorem image_updateImage {productId fileId : Uuid} {p p' : Product} (hn : (w.orders.db.products.map (·.id)).Nodup)
    (hp : p ∈ w.orders.db.products) (hp' : p' ∈ (w.updateImage t productId fileId).orders.db.products)
    (hid : p'.id = p.id) (hne : p'.imageFileId ≠ p.imageFileId) : p'.imageFileId = some fileId := by
  obtain ⟨q, hq, rfl⟩ := List.mem_map.mp hp'
  by_cases hqid : q.id = productId
  · rw [if_pos hqid]
  · simp only [if_neg hqid] at hid hne ⊢
    have he : q = p := List.inj_on_of_nodup_map hn hq hp hid
    exact (hne (by rw [he])).elim

theorem statement_products {cmd : FileCmd} {r : Except Err cmd.Res} (hx : w.statement t cmd = some (r, w')) :
    w'.orders.db.products = w.orders.db.products ∨
      ∃ productId fileId, cmd = .updateImage productId fileId ∧ w' = w.updateImage t productId fileId := by
  cases cmd with
  | updateImage productId fileId =>
    simp only [FilesWorld.statement] at hx
    split at hx
    · cases hx
      exact .inr ⟨productId, fileId, rfl, rfl⟩
    · cases hx
  | insertFile ownerId file =>
    simp only [FilesWorld.statement] at hx
    split at hx
    · cases hx
      exact .inl rfl
    · split at hx
      · cases hx
        exact .inl rfl
      · cases hx
        exact .inl rfl
  | findFile id =>
    simp only [FilesWorld.statement] at hx
    split at hx <;> cases hx <;> exact .inl rfl
  | _ =>
    cases hx
    exact .inl rfl

/-- Only the statement that links an image changes the image of a product. -/
theorem image_change (hn : (conf.world.orders.db.products.map (·.id)).Nodup)
    {l : Label Tid Choice EnvAct (Arrival ⊕ FileRequest)} (hs : (filesMachine cfg fc).step conf l = some conf')
    {p p' : Product} (hp : p ∈ conf.world.orders.db.products) (hp' : p' ∈ conf'.world.orders.db.products)
    (hid : p'.id = p.id) (hne : p'.imageFileId ≠ p.imageFileId) :
    ∃ t ch productId fileId k, l = .run t ch ∧
      conf.threads t = .running (.await (.inr (.updateImage productId fileId)) k) ∧
      conf'.world = conf.world.updateImage t productId fileId ∧ p'.imageFileId = some fileId := by
  rcases Machine.step_cases hs with ⟨t, ch, cmd, k, r, w, rfl, ht, hx, rfl⟩ | ⟨t, cmd, k, rfl, _, rfl⟩ |
    ⟨e, w, rfl, hx, rfl⟩ | ⟨t, a, q, w, rfl, _, hx, rfl⟩
  · cases cmd with
    | inl cmd =>
      obtain ⟨⟨r', o⟩, ho, he⟩ := Option.map_eq_some_iff.mp hx
      cases he
      exact (hne (image_eq hn (Does.of_exec ho).kept.1 hp hp' hid)).elim
    | inr cmd =>
      have hstatement : w = conf.world ∨ ∃ r', conf.world.statement t cmd = some (r', w) := by
        rcases execFile_cases hx with hx | ⟨_, _, hw⟩
        · exact .inr ⟨r, hx⟩
        · exact hw
      rcases hstatement with rfl | ⟨r', hx⟩
      · exact (hne (image_eq hn rfl hp hp' hid)).elim
      · rcases statement_products hx with he | ⟨productId, fileId, rfl, rfl⟩
        · exact (hne (image_eq hn (congrArg shape he) hp hp' hid)).elim
        · exact ⟨t, ch, productId, fileId, k, rfl, ht, rfl, image_updateImage hn hp hp' hid hne⟩
  · exact (hne (image_eq hn (OrdersKept.of_kill cfg fc t conf.world).1 hp hp' hid)).elim
  · obtain ⟨o, ho, rfl⟩ := Option.map_eq_some_iff.mp hx
    exact (hne (image_eq hn (OrdersKept.of_env ho).1 hp hp' hid)).elim
  · exact (hne (image_eq hn (OrdersKept.of_spawn hx).1 hp hp' hid)).elim

theorem FilesReachable.image_step (h : FilesReachable cfg fc c conf)
    {l : Label Tid Choice EnvAct (Arrival ⊕ FileRequest)}
    (hs : (filesMachine cfg fc).step conf l = some conf') {p p' : Product}
    (hp : p ∈ conf.world.orders.db.products) (hp' : p' ∈ conf'.world.orders.db.products) (hid : p'.id = p.id)
    (hne : p'.imageFileId ≠ p.imageFileId) :
    ∃ t ch user f, l = .run t ch ∧ conf.world.requests t = some (.complete user f.id) ∧ f ∈ conf.world.files ∧
      user.id = .uuid f.ownerId ∧ p'.imageFileId = some f.id := by
  obtain ⟨t, ch, productId, fileId, k, rfl, ht, _, himage⟩ := image_change h.inv.products hs hp hp' hid hne
  have hmay : conf.world.May t (.updateImage productId fileId) := h.good.pre ht
  obtain ⟨user, f, hreq, hshows, rfl, huser⟩ := hmay
  exact ⟨t, ch, user, f, rfl, hreq, hshows.1, huser, himage⟩

/-- The image of a product is a ready file of that product which an admin has
put there, and only its owner's complete call makes it the image. -/
theorem image_integrity (hnull : ∀ p ∈ c.products, p.imageFileId = none) (h : FilesReachable cfg fc c conf) :
    (∀ p ∈ conf.world.orders.db.products, ∀ id, p.imageFileId = some id →
      ∃ f ∈ conf.world.files, f.id = id ∧ f.status = .ready ∧ f.entityType = .product ∧ f.entityId = p.id ∧
        conf.world.CreatedByAdmin f) ∧
    ∀ l conf', (filesMachine cfg fc).step conf l = some conf' →
      ∀ p ∈ conf.world.orders.db.products, ∀ p' ∈ conf'.world.orders.db.products, p'.id = p.id →
        p'.imageFileId ≠ p.imageFileId →
          ∃ t ch user f, l = .run t ch ∧ conf.world.requests t = some (.complete user f.id) ∧
            f ∈ conf.world.files ∧ user.id = .uuid f.ownerId ∧ p'.imageFileId = some f.id := by
  constructor
  · intro p hp id hid
    rcases h.inv.images p hp id hid with ⟨p₀, hp₀, _, himage⟩ | ⟨f, ⟨hf, hready, htype, hentity⟩, hfid⟩
    · rw [hnull p₀ hp₀] at himage
      cases himage
    · exact ⟨f, hf, hfid, hready, htype, hentity, h.inv.admin hf htype⟩
  · intro l conf' hs p hp p' hp' hid hne
    exact h.image_step hs hp hp' hid hne

theorem image_integrity_mug :
    ∃ f ∈ ((Catalogue.shop 1).pictured ⟨.uuid 7, .admin⟩).world.files, f.id = 1 ∧ f.status = .ready ∧
      f.entityType = .product ∧ f.entityId = 0 ∧
      ((Catalogue.shop 1).pictured ⟨.uuid 7, .admin⟩).world.CreatedByAdmin f :=
  (image_integrity (by simp [Catalogue.shop])
    ((Catalogue.shop 1).filesReachable_pictured ⟨.uuid 7, .admin⟩)).1 ⟨0, "Mug", 500, 1, some 1⟩
    (List.mem_cons_self ..) 1 rfl

/-! ## URLs -/

/-- A URL is returned only to a user to whom the one record with its key grants it. -/
theorem signed_urls_confined (h : FilesReachable cfg fc c conf) :
    (∀ t reply, conf.threads t = .running (.done (.ok (.inr reply))) →
      ∃ req, conf.world.requests t = some req ∧ ∀ url ∈ reply.urls, ∃ f ∈ conf.world.files,
        conf.world.Grants f req.user url ∧ ∀ f' ∈ conf.world.files, f'.key = f.key → f' = f) ∧
    ∀ f ∈ conf.world.files, f.entityType = .user → f.ownerId = f.entityId := by
  constructor
  · intro t reply ht
    obtain ⟨req, hreq, hurls⟩ := h.good.post ht reply rfl
    refine ⟨req, hreq, fun url hurl => ?_⟩
    obtain ⟨f, hf, hg⟩ := hurls url hurl
    exact ⟨f, hf, hg, fun f' hf' hkey => List.inj_on_of_nodup_map h.inv.keys hf' hf hkey⟩
  · intro f hf htype
    exact (h.inv.avatar hf htype).symm

/-- The admin has looked at the image. -/
theorem signed_urls_confined_mug :
    ∃ req, ((Catalogue.shop 1).pictured ⟨.uuid 7, .admin⟩).world.requests 2 = some req ∧
      ∀ url ∈ [Url.signedGet "media" [.text "products", .uuid 0, .text "images", .file 0 "png"] (some 120)],
        ∃ f ∈ ((Catalogue.shop 1).pictured ⟨.uuid 7, .admin⟩).world.files,
          ((Catalogue.shop 1).pictured ⟨.uuid 7, .admin⟩).world.Grants f req.user url ∧
          ∀ f' ∈ ((Catalogue.shop 1).pictured ⟨.uuid 7, .admin⟩).world.files, f'.key = f.key → f' = f :=
  (signed_urls_confined ((Catalogue.shop 1).filesReachable_pictured ⟨.uuid 7, .admin⟩)).1 2
    (.url (.signedGet "media" [.text "products", .uuid 0, .text "images", .file 0 "png"] (some 120))) rfl

end OrdersBackend
