import OrdersBackend.Completions
import OrdersBackend.Lib.Extend

/-!
# Uploads and downloads

A file comes back from where it was put. The replies to `presign`, `complete`
and `getFileUrl` are about one record, whatever the other calls do: the URL of
a download is that of the upload's object, for those who may read it, once its
owner has completed the upload.
-/

namespace OrdersBackend

open Conc Async

variable {cfg : Config} {fc : FilesConfig} {c : Catalogue} {w w' : FilesWorld} {t : Tid} {conf conf' : FilesConf}
variable {α : Type} {user user' : Caller} {dto : PresignFileDto}

/-! ## What the replies are about -/

def PresignFileDto.objectKey (dto : PresignFileDto) (id : Uuid) : ObjectKey :=
  match dto.entityType with
  | .product => [.text "products", .uuid dto.entityId, .text "images", .file id dto.contentType.ext]
  | .user => [.text "users", .uuid dto.entityId, .text "avatars", .file id dto.contentType.ext]

/-- Where a ready file is read. -/
def FilesConfig.downloadUrl (env : FilesConfig) (visibility : FileVisibility) (bucket : String) (key : ObjectKey) :
    Url :=
  match visibility with
  | .Private => .signedGet bucket key env.expiresSec
  | .Public =>
    match env.cloudfrontBase with
    | some base => .cloudfront base key
    | none => .s3 bucket env.region key

/-- The record of an upload. -/
structure FilesWorld.Presigned (env : FilesConfig) (w : FilesWorld) (user : Caller) (dto : PresignFileDto)
    (result : PresignResult) (f : FileRecord) : Prop where
  mem : f ∈ w.files
  id : f.id = result.fileId
  key : f.key = result.key
  named : ∃ id, f.key = dto.objectKey id
  owner : user.id = .uuid f.ownerId
  entity : f.entityType = dto.entityType ∧ f.entityId = dto.entityId
  content : f.contentType = dto.contentType ∧ f.size = dto.size
  visibility : f.visibility = dto.visibility.getD .Private
  uploadUrl : result.uploadUrl = .signedPut f.bucket f.key f.contentType env.expiresSec

def FilesWorld.Fits (env : FilesConfig) (w : FilesWorld) : FileRequest → FileReply → Prop
  | .presign user dto, .presigned result => ∃ f, w.Presigned env user dto result f
  | .complete user fileId, .ok => ∃ f ∈ w.files, f.id = fileId ∧ f.status = .ready ∧ user.id = .uuid f.ownerId
  | .getFileUrl user fileId, .url url => ∃ f ∈ w.files, fileId = .uuid f.id ∧ f.status = .ready ∧
      (f.visibility = .Private → user.id = .uuid f.ownerId) ∧ url = env.downloadUrl f.visibility f.bucket f.key
  | _, _ => False

/-- The outcome of `t` fits the request that it serves. -/
def FilesWorld.Replied (env : FilesConfig) (t : Tid) (r : Except Err (Reply ⊕ FileReply)) (w : FilesWorld) : Prop :=
  ∀ reply, r = .ok (.inr reply) → ∃ req, w.requests t = some req ∧ w.Fits env req reply

theorem Kept.presigned (h : Kept w w') {result : PresignResult} {f : FileRecord}
    (hp : w.Presigned fc user dto result f) : ∃ f', w'.Presigned fc user dto result f' := by
  obtain ⟨f', hf', hc, _⟩ := h.files f hp.mem
  obtain ⟨_, hid, hkey, hnamed, howner, hentity, hcontent, hvis, hurl⟩ := hp
  refine ⟨f', ?_⟩
  rw [eq_of_core hc] at hf' ⊢
  exact ⟨hf', hid, hkey, hnamed, howner, hentity, hcontent, hvis, hurl⟩

theorem Kept.fits (h : Kept w w') {req : FileRequest} {reply : FileReply} (hf : w.Fits fc req reply) :
    w'.Fits fc req reply := by
  cases req with
  | presign user dto =>
    cases reply with
    | presigned result =>
      obtain ⟨f, hp⟩ := hf
      exact h.presigned hp
    | _ => exact hf.elim
  | complete user fileId =>
    cases reply with
    | ok =>
      obtain ⟨f, hf, hid, hs, howner⟩ := hf
      exact ⟨f, h.ready hf hs, hid, hs, howner⟩
    | _ => exact hf.elim
  | getFileUrl user fileId =>
    cases reply with
    | url url =>
      obtain ⟨f, hf, hid, hs, hread, hurl⟩ := hf
      exact ⟨f, h.ready hf hs, hid, hs, hread, hurl⟩
    | _ => exact hf.elim

theorem Kept.replied (h : Kept w w') {r : Except Err (Reply ⊕ FileReply)} (hr : w.Replied fc t r) :
    w'.Replied fc t r := by
  intro reply he
  obtain ⟨req, hreq, hfits⟩ := hr reply he
  exact ⟨req, h.requests t req hreq, h.fits hfits⟩

/-! ## The procedures -/

/-- What a procedure of `t` that serves `req` has found out when it resolves. -/
def Learns (t : Tid) (req : FileRequest) (G : α → FilesWorld → Prop) (r : Except Err α) (w : FilesWorld) : Prop :=
  w.requests t = some req ∧ ∀ a, r = .ok a → G a w

section
variable {req : FileRequest} {G : α → FilesWorld → Prop}

theorem learns_error (h : w.requests t = some req) (e : Err) : Learns t req G (.error e) w :=
  ⟨h, fun _ he => by cases he⟩

theorem learns_ok {a : α} (h : w.requests t = some req) (ha : G a w) : Learns t req G (.ok a) w :=
  ⟨h, fun _ he => by cases he; exact ha⟩

theorem buildKey_eq (dto : PresignFileDto) :
    buildKey dto = issueFile .uuid >>= fun id => pure (dto.objectKey id) := by
  unfold buildKey PresignFileDto.objectKey
  congr 1
  funext id
  cases dto.entityType <;> rfl

theorem insertFile_fields {ownerId : IdText} {file : FileFields} {f : FileRecord}
    (hx : w.statement t (.insertFile ownerId file) = some (.ok f, w')) : f.toFileFields = file := by
  cases ownerId with
  | text s => cases hx
  | uuid ownerId =>
    simp only [FilesWorld.statement] at hx
    split at hx
    · cases hx
    · cases hx
      rfl

theorem learns_presign (hreq : w.requests t = some (.presign user dto)) :
    FilesWp cfg fc c t (presign fc user dto)
      (Learns t (.presign user dto) fun result w => w.Fits fc (.presign user dto) (.presigned result)) w := by
  refine Protocol.wp_check _ (fun e _ => learns_error hreq e) fun _ hcan => ?_
  rw [buildKey_eq]
  refine Protocol.wp_bind _ (Protocol.wp_bind _ (wp_file (fun _ _ => trivial)
    (fun e w₁ hk => learns_error (hk.requests t _ hreq) e) fun r w' w₁ _ _ hx hk₁ => ?_))
  have hreq₁ := hk₁.requests t _ hreq
  cases r with
  | error e => exact learns_error hreq₁ e
  | ok id =>
    refine Protocol.wp_check _ (fun e _ => learns_error hreq₁ e) fun bucket _ => ?_
    refine Protocol.wp_bind _ (wp_file (fun w' hk => ?_) (fun e w' hk => learns_error (hk.requests t _ hreq₁) e)
      fun r w' w₂ _ _ hx hk₂ => ?_)
    · exact ⟨user, dto, hk.requests t _ hreq₁, rfl, hcan, rfl, rfl, rfl⟩
    · have hreq₂ := hk₂.requests t _ hreq₁
      cases r with
      | error e => exact learns_error hreq₂ e
      | ok file =>
        refine Protocol.wp_bind _ (wp_file (fun _ _ => trivial) (fun e w' hk => learns_error (hk.requests t _ hreq₂) e)
          fun r w' w₃ _ _ hx' hk₃ => ?_)
        cases hx'
        refine learns_ok (hk₃.requests t _ hreq₂) (hk₃.fits ?_)
        obtain ⟨hmem, howner⟩ := insertFile_ok hx
        have hfields := insertFile_fields hx
        refine ⟨file, hmem, rfl, rfl, ⟨id, ?_⟩, howner, ⟨?_, ?_⟩, ⟨?_, ?_⟩, ?_, rfl⟩ <;> rw [hfields]

theorem learns_complete {fileId : Uuid} (hreq : w.requests t = some (.complete user fileId)) :
    FilesWp cfg fc c t (complete user fileId)
      (Learns t (.complete user fileId) fun _ w => w.Fits fc (.complete user fileId) .ok) w := by
  refine Protocol.wp_bind _ (wp_file (fun _ _ => trivial) (fun e w' hk => learns_error (hk.requests t _ hreq) e)
    fun r w' w₁ _ _ hx hk₁ => ?_)
  have hreq₁ := hk₁.requests t _ hreq
  cases hx
  cases hfound : w'.file? fileId with
  | none => exact learns_error hreq₁ _
  | some file =>
    obtain ⟨hf, hid⟩ := FilesInv.file?_mem hfound
    subst hid
    simp only
    by_cases howner : .uuid file.ownerId = user.id
    · rw [if_neg (not_not.mpr howner)]
      by_cases hstatus : file.status = .pending
      · rw [if_neg (not_not.mpr hstatus)]
        refine Protocol.wp_bind _ (wp_file (fun w₂ hk₂ => ?_) (fun e w₂ hk => learns_error (hk.requests t _ hreq₁) e)
          fun r w₂ w₃ hk₂ _ hx hk₃ => ?_)
        · obtain ⟨f, hf₂, hc, _⟩ := hk₂.files file hf
          exact ⟨user, hk₂.requests t _ hreq₁, howner.symm, rfl, f, hf₂, hc⟩
        · cases hx
          have hreq₃ := hk₃.requests t _ hreq₁
          obtain ⟨row, hrow, hc, _⟩ := hk₂.files file hf
          have hsaved : { file with status := .ready } ∈ (w₂.saveFile t { file with status := .ready }).files :=
            saveFile_mem hrow (id_of_core hc)
          have hfits : (w₂.saveFile t { file with status := .ready }).Fits fc (.complete user file.id) .ok :=
            ⟨_, hsaved, rfl, rfl, howner.symm⟩
          simp only
          by_cases htype : file.entityType = .product
          · rw [if_pos htype]
            refine wp_file (fun w₄ hk₄ => ?_) (fun e w₄ hk => learns_error (hk.requests t _ hreq₃) e)
              fun r w₄ w₅ _ _ _ hk₅ => ⟨hk₅.requests t _ hreq₃, fun _ _ => hk₅.fits hfits⟩
            exact ⟨user, _, hk₄.requests t _ hreq₃, hk₄.shows ⟨hsaved, rfl, htype, rfl⟩, rfl, howner.symm⟩
          · rw [if_neg htype]
            exact learns_ok hreq₃ hfits
      · rw [if_pos hstatus]
        exact learns_error hreq₁ _
    · rw [if_pos howner]
      exact learns_error hreq₁ _

theorem findFile_id {id : IdText} {f : FileRecord}
    (hx : w.statement t (.findFile id) = some (.ok (some f), w')) : id = .uuid f.id := by
  cases id with
  | text s => cases hx
  | uuid id =>
    obtain ⟨hr, _⟩ := Prod.mk.inj (Option.some.inj hx)
    exact congrArg _ (FilesInv.file?_mem (Except.ok.inj hr)).2.symm

theorem learns_getFileUrl {fileId : IdText} (hreq : w.requests t = some (.getFileUrl user fileId)) :
    FilesWp cfg fc c t (getFileUrl fc user fileId)
      (Learns t (.getFileUrl user fileId) fun url w => w.Fits fc (.getFileUrl user fileId) (.url url)) w := by
  refine Protocol.wp_bind _ (wp_file (fun _ _ => trivial) (fun e w' hk => learns_error (hk.requests t _ hreq) e)
    fun r w' w₁ _ _ hx hk₁ => ?_)
  have hreq₁ := hk₁.requests t _ hreq
  cases r with
  | error e => exact learns_error hreq₁ e
  | ok found =>
    cases found with
    | none => exact learns_error hreq₁ _
    | some file =>
      have hid := findFile_id hx
      obtain ⟨rfl, hf⟩ := findFile_ok hx
      simp only
      by_cases hready : file.status = .ready
      · rw [if_neg (not_not.mpr hready)]
        cases hv : file.visibility with
        | Private =>
          by_cases howner : .uuid file.ownerId = user.id
          · simp only [howner, ne_eq, not_true_eq_false, and_false, if_false, reduceCtorEq]
            refine wp_file (fun _ _ => trivial) (fun e w₂ hk => learns_error (hk.requests t _ hreq₁) e)
              fun r w₂ w₃ _ _ hx hk₃ => ?_
            cases hx
            refine learns_ok (hk₃.requests t _ hreq₁) (hk₃.fits ⟨file, hf, hid, hready, fun _ => howner.symm, ?_⟩)
            rw [hv]
            rfl
          · rw [if_pos ⟨rfl, howner⟩]
            exact learns_error hreq₁ _
        | Public =>
          simp only [reduceCtorEq, false_and, if_false, if_true]
          have hfits : ∀ url, url = fc.downloadUrl .Public file.bucket file.key →
              w₁.Fits fc (.getFileUrl user fileId) (.url url) := by
            intro url hurl
            refine ⟨file, hf, hid, hready, fun hp => ?_, ?_⟩
            · rw [hv] at hp
              cases hp
            · rw [hv]
              exact hurl
          cases hbase : fc.cloudfrontBase with
          | some base => exact learns_ok hreq₁ (hfits _ (by simp [FilesConfig.downloadUrl, hbase]))
          | none => exact learns_ok hreq₁ (hfits _ (by simp [FilesConfig.downloadUrl, hbase]))
      · rw [if_pos hready]
        exact learns_error hreq₁ _

theorem learns_reply {p : FilesApi α} (f : α → FileReply)
    (h : FilesWp cfg fc c t p (Learns t req fun a w => w.Fits fc req (f a)) w) :
    FilesWp cfg fc c t (p >>= fun a => pure (.inr (f a))) (fun r w => w.Replied fc t r) w := by
  refine Protocol.wp_bind _ (Protocol.wp_mono _ (fun r w' hr => ?_) h)
  cases r with
  | error e =>
    intro reply he
    cases he
  | ok a =>
    intro reply he
    cases he
    exact ⟨req, hr.1, hr.2 a rfl⟩

theorem learns_fileThread (hreq : w.requests t = some req) :
    FilesWp cfg fc c t (fileThread fc req) (fun r w => w.Replied fc t r) w := by
  cases req with
  | presign user dto => exact learns_reply .presigned (learns_presign hreq)
  | complete user fileId => exact learns_reply (fun _ => .ok) (learns_complete hreq)
  | getFileUrl user fileId => exact learns_reply .url (learns_getFileUrl hreq)

end

/-! ## Runs -/

/-- The protocol of the files, with what the replies are about. -/
def replies (cfg : Config) (fc : FilesConfig) (c : Catalogue) : (filesProtocol cfg fc c).Extra where
  inv _ := True
  pre _ _ _ := True
  guar _ _ _ := True
  post t r w := w.Replied fc t r
  post_rely _ _ _ _ hr h := h.replied hr
  inv_exec _ _ _ _ _ _ := trivial
  inv_kill _ _ _ _ := trivial
  inv_env _ _ _ _ _ _ := trivial
  inv_spawn _ _ _ _ _ _ _ _ := trivial

theorem exempt_replies (t : Tid) : (filesProtocol cfg fc c).Exempt (replies cfg fc c) t fun _ => True where
  rely _ _ _ _ := trivial
  guar _ _ _ _ := ⟨trivial, trivial⟩
  pre _ _ _ := trivial

theorem wp_spawn_replies (t : Tid) (a : Arrival ⊕ FileRequest) (w : FilesWorld)
    (p : FilesApi (Reply ⊕ FileReply)) (w' : FilesWorld)
    (_ : ((filesProtocol cfg fc c).extend (replies cfg fc c)).allows (.spawn t a))
    (_ : ((filesProtocol cfg fc c).extend (replies cfg fc c)).inv w)
    (h : (filesMachine cfg fc).spawn t a w = some (p, w')) :
    ((filesProtocol cfg fc c).extend (replies cfg fc c)).wp t p
      (((filesProtocol cfg fc c).extend (replies cfg fc c)).post t) w' := by
  refine Protocol.wp_extend _ _ (exempt_replies t) (fun r w _ hr => hr) trivial ?_
  cases a with
  | inl arr =>
    obtain ⟨⟨p', o⟩, _, he⟩ := Option.map_eq_some_iff.mp h
    cases he
    apply Protocol.wp_inl
    · intro cmd w
      trivial
    · intro w w'
      trivial
    · intro r w reply hr
      cases r <;> cases hr
  | inr req =>
    simp only [filesMachine] at h
    split at h
    · cases h
    · cases h
      exact learns_fileThread (Function.update_self ..)

theorem FilesReachable.replied (h : FilesReachable cfg fc c conf) {r : Except Err (Reply ⊕ FileReply)}
    (ht : conf.threads t = .running (.done r)) : conf.world.Replied fc t r :=
  (((filesProtocol cfg fc c).extend (replies cfg fc c)).sound wp_spawn_replies
    ⟨⟨filesInv_initial c, trivial⟩, fun _ _ hp => by cases hp⟩ (h.when fun _ _ => trivial)).post ht

theorem FilesReachable.kept (h : FilesReachable cfg fc c conf) (hr : (filesMachine cfg fc).Reach conf conf') :
    Kept conf.world conf'.world := by
  induction hr with
  | refl => exact .refl _
  | @step conf₁ conf₂ l hr hs ih =>
    have hreach : FilesReachable cfg fc c conf₁ := Machine.Reach.trans h hr
    refine ih.trans ?_
    rcases Machine.step_cases hs with ⟨t, ch, cmd, k, r, w, rfl, ht, hx, rfl⟩ | ⟨t, cmd, k, rfl, _, rfl⟩ |
      ⟨e, w, rfl, hx, rfl⟩ | ⟨t, a, q, w, rfl, _, hx, rfl⟩
    · exact (hreach.inv.exec (hreach.good.pre ht) hx).2
    · have hkept : Kept conf₁.world ((filesMachine cfg fc).kill t conf₁.world) := hreach.inv.kill.2
      exact hkept
    · exact (hreach.inv.env hx).2
    · exact (hreach.inv.spawn hx).2

/-! ## Ready files -/

theorem FilesInv.file?_eq (h : FilesInv c w) {f : FileRecord} (hf : f ∈ w.files) : w.file? f.id = some f := by
  obtain ⟨f', hf'⟩ : ∃ f', w.file? f.id = some f' :=
    Option.isSome_iff_exists.mp (List.find?_isSome.mpr ⟨f, hf, decide_eq_true rfl⟩)
  obtain ⟨hmem, hid⟩ := FilesInv.file?_mem hf'
  rw [hf', h.file_eq hf hmem hid]

/-- A ready file is shown to everybody or, a private one, to its owner. -/
theorem alone_getFileUrl {f : FileRecord} (hf : w.file? f.id = some f) (hready : f.status = .ready) (u : Tid) :
    (filesMachine cfg fc).alone u (fun _ => .proceed) (getFileUrl fc user (.uuid f.id)) w =
      some (if f.visibility = .Private ∧ user.id ≠ .uuid f.ownerId then .error (forbidden "No access to this file")
        else Except.ok (fc.downloadUrl f.visibility f.bucket f.key), w) := by
  have hfind : (filesMachine cfg fc).alone u (fun _ => .proceed) (issueFile (.findFile (.uuid f.id))) w =
      some (.ok (some f), w) := by
    have hread : (filesMachine cfg fc).alone u (fun _ => .proceed) (issueFile (.findFile (.uuid f.id))) w =
        some (.ok (w.file? f.id), w) := rfl
    rw [hread, hf]
  have hbind : ∀ k : Option FileRecord → FilesApi Url,
      (filesMachine cfg fc).alone u (fun _ => .proceed) (issueFile (.findFile (.uuid f.id)) >>= k) w =
        (filesMachine cfg fc).alone u (fun _ => .proceed) (k (some f)) w := by
    intro k
    change (filesMachine cfg fc).alone u _ ((issueFile (.findFile (.uuid f.id))).bind k) w = _
    rw [Machine.alone_bind, hfind]
    rfl
  rw [getFileUrl, hbind]
  simp only [hready, ne_eq, not_true_eq_false, if_false, eq_comm (a := IdText.uuid f.ownerId)]
  cases hv : f.visibility with
  | Private =>
    by_cases howner : user.id = .uuid f.ownerId
    · simp only [howner, not_true_eq_false, and_false, if_false, reduceCtorEq]
      rfl
    · simp only [howner, not_false_eq_true, and_self, if_true]
      rfl
  | Public =>
    simp only [reduceCtorEq, false_and, if_false, if_true, FilesConfig.downloadUrl]
    cases fc.cloudfrontBase <;> rfl

/-! ## The way of a file -/

/-- The call `t` has been answered. -/
structure FileAnswer (conf : FilesConf) (t : Tid) (req : FileRequest) (reply : FileReply) : Prop where
  request : conf.world.requests t = some req
  reply : conf.threads t = .running (.done (.ok (.inr reply)))

theorem FileAnswer.fits {req : FileRequest} {reply : FileReply} (h : FilesReachable cfg fc c conf)
    (ha : FileAnswer conf t req reply) : conf.world.Fits fc req reply := by
  obtain ⟨req', hreq, hfits⟩ := h.replied ha.reply reply rfl
  rw [ha.request] at hreq
  cases hreq
  exact hfits

/-- A download has the object of the upload, for those the upload was meant for,
and only once the uploader has completed it. -/
theorem file_round_trip (h : FilesReachable cfg fc c conf) {t t' : Tid} {result : PresignResult} {url : Url}
    (hput : FileAnswer conf t (.presign user dto) (.presigned result))
    (hget : FileAnswer conf t' (.getFileUrl user' (.uuid result.fileId)) (.url url)) :
    (∃ bucket, result.uploadUrl = .signedPut bucket result.key dto.contentType fc.expiresSec ∧
      url = fc.downloadUrl (dto.visibility.getD .Private) bucket result.key) ∧
    (∃ id, result.key = dto.objectKey id) ∧
    (dto.visibility.getD .Private = .Private → user'.id = user.id) ∧
    ∃ t'' user'', conf.world.requests t'' = some (.complete user'' result.fileId) ∧ user''.id = user.id ∧
      .saved t'' result.fileId ∈ conf.world.history := by
  obtain ⟨f, hf⟩ := hput.fits h
  obtain ⟨f', hf', hid, hready, hread, hurl⟩ := hget.fits h
  obtain rfl : f' = f := h.inv.file_eq hf.mem hf' ((IdText.uuid.inj hid).symm.trans hf.id.symm)
  refine ⟨⟨f'.bucket, ?_, ?_⟩, ?_, fun hprivate => ?_, ?_⟩
  · rw [hf.uploadUrl, hf.key, hf.content.1]
  · rw [hurl, hf.visibility, hf.key]
  · obtain ⟨id, hnamed⟩ := hf.named
    exact ⟨id, hf.key ▸ hnamed⟩
  · rw [hread (hf.visibility.trans hprivate), hf.owner]
  · obtain ⟨t'', user'', hreq, hsaved, howner⟩ := h.inv.completed f' hf' hready
    rw [hf.id] at hreq hsaved
    exact ⟨t'', user'', hreq, howner.trans hf.owner.symm, hsaved⟩

def mugKey : ObjectKey := [.text "products", .uuid 0, .text "images", .file 0 "png"]

def mugUpload : PresignResult where
  fileId := 1
  key := mugKey
  uploadUrl := .signedPut "media" mugKey .png (some 120)
  contentType := .png

theorem mugUpload_answered :
    FileAnswer ((Catalogue.shop 1).pictured shopAdmin) 0 (.presign shopAdmin mugImage) (.presigned mugUpload) :=
  ⟨rfl, rfl⟩

theorem mugUpload_completed : FileAnswer ((Catalogue.shop 1).pictured shopAdmin) 1 (.complete shopAdmin 1) .ok :=
  ⟨rfl, rfl⟩

theorem mugDownload_answered :
    FileAnswer ((Catalogue.shop 1).pictured shopAdmin) 2 (.getFileUrl shopAdmin (.uuid 1))
      (.url (.signedGet "media" mugKey (some 120))) :=
  ⟨rfl, rfl⟩

theorem file_round_trip_mug :
    mugImage.visibility.getD .Private = .Private ∧
    ∃ bucket, mugUpload.uploadUrl = .signedPut bucket mugKey .png (some 120) ∧
      Url.signedGet "media" mugKey (some 120) =
        (FilesConfig.ofBucket "media").downloadUrl (mugImage.visibility.getD .Private) bucket mugKey :=
  ⟨rfl, (file_round_trip (Catalogue.filesReachable_pictured (.shop 1) shopAdmin) mugUpload_answered
    mugDownload_answered).1⟩

/-- Once its owner has completed it, a file can be read for good. -/
theorem file_available (h : FilesReachable cfg fc c conf) {t t' : Tid} {owner : Caller} {result : PresignResult}
    (hput : FileAnswer conf t (.presign user dto) (.presigned result))
    (hdone : FileAnswer conf t' (.complete owner result.fileId) .ok) :
    owner.id = user.id ∧
    ∃ bucket, result.uploadUrl = .signedPut bucket result.key dto.contentType fc.expiresSec ∧
      ∀ conf', (filesMachine cfg fc).Reach conf conf' → ∀ u user',
        (filesMachine cfg fc).alone u (fun _ => .proceed) (getFileUrl fc user' (.uuid result.fileId)) conf'.world =
          some (if dto.visibility.getD .Private = .Private ∧ user'.id ≠ user.id then
              .error (forbidden "No access to this file")
            else .ok (fc.downloadUrl (dto.visibility.getD .Private) bucket result.key), conf'.world) := by
  obtain ⟨f, hf⟩ := hput.fits h
  obtain ⟨f', hf', hid, hready, howner⟩ := hdone.fits h
  obtain rfl : f' = f := h.inv.file_eq hf.mem hf' (hid.trans hf.id.symm)
  refine ⟨howner.trans hf.owner.symm, f'.bucket, ?_, fun conf' hr u user' => ?_⟩
  · rw [hf.uploadUrl, hf.key, hf.content.1]
  · have hreach : FilesReachable cfg fc c conf' := Machine.Reach.trans h hr
    have hmem : f' ∈ conf'.world.files := (h.kept hr).ready hf' hready
    rw [← hf.id, ← hf.visibility, ← hf.key, hf.owner]
    exact alone_getFileUrl (hreach.inv.file?_eq hmem) hready u

theorem file_available_mug :
    ∃ bucket, mugUpload.uploadUrl = .signedPut bucket mugKey .png (some 120) ∧
      (filesMachine (.ofPool 1 .repository) (.ofBucket "media")).alone 3 (fun _ => .proceed)
          (getFileUrl (.ofBucket "media") shopAdmin (.uuid 1)) ((Catalogue.shop 1).pictured shopAdmin).world =
        some (.ok (.signedGet bucket mugKey (some 120)), ((Catalogue.shop 1).pictured shopAdmin).world) := by
  obtain ⟨_, bucket, hurl, hread⟩ := file_available (Catalogue.filesReachable_pictured (.shop 1) shopAdmin)
    mugUpload_answered mugUpload_completed
  exact ⟨bucket, hurl, hread _ .refl 3 shopAdmin⟩

end OrdersBackend
