import OrdersBackend.Lib.Numeral
import OrdersBackend.Lib.Sum
import OrdersBackend.OrderReads
import OrdersBackend.System

/-!
# `FilesService`

Presigned uploads and downloads of the files in a bucket, and the record kept
of each. The service runs in the process that takes the orders, so its
procedures are over the commands of both. An object key is kept as the parts
of its path, a URL as what it addresses. Ids are compared as uuids; the service
compares how they are spelled, and refuses more.
-/

namespace OrdersBackend

open Conc Async

inductive EntityType where
  | product
  | user
  deriving DecidableEq, Repr

/-- The content types that `PresignFileDto` lets through. -/
inductive ContentType where
  | jpeg
  | png
  | webp
  deriving DecidableEq, Repr

inductive FileVisibility where
  | Private
  | Public
  deriving DecidableEq, Repr

inductive FileStatus where
  | pending
  | ready
  | deleted
  deriving DecidableEq, Repr

/-- A part of a path between slashes. -/
inductive KeyPart where
  | text (s : String)
  | uuid (id : Uuid)
  | file (id : Uuid) (ext : String)
  deriving DecidableEq, Repr

abbrev ObjectKey := List KeyPart

/-- The columns of a new row of `file_records`, but for its owner. -/
structure FileFields where
  entityType : EntityType
  entityId : Uuid
  key : ObjectKey
  bucket : String
  contentType : ContentType
  size : Nat
  visibility : FileVisibility
  status : FileStatus
  deriving DecidableEq, Repr

structure FileRecord extends FileFields where
  id : Uuid
  ownerId : Uuid
  deriving DecidableEq, Repr

inductive Url where
  | signedPut (bucket : String) (key : ObjectKey) (contentType : ContentType) (expiresIn : Option Rat)
  | signedGet (bucket : String) (key : ObjectKey) (expiresIn : Option Rat)
  | cloudfront (base : String) (key : ObjectKey)
  | s3 (bucket region : String) (key : ObjectKey)
  deriving DecidableEq, Repr

/-! ## Requests -/

/-- A request body that has passed the `ValidationPipe`. -/
structure PresignFileDto where
  entityType : EntityType
  entityId : Uuid
  contentType : ContentType
  size : Nat
  visibility : Option FileVisibility
  sizePositive : 0 < size
  sizeMax : size ≤ 10 * 1024 * 1024

inductive FileRequest where
  | presign (user : Caller) (dto : PresignFileDto)
  | complete (user : Caller) (fileId : Uuid)
  | getFileUrl (user : Caller) (fileId : IdText)

def FileRequest.user : FileRequest → Caller
  | .presign user _ | .complete user _ | .getFileUrl user _ => user

structure PresignResult where
  fileId : Uuid
  key : ObjectKey
  uploadUrl : Url
  contentType : ContentType
  deriving DecidableEq, Repr

inductive FileReply where
  | presigned (result : PresignResult)
  | ok
  | url (url : Url)
  deriving DecidableEq, Repr

def FileReply.urls : FileReply → List Url
  | .presigned result => [result.uploadUrl]
  | .ok => []
  | .url u => [u]

/-! ## Environment variables -/

structure FilesConfig where
  s3Bucket : Option String
  presignExpiresSec : Option String
  cloudfrontBaseUrl : Option String
  awsRegion : Option String

/-- `v || undefined`. -/
def orUndefined (v : Option String) : Option String := v.filter (· ≠ "")

namespace FilesConfig

def bucket (env : FilesConfig) : Except Err String :=
  match orUndefined env.s3Bucket with
  | some bucket => .ok bucket
  | none => .error (.js "Missing S3_BUCKET in env")

/-- `Number(... || 120)`; `none` is `NaN`. -/
def expiresSec (env : FilesConfig) : Option Rat :=
  match orUndefined env.presignExpiresSec with
  | some v => Numeral.value? v
  | none => some 120

/-- `base.replace(/\/$/, '')` for the base, if there is one. -/
def cloudfrontBase (env : FilesConfig) : Option String :=
  (orUndefined env.cloudfrontBaseUrl).map fun base => if base.endsWith "/" then (base.dropEnd 1).toString else base

def region (env : FilesConfig) : String := env.awsRegion.getD "undefined"

end FilesConfig

/-! ## Commands -/

inductive FileCmd where
  | uuid
  | insertFile (ownerId : IdText) (file : FileFields)
  | findFile (id : IdText)
  | saveFile (file : FileRecord)
  | updateImage (productId fileId : Uuid)
  | createPresignedPutUrl (bucket : String) (key : ObjectKey) (contentType : ContentType)
      (expiresInSec : Option Rat)
  | createPresignedGetUrl (bucket : String) (key : ObjectKey) (expiresInSec : Option Rat)
  deriving DecidableEq

@[reducible] def FileCmd.Res : FileCmd → Type
  | .uuid => Uuid
  | .insertFile _ _ => FileRecord
  | .findFile _ => Option FileRecord
  | .createPresignedPutUrl _ _ _ _ | .createPresignedGetUrl _ _ _ => Url
  | _ => Unit

abbrev FilesApi (α : Type) := Async (Cmd ⊕ FileCmd) (Sum.elim Cmd.Res FileCmd.Res) Err α

abbrev issueFile (c : FileCmd) : FilesApi c.Res := Async.call (C := Cmd ⊕ FileCmd) (.inr c)

/-! ## The service -/

def frameworkError (statusCode : Nat) (code message error : String) : Err :=
  .http ⟨statusCode, code, message, .body message error statusCode⟩

def forbidden (message : String) : Err := frameworkError 403 "FORBIDDEN" message "Forbidden"

def notFound (message : String) : Err := frameworkError 404 "NOT_FOUND" message "Not Found"

def conflict (message : String) : Err := frameworkError 409 "CONFLICT" message "Conflict"

def badRequest (message : String) : Err := frameworkError 400 "BAD_REQUEST" message "Bad Request"

def ContentType.ext : ContentType → String
  | .jpeg => "jpg"
  | .png => "png"
  | .webp => "webp"

def buildKey (dto : PresignFileDto) : FilesApi ObjectKey := do
  let fileUuid ← issueFile .uuid
  match dto.entityType with
  | .product => pure [.text "products", .uuid dto.entityId, .text "images", .file fileUuid dto.contentType.ext]
  | .user => pure [.text "users", .uuid dto.entityId, .text "avatars", .file fileUuid dto.contentType.ext]

def assertCanPresign (user : Caller) (dto : PresignFileDto) : Except Err Unit :=
  if dto.entityType = .product ∧ user.role ≠ .admin then .error (forbidden "Only admin can upload product images")
  else if dto.entityType = .user ∧ user.id ≠ .uuid dto.entityId then
    .error (forbidden "Cannot upload avatar for another user")
  else .ok ()

def presign (env : FilesConfig) (user : Caller) (dto : PresignFileDto) : FilesApi PresignResult := do
  ofExcept (assertCanPresign user dto)
  let key ← buildKey dto
  let bucket ← ofExcept env.bucket
  let file ← issueFile (.insertFile user.id
    { entityType := dto.entityType, entityId := dto.entityId, key, bucket, contentType := dto.contentType,
      size := dto.size, visibility := dto.visibility.getD .Private, status := .pending })
  let uploadUrl ← issueFile (.createPresignedPutUrl file.bucket file.key file.contentType env.expiresSec)
  pure { fileId := file.id, key := file.key, uploadUrl, contentType := file.contentType }

def complete (user : Caller) (fileId : Uuid) : FilesApi Unit := do
  let found ← issueFile (.findFile (.uuid fileId))
  match found with
  | none => throw (notFound "File not found")
  | some file =>
    if .uuid file.ownerId ≠ user.id then throw (forbidden "Cannot complete чужий файл")
    else if file.status ≠ .pending then throw (conflict "File is not pending")
    else do
      issueFile (.saveFile { file with status := .ready })
      if file.entityType = .product then issueFile (.updateImage file.entityId file.id) else pure ()

def getFileUrl (env : FilesConfig) (user : Caller) (fileId : IdText) : FilesApi Url := do
  let found ← issueFile (.findFile fileId)
  match found with
  | none => throw (notFound "File not found")
  | some file =>
    if file.status ≠ .ready then throw (badRequest "File is not ready")
    else if file.visibility = .Private ∧
      .uuid file.ownerId ≠ user.id then throw (forbidden "No access to this file")
    else if file.visibility = .Public then
      match env.cloudfrontBase with
      | some base => pure (.cloudfront base file.key)
      | none => pure (.s3 file.bucket env.region file.key)
    else issueFile (.createPresignedGetUrl file.bucket file.key env.expiresSec)

/-! ## The process -/

inductive FileEvent where
  | inserted (t : Tid) (id : Uuid)
  | saved (t : Tid) (id : Uuid)
  | linked (t : Tid) (productId fileId : Uuid)
  deriving DecidableEq, Repr

structure FilesWorld where
  orders : World
  files : List FileRecord
  requests : Tid → Option FileRequest
  /-- Newest first. -/
  history : List FileEvent

namespace FilesWorld

def file? (w : FilesWorld) (id : Uuid) : Option FileRecord := w.files.find? fun f => f.id = id

def insertFile (t : Tid) (file : FileRecord) (w : FilesWorld) : FilesWorld :=
  { w with files := w.files ++ [file], orders := w.orders.nextUuid, history := .inserted t file.id :: w.history }

/-- `save` of a loaded entity writes the columns that differ from the row. -/
def saveFile (t : Tid) (file : FileRecord) (w : FilesWorld) : FilesWorld :=
  { w with
    files := w.files.map fun f => if f.id = file.id then file else f
    history := .saved t file.id :: w.history }

def updateImage (t : Tid) (productId fileId : Uuid) (w : FilesWorld) : FilesWorld :=
  { w with
    orders := { w.orders with
      db := w.orders.db.updateProduct productId fun p => { p with imageFileId := some fileId } }
    history := .linked t productId fileId :: w.history }

end FilesWorld

/-- A statement on the files, as it takes effect in the database. -/
def FilesWorld.statement (t : Tid) : (c : FileCmd) → FilesWorld → Option (Except Err c.Res × FilesWorld)
  | .uuid, w => some (.ok w.orders.uuids, { w with orders := w.orders.nextUuid })
  | .insertFile ownerId file, w =>
    match ownerId with
    | .text _ => some (.error invalidUuid, w)
    | .uuid ownerId =>
      if w.files.any fun f => f.key = file.key then some (.error uniqueViolation, w)
      else
        let file : FileRecord := { file with id := w.orders.uuids, ownerId }
        some (.ok file, w.insertFile t file)
  | .findFile id, w =>
    match id with
    | .text _ => some (.error invalidUuid, w)
    | .uuid id => some (.ok (w.file? id), w)
  | .saveFile file, w => some (.ok (), w.saveFile t file)
  | .updateImage productId fileId, w =>
    if w.orders.lockable t (.product productId) then some (.ok (), w.updateImage t productId fileId) else none
  | .createPresignedPutUrl bucket key contentType expiresIn,
      w => some (.ok (.signedPut bucket key contentType expiresIn), w)
  | .createPresignedGetUrl bucket key expiresIn, w => some (.ok (.signedGet bucket key expiresIn), w)

def FileCmd.infallible : FileCmd → Bool
  | .uuid => true
  | _ => false

/-- A statement goes through, rejects, or goes through although its client is
told that it failed. -/
def execFile (t : Tid) (c : FileCmd) (ch : Choice) (w : FilesWorld) : Option (Except Err c.Res × FilesWorld) :=
  match ch with
  | .proceed => w.statement t c
  | .unnoticed => none
  | .fail e => if c.infallible || isUniqueViolation e then none else some (.error e, w)
  | .ackLost e =>
    if c.infallible || isUniqueViolation e then none else (w.statement t c).map fun rw => (.error e, rw.2)

def fileThread (env : FilesConfig) : FileRequest → FilesApi (Reply ⊕ FileReply)
  | .presign user dto => do
    let result ← presign env user dto
    pure (.inr (.presigned result))
  | .complete user fileId => do
    complete user fileId
    pure (.inr .ok)
  | .getFileUrl user fileId => do
    let url ← getFileUrl env user fileId
    pure (.inr (.url url))

abbrev FilesMachine := Machine FilesWorld Tid (Cmd ⊕ FileCmd)
    (Sum.elim Cmd.Res FileCmd.Res) Err (Reply ⊕ FileReply)
  Choice EnvAct (Arrival ⊕ FileRequest)

def filesMachine (cfg : Config) (env : FilesConfig) : FilesMachine where
  exec t c ch w :=
    match c with
    | .inl c => (exec cfg t c ch w.orders).map fun rw => (rw.1, { w with orders := rw.2 })
    | .inr c => execFile t c ch w
  kill t w := if (w.requests t).isSome then w else { w with orders := w.orders.kill t }
  env a w := (w.orders.env cfg a).map fun orders => { w with orders }
  spawn t a w :=
    match a with
    | .inl a => (w.orders.arrive cfg t a).map fun pw => (pw.1.inl FileReply, { w with orders := pw.2 })
    | .inr req =>
      match w.requests t with
      | some _ => none
      | none => some (fileThread env req, { w with requests := Function.update w.requests t (some req) })

abbrev FilesConf := Conf FilesWorld Tid (Cmd ⊕ FileCmd) (Sum.elim Cmd.Res FileCmd.Res) Err (Reply ⊕ FileReply)

def Catalogue.withFiles (c : Catalogue) : FilesConf where
  world := { orders := c.initial.world, files := [], requests := fun _ => none, history := [] }
  threads := fun _ => .idle

end OrdersBackend
