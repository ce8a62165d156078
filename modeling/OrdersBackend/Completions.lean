import OrdersBackend.FilesSound

/-!
# `complete` on its own

`complete` writes two tables without a transaction. What a single call leaves,
for each of its statements that may fail, and when it is all or nothing.
-/

namespace OrdersBackend

open Conc Async

variable {cfg : Config} {fc : FilesConfig} {t : Tid} {w w' : FilesWorld} {user : Caller} {fileId : Uuid}
variable {choose : Cmd ⊕ FileCmd → Choice}

def FileRecord.completed (f : FileRecord) : FileRecord := { f with status := .ready }

/-- The call finds a file that it may complete. -/
structure FilesWorld.Completable (w : FilesWorld) (user : Caller) (fileId : Uuid) (f : FileRecord) : Prop where
  found : w.file? fileId = some f
  owner : .uuid f.ownerId = user.id
  pending : f.status = .pending

/-- How a call ends that has read the record `f`: which of its writes have taken
effect, and whether it resolves. -/
inductive Completion (t : Tid) (choose : Cmd ⊕ FileCmd → Choice) (w : FilesWorld) (f : FileRecord) :
    Except Err Unit → FilesWorld → Prop
  | unsaved {e} (hs : choose (.inr (.saveFile f.completed)) = .fail e) : Completion t choose w f (.error e) w
  | savedUnsure {e} (hs : choose (.inr (.saveFile f.completed)) = .ackLost e) :
      Completion t choose w f (.error e) (w.saveFile t f.completed)
  | avatar (hs : choose (.inr (.saveFile f.completed)) = .proceed) (hu : f.entityType ≠ .product) :
      Completion t choose w f (.ok ()) (w.saveFile t f.completed)
  | linked (hs : choose (.inr (.saveFile f.completed)) = .proceed) (hp : f.entityType = .product)
      (hl : choose (.inr (.updateImage f.entityId f.id)) = .proceed) :
      Completion t choose w f (.ok ()) ((w.saveFile t f.completed).updateImage t f.entityId f.id)
  | unlinked {e} (hs : choose (.inr (.saveFile f.completed)) = .proceed) (hp : f.entityType = .product)
      (hl : choose (.inr (.updateImage f.entityId f.id)) = .fail e) :
      Completion t choose w f (.error e) (w.saveFile t f.completed)
  | linkedUnsure {e} (hs : choose (.inr (.saveFile f.completed)) = .proceed) (hp : f.entityType = .product)
      (hl : choose (.inr (.updateImage f.entityId f.id)) = .ackLost e) :
      Completion t choose w f (.error e) ((w.saveFile t f.completed).updateImage t f.entityId f.id)

/-! ## Statements -/

theorem alone_issueFile {cmd : FileCmd} {r : Except Err cmd.Res}
    (h : (filesMachine cfg fc).alone t choose (issueFile cmd) w = some (r, w')) :
    execFile t cmd (choose (.inr cmd)) w = some (r, w') := by
  obtain ⟨⟨r₁, w₁⟩, hx, h₁⟩ := Option.bind_eq_some_iff.mp h
  cases h₁
  exact hx

theorem execFile_write {cmd : FileCmd} {ch : Choice} {v : cmd.Res} {w₁ : FilesWorld} {r : Except Err cmd.Res}
    (hst : w.statement t cmd = none ∨ w.statement t cmd = some (.ok v, w₁))
    (hx : execFile t cmd ch w = some (r, w')) :
    (ch = .proceed ∧ r = .ok v ∧ w' = w₁) ∨ (∃ e, ch = .fail e ∧ r = .error e ∧ w' = w) ∨
      ∃ e, ch = .ackLost e ∧ r = .error e ∧ w' = w₁ := by
  unfold execFile at hx
  cases ch with
  | proceed =>
    rcases hst with hst | hst
    · rw [hst] at hx
      cases hx
    · rw [hst] at hx
      cases hx
      exact .inl ⟨rfl, rfl, rfl⟩
  | unnoticed => cases hx
  | fail e =>
    simp only at hx
    split at hx
    · cases hx
    · cases hx
      exact .inr (.inl ⟨e, rfl, rfl, rfl⟩)
  | ackLost e =>
    simp only at hx
    split at hx
    · cases hx
    · rcases hst with hst | hst
      · rw [hst] at hx
        cases hx
      · rw [hst] at hx
        cases hx
        exact .inr (.inr ⟨e, rfl, rfl, rfl⟩)

theorem alone_bind_issueFile {α : Type} {cmd : FileCmd} {f : cmd.Res → FilesApi α} {r : Except Err α}
    (h : (filesMachine cfg fc).alone t choose (issueFile cmd >>= f) w = some (r, w')) :
    ∃ r₁ w₁, execFile t cmd (choose (.inr cmd)) w = some (r₁, w₁) ∧ match r₁ with
      | .ok v => (filesMachine cfg fc).alone t choose (f v) w₁ = some (r, w')
      | .error e => r = .error e ∧ w' = w₁ := by
  rw [show issueFile cmd >>= f = (issueFile cmd).bind f from rfl, Machine.alone_bind] at h
  obtain ⟨⟨r₁, w₁⟩, hx, h₁⟩ := Option.bind_eq_some_iff.mp h
  refine ⟨r₁, w₁, alone_issueFile hx, ?_⟩
  cases r₁ with
  | ok v => exact h₁
  | error e =>
    cases h₁
    exact ⟨rfl, rfl⟩

/-! ## The call -/

/-- A call rejects without a write, or it completes the file that it has found. -/
theorem complete_cases {r : Except Err Unit}
    (h : (filesMachine cfg fc).alone t choose (complete user fileId) w = some (r, w')) :
    (w' = w ∧ (∃ e, r = .error e) ∧
      ∀ f, w.Completable user fileId f → choose (.inr (.findFile (.uuid fileId))) ≠ .proceed) ∨
    ∃ f, w.Completable user fileId f ∧ choose (.inr (.findFile (.uuid fileId))) = .proceed ∧
      Completion t choose w f r w' := by
  obtain ⟨r₁, w₁, hx, h₁⟩ := alone_bind_issueFile h
  rcases execFile_write (v := w.file? fileId) (.inr rfl) hx with ⟨hch, rfl, rfl⟩ | ⟨e, hch, rfl, rfl⟩ |
    ⟨e, hch, rfl, rfl⟩
  · cases hfound : w₁.file? fileId with
    | none =>
      simp only [hfound] at h₁
      cases h₁
      refine .inl ⟨rfl, ⟨_, rfl⟩, fun f hf => ?_⟩
      rw [hf.found] at hfound
      cases hfound
    | some f =>
      have unique : ∀ f', w₁.Completable user fileId f' → f' = f := fun f' hf' =>
        Option.some.inj (hf'.found.symm.trans hfound)
      simp only [hfound] at h₁
      split at h₁
      · rename_i howner
        cases h₁
        refine .inl ⟨rfl, ⟨_, rfl⟩, fun f' hf' => ?_⟩
        rw [unique f' hf'] at hf'
        exact (howner hf'.owner).elim
      · rename_i howner
        split at h₁
        · rename_i hstatus
          cases h₁
          refine .inl ⟨rfl, ⟨_, rfl⟩, fun f' hf' => ?_⟩
          rw [unique f' hf'] at hf'
          exact (hstatus hf'.pending).elim
        · rename_i hstatus
          refine .inr ⟨f, ⟨hfound, not_not.mp howner, not_not.mp hstatus⟩, hch, ?_⟩
          obtain ⟨r₂, w₂, hx₂, h₂⟩ := alone_bind_issueFile h₁
          rcases execFile_write (v := ()) (.inr rfl) hx₂ with ⟨hs, rfl, rfl⟩ | ⟨e, hs, rfl, rfl⟩ | ⟨e, hs, rfl, rfl⟩
          · simp only at h₂
            split at h₂
            · rename_i hp
              have hx₃ := alone_issueFile h₂
              have hst : ∀ w : FilesWorld, w.statement t (.updateImage f.entityId f.id) = none ∨
                  w.statement t (.updateImage f.entityId f.id) =
                    some (.ok (), w.updateImage t f.entityId f.id) := by
                intro w
                simp only [FilesWorld.statement]
                split
                · exact .inr rfl
                · exact .inl rfl
              rcases execFile_write (hst _) hx₃ with ⟨hl, rfl, rfl⟩ | ⟨e, hl, rfl, rfl⟩ | ⟨e, hl, rfl, rfl⟩
              · exact .linked hs hp hl
              · exact .unlinked hs hp hl
              · exact .linkedUnsure hs hp hl
            · rename_i hu
              cases h₂
              exact .avatar hs hu
          · obtain ⟨rfl, rfl⟩ := h₂
            exact .unsaved hs
          · obtain ⟨rfl, rfl⟩ := h₂
            exact .savedUnsure hs
  · obtain ⟨rfl, rfl⟩ := h₁
    exact .inl ⟨rfl, ⟨e, rfl⟩, fun _ _ => by simp [hch]⟩
  · obtain ⟨rfl, rfl⟩ := h₁
    exact .inl ⟨rfl, ⟨e, rfl⟩, fun _ _ => by simp [hch]⟩

/-- In any configuration of the process, a call that runs on its own is a run. -/
theorem FilesReachable.complete_alone {c : Catalogue} {conf : FilesConf} (h : FilesReachable cfg fc c conf)
    (hidle : conf.threads t = .idle) (hreq : conf.world.requests t = none) {r : Except Err Unit}
    (ha : (filesMachine cfg fc).alone t choose (complete user fileId)
      { conf.world with requests := Function.update conf.world.requests t (some (.complete user fileId)) } =
        some (r, w')) :
    ∃ conf', FilesReachable cfg fc c conf' ∧ conf'.world = w' ∧
      conf'.threads t = .running (.done (r.map fun _ => .inr .ok)) := by
  let conf₁ : FilesConf :=
    ⟨{ conf.world with requests := Function.update conf.world.requests t (some (.complete user fileId)) },
      Function.update conf.threads t (.running (fileThread fc (.complete user fileId)))⟩
  have hspawn : (filesMachine cfg fc).step conf (.spawn t (.inr (.complete user fileId))) = some conf₁ := by
    simp only [Machine.step, hidle, filesMachine, hreq, Option.map_some]
    rfl
  have hthread : (filesMachine cfg fc).alone t choose (fileThread fc (.complete user fileId)) conf₁.world =
      some (r.map fun _ => .inr .ok, w') := by
    rw [show fileThread fc (.complete user fileId) =
      (complete user fileId).bind fun _ => .done (.ok (.inr .ok)) from rfl, Machine.alone_bind, ha]
    cases r <;> rfl
  obtain ⟨chs, hrun⟩ := Machine.run_alone (c := conf₁) (Function.update_self ..) hthread
  exact ⟨_, (Machine.Reach.step _ h hspawn).trans (Machine.reach_of_run hrun), rfl, Function.update_self ..⟩

/-! ## All or nothing -/

/-- A call that resolves has done both writes, one that rejects neither. -/
def AllOrNothing (w : FilesWorld) (fileId : Uuid) : Except Err Unit → FilesWorld → Prop
  | .ok _, w' => ∃ f, w'.file? fileId = some f ∧ f.status = .ready ∧
      (f.entityType = .product →
        ∃ p ∈ w'.orders.db.products, p.id = f.entityId ∧ p.imageFileId = some f.id)
  | .error _, w' => w'.files = w.files ∧ w'.orders.db.products = w.orders.db.products

/-- A file that may be completed, and is read: the save does not take effect
with its answer lost; and if it goes through for a product's file, so does the
update, and there is such a product. -/
def Untorn (w : FilesWorld) (user : Caller) (fileId : Uuid) (choose : Cmd ⊕ FileCmd → Choice) : Prop :=
  ∀ f, w.Completable user fileId f → choose (.inr (.findFile (.uuid fileId))) = .proceed →
    (∀ e, choose (.inr (.saveFile f.completed)) ≠ .ackLost e) ∧
    (choose (.inr (.saveFile f.completed)) = .proceed → f.entityType = .product →
      choose (.inr (.updateImage f.entityId f.id)) = .proceed ∧ ∃ p ∈ w.orders.db.products, p.id = f.entityId)

theorem file?_saveFile {f : FileRecord} (t : Tid) (h : w.file? fileId = some f) :
    (w.saveFile t f.completed).file? fileId = some f.completed := by
  have hid : f.id = fileId := (FilesInv.file?_mem h).2
  have hsame : ((fun g : FileRecord => decide (g.id = fileId)) ∘
      fun g => if g.id = f.completed.id then f.completed else g) = fun g => decide (g.id = fileId) := by
    funext g
    by_cases hg : g.id = f.completed.id
    · simp [hg, FileRecord.completed]
    · simp [hg]
  unfold FilesWorld.file? at h
  show (w.files.map _).find? _ = _
  rw [List.find?_map, hsame, h]
  simp [FileRecord.completed]

theorem saveFile_ne {f : FileRecord} (t : Tid) (hf : f ∈ w.files) (hp : f.status = .pending) :
    (w.saveFile t f.completed).files ≠ w.files := by
  intro he
  have hm : f ∈ (w.saveFile t f.completed).files := by
    rw [he]
    exact hf
  obtain ⟨g, _, hg⟩ := List.mem_map.mp hm
  by_cases hid : g.id = f.completed.id
  · rw [if_pos hid] at hg
    rw [← hg] at hp
    cases hp
  · rw [if_neg hid] at hg
    rw [hg] at hid
    exact hid rfl

theorem exists_image_iff {productId : Uuid} :
    (∃ p ∈ (w.updateImage t productId fileId).orders.db.products, p.id = productId ∧ p.imageFileId = some fileId) ↔
      ∃ p ∈ w.orders.db.products, p.id = productId := by
  show (∃ p ∈ w.orders.db.products.map _, _) ↔ _
  constructor
  · rintro ⟨p', hp', hid, _⟩
    obtain ⟨p, hp, rfl⟩ := List.mem_map.mp hp'
    refine ⟨p, hp, ?_⟩
    by_cases h : p.id = productId
    · exact h
    · rwa [if_neg h] at hid
  · rintro ⟨p, hp, hid⟩
    exact ⟨_, List.mem_map_of_mem hp, by simp [hid]⟩

/-- A lone call is all or nothing exactly when it is not torn. -/
theorem complete_all_or_nothing {r : Except Err Unit}
    (h : (filesMachine cfg fc).alone t choose (complete user fileId) w = some (r, w')) :
    AllOrNothing w fileId r w' ↔ Untorn w user fileId choose := by
  rcases complete_cases h with ⟨rfl, ⟨e, rfl⟩, hno⟩ | ⟨f, hf, hread, hc⟩
  · exact ⟨fun _ f hf hread => (hno f hf hread).elim, fun _ => ⟨rfl, rfl⟩⟩
  · have hmem : f ∈ w.files := (FilesInv.file?_mem hf.found).1
    have hid : f.id = fileId := (FilesInv.file?_mem hf.found).2
    have hsaved := file?_saveFile t hf.found
    have hne := saveFile_ne t hmem hf.pending
    have unique : ∀ f', w.Completable user fileId f' → f' = f := fun f' hf' =>
      Option.some.inj (hf'.found.symm.trans hf.found)
    have untorn_iff : Untorn w user fileId choose ↔ (∀ e, choose (.inr (.saveFile f.completed)) ≠ .ackLost e) ∧
        (choose (.inr (.saveFile f.completed)) = .proceed → f.entityType = .product →
          choose (.inr (.updateImage f.entityId f.id)) = .proceed ∧
            ∃ p ∈ w.orders.db.products, p.id = f.entityId) := by
      refine ⟨fun hu => hu f hf hread, fun hu f' hf' _ => ?_⟩
      rw [unique f' hf']
      exact hu
    rw [untorn_iff]
    cases hc with
    | unsaved hs => exact ⟨fun _ => by simp [hs], fun _ => ⟨rfl, rfl⟩⟩
    | savedUnsure hs => exact ⟨fun ha => (hne ha.1).elim, fun hu => (hu.1 _ hs).elim⟩
    | avatar hs hu =>
      refine ⟨fun _ => by simp [hs, hu], fun _ => ⟨f.completed, hsaved, rfl, fun hp => ?_⟩⟩
      exact (hu hp).elim
    | linked hs hp hl =>
      have himage : (∃ p ∈ ((w.saveFile t f.completed).updateImage t f.entityId f.id).orders.db.products,
          p.id = f.entityId ∧ p.imageFileId = some f.id) ↔ ∃ p ∈ w.orders.db.products, p.id = f.entityId :=
        exists_image_iff (w := w.saveFile t f.completed)
      constructor
      · rintro ⟨f', hf', _, hp'⟩
        obtain rfl : f.completed = f' := Option.some.inj (hsaved.symm.trans hf')
        exact ⟨by simp [hs], fun _ _ => ⟨hl, himage.mp (hp' hp)⟩⟩
      · intro hu
        exact ⟨f.completed, hsaved, rfl, fun _ => himage.mpr (hu.2 hs hp).2⟩
    | unlinked hs hp hl =>
      refine ⟨fun ha => (hne ha.1).elim, fun hu => ?_⟩
      have hl' := (hu.2 hs hp).1
      rw [hl] at hl'
      cases hl'
    | linkedUnsure hs hp hl =>
      refine ⟨fun ha => (hne ha.1).elim, fun hu => ?_⟩
      have hl' := (hu.2 hs hp).1
      rw [hl] at hl'
      cases hl'

/-! ## Torn calls -/

def shopAdmin : Caller := ⟨.uuid 7, .admin⟩

/-- The admin has presigned an image. -/
def presigned (dto : PresignFileDto) : FilesConf :=
  ((filesMachine (.ofPool 1 .repository) (.ofBucket "media")).run (Catalogue.shop 1).withFiles
    (fileSteps 0 (.presign shopAdmin dto) 3)).getD (Catalogue.shop 1).withFiles

theorem filesReachable_presigned (dto : PresignFileDto) :
    FilesReachable (.ofPool 1 .repository) (.ofBucket "media") (.shop 1) (presigned dto) := Machine.reach_getD_run _ _

theorem complete_all_or_nothing_mug :
    ∃ w', (filesMachine (.ofPool 1 .repository) (.ofBucket "media")).alone 1 (fun _ => .proceed)
      (complete shopAdmin 1) (presigned mugImage).world = some (.ok (), w') ∧
      AllOrNothing (presigned mugImage).world 1 (.ok ()) w' := by
  refine ⟨_, rfl, ?_⟩
  have hrun : (filesMachine (.ofPool 1 .repository) (.ofBucket "media")).alone 1 (fun _ => .proceed)
      (complete shopAdmin 1) (presigned mugImage).world = some _ := rfl
  refine (complete_all_or_nothing hrun).mpr fun f hf _ => ⟨by simp, fun _ _ => ?_⟩
  have hfile := hf.found
  cases hfile
  exact ⟨rfl, _, List.mem_cons_self .., rfl⟩

/-- The statement that links the image fails. -/
def linkFails : Cmd ⊕ FileCmd → Choice
  | .inr (.updateImage _ _) => .fail (.pg "57014")
  | _ => .proceed

/-- An image of a product that is not there. -/
def strayImage : PresignFileDto := { mugImage with entityId := 5 }

/-- The admin asks for the file 1 to be completed. -/
def FilesWorld.asked (w : FilesWorld) : FilesWorld :=
  { w with requests := Function.update w.requests 1 (some (.complete shopAdmin 1)) }

/-- A call whose second write fails leaves the file completed, so a retry is
refused; one for a product that is not there resolves. -/
theorem complete_torn :
    (∃ conf, FilesReachable (.ofPool 1 .repository) (.ofBucket "media") (.shop 1) conf ∧
      conf.threads 1 = .running (.done (.error (.pg "57014"))) ∧
      ¬AllOrNothing (presigned mugImage).world 1 (.error (.pg "57014")) conf.world ∧
      (filesMachine (.ofPool 1 .repository) (.ofBucket "media")).alone 2 (fun _ => .proceed) (complete shopAdmin 1)
        conf.world = some (.error (conflict "File is not pending"), conf.world)) ∧
    ∃ conf, FilesReachable (.ofPool 1 .repository) (.ofBucket "media") (.shop 1) conf ∧
      conf.threads 1 = .running (.done (.ok (.inr .ok))) ∧
      ¬AllOrNothing (presigned strayImage).world 1 (.ok ()) conf.world := by
  refine ⟨?_, ?_⟩
  · have hrun : (filesMachine (.ofPool 1 .repository) (.ofBucket "media")).alone 1 linkFails (complete shopAdmin 1)
        (presigned mugImage).world.asked = some (.error (.pg "57014"), _) := rfl
    obtain ⟨conf, hreach, hworld, hdone⟩ := (filesReachable_presigned mugImage).complete_alone rfl rfl hrun
    refine ⟨conf, hreach, hdone, fun ha => ?_, ?_⟩
    · have hfiles := congrArg (List.map (·.status)) ha.1
      rw [hworld] at hfiles
      cases hfiles
    · rw [hworld]
      rfl
  · have hrun : (filesMachine (.ofPool 1 .repository) (.ofBucket "media")).alone 1 (fun _ => .proceed)
        (complete shopAdmin 1) (presigned strayImage).world.asked = some (.ok (), _) := rfl
    obtain ⟨conf, hreach, hworld, hdone⟩ := (filesReachable_presigned strayImage).complete_alone rfl rfl hrun
    refine ⟨conf, hreach, hdone, ?_⟩
    rintro ⟨f, hf, _, himage⟩
    rw [hworld] at hf himage
    cases hf
    obtain ⟨p, hp, hid, _⟩ := himage rfl
    cases List.mem_singleton.mp hp
    cases hid

end OrdersBackend
