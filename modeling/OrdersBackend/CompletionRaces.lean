import OrdersBackend.Completions
import OrdersBackend.Lib.Extend

/-!
# Calls of `complete` side by side

The check that a file is pending and the write that makes it ready are two
statements, and another call may come between them. As long as no call saves a
file that another has saved since it was read, each file is completed once.
-/

namespace OrdersBackend

open Conc Async

variable {cfg : Config} {fc : FilesConfig} {c : Catalogue} {t : Tid} {w w' : FilesWorld} {F : Tid → Prop}
variable {user : Caller} {fileId : Uuid}

abbrev FilesLabel := Label Tid Choice EnvAct (Arrival ⊕ FileRequest)

def FileEvent.actor : FileEvent → Tid
  | .inserted t _ | .saved t _ | .linked t _ _ => t

def FileEvent.linksTo (fileId : Uuid) : FileEvent → Bool
  | .linked _ _ id => id = fileId
  | _ => false

/-! ## What a statement records -/

theorem statement_history {cmd : FileCmd} {r : Except Err cmd.Res} (hx : w.statement t cmd = some (r, w')) :
    w'.requests = w.requests ∧ ((w'.history = w.history) ∨
      (∃ ownerId file id, cmd = .insertFile ownerId file ∧ w'.history = .inserted t id :: w.history) ∨
      (∃ file, cmd = .saveFile file ∧ w' = w.saveFile t file) ∨
      ∃ productId fileId, cmd = .updateImage productId fileId ∧ w' = w.updateImage t productId fileId) := by
  cases cmd with
  | updateImage productId fileId =>
    simp only [FilesWorld.statement] at hx
    split at hx
    · cases hx
      exact ⟨rfl, .inr (.inr (.inr ⟨productId, fileId, rfl, rfl⟩))⟩
    · cases hx
  | saveFile file =>
    cases hx
    exact ⟨rfl, .inr (.inr (.inl ⟨file, rfl, rfl⟩))⟩
  | insertFile ownerId file =>
    simp only [FilesWorld.statement] at hx
    split at hx
    · cases hx
      exact ⟨rfl, .inl rfl⟩
    · split at hx
      · cases hx
        exact ⟨rfl, .inl rfl⟩
      · cases hx
        exact ⟨rfl, .inr (.inl ⟨_, _, _, rfl, rfl⟩)⟩
  | findFile id =>
    simp only [FilesWorld.statement] at hx
    split at hx <;> cases hx <;> exact ⟨rfl, .inl rfl⟩
  | _ =>
    cases hx
    exact ⟨rfl, .inl rfl⟩

theorem execFile_effect {cmd : FileCmd} {ch : Choice} {r : Except Err cmd.Res}
    (hx : execFile t cmd ch w = some (r, w')) :
    w' = w ∨ (∀ e, ch ≠ .fail e) ∧ ∃ r', w.statement t cmd = some (r', w') := by
  unfold execFile at hx
  cases ch with
  | proceed => exact .inr ⟨by simp, r, hx⟩
  | unnoticed => cases hx
  | fail e =>
    simp only at hx
    split at hx
    · cases hx
    · cases hx
      exact .inl rfl
  | ackLost e =>
    simp only at hx
    split at hx
    · cases hx
    · obtain ⟨⟨r', w₁⟩, hst, he⟩ := Option.map_eq_some_iff.mp hx
      cases he
      exact .inr ⟨by simp, r', hst⟩

theorem exec_history {cmd : Cmd ⊕ FileCmd} {ch : Choice} {r : Except Err (Sum.elim Cmd.Res FileCmd.Res cmd)}
    (hx : (filesMachine cfg fc).exec t cmd ch w = some (r, w')) :
    w'.requests = w.requests ∧ ∃ es, w'.history = es ++ w.history ∧ ∀ e ∈ es, e.actor = t := by
  cases cmd with
  | inl cmd =>
    obtain ⟨⟨r', o⟩, _, he⟩ := Option.map_eq_some_iff.mp hx
    cases he
    exact ⟨rfl, [], rfl, by simp⟩
  | inr cmd =>
    rcases execFile_effect hx with rfl | ⟨_, r', hst⟩
    · exact ⟨rfl, [], rfl, by simp⟩
    · obtain ⟨hreq, hh⟩ := statement_history hst
      refine ⟨hreq, ?_⟩
      rcases hh with hh | ⟨_, _, id, _, hh⟩ | ⟨file, _, rfl⟩ | ⟨productId, fileId, _, rfl⟩
      · exact ⟨[], hh, by simp⟩
      · exact ⟨[.inserted t id], hh, by simp [FileEvent.actor]⟩
      · exact ⟨[.saved t file.id], rfl, by simp [FileEvent.actor]⟩
      · exact ⟨[.linked t productId fileId], rfl, by simp [FileEvent.actor]⟩

theorem kill_history (cfg : Config) (fc : FilesConfig) (t : Tid) (w : FilesWorld) :
    ((filesMachine cfg fc).kill t w).requests = w.requests ∧
      ((filesMachine cfg fc).kill t w).history = w.history := by
  show (ite _ w { w with orders := w.orders.kill t }).requests = _ ∧
    (ite _ w { w with orders := w.orders.kill t }).history = _
  split <;> exact ⟨rfl, rfl⟩

theorem spawn_history {a : Arrival ⊕ FileRequest} {p : FilesApi (Reply ⊕ FileReply)}
    (hx : (filesMachine cfg fc).spawn t a w = some (p, w')) :
    (∀ t', t' ≠ t → w'.requests t' = w.requests t') ∧ w'.history = w.history := by
  cases a with
  | inl arr =>
    obtain ⟨⟨p', o⟩, _, he⟩ := Option.map_eq_some_iff.mp hx
    cases he
    exact ⟨fun _ _ => rfl, rfl⟩
  | inr req =>
    simp only [filesMachine] at hx
    split at hx
    · cases hx
    · cases hx
      exact ⟨fun t' hne => Function.update_of_ne hne .., rfl⟩

/-! ## The protocol -/

/-- What the others leave to `t`. -/
structure Beside (t : Tid) (w w' : FilesWorld) : Prop where
  kept : Kept w w'
  request : w'.requests t = w.requests t
  own : ∀ e : FileEvent, e.actor = t → (e ∈ w'.history ↔ e ∈ w.history)

theorem Beside.refl (t : Tid) (w : FilesWorld) : Beside t w w := ⟨.refl w, rfl, fun _ _ => Iff.rfl⟩

theorem Beside.trans {w'' : FilesWorld} (h : Beside t w w') (h' : Beside t w' w'') : Beside t w w'' where
  kept := h.kept.trans h'.kept
  request := h'.request.trans h.request
  own e he := (h'.own e he).trans (h.own e he)

/-- `t` has recorded nothing. -/
def Blank (t : Tid) (w : FilesWorld) : Prop := ∀ e ∈ w.history, e.actor ≠ t

theorem Blank.beside (h : Blank t w) (hb : Beside t w w') : Blank t w' :=
  fun e he ha => h e ((hb.own e ha).mp he) ha

/-- `t` has saved the file, and not linked it yet. -/
structure Unlinked (t : Tid) (fileId : Uuid) (w : FilesWorld) : Prop where
  saved : .saved t fileId ∈ w.history
  linked : ∀ productId id, .linked t productId id ∉ w.history

theorem Unlinked.beside (h : Unlinked t fileId w) (hb : Beside t w w') : Unlinked t fileId w' where
  saved := (hb.own _ rfl).mpr h.saved
  linked productId id hm := h.linked productId id ((hb.own _ rfl).mp hm)

def LinkReady (t : Tid) : Cmd ⊕ FileCmd → FilesWorld → Prop
  | .inr (.updateImage _ fileId), w => Unlinked t fileId w
  | _, _ => True

/-- How a complete call ends: it has saved the file, or a statement of it has
failed, or it has been refused and has written nothing. -/
def CompleteEnd (F : Tid → Prop) (t : Tid) (user : Caller) (fileId : Uuid) {α : Type} (r : Except Err α)
    (w : FilesWorld) : Prop :=
  match r with
  | .ok _ => .saved t fileId ∈ w.history
  | .error e => F t ∨ Blank t w ∧ (e = conflict "File is not pending" ∨ e = notFound "File not found" ∨
      e = forbidden "Cannot complete чужий файл" ∧ ∃ f ∈ w.files, f.id = fileId ∧ .uuid f.ownerId ≠ user.id)

theorem CompleteEnd.beside {α : Type} {r : Except Err α} (h : CompleteEnd F t user fileId r w)
    (hb : Beside t w w') : CompleteEnd F t user fileId r w' := by
  cases r with
  | ok a => exact (hb.own _ rfl).mpr h
  | error e =>
    rcases h with h | ⟨hblank, he⟩
    · exact .inl h
    · refine .inr ⟨hblank.beside hb, ?_⟩
      rcases he with he | he | ⟨he, f, hf, hid, howner⟩
      · exact .inl he
      · exact .inr (.inl he)
      · obtain ⟨f', hf', hc, _⟩ := hb.kept.files f hf
        have hf'' := eq_of_core hc
        exact .inr (.inr ⟨he, f', hf', by rw [hf'']; exact hid, by rw [hf'']; exact howner⟩)

/-- Only the threads in `F` see statements fail. -/
def FailsOnly (F : Tid → Prop) : FilesLabel → Prop
  | .run t ch => ch ≠ .proceed → F t
  | _ => True

theorem Beside.of_exec (h : FilesInv c w) {cmd : Cmd ⊕ FileCmd} (hmay : w.MayIssue t cmd) {ch : Choice}
    {r : Except Err (Sum.elim Cmd.Res FileCmd.Res cmd)}
    (hx : (filesMachine cfg fc).exec t cmd ch w = some (r, w')) {t' : Tid} (hne : t' ≠ t) : Beside t' w w' := by
  obtain ⟨hreq, es, hh, hes⟩ := exec_history hx
  refine ⟨(h.exec hmay hx).2, congrFun hreq t', fun e he => ?_⟩
  rw [hh, List.mem_append]
  refine ⟨fun hm => hm.resolve_left fun hm => ?_, .inr⟩
  exact hne (he.symm.trans (hes e hm))

theorem Beside.of_env (h : FilesInv c w) {act : EnvAct} (hx : (filesMachine cfg fc).env act w = some w') :
    Beside t w w' := by
  obtain ⟨_, hkept⟩ := h.env hx
  obtain ⟨o, _, rfl⟩ := Option.map_eq_some_iff.mp hx
  exact ⟨hkept, rfl, fun _ _ => Iff.rfl⟩

theorem Beside.of_kill (h : FilesInv c w) (t' : Tid) : Beside t w ((filesMachine cfg fc).kill t' w) := by
  obtain ⟨hreq, hh⟩ := kill_history cfg fc t' w
  exact ⟨h.kill.2, congrFun hreq t, fun e _ => by rw [hh]⟩

theorem Beside.of_spawn (h : FilesInv c w) {a : Arrival ⊕ FileRequest} {p : FilesApi (Reply ⊕ FileReply)}
    (hx : (filesMachine cfg fc).spawn t a w = some (p, w')) {t' : Tid} (hne : t' ≠ t) : Beside t' w w' := by
  obtain ⟨hreq, hh⟩ := spawn_history hx
  exact ⟨(h.spawn hx).2, hreq t' hne, fun e _ => by rw [hh]⟩

def completions (cfg : Config) (fc : FilesConfig) (c : Catalogue) (F : Tid → Prop) :
    Protocol (filesMachine cfg fc) where
  allows := FailsOnly F
  inv := FilesInv c
  rely := Beside
  guar _ _ _ := True
  pre t cmd w := w.MayIssue t cmd ∧ LinkReady t cmd w
  post t r w := ∀ user fileId, w.requests t = some (.complete user fileId) → CompleteEnd F t user fileId r w
  rely_refl := .refl
  rely_trans _ _ _ _ := .trans
  post_rely _ _ _ _ h hb user fileId hreq := (h user fileId (hb.request.symm.trans hreq)).beside hb
  exec_ok _ _ _ _ _ _ _ h hp hx _ := ⟨(h.exec hp.1 hx).1, fun _ => .of_exec h hp.1 hx⟩
  kill_ok t _ _ h := ⟨h.kill.1, fun _ _ => .of_kill h t⟩
  env_ok _ _ _ _ h hx := ⟨(h.env hx).1, fun _ => .of_env h hx⟩
  spawn_ok _ _ _ _ _ _ h hx := ⟨(h.spawn hx).1, fun _ => .of_spawn h hx⟩

/-! ## The procedures -/

/-- Before it starts, a thread has no request and has recorded nothing. -/
def Fresh (t : Tid) (w : FilesWorld) : Prop := w.requests t = none ∧ Blank t w

theorem Fresh.beside (h : Fresh t w) (hb : Beside t w w') : Fresh t w' :=
  ⟨hb.request.trans h.1, h.2.beside hb⟩

theorem wp_statement {cmd : FileCmd} {Q : Except Err cmd.Res → FilesWorld → Prop}
    (hpre : ∀ w', Beside t w w' → w'.May t cmd ∧ LinkReady t (.inr cmd) w')
    (herr : F t → ∀ e w', Q (.error e) w')
    (hok : ∀ r w' w'', Beside t w w' → w'.statement t cmd = some (r, w'') → Q r w'') :
    (completions cfg fc c F).wp t (issueFile cmd) Q w := by
  intro w' hb _
  refine ⟨hpre w' hb, fun ch r w'' ha hx => ⟨trivial, ?_⟩⟩
  have hx' : execFile t cmd ch w' = some (r, w'') := hx
  cases ch with
  | proceed => exact hok r w' w'' hb hx'
  | unnoticed => cases hx'
  | fail e | ackLost e =>
    rcases execFile_cases hx' with hx' | ⟨e, rfl, _⟩
    · exact hok r w' w'' hb hx'
    · exact herr (ha (by simp)) e w''

theorem Unlinked.of_save (file : FileRecord) (h : Blank t w) : Unlinked t file.id (w.saveFile t file) where
  saved := List.mem_cons_self ..
  linked productId id hm := by
    rcases List.mem_cons.mp hm with hm | hm
    · cases hm
    · exact h _ hm rfl

theorem wp_completeEnd (hreq : w.requests t = some (.complete user fileId)) (hblank : Blank t w) :
    (completions cfg fc c F).wp t (complete user fileId) (fun r w => CompleteEnd F t user fileId r w) w := by
  refine Protocol.wp_bind _ (wp_statement (fun _ _ => ⟨trivial, trivial⟩) (fun hF _ _ => .inl hF)
    fun r w₁ w₂ hb₁ hx => ?_)
  cases hx
  have hreq₁ : w₁.requests t = some (.complete user fileId) := hb₁.request.trans hreq
  have hblank₁ := hblank.beside hb₁
  cases hfound : w₁.file? fileId with
  | none => exact .inr ⟨hblank₁, .inr (.inl rfl)⟩
  | some file =>
    obtain ⟨hf, hid⟩ := FilesInv.file?_mem hfound
    subst hid
    simp only
    split
    · rename_i howner
      exact .inr ⟨hblank₁, .inr (.inr ⟨rfl, file, hf, rfl, howner⟩)⟩
    · rename_i howner
      split
      · exact .inr ⟨hblank₁, .inl rfl⟩
      · refine Protocol.wp_bind _ (wp_statement (fun w₃ hb₃ => ⟨?_, trivial⟩) (fun hF _ _ => .inl hF)
          fun r w₃ w₄ hb₃ hx => ?_)
        · obtain ⟨f, hf₃, hc, _⟩ := hb₃.kept.files file hf
          exact ⟨user, hb₃.request.trans hreq₁, (not_not.mp howner).symm, rfl, f, hf₃, hc⟩
        · cases hx
          have hunlinked : Unlinked t file.id (w₃.saveFile t file.completed) :=
            .of_save file.completed (hblank₁.beside hb₃)
          obtain ⟨row, hrow, hc, _⟩ := hb₃.kept.files file hf
          have hsaved : file.completed ∈ (w₃.saveFile t file.completed).files := saveFile_mem hrow (id_of_core hc)
          simp only
          split
          · rename_i htype
            refine wp_statement (fun w₅ hb₅ => ⟨?_, hunlinked.beside hb₅⟩) (fun hF _ _ => .inl hF)
              fun r w₅ w₆ hb₅ hx => ?_
            · exact ⟨user, file.completed, hb₅.request.trans (hb₃.request.trans hreq₁),
                hb₅.kept.shows ⟨hsaved, rfl, htype, rfl⟩, rfl, (not_not.mp howner).symm⟩
            · simp only [FilesWorld.statement] at hx
              split at hx
              · cases hx
                exact List.mem_cons_of_mem _ (hunlinked.beside hb₅).saved
              · cases hx
          · exact hunlinked.saved

/-- A procedure that links no image keeps to this protocol as to the first. -/
theorem wp_of_files {α : Type} {p : FilesApi α} {Q : Except Err α → FilesWorld → Prop}
    (hp : p.Issues fun cmd => ∀ w, LinkReady t cmd w) (h : FilesWp cfg fc c t p Q w) :
    (completions cfg fc c F).wp t p Q w := by
  apply Protocol.wp_transfer (P := filesProtocol cfg fc c) _ _ _ _ _ hp h
  · intro ch _
    trivial
  · intro w' hi
    exact hi
  · intro w' w'' hb
    exact hb.kept
  · intro cmd w' hlink hmay
    exact ⟨hmay, hlink w'⟩
  · intro w' w'' _
    trivial

theorem issues_presign {dto : PresignFileDto} :
    (presign fc user dto).Issues fun cmd => ∀ w, LinkReady t cmd w := by
  refine issues_bind (issues_done _) fun _ => issues_bind ?_ fun key => issues_bind (issues_done _) fun bucket => ?_
  · refine issues_bind (issues_call fun _ => trivial) fun id => ?_
    cases dto.entityType <;> exact issues_done _
  · exact issues_bind (issues_call fun _ => trivial) fun file =>
      issues_bind (issues_call fun _ => trivial) fun url => issues_done _

theorem issues_getFileUrl {id : IdText} : (getFileUrl fc user id).Issues fun cmd => ∀ w, LinkReady t cmd w := by
  refine issues_bind (issues_call fun _ => trivial) fun found => ?_
  cases found with
  | none => exact issues_done _
  | some file =>
    simp only
    split
    · exact issues_done _
    · split
      · exact issues_done _
      · split
        · split <;> exact issues_done _
        · exact issues_call fun _ => trivial

/-- What a thread ends with is settled by the request it serves. -/
theorem wp_request {p : FilesApi (Reply ⊕ FileReply)} {req : Option FileRequest}
    {Q : Except Err (Reply ⊕ FileReply) → FilesWorld → Prop} (hreq : w.requests t = req)
    (hQ : ∀ r w, Q r w → ∀ user fileId, req = some (.complete user fileId) → CompleteEnd F t user fileId r w)
    (h : (completions cfg fc c F).wp t p Q w) :
    (completions cfg fc c F).wp t p ((completions cfg fc c F).post t) w := by
  have hend := (completions cfg fc c F).wp_invariant (I := fun w => w.requests t = req)
    (fun w₁ w₂ h₁ (hb : Beside t w₁ w₂) => hb.request.trans h₁)
    (fun _ _ _ _ _ h₁ hx => (congrFun (exec_history hx).1 t).trans h₁) hreq h
  refine Protocol.wp_mono _ (fun r w' hr => ?_) hend
  intro user fileId hreq'
  exact hQ r w' hr.1 user fileId (hr.2.symm.trans hreq')

theorem wp_fileThread_completions {req : FileRequest} (hreq : w.requests t = some req) (hblank : Blank t w) :
    (completions cfg fc c F).wp t (fileThread fc req) ((completions cfg fc c F).post t) w := by
  cases req with
  | presign user dto =>
    refine wp_request hreq (Q := fun _ _ => True) (fun _ _ _ _ _ he => by cases he) ?_
    refine wp_of_files (issues_bind issues_presign fun _ => issues_done _) ?_
    exact Protocol.wp_mono _ (fun _ _ _ => trivial) (wp_fileThread hreq)
  | getFileUrl user id =>
    refine wp_request hreq (Q := fun _ _ => True) (fun _ _ _ _ _ he => by cases he) ?_
    refine wp_of_files (issues_bind issues_getFileUrl fun _ => issues_done _) ?_
    exact Protocol.wp_mono _ (fun _ _ _ => trivial) (wp_fileThread hreq)
  | complete user fileId =>
    refine wp_request hreq (Q := fun r w => CompleteEnd F t user fileId r w) (fun r w hr user' fileId' he => ?_) ?_
    · cases he
      exact hr
    · refine Protocol.wp_bind _ (Protocol.wp_mono _ (fun r w' hr => ?_) (wp_completeEnd hreq hblank))
      cases r with
      | ok a => exact hr
      | error e => exact hr

theorem wp_completionsSpawn (t : Tid) (a : Arrival ⊕ FileRequest) (w : FilesWorld)
    (p : FilesApi (Reply ⊕ FileReply)) (w' : FilesWorld) (_ : (completions cfg fc c F).allows (.spawn t a))
    (_ : (completions cfg fc c F).inv w) (hfresh : Fresh t w)
    (h : (filesMachine cfg fc).spawn t a w = some (p, w')) :
    (completions cfg fc c F).wp t p ((completions cfg fc c F).post t) w' := by
  cases a with
  | inl arr =>
    obtain ⟨⟨p', o⟩, _, he⟩ := Option.map_eq_some_iff.mp h
    cases he
    refine wp_request hfresh.1 (Q := fun _ _ => True) (fun _ _ _ _ _ he => by cases he) ?_
    apply Protocol.wp_inl
    · intro cmd w
      exact ⟨trivial, trivial⟩
    · intro w w'
      trivial
    · intro r w
      trivial
  | inr req =>
    simp only [filesMachine] at h
    split at h
    · cases h
    · cases h
      exact wp_fileThread_completions (Function.update_self ..) hfresh.2

/-! ## Runs -/

/-- A step that saves a record as completed finds it pending: no other call has
saved it since it was read. -/
def SavesPending (conf : FilesConf) : FilesLabel → Prop
  | .run t ch => ∀ file k, conf.threads t = .running (.await (.inr (.saveFile file)) k) → (∀ e, ch ≠ .fail e) →
      ∀ f ∈ conf.world.files, f.id = file.id → f.status = .pending
  | _ => True

/-- The runs in which no call saves a record that another has saved since it was
read, and only the calls of `F` see statements fail. -/
def CompletesInTurn (cfg : Config) (fc : FilesConfig) (c : Catalogue) (F : Tid → Prop) (conf : FilesConf) : Prop :=
  (filesMachine cfg fc).ReachWhen (fun conf l => SavesPending conf l ∧ FailsOnly F l) c.withFiles conf

structure InTurn (w : FilesWorld) : Prop where
  ready : ∀ t id, .saved t id ∈ w.history → ∃ f ∈ w.files, f.id = id ∧ f.status = .ready
  savedOnce : ∀ t u id, .saved t id ∈ w.history → .saved u id ∈ w.history → t = u
  linkSaved : ∀ t productId id, .linked t productId id ∈ w.history → .saved t id ∈ w.history
  linkedOnce : ∀ id, w.history.countP (FileEvent.linksTo id) ≤ 1

theorem InTurn.kept (h : InTurn w) (hkept : Kept w w')
    (hh : w'.history = w.history ∨ ∃ u id, w'.history = .inserted u id :: w.history) : InTurn w' := by
  have hsaved : ∀ t id, .saved t id ∈ w'.history ↔ .saved t id ∈ w.history := by
    rcases hh with hh | ⟨_, _, hh⟩ <;> simp [hh]
  have hlinked : ∀ t productId id, .linked t productId id ∈ w'.history ↔ .linked t productId id ∈ w.history := by
    rcases hh with hh | ⟨_, _, hh⟩ <;> simp [hh]
  constructor
  · intro t id hm
    obtain ⟨f, hf, hid, hready⟩ := h.ready t id ((hsaved t id).mp hm)
    exact ⟨f, hkept.ready hf hready, hid, hready⟩
  · intro t u id ht hu
    exact h.savedOnce t u id ((hsaved t id).mp ht) ((hsaved u id).mp hu)
  · intro t productId id hm
    exact (hsaved t id).mpr (h.linkSaved t productId id ((hlinked t productId id).mp hm))
  · intro id
    have hcount : w'.history.countP (FileEvent.linksTo id) = w.history.countP (FileEvent.linksTo id) := by
      rcases hh with hh | ⟨_, _, hh⟩ <;> simp [hh, FileEvent.linksTo]
    rw [hcount]
    exact h.linkedOnce id

theorem InTurn.saveFile (h : InTurn w) (hinv : FilesInv c w) {file : FileRecord} (hmay : w.May t (.saveFile file))
    (hpending : ∀ f ∈ w.files, f.id = file.id → f.status = .pending) : InTurn (w.saveFile t file) := by
  have hkept := Kept.saveFile hinv hmay
  obtain ⟨user, _, _, hready, row, hrow, hcore⟩ := hmay
  -- a record that has been saved is ready
  have unsaved : ∀ u, .saved u file.id ∉ w.history := by
    intro u hm
    obtain ⟨f, hf, hid, hs⟩ := h.ready u file.id hm
    rw [hpending f hf hid] at hs
    cases hs
  constructor
  · intro u id hm
    rcases List.mem_cons.mp hm with hm | hm
    · cases hm
      exact ⟨file, saveFile_mem hrow (id_of_core hcore), rfl, hready⟩
    · obtain ⟨f, hf, hid, hs⟩ := h.ready u id hm
      exact ⟨f, hkept.ready hf hs, hid, hs⟩
  · intro u v id hu hv
    rcases List.mem_cons.mp hu with hu | hu
    · rcases List.mem_cons.mp hv with hv | hv
      · cases hu
        cases hv
        rfl
      · cases hu
        exact (unsaved v hv).elim
    · rcases List.mem_cons.mp hv with hv | hv
      · cases hv
        exact (unsaved u hu).elim
      · exact h.savedOnce u v id hu hv
  · intro u productId id hm
    rcases List.mem_cons.mp hm with hm | hm
    · cases hm
    · exact List.mem_cons_of_mem _ (h.linkSaved u productId id hm)
  · intro id
    show List.countP _ (.saved t file.id :: w.history) ≤ 1
    rw [List.countP_cons_of_neg (by simp [FileEvent.linksTo])]
    exact h.linkedOnce id

/-- Only the call that has saved a file links it, and it links it once. -/
theorem InTurn.updateImage (h : InTurn w) {productId : Uuid} (hlink : Unlinked t fileId w) :
    InTurn (w.updateImage t productId fileId) := by
  have unlinked : ∀ u p, .linked u p fileId ∉ w.history := by
    intro u p hm
    have hu : u = t := h.savedOnce u t fileId (h.linkSaved u p fileId hm) hlink.saved
    subst hu
    exact hlink.linked p fileId hm
  constructor
  · intro u id hm
    rcases List.mem_cons.mp hm with hm | hm
    · cases hm
    · exact h.ready u id hm
  · intro u v id hu hv
    rcases List.mem_cons.mp hu with hu | hu
    · cases hu
    · rcases List.mem_cons.mp hv with hv | hv
      · cases hv
      · exact h.savedOnce u v id hu hv
  · intro u p id hm
    rcases List.mem_cons.mp hm with hm | hm
    · cases hm
      exact List.mem_cons_of_mem _ hlink.saved
    · exact List.mem_cons_of_mem _ (h.linkSaved u p id hm)
  · intro id
    show List.countP _ (.linked t productId fileId :: w.history) ≤ 1
    by_cases hid : fileId = id
    · subst hid
      have hnone : w.history.countP (FileEvent.linksTo fileId) = 0 := by
        rw [List.countP_eq_zero]
        intro e he hl
        cases e with
        | linked u p id =>
          have hid : id = fileId := by simpa [FileEvent.linksTo] using hl
          subst hid
          exact unlinked u p he
        | _ => cases hl
      rw [List.countP_cons, hnone]
      split <;> omega
    · rw [List.countP_cons_of_neg (by simpa [FileEvent.linksTo] using hid)]
      exact h.linkedOnce id

theorem InTurn.statement (h : InTurn w) (hinv : FilesInv c w) {cmd : FileCmd} (hmay : w.May t cmd)
    (hlink : LinkReady t (.inr cmd) w)
    (hpending : ∀ file, cmd = .saveFile file → ∀ f ∈ w.files, f.id = file.id → f.status = .pending)
    {r : Except Err cmd.Res} (hx : w.statement t cmd = some (r, w')) : InTurn w' := by
  rcases (statement_history hx).2 with hh | ⟨ownerId, file, id, rfl, hh⟩ | ⟨file, rfl, rfl⟩ |
    ⟨productId, fileId, rfl, rfl⟩
  · exact h.kept (hinv.statement hmay hx).2 (.inl hh)
  · exact h.kept (hinv.statement hmay hx).2 (.inr ⟨t, id, hh⟩)
  · exact h.saveFile hinv hmay (hpending file rfl)
  · exact h.updateImage hlink

variable {conf conf' : FilesConf}

theorem InTurn.step (h : InTurn conf.world) (hgood : (completions cfg fc c F).Good conf) {l : FilesLabel}
    (hpending : SavesPending conf l) (hs : (filesMachine cfg fc).step conf l = some conf') : InTurn conf'.world := by
  have hinv : FilesInv c conf.world := hgood.1
  rcases Machine.step_cases hs with ⟨t, ch, cmd, k, r, w, rfl, ht, hx, rfl⟩ | ⟨t, cmd, k, rfl, _, rfl⟩ |
    ⟨e, w, rfl, hx, rfl⟩ | ⟨t, a, q, w, rfl, _, hx, rfl⟩
  · have hpre : conf.world.MayIssue t cmd ∧ LinkReady t cmd conf.world := hgood.pre ht
    cases cmd with
    | inl cmd =>
      obtain ⟨⟨r', o⟩, _, he⟩ := Option.map_eq_some_iff.mp hx
      cases he
      exact h.kept (.orders o) (.inl rfl)
    | inr cmd =>
      rcases execFile_effect hx with rfl | ⟨hch, r', hst⟩
      · exact h
      · refine h.statement hinv hpre.1 hpre.2 (fun file he f hf hid => ?_) hst
        subst he
        exact hpending file k ht hch f hf hid
  · have hkept : Kept conf.world ((filesMachine cfg fc).kill t conf.world) := hinv.kill.2
    exact h.kept hkept (.inl (kill_history cfg fc t conf.world).2)
  · obtain ⟨o, _, rfl⟩ := Option.map_eq_some_iff.mp hx
    exact h.kept (.orders o) (.inl rfl)
  · exact h.kept (hinv.spawn hx).2 (.inl (spawn_history hx).2)

theorem CompletesInTurn.good (h : CompletesInTurn cfg fc c F conf) : (completions cfg fc c F).Good conf := by
  refine (completions cfg fc c F).sound_fresh (J := Fresh) (fun t w w' hj hb => hj.beside hb) wp_completionsSpawn
    ⟨filesInv_initial c, fun _ _ hp => by cases hp⟩ (fun t _ => ⟨rfl, fun e he => ?_⟩) (h.mono fun _ _ hl => hl.2)
  cases he

theorem CompletesInTurn.inTurn (h : CompletesInTurn cfg fc c F conf) : InTurn conf.world := by
  induction h with
  | refl =>
    refine ⟨fun t id hm => ?_, fun t u id hm => ?_, fun t p id hm => ?_, fun id => Nat.zero_le 1⟩ <;> cases hm
  | step l hr hl hs ih => exact ih.step (CompletesInTurn.good hr) hl.1 hs

/-! ## Each file once -/

/-- As long as no call saves a record that another has saved since it was read,
at most one call per file resolves, one that no statement has failed writes
nothing when it rejects, and no image is put back. -/
theorem completed_once (h : CompletesInTurn cfg fc c F conf) :
    (∀ t u user user' fileId reply reply', conf.world.requests t = some (.complete user fileId) →
      conf.world.requests u = some (.complete user' fileId) → conf.threads t = .running (.done (.ok reply)) →
      conf.threads u = .running (.done (.ok reply')) → t = u) ∧
    (∀ t user fileId e, ¬F t → conf.world.requests t = some (.complete user fileId) →
      conf.threads t = .running (.done (.error e)) →
      Blank t conf.world ∧ (e = conflict "File is not pending" ∨ e = notFound "File not found" ∨
        e = forbidden "Cannot complete чужий файл" ∧
          ∃ f ∈ conf.world.files, f.id = fileId ∧ .uuid f.ownerId ≠ user.id)) ∧
    ∀ l conf', SavesPending conf l → FailsOnly F l → (filesMachine cfg fc).step conf l = some conf' →
      ∀ p ∈ conf.world.orders.db.products, ∀ p' ∈ conf'.world.orders.db.products, p'.id = p.id →
        p'.imageFileId ≠ p.imageFileId →
          ∃ fileId, p'.imageFileId = some fileId ∧ ∀ t productId, .linked t productId fileId ∉ conf.world.history := by
  refine ⟨fun t u user user' fileId reply reply' hreq hreq' ht hu => ?_,
    fun t user fileId e hF hreq ht => ?_, fun l conf' hl hF hs p hp p' hp' hid hne => ?_⟩
  · have hsaved : .saved t fileId ∈ conf.world.history := h.good.post ht user fileId hreq
    have hsaved' : .saved u fileId ∈ conf.world.history := h.good.post hu user' fileId hreq'
    exact h.inTurn.savedOnce t u fileId hsaved hsaved'
  · have hend : CompleteEnd F t user fileId (.error e) conf.world := h.good.post ht user fileId hreq
    exact hend.resolve_left hF
  · obtain ⟨t, ch, productId, fileId, k, rfl, _, hw, himage⟩ :=
      image_change (FilesInv.products h.good.1) hs hp hp' hid hne
    refine ⟨fileId, himage, fun u q hm => ?_⟩
    have hinv : InTurn conf'.world := h.inTurn.step h.good hl hs
    have honce := hinv.linkedOnce fileId
    rw [hw] at honce
    have hcount : 0 < conf.world.history.countP (FileEvent.linksTo fileId) :=
      List.countP_pos_iff.mpr ⟨_, hm, by simp [FileEvent.linksTo]⟩
    have hcons : List.countP (FileEvent.linksTo fileId) (.linked t productId fileId :: conf.world.history) ≤ 1 :=
      honce
    rw [List.countP_cons_of_pos (by simp [FileEvent.linksTo])] at hcons
    omega

/-! ## Two files of one product -/

/-- The steps of `CompletesInTurn`, as far as no statement fails. -/
def inTurnSteps (conf : FilesConf) : FilesLabel → Bool
  | .run t .proceed =>
    match conf.threads t with
    | .running (.await (.inr (.saveFile file)) _) =>
      conf.world.files.all fun f => f.id ≠ file.id || f.status = .pending
    | _ => true
  | .run _ _ => false
  | _ => true

theorem inTurnSteps_sound {l : FilesLabel} (h : inTurnSteps conf l = true) :
    SavesPending conf l ∧ FailsOnly (fun _ => False) l := by
  cases l with
  | run t ch =>
    cases ch with
    | proceed =>
      refine ⟨fun file k ht _ f hf hid => ?_, fun hne => hne rfl⟩
      rw [inTurnSteps, ht] at h
      simpa [hid] using List.all_eq_true.mp h f hf
    | unnoticed | fail e | ackLost e => cases h
  | kill | env | spawn => exact ⟨trivial, trivial⟩

/-- An image that is completed twice, the second time in vain. -/
def completedInTurn : FilesConf :=
  ((filesMachine (.ofPool 1 .repository) (.ofBucket "media")).runWhen inTurnSteps (Catalogue.shop 1).withFiles
    (fileSteps 0 (.presign shopAdmin mugImage) 3 ++ fileSteps 1 (.complete shopAdmin 1) 3 ++
      fileSteps 2 (.complete shopAdmin 1) 1)).getD (Catalogue.shop 1).withFiles

theorem completesInTurn_completed :
    CompletesInTurn (.ofPool 1 .repository) (.ofBucket "media") (.shop 1) (fun _ => False) completedInTurn :=
  (Machine.reachWhen_getD_runWhen _ _ _).mono fun _ _ h => inTurnSteps_sound h

theorem completed_once_mug :
    completedInTurn.threads 2 = .running (.done (.error (conflict "File is not pending"))) ∧
      Blank 2 completedInTurn.world :=
  ⟨rfl, ((completed_once completesInTurn_completed).2.1 2 shopAdmin 1 (conflict "File is not pending") id rfl rfl).1⟩

/-- Two calls for one image have both read it as pending; between their writes
the other image of the product is completed. -/
def racedSteps : List FilesLabel :=
  fileSteps 0 (.presign shopAdmin mugImage) 3 ++ fileSteps 1 (.presign shopAdmin mugImage) 3 ++
    fileSteps 2 (.complete shopAdmin 1) 1 ++ fileSteps 3 (.complete shopAdmin 1) 1 ++
    [.run 2 .proceed, .run 2 .proceed] ++ fileSteps 4 (.complete shopAdmin 3) 3 ++
    [.run 3 .proceed, .run 3 .proceed]

def raced : FilesConf :=
  ((filesMachine (.ofPool 1 .repository) (.ofBucket "media")).run (Catalogue.shop 1).withFiles racedSteps).getD
    (Catalogue.shop 1).withFiles

/-- Both calls for the first image resolve, and the second puts it back in the
place of the other. -/
theorem completed_twice :
    FilesReachable (.ofPool 1 .repository) (.ofBucket "media") (.shop 1) raced ∧
      raced.world.requests 2 = some (.complete shopAdmin 1) ∧
      raced.world.requests 3 = some (.complete shopAdmin 1) ∧
      raced.world.requests 4 = some (.complete shopAdmin 3) ∧
      (∀ t, t = 2 ∨ t = 3 ∨ t = 4 → raced.threads t = .running (.done (.ok (.inr .ok)))) ∧
      raced.world.history = [.linked 3 0 1, .saved 3 1, .linked 4 0 3, .saved 4 3, .linked 2 0 1, .saved 2 1,
        .inserted 1 3, .inserted 0 1] ∧
      raced.world.orders.db.products.map (·.imageFileId) = [some 1] := by
  refine ⟨Machine.reach_getD_run _ _, rfl, rfl, rfl, fun t ht => ?_, rfl, rfl⟩
  rcases ht with rfl | rfl | rfl <;> rfl

end OrdersBackend
