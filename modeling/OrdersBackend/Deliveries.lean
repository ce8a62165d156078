import OrdersBackend.Mailbox

/-!
# What becomes of a delivery

`handle` covers what goes wrong inside its transaction: the message is
published again, with another attempt or to the dead letters, and acknowledged.
What goes wrong outside of it reaches the `catch` of `consume`, which puts the
message back as it was.
-/

namespace OrdersBackend

open Conc Async

variable {cfg : Config} {msgs : List Message} {t : Tid} {s s' : Shared} {w w' : World} {m : Message}
variable {payload : OrdersProcessMessage} {sess : Session} {out : Option (RoutingKey × Message)} {seen : Bool}

def Shared.consumed (s : Shared) (m : Message) : Prop :=
  ∃ payload mid, m.content = .value payload ∧ payload.messageId = some mid ∧ (s.db.processed? mid).isSome

/-- Something has gone wrong that `handle` does not cover. -/
structure Spoiled (t : Tid) (m : Message) (s : Shared) : Prop where
  job : s.jobs t = some (.deliver m)
  unacked : ∀ m', .acked t m' ∉ s.trace
  why : (∀ payload, parse m ≠ .ok payload) ∨ ¬m.converts ∨ ∃ cmd : Cmd, cmd.vital = true ∧ .failed t cmd ∈ s.trace

/-- How a delivery may end. -/
inductive Outcome (cfg : Config) (t : Tid) (m : Message) (s : Shared) : Prop
  | settled {payload : OrdersProcessMessage} {out : Option (RoutingKey × Message)}
      (hm : m.content = .value payload)
      (vital : ∀ cmd : Cmd, cmd.vital = true → .failed t cmd ∉ s.trace) (acked : .acked t m ∈ s.trace)
      (hout : ∀ rk m', .published t rk m' ∈ s.trace ↔ out = some (rk, m'))
      (h : s.consumed m ∨ ∃ rk m', out = some (rk, m') ∧ Republishes cfg payload rk m')
  | spoiled (h : Spoiled t m s)
  | lost (unacked : .acked t m ∉ s.trace) (h : s.broker.channel t = .lost)

theorem Spoiled.not_covered (h : Spoiled t m s) (hc : Covered s t m) : ¬m.converts := by
  rcases h.why with hp | hp | ⟨cmd, hv, hm⟩
  · obtain ⟨payload, hp'⟩ := hc.parses
    exact (hp payload hp').elim
  · exact hp
  · exact (hc.vital cmd hv hm).elim

theorem Shared.consumed.apart {w w' : World} (h : w.consumed m) (ha : Apart t w w') : w'.consumed m := by
  obtain ⟨payload, mid, hm, hid, hs⟩ := h
  exact ⟨payload, mid, hm, hid, ha.consumed mid hs⟩

theorem Spoiled.apart (h : Spoiled t m w.toShared) (ha : Apart t w w') : Spoiled t m w'.toShared where
  job := ha.job.trans h.job
  unacked m' hm := h.unacked m' ((ha.events _ rfl).mp hm)
  why := by
    rcases h.why with hp | hp | ⟨cmd, hv, hm⟩
    · exact .inl hp
    · exact .inr (.inl hp)
    · exact .inr (.inr ⟨cmd, hv, (ha.events _ rfl).mpr hm⟩)

theorem Outcome.apart (h : Outcome cfg t m w.toShared) (ha : Apart t w w') : Outcome cfg t m w'.toShared := by
  cases h with
  | settled hm vital acked hout h =>
    refine .settled hm (fun cmd hv hf => vital cmd hv ((ha.events _ rfl).mp hf)) ((ha.events _ rfl).mpr acked)
      (fun rk m' => (ha.events _ rfl).trans (hout rk m')) ?_
    rcases h with h | h
    · exact .inl (h.apart ha)
    · exact .inr h
  | spoiled h => exact .spoiled (h.apart ha)
  | lost unacked h =>
    refine .lost (fun hm => unacked ((ha.events _ rfl).mp hm)) ?_
    rcases ha.channel with hc | hc
    · exact hc.trans h
    · exact hc

def mail (cfg : Config) (msgs : List Message) : Protocol (machine cfg) where
  allows _ := True
  inv := MailInv cfg msgs
  rely := Apart
  guar _ _ _ := True
  pre t cmd w := Permitted cfg t cmd w
  post t _ w := ∀ m, w.jobs t = some (.deliver m) → Outcome cfg t m w.toShared
  rely_refl := Apart.refl
  rely_trans _ _ _ _ h h' := h.trans h'
  post_rely _ _ _ _ h ha m hj := (h m (ha.job.symm.trans hj)).apart ha
  exec_ok _ _ _ _ _ _ _ hI hp hx _ := hI.exec hp hx
  kill_ok t _ _ hI := hI.kill t
  env_ok _ _ _ _ hI hx := hI.env hx
  spawn_ok _ _ _ _ _ _ hI hx := ⟨(hI.arrive hx).1, (hI.arrive hx).2.1⟩

/-! ## Between two commands -/

/-- A delivery that nothing has gone wrong for. -/
structure Working (t : Tid) (m : Message) (sess : Session) (out : Option (RoutingKey × Message)) (seen : Bool)
    (w : World) : Prop where
  job : w.jobs t = some (.deliver m)
  sess : w.sess t = sess
  channel : w.broker.channel t = .ready (some m) ∨ w.broker.channel t = .lost
  vital : ∀ cmd : Cmd, cmd.vital = true → .failed t cmd ∉ w.trace
  out : ∀ rk m', .published t rk m' ∈ w.trace ↔ out = some (rk, m')
  unacked : ∀ m', .acked t m' ∉ w.trace
  seen : seen = true → w.consumed m

namespace Working

theorem apart (h : Working t m sess out seen w) (ha : Apart t w w') : Working t m sess out seen w' where
  job := ha.job.trans h.job
  sess := ha.sess.trans h.sess
  channel := by
    rcases ha.channel with hc | hc
    · rw [hc]
      exact h.channel
    · exact .inr hc
  vital cmd hv hm := h.vital cmd hv ((ha.events _ rfl).mp hm)
  out rk m' := (ha.events _ rfl).trans (h.out rk m')
  unacked m' hm := h.unacked m' ((ha.events _ rfl).mp hm)
  seen hs := (h.seen hs).apart ha

theorem quiet (h : Working t m sess out seen w) (hs : w'.toShared = w.toShared) :
    Working t m (w'.sess t) out seen w' := by
  refine ⟨?_, rfl, ?_, ?_, ?_, ?_, ?_⟩ <;> rw [hs]
  exacts [h.job, h.channel, h.vital, h.out, h.unacked, h.seen]

theorem log (h : Working t m sess out seen w) {e : Event} (hv : ∀ cmd : Cmd, cmd.vital = true → e ≠ .failed t cmd)
    (hp : ∀ rk m', e ≠ .published t rk m') (ha : ∀ m', e ≠ .acked t m') :
    Working t m sess out seen (w.logEvent e) where
  job := h.job
  sess := h.sess
  channel := h.channel
  vital cmd hc hm := by
    rcases List.mem_cons.mp hm with he | hm
    · exact hv cmd hc he.symm
    · exact h.vital cmd hc hm
  out rk m' := by
    rw [← h.out rk m']
    refine ⟨fun hm => ?_, List.mem_cons_of_mem _⟩
    rcases List.mem_cons.mp hm with he | hm
    · exact (hp rk m' he.symm).elim
    · exact hm
  unacked m' hm := by
    rcases List.mem_cons.mp hm with he | hm
    · exact ha m' he.symm
    · exact h.unacked m' hm
  seen := h.seen

theorem failed (h : Working t m sess out seen w) {cmd : Cmd} (hc : cmd.vital = false) :
    Working t m sess out seen (w.logEvent (.failed t cmd)) := by
  refine h.log (fun cmd' hv he => ?_) (by simp) (by simp)
  cases he
  rw [hc] at hv
  cases hv

theorem forget (h : Working t m sess out seen w) : Working t m sess out false w :=
  ⟨h.job, h.sess, h.channel, h.vital, h.out, h.unacked, by simp⟩

theorem spoiled (h : Working t m sess out seen w) {cmd : Cmd} (hv : cmd.vital = true)
    (hs : w'.toShared = w.toShared) :
    Spoiled t m (w'.logEvent (.failed t cmd)).toShared where
  job := by
    show w'.toShared.jobs t = _
    rw [hs]
    exact h.job
  unacked m' hm := by
    rcases List.mem_cons.mp hm with he | hm
    · cases he
    · rw [hs] at hm
      exact h.unacked m' hm
  why := .inr (.inr ⟨cmd, hv, List.mem_cons_self ..⟩)

theorem unconverted (h : Working t m sess out seen w) (hm : m.content = .value payload) {e : Err}
    (he : payload.attempt.toPrimitive = .error e) : Spoiled t m w.toShared where
  job := h.job
  unacked := h.unacked
  why := by
    refine .inr (.inl fun hc => ?_)
    obtain ⟨v, hv⟩ := hc payload hm
    rw [he] at hv
    cases hv

theorem out_false (h : Working t m sess none seen w) : w.toShared.out t = false := by
  unfold Shared.out
  rw [List.any_eq_false]
  intro e he
  cases e with
  | published t' rk m' =>
    have hne : t' ≠ t := by
      rintro rfl
      cases (h.out rk m').mp he
    simp [Event.publishedBy, hne]
  | _ => simp [Event.publishedBy]

/-! ## Rules -/

section
variable {α : Type} {cmd : Cmd} {Q : Except Err cmd.Res → World → Prop}

theorem wp_exec (h : Working t m sess out seen w) (hd : ∀ w', Working t m sess out seen w' →
    Delivers cfg t m w'.toShared cmd)
    (hx : ∀ w' ch r w'', Working t m sess out seen w' → exec cfg t cmd ch w' = some (r, w'') → Q r w'') :
    (mail cfg msgs).wp t (issue cmd) Q w := by
  refine (mail cfg msgs).wp_call fun w' hr _ => ?_
  have h' := h.apart hr
  exact ⟨.inr ⟨m, h'.job, hd w' h'⟩, fun ch r w'' _ hx' => ⟨trivial, hx w' ch r w'' h' hx'⟩⟩

theorem wp_quiet (hq : cmd.quiet = true) (h : Working t m sess out seen w)
    (hd : ∀ w', Working t m sess out seen w' → Delivers cfg t m w'.toShared cmd)
    (hok : ∀ w' r w'', Working t m sess out seen w' → perform cfg t cmd w' = some (r, w'') → Q r w'')
    (herr : ∀ e w', cmd.infallible = false → isUniqueViolation e = false → Working t m sess out seen w' →
      Q (.error e) (w'.logEvent (.failed t cmd))) : (mail cfg msgs).wp t (issue cmd) Q w := by
  refine h.wp_exec hd fun w' ch r w'' h' hx => ?_
  obtain ⟨hrej, hlost, _⟩ := Cmd.quiet_eq hq w' (t := t)
  rcases exec_cases hx with hp | ⟨e, hf, hu, rfl, rfl⟩ | ⟨e, w₁, _, h₁, _⟩
  · exact hok w' r w'' h' hp
  · rw [hrej]
    exact herr e w' hf hu h'
  · rw [hlost] at h₁
    cases h₁

end

theorem wp_connect {Q : Except Err Unit → World → Prop} (h : Working t m sess out seen w)
    (hok : ∀ w', Working t m sess out seen w' → Q (.ok ()) w')
    (herr : ∀ e w', Spoiled t m w'.toShared → Q (.error e) w') :
    (mail cfg msgs).wp t (issue (.connect .worker)) Q w := by
  refine h.wp_quiet rfl (fun _ _ => trivial) (fun w' r w'' h' hp => ?_)
    fun e w' _ _ h' => herr e _ (h'.spoiled rfl rfl)
  simp only [perform] at hp
  split at hp
  · cases hp
    have hn : Working t m _ out seen (w'.addConn .worker t) := h'.quiet rfl
    rw [show (w'.addConn .worker t).sess t = sess from h'.sess] at hn
    exact hok _ hn
  · cases hp

theorem wp_startTransaction {Q : Except Err Unit → World → Prop} (h : Working t m sess out seen w)
    (hok : ∀ w', Working t m { sess with active := true, log := some [] } out seen w' → Q (.ok ()) w')
    (herr : ∀ e w', Spoiled t m w'.toShared → Q (.error e) w') :
    (mail cfg msgs).wp t (issue (.startTransaction .qr)) Q w := by
  refine h.wp_quiet rfl (fun _ _ => trivial) (fun w' r w'' h' hp => ?_)
    fun e w' _ _ h' => herr e _ (h'.spoiled rfl rfl)
  cases hp
  have hn : Working t m _ out seen (w'.setSession t { w'.sess t with active := true, log := some [] }) :=
    h'.quiet rfl
  simp only [World.setSession, Function.update_self, h'.sess] at hn
  simp only [h'.sess]
  exact hok _ hn

theorem wp_rollback {Q : Except Err Unit → World → Prop} (h : Working t m sess out seen w)
    (ha : sess.active = true)
    (hok : ∀ w', Working t m ⟨false, false, none⟩ out seen w' → Q (.ok ()) w')
    (herr : ∀ e w', Spoiled t m w'.toShared → Q (.error e) w') :
    (mail cfg msgs).wp t (issue (.rollbackTransaction .qr)) Q w := by
  refine h.wp_exec (fun _ _ => trivial) fun w' ch r w'' h' hx => ?_
  rcases exec_cases hx with hp | ⟨e, _, _, rfl, rfl⟩ | ⟨e, w₁, _, h₁, _⟩
  · simp only [perform, h'.sess, ha] at hp
    split at hp
    · cases hp
    · cases hp
      have hn : Working t m _ out seen (w'.endTx t false false) := h'.quiet rfl
      have hs : (w'.endTx t false false).sess t = ⟨false, false, none⟩ := Function.update_self ..
      rw [hs] at hn
      exact hok _ hn
  · exact herr e _ (h'.spoiled rfl rfl)
  · cases h₁

theorem wp_ack {Q : Except Err Unit → World → Prop} (h : Working t m sess out seen w)
    (hm : m.content = .value payload)
    (hdone : seen = true ∨ ∃ rk m', out = some (rk, m') ∧ Republishes cfg payload rk m')
    (hok : ∀ w', Outcome cfg t m w'.toShared → Q (.ok ()) w')
    (herr : ∀ e w', isUniqueViolation e = false → Spoiled t m w'.toShared → w'.sess t = sess → Q (.error e) w') :
    (mail cfg msgs).wp t (issue .ack) Q w := by
  refine h.wp_quiet rfl (fun _ _ => trivial) (fun w' r w'' h' hp => ?_)
    fun e w' _ hu h' => herr e _ hu (h'.spoiled rfl rfl) h'.sess
  cases hp
  refine hok _ ?_
  rcases h'.channel with hc | hc
  · simp only [Shared.ack, hc]
    have hpub : ∀ rk m', .published t rk m' ∈ (w'.toShared.acked t m).trace ↔ out = some (rk, m') := by
      intro rk m'
      rw [← h'.out rk m']
      simp [Shared.acked]
    refine .settled hm (fun cmd hv hf => ?_) (List.mem_cons_self ..) hpub ?_
    · rcases List.mem_cons.mp hf with he | hf
      · cases he
      · exact h'.vital cmd hv hf
    · rcases hdone with hs | hs
      · exact .inl (h'.seen hs)
      · exact .inr hs
  · simp only [Shared.ack, hc]
    exact .lost (h'.unacked m) hc

theorem wp_publish {Q : Except Err Unit → World → Prop} {rk : RoutingKey} {m' : Message}
    (h : Working t m sess none seen w) (hm : m.content = .value payload) (hr : Republishes cfg payload rk m')
    (hok : ∀ w', Working t m sess (some (rk, m')) seen w' → Q (.ok ()) w')
    (hlost : ∀ w', Working t m sess none seen w' → w'.broker.channel t = .lost → Q (.ok ()) w')
    (herr : ∀ e w', Spoiled t m w'.toShared → Q (.error e) w') :
    (mail cfg msgs).wp t (issue (.publish rk m')) Q w := by
  refine h.wp_quiet rfl (fun w' h' => ⟨h'.out_false, payload, hm, hr⟩) (fun w' r w'' h' hp => ?_)
    fun e w' _ _ h' => herr e _ (h'.spoiled rfl rfl)
  cases hp
  unfold Shared.publish
  split
  · rename_i hc
    exact hlost _ h' hc
  · refine hok _ ⟨h'.job, h'.sess, ?_, fun cmd hv hf => ?_, fun rk₁ m₁ => ?_, fun m₁ hm₁ => ?_, h'.seen⟩
    · have hch := congrFun (Broker.publish_channel rk m' w'.broker) t
      rcases h'.channel with hc | hc
      · exact .inl (hch.trans hc)
      · exact .inr (hch.trans hc)
    · rcases List.mem_cons.mp hf with he | hf
      · cases he
      · exact h'.vital cmd hv hf
    · have hnone : .published t rk₁ m₁ ∉ w'.trace := fun hin => by cases (h'.out rk₁ m₁).mp hin
      constructor
      · intro hin
        rcases List.mem_cons.mp hin with he | hin
        · cases he
          rfl
        · exact (hnone hin).elim
      · intro he
        cases he
        exact List.mem_cons_self ..
    · rcases List.mem_cons.mp hm₁ with he | hm₁
      · cases he
      · exact h'.unacked m₁ hm₁

end Working

/-! ## The `catch` -/

/-- What the `catch` of `handle` finds: the message has been consumed before,
its transaction is to be rolled back, or its acknowledgement has failed. -/
inductive Raised (t : Tid) (m : Message) (e : Err) (w : World) : Prop
  | seen (hu : isUniqueViolation e = true) {sess : Session} (ha : sess.active = true)
      (h : Working t m sess none true w)
  | failed (hu : isUniqueViolation e = false) {sess : Session} (ha : sess.active = true)
      (h : Working t m sess none false w)
  | unacked (hu : isUniqueViolation e = false) (ha : (w.sess t).active = false) (h : Spoiled t m w.toShared)

def Handles (cfg : Config) (t : Tid) (m : Message) : Except Err Unit → World → Prop
  | .ok _, w => Outcome cfg t m w.toShared
  | .error _, w => Spoiled t m w.toShared

theorem mail_wp_republish {rk : RoutingKey} {m' : Message} (h : Working t m sess none false w)
    (hm : m.content = .value payload)
    (hr : Republishes cfg payload rk m') :
    (mail cfg msgs).wp t (do
      issue (.publish rk m')
      issue .ack : Api Unit) (Handles cfg t m) w := by
  refine (mail cfg msgs).wp_bind ?_
  refine h.wp_publish hm hr (fun w' h' => ?_) (fun w' h' hlost => ?_) fun e w' h' => h'
  · exact h'.wp_ack hm (.inr ⟨rk, m', rfl, hr⟩) (fun _ h => h) fun _ _ _ h _ => h
  · -- the publish went nowhere, and so will the acknowledgement
    refine (mail cfg msgs).wp_call fun w₁ hra _ => ?_
    have h₁ := h'.apart hra
    have hlost₁ : w₁.broker.channel t = .lost := by
      rcases hra.channel with hc | hc
      · exact hc.trans hlost
      · exact hc
    refine ⟨.inr ⟨m, h₁.job, trivial⟩, fun ch r w₂ _ hx => ⟨trivial, ?_⟩⟩
    rcases exec_cases hx with hp | ⟨e, _, _, rfl, rfl⟩ | ⟨e, w₃, _, h₃, _⟩
    · cases hp
      simp only [Shared.ack, hlost₁]
      exact .lost (h₁.unacked m) hlost₁
    · exact h₁.spoiled rfl rfl
    · cases h₃

theorem mail_wp_handleCatch {e : Err} (hm : m.content = .value payload) (h : Raised t m e w) :
    (mail cfg msgs).wp t (handleCatch cfg payload e) (Handles cfg t m) w := by
  unfold handleCatch
  cases h with
  | seen hu ha h =>
    rw [if_pos hu]
    refine (mail cfg msgs).wp_bind (h.wp_rollback ha (fun w' h' => ?_) fun _ _ h' => h')
    exact h'.wp_ack hm (.inl rfl) (fun _ h => h) fun _ _ _ h _ => h
  | failed hu ha h =>
    rw [if_neg (by simp [hu])]
    refine (mail cfg msgs).wp_bind (h.wp_rollback ha (fun w' h' => ?_) fun _ _ h' => h')
    refine (mail cfg msgs).wp_check (fun _ hv => h'.unconverted hm hv) fun attempt hv => ?_
    by_cases hlt : attempt.lt cfg.maxAttempts = true
    · rw [if_pos hlt]
      exact mail_wp_republish h' hm (.retry hv hlt)
    · rw [if_neg hlt]
      exact mail_wp_republish h' hm (.dlq hv (by simpa using hlt))
  | unacked hu ha h =>
    rw [if_neg (by simp [hu])]
    refine (mail cfg msgs).wp_bind ((mail cfg msgs).wp_call fun w' hr _ => ?_)
    have h' := h.apart hr
    refine ⟨.inr ⟨m, h'.job, trivial⟩, fun ch r w'' _ hx => ⟨trivial, ?_⟩⟩
    rcases exec_cases hx with hp | ⟨e, _, _, rfl, rfl⟩ | ⟨e, w₁, _, h₁, _⟩
    · -- there is no transaction left to roll back
      simp only [perform, hr.sess, ha] at hp
      split at hp
      · cases hp
      · cases hp
        exact h'
    · refine ⟨h'.job, fun m' hm' => ?_, ?_⟩
      · rcases List.mem_cons.mp hm' with he | hm'
        · cases he
        · exact h'.unacked m' hm'
      · exact .inr (.inr ⟨.rollbackTransaction .qr, rfl, List.mem_cons_self ..⟩)
    · cases h₁

/-! ## The `try` -/

theorem isSome_processed?_of_mem {ws : List Write} {pm : ProcessedMessage}
    (h : .insertProcessed pm ∈ ws) (db : Db) :
    ((db.applyAll ws).processed? pm.messageId).isSome := by
  induction ws generalizing db with
  | nil => cases h
  | cons wr ws ih =>
    rcases List.mem_cons.mp h with rfl | h
    · refine isSome_processed?_applyAll ws _ ?_
      simp [Write.apply, Db.processed?]
    · exact ih h (wr.apply db)

theorem Working.commit (h : Working t m sess none seen w) {ws : List Write} {pm : ProcessedMessage}
    (hin : .insertProcessed pm ∈ ws) (hm : m.content = .value payload)
    (hid : payload.messageId = some pm.messageId)
    (active broken : Bool) : Working t m ⟨active, broken, none⟩ none true (w.commitTx t ws active broken) := by
  have hs : (w.commitTx t ws active broken).toShared = w.toShared.commit t ws := rfl
  have hold : ∀ {e : Event}, (∀ wr δ, e ≠ .wrote t wr δ) → e ∈ (w.toShared.commit t ws).trace → e ∈ w.trace := by
    intro e hne he
    rw [commit_eq] at he
    rcases List.mem_append.mp he with he | he
    · obtain ⟨wr, _, δ, rfl⟩ := mem_wroteEvents he
      exact (hne wr δ rfl).elim
    · exact he
  refine ⟨?_, Function.update_self .., ?_, fun cmd hv hf => ?_, fun rk m' => ?_, fun m' hm' => ?_, fun _ => ?_⟩
  · rw [hs, commit_eq]
    exact h.job
  · rw [hs, commit_eq]
    exact h.channel
  · exact h.vital cmd hv (hold (by simp) hf)
  · refine ⟨fun hp => (h.out rk m').mp (hold (by simp) hp), fun he => ?_⟩
    cases he
  · exact h.unacked m' (hold (by simp) hm')
  · refine ⟨payload, pm.messageId, hm, hid, ?_⟩
    rw [hs, commit_eq]
    exact isSome_processed?_of_mem hin w.db

theorem Working.wp_commit {Q : Except Err Unit → World → Prop} (h : Working t m sess none false w)
    (ha : sess.active = true) {ws : List Write} (hlog : sess.log = some ws) {pm : ProcessedMessage}
    (hin : .insertProcessed pm ∈ ws) (hm : m.content = .value payload)
    (hid : payload.messageId = some pm.messageId)
    (hok : ∀ w', Working t m ⟨false, false, none⟩ none true w' → Q (.ok ()) w')
    (herr : ∀ e w', Raised t m e w' → Q (.error e) w') :
    (mail cfg msgs).wp t (issue (.commitTransaction .qr)) Q w := by
  refine h.wp_exec (fun _ _ => trivial) fun w' ch r w'' h' hx => ?_
  have hws : (w'.sess t).log = some ws := by rw [h'.sess, hlog]
  rcases exec_cases hx with hp | ⟨e, _, hu, rfl, rfl⟩ | ⟨e, w₁, hu, h₁, rfl, rfl⟩
  · simp only [perform, hws] at hp
    cases hp
    exact hok _ (h'.commit hin hm hid _ _)
  · have hn : Working t m _ _ _ (w'.endTx t (w'.sess t).active (w'.sess t).broken) := h'.quiet rfl
    have hact : ((w'.endTx t (w'.sess t).active (w'.sess t).broken).sess t).active = true := by
      have hs : (w'.endTx t (w'.sess t).active (w'.sess t).broken).sess t = ⟨(w'.sess t).active,
        (w'.sess t).broken, none⟩ :=
        Function.update_self ..
      rw [hs, h'.sess]
      exact ha
    exact herr e _ (.failed hu hact (hn.failed rfl))
  · simp only [performLost, hws, Option.map_some, Option.some.injEq] at h₁
    subst h₁
    have hn := (h'.commit hin hm hid (w'.sess t).active true).log
      (e := .ackLost t (.commitTransaction .qr)) (by simp)
      (by simp) (by simp)
    refine herr e _ (.failed hu ?_ hn.forget)
    rw [h'.sess]
    exact ha

theorem Working.wp_stmt {cmd : Cmd} {Q : Except Err cmd.Res → World → Prop} (hq : cmd.quiet = true)
    (hv : cmd.vital = false) (hd : ∀ s, Delivers cfg t m s cmd) (ha : sess.active = true)
    (h : Working t m sess none false w)
    (hok : ∀ w' r w'', Working t m sess none false w' → perform cfg t cmd w' = some (r, w'') → Q r w'')
    (herr : ∀ e w', Raised t m e w' → Q (.error e) w') : (mail cfg msgs).wp t (issue cmd) Q w :=
  h.wp_quiet hq (fun w' _ => hd w'.toShared) hok fun e _ _ hu h' => herr e _ (.failed hu ha (h'.failed hv))

/-- What the `try` of `handle` leaves. -/
def TryEnds (cfg : Config) (t : Tid) (m : Message) : Except Err Unit → World → Prop
  | .ok _, w => Outcome cfg t m w.toShared
  | .error e, w => Raised t m e w

theorem mail_wp_settle (h : Working t m sess none false w) (ha : sess.active = true) {ws : List Write}
    (hlog : sess.log = some ws) {pm : ProcessedMessage} (hin : .insertProcessed pm ∈ ws)
    (hm : m.content = .value payload) (hid : payload.messageId = some pm.messageId) :
    (mail cfg msgs).wp t (do
      issue (.commitTransaction .qr)
      issue .ack : Api Unit) (TryEnds cfg t m) w := by
  refine (mail cfg msgs).wp_bind (h.wp_commit ha hlog hin hm hid (fun w' h' => ?_) fun _ _ h' => h')
  exact h'.wp_ack hm (.inl rfl) (fun _ h => h) fun e w₁ hu h₁ hs => .unacked hu (by rw [hs]) h₁

theorem mail_wp_processOrder (order : Order) (h : Working t m sess none false w) (ha : sess.active = true)
    {pm : ProcessedMessage} (hlog : sess.log = some [.insertProcessed pm]) (hm : m.content = .value payload)
    (hid : payload.messageId = some pm.messageId) :
    (mail cfg msgs).wp t (if order.status = .processed then do
        issue (.commitTransaction .qr)
        issue .ack
      else do
        issue .simulateWork
        issue (.saveProcessed order.id)
        issue (.commitTransaction .qr)
        issue .ack) (TryEnds cfg t m) w := by
  split
  · exact mail_wp_settle h ha hlog (List.mem_cons_self ..) hm hid
  · refine (mail cfg msgs).wp_bind (h.wp_stmt rfl rfl (fun _ => trivial) ha (fun w₁ r w₂ h₁ hp => ?_)
      fun _ _ h' => h')
    cases hp
    refine (mail cfg msgs).wp_bind (h₁.wp_stmt rfl rfl (fun _ => trivial) ha (fun w₃ r w₄ h₃ hp => ?_)
      fun _ _ h' => h')
    obtain ⟨hs, rfl⟩ := stmt_map hp
    obtain ⟨_, hsh, _, hsess, _⟩ := stmt_eq hs
    have h₄ := h₃.quiet hsh
    rw [hsess, Function.update_self, h₃.sess] at h₄
    have hlog₄ : sess.log.map (· ++ [.processOrder order.id w₃.clock]) =
      some [.insertProcessed pm, .processOrder order.id w₃.clock] := by simp [hlog]
    exact mail_wp_settle h₄ ha hlog₄ (List.mem_cons_self ..) hm hid

theorem mail_wp_lockOrder (h : Working t m sess none false w) (ha : sess.active = true)
    {pm : ProcessedMessage} (hlog : sess.log = some [.insertProcessed pm]) (hm : m.content = .value payload)
    (hid : payload.messageId = some pm.messageId) :
    (mail cfg msgs).wp t (do
      let order ← issue (.lockOrder payload.orderId)
      match order with
      | none => throw (.js "Order not found")
      | some order =>
        if order.status = .processed then do
          issue (.commitTransaction .qr)
          issue .ack
        else do
          issue .simulateWork
          issue (.saveProcessed order.id)
          issue (.commitTransaction .qr)
          issue .ack) (TryEnds cfg t m) w := by
  refine (mail cfg msgs).wp_bind (h.wp_stmt rfl rfl (fun _ => trivial) ha (fun w₁ r w₂ h₁ hp => ?_)
    fun _ _ h' => h')
  have hstays : w₂.toShared = w₁.toShared ∧ w₂.sess = w₁.sess ∧ ∃ order, r = .ok order := by
    simp only [perform] at hp
    split at hp
    · cases hp
      exact ⟨rfl, rfl, none, rfl⟩
    · split at hp
      · cases hp
        exact ⟨rfl, rfl, _, rfl⟩
      · cases hp
  obtain ⟨hsh, hsess, order, rfl⟩ := hstays
  have h₂ := h₁.quiet hsh
  rw [hsess, h₁.sess] at h₂
  cases order with
  | none => exact .failed rfl ha h₂
  | some order => exact mail_wp_processOrder order h₂ ha hlog hm hid

theorem mail_wp_handleTry (hm : m.content = .value payload) (h : Working t m sess none false w)
    (ha : sess.active = true) (hlog : sess.log = some []) :
    (mail cfg msgs).wp t (handleTry payload) (TryEnds cfg t m) w := by
  refine (mail cfg msgs).wp_bind (h.wp_stmt rfl rfl (fun _ => trivial) ha (fun w' r w'' h' hp => ?_)
    fun _ _ h' => h')
  simp only [perform] at hp
  split at hp
  · rename_i mid oid hmid hoid
    split at hp
    · split at hp
      · -- the message has been consumed before
        rename_i hseen
        cases hp
        have hview : w'.view t = w'.db := by
          unfold World.view
          rw [h'.sess, hlog]
          rfl
        rw [hview] at hseen
        refine .seen isUniqueViolation_uniqueViolation ha ?_
        exact ⟨h'.job, h'.sess, h'.channel, h'.vital, h'.out, h'.unacked, fun _ => ⟨payload, mid, hm, hmid, hseen⟩⟩
      · obtain ⟨hs, rfl⟩ := stmt_map hp
        obtain ⟨_, hsh, _, hsess, _⟩ := stmt_eq hs
        have h₁ := h'.quiet hsh
        rw [hsess, Function.update_self, h'.sess] at h₁
        have hlog₁ : sess.log.map (· ++ [.insertProcessed ⟨mid, oid, "orders-worker"⟩]) =
          some [.insertProcessed ⟨mid, oid, "orders-worker"⟩] := by simp [hlog]
        exact mail_wp_lockOrder h₁ ha hlog₁ hm hmid
    · cases hp
  · cases hp
    exact .failed rfl ha h'

/-! ## The delivery -/

theorem mail_wp_job {α : Type} {p : Api α} {Q : Except Err α → World → Prop} {job : Job} (hj : w.jobs t = some job)
    (h : (mail cfg msgs).wp t p Q w) : (mail cfg msgs).wp t p (fun r w' => Q r w' ∧ w'.jobs t = some job) w := by
  refine (mail cfg msgs).wp_invariant (fun w w' hw hr => hr.job.trans hw) (fun c ch r w w' hw hx => ?_) hj h
  rw [(Does.of_exec hx).jobs]
  exact hw

theorem Handles.apart {r : Except Err Unit} (h : Handles cfg t m r w) (ha : Apart t w w') :
    Handles cfg t m r w' := by
  cases r with
  | ok _ => exact Outcome.apart h ha
  | error e => exact Spoiled.apart h ha

theorem mail_wp_release {Q : Except Err Unit → World → Prop} {r : Except Err Unit}
    (hj : w.jobs t = some (.deliver m))
    (h : Handles cfg t m r w) (hok : ∀ w', Handles cfg t m r w' → Q (.ok ()) w') :
    (mail cfg msgs).wp t (issue (.release .worker)) Q w := by
  refine (mail cfg msgs).wp_call fun w' hr _ => ?_
  have h' := h.apart hr
  refine ⟨.inr ⟨m, hr.job.trans hj, trivial⟩, fun ch r' w'' _ hx => ⟨trivial, ?_⟩⟩
  rcases exec_cases hx with hp | ⟨e, hf, _⟩ | ⟨e, w₁, _, h₁, _⟩
  · cases hp
    refine hok _ ?_
    cases r <;> exact h'
  · cases hf
  · cases h₁

theorem mail_wp_handle (hjob : w.jobs t = some (.deliver m)) (hc : w.broker.channel t = .ready (some m))
    (hnew : ∀ e ∈ w.trace, e.actor ≠ some t) : (mail cfg msgs).wp t (handle cfg m) (Handles cfg t m) w := by
  have h : Working t m (w.sess t) none false w := by
    refine ⟨hjob, rfl, .inl hc, fun cmd _ hm => hnew _ hm rfl, fun rk m' => ?_,
      fun m' hm => hnew _ hm rfl, by simp⟩
    refine ⟨fun hm => (hnew _ hm rfl).elim, fun he => ?_⟩
    cases he
  refine (mail cfg msgs).wp_bind ?_
  cases hp : parse m with
  | error e =>
    refine ⟨hjob, h.unacked, .inl fun payload hok => ?_⟩
    rw [hp] at hok
    cases hok
  | ok payload =>
    have hm : m.content = .value payload := by
      unfold parse at hp
      split at hp
      · cases hp
      · cases hp
      · rename_i hcontent
        cases hp
        exact hcontent
    refine (mail cfg msgs).wp_bind (h.wp_connect (fun w₁ h₁ => ?_) fun _ _ h' => h')
    refine (mail cfg msgs).wp_bind (h₁.wp_startTransaction (fun w₂ h₂ => ?_) fun _ _ h' => h')
    have htry : (mail cfg msgs).wp t (tryCatch (handleTry payload) (handleCatch cfg payload))
      (Handles cfg t m) w₂ := by
      refine (mail cfg msgs).wp_tryCatch ((mail cfg msgs).wp_mono (fun r w' hr => ?_)
        (mail_wp_handleTry hm h₂ rfl rfl))
      cases r with
      | ok _ => exact hr
      | error e => exact mail_wp_handleCatch hm hr
    refine (mail cfg msgs).wp_tryFinally ((mail cfg msgs).wp_mono (fun r w' hr => ?_) (mail_wp_job h₂.job htry))
    refine mail_wp_release hr.2 hr.1 fun w'' h'' => ?_
    cases r <;> exact h''

theorem mail_wp_nack (h : Spoiled t m w.toShared) :
    (mail cfg msgs).wp t (issue .nack)
      (fun _ w' => Outcome cfg t m w'.toShared ∧ w'.jobs t = some (.deliver m)) w := by
  refine (mail cfg msgs).wp_call fun w' hr _ => ?_
  have h' := h.apart hr
  refine ⟨.inr ⟨m, h'.job, h'.not_covered⟩, fun ch r w'' _ hx => ⟨trivial, ?_⟩⟩
  have hn : Spoiled t m w''.toShared := by
    have hd := Does.of_exec hx
    refine ⟨by rw [hd.jobs]; exact h'.job, fun m' hm' => ?_, ?_⟩
    · rcases exec_cases hx with hp | ⟨e, _, _, _, rfl⟩ | ⟨e, w₁, _, h₁, _⟩
      · cases hp
        refine h'.unacked m' ?_
        simp only [Shared.nack] at hm'
        split at hm' <;> exact hm'
      · rcases List.mem_cons.mp hm' with he | hm'
        · cases he
        · exact h'.unacked m' hm'
      · cases h₁
    · rcases h'.why with hp | hp | ⟨cmd, hv, hm⟩
      · exact .inl hp
      · exact .inr (.inl hp)
      · exact .inr (.inr ⟨cmd, hv, hd.later.trace _ hm⟩)
  exact ⟨.spoiled hn, hn.job⟩

theorem mail_wp_deliveryThread (hjob : w.jobs t = some (.deliver m)) (hc : w.broker.channel t = .ready (some m))
    (hnew : ∀ e ∈ w.trace, e.actor ≠ some t) :
    (mail cfg msgs).wp t (deliveryThread cfg m) ((mail cfg msgs).post t) w := by
  have hpost : ∀ w' : World, Outcome cfg t m w'.toShared ∧ w'.jobs t = some (.deliver m) →
      ∀ m', w'.jobs t = some (.deliver m') → Outcome cfg t m' w'.toShared := by
    rintro w' ⟨ho, hj⟩ m' hj'
    rw [hj] at hj'
    cases hj'
    exact ho
  have hmsg : (mail cfg msgs).wp t (onMessage cfg m)
      (fun _ w' => Outcome cfg t m w'.toShared ∧ w'.jobs t = some (.deliver m)) w := by
    refine (mail cfg msgs).wp_tryCatch
      ((mail cfg msgs).wp_mono (fun r w' hr => ?_) (mail_wp_job hjob (mail_wp_handle hjob hc hnew)))
    cases r with
    | ok _ => exact hr
    | error e => exact mail_wp_nack hr.1
  refine (mail cfg msgs).wp_bind ((mail cfg msgs).wp_mono (fun r w' hr => ?_) hmsg)
  cases r with
  | ok _ => exact hpost w' hr
  | error e => exact hpost w' hr

/-! ## Requests -/

abbrev Plain {α : Type} (p : Api α) : Prop := p.Issues fun cmd => cmd.requests = true

theorem plain_withConnection {α : Type} {use : Use} {body : Api α} (h : Plain body) :
    Plain (withConnection use body) :=
  issues_bind (issues_call rfl) fun _ => issues_tryFinally h (issues_call rfl)

theorem plain_transaction {body : Api Unit} (h : Plain body) : Plain (transaction body) := by
  refine plain_withConnection (issues_tryCatch ?_ fun e => ?_)
  · exact issues_bind (issues_call rfl) fun _ => issues_bind h fun _ => issues_call rfl
  · exact issues_bind (issues_tryCatch (issues_call rfl) fun _ => issues_done _) fun _ => issues_done _

theorem plain_lockProducts (ids : List Uuid) (products : List Product) : Plain (lockProducts ids products) := by
  induction ids generalizing products with
  | nil => exact issues_done _
  | cons id rest ih => exact issues_bind (issues_call rfl) fun product => ih _

theorem plain_reserve (actor : RequestUser) (dto : CreateOrderDto) (key : String) :
    Plain (reserve actor dto key) := by
  refine issues_bind (issues_bind (issues_call rfl) fun rows => plain_lockProducts rows []) fun products => ?_
  refine issues_bind (issues_done _) fun plan => issues_bind (issues_forEach (fun entry => ?_) _) fun _ => ?_
  · cases (productsById products).get? entry.1 with
    | none => exact issues_done _
    | some product => exact issues_call rfl
  · refine issues_bind (issues_call rfl) fun order => issues_bind (issues_forEach (fun input => ?_) _) fun _ => ?_
    · cases (productsById products).get? input.productId with
      | none => exact issues_done _
      | some product => exact issues_call rfl
    · exact issues_bind (issues_call rfl) fun _ => issues_done _

theorem plain_failOrderAndReleaseStock (id : Uuid) : Plain (failOrderAndReleaseStock id) := by
  refine plain_transaction (issues_bind (issues_call rfl) fun found => ?_)
  cases found with
  | none => exact issues_done _
  | some found =>
    obtain ⟨order, items⟩ := found
    by_cases hs : order.status = .failed
    · simp only [if_pos hs]
      exact issues_done _
    · simp only [if_neg hs]
      refine issues_bind (issues_call rfl) fun _ => issues_forEach (fun item => ?_) items
      exact issues_call rfl

theorem plain_settle (order : Order) (plan : OrderPlan) (key : String) : Plain (settle cfg order plan key) := by
  refine issues_bind (issues_tryCatch ?_ fun error => ?_) fun payment => ?_
  · exact issues_bind (issues_call rfl) fun _ => issues_call rfl
  · exact issues_bind (plain_failOrderAndReleaseStock order.id) fun _ => issues_done _
  · refine issues_bind (plain_withConnection (issues_call rfl)) fun _ => issues_bind ?_ fun _ => issues_done _
    exact issues_bind (issues_call rfl) fun _ => issues_bind (issues_call rfl) fun _ =>
      issues_bind (issues_call rfl) fun _ => issues_done _

theorem plain_createOrderTry (actor : RequestUser) (dto : CreateOrderDto) (key : String) :
    Plain (createOrderTry cfg actor dto key) := by
  refine issues_bind (issues_call rfl) fun user => ?_
  cases user with
  | none => exact issues_done _
  | some user =>
    refine issues_bind (issues_call rfl) fun existing => ?_
    cases existing with
    | some existing => exact issues_bind (issues_call rfl) fun _ => issues_done _
    | none => exact issues_bind (plain_reserve actor dto key) fun r => plain_settle r.1 r.2 key

theorem plain_createOrderCatch (actor : RequestUser) (key : String) (e : Err) :
    Plain (createOrderCatch actor key e) := by
  refine issues_bind (issues_bind (issues_call rfl) fun active => ?_) fun _ => ?_
  · cases active with
    | true => exact issues_call rfl
    | false => exact issues_done _
  · by_cases hu : isUniqueViolation e = true
    · rw [if_pos hu]
      refine issues_bind (plain_withConnection (issues_call rfl)) fun found => ?_
      cases found <;> exact issues_done _
    · rw [if_neg hu]
      exact issues_done _

theorem plain_createOrder (req : CreateOrderRequest) :
    Plain (createOrder cfg req.actor req.dto req.idempotencyKey) := by
  unfold createOrder
  split
  · exact issues_done _
  · split
    · exact issues_done _
    · refine issues_bind (issues_call rfl) fun _ => issues_bind (issues_call rfl) fun _ => ?_
      exact issues_tryFinally (issues_tryCatch (plain_createOrderTry ..) fun e => plain_createOrderCatch ..)
        (issues_call rfl)

theorem mail_wp_requestThread {req : CreateOrderRequest} (hjob : w.jobs t = some (.create req)) :
    (mail cfg msgs).wp t (requestThread cfg req) ((mail cfg msgs).post t) w := by
  have hissues : Plain (requestThread cfg req) := issues_bind (plain_createOrder req) fun _ => issues_done _
  refine (mail cfg msgs).wp_issues (I := fun w => w.jobs t = some (.create req)) (fun w w' h ha => ha.job.trans h)
    (fun cmd w hc h _ => .inl ⟨⟨req, h⟩, hc⟩) (fun cmd ch r w w' _ h hx => ⟨trivial, ?_⟩)
      (fun r w h m hj => ?_) hissues
    hjob
  · rw [(Does.of_exec hx).jobs]
    exact h
  · rw [h] at hj
    cases hj

/-! ## Every run -/

/-- The system at rest, with messages from anywhere on `orders.process`. -/
def Catalogue.mailbox (c : Catalogue) (msgs : List Message) : SysConf :=
  { c.initial with
    world := { c.initial.world with
      toShared := { c.shared with broker := { Broker.empty with
        queue := Function.update (fun _ => []) .process msgs } } } }

variable {c : Catalogue} {conf : SysConf}

theorem mailInv_initial (cfg : Config) (c : Catalogue) (msgs : List Message) :
    MailInv cfg msgs (c.mailbox msgs).world where
  logs t := .closed (.inl rfl)
  unused t _ e he := by cases he
  held t m hm := by cases hm
  balanced _ k := by
    refine ⟨∅, fun t => ?_, ?_⟩
    · refine ⟨fun ht => by simp at ht, fun ⟨m, hj⟩ => ?_⟩
      cases hj
    · simp [Catalogue.mailbox, total]

theorem mail_good (h : (machine cfg).Reach (c.mailbox msgs) conf) : (mail cfg msgs).Good conf := by
  refine (mail cfg msgs).sound (fun t arr w p w' _ hI hx => ?_) ⟨mailInv_initial cfg c msgs, fun t p hp => ?_⟩
    (h.when fun _ _ => trivial)
  · rcases (hI.arrive hx).2.2 with ⟨req, rfl, hj⟩ | ⟨m, rfl, hj, hc, hnew⟩
    · exact mail_wp_requestThread hj
    · exact mail_wp_deliveryThread hj hc hnew
  · cases hp

/-- The message is acknowledged, and has been consumed, or published again with
a larger attempt or to the dead letters. -/
def Settled (s : Shared) (t : Tid) (m : Message) : Prop :=
  .acked t m ∈ s.trace ∧ (s.consumed m ∨ (∃ m', .published t .retry m' ∈ s.trace ∧ m'.exceeds m) ∨
    ∃ m', .published t .dlq m' ∈ s.trace)

theorem Outcome.settled_iff (h : Outcome cfg t m s) (hc : m.converts) :
    Settled s t m ↔ Covered s t m ∧ (s.consumed m ∨ m.advances cfg) := by
  cases h with
  | spoiled h => exact ⟨fun hs => (h.unacked m hs.1).elim, fun hcov => (h.not_covered hcov.1 hc).elim⟩
  | lost unacked h => exact ⟨fun hs => (unacked hs.1).elim, fun hcov => (unacked (hcov.1.kept h)).elim⟩
  | @settled payload out hm vital acked hout h =>
    have hparse : parse m = .ok payload := by simp [parse, hm]
    have hcov : Covered s t m := ⟨⟨payload, hparse⟩, vital, fun _ => acked⟩
    rcases h with h | ⟨rk, m', ho, hr⟩
    · exact ⟨fun _ => ⟨hcov, .inl h⟩, fun _ => ⟨acked, .inl h⟩⟩
    · constructor
      · rintro ⟨_, hs | ⟨m₁, hm₁, hex⟩ | ⟨m₁, hm₁⟩⟩
        · exact ⟨hcov, .inl hs⟩
        · refine ⟨hcov, .inr fun payload' v' hm' hv' hlt => ?_⟩
          have he := (hout .retry m₁).mp hm₁
          rw [ho] at he
          cases he
          obtain ⟨p, p', v, v₁, hp, hp', hv, hv₁, hlt'⟩ := hex
          rw [hm] at hm' hp
          cases hm'
          cases hp
          rw [hv] at hv'
          cases hv'
          cases hr with
          | retry hv₂ hlt₂ =>
            rw [hv] at hv₂
            cases hv₂
            cases hp'
            cases hv₁
            exact hlt'
        · refine ⟨hcov, .inr fun payload' v' hm' hv' hlt => ?_⟩
          have he := (hout .dlq m₁).mp hm₁
          rw [ho] at he
          cases he
          cases hr with
          | dlq hv hge =>
            rw [hm] at hm'
            cases hm'
            rw [hv] at hv'
            cases hv'
            rw [hge] at hlt
            cases hlt
      · rintro ⟨_, hs | ha⟩
        · exact ⟨acked, .inl hs⟩
        · refine ⟨acked, .inr ?_⟩
          have hpub := (hout rk m').mpr ho
          cases hr with
          | @retry v hv hlt =>
            exact .inl ⟨_, hpub, payload, _, v, v.next, hm, rfl, hv, rfl, ha payload v hm hv hlt⟩
          | dlq _ hge => exact .inr ⟨_, hpub⟩

/-- Where `attempt` cannot be compared, only a consumed message is acknowledged. -/
theorem Outcome.unconverted (h : Outcome cfg t m s) (hc : ¬m.converts) (hacked : .acked t m ∈ s.trace) :
    s.consumed m := by
  cases h with
  | spoiled h => exact (h.unacked m hacked).elim
  | lost unacked h => exact (unacked hacked).elim
  | @settled payload out hm vital acked hout h =>
    rcases h with h | ⟨rk, m', ho, hr⟩
    · exact h
    · refine (hc fun payload' hm' => ?_).elim
      rw [hm] at hm'
      cases hm'
      cases hr with
      | retry hv | dlq hv => exact ⟨_, hv⟩

/-- A delivery that has ended has settled its message exactly when it was
covered; and while all are covered, they are bounded by what has been put on
the queue. -/
theorem deliveries_settled (h : (machine cfg).Reach (c.mailbox msgs) conf) :
    (∀ t m r, conf.world.jobs t = some (.deliver m) → conf.threads t = .running (.done r) →
      (m.converts → (Settled conf.world.toShared t m ↔
        Covered conf.world.toShared t m ∧ (conf.world.consumed m ∨ m.advances cfg))) ∧
      (¬m.converts → .acked t m ∈ conf.world.trace → conf.world.consumed m)) ∧
    (AllCovered cfg conf.world.toShared → ∀ (k : Content) (D : Finset Tid),
      (∀ t ∈ D, ∃ m, conf.world.jobs t = some (.deliver m) ∧ m.stem = k) →
        D.card ≤ total cfg k msgs + total cfg k conf.world.sent) := by
  have hgood := mail_good h
  refine ⟨fun t m r hj ht => ?_, fun hall k D hD => ?_⟩
  · have hpost : (mail cfg msgs).post t r conf.world := hgood.post ht
    exact ⟨(hpost m hj).settled_iff, (hpost m hj).unconverted⟩
  · exact (hgood.1.balanced hall k).card_le hD

def strayMessage : Message := processMessage 7 8 0

def straySteps : List SysLabel := .spawn 0 (.delivery 0) :: List.replicate 8 (.run 0 .proceed)

def strayEnd : SysConf :=
  ((machine (.ofPool 2 .repository)).run ((Catalogue.shop 3).mailbox [strayMessage]) straySteps).getD
    ((Catalogue.shop 3).mailbox [strayMessage])

theorem deliveries_settled_stray : Settled strayEnd.world.toShared 0 strayMessage ∧
    ({0} : Finset Tid).card ≤ total (.ofPool 2 .repository) strayMessage.stem [strayMessage] +
      total (.ofPool 2 .repository) strayMessage.stem strayEnd.world.sent := by
  have hreach : (machine (.ofPool 2 .repository)).Reach ((Catalogue.shop 3).mailbox [strayMessage]) strayEnd :=
    Machine.reach_getD_run ..
  have h := deliveries_settled hreach
  have htrace : strayEnd.world.trace = [.acked 0 strayMessage, .published 0 .retry (republished
      { messageId := some 7, orderId := some 8, createdAt := some 0, attempt := .primitive (Primitive.num 0).succ,
        correlationId := some 7, producer := some "orders-api", eventName := some "orders.process" })] := rfl
  have hjobs : strayEnd.world.jobs = Function.update (fun _ => none) 0 (some (.deliver strayMessage)) := rfl
  have hcovered : Covered strayEnd.world.toShared 0 strayMessage := by
    refine ⟨⟨_, rfl⟩, fun cmd _ hm => ?_, fun hlost => by cases hlost⟩
    rw [htrace] at hm
    simp at hm
  have hconverts : strayMessage.converts := by
    intro payload hm
    cases hm
    exact ⟨_, rfl⟩
  have hadvances : strayMessage.advances (.ofPool 2 .repository) := by
    intro payload v hm hv _
    cases hm
    cases hv
    decide +kernel
  have hall : AllCovered (.ofPool 2 .repository) strayEnd.world.toShared := by
    intro t m hj
    rw [hjobs] at hj
    by_cases ht : t = 0
    · subst ht
      cases hj
      exact ⟨hcovered, hconverts, hadvances⟩
    · simp [ht] at hj
  refine ⟨((h.1 0 strayMessage (.ok none) rfl rfl).1 hconverts).mpr ⟨hcovered, .inr hadvances⟩,
    h.2 hall _ {0} fun t ht => ?_⟩
  rw [Finset.mem_singleton.mp ht]
  exact ⟨strayMessage, rfl, rfl⟩

/-! ## A poison message -/

def malformedMessage : Message := ⟨.malformed, none, none⟩

/-- The message is back on the queue after `n` deliveries. -/
structure Bounced (conf : SysConf) (n : Nat) : Prop where
  queue : conf.world.broker.queue .process = [malformedMessage]
  done : ∀ t < n, conf.world.jobs t = some (.deliver malformedMessage) ∧
    conf.threads t = .running (.done (.ok none)) ∧
    .acked t malformedMessage ∉ conf.world.trace
  idle : ∀ t, n ≤ t → conf.world.jobs t = none ∧ conf.threads t = .idle ∧
    .acked t malformedMessage ∉ conf.world.trace

/-- A consumer is handed the message, and nothing fails. -/
def bounceSteps (t : Tid) : List SysLabel := [.spawn t (.delivery 0), .run t .proceed]

theorem arrive_delivery (cfg : Config) {msgs : List Message} (hj : w.jobs t = none)
    (hq : w.broker.queue .process = m :: msgs) :
    ∃ w', w.arrive cfg t (.delivery 0) = some (deliveryThread cfg m, w') ∧ w'.broker.queue .process = msgs ∧
      w'.broker.channel t = .ready (some m) ∧ w'.jobs = Function.update w.jobs t (some (.deliver m)) ∧
      w'.trace = w.trace := by
  let b : Broker := ⟨Function.update w.broker.queue .process msgs, w.broker.channel⟩
  have htake : w.broker.take .process 0 = some (m, b) := by simp [Broker.take, hq, b]
  refine ⟨{ w with toShared := { w.toShared with broker := b.setChannel t (.ready (some m)) }.start t (.deliver m) },
    ?_, ?_, ?_, rfl, rfl⟩
  · simp [World.arrive, hj, Shared.deliver, htake]
  · simp [Shared.start, Broker.setChannel, b]
  · simp [Shared.start, Broker.setChannel]

theorem Bounced.next (cfg : Config) {n : Nat} (h : Bounced conf n) :
    ∃ conf', (machine cfg).run conf (bounceSteps n) = some conf' ∧ Bounced conf' (n + 1) := by
  obtain ⟨hj, hth, hacked⟩ := h.idle n (Nat.le_refl n)
  obtain ⟨w₁, harrive, hqueue, hchannel, hjobs, htrace⟩ := arrive_delivery cfg hj h.queue
  let threads₁ := Function.update conf.threads n (.running (deliveryThread cfg malformedMessage))
  have hspawn : (machine cfg).step conf (.spawn n (.delivery 0)) = some ⟨w₁, threads₁⟩ := by
    simp only [Machine.step, hth]
    rw [show (machine cfg).spawn n (.delivery 0) conf.world = _ from harrive]
    rfl
  let threads₂ := Function.update threads₁ n (.running (.done (.ok none)))
  have hnack : (machine cfg).step ⟨w₁, threads₁⟩ (.run n .proceed) =
      some ⟨{ w₁ with toShared := w₁.toShared.nacked n }, threads₂⟩ := by
    have hrun : threads₁ n = .running (deliveryThread cfg malformedMessage) := Function.update_self ..
    have hperform : perform cfg n .nack w₁ = some (.ok (), { w₁ with toShared := w₁.toShared.nacked n }) := by
      simp only [perform, Shared.nack, hchannel]
    have hexec : (machine cfg).exec n .nack .proceed w₁ = some (.ok (),
      { w₁ with toShared := w₁.toShared.nacked n }) :=
      (exec_proceed (World.refuses_of_open (by simp [hchannel]) .nack)).trans hperform
    simp only [Machine.step, hrun]
    rw [show deliveryThread cfg malformedMessage = .await .nack _ from rfl]
    simp only [hexec]
    rfl
  have hback : (w₁.toShared.nacked n).broker.queue .process = [malformedMessage] := by
    simp [Shared.nacked, Broker.requeue, hchannel, Channel.unacked, Broker.push, Broker.setChannel, hqueue]
  have hrun : (machine cfg).run conf (bounceSteps n) = some ⟨{ w₁ with toShared := w₁.toShared.nacked n },
    threads₂⟩ := by
    simp only [bounceSteps, Machine.run, hspawn, hnack, Option.bind_some]
  refine ⟨_, hrun, hback, fun t ht => ?_, fun t ht => ?_⟩
  · show w₁.jobs t = _ ∧ threads₂ t = _ ∧ .acked t malformedMessage ∉ w₁.trace
    rw [hjobs, htrace]
    by_cases he : t = n
    · subst he
      exact ⟨Function.update_self .., Function.update_self .., hacked⟩
    · obtain ⟨hj', hth', hacked'⟩ := h.done t (by omega)
      simp only [threads₂, threads₁, Function.update_of_ne he]
      exact ⟨hj', hth', hacked'⟩
  · have he : t ≠ n := by omega
    obtain ⟨hj', hth', hacked'⟩ := h.idle t (by omega)
    show w₁.jobs t = _ ∧ threads₂ t = _ ∧ .acked t malformedMessage ∉ w₁.trace
    rw [hjobs, htrace]
    simp only [threads₂, threads₁, Function.update_of_ne he]
    exact ⟨hj', hth', hacked'⟩

theorem bounced_run (cfg : Config) (n : Nat) : ∃ ls conf, (∀ l ∈ ls, ∃ t, l ∈ bounceSteps t) ∧
    (machine cfg).run ((Catalogue.shop 3).mailbox [malformedMessage]) ls = some conf ∧ Bounced conf n := by
  induction n with
  | zero =>
    refine ⟨[], _, by simp, rfl, rfl, fun t ht => by omega, fun t _ => ⟨rfl, rfl, fun hm => ?_⟩⟩
    cases hm
  | succ n ih =>
    obtain ⟨ls, conf, hls, hrun, hb⟩ := ih
    obtain ⟨conf', hrun', hb'⟩ := hb.next cfg
    refine ⟨ls ++ bounceSteps n, conf', fun l hl => ?_, (Machine.run_append hrun).trans hrun', hb'⟩
    rcases List.mem_append.mp hl with hl | hl
    · exact hls l hl
    · exact ⟨n, hl⟩

/-- A message that is not JSON goes back as it was, and is delivered more often
than any bound allows, although nothing fails and nothing crashes. -/
theorem poison_message :
    (∃ conf,
      (machine (.ofPool 2 .repository)).run ((Catalogue.shop 3).mailbox [malformedMessage]) (bounceSteps 0) =
        some conf ∧
      conf.world.broker.queue .process = [malformedMessage] ∧ conf.threads 0 = .running (.done (.ok none)) ∧
      ¬Settled conf.world.toShared 0 malformedMessage) ∧
    ¬∃ bound, ∀ ls conf, (∀ l ∈ ls, ∃ t, l ∈ bounceSteps t) →
      (machine (.ofPool 2 .repository)).run ((Catalogue.shop 3).mailbox [malformedMessage]) ls = some conf →
      ∀ D : Finset Tid, (∀ t ∈ D, conf.world.jobs t = some (.deliver malformedMessage)) → D.card ≤ bound := by
  constructor
  · refine ⟨_, rfl, rfl, rfl, fun hs => ?_⟩
    cases hs.1
  · rintro ⟨bound, h⟩
    obtain ⟨ls, conf, hls, hrun, hb⟩ := bounced_run (.ofPool 2 .repository) (bound + 1)
    have hcard := h ls conf hls hrun (Finset.range (bound + 1)) fun t ht => (hb.done t (Finset.mem_range.mp ht)).1
    rw [Finset.card_range] at hcard
    omega

end OrdersBackend
