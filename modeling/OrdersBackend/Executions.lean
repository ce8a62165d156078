import OrdersBackend.Attempts
import OrdersBackend.Connections

/-!
# Executions of a message

An execution of a message is a delivery that has begun its transaction. It
fails if it publishes the message again. The retries start at attempt 0 and go
on while the attempt is below `maxAttempts`, so one execution more than
`maxAttempts` may fail.
-/

namespace OrdersBackend

open Conc Async Protocol Binary64

variable {cfg : Config} {c : Catalogue} {N : Nat} {mid oid : Uuid} {t u : Tid} {s s' : Shared} {w w' : World}
variable {cmd : Cmd} {ch : Choice} {conf : SysConf}

/-! ## Failures come after the transaction has begun -/

/-- The commands before the transaction of a query runner is open. -/
def Cmd.enters : Cmd → Bool
  | .connect _ | .startTransaction .qr => true
  | _ => false

/-- The commands with which a failed execution gives its message on. -/
def Cmd.passesOn : Cmd → Bool
  | .publish .retry _ | .publish .dlq _ => true
  | _ => false

def Shared.refused (s : Shared) (t : Tid) : Bool := rejectedIn t Cmd.enters s.trace

def Shared.passedOn (s : Shared) (t : Tid) : Bool := s.publishedTo .retry t || s.publishedTo .dlq t

theorem enters_of_not_holds (h : cmd.holds = false) : cmd.enters = false := by
  cases cmd with
  | connect => cases h
  | startTransaction slot =>
    cases slot with
    | qr => cases h
    | em => rfl
  | _ => rfl

theorem passesOn_of_requests (h : cmd.requests = true) : cmd.passesOn = false := by
  cases cmd with
  | publish rk m => cases rk <;> first | rfl | cases h
  | _ => rfl

theorem publishedTo_append {es : List Event} (he : s'.trace = es ++ s.trace) {rk : RoutingKey}
    (hes : ∀ m, .published t rk m ∉ es) : s'.publishedTo rk t = s.publishedTo rk t := by
  unfold Shared.publishedTo
  rw [he]
  refine any_append_of_not (fun e hm => ?_) _
  by_contra hp
  obtain ⟨m, rfl⟩ := eq_of_publishesTo (by simpa using hp)
  exact hes m hm

theorem passedOn_refused_of_actor (h : ∃ es, s'.trace = es ++ s.trace ∧ ∀ e ∈ es, e.actor ≠ some t) :
    s'.passedOn t = s.passedOn t ∧ s'.refused t = s.refused t := by
  obtain ⟨es, he, hes⟩ := h
  have hnone : ∀ rk m, .published t rk m ∉ es := fun rk m hm => hes _ hm rfl
  refine ⟨?_, ?_⟩
  · unfold Shared.passedOn
    rw [publishedTo_append he (hnone .retry), publishedTo_append he (hnone .dlq)]
  · unfold Shared.refused
    rw [he]
    exact rejectedIn_append t _ (fun e hm => rejects_of_actor (hes e hm) _) _

theorem passedOn_exec {r : Except Err cmd.Res} (hc : cmd.passesOn = false)
    (h : exec cfg t cmd ch w = some (r, w')) : w'.toShared.passedOn t = w.toShared.passedOn t := by
  obtain ⟨es, he, hes⟩ := (Does.of_exec h).events
  have hnone : ∀ rk, rk ≠ .process → ∀ m, .published t rk m ∉ es := by
    intro rk hrk m hm
    obtain rfl := (hes _ hm).publishes t rk m rfl
    cases rk with
    | process => exact hrk rfl
    | retry | dlq => cases hc
  unfold Shared.passedOn
  rw [publishedTo_append he (hnone .retry (by decide)), publishedTo_append he (hnone .dlq (by decide))]

theorem refused_exec {r : Except Err cmd.Res} (hc : cmd.enters = false)
    (h : exec cfg t cmd ch w = some (r, w')) : w'.toShared.refused t = w.toShared.refused t := by
  obtain ⟨es, he, hes⟩ := (Does.of_exec h).events
  unfold Shared.refused
  rw [he]
  refine rejectedIn_append t _ (fun e hm => ?_) _
  by_contra hr
  have henters := (hes e hm).rejects Cmd.enters (by simpa using hr)
  rw [hc] at henters
  cases henters

theorem refused_ok {a : cmd.Res} (h : exec cfg t cmd ch w = some (.ok a, w')) :
    w'.toShared.refused t = w.toShared.refused t := by
  rcases exec_cases h with h | ⟨e, _, _, hr, _⟩ | ⟨e, w₁, _, _, hr, _⟩
  · exact perform_rejectedIn h _
  · cases hr
  · cases hr

theorem enters_of_passesOn (h : cmd.passesOn = true) : cmd.enters = false := by
  cases cmd with
  | publish => rfl
  | _ => cases h

/-- No command that opens the transaction is refused before a message is
passed on. -/
def entering (cfg : Config) : Protocol (machine cfg) where
  allows _ := True
  inv w := ∀ t, w.toShared.passedOn t = true → w.toShared.refused t = false
  rely t w w' := w'.toShared.passedOn t = w.toShared.passedOn t ∧ w'.toShared.refused t = w.toShared.refused t
  guar _ _ _ := True
  pre t cmd w := (cmd.enters = true → w.toShared.passedOn t = false) ∧
    (cmd.passesOn = true → w.toShared.refused t = false)
  post _ _ _ := True
  rely_refl _ _ := ⟨rfl, rfl⟩
  rely_trans _ _ _ _ h h' := ⟨h'.1.trans h.1, h'.2.trans h.2⟩
  post_rely _ _ _ _ _ _ := trivial
  exec_ok t cmd ch w r w' _ hI hp hx _ := by
    have hother : ∀ u, u ≠ t → w'.toShared.passedOn u = w.toShared.passedOn u ∧
        w'.toShared.refused u = w.toShared.refused u := by
      intro u hu
      obtain ⟨es, he, hes⟩ := (Does.of_exec hx).trace
      exact passedOn_refused_of_actor ⟨es, he, fun e hm => by rw [hes e hm]; exact fun h => hu (Option.some.inj h).symm⟩
    refine ⟨fun u hu => ?_, hother⟩
    by_cases hut : u = t
    · subst hut
      cases hpass : cmd.passesOn with
      | true =>
        rw [refused_exec (enters_of_passesOn hpass) hx]
        exact hp.2 hpass
      | false =>
        rw [passedOn_exec hpass hx] at hu
        cases henters : cmd.enters with
        | true =>
          rw [hp.1 henters] at hu
          cases hu
        | false =>
          rw [refused_exec henters hx]
          exact hI u hu
    · obtain ⟨hpassed, hrefused⟩ := hother u hut
      rw [hrefused]
      exact hI u (hpassed.symm.trans hu)
  kill_ok _ _ _ hI := ⟨hI, fun _ _ => ⟨rfl, rfl⟩⟩
  env_ok act w w' _ hI h := by
    obtain ⟨s, hs, rfl⟩ := Option.map_eq_some_iff.mp h
    obtain ⟨es, he, hes⟩ := (step_of_env hs).trace
    have hsame : ∀ t, s.passedOn t = w.toShared.passedOn t ∧ s.refused t = w.toShared.refused t :=
      fun t => passedOn_refused_of_actor ⟨es, he, fun e hm => by rw [hes e hm]; exact nofun⟩
    refine ⟨fun t ht => ?_, hsame⟩
    exact (hsame t).2.trans (hI t ((hsame t).1.symm.trans ht))
  spawn_ok t arr w p w' _ hI h := by
    obtain ⟨_, s, rfl, _, _, htr, _⟩ := arrive_cases h
    have hsame : ∀ t, s.passedOn t = w.toShared.passedOn t ∧ s.refused t = w.toShared.refused t :=
      fun t => passedOn_refused_of_actor ⟨[], htr, by simp⟩
    refine ⟨fun u hu => ?_, fun u _ => hsame u⟩
    exact (hsame u).2.trans (hI u ((hsame u).1.symm.trans hu))

/-! ### The procedures -/

theorem entering_wp_requestThread {req : CreateOrderRequest} (hw : w.toShared.passedOn t = false) :
    (entering cfg).wp t (requestThread cfg req) (fun _ _ => True) w := by
  have hissues : Plain (requestThread cfg req) := issues_bind (plain_createOrder req) fun _ => issues_done _
  refine (entering cfg).wp_issues (I := fun w => w.toShared.passedOn t = false) (fun w w' h hr => hr.1.trans h)
    (fun cmd w hc h _ => ⟨fun _ => h, fun hp => ?_⟩) (fun cmd ch r w w' hc h hx => ⟨trivial, ?_⟩)
    (fun _ _ _ => trivial) hissues hw
  · rw [passesOn_of_requests hc] at hp
    cases hp
  · exact (passedOn_exec (passesOn_of_requests hc) hx).trans h

theorem entering_wp_executes {α : Type} {p : Api α} (hp : p.Issues fun cmd => cmd.holds = false) :
    (entering cfg).Steady t (fun w => w.toShared.refused t = false) p := by
  refine steady_issues (fun w w' h hr => hr.2.trans h) (fun cmd w hc h _ => ⟨fun he => ?_, fun _ => h⟩)
    (fun cmd ch r w w' hc h hx => ⟨trivial, (refused_exec (enters_of_not_holds hc) hx).trans h⟩) hp
  rw [enters_of_not_holds hc] at he
  cases he

theorem entering_wp_enter {Q : Except Err cmd.Res → World → Prop} (hc : cmd.passesOn = false)
    (hw : w.toShared.passedOn t = false ∧ w.toShared.refused t = false)
    (hok : ∀ a w', w'.toShared.passedOn t = false ∧ w'.toShared.refused t = false → Q (.ok a) w')
    (herr : ∀ e w', Q (.error e) w') : (entering cfg).wp t (issue cmd) Q w := by
  intro w' hr _
  refine ⟨⟨fun _ => hr.1.trans hw.1, fun _ => hr.2.trans hw.2⟩, fun ch r w'' _ hx => ⟨trivial, ?_⟩⟩
  cases r with
  | error e => exact herr e w''
  | ok a => exact hok a w'' ⟨(passedOn_exec hc hx).trans (hr.1.trans hw.1), (refused_ok hx).trans (hr.2.trans hw.2)⟩

theorem entering_wp_other {Q : Except Err cmd.Res → World → Prop} (he : cmd.enters = false)
    (hp : cmd.passesOn = false) (hQ : ∀ r w', Q r w') : (entering cfg).wp t (issue cmd) Q w := by
  intro w' _ _
  refine ⟨⟨fun h => ?_, fun h => ?_⟩, fun ch r w'' _ _ => ⟨trivial, hQ r w''⟩⟩
  · rw [he] at h
    cases h
  · rw [hp] at h
    cases h

theorem entering_wp_handle (msg : Message) (hw : w.toShared.passedOn t = false ∧ w.toShared.refused t = false) :
    (entering cfg).wp t (handle cfg msg) (fun _ _ => True) w := by
  refine wp_check _ (fun _ _ => trivial) fun payload _ => ?_
  refine wp_bind _ (entering_wp_enter rfl hw (fun _ w₁ h₁ => ?_) fun _ _ => trivial)
  refine wp_bind _ (entering_wp_enter rfl h₁ (fun _ w₂ h₂ => ?_) fun _ _ => trivial)
  refine wp_tryFinally _ (wp_mono _ (fun r w₃ _ => ?_) (steady_tryCatch
    (entering_wp_executes (issues_handleTry payload))
    (fun e => entering_wp_executes (issues_handleCatch payload e)) w₂ h₂.2))
  exact entering_wp_other rfl rfl fun r' _ => by cases r' <;> trivial

theorem entering_wp_deliveryThread (msg : Message)
    (hw : w.toShared.passedOn t = false ∧ w.toShared.refused t = false) :
    (entering cfg).wp t (deliveryThread cfg msg) (fun _ _ => True) w := by
  refine wp_bind _ (wp_tryCatch _ (wp_mono _ (fun r w' _ => ?_) (entering_wp_handle msg hw)))
  cases r with
  | ok _ => trivial
  | error e => exact entering_wp_other rfl rfl fun r' _ => by cases r' <;> trivial

theorem Reachable.entering (h : Reachable cfg c conf) : (entering cfg).Good conf := by
  have h₀ : (OrdersBackend.entering cfg).Good c.initial := by
    refine ⟨fun t ht => ?_, fun t p hp => ?_⟩
    · cases ht
    · cases hp
  refine (OrdersBackend.entering cfg).sound_fresh
    (J := fun t w => w.toShared.passedOn t = false ∧ w.toShared.refused t = false)
    (fun t w w' hw hr => ⟨hr.1.trans hw.1, hr.2.trans hw.2⟩) (fun t arr w p w' _ _ hw hx => ?_) h₀
    (fun t _ => ⟨rfl, rfl⟩) (h.when fun _ _ => trivial)
  obtain ⟨_, s, rfl, _, _, htr, hp⟩ := arrive_cases hx
  obtain ⟨hpassed, hrefused⟩ : s.passedOn t = w.toShared.passedOn t ∧ s.refused t = w.toShared.refused t :=
    passedOn_refused_of_actor ⟨[], htr, by simp⟩
  rcases hp with ⟨req, rfl, _⟩ | ⟨msg, rfl, _⟩
  · exact entering_wp_requestThread (hpassed.trans hw.1)
  · exact entering_wp_deliveryThread msg ⟨hpassed.trans hw.1, hrefused.trans hw.2⟩

/-! ## How often a message is executed -/

/-- The delivery has begun its transaction for a copy. -/
structure Executes (mid oid : Uuid) (conf : SysConf) (t : Tid) : Prop where
  tries : conf.world.toShared.tries mid oid t
  entered : ∀ cmd k, conf.threads t = .running (.await cmd k) → cmd.enters = false
  accepted : conf.world.toShared.refused t = false

/-- The execution has failed: it has published the message again. -/
def Fails (mid oid : Uuid) (conf : SysConf) (t : Tid) : Prop :=
  conf.world.toShared.tries mid oid t ∧ conf.world.toShared.passedOn t = true

/-- A copy waits in a queue, or in a delivery that has not begun its
transaction. -/
def Waits (mid oid : Uuid) (conf : SysConf) : Prop :=
  (∃ q, q ≠ .dlq ∧ ∃ m ∈ conf.world.broker.queue q, m.isCopy mid oid) ∨
    ∃ t, conf.world.toShared.tries mid oid t ∧ ¬Executes mid oid conf t

def DeadLettered (mid oid : Uuid) (conf : SysConf) : Prop :=
  ∃ m ∈ conf.world.broker.queue .dlq, m.isCopy mid oid

theorem Fails.executes (h : Reachable cfg c conf) (hf : Fails mid oid conf t) : Executes mid oid conf t where
  tries := hf.1
  entered cmd k hk := by
    by_contra he
    have hpassed := (h.entering.pre hk).1 (by simpa using he)
    rw [hf.2] at hpassed
    cases hpassed
  accepted := h.entering.1 t hf.2

/-- A delivery publishes only to retry its message, or to give it up. -/
theorem Saga.passedOn_of_out (h : Saga cfg c s) (ht : s.tries mid oid t) (hout : s.out t = true) :
    s.passedOn t = true := by
  obtain ⟨e, he, hp⟩ := List.any_eq_true.mp hout
  cases e with
  | published t' rk m =>
    obtain rfl := of_decide_eq_true hp
    have hrk : s.publishedTo rk t' = true := List.any_eq_true.mpr ⟨_, he, by simp [Event.publishesTo]⟩
    cases rk with
    | process =>
      obtain ⟨oid', mid', _, hphase, _⟩ := h.leaves _ he
      obtain ⟨req, o, ho⟩ := h.inv.calls.owns t' oid' (by rw [hphase]; rfl)
      obtain ⟨m', hj, _⟩ := ht
      rw [ho.job] at hj
      cases hj
    | retry => simp [Shared.passedOn, hrk]
    | dlq => simp [Shared.passedOn, hrk]
  | _ => cases hp

section
variable {O R L : Finset Tid} (h : Tokens cfg mid oid conf.world.toShared O R L)
include h

theorem Tokens.fails_iff (t : Tid) : t ∈ R ∪ L ↔ Fails mid oid conf t := by
  rw [Finset.mem_union, h.retried, h.dead, ← and_or_left, ← Bool.or_eq_true]
  rfl

theorem Tokens.tries_iff (hs : Saga cfg c conf.world.toShared) (t : Tid) :
    t ∈ O ∪ (R ∪ L) ↔ conf.world.toShared.tries mid oid t := by
  rw [Finset.mem_union, h.fails_iff, h.opens]
  refine ⟨fun ht => ht.elim And.left And.left, fun ht => ?_⟩
  cases hout : conf.world.toShared.out t with
  | false => exact .inl ⟨ht, rfl⟩
  | true => exact .inr ⟨ht, hs.passedOn_of_out ht hout⟩

theorem Tokens.card_fails : (R ∪ L).card = R.card + L.card := Finset.card_union_of_disjoint h.apart

variable {E : Finset Tid} (hreach : Reachable cfg c conf) (hE : ∀ t, t ∈ E ↔ Executes mid oid conf t)
include hreach hE

theorem Tokens.executed_sub : E ⊆ O ∪ (R ∪ L) :=
  fun t ht => (h.tries_iff hreach.saga t).mpr ((hE t).mp ht).tries

/-- While a copy waits, all that have been executed have been retried, and none
has given the message up. -/
theorem Tokens.waiting (hw : Waits mid oid conf) : L = ∅ ∧ E.card ≤ R.card := by
  have hle := hreach.saga.sends_le mid oid
  have hsub : L = ∅ ∧ ∀ u ∈ O, u ∉ E := by
    rcases hw with ⟨q, hq, m, hm, hc⟩ | ⟨t, ht, hnot⟩
    · have hqueued : conf.world.broker.queued mid oid ≠ 0 := by
        intro hzero
        have hcopy := copies_iff.mpr hc
        rw [not_copies_of_queued hzero hq m hm] at hcopy
        cases hcopy
      have htoken := h.token
      obtain rfl : O = ∅ := Finset.card_eq_zero.mp (by omega)
      exact ⟨Finset.card_eq_zero.mp (by omega), fun u hu => by cases hu⟩
    · have ht' : t ∈ O := by
        rcases Finset.mem_union.mp ((h.tries_iff hreach.saga t).mpr ht) with ht' | ht'
        · exact ht'
        · exact (hnot (((h.fails_iff t).mp ht').executes hreach)).elim
      obtain ⟨rfl, hL, _⟩ := h.alone ht' hle
      refine ⟨hL, fun u hu hmem => hnot ?_⟩
      obtain rfl := Finset.mem_singleton.mp hu
      exact (hE u).mp hmem
  obtain ⟨rfl, hout⟩ := hsub
  refine ⟨rfl, Finset.card_le_card fun u hu => ?_⟩
  have hmem := h.executed_sub hreach hE hu
  rw [Finset.mem_union, Finset.union_empty] at hmem
  exact hmem.resolve_left fun ho => hout u ho hu

/-- Otherwise one more has been executed: the one that runs, or has ended well,
or has given the message up. -/
theorem Tokens.card_executed (hsends : conf.world.toShared.sends mid oid = 1) (hw : ¬Waits mid oid conf) :
    E.card = R.card + 1 := by
  have hall : O ∪ (R ∪ L) = E := by
    ext t
    rw [h.tries_iff hreach.saga, hE]
    refine ⟨fun ht => ?_, Executes.tries⟩
    by_contra hnot
    exact hw (.inr ⟨t, ht, hnot⟩)
  have hapart : Disjoint O (R ∪ L) := by
    rw [Finset.disjoint_left]
    intro t ht hf
    have hpassed := ((h.fails_iff t).mp hf).2
    have hout := publishedTo_of_out ((h.opens t).mp ht).2
    simp [Shared.passedOn, hout] at hpassed
  have hqueued : conf.world.broker.queued mid oid = 0 := by
    have hnone : ∀ q, q ≠ .dlq → (conf.world.broker.queue q).countP (Message.copies mid oid) = 0 := by
      intro q hq
      rw [List.countP_eq_zero]
      exact fun m hm hc => hw (.inl ⟨q, hq, m, hm, copies_iff.mp hc⟩)
    rw [Broker.queued, hnone .process (by decide), hnone .retry (by decide)]
  have htoken := h.token
  rw [← hall, Finset.card_union_of_disjoint hapart, h.card_fails]
  omega

end

theorem sends_of_sent (h : Saga cfg c s) {m : Message} (hsent : .published t .process m ∈ s.trace) :
    ∃ mid oid, m.isCopy mid oid ∧ s.sends mid oid = 1 := by
  obtain ⟨oid, mid, createdAt, _, rfl⟩ := h.leaves _ hsent
  have hcopy : (processMessage mid oid createdAt).isCopy mid oid := ⟨_, rfl, rfl, rfl⟩
  have hpos : 0 < s.sends mid oid := List.countP_pos_iff.mpr ⟨_, hsent, copies_iff.mpr hcopy⟩
  have hle := h.sends_le mid oid
  exact ⟨mid, oid, hcopy, by omega⟩

/-- In every run in which no delivery is put back, a message is executed at
most `N` times exactly as long as fewer than `N` executions have failed, or `N`
have and the message still waits for its next one. Where attempts are counted
exactly it is never executed more than `N + 1` times, and it is given up by the
last of `N + 1` failures. -/
theorem attempts_bounded_iff {d : Double} (hmax : cfg.maxAttempts = .fin d) (hd : d.val = N)
    (h : Undisrupted cfg c conf) {m : Message} (hsent : .published t .process m ∈ conf.world.trace) :
    ∃ mid oid, m.isCopy mid oid ∧ ∃ E F : Finset Tid,
      (∀ t, t ∈ E ↔ Executes mid oid conf t) ∧ (∀ t, t ∈ F ↔ Fails mid oid conf t) ∧ F ⊆ E ∧
      (E.card ≤ N ↔ F.card < N ∨ F.card = N ∧ Waits mid oid conf) ∧
      (N ≤ 2 ^ 53 → E.card ≤ N + 1 ∧ (Waits mid oid conf → F.card ≤ N)) ∧
      (DeadLettered mid oid conf → F.card = N + 1) := by
  classical
  have hreach := h.reachable
  obtain ⟨mid, oid, hcopy, hsends⟩ := sends_of_sent hreach.saga hsent
  obtain ⟨O, R, L, hT⟩ := h.tokens mid oid
  let E := (O ∪ (R ∪ L)).filter (Executes mid oid conf)
  have hE : ∀ t, t ∈ E ↔ Executes mid oid conf t := by
    intro t
    rw [Finset.mem_filter, hT.tries_iff hreach.saga]
    exact and_iff_right_of_imp Executes.tries
  have hF := hT.card_fails
  have htoken := hT.token
  -- a copy that waits is the only one left, so none has been given up
  have hwaiting : Waits mid oid conf → L.card = 0 ∧ E.card ≤ R.card := fun hw =>
    (hT.waiting hreach hE hw).imp_left Finset.card_eq_zero.mpr
  have hdead : L.card = 0 ∨ R.card = N := by
    rcases L.eq_empty_or_nonempty with rfl | hL
    · exact .inl rfl
    · exact .inr (Config.eq_of_exhausts hmax hd hT.bound (hT.exhausted hL))
  refine ⟨mid, oid, hcopy, E, R ∪ L, hE, hT.fails_iff, fun t ht => ?_, ?_, fun hN => ?_, ?_⟩
  · exact (hE t).mpr (((hT.fails_iff t).mp ht).executes hreach)
  · have hsub : (R ∪ L).card ≤ E.card := Finset.card_le_card fun t ht =>
      (hE t).mpr (((hT.fails_iff t).mp ht).executes hreach)
    by_cases hw : Waits mid oid conf
    · obtain ⟨hL, hcard⟩ := hwaiting hw
      rw [and_iff_left hw]
      omega
    · have hcard := hT.card_executed hreach hE hsends hw
      simp only [hw, and_false, or_false]
      omega
  · have hbound := (Config.allows_iff hmax hd hN).mp hT.bound
    by_cases hw : Waits mid oid conf
    · obtain ⟨hL, hcard⟩ := hwaiting hw
      exact ⟨by omega, fun _ => by omega⟩
    · have hcard := hT.card_executed hreach hE hsends hw
      exact ⟨by omega, fun hw' => (hw hw').elim⟩
  · rintro ⟨m, hm, hc⟩
    have hL := hT.letters m hm (copies_iff.mpr hc)
    have hpos := Finset.card_pos.mpr hL
    omega

/-! ### A message that fails -/

/-- No consumer dies, loses its channel or sends a nack. -/
def keepsDeliveries (conf : SysConf) : SysLabel → Bool
  | .run t _ =>
    match conf.threads t with
    | .running (.await .nack _) => false
    | _ => true
  | .kill _ | .env (.loseChannel _) => false
  | _ => true

theorem undisrupted_afterWhen (cfg : Config) (c : Catalogue) (ls : List SysLabel) :
    Undisrupted cfg c (c.afterWhen cfg keepsDeliveries ls) := by
  refine Machine.ReachWhen.mono (fun conf l hl hr => ?_) (c.reachable_afterWhen cfg keepsDeliveries ls)
  cases l with
  | run t ch =>
    cases ch with
    | proceed =>
      obtain ⟨_, k, hk⟩ := hr
      simp [keepsDeliveries, hk] at hl
    | unnoticed | fail | ackLost => exact hr
  | kill t => cases hl
  | env act =>
    cases act with
    | loseChannel t => cases hl
    | _ => exact hr
  | spawn t arr => exact hr

/-- A delivery whose simulated work fails. -/
def failingSteps (t : Tid) : List SysLabel :=
  .spawn t (.delivery 0) :: List.replicate 4 (.run t .proceed) ++
    .run t (.fail (.js "Simulated worker failure (ORDERS_FAIL_PROB)")) :: List.replicate 4 (.run t .proceed)

def retriedSteps (t : Tid) : List SysLabel := failingSteps t ++ [.env (.expire 0)]

/-- The message of a mug fails once. -/
def onceFailed : SysConf :=
  (Catalogue.shop 3).afterWhen (.ofPool 2 .repository) keepsDeliveries
    (saleSteps 0 (mugRequest 0 "k") ++ retriedSteps 1 ++ deliverySteps 2 0)

/-- The message of a mug fails four times. -/
def fourTimesFailed : SysConf :=
  (Catalogue.shop 3).afterWhen (.ofPool 2 .repository) keepsDeliveries
    (saleSteps 0 (mugRequest 0 "k") ++ retriedSteps 1 ++ retriedSteps 2 ++ retriedSteps 3 ++ failingSteps 4)

theorem attempts_bounded_mug :
    ∃ mid oid, (processMessage 3 0 0).isCopy mid oid ∧ ∃ E F : Finset Tid,
      (∀ t, t ∈ E ↔ Executes mid oid onceFailed t) ∧ (∀ t, t ∈ F ↔ Fails mid oid onceFailed t) ∧ F ⊆ E ∧
      (E.card ≤ 3 ↔ F.card < 3 ∨ F.card = 3 ∧ Waits mid oid onceFailed) ∧
      (3 ≤ 2 ^ 53 → E.card ≤ 3 + 1 ∧ (Waits mid oid onceFailed → F.card ≤ 3)) ∧
      (DeadLettered mid oid onceFailed → F.card = 3 + 1) :=
  attempts_bounded_iff (t := 0) (d := .ofNat 3 (by norm_num)) rfl rfl (undisrupted_afterWhen ..) (by decide +kernel)

instance (mid oid : Uuid) (s : Shared) (t : Tid) : Decidable (s.tries mid oid t) :=
  match h : s.jobs t with
  | some (.deliver m) =>
    decidable_of_iff (m.copies mid oid = true) ⟨fun hc => ⟨m, h, hc⟩, fun ⟨m', hj, hc⟩ => by
      rw [h] at hj
      cases hj
      exact hc⟩
  | some (.create _) | none => .isFalse fun ⟨m', hj, _⟩ => by
    rw [h] at hj
    cases hj

instance (mid oid : Uuid) (conf : SysConf) (t : Tid) : Decidable (Fails mid oid conf t) :=
  inferInstanceAs (Decidable (_ ∧ _))

instance (mid oid : Uuid) (conf : SysConf) : Decidable (DeadLettered mid oid conf) :=
  decidable_of_iff (∃ m ∈ conf.world.broker.queue .dlq, m.copies mid oid = true)
    (exists_congr fun _ => and_congr_right fun _ => copies_iff)

/-- Three attempts are allowed; four executions fail before the message is
given up. -/
theorem attempts_exceeded :
    Undisrupted (.ofPool 2 .repository) (.shop 3) fourTimesFailed ∧
    .published 0 .process (processMessage 3 0 0) ∈ fourTimesFailed.world.trace ∧
    (Config.ofPool 2 .repository).maxAttempts = 3 ∧
    (∀ t ∈ ({1, 2, 3, 4} : Finset Tid), Fails 3 0 fourTimesFailed t ∧ Executes 3 0 fourTimesFailed t) ∧
    DeadLettered 3 0 fourTimesFailed ∧
    ¬∀ E : Finset Tid, (∀ t ∈ E, Executes 3 0 fourTimesFailed t) → E.card ≤ 3 := by
  have hrun : Undisrupted (.ofPool 2 .repository) (.shop 3) fourTimesFailed := undisrupted_afterWhen ..
  have hfails : ∀ t ∈ ({1, 2, 3, 4} : Finset Tid), Fails 3 0 fourTimesFailed t := by decide +kernel
  have hexecutes := fun t ht => (hfails t ht).executes hrun.reachable
  refine ⟨hrun, by decide +kernel, rfl, fun t ht => ⟨hfails t ht, hexecutes t ht⟩, by decide +kernel, fun hbound => ?_⟩
  exact absurd (hbound _ hexecutes) (by decide)

end OrdersBackend
