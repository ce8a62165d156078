import OrdersBackend.Lib.Threads

/-!
# Extensions of a protocol

A protocol can be extended by what some of its procedures need, guarantee and
leave beyond it. A procedure that the extension asks nothing of keeps to it
as it keeps to the protocol, so only the others have to be looked at again; and
a procedure may be carried over to a protocol with more to rely on.
-/

namespace Conc

namespace Protocol

variable {W T C : Type} {R : C → Type} {ε α β Ch E A : Type} {M : Machine W T C R ε α Ch E A}

structure Extra (P : Protocol M) where
  inv : W → Prop
  pre : T → C → W → Prop
  guar : T → W → W → Prop
  post : T → Except ε α → W → Prop
  post_rely : ∀ t r w w', post t r w → P.rely t w w' → post t r w'
  inv_exec : ∀ t w w', P.inv w → inv w → P.guar t w w' → inv w'
  inv_kill : ∀ t w, P.inv w → inv w → inv (M.kill t w)
  inv_env : ∀ e w w', P.inv w → inv w → M.env e w = some w' → inv w'
  inv_spawn : ∀ t a w p w', P.inv w → inv w → M.spawn t a w = some (p, w') → inv w'

variable (P : Protocol M) (X : P.Extra)

def extend : Protocol M where
  allows := P.allows
  inv w := P.inv w ∧ X.inv w
  rely := P.rely
  guar t w w' := P.guar t w w' ∧ X.guar t w w'
  pre t c w := P.pre t c w ∧ X.pre t c w
  post := X.post
  rely_refl := P.rely_refl
  rely_trans := P.rely_trans
  post_rely := X.post_rely
  exec_ok t c ch w r w' ha hi hp hx hg := by
    obtain ⟨hi', hr⟩ := P.exec_ok t c ch w r w' ha hi.1 hp.1 hx hg.1
    exact ⟨⟨hi', X.inv_exec t w w' hi.1 hi.2 hg.1⟩, hr⟩
  kill_ok t w ha hi := by
    obtain ⟨hi', hr⟩ := P.kill_ok t w ha hi.1
    exact ⟨⟨hi', X.inv_kill t w hi.1 hi.2⟩, hr⟩
  env_ok e w w' ha hi h := by
    obtain ⟨hi', hr⟩ := P.env_ok e w w' ha hi.1 h
    exact ⟨⟨hi', X.inv_env e w w' hi.1 hi.2 h⟩, hr⟩
  spawn_ok t a w p w' ha hi h := by
    obtain ⟨hi', hr⟩ := P.spawn_ok t a w p w' ha hi.1 h
    exact ⟨⟨hi', X.inv_spawn t a w p w' hi.1 hi.2 h⟩, hr⟩

/-- The extension asks nothing of the procedure, as long as `I` holds. -/
structure Exempt (t : T) (I : W → Prop) : Prop where
  rely : ∀ w w', I w → P.rely t w w' → I w'
  guar : ∀ w w', I w → P.guar t w w' → I w' ∧ X.guar t w w'
  pre : ∀ c w, I w → X.pre t c w

theorem wp_extend {t : T} {I : W → Prop} (hX : P.Exempt X t I) {p : Async C R ε β} {Q Q' : Except ε β → W → Prop}
    (hQ : ∀ r w, I w → Q r w → Q' r w) {w : W} (hI : I w) (h : P.wp t p Q w) : (P.extend X).wp t p Q' w := by
  induction p generalizing w with
  | done r => exact hQ r w hI h
  | await c k ih =>
    intro w' hr hi
    have hI' : I w' := hX.rely w w' hI hr
    obtain ⟨hp, hx⟩ := h w' hr hi.1
    refine ⟨⟨hp, hX.pre c w' hI'⟩, fun ch r w'' ha he => ?_⟩
    obtain ⟨hg, hk⟩ := hx ch r w'' ha he
    obtain ⟨hI'', hg'⟩ := hX.guar w' w'' hI' hg
    exact ⟨⟨hg, hg'⟩, ih r hI'' hk⟩

/-- A procedure that keeps one protocol keeps another under which it sees less of
the others, if its commands may be issued there too. -/
theorem wp_transfer {P P' : Protocol M} {D : C → Prop} {t : T}
    (hallows : ∀ ch, P'.allows (.run t ch) → P.allows (.run t ch)) (hinv : ∀ w, P'.inv w → P.inv w)
    (hrely : ∀ w w', P'.rely t w w' → P.rely t w w') (hpre : ∀ c w, D c → P.pre t c w → P'.pre t c w)
    (hguar : ∀ w w', P.guar t w w' → P'.guar t w w') {p : Async C R ε β} {Q : Except ε β → W → Prop}
    (hD : p.Issues D) {w : W} (h : P.wp t p Q w) : P'.wp t p Q w := by
  induction p generalizing w with
  | done r => exact h
  | await c k ih =>
    intro w' hr hi
    obtain ⟨hp, hx⟩ := h w' (hrely w w' hr) (hinv w' hi)
    refine ⟨hpre c w' hD.1 hp, fun ch r w'' ha he => ?_⟩
    obtain ⟨hg, hk⟩ := hx ch r w'' (hallows ch ha) he
    exact ⟨hguar w' w'' hg, ih r (hD.2 r) hk⟩

end Protocol

end Conc
