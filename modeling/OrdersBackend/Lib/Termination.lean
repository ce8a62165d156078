import Mathlib.Data.Finset.Basic
import Mathlib.Logic.Hydra
import OrdersBackend.Lib.Threads

/-!
# Machines that come to rest

A step of a thread leaves a part of its procedure. If each move of a machine is
such a step of one of finitely many threads, or uses up something the
environment has for that thread, no run goes on moving for ever.
-/

namespace Conc

variable {W T C : Type} {R : C → Type} {ε α Ch E A : Type}

/-- What is left of a procedure after one command. -/
inductive Async.Rest : Async C R ε α → Async C R ε α → Prop
  | step (c : C) (k : Except ε (R c) → Async C R ε α) (r : Except ε (R c)) : Async.Rest (k r) (.await c k)

theorem Async.rest_wf : WellFounded (Async.Rest (C := C) (R := R) (ε := ε) (α := α)) := by
  refine ⟨fun p => ?_⟩
  induction p with
  | done r =>
    refine ⟨_, fun q hq => ?_⟩
    cases hq
  | await c k ih =>
    refine ⟨_, fun q hq => ?_⟩
    cases hq with
    | step _ _ r => exact ih r

/-- What is left of a thread after a step of its own. -/
inductive Thread.Rest : Thread C R ε α → Thread C R ε α → Prop
  | running {q p : Async C R ε α} (h : q.Rest p) : Thread.Rest (.running q) (.running p)

theorem Thread.rest_wf : WellFounded (Thread.Rest (C := C) (R := R) (ε := ε) (α := α)) := by
  have hrunning : ∀ p : Async C R ε α, Acc Thread.Rest (Thread.running p) := by
    intro p
    induction p using Async.rest_wf.induction with
    | _ p ih =>
      refine ⟨_, fun th hth => ?_⟩
      cases hth with
      | running h => exact ih _ h
  refine ⟨fun th => ?_⟩
  cases th with
  | running p => exact hrunning p
  | idle | killed =>
    refine ⟨_, fun th' hth' => ?_⟩
    cases hth'

/-- A thread with what the environment has for it. -/
abbrev Thread.Below : Thread C R ε α × Nat → Thread C R ε α × Nat → Prop := Prod.Lex Thread.Rest (· < ·)

theorem Thread.below_wf : WellFounded (Thread.Below (C := C) (R := R) (ε := ε) (α := α)) :=
  WellFounded.prod_lex Thread.rest_wf Nat.lt_wfRel.wf

/-- The threads of `S`, each with what the environment has for it. -/
def Conf.remaining (flag : W → T → Nat) (S : Finset T) (c : Conf W T C R ε α) : Multiset (Thread C R ε α × Nat) :=
  S.val.map fun t => (c.threads t, flag c.world t)

variable [DecidableEq T] {M : Machine W T C R ε α Ch E A}

theorem Conf.remaining_lt {flag : W → T → Nat} {S : Finset T} {c c' : Conf W T C R ε α} {t : T} (ht : t ∈ S)
    (hlt : Thread.Below (c'.threads t, flag c'.world t) (c.threads t, flag c.world t))
    (hothers : ∀ t', t' ≠ t → c'.threads t' = c.threads t' ∧ flag c'.world t' = flag c.world t') :
    Relation.CutExpand Thread.Below (c'.remaining flag S) (c.remaining flag S) := by
  have hsplit : ∀ d : Conf W T C R ε α, d.remaining flag S =
      (d.remaining flag (S.erase t)) + {(d.threads t, flag d.world t)} := by
    intro d
    unfold Conf.remaining
    conv_lhs => rw [← Multiset.cons_erase (Finset.mem_val.mpr ht), Multiset.map_cons]
    rw [Finset.erase_val, Multiset.add_comm, Multiset.singleton_add]
  have hsame : c'.remaining flag (S.erase t) = c.remaining flag (S.erase t) := by
    unfold Conf.remaining
    refine Multiset.map_congr rfl fun t' ht' => ?_
    obtain ⟨h₁, h₂⟩ := hothers t' (Finset.ne_of_mem_erase (Finset.mem_val.mp ht'))
    rw [h₁, h₂]
  rw [hsplit c', hsplit c, hsame]
  exact Relation.cutExpand_add_single _ hlt

/-- Moves that only use up what the threads of `S` have left come to an end. -/
theorem Machine.acc_of_moves {I : Conf W T C R ε α → Prop} {moves : Conf W T C R ε α → Label T Ch E A → Prop}
    (flag : W → T → Nat) (S : Finset T)
    (hmove : ∀ c l c', I c → moves c l → M.step c l = some c' → I c' ∧ ∃ t ∈ S,
      Thread.Below (c'.threads t, flag c'.world t) (c.threads t, flag c.world t) ∧
        ∀ t', t' ≠ t → c'.threads t' = c.threads t' ∧ flag c'.world t' = flag c.world t')
    {c : Conf W T C R ε α} (hc : I c) : Acc (fun c' c => ∃ l, moves c l ∧ M.step c l = some c') c := by
  have hwf := InvImage.wf (Conf.remaining (C := C) (R := R) (ε := ε) (α := α) flag S)
    Thread.below_wf.cutExpand
  induction c using hwf.induction with
  | _ c ih =>
    refine ⟨_, fun c' h => ?_⟩
    obtain ⟨l, hl, hs⟩ := h
    obtain ⟨hI, t, ht, hlt, hothers⟩ := hmove c l c' hc hl hs
    exact ih c' (Conf.remaining_lt ht hlt hothers) hI

end Conc
