import Mathlib.Logic.Relation
import Mathlib.Data.List.Basic
import Mathlib.Order.Basic
import Mathlib.Order.Nat

/-!
# Locks taken in one order

If whoever waits for a lock holds only locks that come before it, nobody waits
for himself through others, and whoever follows the waits comes to one who can
go on. Walking a list from its front takes its entries in
one order, also when some of them come again.
-/

namespace Conc

section
variable {T R α : Type} [Preorder α]

/-- `t` waits for a lock that `u` holds. -/
def WaitsFor (wants : T → R → Prop) (owner : R → Option T) (t u : T) : Prop := ∃ r, wants t r ∧ owner r = some u

/-- What a waiting thread holds comes before what it waits for. -/
def InOrder (rank : R → α) (wants : T → R → Prop) (owner : R → Option T) : Prop :=
  ∀ t r, wants t r → ∀ r', owner r' = some t → rank r' < rank r

variable {rank : R → α} {wants : T → R → Prop} {owner : R → Option T}

/-- Along a chain of waiting threads the locks go up. -/
theorem InOrder.rank_le (h : InOrder rank wants owner) {t u : T}
    (hp : Relation.TransGen (WaitsFor wants owner) t u) : ∃ r r', wants t r ∧ owner r' = some u ∧
    rank r ≤ rank r' := by
  induction hp with
  | single hw =>
    obtain ⟨r, hr, ho⟩ := hw
    exact ⟨r, r, hr, ho, le_refl _⟩
  | tail _ hw ih =>
    obtain ⟨r, r', hr, ho, hle⟩ := ih
    obtain ⟨r'', hr'', ho''⟩ := hw
    exact ⟨r, r'', hr, ho'', le_trans hle (le_of_lt (h _ _ hr'' r' ho))⟩

theorem InOrder.no_cycle (h : InOrder rank wants owner) (t : T) :
    ¬Relation.TransGen (WaitsFor wants owner) t t := by
  intro hp
  obtain ⟨r, r', hr, ho, hle⟩ := h.rank_le hp
  exact lt_irrefl _ (lt_of_le_of_lt hle (h t r hr r' ho))

end

section
variable {T R : Type} {wants : T → R → Prop} {owner : R → Option T}

/-- Whoever follows the waits comes to one who does not wait. -/
theorem InOrder.exists_free {rank : R → Nat} {bound : Nat} (hb : ∀ r, rank r ≤ bound) (h : InOrder rank wants owner)
    (t : T) :
    ∃ u, Relation.ReflTransGen (WaitsFor wants owner) t u ∧ ∀ v, ¬WaitsFor wants owner u v := by
  have follow : ∀ n t r, wants t r → (∃ u, owner r = some u) → bound - rank r = n →
      ∃ u, Relation.ReflTransGen (WaitsFor wants owner) t u ∧ ∀ v, ¬WaitsFor wants owner u v := by
    intro n
    induction n using Nat.strongRecOn with
    | _ n ih =>
      rintro t r hr ⟨u, hu⟩ hn
      by_cases hfree : ∀ v, ¬WaitsFor wants owner u v
      · exact ⟨u, .single ⟨r, hr, hu⟩, hfree⟩
      · obtain ⟨v, r', hr', hv⟩ : ∃ v, WaitsFor wants owner u v := by
          simpa using hfree
        have hlt := h u r' hr' r hu
        have hle := hb r'
        obtain ⟨z, hz, hfree'⟩ := ih (bound - rank r') (by omega) u r' hr' ⟨v, hv⟩ rfl
        exact ⟨z, .head ⟨r, hr, hu⟩ hz, hfree'⟩
  by_cases hfree : ∀ v, ¬WaitsFor wants owner t v
  · exact ⟨t, .refl, hfree⟩
  · obtain ⟨v, r, hr, hv⟩ : ∃ v, WaitsFor wants owner t v := by
      simpa using hfree
    exact follow _ t r hr ⟨v, hv⟩ rfl

/-- The locks are in levels, and within level `n` in no order. -/
def InLevels (level : R → Nat) (n : Nat) (wants : T → R → Prop) (owner : R → Option T) : Prop :=
  ∀ t r, wants t r → ∀ r', owner r' = some t → level r' < level r ∨ level r' = n ∧ level r = n

variable {level : R → Nat} {n : Nat}

theorem InLevels.chain (h : InLevels level n wants owner) {t u : T}
    (hp : Relation.TransGen (WaitsFor wants owner) t u) :
    ∃ r r', wants t r ∧ owner r' = some u ∧ level r ≤ level r' ∧ (level r = n → level r' = n →
      Relation.TransGen (WaitsFor (fun t r => wants t r ∧ level r = n) owner) t u) := by
  induction hp with
  | single hw =>
    obtain ⟨r, hr, ho⟩ := hw
    exact ⟨r, r, hr, ho, Nat.le_refl _, fun hn _ => .single ⟨r, ⟨hr, hn⟩, ho⟩⟩
  | tail _ hw ih =>
    obtain ⟨r, r', hr, ho, hle, hconf⟩ := ih
    obtain ⟨r'', hr'', ho''⟩ := hw
    have hstep := h _ _ hr'' r' ho
    refine ⟨r, r'', hr, ho'', by omega, fun hn hn'' => ?_⟩
    exact .tail (hconf hn (by omega)) ⟨r'', ⟨hr'', hn''⟩, ho''⟩

/-- Nobody waits for himself but through locks of that level. -/
theorem InLevels.cycle (h : InLevels level n wants owner) {t : T}
    (hp : Relation.TransGen (WaitsFor wants owner) t t) :
    Relation.TransGen (WaitsFor (fun t r => wants t r ∧ level r = n) owner) t t := by
  obtain ⟨r, r', hr, ho, hle, hconf⟩ := h.chain hp
  have hstep := h t r hr r' ho
  exact hconf (by omega) (by omega)

end

section
variable {R : Type} [DecidableEq R]

theorem pairwise_idxOf {l : List R} (hn : l.Nodup) : l.Pairwise fun a b => l.idxOf a < l.idxOf b := by
  rw [List.pairwise_iff_getElem]
  intro i j hi hj hij
  rw [hn.idxOf_getElem i hi, hn.idxOf_getElem j hj]
  exact hij

theorem idxOf_lt_of_sublist {l past rest : List R} {r : R} (hn : l.Nodup)
    (hs : (past ++ r :: rest).Sublist l) {q : R}
    (hq : q ∈ past) : l.idxOf q < l.idxOf r :=
  (List.pairwise_append.mp ((pairwise_idxOf hn).sublist hs)).2.2 q hq r (List.mem_cons_self ..)

theorem eraseDups_new {past rest : List R} {r : R} (hr : r ∉ past) :
    ∃ rest', (past ++ r :: rest).eraseDups = past.eraseDups ++ r :: rest' := by
  have hremove : (r :: rest).removeAll past = r :: rest.removeAll past := by
    simp [List.removeAll, hr]
  rw [List.eraseDups_append, hremove, List.eraseDups_cons]
  exact ⟨_, rfl⟩

end

end Conc
