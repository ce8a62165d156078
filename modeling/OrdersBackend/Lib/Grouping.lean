import Mathlib.Algebra.BigOperators.Group.List.Basic
import Mathlib.Algebra.BigOperators.Group.Finset.Basic
import Mathlib.Algebra.GroupWithZero.Nat
import Mathlib.Data.List.Dedup

/-!
# Counting by groups

The rows of `SELECT a, COUNT(*) ... GROUP BY a` come in no particular order:
any permutation of the values with how often each occurs.
-/

namespace Grouping

variable {α : Type} [DecidableEq α]

def counts (l : List α) : List (α × Nat) := l.dedup.map fun a => (a, l.count a)

def IsGrouped (l : List α) (rows : List (α × Nat)) : Prop := rows.Perm (counts l)

namespace IsGrouped

variable {l : List α} {rows : List (α × Nat)}

theorem keys_nodup (h : IsGrouped l rows) : (rows.map Prod.fst).Nodup := by
  have hkeys : (rows.map Prod.fst).Perm l.dedup := by
    simpa [counts, Function.comp_def] using h.map Prod.fst
  exact hkeys.nodup_iff.mpr (List.nodup_dedup l)

theorem mem_iff (h : IsGrouped l rows) (a : α) (n : Nat) : (a, n) ∈ rows ↔ 0 < n ∧ n = l.count a := by
  rw [List.Perm.mem_iff h, counts, List.mem_map]
  constructor
  · rintro ⟨a', ha', he⟩
    cases he
    exact ⟨List.count_pos_iff.mpr (List.mem_dedup.mp ha'), rfl⟩
  · rintro ⟨hpos, rfl⟩
    exact ⟨a, List.mem_dedup.mpr (List.count_pos_iff.mp hpos), rfl⟩

/-- The groups are all of the rows. -/
theorem sum_counts (h : IsGrouped l rows) : (rows.map Prod.snd).sum = l.length := by
  have hperm : (rows.map Prod.snd).Perm (l.dedup.map fun a => l.count a) := by
    simpa [counts, Function.comp_def] using h.map Prod.snd
  rw [hperm.sum_nat, List.sum_map_count_dedup_eq_length]

end IsGrouped

end Grouping
