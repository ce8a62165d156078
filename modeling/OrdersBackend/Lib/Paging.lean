import Mathlib.Data.List.Perm.Basic
import Mathlib.Data.List.Sort

/-!
# Pages of a list

A reader who takes a list page by page gets all of it. Where the list grows
between the reads, in any place, the reader gets what was there at the first
read and perhaps some of it again.
-/

namespace Paging

variable {α β : Type}

def page (n k : Nat) (l : List α) : List α := (l.drop (k * n)).take n

theorem page_append_drop (n k : Nat) (l : List α) : page n k l ++ l.drop ((k + 1) * n) = l.drop (k * n) := by
  have hdrop : l.drop ((k + 1) * n) = (l.drop (k * n)).drop n := by rw [List.drop_drop, Nat.succ_mul]
  rw [page, hdrop, List.take_append_drop]

theorem map_page (f : α → β) (n k : Nat) (l : List α) : (page n k l).map f = page n k (l.map f) := by
  rw [page, page, List.map_take, List.map_drop]

theorem flatMap_page (n m : Nat) (l : List α) : (List.range m).flatMap (fun k => page n k l) = l.take (m * n) := by
  induction m with
  | zero => simp
  | succ m ih =>
    rw [List.range_succ, List.flatMap_append, ih, List.flatMap_singleton, page, Nat.succ_mul, List.take_add]

theorem drop_of_short {n k : Nat} {l : List α} (h : (page n k l).length < n) : l.drop ((k + 1) * n) = [] := by
  rw [page, List.length_take, List.length_drop] at h
  rw [List.drop_eq_nil_iff, Nat.succ_mul]
  omega

/-! ## Pages in an order of their own -/

theorem flatMap_perm {rows : Nat → List α} {n : Nat} {l : List α} (h : ∀ k, (rows k).Perm (page n k l)) (m : Nat) :
    ((List.range m).flatMap rows).Perm (l.take (m * n)) := by
  rw [← flatMap_page]
  exact List.Perm.flatMap_left _ fun k _ => h k

/-- Where the list is sorted, the pages only have to be sorted themselves. -/
theorem flatMap_pairwise {rows : Nat → List α} {n : Nat} {l : List α} {r : α → α → Prop} (hl : l.Pairwise r)
    (h : ∀ k, (rows k).Perm (page n k l)) (hr : ∀ k, (rows k).Pairwise r) (m : Nat) :
    ((List.range m).flatMap rows).Pairwise r := by
  induction m with
  | zero => exact .nil
  | succ m ih =>
    rw [List.range_succ, List.flatMap_append, List.flatMap_singleton, List.pairwise_append]
    refine ⟨ih, hr m, fun a ha b hb => ?_⟩
    rw [← List.take_append_drop (m * n) l, List.pairwise_append] at hl
    have hbefore : a ∈ l.take (m * n) := (flatMap_perm h m).subset ha
    have hafter : b ∈ l.drop (m * n) := List.take_subset _ _ ((h m).subset hb)
    exact hl.2.2 a hbefore b hafter

/-! ## A list that grows -/

variable {l : Nat → List α} {n : Nat} {x : α}

/-- The `k`-th page is taken of the list as it is at the `k`-th read: what the
reader has not got is still ahead. -/
theorem seen_or_ahead (hgrow : ∀ k, (l k).Sublist (l (k + 1))) (hx : x ∈ l 0) (m : Nat) :
    (∃ k < m, x ∈ page n k (l k)) ∨ x ∈ (l m).drop (m * n) := by
  induction m with
  | zero => exact .inr (by simpa using hx)
  | succ m ih =>
    rcases ih with ⟨k, hk, hseen⟩ | hahead
    · exact .inl ⟨k, Nat.lt_succ_of_lt hk, hseen⟩
    · rw [← page_append_drop n m, List.mem_append] at hahead
      rcases hahead with hpage | hlater
      · exact .inl ⟨m, Nat.lt_succ_self m, hpage⟩
      · exact .inr (((hgrow m).drop _).subset hlater)

theorem seen_of_short (hgrow : ∀ k, (l k).Sublist (l (k + 1))) (hx : x ∈ l 0) {m : Nat}
    (hshort : (page n m (l m)).length < n) : ∃ k ≤ m, x ∈ page n k (l k) := by
  rcases seen_or_ahead hgrow hx m with ⟨k, hk, hseen⟩ | hahead
  · exact ⟨k, Nat.le_of_lt hk, hseen⟩
  · rw [← page_append_drop n m, drop_of_short hshort, List.append_nil] at hahead
    exact ⟨m, Nat.le_refl m, hahead⟩

/-! ## A sorted list -/

section
variable (r : α → α → Prop) [DecidableRel r] [Std.Total r] [IsTrans α r] [Std.Antisymm r]

theorem insertionSort_sublist {l l' : List α} (hn : l.Nodup) (hsub : l ⊆ l') :
    (l.insertionSort r).Sublist (l'.insertionSort r) := by
  have hperm : List.Subperm (l.insertionSort r) (l'.insertionSort r) :=
    ((List.perm_insertionSort r l).subperm.trans (List.subperm_of_subset hn hsub)).trans
      (List.perm_insertionSort r l').symm.subperm
  exact List.sublist_of_subperm_of_pairwise hperm (List.pairwise_insertionSort r l)
    (List.pairwise_insertionSort r l')

end

end Paging
