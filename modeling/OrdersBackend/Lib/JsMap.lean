import Mathlib.Data.List.Basic
import Mathlib.Data.List.Nodup

/-!
# Insertion-ordered maps

A `JsMap` lists its entries in the order in which their keys were first set;
setting a key again changes its value in place.
-/

namespace Conc

structure JsMap (κ ν : Type) where
  entries : List (κ × ν)
  nodup : (entries.map Prod.fst).Nodup

namespace JsMap

variable {κ ν : Type} [DecidableEq κ]

def empty : JsMap κ ν := ⟨[], List.nodup_nil⟩

def keys (m : JsMap κ ν) : List κ := m.entries.map Prod.fst

def get? (m : JsMap κ ν) (k : κ) : Option ν := (m.entries.find? fun e => e.1 = k).map Prod.snd

def has (m : JsMap κ ν) (k : κ) : Bool := (m.get? k).isSome

/-- The entries with `k` bound to `v`. -/
def setEntries (k : κ) (v : ν) : List (κ × ν) → List (κ × ν)
  | [] => [(k, v)]
  | e :: l => if e.1 = k then (k, v) :: l else e :: setEntries k v l

theorem setEntries_keys (k : κ) (v : ν) (l : List (κ × ν)) :
    (setEntries k v l).map Prod.fst = if k ∈ l.map Prod.fst then l.map Prod.fst else l.map Prod.fst ++ [k] := by
  induction l with
  | nil => simp [setEntries]
  | cons e l ih =>
    by_cases he : e.1 = k
    · simp [setEntries, he]
    · simp only [setEntries, he, if_false, List.map_cons, ih, List.mem_cons]
      by_cases hk : k ∈ l.map Prod.fst
      · simp [hk]
      · simp [hk, Ne.symm he]

theorem setEntries_nodup (k : κ) (v : ν) {l : List (κ × ν)} (h : (l.map Prod.fst).Nodup) :
    ((setEntries k v l).map Prod.fst).Nodup := by
  rw [setEntries_keys]
  split
  · exact h
  · rename_i hk
    exact List.nodup_append.mpr ⟨h, List.nodup_singleton k, fun a ha b hb e => by
      rw [List.mem_singleton] at hb
      exact hk (hb ▸ e ▸ ha)⟩

def set (m : JsMap κ ν) (k : κ) (v : ν) : JsMap κ ν :=
  ⟨setEntries k v m.entries, setEntries_nodup k v m.nodup⟩

/-- `new Map(pairs)`. -/
def ofList (l : List (κ × ν)) : JsMap κ ν := l.foldl (fun m e => m.set e.1 e.2) empty

theorem get?_empty (k : κ) : (empty : JsMap κ ν).get? k = none := rfl

theorem find?_setEntries (k k' : κ) (v : ν) (l : List (κ × ν)) :
    ((setEntries k v l).find? fun e => e.1 = k').map Prod.snd =
      if k = k' then some v else (l.find? fun e => e.1 = k').map Prod.snd := by
  induction l with
  | nil => by_cases h : k = k' <;> simp [setEntries, h]
  | cons e l ih =>
    by_cases he : e.1 = k
    · by_cases h : k = k' <;> simp [setEntries, he, h]
    · by_cases h' : e.1 = k'
      · have : k ≠ k' := fun hk => he (h'.trans hk.symm)
        rw [if_neg this, setEntries, if_neg he, List.find?_cons_of_pos (by simpa using h'),
          List.find?_cons_of_pos (by simpa using h')]
      · simp only [setEntries, he, if_false, List.find?_cons, h', decide_false, ih]

theorem get?_set (m : JsMap κ ν) (k k' : κ) (v : ν) :
    (m.set k v).get? k' = if k = k' then some v else m.get? k' :=
  find?_setEntries k k' v m.entries

theorem get?_set_self (m : JsMap κ ν) (k : κ) (v : ν) : (m.set k v).get? k = some v := by
  rw [get?_set, if_pos rfl]

theorem get?_set_ne (m : JsMap κ ν) {k k' : κ} (v : ν) (h : k ≠ k') : (m.set k v).get? k' = m.get? k' := by
  rw [get?_set, if_neg h]

theorem keys_set (m : JsMap κ ν) (k : κ) (v : ν) :
    (m.set k v).keys = if k ∈ m.keys then m.keys else m.keys ++ [k] :=
  setEntries_keys k v m.entries

theorem mem_keys_iff (m : JsMap κ ν) (k : κ) : k ∈ m.keys ↔ (m.get? k).isSome := by
  simp only [keys, get?, List.mem_map, Option.isSome_map, List.find?_isSome, decide_eq_true_eq]

theorem get?_eq_some_iff (m : JsMap κ ν) (k : κ) (v : ν) : m.get? k = some v ↔ (k, v) ∈ m.entries := by
  obtain ⟨l, hl⟩ := m
  unfold get?
  simp only
  induction l with
  | nil => simp
  | cons e l ih =>
    rw [List.map_cons, List.nodup_cons] at hl
    by_cases he : e.1 = k
    · have hk : (k, v) ∉ l := fun h => hl.1 (he ▸ List.mem_map_of_mem h)
      obtain ⟨k', v'⟩ := e
      simp only at he
      subst he
      simp [hk, eq_comm]
    · have : (k, v) ≠ e := fun h => he (by rw [← h])
      rw [List.find?_cons_of_neg (by simpa using he), ih hl.2, List.mem_cons, or_iff_right this]

theorem get?_eq_none_iff (m : JsMap κ ν) (k : κ) : m.get? k = none ↔ k ∉ m.keys := by
  rw [mem_keys_iff, Option.not_isSome_iff_eq_none]

theorem entries_set_of_get?_none (m : JsMap κ ν) {k : κ} (v : ν) (h : m.get? k = none) :
    (m.set k v).entries = m.entries ++ [(k, v)] := by
  rw [get?_eq_none_iff] at h
  obtain ⟨l, hl⟩ := m
  show setEntries k v l = l ++ [(k, v)]
  have hk : k ∉ l.map Prod.fst := h
  clear h hl
  induction l with
  | nil => rfl
  | cons e l ih =>
    rw [List.map_cons, List.mem_cons, not_or] at hk
    rw [setEntries, if_neg (Ne.symm hk.1), ih hk.2]
    rfl

theorem get?_ofList (l : List (κ × ν)) (hl : (l.map Prod.fst).Nodup) (k : κ) (v : ν) :
    (ofList l).get? k = some v ↔ (k, v) ∈ l := by
  have gen : ∀ (l : List (κ × ν)) (m : JsMap κ ν), (l.map Prod.fst).Nodup →
      (∀ e ∈ l, e.1 ∉ m.keys) →
      ((l.foldl (fun m e => m.set e.1 e.2) m).get? k = some v ↔ m.get? k = some v ∨ (k, v) ∈ l) := by
    intro l
    induction l with
    | nil => intro m _ _; simp
    | cons e l ih =>
      intro m hn hm
      rw [List.map_cons, List.nodup_cons] at hn
      have hfresh : ∀ e' ∈ l, e'.1 ∉ (m.set e.1 e.2).keys := by
        intro e' he' hk
        rw [mem_keys_iff, get?_set] at hk
        by_cases h : e.1 = e'.1
        · exact hn.1 (h ▸ List.mem_map_of_mem he')
        · rw [if_neg h, ← mem_keys_iff] at hk
          exact hm e' (List.mem_cons_of_mem _ he') hk
      rw [List.foldl_cons, ih _ hn.2 hfresh, get?_set, List.mem_cons]
      have hme : m.get? e.1 = none := by
        have := hm e (List.mem_cons_self ..)
        rwa [mem_keys_iff, Option.not_isSome_iff_eq_none] at this
      by_cases h : e.1 = k
      · obtain ⟨k', v'⟩ := e
        simp only at h hme
        subst h
        simp [hme, eq_comm]
      · have : (k, v) ≠ e := fun he => h (by rw [← he])
        rw [if_neg h, or_iff_right this]
  have := gen l empty hl (by simp [keys, empty])
  simpa [ofList, get?_empty] using this

theorem get?_ofList_map {ν' : Type} (f : ν → ν') (l : List (κ × ν)) (k : κ) :
    (ofList (l.map fun e => (e.1, f e.2))).get? k = ((ofList l).get? k).map f := by
  have gen : ∀ (l : List (κ × ν)) (m : JsMap κ ν) (m' : JsMap κ ν'), (∀ k, m'.get? k = (m.get? k).map f) →
      (((l.map fun e => (e.1, f e.2)).foldl (fun m e => m.set e.1 e.2) m').get? k =
        ((l.foldl (fun m e => m.set e.1 e.2) m).get? k).map f) := by
    intro l
    induction l with
    | nil => exact fun m m' hm => hm k
    | cons e l ih =>
      refine fun m m' hm => ih _ _ fun k' => ?_
      rw [get?_set, get?_set]
      split
      · rfl
      · exact hm k'
  exact gen l empty empty fun _ => rfl

theorem entries_ofList (l : List (κ × ν)) (hl : (l.map Prod.fst).Nodup) : (ofList l).entries = l := by
  have gen : ∀ (l : List (κ × ν)) (m : JsMap κ ν), ((m.entries ++ l).map Prod.fst).Nodup →
      (l.foldl (fun m e => m.set e.1 e.2) m).entries = m.entries ++ l := by
    intro l
    induction l with
    | nil => intro m _; simp
    | cons e l ih =>
      intro m hn
      have hnone : m.get? e.1 = none := by
        rw [get?_eq_none_iff]
        rw [List.map_append, List.nodup_append] at hn
        exact fun hk => hn.2.2 _ hk _ (by simp) rfl
      have hset := entries_set_of_get?_none m e.2 hnone
      rw [List.foldl_cons, ih _ (by rw [hset, List.append_assoc]; exact hn), hset, List.append_assoc]
      rfl
  exact gen l empty hl

theorem mem_of_get?_ofList {l : List (κ × ν)} {k : κ} {v : ν} (h : (ofList l).get? k = some v) : (k, v) ∈ l := by
  have gen : ∀ (l : List (κ × ν)) (m : JsMap κ ν),
      (l.foldl (fun m e => m.set e.1 e.2) m).get? k = some v → m.get? k = some v ∨ (k, v) ∈ l := by
    intro l
    induction l with
    | nil => intro m h; exact .inl h
    | cons e l ih =>
      intro m h
      rcases ih _ h with h | h
      · rw [get?_set] at h
        split at h
        · rename_i hk
          cases h
          exact .inr (List.mem_cons.mpr (.inl (by rw [← hk])))
        · exact .inl h
      · exact .inr (List.mem_cons_of_mem _ h)
  exact (gen l empty h).resolve_left nofun

/-- The same keys in the same order, bound to related values. -/
def Rel {ν' : Type} (R : ν → ν' → Prop) (m : JsMap κ ν) (m' : JsMap κ ν') : Prop :=
  List.Forall₂ (fun e e' => e.1 = e'.1 ∧ R e.2 e'.2) m.entries m'.entries

namespace Rel

variable {ν' : Type} {R : ν → ν' → Prop} {m : JsMap κ ν} {m' : JsMap κ ν'}
variable {l : List (κ × ν)} {l' : List (κ × ν')}

omit [DecidableEq κ] in
theorem map_fst (h : List.Forall₂ (fun e e' => e.1 = e'.1 ∧ R e.2 e'.2) l l') :
    l.map Prod.fst = l'.map Prod.fst := by
  induction h with
  | nil => rfl
  | cons he _ ih => rw [List.map_cons, List.map_cons, he.1, ih]

theorem find? (h : List.Forall₂ (fun e e' => e.1 = e'.1 ∧ R e.2 e'.2) l l') (k : κ) :
    Option.Rel R ((l.find? fun e => e.1 = k).map Prod.snd) ((l'.find? fun e => e.1 = k).map Prod.snd) := by
  induction h with
  | nil => exact .none
  | @cons e e' _ _ he _ ih =>
    by_cases hk : e.1 = k
    · rw [List.find?_cons_of_pos (by simpa using hk), List.find?_cons_of_pos (by simpa using he.1 ▸ hk)]
      exact .some he.2
    · rw [List.find?_cons_of_neg (by simpa using hk), List.find?_cons_of_neg (by simpa using he.1 ▸ hk)]
      exact ih

theorem setEntries (h : List.Forall₂ (fun e e' => e.1 = e'.1 ∧ R e.2 e'.2) l l') (k : κ) {v : ν} {v' : ν'}
    (hv : R v v') :
    List.Forall₂ (fun e e' => e.1 = e'.1 ∧ R e.2 e'.2) (JsMap.setEntries k v l) (JsMap.setEntries k v' l') := by
  induction h with
  | nil => exact .cons ⟨rfl, hv⟩ .nil
  | @cons e e' _ _ he hl ih =>
    by_cases hk : e.1 = k
    · rw [JsMap.setEntries, JsMap.setEntries, if_pos hk, if_pos (he.1 ▸ hk)]
      exact .cons ⟨rfl, hv⟩ hl
    · rw [JsMap.setEntries, JsMap.setEntries, if_neg hk, if_neg (he.1 ▸ hk)]
      exact .cons he ih

omit [DecidableEq κ] in
theorem keys_eq (h : Rel R m m') : m.keys = m'.keys := map_fst h

theorem get? (h : Rel R m m') (k : κ) : Option.Rel R (m.get? k) (m'.get? k) := find? h k

theorem getD (h : Rel R m m') (k : κ) {v : ν} {v' : ν'} (hv : R v v') :
    R ((m.get? k).getD v) ((m'.get? k).getD v') := by
  have hrel := h.get? k
  generalize m.get? k = o at hrel ⊢
  generalize m'.get? k = o' at hrel ⊢
  cases hrel with
  | some h => exact h
  | none => exact hv

theorem set (h : Rel R m m') (k : κ) {v : ν} {v' : ν'} (hv : R v v') : Rel R (m.set k v) (m'.set k v') :=
  setEntries h k hv

end Rel

end JsMap

end Conc
