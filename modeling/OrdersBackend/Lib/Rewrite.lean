import Mathlib.Data.List.Chain
import Mathlib.Data.List.DropRight

/-!
# Global replacements

What `s.replace(re, t)` does with a global regular expression that matches two
adjacent characters, a run of characters, or the runs at both ends. Each keeps
the characters it does not match, and is the identity on the lists that blocks
joined by single separators make.
-/

namespace Rewrite

variable {α : Type}

/-- `replace(/([p])([q])/g, '$1sep$2')`. -/
def insertBetween (p q : α → Bool) (sep : α) : List α → List α
  | [] => []
  | [a] => [a]
  | a :: b :: l =>
    if p a && q b then a :: sep :: b :: insertBetween p q sep l else a :: insertBetween p q sep (b :: l)

/-- `collapse` from within a run, or from outside of one. -/
def collapseFrom (p : α → Bool) (sep : α) : Bool → List α → List α
  | _, [] => []
  | inRun, a :: l =>
    if p a then
      if inRun then collapseFrom p sep true l else sep :: collapseFrom p sep true l
    else a :: collapseFrom p sep false l

/-- `replace(/[p]+/g, 'sep')`. -/
def collapse (p : α → Bool) (sep : α) (l : List α) : List α := collapseFrom p sep false l

/-- `replace(/^[p]+|[p]+$/g, '')`. -/
def trim (p : α → Bool) (l : List α) : List α := (l.dropWhile p).rdropWhile p

/-- Not both of two neighbours are separators. -/
def Spaced (sep a b : α) : Prop := a ≠ sep ∨ b ≠ sep

/-- Separators stand alone, between two other characters. -/
structure Tidy (sep : α) (l : List α) : Prop where
  spaced : l.IsChain (Spaced sep)
  head : l.head? ≠ some sep
  last : l.getLast? ≠ some sep

/-! ## What is kept -/

section
variable {p q w : α → Bool} {sep : α}

theorem filter_insertBetween (hsep : w sep = false) (l : List α) :
    (insertBetween p q sep l).filter w = l.filter w := by
  induction l using insertBetween.induct p q with
  | case1 => rfl
  | case2 a => rfl
  | case3 a b l h ih =>
    rw [insertBetween, if_pos h]
    simp only [List.filter_cons, hsep, Bool.false_eq_true, if_false, ih]
  | case4 a b l h ih =>
    rw [insertBetween, if_neg h, List.filter_cons, ih, ← List.filter_cons]

theorem filter_collapseFrom (hsep : w sep = false) (hp : ∀ a, p a = true → w a = false) (inRun : Bool)
    (l : List α) : (collapseFrom p sep inRun l).filter w = l.filter w := by
  induction l generalizing inRun with
  | nil => rfl
  | cons a l ih =>
    unfold collapseFrom
    by_cases ha : p a = true
    · cases inRun <;> simp [ha, ih, hsep, hp a ha]
    · simp [ha, List.filter_cons, ih]

theorem filter_collapse (hsep : w sep = false) (hp : ∀ a, p a = true → w a = false) (l : List α) :
    (collapse p sep l).filter w = l.filter w := filter_collapseFrom hsep hp false l

theorem filter_dropWhile (hp : ∀ a, p a = true → w a = false) (l : List α) :
    (l.dropWhile p).filter w = l.filter w := by
  induction l with
  | nil => rfl
  | cons a l ih =>
    by_cases ha : p a = true
    · simp [ha, ih, hp a ha]
    · simp [ha]

theorem filter_trim (hp : ∀ a, p a = true → w a = false) (l : List α) : (trim p l).filter w = l.filter w := by
  unfold trim List.rdropWhile
  rw [List.filter_reverse, filter_dropWhile hp, ← List.filter_reverse, List.reverse_reverse, filter_dropWhile hp]

theorem mem_collapseFrom {inRun : Bool} {l : List α} {a : α} (h : a ∈ collapseFrom p sep inRun l) :
    a = sep ∨ p a = false := by
  induction l generalizing inRun with
  | nil => cases h
  | cons b l ih =>
    unfold collapseFrom at h
    by_cases hb : p b = true
    · cases inRun with
      | true => exact ih (by simpa [hb] using h)
      | false =>
        simp only [hb, if_true, Bool.false_eq_true, if_false, List.mem_cons] at h
        exact h.elim .inl ih
    · simp only [hb, Bool.false_eq_true, if_false, List.mem_cons] at h
      rcases h with rfl | h
      · exact .inr (by simpa using hb)
      · exact ih h

/-! ## What comes out -/

theorem spaced_collapseFrom (hsep : p sep = true) {a : α} {inRun : Bool} (ha : inRun = true ∨ a ≠ sep) (l : List α) :
    (a :: collapseFrom p sep inRun l).IsChain (Spaced sep) := by
  induction l generalizing a inRun with
  | nil => exact .singleton a
  | cons b l ih =>
    unfold collapseFrom
    by_cases hb : p b = true
    · cases inRun with
      | true =>
        simp only [hb, if_true]
        exact ih (.inl rfl)
      | false =>
        simp only [hb, if_true, Bool.false_eq_true, if_false]
        exact .cons_cons (.inl (ha.resolve_left (by simp))) (ih (.inl rfl))
    · simp only [hb, Bool.false_eq_true, if_false]
      have hne : b ≠ sep := by
        rintro rfl
        exact hb hsep
      exact .cons_cons (.inr hne) (ih (.inr hne))

theorem spaced_collapse (hsep : p sep = true) (l : List α) : (collapse p sep l).IsChain (Spaced sep) := by
  cases l with
  | nil => exact .nil
  | cons a l =>
    unfold collapse collapseFrom
    by_cases ha : p a = true
    · simp only [ha, if_true, Bool.false_eq_true, if_false]
      exact spaced_collapseFrom hsep (.inl rfl) l
    · simp only [ha, Bool.false_eq_true, if_false]
      refine spaced_collapseFrom hsep (.inr ?_) l
      rintro rfl
      exact ha hsep

theorem trim_subblock (p : α → Bool) (l : List α) : trim p l <:+: l :=
  (List.rdropWhile_prefix p _).isInfix.trans (List.dropWhile_suffix p).isInfix

theorem tidy_trim (hp : p sep = true) {l : List α} (h : l.IsChain (Spaced sep)) : Tidy sep (trim p l) where
  spaced := h.infix (trim_subblock p l)
  head hh := by
    -- the head of a prefix is the head of what was left of the list
    obtain ⟨m, hm⟩ := List.rdropWhile_prefix p (l.dropWhile p)
    have hd : (l.dropWhile p).head? = some sep := by
      rw [← hm, List.head?_append]
      exact Option.or_eq_some_iff.mpr (.inl hh)
    have hnot := List.head?_dropWhile_not p l
    rw [hd] at hnot
    exact absurd hp (by simpa using hnot)
  last hl := by
    have hne : (l.dropWhile p).rdropWhile p ≠ [] := by
      intro he
      rw [trim, he] at hl
      cases hl
    have hnot := List.rdropWhile_last_not p _ hne
    rw [trim, List.getLast?_eq_some_getLast hne] at hl
    rw [Option.some.inj hl] at hnot
    exact hnot hp

end

theorem Tidy.map {β : Type} {f : α → β} {sep : α} {sep' : β} {l : List α} (hf : ∀ a, f a = sep' → a = sep)
    (h : Tidy sep l) : Tidy sep' (l.map f) where
  spaced := by
    rw [List.isChain_map]
    exact h.spaced.imp fun a b hab => hab.imp (mt (hf a)) (mt (hf b))
  head hh := by
    rw [List.head?_map] at hh
    obtain ⟨a, ha, he⟩ := Option.map_eq_some_iff.mp hh
    exact h.head (by rw [ha, hf a he])
  last hl := by
    rw [List.getLast?_map] at hl
    obtain ⟨a, ha, he⟩ := Option.map_eq_some_iff.mp hl
    exact h.last (by rw [ha, hf a he])

/-! ## What stays as it is -/

section
variable {p q : α → Bool} {sep : α} {l : List α}

theorem insertBetween_eq_self (h : ∀ a ∈ l, p a = false) : insertBetween p q sep l = l := by
  induction l using insertBetween.induct p q with
  | case1 => rfl
  | case2 a => rfl
  | case3 a b l hab ih =>
    rw [h a (List.mem_cons_self ..)] at hab
    cases hab
  | case4 a b l hab ih =>
    rw [insertBetween, if_neg hab, ih fun c hc => h c (List.mem_cons_of_mem _ hc)]

theorem collapseFrom_eq_self (hp : ∀ a ∈ l, p a = true → a = sep) {a : α} {inRun : Bool}
    (ha : inRun = true → a = sep) (h : (a :: l).IsChain (Spaced sep)) : collapseFrom p sep inRun l = l := by
  induction l generalizing a inRun with
  | nil => rfl
  | cons b l ih =>
    have hl : ∀ a ∈ l, p a = true → a = sep := fun c hc => hp c (List.mem_cons_of_mem _ hc)
    rw [List.isChain_cons_cons] at h
    unfold collapseFrom
    by_cases hb : p b = true
    · have hbs : b = sep := hp b (List.mem_cons_self ..) hb
      cases inRun with
      | true => exact absurd hbs (h.1.resolve_left (not_not.mpr (ha rfl)))
      | false =>
        simp only [hb, if_true, Bool.false_eq_true, if_false, ih hl (fun _ => hbs) h.2]
        rw [hbs]
    · simp only [hb, Bool.false_eq_true, if_false]
      rw [ih hl (by simp) h.2]

theorem collapse_eq_self (hp : ∀ a ∈ l, p a = true → a = sep) (h : l.IsChain (Spaced sep)) :
    collapse p sep l = l := by
  cases l with
  | nil => rfl
  | cons a l =>
    have hl : ∀ a ∈ l, p a = true → a = sep := fun c hc => hp c (List.mem_cons_of_mem _ hc)
    unfold collapse collapseFrom
    by_cases ha : p a = true
    · have has : a = sep := hp a (List.mem_cons_self ..) ha
      simp only [ha, if_true, Bool.false_eq_true, if_false, collapseFrom_eq_self hl (fun _ => has) h]
      rw [has]
    · simp only [ha, Bool.false_eq_true, if_false]
      rw [collapseFrom_eq_self hl (by simp) h]

theorem trim_eq_self (hp : ∀ a ∈ l, p a = true → a = sep) (h : Tidy sep l) : trim p l = l := by
  have hdrop : l.dropWhile p = l := by
    cases l with
    | nil => rfl
    | cons a l =>
      refine List.dropWhile_cons_of_neg fun ha => h.head ?_
      rw [List.head?_cons, hp a (List.mem_cons_self ..) ha]
  rw [trim, hdrop, List.rdropWhile_eq_self_iff]
  intro hne hlast
  refine h.last ?_
  rw [List.getLast?_eq_some_getLast hne, hp _ (List.getLast_mem hne) hlast]

/-- A tidy list is blocks without separators, joined by single ones. -/
theorem Tidy.exists_blocks : ∀ {l : List α}, Tidy sep l →
    ∃ blocks : List (List α), (∀ b ∈ blocks, b ≠ [] ∧ ∀ a ∈ b, a ≠ sep ∧ a ∈ l) ∧ l = [sep].intercalate blocks
  | [], _ => ⟨[], by simp, rfl⟩
  | [a], h => by
    refine ⟨[[a]], fun b hb => ?_, by simp⟩
    rw [List.mem_singleton.mp hb]
    refine ⟨by simp, fun a' ha' => ?_⟩
    rw [List.mem_singleton.mp ha']
    exact ⟨fun he => h.head (by rw [he]; rfl), List.mem_singleton_self a⟩
  | a :: b :: l, h => by
    have ha : a ≠ sep := fun he => h.head (by rw [he]; rfl)
    obtain ⟨_, hchain⟩ := List.isChain_cons_cons.mp h.spaced
    by_cases hb : b = sep
    · -- the block `[a]`, and the blocks of what follows the separator
      obtain rfl := hb.symm
      cases l with
      | nil => exact (h.last rfl).elim
      | cons c l =>
        obtain ⟨hc, hchain'⟩ := List.isChain_cons_cons.mp hchain
        have htidy : Tidy sep (c :: l) := by
          refine ⟨hchain', fun hh => ?_, by simpa using h.last⟩
          exact hc.resolve_left (by simp) (Option.some.inj hh)
        obtain ⟨blocks, hblocks, he⟩ := Tidy.exists_blocks htidy
        refine ⟨[a] :: blocks, fun x hx => ?_, ?_⟩
        · rcases List.mem_cons.mp hx with rfl | hx
          · refine ⟨by simp, fun a' ha' => ?_⟩
            rw [List.mem_singleton.mp ha']
            exact ⟨ha, List.mem_cons_self ..⟩
          · refine ⟨(hblocks x hx).1, fun a' ha' => ?_⟩
            obtain ⟨hne, hm⟩ := (hblocks x hx).2 a' ha'
            exact ⟨hne, List.mem_cons_of_mem _ (List.mem_cons_of_mem _ hm)⟩
        · have hnil : blocks ≠ [] := by
            rintro rfl
            cases he
          rw [List.intercalate_cons_of_ne_nil hnil, ← he]
          rfl
    · -- `a` joins the first block of the rest
      have htidy : Tidy sep (b :: l) := by
        refine ⟨hchain, fun hh => hb (Option.some.inj hh), by simpa using h.last⟩
      obtain ⟨blocks, hblocks, he⟩ := Tidy.exists_blocks htidy
      cases blocks with
      | nil => cases he
      | cons x blocks =>
        refine ⟨(a :: x) :: blocks, fun y hy => ?_, ?_⟩
        · rcases List.mem_cons.mp hy with rfl | hy
          · refine ⟨by simp, fun a' ha' => ?_⟩
            rcases List.mem_cons.mp ha' with rfl | ha'
            · exact ⟨ha, List.mem_cons_self ..⟩
            · obtain ⟨hne, hm⟩ := (hblocks x (List.mem_cons_self ..)).2 a' ha'
              exact ⟨hne, List.mem_cons_of_mem _ hm⟩
          · refine ⟨(hblocks y (List.mem_cons_of_mem _ hy)).1, fun a' ha' => ?_⟩
            obtain ⟨hne, hm⟩ := (hblocks y (List.mem_cons_of_mem _ hy)).2 a' ha'
            exact ⟨hne, List.mem_cons_of_mem _ hm⟩
        · rw [List.intercalate_cons_cons_left, ← he]

end

end Rewrite
