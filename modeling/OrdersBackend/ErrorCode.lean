import OrdersBackend.Files
import OrdersBackend.Lib.Rewrite

/-!
# Error codes

`toErrorCode` of `AllExceptionsFilter`, which makes the code of a framework
exception out of its name. A string is the list of its UTF-16 code units, as
the regular expressions without the `u` flag see it.
-/

namespace OrdersBackend

open Rewrite

abbrev CodeUnit := UInt16

namespace CodeUnit

def isLower (c : CodeUnit) : Bool := 97 ≤ c && c ≤ 122

def isUpper (c : CodeUnit) : Bool := 65 ≤ c && c ≤ 90

def isDigit (c : CodeUnit) : Bool := 48 ≤ c && c ≤ 57

/-- `[a-zA-Z0-9]`. -/
def isAlphanumeric (c : CodeUnit) : Bool := isLower c || isUpper c || isDigit c

def underscore : CodeUnit := 95

/-- `toUpperCase` of an ASCII character. -/
def toUpper (c : CodeUnit) : CodeUnit := if isLower c then c - 32 else c

end CodeUnit

open CodeUnit

/-- Nothing but ASCII is left when `toUpperCase` is called. -/
def toErrorCode (value : List CodeUnit) : List CodeUnit :=
  (trim (· == underscore)
    (collapse (fun c => !isAlphanumeric c) underscore
      (insertBetween isLower isUpper underscore value))).map toUpper

/-! ## Code units -/

theorem isAlphanumeric_underscore : isAlphanumeric underscore = false := by decide

theorem toUpper_of_not_lower {c : CodeUnit} (h : isLower c = false) : toUpper c = c := by
  unfold toUpper
  rw [h]
  rfl

theorem isUpper_toUpper {c : CodeUnit} (h : isLower c = true) : isUpper (toUpper c) = true := by
  have hc : toUpper c = c - 32 := by
    unfold toUpper
    rw [if_pos h]
  simp only [isLower, Bool.and_eq_true, decide_eq_true_eq, UInt16.le_iff_toNat_le, UInt16.reduceToNat] at h
  have hsub : (c - 32).toNat = c.toNat - 32 :=
    UInt16.toNat_sub_of_le c 32 (UInt16.le_iff_toNat_le.mpr (by simp only [UInt16.reduceToNat]; omega))
  simp only [hc, isUpper, Bool.and_eq_true, decide_eq_true_eq, UInt16.le_iff_toNat_le, UInt16.reduceToNat, hsub]
  omega

/-- A character of an error code, but for the underscores. -/
def isCode (c : CodeUnit) : Bool := isUpper c || isDigit c

theorem isCode_toUpper {c : CodeUnit} (h : isAlphanumeric c = true) : isCode (toUpper c) = true := by
  by_cases hl : isLower c = true
  · simp [isCode, isUpper_toUpper hl]
  · rw [toUpper_of_not_lower (by simpa using hl)]
    simpa [isAlphanumeric, isCode, hl] using h

theorem not_lower_of_code {c : CodeUnit} (h : isCode c = true) : isLower c = false := by
  simp only [isCode, isUpper, isDigit, isLower, Bool.or_eq_true, Bool.and_eq_true, decide_eq_true_eq,
    UInt16.le_iff_toNat_le, UInt16.reduceToNat, Bool.and_eq_false_iff, decide_eq_false_iff_not] at h ⊢
  omega

theorem alphanumeric_of_code {c : CodeUnit} (h : isCode c = true) : isAlphanumeric c = true := by
  simp only [isCode, Bool.or_eq_true] at h
  simp only [isAlphanumeric, Bool.or_eq_true]
  exact h.elim (fun h => .inl (.inr h)) .inr

theorem ne_underscore_of_alphanumeric {c : CodeUnit} (h : isAlphanumeric c = true) : c ≠ underscore := by
  rintro rfl
  rw [isAlphanumeric_underscore] at h
  cases h

theorem eq_underscore_of_toUpper {c : CodeUnit} (h : toUpper c = underscore) : c = underscore := by
  by_cases hl : isLower c = true
  · have hcode : isCode (toUpper c) = true := by simp [isCode, isUpper_toUpper hl]
    exact absurd h (ne_underscore_of_alphanumeric (alphanumeric_of_code hcode))
  · rwa [toUpper_of_not_lower (by simpa using hl)] at h

/-! ## The stages -/

/-- What is left before `toUpperCase`. -/
def errorWords (value : List CodeUnit) : List CodeUnit :=
  trim (· == underscore)
    (collapse (fun c => !isAlphanumeric c) underscore (insertBetween isLower isUpper underscore value))

theorem toErrorCode_eq (value : List CodeUnit) : toErrorCode value = (errorWords value).map toUpper := rfl

theorem filter_errorWords (value : List CodeUnit) :
    (errorWords value).filter isAlphanumeric = value.filter isAlphanumeric := by
  have hunderscore : ∀ c : CodeUnit, (c == underscore) = true → isAlphanumeric c = false := by
    intro c hc
    rw [eq_of_beq hc]
    exact isAlphanumeric_underscore
  have hrest : ∀ c : CodeUnit, (!isAlphanumeric c) = true → isAlphanumeric c = false := by simp
  unfold errorWords
  rw [filter_trim hunderscore, filter_collapse isAlphanumeric_underscore hrest,
    filter_insertBetween isAlphanumeric_underscore]

theorem tidy_errorWords (value : List CodeUnit) : Tidy underscore (errorWords value) :=
  tidy_trim (by simp) (spaced_collapse (by simp [isAlphanumeric_underscore]) _)

theorem mem_errorWords {value : List CodeUnit} {c : CodeUnit} (h : c ∈ errorWords value) :
    c = underscore ∨ isAlphanumeric c = true := by
  have hm := mem_collapseFrom ((trim_subblock _ _).subset h)
  simpa using hm

theorem tidy_toErrorCode (value : List CodeUnit) : Tidy underscore (toErrorCode value) :=
  (tidy_errorWords value).map fun _ => eq_underscore_of_toUpper

theorem mem_toErrorCode {value : List CodeUnit} {c : CodeUnit} (h : c ∈ toErrorCode value) :
    c = underscore ∨ isCode c = true := by
  obtain ⟨b, hb, rfl⟩ := List.mem_map.mp h
  rcases mem_errorWords hb with rfl | hb
  · exact .inl (by decide)
  · exact .inr (isCode_toUpper hb)

theorem filter_toErrorCode (value : List CodeUnit) :
    (toErrorCode value).filter (· != underscore) = (value.filter isAlphanumeric).map toUpper := by
  rw [toErrorCode_eq, List.filter_map, ← filter_errorWords]
  congr 1
  refine List.filter_congr fun c hc => ?_
  rcases mem_errorWords hc with rfl | hc
  · decide
  · have hne := mt eq_underscore_of_toUpper (ne_underscore_of_alphanumeric hc)
    simp [hc, hne]

theorem toErrorCode_eq_self {l : List CodeUnit} (hmem : ∀ c ∈ l, c = underscore ∨ isCode c = true)
    (h : Tidy underscore l) : toErrorCode l = l := by
  have hlower : ∀ c ∈ l, isLower c = false := by
    intro c hc
    rcases hmem c hc with rfl | hcode
    · decide
    · exact not_lower_of_code hcode
  have hrest : ∀ c ∈ l, (!isAlphanumeric c) = true → c = underscore := by
    intro c hc hn
    refine (hmem c hc).resolve_right fun hcode => ?_
    rw [alphanumeric_of_code hcode] at hn
    cases hn
  unfold toErrorCode
  rw [insertBetween_eq_self hlower, collapse_eq_self hrest h.spaced, trim_eq_self (fun c _ hc => eq_of_beq hc) h]
  exact (List.map_congr_left fun c hc => toUpper_of_not_lower (hlower c hc)).trans (List.map_id l)

/-! ## Every code -/

/-- A code is blocks of capitals and digits, joined by single underscores; its
blocks are the letters and digits of the name; and it is its own code. -/
theorem toErrorCode_normalizes (value : List CodeUnit) :
    (∃ blocks : List (List CodeUnit), (∀ b ∈ blocks, b ≠ [] ∧ ∀ c ∈ b, isUpper c = true ∨ isDigit c = true) ∧
      toErrorCode value = [underscore].intercalate blocks) ∧
    (toErrorCode value).filter (· != underscore) = (value.filter isAlphanumeric).map toUpper ∧
    toErrorCode (toErrorCode value) = toErrorCode value := by
  refine ⟨?_, filter_toErrorCode value, toErrorCode_eq_self (fun c => mem_toErrorCode) (tidy_toErrorCode value)⟩
  obtain ⟨blocks, hblocks, he⟩ := (tidy_toErrorCode value).exists_blocks
  refine ⟨blocks, fun b hb => ⟨(hblocks b hb).1, fun c hc => ?_⟩, he⟩
  obtain ⟨hne, hm⟩ := (hblocks b hb).2 c hc
  simpa [isCode] using (mem_toErrorCode hm).resolve_left hne

/-! ## Strings -/

def utf16 (c : Char) : List CodeUnit :=
  if c.toNat < 0x10000 then [c.toNat.toUInt16]
  else [(0xD800 + (c.toNat - 0x10000) / 0x400).toUInt16, (0xDC00 + (c.toNat - 0x10000) % 0x400).toUInt16]

def codeUnits (s : String) : List CodeUnit := s.toList.flatMap utf16

end OrdersBackend
