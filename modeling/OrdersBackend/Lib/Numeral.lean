import Mathlib.Algebra.Ring.Rat

/-!
# Numerals in strings

The value of a string as ECMAScript converts it to a number: blanks around it
do not count, nothing is zero, and what is no numeral has no value. A value is
the rational the numeral denotes; infinities are left out, and it is not rounded.
-/

namespace Numeral

def isBlank (c : Char) : Bool :=
  c.toNat ∈ [9, 10, 11, 12, 13, 32, 160, 5760, 8232, 8233, 8239, 8287, 12288, 65279] ||
    8192 ≤ c.toNat && c.toNat ≤ 8202

def trim (l : List Char) : List Char := ((l.dropWhile isBlank).reverse.dropWhile isBlank).reverse

def digit? (base : Nat) (c : Char) : Option Nat :=
  let d :=
    if c.isDigit then some (c.toNat - 48)
    else if 97 ≤ c.toLower.toNat && c.toLower.toNat ≤ 102 then some (c.toLower.toNat - 87)
    else none
  d.filter (· < base)

/-- Any number of digits, and nothing else. -/
def digits? (base : Nat) (l : List Char) : Option Nat :=
  l.foldlM (fun n c => (digit? base c).map (base * n + ·)) 0

def natural? (base : Nat) (l : List Char) : Option Nat := if l.isEmpty then none else digits? base l

/-- An unsigned numeral, or one with a sign. -/
def signed {α : Type} [Neg α] (f : List Char → Option α) : List Char → Option α
  | '+' :: l => f l
  | '-' :: l => (f l).map (- ·)
  | l => f l

def scale (n : Nat) (e : Int) : Rat := if 0 ≤ e then (n * 10 ^ e.toNat : Nat) else mkRat n (10 ^ (-e).toNat)

/-- `DecimalDigits [. DecimalDigits]`, as digits and how many of them follow the point. -/
def mantissa? (l : List Char) : Option (Nat × Nat) :=
  match l.span (· ≠ '.') with
  | (whole, []) => (natural? 10 whole).map (·, 0)
  | (whole, _ :: fraction) => (natural? 10 (whole ++ fraction)).map (·, fraction.length)

def exponent? : List Char → Option Int
  | [] => some 0
  | _ :: l => signed (fun l => (natural? 10 l).map Int.ofNat) l

def decimal? (l : List Char) : Option Rat :=
  let (m, e) := l.span fun c => c ≠ 'e' && c ≠ 'E'
  match mantissa? m, exponent? e with
  | some (n, places), some e => some (scale n (e - places))
  | _, _ => none

def literal? : List Char → Option Rat
  | [] => some 0
  | '0' :: c :: l =>
    match c.toLower with
    | 'x' => (natural? 16 l).map (↑·)
    | 'o' => (natural? 8 l).map (↑·)
    | 'b' => (natural? 2 l).map (↑·)
    | _ => decimal? ('0' :: c :: l)
  | l => signed decimal? l

def value? (s : String) : Option Rat := literal? (trim s.toList)

example : value? " -1.5e1 " = some (-15) := by decide +kernel

end Numeral
