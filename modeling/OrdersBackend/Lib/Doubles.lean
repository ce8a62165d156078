import Mathlib.Data.Int.Log
import Mathlib.Data.Rat.Floor
import Mathlib.Tactic.Linarith
import Mathlib.Tactic.Positivity
import OrdersBackend.Lib.Numeral

/-!
# Doubles

The numbers of ECMAScript, which are those of IEEE 754 `binary64`: multiples of
a power of two by an integer of 53 bits, two infinities, and no number. What is
computed is rounded to the nearest double, and halfway to the even one. The two
zeros are one here: no operation below tells them apart.
-/

namespace Binary64

/-! ## Rounding -/

/-- The nearest integer, and halfway the even one. -/
def roundEven (x : ℚ) : ℤ :=
  let low := ⌊x⌋
  if x - low < 1 / 2 then low
  else if 1 / 2 < x - low then low + 1
  else if low % 2 = 0 then low
  else low + 1

/-- The distance between the doubles next to `q`. -/
def ulp (q : ℚ) : ℚ := 2 ^ max (Int.log 2 |q| - 52) (-1074)

def nearest (q : ℚ) : ℚ := roundEven (q / ulp q) * ulp q

/-- A multiple of `2 ^ e` by an integer of 53 bits. -/
def Scaled (q : ℚ) : Prop := ∃ m e : ℤ, |m| ≤ 2 ^ 53 ∧ -1074 ≤ e ∧ q = m * 2 ^ e

example : nearest (2 ^ 53 + 1) = 2 ^ 53 := by decide +kernel

theorem roundEven_cases (x : ℚ) :
    (roundEven x = ⌊x⌋ ∧ x - ⌊x⌋ ≤ 1 / 2) ∨ (roundEven x = ⌊x⌋ + 1 ∧ 1 / 2 ≤ x - ⌊x⌋) := by
  unfold roundEven
  simp only
  split
  · exact .inl ⟨rfl, by linarith⟩
  · split
    · exact .inr ⟨rfl, by linarith⟩
    · split
      · exact .inl ⟨rfl, by linarith⟩
      · exact .inr ⟨rfl, by linarith⟩

theorem le_roundEven {n : ℤ} {x : ℚ} (h : n ≤ x) : n ≤ roundEven x := by
  have hfloor : n ≤ ⌊x⌋ := Int.le_floor.mpr h
  rcases roundEven_cases x with ⟨he, _⟩ | ⟨he, _⟩ <;> omega

theorem roundEven_le {n : ℤ} {x : ℚ} (h : x ≤ n) : roundEven x ≤ n := by
  have hfloor : (⌊x⌋ : ℚ) ≤ x := Int.floor_le x
  rcases roundEven_cases x with ⟨he, _⟩ | ⟨he, hhalf⟩
  · rw [he]
    exact_mod_cast hfloor.trans h
  · have hlt : (⌊x⌋ : ℚ) < n := by linarith
    rw [he]
    exact_mod_cast hlt

theorem roundEven_intCast (n : ℤ) : roundEven n = n :=
  Int.le_antisymm (roundEven_le (le_refl _)) (le_roundEven (le_refl _))

theorem abs_roundEven_sub_le (x : ℚ) : |(roundEven x : ℚ) - x| ≤ 1 / 2 := by
  have hle : (⌊x⌋ : ℚ) ≤ x := Int.floor_le x
  have hlt : x < ⌊x⌋ + 1 := Int.lt_floor_add_one x
  rw [abs_le]
  rcases roundEven_cases x with ⟨he, h⟩ | ⟨he, h⟩
  · rw [he]
    constructor <;> linarith
  · rw [he]
    push_cast
    constructor <;> linarith

theorem ulp_pos (q : ℚ) : 0 < ulp q := zpow_pos (by norm_num) _

theorem abs_nearest_sub_le (q : ℚ) : |nearest q - q| ≤ ulp q / 2 := by
  have hpos := ulp_pos q
  have hsplit : nearest q - q = (roundEven (q / ulp q) - q / ulp q) * ulp q := by
    rw [sub_mul, div_mul_cancel₀ q hpos.ne']
    rfl
  rw [hsplit, abs_mul, abs_of_pos hpos]
  have := mul_le_mul_of_nonneg_right (abs_roundEven_sub_le (q / ulp q)) hpos.le
  linarith

theorem abs_div_ulp_lt (q : ℚ) : |q / ulp q| < 2 ^ 53 := by
  rw [abs_div, abs_of_pos (ulp_pos q), div_lt_iff₀ (ulp_pos q)]
  have hlog : |q| < 2 ^ (Int.log 2 |q| + 1) := by exact_mod_cast Int.lt_zpow_succ_log_self (by norm_num) |q|
  refine hlog.trans_le ?_
  rw [ulp, ← zpow_natCast, ← zpow_add₀ (by norm_num)]
  exact zpow_le_zpow_right₀ (by norm_num) (by push_cast; omega)

theorem nearest_scaled (q : ℚ) : Scaled (nearest q) := by
  obtain ⟨hlow, hhigh⟩ := abs_lt.mp (abs_div_ulp_lt q)
  refine ⟨roundEven (q / ulp q), _, abs_le.mpr ⟨?_, ?_⟩, le_max_right _ _, rfl⟩
  · exact le_roundEven (by push_cast; exact hlow.le)
  · exact roundEven_le (by push_cast; exact hhigh.le)

theorem nearest_of_dvd {q : ℚ} {n : ℤ} (h : q = n * ulp q) : nearest q = q := by
  have hdiv : q / ulp q = n := (div_eq_iff (ulp_pos q).ne').mpr h
  rw [nearest, hdiv, roundEven_intCast, ← h]

/-- A number with 53 bits is not rounded. -/
theorem nearest_of_scaled {q : ℚ} (h : Scaled q) : nearest q = q := by
  obtain ⟨m, e, hm, he, hq⟩ := h
  by_cases hzero : q = 0
  · exact nearest_of_dvd (n := 0) (by simp [hzero])
  have hulp : ulp q = 2 ^ max (Int.log 2 |q| - 52) (-1074) := rfl
  obtain hle | hlt := le_or_gt (max (Int.log 2 |q| - 52) (-1074)) e
  · -- the unit of `q` divides the unit it is given in
    obtain ⟨k, hk⟩ := Int.eq_ofNat_of_zero_le (sub_nonneg.mpr hle)
    refine nearest_of_dvd (n := m * 2 ^ k) ?_
    have hpow : (2 : ℚ) ^ e = 2 ^ k * ulp q := by
      rw [hulp, ← zpow_natCast, ← zpow_add₀ (by norm_num)]
      congr 1
      omega
    rw [hq] at hpow ⊢
    push_cast
    rw [mul_assoc, ← hpow]
  · -- only `2 ^ 53` units have a larger unit, which is twice as large
    have hexp : max (Int.log 2 |q| - 52) (-1074) = Int.log 2 |q| - 52 := by omega
    have hlow : (2 : ℚ) ^ Int.log 2 |q| ≤ |q| := by
      exact_mod_cast Int.zpow_log_le_self (by norm_num) (abs_pos.mpr hzero)
    have habs : |q| = |m| * 2 ^ e := by
      rw [hq, abs_mul, abs_of_pos (zpow_pos (by norm_num : (0 : ℚ) < 2) e)]
      push_cast
      rfl
    have hm' : ((|m| : ℤ) : ℚ) ≤ 2 ^ (53 : ℤ) := by exact_mod_cast hm
    have hpow : (2 : ℚ) ^ Int.log 2 |q| ≤ 2 ^ (53 + e) := by
      rw [zpow_add₀ (by norm_num)]
      refine hlow.trans ?_
      rw [habs]
      exact mul_le_mul_of_nonneg_right (by exact_mod_cast hm') (zpow_pos (by norm_num) _).le
    have hlog : Int.log 2 |q| = 53 + e := by
      have := (zpow_le_zpow_iff_right₀ (by norm_num : (1 : ℚ) < 2)).mp hpow
      omega
    have hfull : |m| = 2 ^ 53 := by
      refine le_antisymm hm ?_
      rw [hlog, habs, zpow_add₀ (by norm_num)] at hlow
      have := le_of_mul_le_mul_right hlow (zpow_pos (by norm_num) e)
      exact_mod_cast this
    have hunit : ulp q = 2 * 2 ^ e := by
      rw [hulp, hexp, hlog, show (53 + e - 52 : ℤ) = 1 + e by omega, zpow_add₀ (by norm_num), zpow_one]
    have hhalf : m = 2 * (m / 2) := by
      rcases abs_eq (by norm_num) |>.mp hfull with rfl | rfl <;> rfl
    refine nearest_of_dvd (n := m / 2) ?_
    rw [hunit]
    nth_rewrite 1 [hq]
    rw [hhalf]
    push_cast
    rw [show (2 * (m / 2 : ℤ) / 2 : ℤ) = m / 2 by omega]
    ring

theorem scaled_intCast {n : ℤ} (h : |n| ≤ 2 ^ 53) : Scaled n := ⟨n, 0, h, by norm_num, by simp⟩

theorem le_nearest {q : ℚ} (h : 2 ^ 53 ≤ q) : 2 ^ 53 ≤ nearest q := by
  have hpos : 0 < q := lt_of_lt_of_le (by norm_num) h
  have hlow : (2 : ℚ) ^ Int.log 2 q ≤ q := by exact_mod_cast Int.zpow_log_le_self (by norm_num) hpos
  have hlog : 53 ≤ Int.log 2 q := by
    refine (Int.zpow_le_iff_le_log (by norm_num) hpos).mp ?_
    exact_mod_cast h
  have hulp : ulp q = 2 ^ (Int.log 2 q - 52) := by
    rw [ulp, abs_of_pos hpos, max_eq_left (by omega)]
  have hunits : ((2 ^ 52 : ℤ) : ℚ) ≤ q / ulp q := by
    rw [le_div_iff₀ (ulp_pos q), hulp]
    have hsplit : (2 : ℚ) ^ Int.log 2 q = 2 ^ (52 : ℤ) * 2 ^ (Int.log 2 q - 52) := by
      rw [← zpow_add₀ (by norm_num)]
      congr 1
      omega
    rw [hsplit] at hlow
    exact_mod_cast hlow
  have hround : ((2 ^ 52 : ℤ) : ℚ) ≤ roundEven (q / ulp q) := by exact_mod_cast le_roundEven hunits
  calc (2 : ℚ) ^ 53 = (2 ^ 52 : ℤ) * 2 := by norm_num
    _ ≤ roundEven (q / ulp q) * ulp q := by
      refine mul_le_mul hround ?_ (by norm_num) (le_trans (by norm_num) hround)
      rw [hulp]
      calc (2 : ℚ) = 2 ^ (1 : ℤ) := (zpow_one 2).symm
        _ ≤ 2 ^ (Int.log 2 q - 52) := zpow_le_zpow_right₀ (by norm_num) (by omega)

theorem Scaled.exists_int {q : ℚ} (h : Scaled q) : ∃ n : ℤ, q * 2 ^ 1074 = n := by
  obtain ⟨m, e, _, he, rfl⟩ := h
  obtain ⟨k, hk⟩ := Int.eq_ofNat_of_zero_le (show 0 ≤ e + 1074 by omega)
  refine ⟨m * 2 ^ k, ?_⟩
  rw [mul_assoc, ← zpow_natCast, ← zpow_add₀ (by norm_num)]
  push_cast
  rw [← zpow_natCast]
  congr 2

/-! ## Numbers -/

/-- A finite double. -/
structure Double where
  val : ℚ
  scaled : Scaled val
  bounded : |val| < 2 ^ 1024
  deriving DecidableEq, Repr

inductive Number where
  | nan
  | inf (negative : Bool)
  | fin (d : Double)
  deriving DecidableEq, Repr

theorem natCast_bounded {n : ℕ} (h : n ≤ 2 ^ 53) : |(n : ℚ)| < 2 ^ 1024 := by
  rw [abs_of_nonneg (Nat.cast_nonneg n)]
  have hle : (n : ℚ) ≤ 2 ^ 53 := by exact_mod_cast h
  exact hle.trans_lt (pow_lt_pow_right₀ one_lt_two (by norm_num))

theorem scaled_natCast {n : ℕ} (h : n ≤ 2 ^ 53) : Scaled n := by
  refine scaled_intCast (n := n) ?_
  rw [abs_of_nonneg (Int.natCast_nonneg n)]
  exact_mod_cast h

def Double.ofNat (n : ℕ) (h : n ≤ 2 ^ 53) : Double := ⟨n, scaled_natCast h, natCast_bounded h⟩

namespace Number

/-- The double next to `q`; what is too large for one is an infinity. -/
def round (q : ℚ) : Number :=
  if h : |nearest q| < 2 ^ 1024 then .fin ⟨nearest q, nearest_scaled q, h⟩ else .inf (q < 0)

/-- A natural number; up to `2 ^ 53` there is nothing to round. -/
def ofNat (n : ℕ) : Number :=
  if h : n ≤ 2 ^ 53 then .fin (.ofNat n h) else round n

instance (n : ℕ) : OfNat Number n := ⟨ofNat n⟩

def add : Number → Number → Number
  | .fin a, .fin b => round (a.val + b.val)
  | .inf a, .inf b => if a = b then .inf a else .nan
  | .inf a, .fin _ => .inf a
  | .fin _, .inf b => .inf b
  | _, _ => .nan

def mul : Number → Number → Number
  | .fin a, .fin b => round (a.val * b.val)
  | .inf a, .inf b => .inf (a != b)
  | .inf a, .fin b => if b.val = 0 then .nan else .inf (a != decide (b.val < 0))
  | .fin a, .inf b => if a.val = 0 then .nan else .inf (b != decide (a.val < 0))
  | _, _ => .nan

/-- `a < b`; no comparison with `NaN` holds. -/
def lt : Number → Number → Bool
  | .fin a, .fin b => a.val < b.val
  | .inf true, .fin _ => true
  | .inf true, .inf false => true
  | .fin _, .inf false => true
  | _, _ => false

/-- `Math.round`: the nearest integer, and halfway the larger one. -/
def mathRound : Number → Number
  | .fin d => round ⌊d.val + 1 / 2⌋
  | n => n

/-- `ToNumber` of a string. -/
def ofString (s : String) : Number :=
  let l := Numeral.trim s.toList
  if l = "Infinity".toList || l = "+Infinity".toList then .inf false
  else if l = "-Infinity".toList then .inf true
  else match Numeral.literal? l with
    | some q => round q
    | none => .nan

example : (ofString " -1e400 ").lt 3 = true := by decide +kernel

theorem ext_val {a b : Double} (h : a.val = b.val) : a = b := by
  cases a
  cases b
  cases h
  rfl

theorem round_of_scaled {d : Double} : round d.val = .fin d := by
  have hval := nearest_of_scaled d.scaled
  rw [round, dif_pos (by rw [hval]; exact d.bounded)]
  exact congrArg Number.fin (ext_val hval)

/-! ## Going up -/

/-- At least as many as the doubles above `d`. -/
def above (d : Double) : ℕ := ⌈(2 ^ 1024 - d.val) * 2 ^ 1074⌉₊

theorem above_lt {d d' : Double} (h : d.val < d'.val) : above d' < above d := by
  obtain ⟨n, hn⟩ := d.scaled.exists_int
  obtain ⟨n', hn'⟩ := d'.scaled.exists_int
  have hpos : (0 : ℚ) < 2 ^ 1074 := by positivity
  have hint : (n : ℚ) + 1 ≤ n' := by
    have hlt := mul_lt_mul_of_pos_right h hpos
    rw [hn, hn'] at hlt
    exact_mod_cast hlt
  have hgap : (2 ^ 1024 - d'.val) * 2 ^ 1074 + 1 ≤ (2 ^ 1024 - d.val) * 2 ^ 1074 := by
    have hsub : ∀ x : ℚ, x - n' + 1 ≤ x - n := fun x => by linarith
    rw [sub_mul, sub_mul, hn, hn']
    exact hsub _
  have hnonneg : 0 ≤ (2 ^ 1024 - d'.val) * 2 ^ 1074 :=
    mul_nonneg (sub_nonneg.mpr (abs_lt.mp d'.bounded).2.le) hpos.le
  have hceil := Nat.ceil_mono hgap
  rw [Nat.ceil_add_one hnonneg] at hceil
  exact hceil

theorem above_le (d : Double) : above d ≤ ⌈((2 : ℚ) ^ 1024 + 2 ^ 1024) * 2 ^ 1074⌉₊ := by
  have hle : 2 ^ 1024 - d.val ≤ 2 ^ 1024 + 2 ^ 1024 := by
    rw [sub_eq_add_neg]
    exact add_le_add_right (neg_lt.mp (abs_lt.mp d.bounded).1).le _
  exact Nat.ceil_mono (mul_le_mul_of_nonneg_right hle (by positivity))

/-- At least as many as the numbers above `a`, so there is no going up for ever. -/
def room : Number → ℕ
  | .nan => 0
  | .inf false => 0
  | .inf true => 2 + ⌈((2 : ℚ) ^ 1024 + 2 ^ 1024) * 2 ^ 1074⌉₊
  | .fin d => 1 + above d

theorem room_lt {a b : Number} (h : a.lt b = true) : b.room < a.room := by
  rcases a with _ | (_ | _) | d <;> rcases b with _ | (_ | _) | d' <;> try cases h
  case inf.true.inf.false => exact Nat.lt_add_right _ Nat.two_pos
  case inf.true.fin => exact Nat.add_lt_add_of_lt_of_le Nat.one_lt_two (above_le d')
  case fin.inf.false => exact Nat.lt_add_right _ Nat.one_pos
  case fin.fin => exact Nat.add_lt_add_left (above_lt (of_decide_eq_true h)) 1

end Number

end Binary64
