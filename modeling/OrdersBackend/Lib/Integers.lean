import OrdersBackend.Lib.Doubles

/-!
# Integers among the doubles

Up to `2 ^ 53` integers are added, multiplied and compared exactly. Beyond, a sum
of positive integers depends on how it is made up, but stays beyond.
-/

namespace Binary64

theorem abs_le_of_nonneg {n m : ℤ} (h : 0 ≤ n) (h' : n ≤ m) : |n| ≤ m := (abs_of_nonneg h).trans_le h'

theorem intCast_bounded {n : ℤ} (h : |n| ≤ 2 ^ 53) : |(n : ℚ)| < 2 ^ 1024 := by
  have hle : |(n : ℚ)| ≤ 2 ^ 53 := by exact_mod_cast h
  exact hle.trans_lt (pow_lt_pow_right₀ one_lt_two (by norm_num))

def Double.ofInt (n : ℤ) (h : |n| ≤ 2 ^ 53) : Double := ⟨n, scaled_intCast h, intCast_bounded h⟩

namespace Number

/-! ## Exact results -/

theorem round_intCast {n : ℤ} (h : |n| ≤ 2 ^ 53) : round n = .fin (.ofInt n h) :=
  round_of_scaled (d := .ofInt n h)

theorem round_natCast (n : ℕ) : round n = ofNat n := by
  unfold ofNat
  split
  · rename_i h
    exact round_of_scaled (d := .ofNat n h)
  · rfl

theorem round_add {a b : ℤ} (ha : |a| ≤ 2 ^ 53) (hb : |b| ≤ 2 ^ 53) :
    (round a).add (round b) = round (a + b : ℤ) := by
  rw [round_intCast ha, round_intCast hb, Int.cast_add]
  rfl

theorem round_mul {a b : ℤ} (ha : |a| ≤ 2 ^ 53) (hb : |b| ≤ 2 ^ 53) :
    (round a).mul (round b) = round (a * b : ℤ) := by
  rw [round_intCast ha, round_intCast hb, Int.cast_mul]
  rfl

theorem round_lt {a b : ℤ} (ha : |a| ≤ 2 ^ 53) (hb : |b| ≤ 2 ^ 53) :
    (round a).lt (round b) = decide (a < b) := by
  rw [round_intCast ha, round_intCast hb]
  exact decide_eq_decide.mpr Int.cast_lt

/-- `a` is the integer `n`. -/
def Is (a : Number) (n : ℤ) : Prop := ∃ d, a = .fin d ∧ d.val = n

theorem is_round {n : ℤ} (h : |n| ≤ 2 ^ 53) : (round n).Is n := ⟨_, round_intCast h, rfl⟩

/-! ## Counting -/

/-- One is added to zero `k` times. -/
def count : ℕ → Number
  | 0 => 0
  | k + 1 => (count k).add 1

/-- Counting gets no further than `2 ^ 53`. -/
theorem count_eq (k : ℕ) : count k = ofNat (min k (2 ^ 53)) := by
  induction k with
  | zero => rfl
  | succ k ih =>
    have hadd : count (k + 1) = (ofNat (min k (2 ^ 53))).add (ofNat 1) := congrArg (add · 1) ih
    obtain h | h := Nat.lt_or_ge k (2 ^ 53)
    · have hexact : (ofNat k).add (ofNat 1) = ofNat (k + 1) := by
        rw [← round_natCast, ← round_natCast, ← round_natCast]
        exact_mod_cast round_add (abs_le_of_nonneg (Int.natCast_nonneg k) (by omega)) (b := 1) (by norm_num)
      rw [hadd, Nat.min_eq_left h.le, Nat.min_eq_left h, hexact]
    · rw [hadd, Nat.min_eq_right h, Nat.min_eq_right (by omega)]
      decide +kernel

theorem count_finite (k : ℕ) : ∃ d, count k = .fin d := by
  rw [count_eq, ofNat, dif_pos (Nat.min_le_right ..)]
  exact ⟨_, rfl⟩

theorem count_lt {d : Double} {n : ℕ} (h : d.val = n) (k : ℕ) :
    (count k).lt (.fin d) = decide (min k (2 ^ 53) < n) := by
  rw [count_eq, ofNat, dif_pos (Nat.min_le_right ..), lt, h]
  exact decide_eq_decide.mpr Nat.cast_lt

/-! ## Sums of two -/

theorem add_comm (a b : Number) : a.add b = b.add a := by
  rcases a with _ | a | a <;> rcases b with _ | b | b <;> try rfl
  · by_cases h : a = b
    · rw [h]
    · rw [add, add, if_neg h, if_neg (Ne.symm h)]
  · rw [add, add, Rat.add_comm]

theorem zero_add (a : Number) : (0 : Number).add a = a := by
  rcases a with _ | a | d
  · rfl
  · rfl
  · have hzero : (0 : Number).add (.fin d) = round ((0 : ℕ) + d.val) := rfl
    rw [hzero, Nat.cast_zero, Rat.zero_add, round_of_scaled]

/-- At least `2 ^ 53`. -/
def Large (a : Number) : Prop := a = .inf false ∨ ∃ d, a = .fin d ∧ 2 ^ 53 ≤ d.val

/-- `a` is `n` where integers are exact, and beyond where `n` is. -/
structure Tracks (a : Number) (n : ℤ) : Prop where
  exact : n ≤ 2 ^ 53 → a = round n
  large : 2 ^ 53 ≤ n → a.Large

theorem large_round {q : ℚ} (h : 2 ^ 53 ≤ q) : (round q).Large := by
  have hle := le_nearest h
  unfold round
  split
  · exact .inr ⟨_, rfl, hle⟩
  · have hpos : ¬q < 0 := not_lt.mpr (le_trans (by norm_num) h)
    exact .inl (by simp [hpos])

theorem tracks_round (n : ℤ) : Tracks (round n) n := ⟨fun _ => rfl, fun h => large_round (by exact_mod_cast h)⟩

theorem tracks_zero : Tracks 0 0 := by
  have h := tracks_round 0
  rw [Int.cast_zero, ← Nat.cast_zero, round_natCast] at h
  exact h

theorem Tracks.value {a : Number} {n : ℤ} (h : Tracks a n) (hn : 0 ≤ n) :
    a = .inf false ∨ ∃ d, a = .fin d ∧ ((min n (2 ^ 53) : ℤ) : ℚ) ≤ d.val := by
  obtain hle | hge := le_total n (2 ^ 53)
  · refine .inr ⟨_, (h.exact hle).trans (round_intCast (abs_le_of_nonneg hn hle)), ?_⟩
    rw [min_eq_left hle]
    exact le_refl _
  · rcases h.large hge with hinf | ⟨d, hd, hle⟩
    · exact .inl hinf
    · refine .inr ⟨d, hd, ?_⟩
      rw [min_eq_right hge]
      exact_mod_cast hle

theorem Tracks.add {a b : Number} {m n : ℤ} (h : Tracks a m) (h' : Tracks b n) (hm : 0 ≤ m) (hn : 0 ≤ n) :
    Tracks (a.add b) (m + n) where
  exact hle := by
    rw [h.exact (by omega), h'.exact (by omega)]
    exact round_add (abs_le_of_nonneg hm (by omega)) (abs_le_of_nonneg hn (by omega))
  large hge := by
    rcases h.value hm with rfl | ⟨d, rfl, hd⟩ <;> rcases h'.value hn with rfl | ⟨d', rfl, hd'⟩
    · exact .inl rfl
    · exact .inl rfl
    · exact .inl rfl
    · have hsum : 2 ^ 53 ≤ min m (2 ^ 53) + min n (2 ^ 53) := by omega
      have hcast : (2 ^ 53 : ℚ) ≤ (min m (2 ^ 53) : ℤ) + (min n (2 ^ 53) : ℤ) := by exact_mod_cast hsum
      exact large_round (hcast.trans (add_le_add hd hd'))

/-- A sum is compared exactly with what is below `2 ^ 53`. -/
theorem Tracks.lt {a : Number} {n s : ℤ} (h : Tracks a n) (hn : 0 ≤ n) (hs : 0 ≤ s) (hlt : s < 2 ^ 53) :
    (round s).lt a = decide (s < n) := by
  obtain hle | hge := le_total n (2 ^ 53)
  · rw [h.exact hle]
    exact round_lt (abs_le_of_nonneg hs hlt.le) (abs_le_of_nonneg hn hle)
  · have hless : s < n := by omega
    rw [round_intCast (abs_le_of_nonneg hs hlt.le), decide_eq_true hless]
    rcases h.large hge with rfl | ⟨d, rfl, hd⟩
    · rfl
    · have hcast : (s : ℚ) < 2 ^ 53 := by exact_mod_cast hlt
      exact decide_eq_true (hcast.trans_le hd)

/-! ## `Math.round` -/

theorem ulp_le {q : ℚ} {k : ℤ} (hk : 1 ≤ k) (h : |q| < 2 ^ k) : ulp q ≤ 2 ^ (k - 53) := by
  have hlog : Int.log 2 |q| < k := by
    obtain hzero | hpos := (abs_nonneg q).eq_or_lt
    · rw [← hzero, Int.log_zero_right]
      omega
    · exact (Int.lt_zpow_iff_log_lt (by norm_num) hpos).mp (by exact_mod_cast h)
  exact zpow_le_zpow_right₀ (by norm_num) (by omega)

/-- What is far from the largest double is rounded to a double close by. -/
theorem exists_round {q : ℚ} {k : ℤ} (hk : 1 ≤ k) (hk' : k ≤ 53) (h : |q| < 2 ^ k) :
    ∃ d, round q = .fin d ∧ |d.val - q| ≤ 2 ^ (k - 54) := by
  have hulp := ulp_le hk h
  have hclose : |nearest q - q| ≤ 2 ^ (k - 54) := by
    refine (abs_nearest_sub_le q).trans ?_
    rw [show k - 54 = k - 53 - 1 by omega, zpow_sub_one₀ (by norm_num)]
    linarith
  have hbound : |nearest q| < 2 ^ 1024 := by
    have hq : |q| < 2 ^ (53 : ℤ) := h.trans_le (zpow_le_zpow_right₀ (by norm_num) hk')
    have hone : (2 : ℚ) ^ (k - 54) ≤ 1 := zpow_le_one_of_nonpos₀ (by norm_num) (by omega)
    have hsum : |nearest q| ≤ |nearest q - q| + |q| := by simpa using abs_add_le (nearest q - q) q
    calc |nearest q| < 2 ^ 54 := by norm_num at hq; linarith
      _ < 2 ^ 1024 := pow_lt_pow_right₀ one_lt_two (by norm_num)
  exact ⟨_, dif_pos hbound, hclose⟩

theorem mathRound_eq {d : Double} {n : ℤ} (h : |d.val - n| < 1 / 2) : mathRound (.fin d) = round n := by
  obtain ⟨hlow, hhigh⟩ := abs_lt.mp h
  have hfloor : ⌊d.val + 1 / 2⌋ = n := Int.floor_eq_iff.mpr ⟨by linarith, by linarith⟩
  rw [mathRound, hfloor]

end Number

end Binary64
