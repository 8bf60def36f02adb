import AdmissionCache.Numeric.Binary64
import Mathlib.Algebra.Order.Field.Power
import Mathlib.Algebra.Order.Field.Rat
import Mathlib.Order.WithBot
import Mathlib.Tactic.FieldSimp
import Mathlib.Tactic.Linarith
import Mathlib.Tactic.NormNum
import Mathlib.Tactic.Positivity
import Mathlib.Tactic.Ring

namespace AdmissionCache

/-- A number is reached by rounding from half a unit below it, or from just above that if it is odd. -/
theorem le_roundHalfEven_iff {num den n : Nat} (positive : 0 < den) :
    n ≤ roundHalfEven num den ↔
      2 * (n * den) < 2 * num + den ∨ n % 2 = 0 ∧ 2 * (n * den) = 2 * num + den := by
  have division : den * (num / den) + num % den = num := Nat.div_add_mod num den
  have rest : num % den < den := Nat.mod_lt num positive
  simp only [roundHalfEven]
  generalize num / den = q at *
  generalize num % den = r at *
  subst division
  rw [Nat.mul_comm den q]
  obtain below | rfl | ⟨d, rfl⟩ : n ≤ q ∨ n = q + 1 ∨ ∃ d, n = q + 2 + d := by
    by_cases below : n ≤ q
    · exact .inl below
    · by_cases next : n = q + 1
      · exact .inr (.inl next)
      · exact .inr (.inr ⟨n - (q + 2), by omega⟩)
  · have small := Nat.mul_le_mul_right den below
    refine iff_of_true ?_ (by omega)
    split
    · exact below
    · split <;> omega
  · have product : (q + 1) * den = q * den + den := Nat.succ_mul q den
    split
    · exact iff_of_false (by omega) (by omega)
    · split
      · exact iff_of_true (by omega) (by omega)
      · constructor <;> omega
  · have product : (q + 2 + d) * den = q * den + 2 * den + d * den := by rw [Nat.add_mul, Nat.add_mul]
    refine iff_of_false ?_ (by omega)
    split
    · omega
    · split <;> omega

namespace Binary64

/-- The size of a number, whatever its sign. What is not finite lies above all finite numbers. -/
def magnitude : Binary64 → WithTop ℚ
  | .finite _ m e => ((m * 2 ^ e : ℚ) : WithTop ℚ)
  | _ => ⊤

theorem magnitude_eq_top {x : Binary64} : x.magnitude = ⊤ ↔ x.isFinite = false := by
  cases x with
  | finite s m e => exact iff_of_false (WithTop.coe_ne_top) nofun
  | infinite s => exact iff_of_true rfl rfl
  | nan => exact iff_of_true rfl rfl

/-- The exponent to which a quotient is rounded. -/
def gridExponent (num den : Nat) : Int := max (ratioLog2 num den - 52) minExponent

/-- A quotient in units of `2 ^ e`, rounded. -/
def mantissaAt (num den : Nat) (e : Int) : Nat :=
  if 0 ≤ e then roundHalfEven num (den <<< e.toNat) else roundHalfEven (num <<< (-e).toNat) den

theorem le_mantissaAt {num den n : Nat} {e : Int} (positive : 0 < den) :
    n ≤ mantissaAt num den e ↔
      (n * 2 ^ e : ℚ) < num / den + 2 ^ e / 2 ∨ n % 2 = 0 ∧ (n * 2 ^ e : ℚ) = num / den + 2 ^ e / 2 := by
  have whole : (0 : ℚ) < den := by exact_mod_cast positive
  by_cases natural : 0 ≤ e
  · lift e to Nat using natural
    have units : (num / den + 2 ^ (e : Int) / 2 : ℚ) = (2 * num + den * 2 ^ e : Nat) / (2 * den) := by
      push_cast
      rw [zpow_natCast]
      field_simp
    have left : (n * 2 ^ (e : Int) : ℚ) = (2 * (n * (den * 2 ^ e)) : Nat) / (2 * den) := by
      push_cast
      rw [zpow_natCast]
      field_simp
    rw [mantissaAt, if_pos (Int.natCast_nonneg e), Int.toNat_natCast, Nat.shiftLeft_eq,
      le_roundHalfEven_iff (Nat.mul_pos positive (Nat.two_pow_pos e)), units, left,
      div_lt_div_iff_of_pos_right (by positivity), div_left_inj' (by positivity), Nat.cast_lt, Nat.cast_inj]
  · obtain ⟨k, rfl⟩ : ∃ k : Nat, e = -k := ⟨(-e).toNat, by omega⟩
    have units : (num / den + 2 ^ (-k : Int) / 2 : ℚ) = (2 * (num * 2 ^ k) + den : Nat) / (2 * den * 2 ^ k) := by
      push_cast
      rw [zpow_neg, zpow_natCast]
      field_simp
    have left : (n * 2 ^ (-k : Int) : ℚ) = (2 * (n * den) : Nat) / (2 * den * 2 ^ k) := by
      push_cast
      rw [zpow_neg, zpow_natCast]
      field_simp
    rw [mantissaAt, if_neg natural, neg_neg, Int.toNat_natCast, Nat.shiftLeft_eq, le_roundHalfEven_iff positive,
      units, left, div_lt_div_iff_of_pos_right (by positivity), div_left_inj' (by positivity), Nat.cast_lt,
      Nat.cast_inj]

/-- A number of units that a quotient reaches is not lost by rounding. -/
theorem le_mantissaAt_of_le {num den n : Nat} {e : Int} (positive : 0 < den)
    (reached : (n * 2 ^ e : ℚ) ≤ num / den) : n ≤ mantissaAt num den e := by
  have half : (0 : ℚ) < 2 ^ e / 2 := by positivity
  exact (le_mantissaAt positive).mpr (.inl (by linarith))

theorem mantissaAt_mono {num den num' den' : Nat} (e : Int) (positive : 0 < den) (positive' : 0 < den')
    (le : (num / den : ℚ) ≤ num' / den') : mantissaAt num den e ≤ mantissaAt num' den' e := by
  rw [le_mantissaAt positive']
  obtain below | ⟨even, tie⟩ := (le_mantissaAt positive).mp (Nat.le_refl (mantissaAt num den e))
  · exact .inl (by linarith)
  · by_cases same : (num / den : ℚ) = num' / den'
    · exact .inr ⟨even, by linarith⟩
    · have less := lt_of_le_of_ne le same
      exact .inl (by linarith)

/-- A quotient below a power of two is rounded to no more than that power. -/
theorem mantissaAt_le_of_lt {num den k : Nat} {e : Int} (positive : 0 < den)
    (below : (num / den : ℚ) < 2 ^ (e + k)) : mantissaAt num den e ≤ 2 ^ k := by
  by_contra! above
  have unit : (0 : ℚ) < 2 ^ e := by positivity
  have next : ((2 ^ k + 1 : Nat) * 2 ^ e : ℚ) = 2 ^ (e + k) + 2 ^ e := by
    push_cast
    rw [zpow_add₀ (by norm_num), zpow_natCast]
    ring
  obtain less | ⟨_, tie⟩ := (le_mantissaAt positive).mp (Nat.succ_le_of_lt above)
  · rw [next] at less
    linarith
  · rw [next] at tie
    linarith

/-- Whether a quotient reaches a power of two is decided on whole numbers. -/
theorem powerReached_iff (num : Nat) {den : Nat} (positive : 0 < den) (e : Int) :
    (if 0 ≤ e then decide (den <<< e.toNat ≤ num) else decide (den ≤ num <<< (-e).toNat)) = true ↔
      (2 : ℚ) ^ e ≤ num / den := by
  have whole : (0 : ℚ) < den := by exact_mod_cast positive
  rw [le_div_iff₀ whole]
  by_cases natural : 0 ≤ e
  · lift e to Nat using natural
    rw [if_pos (Int.natCast_nonneg e), Int.toNat_natCast, Nat.shiftLeft_eq, Nat.mul_comm, zpow_natCast,
      decide_eq_true_eq]
    exact_mod_cast Iff.rfl
  · obtain ⟨k, rfl⟩ : ∃ k : Nat, e = -k := ⟨(-e).toNat, by omega⟩
    rw [if_neg natural, neg_neg, Int.toNat_natCast, Nat.shiftLeft_eq, zpow_neg, zpow_natCast,
      inv_mul_le_iff₀ (by positivity), Nat.mul_comm, decide_eq_true_eq]
    exact_mod_cast Iff.rfl

/-- The binary logarithm of a quotient, rounded down. -/
theorem ratioLog2_spec {num den : Nat} (some : num ≠ 0) (positive : 0 < den) :
    (2 : ℚ) ^ ratioLog2 num den ≤ num / den ∧ (num / den : ℚ) < 2 ^ (ratioLog2 num den + 1) := by
  have whole : (0 : ℚ) < den := by exact_mod_cast positive
  have two : (2 : ℚ) ≠ 0 := by norm_num
  have least : (2 : ℚ) ^ (Nat.log2 num : Int) ≤ num := by exact_mod_cast Nat.log2_self_le some
  have most : (num : ℚ) < 2 ^ ((Nat.log2 num : Int) + 1) := by exact_mod_cast Nat.lt_log2_self
  have leastDen : (2 : ℚ) ^ (Nat.log2 den : Int) ≤ den := by exact_mod_cast Nat.log2_self_le positive.ne'
  have mostDen : (den : ℚ) < 2 ^ ((Nat.log2 den : Int) + 1) := by exact_mod_cast Nat.lt_log2_self
  generalize guessed : (Nat.log2 num : Int) - (Nat.log2 den : Int) = guess
  have reaches := powerReached_iff num positive guess
  by_cases reached : (2 : ℚ) ^ guess ≤ num / den
  · have log : ratioLog2 num den = guess := by
      simp only [ratioLog2, guessed]
      exact if_pos (reaches.mpr reached)
    rw [log]
    refine ⟨reached, (div_lt_iff₀ whole).mpr (most.trans_le ?_)⟩
    calc (2 : ℚ) ^ ((Nat.log2 num : Int) + 1)
      _ = 2 ^ (guess + 1) * 2 ^ (Nat.log2 den : Int) := by rw [← zpow_add₀ two, ← guessed]; congr 1; ring
      _ ≤ 2 ^ (guess + 1) * den := mul_le_mul_of_nonneg_left leastDen (by positivity)
  · have log : ratioLog2 num den = guess - 1 := by
      simp only [ratioLog2, guessed]
      exact if_neg fun told => reached (reaches.mp told)
    rw [log, sub_add_cancel]
    refine ⟨(le_div_iff₀ whole).mpr (le_trans ?_ least), not_le.mp reached⟩
    calc (2 : ℚ) ^ (guess - 1) * den
      _ ≤ 2 ^ (guess - 1) * 2 ^ ((Nat.log2 den : Int) + 1) := mul_le_mul_of_nonneg_left mostDen.le (by positivity)
      _ = 2 ^ (Nat.log2 num : Int) := by rw [← zpow_add₀ two, ← guessed]; congr 1; ring

section Nearest
variable {num den : Nat}

/-- A quotient is rounded to at most 53 bits. -/
theorem mantissaAt_gridExponent_le (some : num ≠ 0) (positive : 0 < den) :
    mantissaAt num den (gridExponent num den) ≤ 2 ^ 53 := by
  refine mantissaAt_le_of_lt positive ((ratioLog2_spec some positive).2.trans_le ?_)
  refine zpow_le_zpow_right₀ (by norm_num) ?_
  have grid : ratioLog2 num den - 52 ≤ gridExponent num den := le_max_left _ _
  omega

/-- Above the least exponent a quotient is rounded to all 53 bits. -/
theorem le_mantissaAt_gridExponent (some : num ≠ 0) (positive : 0 < den)
    (above : minExponent < gridExponent num den) : 2 ^ 52 ≤ mantissaAt num den (gridExponent num den) := by
  have grid : gridExponent num den = ratioLog2 num den - 52 := by
    rw [gridExponent] at above ⊢
    omega
  refine le_mantissaAt_of_le positive ?_
  have power : ((2 ^ 52 : Nat) * 2 ^ gridExponent num den : ℚ) = 2 ^ ratioLog2 num den := by
    rw [grid, zpow_sub₀ (by norm_num)]
    norm_num
    ring
  rw [power]
  exact (ratioLog2_spec some positive).1

/-- A mantissa of 53 bits outweighs every other one at a lower exponent. -/
theorem scaled_le_of_lt {m m' : Nat} {e e' : Int} (most : m ≤ 2 ^ 53) (least : 2 ^ 52 ≤ m') (less : e < e') :
    (m * 2 ^ e : ℚ) ≤ m' * 2 ^ e' := by
  have up : (2 : ℚ) ^ (e + 1) ≤ 2 ^ e' := zpow_le_zpow_right₀ (by norm_num) (by omega)
  have many : (m : ℚ) ≤ 2 ^ 53 := by exact_mod_cast most
  have enough : (2 : ℚ) ^ 52 ≤ m' := by exact_mod_cast least
  calc (m * 2 ^ e : ℚ)
    _ ≤ 2 ^ 53 * 2 ^ e := mul_le_mul_of_nonneg_right many (by positivity)
    _ = 2 ^ 52 * 2 ^ (e + 1) := by rw [zpow_add₀ (by norm_num)]; ring
    _ ≤ m' * 2 ^ e' := mul_le_mul enough up (by positivity) (by positivity)

/-- The carry of a mantissa that was rounded up to a power of two. -/
def carry (m : Nat) : Int := if m = 2 ^ 53 then 1 else 0

/-- What a rounded mantissa amounts to, unless its exponent is too great. -/
def amount (m : Nat) (e : Int) : WithTop ℚ :=
  if maxExponent < e + carry m then ⊤ else ((m * 2 ^ e : ℚ) : WithTop ℚ)

theorem amount_mono {m m' : Nat} {e e' : Int} (le : (m * 2 ^ e : ℚ) ≤ m' * 2 ^ e')
    (carries : e + carry m ≤ e' + carry m') : amount m e ≤ amount m' e' := by
  by_cases overflows : maxExponent < e' + carry m'
  · rw [amount, amount, if_pos overflows]
    exact le_top
  · rw [amount, amount, if_neg overflows, if_neg (by omega)]
    exact WithTop.coe_le_coe.mpr le

/-- A rounded mantissa as a number. -/
def pack (negative : Bool) (m : Nat) (e : Int) : Binary64 :=
  let (m, e) := if m = 1 <<< 53 then (1 <<< 52, e + 1) else (m, e)
  if maxExponent < e then .infinite negative else .finite negative m e

theorem nearest_eq (negative : Bool) (some : num ≠ 0) :
    nearest negative num den = pack negative (mantissaAt num den (gridExponent num den)) (gridExponent num den) := by
  simp only [nearest, if_neg some]
  rfl

theorem pack_of_carry (negative : Bool) (e : Int) : pack negative (2 ^ 53) e =
    if maxExponent < e + 1 then .infinite negative else .finite negative (2 ^ 52) (e + 1) := rfl

theorem pack_of_ne {m : Nat} (negative : Bool) (e : Int) (fits : m ≠ 2 ^ 53) : pack negative m e =
    if maxExponent < e then .infinite negative else .finite negative m e := by
  have power : (1 <<< 53 : Nat) = 2 ^ 53 := rfl
  simp only [pack, power, if_neg fits]

theorem magnitude_nearest (negative : Bool) (some : num ≠ 0) :
    (nearest negative num den).magnitude =
      amount (mantissaAt num den (gridExponent num den)) (gridExponent num den) := by
  rw [nearest_eq negative some]
  generalize mantissaAt num den (gridExponent num den) = m
  generalize gridExponent num den = e
  by_cases carried : m = 2 ^ 53
  · rw [carried, pack_of_carry, amount, carry, if_pos rfl]
    split
    · rfl
    · have moved : ((2 ^ 52 : Nat) * 2 ^ (e + 1) : ℚ) = (2 ^ 53 : Nat) * 2 ^ e := by
        rw [zpow_add₀ (by norm_num)]
        norm_num
        ring
      exact congrArg _ moved
  · rw [pack_of_ne negative e carried, amount, carry, if_neg carried, add_zero]
    split <;> rfl

theorem magnitude_nonneg (x : Binary64) : 0 ≤ x.magnitude := by
  cases x with
  | finite s m e =>
    have size : (0 : ℚ) ≤ m * 2 ^ e := by positivity
    exact WithTop.coe_le_coe.mpr size
  | _ => exact le_top

theorem magnitude_nearest_zero (negative : Bool) (den : Nat) : (nearest negative 0 den).magnitude = 0 := by
  simp only [nearest, if_true, Binary64.zero, magnitude, Nat.cast_zero, zero_mul, WithTop.coe_zero]

theorem gridExponent_mono {num' den' : Nat} (some : num ≠ 0) (some' : num' ≠ 0) (positive : 0 < den)
    (positive' : 0 < den') (le : (num / den : ℚ) ≤ num' / den') : gridExponent num den ≤ gridExponent num' den' := by
  have logs : ratioLog2 num den < ratioLog2 num' den' + 1 := by
    have chain := ((ratioLog2_spec some positive).1.trans le).trans_lt (ratioLog2_spec some' positive').2
    exact (zpow_lt_zpow_iff_right₀ (by norm_num)).mp chain
  simp only [gridExponent]
  omega

/-- A greater quotient is not rounded to a smaller number. -/
theorem magnitude_nearest_mono {num' den' : Nat} (negative negative' : Bool) (positive : 0 < den) (positive' : 0 < den')
    (le : (num / den : ℚ) ≤ num' / den') :
    (nearest negative num den).magnitude ≤ (nearest negative' num' den').magnitude := by
  by_cases nothing : num = 0
  · rw [nothing, magnitude_nearest_zero]
    exact magnitude_nonneg _
  · have some' : num' ≠ 0 := by
      rintro rfl
      have quotient : (0 : ℚ) < num / den := by positivity
      rw [Nat.cast_zero, zero_div] at le
      linarith
    have most := mantissaAt_gridExponent_le nothing positive
    rw [magnitude_nearest negative nothing, magnitude_nearest negative' some']
    obtain same | less := (gridExponent_mono nothing some' positive positive' le).eq_or_lt
    · have mantissas := mantissaAt_mono (gridExponent num' den') positive positive' le
      have most' := mantissaAt_gridExponent_le some' positive'
      rw [same] at most ⊢
      refine amount_mono (mul_le_mul_of_nonneg_right (by exact_mod_cast mantissas) (by positivity)) ?_
      simp only [carry]
      split <;> split <;> omega
    · have above : minExponent < gridExponent num' den' := lt_of_le_of_lt (le_max_right _ _) less
      refine amount_mono (scaled_le_of_lt most (le_mantissaAt_gridExponent some' positive' above) less) ?_
      simp only [carry]
      split <;> split <;> omega

/-- A number of 53 bits that a quotient reaches is not lost by rounding. -/
theorem le_magnitude_nearest {m : Nat} {e : Int} (negative : Bool) (positive : 0 < den) (bits : m < 2 ^ 53)
    (least : minExponent ≤ e) (reached : (m * 2 ^ e : ℚ) ≤ num / den) :
    ((m * 2 ^ e : ℚ) : WithTop ℚ) ≤ (nearest negative num den).magnitude := by
  by_cases nothing : num = 0
  · rw [nothing, Nat.cast_zero, zero_div] at reached
    exact (WithTop.coe_le_coe.mpr reached).trans (magnitude_nonneg _)
  · rw [magnitude_nearest negative nothing, amount]
    split
    · exact le_top
    · refine WithTop.coe_le_coe.mpr ?_
      by_cases lower : e < gridExponent num den
      · exact scaled_le_of_lt bits.le (le_mantissaAt_gridExponent nothing positive (by omega)) lower
      · obtain ⟨k, rfl⟩ : ∃ k : Nat, e = gridExponent num den + k :=
          ⟨(e - gridExponent num den).toNat, by omega⟩
        have units : (m * 2 ^ (gridExponent num den + k) : ℚ) = (m * 2 ^ k : Nat) * 2 ^ gridExponent num den := by
          push_cast
          rw [zpow_add₀ (by norm_num), zpow_natCast]
          ring
        rw [units] at reached ⊢
        have mantissas := le_mantissaAt_of_le positive reached
        exact mul_le_mul_of_nonneg_right (by exact_mod_cast mantissas) (by positivity)

end Nearest

end Binary64

end AdmissionCache
