import AdmissionCache.Proofs.Numeric.Rounding
import AdmissionCache.Time

namespace AdmissionCache

/-- An even bound is reached by rounding from half a unit below it. -/
theorem le_roundHalfEven {num den n : Nat} (positive : 0 < den) (even : n % 2 = 0) :
    n ≤ roundHalfEven num den ↔ 2 * (n * den) ≤ 2 * num + den := by
  rw [le_roundHalfEven_iff positive]
  constructor
  · rintro (below | ⟨_, tie⟩)
    · exact below.le
    · exact tie.le
  · intro reached
    by_cases tie : 2 * (n * den) = 2 * num + den
    · exact .inr ⟨even, tie⟩
    · exact .inl (lt_of_le_of_ne reached tie)

/-- The numbers that come within half a nanosecond of `2 ^ 64` seconds, or exceed them. -/
def Binary64.Oversized : Binary64 → Prop
  | .finite false m e => 2 ^ 64 ≤ (m : ℚ) * 2 ^ e + 1 / (2 * 10 ^ 9)
  | _ => False

/-- A natural number of seconds below `2 ^ 64` stays a whole second below it. -/
theorem Binary64.oversized_of_natural {m k : Nat} : (finite false m k).Oversized ↔ 2 ^ 64 ≤ m * 2 ^ k := by
  have whole : (m : ℚ) * 2 ^ (k : Int) = (m * 2 ^ k : Nat) := by push_cast; rw [zpow_natCast]
  rw [Oversized, whole]
  generalize m * 2 ^ k = n
  constructor
  · intro reached
    by_contra! below
    have short : (n : ℚ) + 1 ≤ 2 ^ 64 := by exact_mod_cast below
    norm_num at short reached
    linarith
  · intro reached
    have enough : (2 : ℚ) ^ 64 ≤ n := by exact_mod_cast reached
    exact enough.trans (le_add_of_nonneg_right (by positivity))

/-- Below the point everything is counted in units of `2 ^ -k` nanoseconds. -/
theorem Binary64.oversized_of_fraction {m k : Nat} : (finite false m (-k)).Oversized ↔
    2 * (Duration.bound * 2 ^ k) ≤ 2 * (m * Duration.nanosPerSecond) + 2 ^ k := by
  have positive : (0 : ℚ) < 2 ^ k := by positivity
  have scaled : (m : ℚ) * 2 ^ (-(k : Int)) + 1 / (2 * 10 ^ 9) =
      (2 * (m * 10 ^ 9) + 2 ^ k) / (2 * 10 ^ 9 * 2 ^ k) := by
    rw [zpow_neg, zpow_natCast]
    field_simp
  rw [Oversized, scaled, le_div_iff₀ (by positivity)]
  have exact : ((2 : ℚ) ^ 64 * (2 * 10 ^ 9 * 2 ^ k) ≤ 2 * (m * 10 ^ 9) + 2 ^ k) ↔
      2 ^ 64 * (2 * 10 ^ 9 * 2 ^ k) ≤ 2 * (m * 10 ^ 9) + 2 ^ k := by exact_mod_cast Iff.rfl
  rw [exact, Duration.bound, Duration.nanosPerSecond]
  omega

/-- A number of 53 significant bits that is oversized is a natural number. -/
theorem Binary64.oversized_iff {m : Nat} {e : Int} (canonical : m < 2 ^ 53) :
    (finite false m e).Oversized ↔ 2 ^ 64 ≤ (m : ℚ) * 2 ^ e := by
  by_cases natural : 0 ≤ e
  · lift e to Nat using natural
    rw [oversized_of_natural, zpow_natCast]
    exact_mod_cast Iff.rfl
  · have small : (m : ℚ) * 2 ^ e < 2 ^ 53 :=
      calc (m : ℚ) * 2 ^ e
        _ ≤ m := mul_le_of_le_one_right (by positivity) (zpow_le_one_of_nonpos₀ (by norm_num) (by omega))
        _ < 2 ^ 53 := by exact_mod_cast canonical
    rw [Oversized]
    norm_num at small ⊢
    exact iff_of_false (by linarith) (by linarith)

theorem Duration.ofSeconds?_finite {m : Nat} {e : Int} :
    ofSeconds? (.finite false m e) = none ↔ (Binary64.finite false m e).Oversized := by
  have missing : ofSeconds? (.finite false m e) = none ↔ bound ≤
      if 0 ≤ e then m <<< e.toNat * nanosPerSecond else roundHalfEven (m * nanosPerSecond) (1 <<< (-e).toNat) := by
    unfold ofSeconds?
    simp
  rw [missing]
  by_cases natural : 0 ≤ e
  · lift e to Nat using natural
    rw [if_pos (Int.natCast_nonneg e), Binary64.oversized_of_natural, Int.toNat_natCast, Nat.shiftLeft_eq, bound,
      nanosPerSecond]
    omega
  · obtain ⟨k, rfl⟩ : ∃ k : Nat, e = -k := ⟨(-e).toNat, by omega⟩
    rw [if_neg natural, Binary64.oversized_of_fraction, neg_neg, Int.toNat_natCast, Nat.shiftLeft_eq, one_mul]
    exact le_roundHalfEven (Nat.two_pow_pos k) (by decide)

/-- Zero is not negative, whatever its sign. -/
theorem Binary64.finite_lt_zero (negative : Bool) (m : Nat) (e : Int) :
    (finite negative m e).lt .zero = (negative && decide (m ≠ 0)) := by
  have positive (k : Nat) : 0 < m <<< k ↔ m ≠ 0 := by
    rw [Nat.shiftLeft_eq, Nat.pos_iff_ne_zero, Nat.mul_ne_zero_iff]
    exact and_iff_left (Nat.two_pow_pos k).ne'
  have nothing (base : Int) : alignedTo base false 0 minExponent = 0 := by simp [alignedTo]
  change decide (alignedTo (min e minExponent) negative m e < alignedTo _ false 0 minExponent) = _
  rw [nothing]
  cases negative with
  | false => exact decide_eq_false (Int.natCast_nonneg _).not_gt
  | true => exact decide_eq_decide.mpr (Int.neg_neg_iff_pos.trans (Int.natCast_pos.trans (positive _)))

theorem Binary64.Oversized.lt_zero {x : Binary64} (oversized : x.Oversized) :
    x.isFinite = true ∧ x.lt .zero = false := by
  cases x with
  | finite negative m e =>
    cases negative with
    | false => exact ⟨rfl, finite_lt_zero false m e⟩
    | true => exact oversized.elim
  | _ => exact oversized.elim

theorem Duration.ofSeconds?_eq_none {x : Binary64} (finite : x.isFinite = true) (notNegative : x.lt .zero = false) :
    ofSeconds? x = none ↔ x.Oversized := by
  cases x with
  | finite negative m e =>
    cases negative with
    | false => exact ofSeconds?_finite
    | true =>
      have zero : m = 0 := by simpa [Binary64.finite_lt_zero] using notNegative
      have small : ¬ (Binary64.finite false 0 e).Oversized := by
        rw [Binary64.oversized_iff (by norm_num)]
        norm_num
      rw [zero]
      exact iff_of_false (fun missing => small (ofSeconds?_finite.mp missing)) id
  | _ => cases finite

end AdmissionCache
