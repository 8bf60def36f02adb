import AdmissionCache.Proofs.Numeric.Arithmetic
import AdmissionCache.Query.RetryPlan

namespace AdmissionCache

namespace Duration

/-- A lower bound of a nanosecond in seconds. -/
def little : Binary64 := .finite false 1 (-30)

theorem billion : Binary64.ofNat nanosPerSecond = .finite false (nanosPerSecond <<< 23) (-23) := by decide +kernel

theorem little_le_div {x : Binary64} (one : 1 ≤ x.magnitude) :
    little.magnitude ≤ (x.div (.ofNat nanosPerSecond)).magnitude := by
  rw [billion]
  cases x with
  | finite s m e =>
    obtain ⟨num, den, positive, same, value⟩ := Binary64.div_finite s false m e (-23)
      (show nanosPerSecond <<< 23 ≠ 0 by decide)
    have some : (1 : ℚ) ≤ m * 2 ^ e := WithTop.coe_le_coe.mp one
    rw [same]
    refine Binary64.le_magnitude_nearest _ positive (by norm_num) (by decide) ?_
    rw [value, nanosPerSecond, Nat.shiftLeft_eq]
    norm_num
    linarith
  | infinite s => exact le_top
  | nan => exact le_top

/-- A duration that is longer than nothing is not rounded to less than the bound. -/
theorem little_le_toSeconds {d : Duration} (some : d ≠ .zero) : little.magnitude ≤ d.toSeconds.magnitude := by
  have parts : nanosPerSecond * (d.nanos / nanosPerSecond) + d.nanos % nanosPerSecond = d.nanos :=
    Nat.div_add_mod _ _
  have nonneg (n : Nat) : (Binary64.ofNat n).isNegative = false := Binary64.nearest_isNegative ..
  have quotient : ((Binary64.ofNat (d.nanos % nanosPerSecond)).div (.ofNat nanosPerSecond)).isNegative = false := by
    rw [billion]
    exact Binary64.div_isNegative (nonneg _) (by decide)
  refine Binary64.le_magnitude_add (by norm_num) (by decide) (nonneg _) quotient ?_
  by_cases seconds : d.nanos / nanosPerSecond = 0
  · refine .inr (little_le_div (Binary64.one_le_magnitude_ofNat (Nat.pos_of_ne_zero fun none => some ?_)))
    rw [seconds, none] at parts
    exact Duration.ext parts.symm
  · have one := Binary64.one_le_magnitude_ofNat (Nat.pos_of_ne_zero seconds)
    have small : ((1 : Nat) * 2 ^ (-30 : Int) : ℚ) ≤ 1 := by norm_num
    exact .inl ((WithTop.coe_le_coe.mpr small).trans one)

/-- The bound is more than half a nanosecond. -/
theorem ofSeconds?_pos {x : Binary64} {d : Duration} (reached : little.magnitude ≤ x.magnitude)
    (read : ofSeconds? x = some d) : 0 < d.nanos := by
  cases x with
  | finite negative m e =>
    have some : ((1 : Nat) * 2 ^ (-30 : Int) : ℚ) ≤ m * 2 ^ e := WithTop.coe_le_coe.mp reached
    have nanos : 0 < if 0 ≤ e then m <<< e.toNat * nanosPerSecond
        else roundHalfEven (m * nanosPerSecond) (1 <<< (-e).toNat) := by
      by_cases natural : 0 ≤ e
      · have positive : 0 < m := by
          refine Nat.pos_of_ne_zero fun none => ?_
          rw [none] at some
          norm_num at some
        rw [if_pos natural, Nat.shiftLeft_eq]
        exact Nat.mul_pos (Nat.mul_pos positive (Nat.two_pow_pos _)) (by decide)
      · obtain ⟨k, rfl⟩ : ∃ k : Nat, e = -k := ⟨(-e).toNat, by omega⟩
        have units : 2 ^ k ≤ m * 2 ^ 30 := by
          rw [zpow_neg, zpow_neg, zpow_natCast, ← div_eq_mul_inv, ← div_eq_mul_inv,
            div_le_div_iff₀ (by positivity) (by positivity)] at some
          norm_num at some ⊢
          exact_mod_cast some
        have positive : 0 < 2 ^ k := Nat.two_pow_pos k
        rw [if_neg natural, neg_neg, Int.toNat_natCast, Nat.shiftLeft_eq, Nat.one_mul, nanosPerSecond]
        exact (le_roundHalfEven_iff positive).mpr (.inl (by omega))
    simp only [ofSeconds?] at read
    generalize (if 0 ≤ e then m <<< e.toNat * nanosPerSecond
      else roundHalfEven (m * nanosPerSecond) (1 <<< (-e).toNat)) = count at nanos read
    split at read
    · cases read
    · split at read
      · cases read
        exact nanos
      · cases read
  | infinite s => cases read
  | nan => cases read

end Duration

namespace RetryPlan

variable {plan : RetryPlan}

/-- Every wait is longer than nothing if the first factor and the maximum are. -/
theorem wait_pos (grows : 1 ≤ plan.multiplier.magnitude) (initial : plan.initial ≠ .zero)
    (maximum : plan.maximum ≠ .zero) (n : Nat) : 0 < (plan.wait n).nanos := by
  have most : 0 < plan.maximum.nanos := Nat.pos_of_ne_zero fun none => maximum (Duration.ext none)
  have power := Binary64.one_le_magnitude_pow (min n exponentBound) grows
  have product : Duration.little.magnitude ≤
      (plan.initial.toSeconds.mul (plan.multiplier.pow (min n exponentBound))).magnitude :=
    (Binary64.le_magnitude_mul (by exact ⟨by norm_num, by decide⟩) power).trans
      (Binary64.magnitude_mul_mono (Duration.little_le_toSeconds initial) (le_refl _))
  rw [wait]
  split
  · rename_i d read
    exact Nat.lt_min.mpr ⟨Duration.ofSeconds?_pos product read, most⟩
  · exact most

/-- Nothing times a power is nothing, unless the power is too great to be a number. -/
theorem wait_of_no_initial (initial : plan.initial = .zero) (n : Nat) :
    plan.wait n = if (plan.multiplier.pow (min n exponentBound)).isFinite then .zero else plan.maximum := by
  have nothing : Duration.toSeconds .zero = .finite false 0 Binary64.minExponent := by decide +kernel
  rw [wait, initial, nothing]
  cases plan.multiplier.pow (min n exponentBound) with
  | finite s m e =>
    have product : (Binary64.finite false 0 Binary64.minExponent).mul (.finite s m e) = .zero (false != s) := by
      rw [Binary64.mul_finite, Nat.zero_mul, Binary64.scaled, Nat.zero_shiftLeft]
      split <;> rfl
    have none : Duration.ofSeconds? (.zero (false != s)) = some .zero := by cases s <;> decide +kernel
    rw [product, none]
    exact Duration.ext (Nat.zero_min _)
  | infinite s => rfl
  | nan => rfl

theorem wait_of_no_maximum (maximum : plan.maximum = .zero) (n : Nat) : plan.wait n = .zero := by
  have most := plan.wait_le_maximum n
  rw [maximum] at most
  exact Duration.ext (Nat.le_zero.mp most)

/-- Whether the longest waits of a plan take time is read off its fields. -/
theorem wait_exponentBound_pos_iff (grows : 1 ≤ plan.multiplier.magnitude) :
    0 < (plan.wait exponentBound).nanos ↔ plan.maximum ≠ .zero ∧
      (plan.initial ≠ .zero ∨ (plan.multiplier.pow exponentBound).isFinite = false) := by
  by_cases maximum : plan.maximum = .zero
  · rw [wait_of_no_maximum maximum]
    exact iff_of_false (Nat.lt_irrefl 0) (fun both => both.1 maximum)
  · by_cases initial : plan.initial = .zero
    · have most : 0 < plan.maximum.nanos := Nat.pos_of_ne_zero fun none => maximum (Duration.ext none)
      rw [wait_of_no_initial initial, Nat.min_self]
      cases (plan.multiplier.pow exponentBound).isFinite with
      | true => exact iff_of_false (Nat.lt_irrefl 0) (fun both => both.2.elim (· initial) nofun)
      | false => exact iff_of_true most ⟨maximum, .inr rfl⟩
    · exact iff_of_true (wait_pos grows initial maximum _) ⟨maximum, .inl initial⟩

/-- If the longest waits take no time, neither does any other. -/
theorem wait_eq_zero (grows : 1 ≤ plan.multiplier.magnitude) (longest : ¬ 0 < (plan.wait exponentBound).nanos)
    (n : Nat) : plan.wait n = .zero := by
  rw [wait_exponentBound_pos_iff grows, not_and_or, not_not, not_or, not_not, Bool.not_eq_false] at longest
  obtain maximum | ⟨initial, finite⟩ := longest
  · exact wait_of_no_maximum maximum n
  · have few : min n exponentBound < 2 ^ 31 := by
      have bounded := Nat.min_le_right n exponentBound
      have size : exponentBound + 1 = 2 ^ 31 := by decide
      omega
    have below : (plan.multiplier.pow (min n exponentBound)).magnitude ≤
        (plan.multiplier.pow exponentBound).magnitude := Binary64.magnitude_pow_le grows few
    have number : (plan.multiplier.pow (min n exponentBound)).isFinite = true := by
      by_contra! infinite
      have top := Binary64.magnitude_eq_top.mpr (Bool.eq_false_of_not_eq_true infinite)
      rw [top, top_le_iff, Binary64.magnitude_eq_top, finite] at below
      cases below
    rw [wait_of_no_initial initial, number]
    rfl

end RetryPlan

end AdmissionCache
