import AdmissionCache.Proofs.Numeric.Rounding

namespace AdmissionCache

namespace Binary64

/-- What rounding yields: 53 bits, or something that is not finite. -/
def Rounded : Binary64 → Prop
  | .finite _ m e => m < 2 ^ 53 ∧ minExponent ≤ e
  | _ => True

theorem nearest_rounded (negative : Bool) {num den : Nat} (positive : 0 < den) :
    (nearest negative num den).Rounded := by
  by_cases nothing : num = 0
  · simp only [nearest, nothing, if_true, Binary64.zero, Rounded]
    exact ⟨by norm_num, le_refl _⟩
  · have most := mantissaAt_gridExponent_le nothing positive
    have least : minExponent ≤ gridExponent num den := le_max_right _ _
    rw [nearest_eq negative nothing]
    by_cases carried : mantissaAt num den (gridExponent num den) = 2 ^ 53
    · rw [carried, pack_of_carry]
      split
      · trivial
      · exact ⟨by norm_num, by omega⟩
    · rw [pack_of_ne negative _ carried]
      split
      · trivial
      · exact ⟨by omega, least⟩

/-- Scaling by a power of two is rounding of a quotient. -/
theorem scaled_eq (negative : Bool) (m : Nat) (e : Int) :
    ∃ num den, 0 < den ∧ scaled negative m e = nearest negative num den ∧ (num / den : ℚ) = m * 2 ^ e := by
  by_cases natural : 0 ≤ e
  · lift e to Nat using natural
    refine ⟨m <<< e, 1, Nat.one_pos, if_pos (Int.natCast_nonneg e), ?_⟩
    rw [Nat.shiftLeft_eq]
    push_cast
    rw [zpow_natCast, div_one]
  · obtain ⟨k, rfl⟩ : ∃ k : Nat, e = -k := ⟨(-e).toNat, by omega⟩
    refine ⟨m, 1 <<< k, ?_, ?_, ?_⟩
    · rw [Nat.shiftLeft_eq, one_mul]
      exact Nat.two_pow_pos k
    · rw [scaled, if_neg natural, neg_neg, Int.toNat_natCast]
    · rw [Nat.shiftLeft_eq, one_mul]
      push_cast
      rw [zpow_neg, zpow_natCast, div_eq_mul_inv]

theorem magnitude_scaled_mono {m m' : Nat} {e e' : Int} (negative negative' : Bool)
    (le : (m * 2 ^ e : ℚ) ≤ m' * 2 ^ e') :
    (scaled negative m e).magnitude ≤ (scaled negative' m' e').magnitude := by
  obtain ⟨num, den, positive, same, value⟩ := scaled_eq negative m e
  obtain ⟨num', den', positive', same', value'⟩ := scaled_eq negative' m' e'
  rw [same, same']
  exact magnitude_nearest_mono negative negative' positive positive' (by rw [value, value']; exact le)

theorem le_magnitude_scaled {m m' : Nat} {e e' : Int} (negative : Bool) (bits : m < 2 ^ 53) (least : minExponent ≤ e)
    (le : (m * 2 ^ e : ℚ) ≤ m' * 2 ^ e') : ((m * 2 ^ e : ℚ) : WithTop ℚ) ≤ (scaled negative m' e').magnitude := by
  obtain ⟨num, den, positive, same, value⟩ := scaled_eq negative m' e'
  rw [same]
  exact le_magnitude_nearest negative positive bits least (value ▸ le)

/-- A product is rounded like its exact value if both factors are finite. -/
theorem mul_finite (s t : Bool) (m n : Nat) (e f : Int) :
    (finite s m e).mul (finite t n f) = scaled (s != t) (m * n) (e + f) := rfl

theorem scaled_mul (m n : Nat) (e f : Int) : ((m * n : Nat) * 2 ^ (e + f) : ℚ) = m * 2 ^ e * (n * 2 ^ f) := by
  push_cast
  rw [zpow_add₀ (by norm_num)]
  ring

theorem mul_rounded (x y : Binary64) : (x.mul y).Rounded := by
  cases x with
  | finite s m e =>
    cases y with
    | finite t n f =>
      obtain ⟨num, den, positive, same, _⟩ := scaled_eq (s != t) (m * n) (e + f)
      rw [mul_finite, same]
      exact nearest_rounded _ positive
    | infinite t =>
      rw [mul]
      split <;> trivial
    | nan => trivial
  | infinite s =>
    cases y with
    | finite t n f =>
      rw [mul]
      split <;> trivial
    | infinite t => trivial
    | nan => trivial
  | nan => cases y <;> trivial

/-- A product is not finite if one of its factors is not. -/
theorem mul_isFinite {x y : Binary64} (infinite : x.isFinite = false ∨ y.isFinite = false) :
    (x.mul y).isFinite = false := by
  cases x with
  | finite s m e =>
    cases y with
    | finite t n f => simp [isFinite] at infinite
    | infinite t =>
      rw [mul]
      split <;> rfl
    | nan => rfl
  | infinite s =>
    cases y with
    | finite t n f =>
      rw [mul]
      split <;> rfl
    | infinite t => rfl
    | nan => rfl
  | nan => cases y <;> rfl

theorem exists_finite {x : Binary64} (bounded : x.magnitude ≠ ⊤) : ∃ s m e, x = finite s m e := by
  cases x with
  | finite s m e => exact ⟨s, m, e, rfl⟩
  | _ => exact absurd rfl bounded

/-- A product grows with its factors. -/
theorem magnitude_mul_mono {x y x' y' : Binary64} (left : x.magnitude ≤ x'.magnitude)
    (right : y.magnitude ≤ y'.magnitude) :
    (x.mul y).magnitude ≤ (x'.mul y').magnitude := by
  by_cases infinite : x'.magnitude = ⊤ ∨ y'.magnitude = ⊤
  · rw [magnitude_eq_top, magnitude_eq_top] at infinite
    rw [magnitude_eq_top.mpr (mul_isFinite infinite)]
    exact le_top
  · obtain ⟨left', right'⟩ := not_or.mp infinite
    obtain ⟨s, m, e, rfl⟩ := exists_finite (ne_top_of_le_ne_top left' left)
    obtain ⟨t, n, f, rfl⟩ := exists_finite (ne_top_of_le_ne_top right' right)
    obtain ⟨s', m', e', rfl⟩ := exists_finite left'
    obtain ⟨t', n', f', rfl⟩ := exists_finite right'
    have first : (m * 2 ^ e : ℚ) ≤ m' * 2 ^ e' := WithTop.coe_le_coe.mp left
    have second : (n * 2 ^ f : ℚ) ≤ n' * 2 ^ f' := WithTop.coe_le_coe.mp right
    rw [mul_finite, mul_finite]
    refine magnitude_scaled_mono _ _ ?_
    rw [scaled_mul, scaled_mul]
    exact mul_le_mul first second (by positivity) (by positivity)

theorem magnitude_one : (ofNat 1).magnitude = 1 := by
  have one : ofNat 1 = finite false (2 ^ 52) (-52) := by decide +kernel
  have value : ((2 ^ 52 : Nat) * 2 ^ (-52 : Int) : ℚ) = 1 := by norm_num
  rw [one]
  exact congrArg _ value

/-- A factor of at least one does not make a rounded number smaller. -/
theorem le_magnitude_mul {x y : Binary64} (rounded : x.Rounded) (one : 1 ≤ y.magnitude) :
    x.magnitude ≤ (x.mul y).magnitude := by
  by_cases infinite : x.magnitude = ⊤ ∨ y.magnitude = ⊤
  · rw [magnitude_eq_top, magnitude_eq_top] at infinite
    rw [magnitude_eq_top.mpr (mul_isFinite infinite)]
    exact le_top
  · obtain ⟨left, right⟩ := not_or.mp infinite
    obtain ⟨s, m, e, rfl⟩ := exists_finite left
    obtain ⟨t, n, f, rfl⟩ := exists_finite right
    have factor : (1 : ℚ) ≤ n * 2 ^ f := WithTop.coe_le_coe.mp one
    rw [mul_finite]
    refine le_magnitude_scaled _ rounded.1 rounded.2 ?_
    rw [scaled_mul]
    exact le_mul_of_one_le_right (by positivity) factor

theorem one_le_magnitude_mul {x y : Binary64} (left : 1 ≤ x.magnitude) (right : 1 ≤ y.magnitude) :
    1 ≤ (x.mul y).magnitude := by
  have unit : (ofNat 1).Rounded := nearest_rounded false Nat.one_pos
  calc (1 : WithTop ℚ)
    _ = (ofNat 1).magnitude := magnitude_one.symm
    _ ≤ ((ofNat 1).mul y).magnitude := le_magnitude_mul unit right
    _ ≤ (x.mul y).magnitude := magnitude_mul_mono (magnitude_one ▸ left) (le_refl _)

theorem one_le_magnitude_ofNat {n : Nat} (positive : 0 < n) : 1 ≤ (ofNat n).magnitude := by
  have reached : ((1 : Nat) * 2 ^ (0 : Int) : ℚ) ≤ n / (1 : Nat) := by
    norm_num
    exact positive
  have kept := le_magnitude_nearest false Nat.one_pos (by norm_num) (by decide) reached
  have one : ((1 : Nat) * 2 ^ (0 : Int) : ℚ) = 1 := by norm_num
  rw [one] at kept
  exact kept

theorem nearest_isNegative (negative : Bool) (num den : Nat) : (nearest negative num den).isNegative = negative := by
  by_cases nothing : num = 0
  · simp only [nearest, nothing, if_true, Binary64.zero, isNegative]
  · rw [nearest_eq negative nothing]
    by_cases carried : mantissaAt num den (gridExponent num den) = 2 ^ 53
    · rw [carried, pack_of_carry]
      split <;> rfl
    · rw [pack_of_ne negative _ carried]
      split <;> rfl

/-- A quotient is rounded like its exact value if both numbers are finite. -/
theorem div_finite (s t : Bool) (m : Nat) {n : Nat} (e f : Int) (some : n ≠ 0) :
    ∃ num den, 0 < den ∧ (finite s m e).div (finite t n f) = nearest (s != t) num den ∧
      (num / den : ℚ) = m * 2 ^ e / (n * 2 ^ f) := by
  have positive : 0 < n := Nat.pos_of_ne_zero some
  have two : (2 : ℚ) ≠ 0 := by norm_num
  by_cases lower : f ≤ e
  · obtain ⟨k, rfl⟩ : ∃ k : Nat, e = f + k := ⟨(e - f).toNat, by omega⟩
    refine ⟨m <<< k, n, positive, ?_, ?_⟩
    · rw [div, if_neg some, if_pos lower, add_sub_cancel_left, Int.toNat_natCast]
    · rw [Nat.shiftLeft_eq, zpow_add₀ two, zpow_natCast]
      push_cast
      field_simp
  · obtain ⟨k, rfl⟩ : ∃ k : Nat, f = e + k := ⟨(f - e).toNat, by omega⟩
    refine ⟨m, n <<< k, ?_, ?_, ?_⟩
    · rw [Nat.shiftLeft_eq]
      exact Nat.mul_pos positive (Nat.two_pow_pos k)
    · rw [div, if_neg some, if_neg lower, add_sub_cancel_left, Int.toNat_natCast]
    · rw [Nat.shiftLeft_eq, zpow_add₀ two, zpow_natCast]
      push_cast
      field_simp

theorem div_isNegative {x : Binary64} {n : Nat} {f : Int} (nonneg : x.isNegative = false) (some : n ≠ 0) :
    (x.div (finite false n f)).isNegative = false := by
  cases x with
  | finite s m e =>
    obtain ⟨num, den, _, same, _⟩ := div_finite s false m e f some
    obtain rfl : s = false := nonneg
    rw [same]
    exact nearest_isNegative ..
  | infinite s =>
    obtain rfl : s = false := nonneg
    rfl
  | nan => rfl

/-- The mantissa of a number at a lower exponent. -/
theorem shifted_value {m : Nat} {base e : Int} (below : base ≤ e) :
    ((m <<< (e - base).toNat : Nat) * 2 ^ base : ℚ) = m * 2 ^ e := by
  obtain ⟨k, rfl⟩ : ∃ k : Nat, e = base + k := ⟨(e - base).toNat, by omega⟩
  rw [add_sub_cancel_left, Int.toNat_natCast, Nat.shiftLeft_eq, zpow_add₀ (by norm_num), zpow_natCast]
  push_cast
  ring

theorem alignedTo_le (base : Int) (negative : Bool) (m : Nat) (e : Int) :
    alignedTo base negative m e ≤ (m <<< (e - base).toNat : Nat) := by
  simp only [alignedTo]
  generalize m <<< (e - base).toNat = units
  split <;> omega

/-- What lies above a number that is not negative is greater in size as well. -/
theorem magnitude_le_of_lt {x y : Binary64} (nonneg : x.isNegative = false) (less : x.lt y = true) :
    x.magnitude ≤ y.magnitude := by
  cases x with
  | finite s m e =>
    cases y with
    | finite t n f =>
      obtain rfl : s = false := nonneg
      have aligned : alignedTo (min e f) false m e < alignedTo (min e f) t n f := of_decide_eq_true less
      have whole : ((m <<< (e - min e f).toNat : Nat) : Int) < (n <<< (f - min e f).toNat : Nat) :=
        lt_of_lt_of_le aligned (alignedTo_le ..)
      have units : (m <<< (e - min e f).toNat : Nat) ≤ n <<< (f - min e f).toNat := by omega
      have exact : (m * 2 ^ e : ℚ) ≤ n * 2 ^ f := by
        rw [← shifted_value (min_le_left e f), ← shifted_value (min_le_right e f)]
        exact mul_le_mul_of_nonneg_right (by exact_mod_cast units) (by positivity)
      exact WithTop.coe_le_coe.mpr exact
    | infinite t => exact le_top
    | nan => exact le_top
  | infinite s =>
    obtain rfl : s = false := nonneg
    cases y <;> cases less
  | nan => cases less

/-- A sum of numbers that are not negative reaches what either of them reaches. -/
theorem le_magnitude_add {x y : Binary64} {k : Nat} {g : Int} (bits : k < 2 ^ 53) (least : minExponent ≤ g)
    (left : x.isNegative = false) (right : y.isNegative = false)
    (reached : ((k * 2 ^ g : ℚ) : WithTop ℚ) ≤ x.magnitude ∨ ((k * 2 ^ g : ℚ) : WithTop ℚ) ≤ y.magnitude) :
    ((k * 2 ^ g : ℚ) : WithTop ℚ) ≤ (x.add y).magnitude := by
  cases x with
  | finite s m e =>
    cases y with
    | finite t n f =>
      obtain rfl : s = false := left
      obtain rfl : t = false := right
      have whole : alignedTo (min e f) false m e + alignedTo (min e f) false n f =
          (m <<< (e - min e f).toNat + n <<< (f - min e f).toNat : Nat) := rfl
      have total : (k * 2 ^ g : ℚ) ≤
          (m <<< (e - min e f).toNat + n <<< (f - min e f).toNat : Nat) * 2 ^ min e f := by
        have first : (0 : ℚ) ≤ m * 2 ^ e := by positivity
        have second : (0 : ℚ) ≤ n * 2 ^ f := by positivity
        rw [Nat.cast_add, add_mul, shifted_value (min_le_left e f), shifted_value (min_le_right e f)]
        obtain reached | reached := reached
        · have some := WithTop.coe_le_coe.mp reached
          linarith
        · have some := WithTop.coe_le_coe.mp reached
          linarith
      simp only [add, whole]
      generalize m <<< (e - min e f).toNat + n <<< (f - min e f).toNat = sum at total ⊢
      by_cases nothing : sum = 0
      · rw [nothing, Nat.cast_zero, zero_mul] at total
        exact (WithTop.coe_le_coe.mpr total).trans (magnitude_nonneg _)
      · have some : ((sum : Nat) : Int) ≠ 0 := by exact_mod_cast nothing
        rw [if_neg some, Int.natAbs_natCast]
        exact le_magnitude_scaled _ bits least total
    | infinite t => exact le_top
    | nan => exact le_top
  | infinite s =>
    cases y with
    | infinite t =>
      rw [add]
      split <;> exact le_top
    | _ => exact le_top
  | nan => cases y <;> exact le_top

theorem powLoop_zero (square result : Binary64) : powLoop square result 0 = result := by
  rw [powLoop]
  rfl

/-- One bit of the exponent. -/
theorem powLoop_bit (square result : Binary64) (n : Nat) :
    powLoop square result n =
      powLoop (square.mul square) (if n % 2 = 1 then result.mul square else result) (n / 2) := by
  by_cases last : n / 2 = 0
  · rw [last, powLoop_zero, powLoop]
    exact dif_pos last
  · rw [powLoop]
    exact dif_neg last

theorem one_le_magnitude_powLoop {square result : Binary64} (n : Nat) (base : 1 ≤ square.magnitude)
    (one : 1 ≤ result.magnitude) : 1 ≤ (powLoop square result n).magnitude := by
  induction n using Nat.strongRecOn generalizing square result with
  | ind n ih =>
    by_cases nothing : n = 0
    · rw [nothing, powLoop_zero]
      exact one
    · rw [powLoop_bit]
      refine ih (n / 2) (by omega) (one_le_magnitude_mul base base) ?_
      split
      · exact one_le_magnitude_mul one base
      · exact one

theorem one_le_magnitude_pow {x : Binary64} (n : Nat) (base : 1 ≤ x.magnitude) : 1 ≤ (x.pow n).magnitude :=
  one_le_magnitude_powLoop n base magnitude_one.ge

/-- With every bit set, each square is multiplied in. -/
theorem magnitude_powLoop_le {square result result' : Binary64} {n k : Nat} (base : 1 ≤ square.magnitude)
    (rounded : result'.Rounded) (le : result.magnitude ≤ result'.magnitude) (bits : n < 2 ^ k) :
    (powLoop square result n).magnitude ≤ (powLoop square result' (2 ^ k - 1)).magnitude := by
  induction k generalizing square result result' n with
  | zero =>
    obtain rfl : n = 0 := by omega
    rw [pow_zero, Nat.sub_self, powLoop_zero, powLoop_zero]
    exact le
  | succ k ih =>
    have power : 2 ^ (k + 1) = 2 * 2 ^ k := Nat.pow_succ'
    have positive : 0 < 2 ^ k := Nat.two_pow_pos k
    have odd : (2 ^ (k + 1) - 1) % 2 = 1 := by omega
    have rest : (2 ^ (k + 1) - 1) / 2 = 2 ^ k - 1 := by omega
    rw [powLoop_bit square result, powLoop_bit square result', if_pos odd, rest]
    refine ih (one_le_magnitude_mul base base) (mul_rounded _ _) ?_ (by omega)
    split
    · exact magnitude_mul_mono le (le_refl _)
    · exact le.trans (le_magnitude_mul rounded base)

theorem magnitude_pow_le {x : Binary64} {n k : Nat} (base : 1 ≤ x.magnitude) (bits : n < 2 ^ k) :
    (x.pow n).magnitude ≤ (x.pow (2 ^ k - 1)).magnitude :=
  magnitude_powLoop_le base (nearest_rounded false Nat.one_pos) (le_refl _) bits

end Binary64

end AdmissionCache
