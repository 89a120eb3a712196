import Calculator.Proofs.Number.Ranks

/-!
# Rounding

What is computed from the logarithm of a rational is its nearest rank. The number that has this rank, and
the sign of the rational, is the nearest of all finite numbers, as long as the rational is below the
middle between the greatest of these and the power of two after it.
-/

namespace Calculator

variable {q : Rat} {base : Rat} {log : Nat → Nat}

-- A logarithm of whole numbers gives that of rationals.
theorem floorLog_spec (hb : 1 < base)
    (hl : ∀ n, 0 < n → base ^ log n ≤ (n : Rat) ∧ (n : Rat) < base ^ (log n + 1)) (hq : 0 < q) :
    base ^ floorLog base log q ≤ q ∧ q < base ^ (floorLog base log q + 1) := by
  have hb₀ : 0 < base := by linarith
  have hd : (0 : Rat) < q.den := by exact_mod_cast q.den_pos
  have hn : ((q.num.natAbs : Nat) : Rat) = q * q.den := by
    rw [Rat.mul_den_eq_num, Nat.cast_natAbs, abs_of_nonneg (Rat.num_nonneg.mpr hq.le)]
  obtain ⟨h₁, h₂⟩ := hl _ (Int.natAbs_pos.mpr (Rat.num_ne_zero.mpr hq.ne'))
  obtain ⟨h₃, h₄⟩ := hl _ q.den_pos
  rw [hn] at h₁ h₂
  generalize hu : log q.num.natAbs = u at h₁ h₂
  generalize hv : log q.den = v at h₃ h₄
  have lower : base ^ ((u : Int) - v - 1) ≤ q := by
    have h : base ^ u ≤ q * base ^ (v + 1) := h₁.trans (by gcongr)
    rw [sub_sub, zpow_sub₀ hb₀.ne', div_le_iff₀ (by positivity)]
    exact_mod_cast h
  have upper : q < base ^ ((u : Int) - v + 1) := by
    have h : q * base ^ v < base ^ (u + 1) := lt_of_le_of_lt (by gcongr) h₂
    rw [sub_add_eq_add_sub, zpow_sub₀ hb₀.ne', lt_div_iff₀ (by positivity)]
    exact_mod_cast h
  unfold floorLog
  rw [hu, hv]
  dsimp only
  split_ifs with h
  case pos => exact ⟨h, upper⟩
  case neg =>
    rw [sub_add_cancel]
    exact ⟨lower, not_le.mp h⟩

theorem roundHalfEven_spec (q : Rat) :
    |q - roundHalfEven q| ≤ 1 / 2 ∧ (|q - roundHalfEven q| = 1 / 2 → roundHalfEven q % 2 = 0) := by
  have h₁ := Int.floor_le q
  have h₂ := Int.lt_floor_add_one q
  have hf : q.floor = ⌊q⌋ := rfl
  unfold roundHalfEven
  dsimp only
  rw [hf]
  split_ifs with h
  case pos =>
    rw [abs_of_nonneg (by linarith)]
    obtain h | ⟨h, he⟩ := h
    case inl => exact ⟨h.le, fun h' => absurd h' h.ne⟩
    case inr => exact ⟨h.le, fun _ => he⟩
  case neg =>
    obtain ⟨h, he⟩ := not_or.mp h
    push_cast
    rw [abs_of_nonpos (by linarith)]
    refine ⟨by linarith, fun h' => ?_⟩
    have := mt (And.intro (show q - ⌊q⌋ = 1 / 2 by linarith)) he
    omega

theorem roundHalfEven_nonneg (hq : 0 ≤ q) : 0 ≤ roundHalfEven q := by
  have : 0 ≤ q.floor := Int.floor_nonneg.mpr hq
  unfold roundHalfEven
  dsimp only
  split_ifs <;> omega

namespace Number

variable {x y : Number} {p unit : Rat} {n s : Nat}

theorem unitExponent_spec (hq : 0 < q) :
    -1074 ≤ unitExponent q ∧ q < 2 ^ 53 * (2 : Rat) ^ unitExponent q ∧
      (unitExponent q = -1074 ∨ 2 ^ 52 * (2 : Rat) ^ unitExponent q ≤ q) := by
  have hl (n : Nat) (hn : 0 < n) :
      (2 : Rat) ^ Nat.log2 n ≤ (n : Rat) ∧ (n : Rat) < 2 ^ (Nat.log2 n + 1) := by
    exact_mod_cast And.intro (Nat.log2_self_le hn.ne') Nat.lt_log2_self
  obtain ⟨h₁, h₂⟩ := floorLog_spec (by norm_num) hl hq
  unfold unitExponent
  generalize floorLog 2 Nat.log2 q = e at h₁ h₂
  rw [two_pow_mul_zpow, two_pow_mul_zpow]
  refine ⟨by omega, h₂.trans_le (zpow_le_zpow_right₀ (by norm_num) (by omega)), ?_⟩
  by_cases h : e - 52 ≤ -1074
  case pos => exact .inl (by omega)
  case neg => exact .inr (le_of_eq_of_le (by congr 1; omega) h₁)

theorem valueAt_of_unit {e s : Nat} (hs : s ≤ 2 ^ 53) (he : e = 0 ∨ 2 ^ 52 ≤ s) :
    valueAt (e * 2 ^ 52 + s) = s * (2 : Rat) ^ ((e : Int) - 1074) := by
  unfold valueAt
  obtain rfl | hs := Nat.eq_or_lt_of_le hs
  case inl =>
    have h₁ : significandAt (e * 2 ^ 52 + 2 ^ 53) = 2 ^ 52 := by
      unfold significandAt
      split <;> omega
    have h₂ : exponentAt (e * 2 ^ 52 + 2 ^ 53) = (e : Int) - 1074 + 1 := by
      unfold exponentAt
      omega
    rw [h₁, h₂, zpow_add_one₀ (by norm_num)]
    push_cast
    ring
  case inr =>
    have h₁ : significandAt (e * 2 ^ 52 + s) = s := by
      unfold significandAt
      split <;> omega
    have h₂ : exponentAt (e * 2 ^ 52 + s) = (e : Int) - 1074 := by
      unfold exponentAt
      omega
    rw [h₁, h₂]

-- A whole number of units is past no other one that its rational is not past.

theorem le_of_lt_units (hu : 0 < unit) (hd : |q - s * unit| ≤ unit / 2) (hq : q < n * unit) : s ≤ n := by
  have h₁ := (abs_le.mp hd).1
  have h₂ : (s : Rat) < (n + 1 : Nat) := by
    push_cast
    nlinarith
  exact Nat.lt_succ_iff.mp (by exact_mod_cast h₂)

theorem le_of_units_le (hu : 0 < unit) (hd : |q - s * unit| ≤ unit / 2) (hq : n * unit ≤ q) : n ≤ s := by
  have h₁ := (abs_le.mp hd).2
  have h₂ : (n : Rat) < (s + 1 : Nat) := by
    push_cast
    nlinarith
  exact Nat.lt_succ_iff.mp (by exact_mod_cast h₂)

-- A rational rounded to a whole number of units is rounded to the rank that these make up. Below a power
-- of two the ranks stand closer, but nothing there is rounded up to it as a number of units.
theorem nearest_of_unit {e : Nat} (hu : unit = (2 : Rat) ^ ((e : Int) - 1074))
    (hlt : q < 2 ^ 53 * unit) (hge : e = 0 ∨ 2 ^ 52 * unit ≤ q) (hd : |q - s * unit| ≤ unit / 2)
    (he : |q - s * unit| = unit / 2 → s % 2 = 0) : Nearest q (e * 2 ^ 52 + s) := by
  have hp : 0 < unit := hu ▸ two_zpow_pos
  obtain ⟨hd₁, hd₂⟩ := abs_le.mp hd
  have hs : s ≤ 2 ^ 53 := le_of_lt_units hp hd (by exact_mod_cast hlt)
  have hs' : e = 0 ∨ 2 ^ 52 ≤ s := hge.imp_right fun h => le_of_units_le hp hd (by exact_mod_cast h)
  have hv : valueAt (e * 2 ^ 52 + s) = s * unit := hu ▸ valueAt_of_unit hs hs'
  have gap (n : Nat) (h : (e : Int) - 1074 ≤ exponentAt n) : unit ≤ (2 : Rat) ^ exponentAt n :=
    hu ▸ zpow_le_zpow_right₀ (by norm_num) h
  have after := gap (e * 2 ^ 52 + s) (by unfold exponentAt; omega)
  have before (m : Nat) (hm : e * 2 ^ 52 + s = m + 1) :
      valueAt m + 2 ^ exponentAt m = s * unit ∧ (unit ≤ (2 : Rat) ^ exponentAt m ∨ s * unit ≤ q) := by
    refine ⟨by rw [← valueAt_succ, ← hm, hv], ?_⟩
    by_cases h : e = 0 ∨ 2 ^ 52 < s
    case pos => exact .inl (gap m (by unfold exponentAt; omega))
    case neg =>
      obtain ⟨h₁, h₂⟩ := not_or.mp h
      obtain rfl : s = 2 ^ 52 := by omega
      exact .inr (by exact_mod_cast hge.resolve_left h₁)
  have hpos (m : Nat) : 0 < (2 : Rat) ^ exponentAt m := two_zpow_pos
  apply Nearest.of_neighbours
  case h₁ =>
    rw [valueAt_succ, hv]
    linarith
  case h₂ =>
    intro m hm
    obtain ⟨h, h' | h'⟩ := before m hm
    case inl => linarith
    case inr => linarith [hpos m]
  case h₃ =>
    intro h
    rw [valueAt_succ, hv] at h
    have := he (by rw [abs_of_nonneg] <;> linarith)
    omega
  case h₄ =>
    intro m hm h
    obtain ⟨h₁, h₂ | h₂⟩ := before m hm
    case inl =>
      have := he (by rw [abs_of_nonpos] <;> linarith)
      omega
    case inr => linarith [hpos m]

-- The rank that the significand and the exponent of the unit make up.
def rankOf (q : Rat) : Nat :=
  if q = 0 then 0
  else (unitExponent q + 1074).toNat * 2 ^ 52 + (roundHalfEven (q / (2 : Rat) ^ unitExponent q)).toNat

theorem nearest_rankOf (hq : 0 ≤ q) : Nearest q (rankOf q) := by
  unfold rankOf
  split_ifs with h₀
  case pos =>
    rw [h₀]
    exact .zero
  case neg =>
    obtain ⟨hu, hlt, hge⟩ := unitExponent_spec (lt_of_le_of_ne hq (Ne.symm h₀))
    obtain ⟨hr, he⟩ := roundHalfEven_spec (q / (2 : Rat) ^ unitExponent q)
    have hp : 0 < (2 : Rat) ^ unitExponent q := two_zpow_pos
    have hr₀ : 0 ≤ q / (2 : Rat) ^ unitExponent q := by positivity
    have hd : q / (2 : Rat) ^ unitExponent q * (2 : Rat) ^ unitExponent q = q := div_mul_cancel₀ q hp.ne'
    generalize q / (2 : Rat) ^ unitExponent q = r at hr he hr₀ hd
    generalize unitExponent q = u at hu hlt hge hp hd
    obtain ⟨e, rfl⟩ : ∃ e : Nat, u = (e : Int) - 1074 := ⟨(u + 1074).toNat, by omega⟩
    obtain ⟨s, hs⟩ := Int.eq_ofNat_of_zero_le (roundHalfEven_nonneg hr₀)
    rw [hs] at hr he ⊢
    have hdist : |q - s * (2 : Rat) ^ ((e : Int) - 1074)| =
        |r - s| * (2 : Rat) ^ ((e : Int) - 1074) := by
      rw [← hd, ← sub_mul, abs_mul, abs_of_pos hp]
    have hn : ((e : Int) - 1074 + 1074).toNat * 2 ^ 52 + (s : Int).toNat = e * 2 ^ 52 + s := by omega
    rw [hn]
    refine nearest_of_unit rfl hlt (hge.imp_left (by omega)) ?_ fun h => ?_
    case refine_1 =>
      rw [hdist]
      push_cast at hr
      nlinarith
    case refine_2 =>
      rw [hdist] at h
      have := he (mul_right_cancel₀ hp.ne' (by push_cast; linarith))
      omega

theorem ofMagnitude_eq (q : Rat) : ofMagnitude q = ofRank (min (rankOf q) infiniteRank) := by
  unfold ofMagnitude rankOf
  split_ifs with h
  case pos => rfl
  case neg =>
    dsimp only
    rw [Nat.shiftLeft_eq]
    rfl

theorem rank_ofMagnitude (q : Rat) : rank (ofMagnitude q) = min (rankOf q) infiniteRank := by
  rw [ofMagnitude_eq, rank_ofRank (min_le_right ..)]

theorem isNegative_ofMagnitude (q : Rat) : isNegative (ofMagnitude q) = false := by
  rw [ofMagnitude_eq, isNegative_ofRank (min_le_right ..)]

theorem isNaN_ofMagnitude (q : Rat) : Float.isNaN (ofMagnitude q) = false := by
  rw [Bool.eq_false_iff, Ne, isNaN_iff, rank_ofMagnitude]
  omega

theorem ofMagnitude_eq_iff (hq : 0 ≤ q) (hx : x.isNegative = false) (fx : x.isFinite = true) :
    ofMagnitude q = x ↔ Nearest q x.rank := by
  have hr := isFinite_iff.mp fx
  rw [ofMagnitude_eq]
  constructor
  case mp =>
    intro h
    have hm : x.rank = min (rankOf q) infiniteRank := by
      rw [← h, rank_ofRank (min_le_right ..)]
    have he : x.rank = rankOf q := by omega
    exact he ▸ nearest_rankOf hq
  case mpr =>
    intro h
    have he : rankOf q = x.rank := (nearest_rankOf hq).unique h
    rw [he, min_eq_left hr.le]
    exact ext ((isNegative_ofRank hr.le).trans hx.symm) (rank_ofRank hr.le)

-- `q` is rounded to the finite number `x`: no other one is nearer, and if one is as near, the significand
-- of `x` is even. From the middle between the greatest finite number and the power of two after it on,
-- nothing is rounded to a finite number.
structure RoundsTo (q : Rat) (x : Number) : Prop where
  finite  : x.isFinite = true
  least   : ∀ y : Number, y.isFinite = true → |q - x.toRat| ≤ |q - y.toRat|
  even    : ∀ y : Number, y.isFinite = true → y.toRat ≠ x.toRat → |q - x.toRat| = |q - y.toRat| →
    x.significand % 2 = 0
  bounded : |q| < 2 ^ 1024 - 2 ^ 970

theorem valueAt_infiniteRank : valueAt infiniteRank = 2 ^ 1024 := by
  have hr : 2046 * 2 ^ 52 + 2 ^ 52 = infiniteRank := rfl
  have he : ((2046 : Nat) : Int) - 1074 = (972 : Nat) := rfl
  rw [← hr, valueAt_of_unit (by norm_num) (.inr le_rfl), he, zpow_natCast, Nat.cast_pow,
    Nat.cast_ofNat, ← pow_add]

-- The greatest finite number.
theorem valueAt_greatest : valueAt (infiniteRank - 1) = 2 ^ 1024 - 2 ^ 971 := by
  have hr : infiniteRank = infiniteRank - 1 + 1 := rfl
  have he : exponentAt (infiniteRank - 1) = (971 : Nat) := rfl
  have h := valueAt_infiniteRank
  rw [hr, valueAt_succ, he, zpow_natCast] at h
  exact eq_sub_of_add_eq h

-- The middle between that and the power of two after it.
theorem two_mul_bound :
    2 * ((2 : Rat) ^ 1024 - 2 ^ 970) = valueAt (infiniteRank - 1) + valueAt infiniteRank := by
  have hp : (2 : Rat) ^ 971 = 2 ^ 970 * 2 := pow_succ ..
  rw [valueAt_greatest, valueAt_infiniteRank, hp]
  generalize (2 : Rat) ^ 1024 = a
  generalize (2 : Rat) ^ 970 = b
  ring

theorem abs_toRat_lt (fx : x.isFinite = true) : |x.toRat| < 2 ^ 1024 - 2 ^ 970 := by
  have hr : x.rank ≤ infiniteRank - 1 := Nat.le_sub_one_of_lt (isFinite_iff.mp fx)
  have h₁ : valueAt x.rank ≤ valueAt (infiniteRank - 1) := valueAt_strictMono.monotone hr
  have h₂ : valueAt (infiniteRank - 1) < valueAt infiniteRank := valueAt_strictMono (by decide)
  rw [abs_toRat, ← mul_lt_mul_iff_right₀ (show (0 : Rat) < 2 by norm_num), two_mul_bound]
  linarith

theorem nearest_bound : Nearest (2 ^ 1024 - 2 ^ 970) infiniteRank := .of_middle two_mul_bound rfl

theorem RoundsTo.self (fx : x.isFinite = true) : RoundsTo x.toRat x where
  finite := fx
  least y _ := by
    rw [sub_self, abs_zero]
    exact abs_nonneg _
  even y _ hne he := by
    rw [sub_self, abs_zero, eq_comm, abs_eq_zero, sub_eq_zero] at he
    exact absurd he.symm hne
  bounded := abs_toRat_lt fx

-- A number with a minus sign is further off than its magnitude.
theorem abs_sub_magnitude_le (hq : 0 ≤ q) (y : Number) :
    |q - valueAt y.rank| ≤ |q - y.toRat| ∧
      (|q - valueAt y.rank| = |q - y.toRat| → y.toRat = valueAt y.rank ∨ q = 0) := by
  rw [toRat, magnitude_eq]
  have hv : 0 ≤ valueAt y.rank := valueAt_nonneg
  split_ifs
  case pos =>
    rw [sub_neg_eq_add, abs_of_nonneg (add_nonneg hq hv), abs_le]
    refine ⟨⟨by linarith, by linarith⟩, fun h => ?_⟩
    obtain h' | h' := abs_choice (q - valueAt y.rank)
    case inl => exact .inl (by linarith)
    case inr => exact .inr (by linarith)
  case neg => exact ⟨le_rfl, fun _ => .inl rfl⟩

theorem significand_mod_two (x : Number) : x.significand % 2 = x.rank % 2 := by
  rw [significand_eq]
  split <;> omega

theorem finite_ofRank (hn : n < infiniteRank) :
    (ofRank n).isFinite = true ∧ (ofRank n).toRat = valueAt n := by
  rw [isFinite_iff, toRat_eq (isNegative_ofRank hn.le), rank_ofRank hn.le]
  exact ⟨hn, rfl⟩

-- Below the bound, the greatest finite number is nearer than what comes after it.
theorem greatest_nearer (hq : q < 2 ^ 1024 - 2 ^ 970) (hn : infiniteRank ≤ n) :
    |q - valueAt (infiniteRank - 1)| < |q - valueAt n| := by
  rw [← mul_lt_mul_iff_right₀ (show (0 : Rat) < 2 by norm_num), two_mul_bound] at hq
  have hv : valueAt infiniteRank ≤ valueAt n := valueAt_strictMono.monotone hn
  have hl : valueAt (infiniteRank - 1) < valueAt n :=
    valueAt_strictMono (Nat.lt_of_lt_of_le (by decide) hn)
  refine lt_of_le_of_ne ((abs_sub_le_iff_of_lt hl).mpr (by linarith)) fun he => ?_
  linarith [(abs_sub_eq_iff_of_ne hl.ne).mp he]

-- A rational that is not negative is not rounded to a number below zero.
theorem RoundsTo.toRat_eq (h : RoundsTo q x) (hq : 0 ≤ q) : x.toRat = valueAt x.rank := by
  obtain ⟨fr, vr⟩ := finite_ofRank (isFinite_iff.mp h.finite)
  obtain ⟨hl, he⟩ := abs_sub_magnitude_le hq x
  obtain he | rfl := he (le_antisymm hl (vr ▸ h.least _ fr))
  case inl => exact he
  case inr =>
    obtain ⟨fz, vz⟩ := finite_ofRank (show 0 < infiniteRank by decide)
    have hz := h.least _ fz
    rw [vz, valueAt_zero, sub_zero, abs_zero] at hz
    have hx : 0 - x.toRat = 0 := abs_nonpos_iff.mp hz
    rw [hx, abs_zero] at hl
    linarith [abs_nonpos_iff.mp hl]

theorem RoundsTo.nearest (h : RoundsTo q x) (hq : 0 ≤ q) : Nearest q x.rank := by
  have hx := h.toRat_eq hq
  have hb : q < 2 ^ 1024 - 2 ^ 970 := abs_of_nonneg hq ▸ h.bounded
  have least (m : Nat) (hm : m < infiniteRank) : |q - valueAt x.rank| ≤ |q - valueAt m| := by
    rw [← hx, ← (finite_ofRank hm).2]
    exact h.least _ (finite_ofRank hm).1
  have greatest := least (infiniteRank - 1) (by decide)
  constructor
  case least =>
    intro m
    obtain hm | hm := Nat.lt_or_ge m infiniteRank
    case inl => exact least m hm
    case inr => exact greatest.trans (greatest_nearer hb hm).le
  case even =>
    intro m hm he
    obtain hl | hl := Nat.lt_or_ge m infiniteRank
    case inl =>
      obtain ⟨fm, vm⟩ := finite_ofRank hl
      have hv : (ofRank m).toRat ≠ x.toRat := by
        rw [vm, hx]
        exact valueAt_strictMono.injective.ne hm
      rw [← vm, ← hx] at he
      exact significand_mod_two x ▸ h.even _ fm hv he
    case inr => exact absurd he (greatest.trans_lt (greatest_nearer hb hl)).ne

theorem Nearest.roundsTo (h : Nearest q x.rank) (hx : x.isNegative = false) (fx : x.isFinite = true)
    (hq : 0 ≤ q) : RoundsTo q x where
  finite := fx
  least y _ := by
    rw [toRat_eq hx]
    exact (h.least _).trans (abs_sub_magnitude_le hq y).1
  even y _ hne he := by
    rw [toRat_eq hx] at hne he
    obtain ⟨hl, hy⟩ := abs_sub_magnitude_le hq y
    rw [significand_mod_two]
    obtain hy | rfl := hy (le_antisymm hl (he ▸ h.least y.rank))
    case inl =>
      rw [hy] at he hne
      exact h.even _ (fun hm => hne (congrArg valueAt hm)) he
    case inr => rw [h.unique .zero]
  bounded := by
    rw [abs_of_nonneg hq]
    by_contra hb
    exact absurd (isFinite_iff.mp fx) (not_lt.mpr (nearest_bound.le h (not_lt.mp hb)))

theorem roundsTo_iff (hx : x.isNegative = false) (fx : x.isFinite = true) (hq : 0 ≤ q) :
    RoundsTo q x ↔ Nearest q x.rank :=
  ⟨fun h => h.nearest hq, fun h => h.roundsTo hx fx hq⟩

-- The nearest number of a rational is the one that `nearest` gives.

theorem rank_nearest (q : Rat) : rank (Number.nearest q) = min (rankOf |q|) infiniteRank := by
  unfold Number.nearest
  split_ifs with h
  case pos => rw [rank_neg (isNaN_ofMagnitude _), rank_ofMagnitude, abs_of_neg h]
  case neg => rw [rank_ofMagnitude, abs_of_nonneg (not_lt.mp h)]

theorem isNegative_nearest (q : Rat) : isNegative (Number.nearest q) = decide (q < 0) := by
  unfold Number.nearest
  split_ifs with h
  case pos =>
    rw [isNegative_neg (isNaN_ofMagnitude _), isNegative_ofMagnitude, decide_eq_true h]
    rfl
  case neg => rw [isNegative_ofMagnitude, decide_eq_false h]

theorem RoundsTo.neg (h : RoundsTo q x) : RoundsTo (-q) (-x) := by
  have dist (a b : Rat) : |-a - -b| = |a - b| := by rw [← abs_neg, neg_sub_neg, neg_sub]
  have back {y : Number} (fy : y.isFinite = true) : |-q - y.toRat| = |q - toRat (-y)| := by
    rw [toRat_neg fy, ← dist, neg_neg]
  constructor
  case finite => exact isFinite_neg h.finite
  case least =>
    intro y fy
    rw [toRat_neg h.finite, dist, back fy]
    exact h.least _ (isFinite_neg fy)
  case even =>
    intro y fy hne he
    rw [toRat_neg h.finite] at hne
    rw [toRat_neg h.finite, dist, back fy] at he
    rw [significand_mod_two, rank_neg (isNaN_of_isFinite h.finite), ← significand_mod_two]
    refine h.even _ (isFinite_neg fy) (fun hv => hne ?_) he
    rw [← hv, toRat_neg fy, neg_neg]
  case bounded =>
    rw [abs_neg]
    exact h.bounded

theorem roundsTo_ofMagnitude (hq : 0 ≤ q) (hb : q < 2 ^ 1024 - 2 ^ 970) : RoundsTo q (ofMagnitude q) := by
  have hn := nearest_rankOf hq
  have hr : rankOf q < infiniteRank := by
    by_contra h
    exact absurd (hn.least _) (not_le.mpr (greatest_nearer hb (not_lt.mp h)))
  have he : rank (ofMagnitude q) = rankOf q := by
    rw [rank_ofMagnitude, min_eq_left hr.le]
  exact Nearest.roundsTo (he ▸ hn) (isNegative_ofMagnitude q) (isFinite_iff.mpr (he ▸ hr)) hq

theorem roundsTo_nearest (hb : |q| < 2 ^ 1024 - 2 ^ 970) : RoundsTo q (Number.nearest q) := by
  obtain ⟨h₁, h₂⟩ := abs_lt.mp hb
  unfold Number.nearest
  split_ifs with hq
  case pos =>
    have h := (roundsTo_ofMagnitude (neg_nonneg.mpr hq.le) (neg_lt.mp h₁)).neg
    rwa [neg_neg] at h
  case neg => exact roundsTo_ofMagnitude (not_lt.mp hq) h₂

theorem eq_nearest (hs : x.isNegative = decide (q < 0)) (hr : x.rank = min (rankOf |q|) infiniteRank) :
    x = Number.nearest q :=
  ext (hs.trans (isNegative_nearest q).symm) (hr.trans (rank_nearest q).symm)

theorem nearest_toRat (fx : x.isFinite = true) (h : x.toRat ≠ 0) : Number.nearest x.toRat = x := by
  have hr : rankOf |x.toRat| = x.rank := by
    rw [abs_toRat]
    exact (nearest_rankOf valueAt_nonneg).unique (.of_valueAt _)
  refine (eq_nearest ?_ ?_).symm
  case refine_1 => rw [Bool.eq_iff_iff, decide_eq_true_iff, toRat_lt_zero_iff, and_iff_left h]
  case refine_2 => rw [hr, min_eq_left (isFinite_iff.mp fx).le]

-- From the bound on, nothing finite comes out.
theorem isFinite_nearest : (Number.nearest q).isFinite = true ↔ |q| < 2 ^ 1024 - 2 ^ 970 := by
  constructor
  case mp =>
    intro h
    by_contra hb
    have hr := isFinite_iff.mp h
    rw [rank_nearest, min_lt_iff, or_iff_left (lt_irrefl _)] at hr
    exact absurd (nearest_bound.le (nearest_rankOf (abs_nonneg q)) (not_lt.mp hb)) (not_le.mpr hr)
  case mpr => exact fun h => (roundsTo_nearest h).finite

-- A rational is rounded to one number only, or to both zeros.

theorem RoundsTo.unique (h : RoundsTo q x) (h' : RoundsTo q y) : x.toRat = y.toRat := by
  have positive {q : Rat} {x y : Number} (hq : 0 ≤ q) (h : RoundsTo q x) (h' : RoundsTo q y) :
      x.toRat = y.toRat := by
    rw [h.toRat_eq hq, h'.toRat_eq hq, (h.nearest hq).unique (h'.nearest hq)]
  obtain hq | hq := le_total 0 q
  case inl => exact positive hq h h'
  case inr =>
    have hn := positive (neg_nonneg.mpr hq) h.neg h'.neg
    rwa [toRat_neg h.finite, toRat_neg h'.finite, neg_inj] at hn

theorem RoundsTo.le (h : RoundsTo q x) (h' : RoundsTo p y) (hq : 0 ≤ q) (hp : q ≤ p) : x ≤ y := by
  rw [le_iff_toRat h.finite h'.finite, h.toRat_eq hq, h'.toRat_eq (hq.trans hp)]
  exact valueAt_strictMono.monotone ((h.nearest hq).le (h'.nearest (hq.trans hp)) hp)

theorem RoundsTo.nearest_beq (h : RoundsTo q x) : (Number.nearest q == x) = true := by
  have hn := roundsTo_nearest h.bounded
  exact (beq_iff_toRat hn.finite h.finite).mpr (hn.unique h)

end Number

end Calculator
