import Calculator.Builtin
import Calculator.Proofs.Number.Sums

/-!
# Whole numbers

A number with a fraction is small, so the whole numbers around it need no rounding, and a fraction that is
less than a half needs none either. That is why `round` gives the whole number it should for all numbers,
although what it compares with a half may be rounded itself.
-/

namespace Calculator.Number

open Float.Model.UnpackedFloat (Sign)

variable {x y : Number} {q : Rat} {i : Int}

-- `q` is the rational of a finite number, and need not be rounded.
def Representable (q : Rat) : Prop := ∃ x : Number, x.isFinite = true ∧ x.toRat = q

theorem exists_rank {m : Nat} (hm : m ≤ 2 ^ 53) (e : Nat) :
    ∃ n ≤ e * 2 ^ 52 + 2 ^ 53, valueAt n = m * (2 : Rat) ^ ((e : Int) - 1074) := by
  induction e generalizing m
  case zero => exact ⟨0 * 2 ^ 52 + m, by omega, valueAt_of_unit hm (.inl rfl)⟩
  case succ e hi =>
    by_cases h : 2 ^ 52 ≤ m
    case pos => exact ⟨(e + 1) * 2 ^ 52 + m, by omega, valueAt_of_unit hm (.inr h)⟩
    case neg =>
      -- There is room for another bit, so half the unit will do.
      obtain ⟨n, hn, hv⟩ := hi (m := 2 * m) (by omega)
      have he : ((e + 1 : Nat) : Int) - 1074 = e - 1074 + 1 := by omega
      refine ⟨n, hn.trans (by gcongr; exact Nat.le_succ e), ?_⟩
      rw [hv, he, zpow_add_one₀ (by norm_num)]
      push_cast
      ring

namespace Representable

theorem neg (h : Representable q) : Representable (-q) := by
  obtain ⟨x, fx, rfl⟩ := h
  exact ⟨-x, isFinite_neg fx, toRat_neg fx⟩

theorem of_units {m : Int} (hm : m.natAbs ≤ 2 ^ 53) (h₁ : -1074 ≤ i) (h₂ : i ≤ 0) :
    Representable (m * (2 : Rat) ^ i) := by
  have natural {m : Nat} (hm : m ≤ 2 ^ 53) : Representable (m * (2 : Rat) ^ i) := by
    obtain ⟨n, hn, hv⟩ := exists_rank hm (i + 1074).toNat
    have hi : ((i + 1074).toNat : Int) - 1074 = i := by omega
    have hr : n < infiniteRank := by
      unfold infiniteRank
      omega
    obtain ⟨f, v⟩ := finite_ofRank hr
    exact ⟨ofRank n, f, v.trans (hi ▸ hv)⟩
  obtain h | h := Int.natAbs_eq m
  case inl =>
    rw [h, Int.cast_natCast]
    exact natural hm
  case inr =>
    rw [h, Int.cast_neg, Int.cast_natCast, neg_mul]
    exact (natural hm).neg

theorem of_int {m : Int} (hm : m.natAbs ≤ 2 ^ 53) : Representable m := by
  have h := of_units hm (i := 0) (by norm_num) le_rfl
  rwa [zpow_zero, mul_one] at h

theorem abs_lt (h : Representable q) : |q| < 2 ^ 1024 - 2 ^ 970 := by
  obtain ⟨x, fx, rfl⟩ := h
  exact abs_toRat_lt fx

theorem roundsTo (h : Representable q) (hx : RoundsTo q x) : x.toRat = q := by
  obtain ⟨y, fy, rfl⟩ := h
  exact hx.unique (.self fy)

end Representable

-- A finite number has a significand of 53 bits, under its sign, and a unit.
theorem exists_units (x : Number) : ∃ (m : Int) (i : Int),
    m.natAbs < 2 ^ 53 ∧ -1074 ≤ i ∧ x.toRat = m * (2 : Rat) ^ i := by
  have hs : x.significand < 2 ^ 53 := by
    rw [significand_eq]
    split <;> omega
  have he : -1074 ≤ x.exponent := by
    rw [exponent_eq]
    omega
  refine ⟨x.sign.apply x.significand, x.exponent, ?_, he, ?_⟩
  case refine_1 => cases x.sign <;> simpa [Sign.apply] using hs
  case refine_2 => rw [toRat_eq_apply, cast_apply, mul_assoc]

theorem fract_units (hi : 0 ≤ i) (m : Int) : Int.fract (m * (2 : Rat) ^ i) = 0 := by
  obtain ⟨k, rfl⟩ := Int.eq_ofNat_of_zero_le hi
  rw [zpow_natCast]
  exact_mod_cast Int.fract_intCast (m * 2 ^ k)

theorem abs_units_lt {m : Int} {k : Nat} (hm : m.natAbs < 2 ^ 53) (hi : i + k ≤ 0) :
    |m * (2 : Rat) ^ i| * 2 ^ k < 2 ^ 53 := by
  have hm : |(m : Rat)| < 2 ^ 53 := by
    rw [← Int.cast_abs, ← Nat.cast_natAbs]
    exact_mod_cast hm
  have hp : (2 : Rat) ^ i * 2 ^ k ≤ 1 := by
    rw [← zpow_natCast, ← zpow_add₀ (by norm_num)]
    exact zpow_le_one_of_nonpos₀ (by norm_num) hi
  rw [abs_mul, abs_of_pos two_zpow_pos, mul_assoc]
  exact (mul_le_of_le_one_right (abs_nonneg _) hp).trans_lt hm

-- A number with a fraction is so small that there are numbers for the whole numbers around it.
theorem whole_or_small (x : Number) : Int.fract x.toRat = 0 ∨ ⌊x.toRat⌋.natAbs ≤ 2 ^ 52 := by
  obtain ⟨m, i, hm, -, hx⟩ := exists_units x
  obtain hi | hi := le_or_gt 0 i
  case inl => exact .inl (hx ▸ fract_units hi m)
  case inr =>
    right
    have hl : |x.toRat| * 2 ^ 1 < 2 ^ 53 := hx ▸ abs_units_lt hm (by omega)
    have hl : |x.toRat| < (2 ^ 52 : Nat) := by
      push_cast
      linarith
    obtain ⟨h₁, h₂⟩ := abs_lt.mp hl
    have h₃ : (-(2 ^ 52 : Nat) : Int) ≤ ⌊x.toRat⌋ := Int.le_floor.mpr (by exact_mod_cast h₁.le)
    have h₄ : ⌊x.toRat⌋ < (2 ^ 52 : Nat) := Int.floor_lt.mpr (by exact_mod_cast h₂)
    omega

theorem floor_representable (fx : x.isFinite = true) : Representable ⌊x.toRat⌋ := by
  obtain h | h := whole_or_small x
  case inl => exact ⟨x, fx, by rw [← Int.floor_add_fract x.toRat, h, add_zero, Int.floor_intCast]⟩
  case inr => exact .of_int (h.trans (by norm_num))

theorem toRat_withSignOf (fx : x.isFinite = true) :
    (x.withSignOf y).isFinite = true ∧ (x.withSignOf y).isNegative = y.isNegative ∧
      (x.withSignOf y).toRat = if y.isNegative then -|x.toRat| else |x.toRat| := by
  have nx := isNaN_of_isFinite fx
  have fa := isFinite_abs fx
  have na := isNaN_abs nx
  have ha : toRat x.abs = |x.toRat| := by
    rw [abs_toRat, toRat_eq (isNegative_abs nx), rank_abs nx]
  unfold withSignOf
  cases y.isNegative
  case false => exact ⟨fa, isNegative_abs nx, ha⟩
  case true =>
    refine ⟨isFinite_neg fa, ?_, ?_⟩
    case refine_1 =>
      change isNegative (-x.abs) = true
      rw [isNegative_neg na, isNegative_abs nx]
      rfl
    case refine_2 =>
      change toRat (-x.abs) = -|x.toRat|
      rw [toRat_neg fa, ha]

-- `y` is the whole number `n`, and under the sign of `x` if that is zero.
structure Whole (x : Number) (n : Int) (y : Number) : Prop where
  finite : y.isFinite = true
  value  : y.toRat = n
  sign   : n = 0 → y.isNegative = x.isNegative

theorem whole_floor (fx : x.isFinite = true) : Whole x ⌊x.toRat⌋ x.floor := by
  have hr := floor_representable fx
  have hn := roundsTo_nearest hr.abs_lt
  obtain ⟨fs, hs, hv⟩ := toRat_withSignOf (y := x) hn.finite
  have hf : x.floor = (nearest ⌊x.toRat⌋).withSignOf x := if_pos fx
  have hm : 0 ≤ x.magnitude := magnitude_eq x ▸ valueAt_nonneg
  rw [hf]
  refine ⟨fs, hv.trans ?_, fun _ => hs⟩
  rw [hr.roundsTo hn]
  split_ifs with hx
  case pos =>
    have : x.toRat ≤ 0 := by
      rw [toRat, if_pos hx]
      linarith
    rw [abs_of_nonpos ((Int.floor_le _).trans this), neg_neg]
  case neg =>
    have : 0 ≤ x.toRat := by rwa [toRat, if_neg hx]
    exact abs_of_nonneg (by exact_mod_cast Int.floor_nonneg.mpr this)

theorem Whole.unique {z : Number} {n : Int} (h : Whole x n y) (h' : Whole x n z) : y = z := by
  by_cases hn : n = 0
  case pos =>
    have zero {w : Number} (h : Whole x n w) : w.rank = 0 := by
      rw [← toRat_eq_zero_iff, h.value, hn, Int.cast_zero]
    exact ext ((h.sign hn).trans (h'.sign hn).symm) ((zero h).trans (zero h').symm)
  case neg =>
    have hv : (n : Rat) ≠ 0 := Int.cast_ne_zero.mpr hn
    rw [← nearest_toRat h.finite (h.value ▸ hv), ← nearest_toRat h'.finite (h'.value ▸ hv), h.value,
      h'.value]

-- A fraction of less than a half has no more bits than the number, or the number is all of it.
theorem fract_representable (fx : x.isFinite = true) (h : Int.fract x.toRat < 1 / 2) :
    Representable (Int.fract x.toRat) := by
  obtain ⟨m, i, hm, hi, hx⟩ := exists_units x
  obtain h₀ | h₁ | h₂ : 0 ≤ i ∨ (-53 ≤ i ∧ i < 0) ∨ i ≤ -54 := by omega
  case inl =>
    rw [hx, fract_units h₀ m]
    exact_mod_cast Representable.of_int (m := 0) (by norm_num)
  case inr.inl =>
    obtain ⟨k, rfl⟩ : ∃ k : Nat, i = -k := ⟨(-i).toNat, by omega⟩
    have hf : Int.fract x.toRat = (m % (2 ^ k : Nat) : Int) * (2 : Rat) ^ (-k : Int) := by
      rw [hx, zpow_neg, zpow_natCast, ← div_eq_mul_inv, ← div_eq_mul_inv]
      exact_mod_cast Int.fract_div_intCast_eq_div_intCast_mod (k := Rat) (m := m) (n := 2 ^ k)
    have h₂ : 0 < 2 ^ k := by positivity
    have h₃ : 2 ^ k ≤ 2 ^ 53 := Nat.pow_le_pow_right (by norm_num) (by omega)
    rw [hf]
    refine .of_units ?_ hi h₁.2.le
    generalize 2 ^ k = d at h₂ h₃
    have h₄ := Int.emod_nonneg m (show (d : Int) ≠ 0 by omega)
    have h₅ := Int.emod_lt_of_pos m (show (0 : Int) < d by omega)
    omega
  case inr.inr =>
    have hl : |x.toRat| * 2 ^ 54 < 2 ^ 53 := hx ▸ abs_units_lt hm (by exact_mod_cast by omega)
    -- From below 0 there would be more than a half left over.
    obtain ⟨hl₁, hl₂⟩ := abs_lt.mp (show |x.toRat| < 1 / 2 by linarith)
    obtain hs | hs := lt_or_ge x.toRat 0
    case inl =>
      have hw : ⌊x.toRat⌋ = -1 := Int.floor_eq_iff.mpr ⟨by push_cast; linarith, by push_cast; linarith⟩
      rw [Int.fract, hw] at h
      push_cast at h
      linarith
    case inr =>
      have hw : Int.fract x.toRat = x.toRat := Int.fract_eq_self.mpr ⟨hs, by linarith⟩
      exact ⟨x, fx, hw.symm⟩

theorem half_le_iff (fx : x.isFinite = true) : 0.5 ≤ x - x.floor ↔ 1 / 2 ≤ Int.fract x.toRat := by
  have hf := whole_floor fx
  have h₀ := Int.fract_nonneg x.toRat
  have h₁ := (Representable.of_int (m := 1) (by norm_num)).abs_lt
  have hd := roundsTo_sub fx hf.finite
  rw [Int.cast_one, abs_one] at h₁
  rw [hf.value, Int.self_sub_floor, abs_of_nonneg h₀] at hd
  have hd := hd ((Int.fract_lt_one _).trans h₁)
  have fh : Float.isFinite 0.5 = true := by decide
  have hv : toRat 0.5 = 1 / 2 := by decide +kernel
  constructor
  case mp =>
    intro h
    rw [le_iff_toRat fh hd.finite, hv] at h
    by_contra hl
    rw [(fract_representable fx (not_le.mp hl)).roundsTo hd] at h
    exact hl h
  case mpr =>
    intro h
    have hh := hv ▸ RoundsTo.self fh
    exact hh.le hd (by norm_num) h

-- 1 is added only where the sum is exact.
theorem succ_exact (fx : x.isFinite = true) (h : 1 / 2 ≤ Int.fract x.toRat) :
    (x.floor + 1).isFinite = true ∧ (x.floor + 1).toRat = ⌊x.toRat⌋ + 1 := by
  have hf := whole_floor fx
  have hv : toRat 1 = 1 := by decide +kernel
  have hr : Representable (⌊x.toRat⌋ + 1) := by
    have hs : ⌊x.toRat⌋.natAbs ≤ 2 ^ 52 := (whole_or_small x).resolve_left (by linarith)
    exact_mod_cast Representable.of_int (m := ⌊x.toRat⌋ + 1) (by omega)
  have hs := roundsTo_add hf.finite (show Float.isFinite 1 = true by decide)
  rw [hf.value, hv] at hs
  have hs := hs hr.abs_lt
  exact ⟨hs.finite, hr.roundsTo hs⟩

theorem floor_add_half (q : Rat) : ⌊q + 1 / 2⌋ = if 1 / 2 ≤ Int.fract q then ⌊q⌋ + 1 else ⌊q⌋ := by
  have h₀ := Int.fract_nonneg q
  have h₁ := Int.fract_lt_one q
  have hq := Int.floor_add_fract q
  split_ifs
  case pos => exact Int.floor_eq_iff.mpr ⟨by push_cast; linarith, by push_cast; linarith⟩
  case neg => exact Int.floor_eq_iff.mpr ⟨by linarith, by linarith⟩

-- Up to the sign of zero, the result is rounded down or is 1 more.
theorem exists_rounded (fx : x.isFinite = true) : ∃ y : Number, y.isFinite = true ∧
    y.toRat = ⌊x.toRat + 1 / 2⌋ ∧ x.round = if y == 0 then y.withSignOf x else y := by
  rw [floor_add_half]
  by_cases h : 0.5 ≤ x - x.floor
  case pos =>
    have hq := (half_le_iff fx).mp h
    obtain ⟨fs, hs⟩ := succ_exact fx hq
    refine ⟨x.floor + 1, fs, ?_, ?_⟩
    case refine_1 => rw [if_pos hq, hs, Int.cast_add, Int.cast_one]
    case refine_2 => simp only [round, ge_iff_le, if_pos h]
  case neg =>
    have hf := whole_floor fx
    refine ⟨x.floor, hf.finite, ?_, ?_⟩
    case refine_1 => rw [if_neg (mt (half_le_iff fx).mpr h), hf.value]
    case refine_2 => simp only [round, ge_iff_le, if_neg h]

theorem whole_round (fx : x.isFinite = true) : Whole x ⌊x.toRat + 1 / 2⌋ x.round := by
  obtain ⟨y, fy, hy, hr⟩ := exists_rounded fx
  have zero : (y == 0) = true ↔ ⌊x.toRat + 1 / 2⌋ = 0 := by
    rw [beq_zero_iff fy, ← toRat_eq_zero_iff, hy, Int.cast_eq_zero]
  rw [hr]
  split_ifs with h
  case pos =>
    obtain ⟨fs, hs, hv⟩ := toRat_withSignOf (y := x) fy
    refine ⟨fs, ?_, fun _ => hs⟩
    rw [hv, hy, zero.mp h]
    simp
  case neg => exact ⟨fy, hy, fun hn => absurd (zero.mpr hn) h⟩

theorem round_of_not_finite (fx : x.isFinite = false) : x.round = x := by
  obtain rfl | rfl | rfl := not_finite_cases fx <;> decide +kernel

-- Rounding gives the nearest whole number, and the greater one of two that are equally near. What is
-- compared with a half is on the same side of it as the fraction, and 1 is added without rounding.
theorem round_exact (x : Number) (args : List Number) (draws : Draws) :
    ∃ y, Builtin.apply (.unary .round) (x :: args) draws = (y, draws) ∧
      (x.isFinite = false → y = x) ∧
      (x.isFinite = true →
        (∀ z, Whole x ⌊x.toRat + 1 / 2⌋ z ↔ z = y) ∧
        Whole x ⌊x.toRat⌋ x.floor ∧
        (0.5 ≤ x - x.floor ↔ 1 / 2 ≤ x.toRat - ⌊x.toRat⌋) ∧
        (0.5 ≤ x - x.floor → (x.floor + 1).isFinite = true ∧ (x.floor + 1).toRat = ⌊x.toRat⌋ + 1)) := by
  refine ⟨x.round, rfl, round_of_not_finite, fun fx => ⟨fun z => ?_, whole_floor fx, half_le_iff fx, ?_⟩⟩
  case refine_1 => exact ⟨fun h => h.unique (whole_round fx), fun h => h ▸ whole_round fx⟩
  case refine_2 => exact fun h => succ_exact fx ((half_le_iff fx).mp h)

-- The number next to 0 from below. It is so small that 1 is what is compared with a half.
theorem round_exact_of_least :
    let x : Number := .ofBits 0x8000000000000001
    (x.isFinite = true ∧ x - x.floor = 1 ∧ 0.5 ≤ x - x.floor) ∧
      (∃ y, Builtin.apply (.unary .round) [x] (.ofSeed 0) = (y, .ofSeed 0) ∧
        (∀ z, Whole x ⌊x.toRat + 1 / 2⌋ z ↔ z = y) ∧
        (x.floor + 1).isFinite = true ∧ (x.floor + 1).toRat = ⌊x.toRat⌋ + 1) ∧
      infinity.isFinite = false ∧
      ∃ y, Builtin.apply (.unary .round) [infinity] (.ofSeed 0) = (y, .ofSeed 0) ∧ y = infinity := by
  intro x
  have fx : x.isFinite = true := by decide
  have fi : infinity.isFinite = false := by decide
  have h₁ : x - x.floor = 1 := by decide +kernel
  have h₂ : 0.5 ≤ x - x.floor := h₁ ▸ by decide
  obtain ⟨y, hy, -, h⟩ := round_exact x [] (.ofSeed 0)
  obtain ⟨z, hz, h', -⟩ := round_exact infinity [] (.ofSeed 0)
  obtain ⟨hw, -, -, hs⟩ := h fx
  exact ⟨⟨fx, h₁, h₂⟩, ⟨y, hy, hw, hs h₂⟩, fi, z, hz, h' fi⟩

-- The number next to a half from below, which is rounded to 1 when a half is added to it.
example : round 0.49999999999999994 = 0 ∧ floor (0.49999999999999994 + 0.5) = 1 := by decide +kernel

end Calculator.Number
