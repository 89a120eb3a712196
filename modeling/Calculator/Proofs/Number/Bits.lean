import Calculator.Number.Nearest
import Mathlib

/-!
# Bits of numbers

The bits of a number are its sign and its rank, the whole number that the bits of exponent and fraction
make up. Ranks order the magnitudes of numbers: those of the finite ones come first, then that of the
infinities, and then that of NaN. What arithmetic takes a number apart into are its sign, significand
and exponent.
-/

namespace Calculator.Number

open Float.Model (Format UnpackedFloat)
open Float.Model.UnpackedFloat

def rank (x : Number) : Nat := x.toBits.toNat % 2 ^ 63

-- The rank of the infinities.
def infiniteRank : Nat := 2047 * 2 ^ 52

def sign (x : Number) : Sign := if x.isNegative then .negative else .positive

-- Sign, exponent and fraction as they stand in the bits of `x`.
structure Fields (x : Number) (s : Sign) (e : BitVec 11) (m : BitVec 52) : Prop where
  bits : x.toBits.toBitVec = packComponents Format.binary64 s e m

variable {x y : Number} {s : Sign} {e : BitVec 11} {m : BitVec 52} {n : Nat}

theorem toNat_packComponents :
    (packComponents Format.binary64 s e m).toNat =
      s.toBitVec.toNat * 2 ^ 63 + (e.toNat * 2 ^ 52 + m.toNat) := by
  have he : (s.toBitVec ++ e).toNat = s.toBitVec.toNat * 2 ^ 11 + e.toNat := by
    rw [BitVec.toNat_append, ← Nat.shiftLeft_add_eq_or_of_lt e.isLt, Nat.shiftLeft_eq]
  unfold packComponents
  rw [BitVec.toNat_append, ← Nat.shiftLeft_add_eq_or_of_lt m.isLt, he, Nat.shiftLeft_eq]
  omega

theorem fields_exist (x : Number) : ∃ s e m, Fields x s e m := by
  have h : packComponents Format.binary64 _ _ _ = x.toBits.toBitVec :=
    packComponents_unpackSign_unpackExponent_unpackMantissa _
  exact ⟨_, _, _, ⟨h.symm⟩⟩

namespace Fields

theorem toNat_toBits (h : Fields x s e m) :
    x.toBits.toNat = s.toBitVec.toNat * 2 ^ 63 + (e.toNat * 2 ^ 52 + m.toNat) := by
  rw [← toNat_packComponents, ← h.bits]
  rfl

theorem rank_eq (h : Fields x s e m) : x.rank = e.toNat * 2 ^ 52 + m.toNat := by
  have := m.isLt
  have := e.isLt
  rw [rank, h.toNat_toBits]
  omega

theorem isNegative_eq (h : Fields x s e m) : x.isNegative = (s == .negative) := by
  have := m.isLt
  have := e.isLt
  have hn : x.toBits.toNat >>> 63 = s.toBitVec.toNat := by
    rw [h.toNat_toBits, Nat.shiftRight_eq_div_pow]
    omega
  rw [isNegative, hn]
  cases s <;> rfl

theorem sign_eq (h : Fields x s e m) : x.sign = s := by
  rw [sign, h.isNegative_eq]
  cases s <;> rfl

theorem unpack_eq (h : Fields x s e m) :
    x.toModel.unpack = UnpackedFloat.unpack _ (packComponents Format.binary64 s e m) := by
  rw [← h.bits]
  rfl

-- Fields like these make up a number, while those of NaN are always the same.
theorem ofBits (h : e.toNat < 2047 ∨ m = 0) :
    Fields (.ofBits (.ofBitVec (packComponents Format.binary64 s e m))) s e m where
  bits := by
    refine (@pack_unpack Format.binary64 _ (by decide)).trans (if_neg ?_)
    rw [isNaNBits, unpackExponent_packComponents, unpackMantissa_packComponents, decide_eq_true_eq]
    rintro ⟨rfl, hm⟩
    exact hm (h.resolve_left (by decide))

end Fields

theorem rank_lt (x : Number) : x.rank < 2 ^ 63 := Nat.mod_lt _ (by decide)

theorem exponentField_eq (x : Number) : x.exponentField = x.rank / 2 ^ 52 := by
  rw [exponentField, rank, Nat.shiftRight_eq_div_pow]
  omega

theorem fractionField_eq (x : Number) : x.fractionField = x.rank % 2 ^ 52 := by
  rw [fractionField, rank, Nat.one_shiftLeft]
  omega

theorem significand_eq (x : Number) :
    x.significand = if x.rank < 2 ^ 52 then x.rank else 2 ^ 52 + x.rank % 2 ^ 52 := by
  rw [significand, exponentField_eq, fractionField_eq, Nat.one_shiftLeft]
  split <;> split <;> omega

theorem exponent_eq (x : Number) : x.exponent = (max (x.rank / 2 ^ 52) 1 : Nat) - 1075 := by
  rw [exponent, exponentField_eq]

theorem unpack_eq (x : Number) : x.toModel.unpack =
    if x.exponentField = 2047 then
      if x.fractionField = 0 then .infinity x.sign else .notANumber
    else if h : x.significand = 0 then .zero x.sign
    else .finite x.sign x.significand x.exponent (Nat.pos_of_ne_zero h) := by
  obtain ⟨s, e, m, h⟩ := fields_exist x
  have hm := m.isLt
  have he : x.exponentField = e.toNat := by
    rw [exponentField_eq, h.rank_eq]
    omega
  have hf : x.fractionField = m.toNat := by
    rw [fractionField_eq, h.rank_eq]
    omega
  have h₁ : e = -1#11 ↔ e.toNat = 2047 := BitVec.toNat_inj.symm
  have h₂ : e = 0#11 ↔ e.toNat = 0 := BitVec.toNat_inj.symm
  have h₃ : m = 0#52 ↔ m.toNat = 0 := BitVec.toNat_inj.symm
  have h₄ : (1#1 ++ m).toNat = 1 <<< 52 + m.toNat := by
    rw [BitVec.toNat_append, ← Nat.shiftLeft_add_eq_or_of_lt hm]
    rfl
  have h₅ : Format.binary64.exponentBias = 1023 := rfl
  rw [h.unpack_eq]
  simp only [UnpackedFloat.unpack, unpackExponent_packComponents, unpackMantissa_packComponents,
    unpackSign_packComponents, Sign.ofBitVec_toBitVec, significand, exponent, h.sign_eq, he, hf, h₁,
    h₂, h₃, h₄, h₅]
  by_cases hn : e.toNat = 0
  case pos => simp [hn]
  case neg =>
    have hs : 1 <<< 52 + m.toNat ≠ 0 := by omega
    have hx : max e.toNat 1 = e.toNat := by omega
    simp only [hn, hs, hx, ↓reduceIte, ↓reduceDIte]
    rfl

theorem ext (hs : x.isNegative = y.isNegative) (hr : x.rank = y.rank) : x = y := by
  have := x.toBits.toNat_lt
  have := y.toBits.toNat_lt
  rw [isNegative, isNegative, Nat.shiftRight_eq_div_pow, Nat.shiftRight_eq_div_pow, Bool.eq_iff_iff,
    beq_iff_eq, beq_iff_eq] at hs
  rw [rank, rank] at hr
  refine Float.toBits_inj.mp (UInt64.toNat_inj.mp ?_)
  omega

-- How the kinds of numbers are told apart.

theorem isFinite_iff : x.isFinite = true ↔ x.rank < infiniteRank := by
  have hx : x.isFinite = x.toModel.unpack.isFinite := rfl
  have := x.rank_lt
  rw [hx, unpack_eq, exponentField_eq, infiniteRank]
  split_ifs <;> simp [UnpackedFloat.isFinite] <;> omega

theorem isInf_iff : x.isInf = true ↔ x.rank = infiniteRank := by
  have hx : x.isInf = x.toModel.unpack.isInf := rfl
  have := x.rank_lt
  rw [hx, unpack_eq, exponentField_eq, fractionField_eq, infiniteRank]
  split_ifs <;> simp [UnpackedFloat.isInf] <;> omega

theorem isNaN_iff : x.isNaN = true ↔ infiniteRank < x.rank := by
  have hx : x.isNaN = x.toModel.unpack.isNaN := rfl
  have := x.rank_lt
  rw [hx, unpack_eq, exponentField_eq, fractionField_eq, infiniteRank]
  split_ifs <;> simp [UnpackedFloat.isNaN] <;> omega

theorem eq_nan (nx : x.isNaN = true) : x = nan := by
  have h : nan = Float.nan := by decide
  rw [h]
  simpa using nx

theorem not_finite_cases (fx : x.isFinite = false) : x = infinity ∨ x = -infinity ∨ x = nan := by
  have hr : infiniteRank ≤ x.rank := by
    rw [← not_lt, ← isFinite_iff, fx]
    exact Bool.false_ne_true
  obtain hr | hr := hr.eq_or_lt
  case inl =>
    have h₁ : infinity.rank = infiniteRank := by decide
    have h₂ : rank (-infinity) = infiniteRank := by decide
    cases hs : x.isNegative
    case false => exact .inl (ext (hs.trans (by decide)) (hr.symm.trans h₁.symm))
    case true  => exact .inr (.inl (ext (hs.trans (by decide)) (hr.symm.trans h₂.symm)))
  case inr => exact .inr (.inr (eq_nan (isNaN_iff.mpr hr)))

theorem isNaN_of_isInf (h : x.isInf = true) : x.isNaN = false := by
  rw [Bool.eq_false_iff, Ne, isNaN_iff, isInf_iff.mp h]
  exact lt_irrefl _

theorem isInf_of_isFinite (h : x.isFinite = true) : x.isInf = false := by
  rw [Bool.eq_false_iff, Ne, isInf_iff]
  exact (isFinite_iff.mp h).ne

theorem isNaN_of_isFinite (h : x.isFinite = true) : x.isNaN = false := by
  rw [Bool.eq_false_iff, Ne, isNaN_iff]
  exact (isFinite_iff.mp h).not_gt

theorem significand_eq_zero_iff : x.significand = 0 ↔ x.rank = 0 := by
  rw [significand_eq]
  split <;> omega

-- What the operations on the sign do to the bits.

theorem unpack_neg :
    UnpackedFloat.unpack Format.binary64 (packComponents _ (-s) e m) =
      (UnpackedFloat.unpack Format.binary64 (packComponents _ s e m)).neg := by
  simp only [UnpackedFloat.unpack, unpackExponent_packComponents, unpackMantissa_packComponents,
    unpackSign_packComponents, Sign.ofBitVec_toBitVec]
  split_ifs <;> rfl

theorem unpack_abs :
    UnpackedFloat.unpack Format.binary64 (packComponents _ .positive e m) =
      (UnpackedFloat.unpack Format.binary64 (packComponents _ s e m)).abs := by
  simp only [UnpackedFloat.unpack, unpackExponent_packComponents, unpackMantissa_packComponents,
    unpackSign_packComponents, Sign.ofBitVec_toBitVec]
  split_ifs <;> rfl

theorem Fields.ordered (h : Fields x s e m) (hx : x.isNaN = false) : e.toNat < 2047 ∨ m = 0 := by
  have := m.isLt
  have hr : ¬infiniteRank < x.rank := by
    rw [← isNaN_iff, hx]
    exact Bool.false_ne_true
  rw [h.rank_eq, infiniteRank] at hr
  refine (Nat.lt_or_ge e.toNat 2047).imp_right fun _ => BitVec.eq_of_toNat_eq ?_
  change m.toNat = 0
  omega

theorem Fields.neg (h : Fields x s e m) (hx : x.isNaN = false) : Fields (-x) (-s) e m where
  bits := by
    rw [← (ofBits (h.ordered hx)).bits]
    change UnpackedFloat.pack Format.binary64 x.toModel.unpack.neg = _
    rw [h.unpack_eq, ← unpack_neg]
    rfl

theorem Fields.abs (h : Fields x s e m) (hx : x.isNaN = false) : Fields x.abs .positive e m where
  bits := by
    rw [← (ofBits (h.ordered hx)).bits]
    change UnpackedFloat.pack Format.binary64 x.toModel.unpack.abs = _
    rw [h.unpack_eq, ← unpack_abs]
    rfl

theorem rank_neg (hx : x.isNaN = false) : (-x).rank = x.rank := by
  obtain ⟨s, e, m, h⟩ := fields_exist x
  rw [(h.neg hx).rank_eq, h.rank_eq]

theorem isNegative_neg (hx : x.isNaN = false) : (-x).isNegative = !x.isNegative := by
  obtain ⟨s, e, m, h⟩ := fields_exist x
  rw [(h.neg hx).isNegative_eq, h.isNegative_eq]
  cases s <;> rfl

theorem isNaN_neg (hx : x.isNaN = false) : Float.isNaN (-x) = false := by
  rw [Bool.eq_false_iff, Ne, isNaN_iff, rank_neg hx, ← isNaN_iff, hx]
  exact Bool.false_ne_true

theorem rank_abs (hx : x.isNaN = false) : rank x.abs = x.rank := by
  obtain ⟨s, e, m, h⟩ := fields_exist x
  rw [(h.abs hx).rank_eq, h.rank_eq]

theorem isNegative_abs (hx : x.isNaN = false) : isNegative x.abs = false := by
  obtain ⟨s, e, m, h⟩ := fields_exist x
  exact (h.abs hx).isNegative_eq

theorem isNaN_abs (hx : x.isNaN = false) : Float.isNaN x.abs = false := by
  rw [Bool.eq_false_iff, Ne, isNaN_iff, rank_abs hx, ← isNaN_iff, hx]
  exact Bool.false_ne_true

theorem isFinite_abs (h : x.isFinite = true) : Float.isFinite x.abs = true := by
  rw [isFinite_iff, rank_abs (isNaN_of_isFinite h)]
  exact isFinite_iff.mp h

theorem isFinite_neg (h : x.isFinite = true) : Float.isFinite (-x) = true := by
  rw [isFinite_iff, rank_neg (isNaN_of_isFinite h)]
  exact isFinite_iff.mp h

theorem abs_of_positive (h : x.isNegative = false) (hx : x.isNaN = false) : x.abs = x :=
  ext ((isNegative_abs hx).trans h.symm) (rank_abs hx)

theorem neg_abs_of_negative (h : x.isNegative = true) (hx : x.isNaN = false) : -x.abs = x := by
  have ha := isNaN_abs hx
  refine ext ?_ ((rank_neg ha).trans (rank_abs hx))
  rw [isNegative_neg ha, isNegative_abs hx, h]
  rfl

-- The number that is not negative and has a given rank.
def ofRank (n : Nat) : Number := .ofBits (.ofNat n)

theorem fields_ofRank (hn : n ≤ infiniteRank) :
    Fields (ofRank n) .positive (.ofNat 11 (n / 2 ^ 52)) (.ofNat 52 n) := by
  rw [infiniteRank] at hn
  have hb : (UInt64.ofNat n).toBitVec =
      packComponents Format.binary64 .positive (.ofNat 11 (n / 2 ^ 52)) (.ofNat 52 n) := by
    apply BitVec.eq_of_toNat_eq
    rw [toNat_packComponents, BitVec.toNat_ofNat, BitVec.toNat_ofNat]
    change n % 2 ^ 64 = 0 * 2 ^ 63 + _
    omega
  have he : (BitVec.ofNat 11 (n / 2 ^ 52)).toNat < 2047 ∨ BitVec.ofNat 52 n = 0 := by
    rw [← BitVec.toNat_inj, BitVec.toNat_ofNat, BitVec.toNat_ofNat]
    change _ ∨ _ = 0
    omega
  have h := Fields.ofBits (s := .positive) he
  rwa [← hb] at h

theorem rank_ofRank (hn : n ≤ infiniteRank) : (ofRank n).rank = n := by
  rw [(fields_ofRank hn).rank_eq, BitVec.toNat_ofNat, BitVec.toNat_ofNat]
  rw [infiniteRank] at hn
  omega

theorem isNegative_ofRank (hn : n ≤ infiniteRank) : (ofRank n).isNegative = false :=
  (fields_ofRank hn).isNegative_eq

theorem unpack_finite (fx : x.isFinite = true) : x.toModel.unpack =
    if h : x.significand = 0 then .zero x.sign
    else .finite x.sign x.significand x.exponent (Nat.pos_of_ne_zero h) := by
  have hr := isFinite_iff.mp fx
  have hn : x.exponentField ≠ 2047 := by
    rw [exponentField_eq]
    unfold infiniteRank at hr
    omega
  rw [unpack_eq, if_neg hn]

-- Ranks compare as exponents do, and as significands where these are equal.
theorem compare_rank :
    (compare x.exponent y.exponent).then (compare x.significand y.significand) =
      compare x.rank y.rank := by
  rw [exponent_eq, exponent_eq, significand_eq, significand_eq]
  obtain h | h | h := Nat.lt_trichotomy x.rank y.rank
  case inl =>
    rw [compare_lt_iff_lt.mpr h, Ordering.then_eq_lt, compare_lt_iff_lt, compare_eq_iff_eq,
      compare_lt_iff_lt]
    split_ifs <;> omega
  case inr.inl => simp [h]
  case inr.inr =>
    rw [compare_gt_iff_gt.mpr h, Ordering.then_eq_gt, compare_gt_iff_gt, compare_eq_iff_eq,
      compare_gt_iff_gt]
    split_ifs <;> omega

-- The rank under the sign of the number. Both zeros have the same one.
def signedRank (x : Number) : Int := if x.isNegative then -x.rank else x.rank

theorem signedRank_eq (x : Number) : x.signedRank = x.sign.apply x.rank := by
  unfold signedRank sign
  cases x.isNegative <;> rfl

-- Everything but NaN is an infinity, a zero, or finite and not zero.
theorem unpack_cases (nx : x.isNaN = false) :
    (x.rank = infiniteRank ∧ x.toModel.unpack = .infinity x.sign) ∨
      (x.rank = 0 ∧ x.toModel.unpack = .zero x.sign) ∨
      ∃ h, 0 < x.rank ∧ x.rank < infiniteRank ∧
        x.toModel.unpack = .finite x.sign x.significand x.exponent h := by
  have hr : ¬infiniteRank < x.rank := by
    rw [← isNaN_iff, nx]
    exact Bool.false_ne_true
  obtain hr | hr := (not_lt.mp hr).eq_or_lt
  case inl =>
    refine .inl ⟨hr, ?_⟩
    rw [unpack_eq, exponentField_eq, fractionField_eq, hr]
    rfl
  case inr =>
    rw [unpack_finite (isFinite_iff.mpr hr)]
    by_cases h : x.significand = 0
    case pos => exact .inr (.inl ⟨significand_eq_zero_iff.mp h, dif_pos h⟩)
    case neg =>
      have h₀ := mt significand_eq_zero_iff.mpr h
      exact .inr (.inr ⟨Nat.pos_of_ne_zero h, Nat.pos_of_ne_zero h₀, hr, dif_neg h⟩)

theorem compare_natCast (n m : Nat) : compare n m = compare (n : Int) m := by
  simp [compare, compareOfLessAndEq]

theorem swap_compare (a b : Int) : (compare a b).swap = compare (-a) (-b) := by
  simp only [compare, compareOfLessAndEq]
  split_ifs <;> first | rfl | omega

section

variable (nx : x.isNaN = false) (ny : y.isNaN = false)
include nx ny

theorem compare_signedRank :
    x.toModel.unpack.compare y.toModel.unpack = some (compare x.signedRank y.signedRank) := by
  have hi : 0 < infiniteRank := by decide
  have h₁ : compare Sign.negative .negative = .eq := rfl
  have h₂ : compare Sign.negative .positive = .lt := rfl
  have h₃ : compare Sign.positive .negative = .gt := rfl
  have h₄ : compare Sign.positive .positive = .eq := rfl
  have hr := compare_rank (x := x) (y := y)
  rw [compare_natCast x.rank] at hr
  rw [signedRank_eq, signedRank_eq]
  obtain ⟨rx, hx⟩ | ⟨rx, hx⟩ | ⟨_, rx, _, hx⟩ := unpack_cases nx <;>
    obtain ⟨ry, hy⟩ | ⟨ry, hy⟩ | ⟨_, ry, _, hy⟩ := unpack_cases ny <;>
    rw [hx, hy] <;> cases x.sign <;> cases y.sign
  -- Two finite numbers of one sign compare by their ranks, and all others by signs and kinds.
  all_goals
    simp only [UnpackedFloat.compare, Sign.apply, hr, swap_compare, h₁, h₂, h₃, h₄, Option.some_inj,
      eq_comm (a := Ordering.lt), eq_comm (a := Ordering.gt), eq_comm (a := Ordering.eq),
      compare_lt_iff_lt, compare_gt_iff_gt, compare_eq_iff_eq]
  all_goals omega

theorem lt_iff_signedRank : x < y ↔ x.signedRank < y.signedRank := by
  have h : x < y ↔ (x.toModel.unpack.compare y.toModel.unpack == some .lt) = true :=
    decide_eq_true_iff
  rw [h, compare_signedRank nx ny, beq_iff_eq, Option.some_inj, compare_lt_iff_lt]

theorem le_iff_signedRank : x ≤ y ↔ x.signedRank ≤ y.signedRank := by
  have h : x ≤ y ↔ (x.toModel.unpack.compare y.toModel.unpack).any (·.isLE) = true :=
    decide_eq_true_iff
  rw [h, compare_signedRank nx ny, Option.any_some, Int.isLE_compare]

theorem beq_iff_signedRank : (x == y) = true ↔ x.signedRank = y.signedRank := by
  have h : (x == y) = (x.toModel.unpack.compare y.toModel.unpack == some .eq) := rfl
  rw [h, compare_signedRank nx ny, beq_iff_eq, Option.some_inj, compare_eq_iff_eq]

end

theorem signedRank_zero : signedRank 0 = 0 := by decide

theorem beq_zero_iff (fx : x.isFinite = true) : (x == 0) = true ↔ x.rank = 0 := by
  rw [beq_iff_signedRank (isNaN_of_isFinite fx) (by decide), signedRank_zero, signedRank]
  split_ifs <;> omega

theorem isFinite_of_beq_zero (h : (x == 0) = true) : x.isFinite = true := by
  obtain ⟨-, -, rfl | ⟨rfl, -⟩ | ⟨rfl, -⟩⟩ := Float.beq_iff_ne_nan_and_eq.mp h <;> decide

theorem lt_zero_iff (fx : x.isFinite = true) : x < 0 ↔ x.rank ≠ 0 ∧ x.isNegative = true := by
  rw [lt_iff_signedRank (isNaN_of_isFinite fx) (by decide), signedRank_zero, signedRank]
  split_ifs with h
  case pos =>
    rw [and_iff_left h]
    omega
  case neg => exact iff_of_false (by omega) fun hx => h hx.2

variable (hx : x.isNegative = false) (hy : y.isNegative = false) (fx : x.isFinite = true)
  (fy : y.isFinite = true)
include hx hy fx fy

theorem lt_iff : x < y ↔ x.rank < y.rank := by
  rw [lt_iff_signedRank (isNaN_of_isFinite fx) (isNaN_of_isFinite fy), signedRank, signedRank, hx, hy]
  exact Int.ofNat_lt

theorem le_iff : x ≤ y ↔ x.rank ≤ y.rank := by
  rw [le_iff_signedRank (isNaN_of_isFinite fx) (isNaN_of_isFinite fy), signedRank, signedRank, hx, hy]
  exact Int.ofNat_le

theorem lt_iff_not_le : x < y ↔ ¬y ≤ x := by
  rw [lt_iff hx hy fx fy, le_iff hy hx fy fx, not_le]

end Calculator.Number
