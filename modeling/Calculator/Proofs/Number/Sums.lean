import Calculator.Proofs.Number.Rounding

/-!
# Sums

Sums and differences of finite numbers are those of their rationals, rounded to the nearest number. Of the
bits that are shifted out of a significand two are kept, and they tell which of its neighbours is nearer.
-/

namespace Calculator

open Float.Model (Format UnpackedFloat totalExponent)
open Float.Model.UnpackedFloat

-- What an extended mantissa tells of a rational: its whole part, whether a half is left over, and whether
-- anything else is.
structure Stands (em : ExtendedMantissa) (q : Rat) : Prop where
  whole  : ⌊q⌋ = em.mantissa
  half   : em.roundBit = true ↔ 1 / 2 ≤ Int.fract q
  sticky : em.stickyBit = false ↔ Int.fract q = 0 ∨ Int.fract q = 1 / 2

namespace Stands

variable {q : Rat} {em : ExtendedMantissa} {m n : Nat}

theorem exact (m : Nat) : Stands (.ofMantissaAndAccuracy m .exact) m where
  whole  := Int.floor_natCast m
  half   := by simp [ExtendedMantissa.ofMantissaAndAccuracy]
  sticky := by simp [ExtendedMantissa.ofMantissaAndAccuracy]

theorem eq_add (h : Stands em q) : q = em.mantissa + Int.fract q := by
  rw [← Int.cast_natCast, ← h.whole, Int.floor_add_fract]

theorem nothing_left (h : Stands em q) : (em.roundBit || em.stickyBit) = false ↔ Int.fract q = 0 := by
  rw [Bool.or_eq_false_iff, h.sticky, ← Bool.not_eq_true, h.half, not_le]
  constructor
  case mp =>
    rintro ⟨hl, h | h⟩
    case inl => exact h
    case inr => exact absurd h hl.ne
  case mpr => exact fun h => ⟨h ▸ by norm_num, .inl h⟩

theorem shiftRightOne (h : Stands em q) : Stands em.shiftRightOne (q / 2) := by
  have h₀ := Int.fract_nonneg q
  have h₁ := Int.fract_lt_one q
  have hw : ⌊q / 2⌋ = (em.mantissa / 2 : Nat) := by
    have := Int.floor_div_natCast q 2
    rw [h.whole] at this
    exact_mod_cast this
  have hm : (em.mantissa : Rat) = 2 * (em.mantissa / 2 : Nat) + (em.mantissa % 2 : Nat) := by
    exact_mod_cast (Nat.div_add_mod em.mantissa 2).symm
  -- The last bit of the mantissa is left over too.
  have hf : Int.fract (q / 2) = ((em.mantissa % 2 : Nat) + Int.fract q) / 2 := by
    rw [Int.fract, hw, Int.cast_natCast]
    linarith [h.eq_add]
  constructor
  case whole => exact hw
  case half =>
    rw [hf]
    have hr : em.shiftRightOne.roundBit = (em.mantissa % 2 != 0) := rfl
    rw [hr]
    obtain hb | hb := Nat.mod_two_eq_zero_or_one em.mantissa
    case inl =>
      rw [hb, Nat.cast_zero]
      exact iff_of_false Bool.false_ne_true (by linarith)
    case inr =>
      rw [hb, Nat.cast_one]
      exact iff_of_true rfl (by linarith)
  case sticky =>
    change (em.roundBit || em.stickyBit) = false ↔ _
    rw [h.nothing_left, hf]
    obtain hb | hb := Nat.mod_two_eq_zero_or_one em.mantissa
    case inl =>
      rw [hb, Nat.cast_zero]
      grind
    case inr =>
      rw [hb, Nat.cast_one]
      grind

theorem shiftRight (h : Stands em q) (n : Nat) : Stands (em >>> n) (q / 2 ^ n) := by
  induction n
  case zero =>
    rw [pow_zero, div_one]
    exact h
  case succ n hi =>
    rw [pow_succ, ← div_div]
    exact hi.shiftRightOne

theorem roundedMantissa_eq (h : Stands em q) : em.roundedMantissa = roundHalfEven q := by
  obtain ⟨m, half, sticky⟩ := em
  obtain ⟨hw, hh, hs⟩ := h
  dsimp only at hw hh hs
  have hb : q.floor = m := hw
  have hf : q - m = Int.fract q := by rw [Int.fract, hw, Int.cast_natCast]
  unfold roundHalfEven
  dsimp only
  rw [hb, Int.cast_natCast, hf]
  obtain hl | he | hg := lt_trichotomy (Int.fract q) (1 / 2)
  case inl =>
    obtain rfl : half = false := Bool.eq_false_iff.mpr (mt hh.mp (not_le.mpr hl))
    rw [if_pos (.inl hl)]
    cases sticky <;> rfl
  case inr.inl =>
    obtain rfl : half = true := hh.mpr he.ge
    obtain rfl : sticky = false := hs.mpr (.inr he)
    have hr : ExtendedMantissa.roundedMantissa ⟨m, true, false⟩ = m + m % 2 := rfl
    rw [hr]
    split_ifs with h
    case pos =>
      have := (h.resolve_left he.not_lt).right
      omega
    case neg =>
      have := mt (And.intro he) (not_or.mp h).right
      omega
  case inr.inr =>
    obtain rfl : half = true := hh.mpr hg.le
    obtain rfl : sticky = true := by
      rw [← Bool.not_eq_false, hs]
      grind
    rw [if_neg (not_or.mpr ⟨hg.not_gt, fun h => hg.ne' h.1⟩)]
    rfl

end Stands

namespace Number

variable {x y : Number} {q : Rat} {em : ExtendedMantissa} {m : Nat} {e : Int} {s : Sign}

theorem unitExponent_unique {u : Int} (hq : 0 < q) (hu : -1074 ≤ u) (hlt : q < 2 ^ 53 * (2 : Rat) ^ u)
    (hge : u = -1074 ∨ 2 ^ 52 * (2 : Rat) ^ u ≤ q) : u = unitExponent q := by
  obtain ⟨hu', hlt', hge'⟩ := unitExponent_spec hq
  have below {i j : Int} (h : 2 ^ 52 * (2 : Rat) ^ i ≤ q) (h' : q < 2 ^ 53 * (2 : Rat) ^ j) : i ≤ j := by
    have hp : (2 : Rat) ^ i < (2 : Rat) ^ (j + 1) := by
      rw [zpow_add_one₀ (by norm_num)]
      linarith
    exact Int.lt_add_one_iff.mp ((zpow_lt_zpow_iff_right₀ (by norm_num)).mp hp)
  refine le_antisymm ?_ ?_
  case refine_1 =>
    obtain rfl | h := hge
    case inl => exact hu'
    case inr => exact below h hlt'
  case refine_2 =>
    obtain h | h := hge'
    case inl => omega
    case inr => exact below h hlt

theorem pos_of_value (hq : m * (2 : Rat) ^ e = q) (hp : 0 < q) : 0 < m := by
  refine Nat.pos_of_ne_zero ?_
  rintro rfl
  rw [Nat.cast_zero, zero_mul] at hq
  exact hp.ne hq

theorem targetExponent_eq (hq : m * (2 : Rat) ^ e = q) (hp : 0 < q) :
    Format.binary64.targetExponent (totalExponent m e) = unitExponent q := by
  have hm := pos_of_value hq hp
  have he : 0 < (2 : Rat) ^ e := two_zpow_pos
  have ht : Format.binary64.targetExponent (totalExponent m e) = max (m.log2 + 1 + e - 53) (-1074) := rfl
  have h₁ : (2 : Rat) ^ m.log2 ≤ m := by exact_mod_cast Nat.log2_self_le hm.ne'
  have h₂ : (m : Rat) < 2 ^ (m.log2 + 1) := by exact_mod_cast Nat.lt_log2_self
  rw [ht]
  refine unitExponent_unique hp (le_max_right ..) ?_ ?_
  case refine_1 =>
    refine (hq ▸ mul_lt_mul_of_pos_right h₂ he).trans_le ?_
    rw [two_pow_mul_zpow, two_pow_mul_zpow]
    exact zpow_le_zpow_right₀ (by norm_num) (by omega)
  case refine_2 =>
    by_cases h : m.log2 + 1 + e - 53 ≤ -1074
    case pos => exact .inl (max_eq_right h)
    case neg =>
      refine .inr (le_trans ?_ (hq ▸ mul_le_mul_of_nonneg_right h₁ he.le))
      rw [two_pow_mul_zpow, two_pow_mul_zpow]
      exact zpow_le_zpow_right₀ (by norm_num) (by omega)

-- The parts of a finite number put together.
def assemble (s : Sign) (m : Nat) (e : Int) : UnpackedFloat :=
  if h : m = 0 then .zero s else .finite s m e (Nat.pos_of_ne_zero h)

-- `x` is what `u` is packed into.
structure Packed (x : Number) (u : UnpackedFloat) : Prop where
  bits : x.toBits.toBitVec = pack Format.binary64 u

-- A significand with room left stays as it is, and one that was rounded up to a power of two is halved.

theorem shift_within (hlt : m < 2 ^ 53) (he : -1074 ≤ e) :
    shiftToTargetExponent Format.binary64 m e .exact = (.ofMantissaAndAccuracy m .exact, e) := by
  have hl : m.log2 ≤ 52 := by
    by_cases h : m = 0
    case pos => exact h ▸ by decide
    case neg => exact Nat.le_of_lt_succ ((Nat.log2_lt h).mpr hlt)
  have ht : Format.binary64.targetExponent (totalExponent m e) = max (m.log2 + 1 + e - 53) (-1074) := rfl
  have hk : (Format.binary64.targetExponent (totalExponent m e) - e).toNat = 0 := by omega
  simp only [shiftToTargetExponent, shiftToExponent, hk, Int.natCast_zero, add_zero]
  rfl

theorem shift_carry (he : -1074 ≤ e) :
    shiftToTargetExponent Format.binary64 (2 ^ 53) e .exact = (⟨2 ^ 52, false, false⟩, e + 1) := by
  have hl : Nat.log2 (2 ^ 53) = 53 := Nat.log2_two_pow
  have ht : Format.binary64.targetExponent (totalExponent (2 ^ 53) e) =
    max (Nat.log2 (2 ^ 53) + 1 + e - 53) (-1074) := rfl
  have hk : (Format.binary64.targetExponent (totalExponent (2 ^ 53) e) - e).toNat = 1 := by omega
  simp only [shiftToTargetExponent, shiftToExponent, hk, Int.natCast_one]
  rfl

-- The first shift leaves the rational in units.
theorem shift_stands (hq : m * (2 : Rat) ^ e = q) (hp : 0 < q) (he : e ≤ unitExponent q) :
    ∃ em, shiftToTargetExponent Format.binary64 m e .exact = (em, unitExponent q) ∧
      Stands em (q / (2 : Rat) ^ unitExponent q) := by
  obtain ⟨k, hk⟩ := Int.le.dest he
  have ht : (unitExponent q - e).toNat = k := by omega
  have hd : q / (2 : Rat) ^ unitExponent q = m / 2 ^ k := by
    rw [← hk, ← hq, zpow_add₀ (by norm_num), zpow_natCast, mul_comm (_ ^ e), mul_div_mul_right]
    exact two_zpow_pos.ne'
  refine ⟨ExtendedMantissa.ofMantissaAndAccuracy m .exact >>> k, ?_, hd ▸ (Stands.exact m).shiftRight k⟩
  simp only [shiftToTargetExponent, shiftToExponent, targetExponent_eq hq hp, ht, hk]

theorem roundedMantissa_bounds {unit : Rat} (hst : Stands em (q / unit)) (hu : 0 < unit)
    (hlt : q < 2 ^ 53 * unit) (hge : e = -1074 ∨ 2 ^ 52 * unit ≤ q) :
    em.roundedMantissa ≤ 2 ^ 53 ∧ (e = -1074 ∨ 2 ^ 52 ≤ em.roundedMantissa) := by
  have hd : |q / unit - em.roundedMantissa * 1| ≤ 1 / 2 := by
    rw [mul_one, ← Int.cast_natCast, hst.roundedMantissa_eq]
    exact (roundHalfEven_spec _).1
  constructor
  case left =>
    refine le_of_lt_units one_pos hd ?_
    rw [mul_one, div_lt_iff₀ hu]
    exact_mod_cast hlt
  case right =>
    refine hge.imp_right fun h => le_of_units_le one_pos hd ?_
    rw [mul_one, le_div_iff₀ hu]
    exact_mod_cast h

-- A smaller exponent makes room for more of the significand.
theorem decreaseExponent_spec (m : Nat) (e u : Int) :
    ∃ n : Nat, decreaseExponent m e u = (n, min e u) ∧ n * (2 : Rat) ^ min e u = m * (2 : Rat) ^ e := by
  have he : e - (e - u).toNat = min e u := by omega
  refine ⟨m <<< (e - u).toNat, Prod.ext rfl he, ?_⟩
  rw [Nat.shiftLeft_eq]
  push_cast
  rw [mul_assoc, ← zpow_natCast, ← zpow_add₀ (by norm_num)]
  congr 2
  omega

namespace Packed

theorem assemble (h : Packed x (Number.assemble s m e)) (hlt : m < 2 ^ 53) (he : -1074 ≤ e)
    (hge : e = -1074 ∨ 2 ^ 52 ≤ m) :
    x.isNegative = (s == .negative) ∧ x.rank = min ((e + 1074).toNat * 2 ^ 52 + m) infiniteRank := by
  obtain rfl | hm := m.eq_zero_or_pos
  case inl =>
    have hf : Fields x s 0 0 := ⟨h.bits⟩
    obtain rfl : e = -1074 := hge.resolve_right (by norm_num)
    exact ⟨hf.isNegative_eq, hf.rank_eq⟩
  case inr =>
    have hb : (e + (Format.binary64.exponentBias : Nat) + (52 : Nat)).toNat = (e + 1075).toNat := by
      have : Format.binary64.exponentBias = 1023 := rfl
      omega
    have hl : m.log2 + 1 = Format.binary64.mantissaBits ↔ 2 ^ 52 ≤ m := by
      have : Format.binary64.mantissaBits = 53 := rfl
      have h₁ := Nat.le_log2 hm.ne' (k := 52)
      have h₂ := Nat.log2_lt hm.ne' (k := 53)
      omega
    have hi : infiniteRank = 2047 * 2 ^ 52 := rfl
    have h := h.bits
    simp only [Number.assemble, dif_neg hm.ne', pack, hb, hl] at h
    obtain ⟨e', m', hf, hr⟩ : ∃ e' m', Fields x s e' m' ∧
        e'.toNat * 2 ^ 52 + m'.toNat = min ((e + 1074).toNat * 2 ^ 52 + m) infiniteRank := by
      split_ifs at h
      case pos =>
        refine ⟨_, _, ⟨h⟩, ?_⟩
        change infiniteRank = _
        omega
      all_goals
        refine ⟨_, _, ⟨h⟩, ?_⟩
        rw [BitVec.toNat_ofNat, BitVec.toNat_ofNat]
        omega
    exact ⟨hf.isNegative_eq, hf.rank_eq.trans hr⟩

theorem roundWithAccuracy (h : Packed x (.roundWithAccuracy Format.binary64 s m e .exact))
    (hq : m * (2 : Rat) ^ e = q) (hp : 0 < q) (he : e ≤ unitExponent q) :
    x.isNegative = (s == .negative) ∧ x.rank = min (rankOf q) infiniteRank := by
  obtain ⟨em, hsh, hst⟩ := shift_stands hq hp he
  obtain ⟨hu, hlt, hge⟩ := unitExponent_spec hp
  have hn : rankOf q = (unitExponent q + 1074).toNat * 2 ^ 52 + em.roundedMantissa := by
    rw [rankOf, if_neg hp.ne', ← hst.roundedMantissa_eq]
    rfl
  obtain ⟨hle, hge⟩ := roundedMantissa_bounds hst two_zpow_pos hlt hge
  rw [hn]
  generalize unitExponent q = u at hsh hu hge
  have h : Packed x (Number.assemble s
      (shiftToTargetExponent Format.binary64 em.roundedMantissa u .exact).1.mantissa
      (shiftToTargetExponent Format.binary64 em.roundedMantissa u .exact).2) := by
    refine ⟨h.bits.trans ?_⟩
    simp only [UnpackedFloat.roundWithAccuracy, hsh]
    rfl
  generalize em.roundedMantissa = r at h hle hge
  obtain hlt | rfl := hle.lt_or_eq
  case inl =>
    rw [shift_within hlt hu] at h
    exact h.assemble hlt hu hge
  case inr =>
    rw [shift_carry hu] at h
    dsimp only at h
    obtain ⟨hs, hr⟩ := h.assemble (by norm_num) (by omega) (.inr le_rfl)
    exact ⟨hs, hr.trans (by omega)⟩

theorem round (h : Packed x (.round Format.binary64 s m e)) (hq : m * (2 : Rat) ^ e = q) (hp : 0 < q) :
    x.isNegative = (s == .negative) ∧ x.rank = min (rankOf q) infiniteRank := by
  obtain ⟨n, hd, hv⟩ := decreaseExponent_spec m e (unitExponent q)
  simp only [UnpackedFloat.round, targetExponent_eq hq hp, hd] at h
  exact h.roundWithAccuracy (hv.trans hq) hp (min_le_right ..)

theorem normalize {m : Int} (h : Packed x (.normalize Format.binary64 m e s)) (hq : m * (2 : Rat) ^ e = q) :
    x = Number.nearest q ∨ q = 0 ∧ x.rank = 0 := by
  have hp : 0 < (2 : Rat) ^ e := two_zpow_pos
  have h := h.bits
  unfold UnpackedFloat.normalize at h
  split at h
  case h_1 hm =>
    have hm : m < 0 := compare_lt_iff_lt.mp hm
    obtain ⟨k, rfl⟩ : ∃ k : Nat, m = -k := ⟨(-m).toNat, by omega⟩
    have hq : k * (2 : Rat) ^ e = -q := by
      rw [← hq]
      push_cast
      ring
    have hk : 0 < -q := hq ▸ mul_pos (by exact_mod_cast neg_lt_zero.mp hm) hp
    rw [Int.neg_neg, Int.toNat_natCast] at h
    obtain ⟨hs, hr⟩ := round ⟨h⟩ hq hk
    have hn := neg_pos.mp hk
    exact .inl (eq_nearest (hs.trans (decide_eq_true hn).symm) (abs_of_neg hn ▸ hr))
  case h_2 hm =>
    have hf : Fields x s 0 0 := ⟨h⟩
    obtain rfl := compare_eq_iff_eq.mp hm
    exact .inr ⟨by rw [← hq, Int.cast_zero, zero_mul], hf.rank_eq⟩
  case h_3 hm =>
    have hm : 0 < m := compare_gt_iff_gt.mp hm
    obtain ⟨k, rfl⟩ := Int.eq_ofNat_of_zero_le hm.le
    have hk : 0 < q := hq ▸ mul_pos (by exact_mod_cast hm) hp
    rw [Int.toNat_natCast] at h
    obtain ⟨hs, hr⟩ := round ⟨h⟩ (by exact_mod_cast hq) hk
    exact .inl (eq_nearest (hs.trans (decide_eq_false hk.not_gt).symm) ((abs_of_pos hk).symm ▸ hr))

theorem unpack (nx : x.isNaN = false) : Packed x x.toModel.unpack where
  bits := by
    obtain ⟨s, e, m, h⟩ := fields_exist x
    rw [h.bits, h.unpack_eq]
    exact (Fields.ofBits (h.ordered nx)).bits.symm

theorem unique {u : UnpackedFloat} (h : Packed x u) (h' : Packed y u) : x = y :=
  Float.toBits_inj.mp (UInt64.toBitVec_inj.mp (h.bits.trans h'.bits.symm))

end Packed

-- Finite numbers are added exactly, by their signs, significands and exponents, and the sum is rounded.

theorem cast_apply (s : Sign) (n : Nat) : ((s.apply n : Int) : Rat) = (s.apply 1 : Int) * n := by
  cases s <;> simp [Sign.apply]

theorem toRat_eq_apply (x : Number) :
    x.toRat = (x.sign.apply 1 : Int) * (x.significand * (2 : Rat) ^ x.exponent) := by
  unfold toRat magnitude sign
  cases x.isNegative <;> simp [Sign.apply]

theorem add_eq_nearest (fx : x.isFinite = true) (fy : y.isFinite = true) :
    x + y = Number.nearest (x.toRat + y.toRat) ∨ x.toRat + y.toRat = 0 ∧ (x + y).rank = 0 := by
  have h : Packed (x + y) (.add Format.binary64 x.toModel.unpack y.toModel.unpack) := ⟨rfl⟩
  have zero {z : Number} : z.significand = 0 ↔ z.toRat = 0 :=
    significand_eq_zero_iff.trans toRat_eq_zero_iff.symm
  have px := Packed.unpack (isNaN_of_isFinite fx)
  have py := Packed.unpack (isNaN_of_isFinite fy)
  rw [unpack_finite fx] at h px
  rw [unpack_finite fy] at h py
  by_cases hx : x.significand = 0 <;> by_cases hy : y.significand = 0
  case pos =>
    rw [dif_pos hx, dif_pos hy] at h
    refine .inr ⟨by rw [zero.mp hx, zero.mp hy, add_zero], ?_⟩
    simp only [UnpackedFloat.add] at h
    split_ifs at h
    case pos => exact (Fields.mk h.bits).rank_eq
    case neg => exact (Fields.mk h.bits).rank_eq
  case neg =>
    rw [dif_pos hx, dif_neg hy] at h
    rw [dif_neg hy] at py
    rw [zero.mp hx, zero_add, nearest_toRat fy (mt zero.mpr hy)]
    exact .inl (h.unique py)
  case pos =>
    rw [dif_neg hx, dif_pos hy] at h
    rw [dif_neg hx] at px
    rw [zero.mp hy, add_zero, nearest_toRat fx (mt zero.mpr hx)]
    exact .inl (h.unique px)
  case neg =>
    rw [dif_neg hx, dif_neg hy] at h
    obtain ⟨m, h₁, v₁⟩ := decreaseExponent_spec x.significand x.exponent (min x.exponent y.exponent)
    obtain ⟨n, h₂, v₂⟩ := decreaseExponent_spec y.significand y.exponent (min x.exponent y.exponent)
    rw [min_eq_right (min_le_left ..)] at h₁ v₁
    rw [min_eq_right (min_le_right ..)] at h₂ v₂
    simp only [UnpackedFloat.add, h₁, h₂] at h
    refine h.normalize ?_
    rw [toRat_eq_apply x, toRat_eq_apply y, ← v₁, ← v₂, Int.cast_add, cast_apply, cast_apply]
    ring

-- A difference is the sum with the other sign.

theorem unpack_sub (u v : UnpackedFloat) :
    UnpackedFloat.sub Format.binary64 u v = UnpackedFloat.add Format.binary64 u v.neg := by
  have apply_neg (s : Sign) (n : Int) : (-s).apply n = -s.apply n := by
    cases s
    case negative => exact (Int.neg_neg n).symm
    case positive => rfl
  cases u <;> cases v <;> try rfl
  case finite.finite =>
    simp only [UnpackedFloat.sub, UnpackedFloat.add, UnpackedFloat.neg, apply_neg, sub_eq_add_neg]

theorem sub_eq_add (ny : y.isNaN = false) : x - y = x + -y := by
  have hn : (-y).toModel.unpack = y.toModel.unpack.neg := by
    obtain ⟨s, e, m, h⟩ := fields_exist y
    rw [(h.neg ny).unpack_eq, h.unpack_eq, unpack_neg]
  have hs : Packed (x - y) (.sub Format.binary64 x.toModel.unpack y.toModel.unpack) := ⟨rfl⟩
  have ha : Packed (x + -y) (.add Format.binary64 x.toModel.unpack (-y).toModel.unpack) := ⟨rfl⟩
  rw [hn, ← unpack_sub] at ha
  exact hs.unique ha

-- Where the sum is not too great, it is rounded to a finite number.

theorem roundsTo_add (fx : x.isFinite = true) (fy : y.isFinite = true)
    (hb : |x.toRat + y.toRat| < 2 ^ 1024 - 2 ^ 970) : RoundsTo (x.toRat + y.toRat) (x + y) := by
  obtain h | ⟨h₀, h⟩ := add_eq_nearest fx fy
  case inl => exact h ▸ roundsTo_nearest hb
  case inr =>
    have hz := RoundsTo.self (x := x + y) (isFinite_iff.mpr (h ▸ by decide))
    rwa [toRat_eq_zero_iff.mpr h, ← h₀] at hz

theorem roundsTo_sub (fx : x.isFinite = true) (fy : y.isFinite = true)
    (hb : |x.toRat - y.toRat| < 2 ^ 1024 - 2 ^ 970) : RoundsTo (x.toRat - y.toRat) (x - y) := by
  rw [sub_eq_add_neg, ← toRat_neg fy] at hb ⊢
  rw [sub_eq_add (isNaN_of_isFinite fy)]
  exact roundsTo_add fx (isFinite_neg fy) hb

end Number

end Calculator
