import Calculator.Number.Text
import Calculator.Proofs.Number.Shortest

/-!
# Text of numbers

The text of a number is settled by its shortest decimal: by the digits and by how many of them stand before
the point. The bounds to which the number itself is compared part the decimals in the same way, since
rounding is monotone and both bounds are themselves written with one digit.
-/

namespace Calculator

-- Digits with the point after `n` places, or with an exponent if that would be far off.
def layout (digits : List Char) (n : Int) : List Char :=
  if digits.length ≤ n ∧ n ≤ 21 then
    digits ++ List.replicate (n - digits.length).toNat '0'
  else if 0 < n ∧ n ≤ 21 then
    digits.take n.toNat ++ '.' :: digits.drop n.toNat
  else if -6 < n ∧ n ≤ 0 then
    '0' :: '.' :: List.replicate (-n).toNat '0' ++ digits
  else
    (if 1 < digits.length then digits.take 1 ++ '.' :: digits.drop 1 else digits) ++
      'e' :: (if n - 1 < 0 then '-' else '+') :: Nat.toDigits 10 (n - 1).natAbs

variable {digits : List Char} {n : Int}

theorem layout_of_positional (hn : -6 < n ∧ n ≤ 21) : layout digits n = Decimal.positional digits n := by
  unfold layout Decimal.positional
  split_ifs <;> first | rfl | omega

theorem layout_of_scientific (hd : digits ≠ []) (hn : ¬(-6 < n ∧ n ≤ 21)) :
    layout digits n = Decimal.scientific digits (n - 1) := by
  have h₁ : ¬(digits.length ≤ n ∧ n ≤ 21) := by omega
  have h₂ : ¬(0 < n ∧ n ≤ 21) := by omega
  have h₃ : ¬(-6 < n ∧ n ≤ 0) := by omega
  unfold layout
  rw [if_neg h₁, if_neg h₂, if_neg h₃]
  match digits with
  | []           => contradiction
  | [_]          => rfl
  | _ :: _ :: ds => simp [Decimal.scientific, Decimal.scientific.exponentText]

variable {x y : Number} {d : Decimal} {k : Nat} {e : Int} {t : String}

namespace Decimal

section

variable (hx : x.isNegative = false) (fx : x.isFinite = true)
include hx fx

-- A number that is written with one digit parts the decades.
theorem le_iff_of_isWritten (hd : d.IsWritten k x) (hy : (Decimal.mk 1 e).IsWritten 1 y)
    (py : y.isNegative = false) : y ≤ x ↔ e < d.exponent + k := by
  have fy := hy.shortest.rounds.finite
  have h₁ := hd.shortest.rounds.nearest (toRat_nonneg d)
  have h₂ := hy.shortest.rounds.nearest (toRat_nonneg _)
  obtain ⟨h₃, h₄⟩ := hd.shortest.digits.bounds
  have h₅ : (Decimal.mk 1 e).toRat = (10 : Rat) ^ e := by simp [toRat]
  rw [h₅] at h₂
  rw [Number.le_iff py hx fy fx]
  constructor
  case mp =>
    intro h
    by_contra hn
    have he : (10 : Rat) ^ (d.exponent + k) ≤ (10 : Rat) ^ e :=
      zpow_le_zpow_right₀ (by norm_num) (not_lt.mp hn)
    have hr : x.rank = y.rank := le_antisymm (h₁.le h₂ (h₄.trans_le he).le) h
    obtain rfl : x = y := Number.ext (hx.trans py.symm) hr
    obtain ⟨rfl, rfl⟩ := hd.unique hy
    exact hn (lt_add_one e)
  case mpr =>
    intro h
    exact h₂.le h₁ ((zpow_le_zpow_right₀ (by norm_num) (by omega)).trans h₃)

theorem isWritten_of_shortest (hr : 0 < x.rank) (h : shortest x = ⟨1, e⟩) :
    (Decimal.mk 1 e).IsWritten 1 x := by
  obtain ⟨k, hk⟩ := isWritten_shortest hx fx hr
  rw [h] at hk
  have h₁ := hk.shortest.digits.length_eq
  rw [Nat.toDigits_of_lt_base (show 1 < 10 by decide)] at h₁
  obtain rfl : 1 = k := h₁
  exact hk

end

end Decimal

namespace Number

theorem isWritten_minPositional : (Decimal.mk 1 (-6)).IsWritten 1 minPositional :=
  Decimal.isWritten_of_shortest (by decide +kernel) (by decide +kernel) (by decide +kernel)
    (by decide +kernel)

theorem isWritten_maxPositional : (Decimal.mk 1 21).IsWritten 1 maxPositional :=
  Decimal.isWritten_of_shortest (by decide +kernel) (by decide +kernel) (by decide +kernel)
    (by decide +kernel)

example : minPositional = 1e-6 ∧ maxPositional = 1e21 := by decide +kernel

section

variable (hx : x.isNegative = false) (fx : x.isFinite = true) (hd : d.IsWritten k x)
include hx fx hd

theorem positional_iff : (minPositional ≤ x ∧ x < maxPositional) ↔
    -6 < d.exponent + k ∧ d.exponent + k ≤ 21 := by
  have fm := isWritten_maxPositional.shortest.rounds.finite
  have pm : maxPositional.isNegative = false := by decide +kernel
  rw [lt_iff_not_le hx pm fx fm,
    Decimal.le_iff_of_isWritten hx fx hd isWritten_minPositional (by decide +kernel),
    Decimal.le_iff_of_isWritten hx fx hd isWritten_maxPositional pm, not_lt]

theorem magnitudeText_eq (hr : 0 < x.rank) :
    magnitudeText x = layout (Nat.toDigits 10 d.digits) (d.exponent + k) := by
  have hs : Decimal.shortest x = d := by
    obtain ⟨_, hk⟩ := Decimal.isWritten_shortest hx fx hr
    exact (hk.unique hd).1
  unfold magnitudeText
  dsimp only
  rw [hs, hd.shortest.digits.length_eq]
  split_ifs with h
  case pos => exact (layout_of_positional ((positional_iff hx fx hd).mp h)).symm
  case neg => exact (layout_of_scientific Nat.toDigits_ne_nil (mt (positional_iff hx fx hd).mpr h)).symm

end

-- What the text of a number has to be. That of a finite one are the digits of the shortest decimal of its
-- magnitude, with the point after as many places as the decimal has before it.
inductive HasText (x : Number) : String → Prop
  | nan (h : x.isNaN = true) : HasText x "NaN"
  | infinity (h : x.isInf = true) (hs : x.isNegative = false) : HasText x "Infinity"
  | minusInfinity (h : x.isInf = true) (hs : x.isNegative = true) : HasText x "-Infinity"
  | zero (h : (x == 0) = true) : HasText x "0"
  | finite {d : Decimal} {k : Nat} (fx : x.isFinite = true) (h : (x == 0) = false)
      (hd : d.IsWritten k x.abs) :
    HasText x (.ofList ((if x < 0 then ['-'] else []) ++ layout (Nat.toDigits 10 d.digits) (d.exponent + k)))

theorem rank_abs_pos (fx : x.isFinite = true) (h : (x == 0) = false) : 0 < rank x.abs := by
  rw [rank_abs (isNaN_of_isFinite fx)]
  exact Nat.pos_of_ne_zero fun hr => Bool.eq_false_iff.mp h ((beq_zero_iff fx).mpr hr)

theorem HasText.text_eq (h : HasText x t) : x.text = t := by
  unfold text
  cases h
  case nan h => simp only [h, ↓reduceIte]
  case infinity h hs => simp only [isNaN_of_isInf h, h, hs, Bool.false_eq_true, ↓reduceIte]
  case minusInfinity h hs => simp only [isNaN_of_isInf h, h, hs, Bool.false_eq_true, ↓reduceIte]
  case zero h =>
    have fx := isFinite_of_beq_zero h
    simp only [isNaN_of_isFinite fx, isInf_of_isFinite fx, h, Bool.false_eq_true, ↓reduceIte]
  case finite d k fx h hd =>
    have nx := isNaN_of_isFinite fx
    have hr := rank_abs_pos fx h
    have hs : x < 0 ↔ x.isNegative = true := by
      rw [lt_zero_iff fx, ← rank_abs nx]
      exact and_iff_right hr.ne'
    simp only [nx, isInf_of_isFinite fx, h, Bool.false_eq_true, ↓reduceIte, hs,
      magnitudeText_eq (isNegative_abs nx) (isFinite_abs fx) hd hr]
    split <;> rfl

theorem exists_hasText (x : Number) : ∃ t, HasText x t := by
  obtain h | h | h := Nat.lt_trichotomy x.rank infiniteRank
  case inl =>
    have fx := isFinite_iff.mpr h
    have nx := isNaN_of_isFinite fx
    cases hz : (x == 0)
    case true  => exact ⟨_, .zero hz⟩
    case false =>
      obtain ⟨k, hd⟩ := Decimal.isWritten_shortest (isNegative_abs nx) (isFinite_abs fx) (rank_abs_pos fx hz)
      exact ⟨_, .finite fx hz hd⟩
  case inr.inl =>
    cases hs : x.isNegative
    case true  => exact ⟨_, .minusInfinity (isInf_iff.mpr h) hs⟩
    case false => exact ⟨_, .infinity (isInf_iff.mpr h) hs⟩
  case inr.inr => exact ⟨_, .nan (isNaN_iff.mpr h)⟩

theorem text_eq_iff (x : Number) (t : String) : x.text = t ↔ HasText x t := by
  constructor
  case mp =>
    rintro rfl
    obtain ⟨t, h⟩ := exists_hasText x
    exact h.text_eq ▸ h
  case mpr => exact HasText.text_eq

-- The number 2^50 + 1/4, as far from the decimal that ends in 2 as from the one that ends in 3.
example : text (.ofBits 0x4310000000000001) = "1125899906842624.3" := by decide +kernel

end Number

end Calculator
