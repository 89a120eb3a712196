import Calculator.Proofs.Number.Text
import Calculator.Proofs.Token.Pieces

/-!
# Reading decimals

A decimal is written as a literal with an optional sign before it and an optional exponent after it, and
stands for a rational. Laid out digits stand for the rational that they were laid out for, whether the
point is among them, next to them or in the exponent. So the text of a number reads as its shortest
decimal, which is rounded to the number.
-/

namespace Calculator

def natural? (text : List Char) : Option Nat :=
  if text ≠ [] ∧ text.all Char.isDigit then some (Number.ofDigits text) else none

-- An exponent is `e`, a sign or none, and digits.
def exponent? : List Char → Option Int
  | []               => some 0
  | 'e' :: '-' :: cs => (natural? cs).map fun n : Nat => -(n : Int)
  | 'e' :: '+' :: cs => (natural? cs).map Int.ofNat
  | 'e' :: cs        => (natural? cs).map Int.ofNat
  | _                => none

-- What the digits before and after a point stand for.
def literalRat (whole places : List Char) : Rat :=
  Number.ofDigits (whole ++ places) / (10 : Rat) ^ places.length

def unsigned? (text : List Char) : Option Rat :=
  let whole := text.takeWhile Char.isDigit
  let rest := text.dropWhile Char.isDigit
  if whole = [] then none
  else (exponent? (afterFraction rest)).map fun e =>
    literalRat whole ((fraction rest).drop 1) * (10 : Rat) ^ e

def decimal? : List Char → Option Rat
  | '-' :: text => (unsigned? text).map fun q => -q
  | text        => unsigned? text

example : decimal? "-1.5e-7".toList = some (-3 / 20000000) := by decide +kernel

variable {whole rest ds ds' : List Char} {places : Option (List Char)} {n : Int} {q : Rat}

theorem fraction_eq_nil (h : rest.head? ≠ some '.') : fraction rest = [] ∧ afterFraction rest = rest := by
  unfold fraction afterFraction
  split
  case _ => exact absurd rfl h
  case _ => exact ⟨rfl, rfl⟩

theorem unsigned?_of_fits (h : (Piece.number whole places).Fits rest) :
    unsigned? ((Piece.number whole places).text ++ rest) =
      (exponent? rest).map fun e => literalRat whole (places.getD []) * (10 : Rat) ^ e := by
  have hd (c : Char) : c.isDigit ↔ c ∈ digits := isDigit_iff
  unfold unsigned?
  cases h
  case whole hp hw hr =>
    obtain ⟨hf, ha⟩ := fraction_eq_nil hp
    rw [Piece.text, hr.takeWhile_append _ hd, hr.dropWhile_append _ hd]
    dsimp only
    rw [hf, ha]
    exact if_neg hw
  case decimal places hr hw ha =>
    have hp : MaximalRun (· ∈ digits) whole ('.' :: (places ++ rest)) := ⟨ha, by simp [digits]⟩
    have hf : fraction ('.' :: (places ++ rest)) = '.' :: (places ++ rest).takeWhile Char.isDigit := rfl
    have ha : afterFraction ('.' :: (places ++ rest)) = (places ++ rest).dropWhile Char.isDigit := rfl
    rw [Piece.text, List.append_assoc, List.cons_append, hp.takeWhile_append _ hd, hp.dropWhile_append _ hd]
    dsimp only
    rw [hf, ha, hr.takeWhile_append _ hd, hr.dropWhile_append _ hd]
    exact if_neg hw

theorem ofDigits_append : Number.ofDigits (ds ++ ds') =
    10 ^ ds'.length * Number.ofDigits ds + Number.ofDigits ds' := by
  change Nat.ofDigitChars 10 _ 0 = 10 ^ _ * Nat.ofDigitChars 10 _ 0 + Nat.ofDigitChars 10 _ 0
  rw [Nat.ofDigitChars_append, Nat.ofDigitChars_eq_ofDigitChars_zero]

theorem ofDigits_zeros (k : Nat) : Number.ofDigits (List.replicate k '0') = 0 :=
  Nat.ofDigitChars_replicate_zero

theorem zeros_digits (k : Nat) : ∀ c ∈ List.replicate k '0', c ∈ digits := by
  intro c hc
  rw [List.eq_of_mem_replicate hc]
  decide

theorem ofDigits_toDigits (n : Nat) : Number.ofDigits (Nat.toDigits 10 n) = n :=
  Nat.ofDigitChars_ten_toDigits

-- A text that ends after the point, or goes on with something that a literal cannot.

def Ends (rest : List Char) : Prop := ∀ c ∈ rest.head?, c ∉ digits ∧ c ≠ '.'

theorem fits_whole (hw : whole ≠ []) (ha : ∀ c ∈ whole, c ∈ digits) (hr : Ends rest) :
    (Piece.number whole none).Fits rest :=
  .whole hw ⟨ha, fun c hc => (hr c hc).1⟩ fun hp => (hr _ hp).2 rfl

theorem fits_decimal (hw : whole ≠ []) (ha : ∀ c ∈ whole, c ∈ digits) (hd : ∀ c ∈ ds, c ∈ digits)
    (hr : Ends rest) : (Piece.number whole (some ds)).Fits rest :=
  .decimal hw ha ⟨hd, fun c hc => (hr c hc).1⟩

theorem literalRat_none : literalRat whole [] = Number.ofDigits whole := by
  simp [literalRat]

-- A literal whose digits are those of `ds`, with `i` places after the point.
theorem literalRat_eq {i : Int} (h : Number.ofDigits (whole ++ ds') = Number.ofDigits ds)
    (hl : -i = ds'.length) : literalRat whole ds' = Number.ofDigits ds * (10 : Rat) ^ i := by
  rw [literalRat, h, ← zpow_natCast, ← hl, zpow_neg, div_inv_eq_mul]

section

variable (hd : ds ≠ []) (ha : ∀ c ∈ ds, c ∈ digits)
include hd ha

theorem layout_positional (hn : -6 < n ∧ n ≤ 21) : ∃ whole places,
    layout ds n = (Piece.number whole places).text ∧ (Piece.number whole places).Fits [] ∧
      literalRat whole (places.getD []) = Number.ofDigits ds * (10 : Rat) ^ (n - ds.length) := by
  have ends : Ends [] := nofun
  have hl := List.length_pos_iff.mpr hd
  rw [layout_of_positional hn]
  unfold Decimal.positional
  split_ifs with h₁ h₂
  case pos =>
    refine ⟨_, none, rfl, fits_whole ?_ (List.forall_mem_append.mpr ⟨ha, zeros_digits _⟩) ends, ?_⟩
    case refine_1 => exact List.append_ne_nil_of_left_ne_nil hd _
    case refine_2 =>
      have hz : n - ds.length = ((n - ds.length).toNat : Int) := by omega
      rw [Option.getD_none, literalRat_none, ofDigits_append, ofDigits_zeros, List.length_replicate,
        hz, zpow_natCast, Int.toNat_natCast]
      push_cast
      ring
  case pos =>
    refine ⟨_, some _, rfl, fits_decimal ?_ ?_ ?_ ends, literalRat_eq ?_ ?_⟩
    case refine_1 =>
      refine List.ne_nil_of_length_pos ?_
      rw [List.length_take]
      omega
    case refine_2 => exact fun c hc => ha c (List.mem_of_mem_take hc)
    case refine_3 => exact fun c hc => ha c (List.mem_of_mem_drop hc)
    case refine_4 => rw [Option.getD_some, List.take_append_drop]
    case refine_5 =>
      rw [Option.getD_some, List.length_drop]
      omega
  case neg =>
    refine ⟨['0'], some (List.replicate (-n).toNat '0' ++ ds), rfl,
      fits_decimal (List.cons_ne_nil _ _) (zeros_digits 1) (List.forall_mem_append.mpr ⟨zeros_digits _, ha⟩) ends,
      literalRat_eq ?_ ?_⟩
    case refine_1 =>
      rw [Option.getD_some, ← List.append_assoc, ofDigits_append]
      change _ * Number.ofDigits ('0' :: List.replicate _ '0') + _ = _
      rw [← List.replicate_succ, ofDigits_zeros, Nat.mul_zero, Nat.zero_add]
    case refine_2 =>
      rw [Option.getD_some, List.length_append, List.length_replicate]
      omega

theorem layout_scientific (hn : ¬(-6 < n ∧ n ≤ 21)) : ∃ whole places,
    layout ds n = (Piece.number whole places).text ++ Decimal.scientific.exponentText (n - 1) ∧
      (Piece.number whole places).Fits (Decimal.scientific.exponentText (n - 1)) ∧
      literalRat whole (places.getD []) * (10 : Rat) ^ (n - 1) =
        Number.ofDigits ds * (10 : Rat) ^ (n - ds.length) := by
  have ends : Ends (Decimal.scientific.exponentText (n - 1)) := by
    rintro c ⟨⟩
    decide
  rw [layout_of_scientific hd hn]
  match ds with
  | []      => contradiction
  | [_]     => exact ⟨_, none, rfl, fits_whole hd ha ends, by rw [Option.getD_none, literalRat_none]; rfl⟩
  | d :: c :: cs =>
    rw [List.forall_mem_cons] at ha
    have hq : literalRat [d] (c :: cs) =
        Number.ofDigits (d :: c :: cs) * (10 : Rat) ^ (-((c :: cs).length : Int)) :=
      literalRat_eq rfl (neg_neg _)
    have he : -((c :: cs).length : Int) + (n - 1) = n - (d :: c :: cs).length := by
      simp only [List.length_cons]
      omega
    refine ⟨[d], some (c :: cs), rfl, ?_, ?_⟩
    case refine_1 =>
      exact fits_decimal (List.cons_ne_nil _ _) (List.forall_mem_singleton.mpr ha.1) ha.2 ends
    case refine_2 => rw [Option.getD_some, hq, mul_assoc, ← zpow_add₀ (by norm_num), he]

theorem natural?_eq : natural? ds = some (Number.ofDigits ds) :=
  if_pos ⟨hd, List.all_eq_true.mpr fun c hc => isDigit_iff.mpr (ha c hc)⟩

end

theorem digits_of_toDigits (n : Nat) : ∀ c ∈ Nat.toDigits 10 n, c ∈ digits :=
  fun _ hc => isDigit_iff.mp (Nat.isDigit_of_mem_toDigits (by decide) (by decide) hc)

theorem exponent?_exponentText (e : Int) : exponent? (Decimal.scientific.exponentText e) = some e := by
  have h := natural?_eq Nat.toDigits_ne_nil (digits_of_toDigits e.natAbs)
  rw [ofDigits_toDigits] at h
  unfold Decimal.scientific.exponentText
  split_ifs with he
  case pos =>
    rw [exponent?, h, Option.map_some]
    congr 1
    omega
  case neg =>
    rw [exponent?, h, Option.map_some]
    congr 1
    exact Int.natAbs_of_nonneg (not_lt.mp he)

-- What the layout of digits reads as.
theorem unsigned?_layout (hd : ds ≠ []) (ha : ∀ c ∈ ds, c ∈ digits) :
    unsigned? (layout ds n) = some (Number.ofDigits ds * (10 : Rat) ^ (n - ds.length)) := by
  by_cases hn : -6 < n ∧ n ≤ 21
  case pos =>
    obtain ⟨whole, places, ht, hf, hq⟩ := layout_positional hd ha hn
    rw [ht, ← List.append_nil (Piece.text _), unsigned?_of_fits hf, hq]
    simp [exponent?]
  case neg =>
    obtain ⟨whole, places, ht, hf, hq⟩ := layout_scientific hd ha hn
    rw [ht, unsigned?_of_fits hf, exponent?_exponentText, Option.map_some, hq]

theorem decimal?_of_unsigned? {text : List Char} (h : unsigned? text = some q) : decimal? text = some q := by
  unfold decimal?
  split
  case _ => cases h
  case _ => exact h

namespace Number

variable {x : Number} {d : Decimal} {k : Nat}

theorem nearest_of_nonneg (hq : 0 ≤ q) : nearest q = ofMagnitude q := if_neg (not_lt.mpr hq)

theorem unsigned?_magnitude (hd : d.IsWritten k x) :
    unsigned? (layout (Nat.toDigits 10 d.digits) (d.exponent + k)) = some d.toRat := by
  rw [unsigned?_layout Nat.toDigits_ne_nil (digits_of_toDigits _), ofDigits_toDigits,
    hd.shortest.digits.length_eq, add_sub_cancel_right]
  rfl

theorem ofMagnitude_written (hd : d.IsWritten k x) (hx : x.isNegative = false) : ofMagnitude d.toRat = x :=
  (ofMagnitude_eq_iff d.toRat_nonneg hx hd.shortest.rounds.finite).mpr
    (hd.shortest.rounds.nearest d.toRat_nonneg)

theorem text_reads (fx : x.isFinite = true) : ∃ q, decimal? x.text.toList = some q ∧ RoundsTo q x := by
  have nx := isNaN_of_isFinite fx
  obtain ⟨t, h⟩ := exists_hasText x
  rw [h.text_eq]
  cases h
  case nan h => exact absurd h (Bool.eq_false_iff.mp nx)
  case infinity h _ => exact absurd h (Bool.eq_false_iff.mp (isInf_of_isFinite fx))
  case minusInfinity h _ => exact absurd h (Bool.eq_false_iff.mp (isInf_of_isFinite fx))
  case zero h =>
    have hz := RoundsTo.self fx
    rw [toRat_eq_zero_iff.mpr ((beq_zero_iff fx).mp h)] at hz
    exact ⟨0, by decide +kernel, hz⟩
  case finite d k _ h hd =>
    have hr := rank_abs_pos fx h
    have hq := unsigned?_magnitude hd
    have rounds := hd.shortest.rounds
    rw [rank_abs nx] at hr
    rw [String.toList_ofList]
    split_ifs with hn
    case pos =>
      refine ⟨-d.toRat, by rw [List.singleton_append, decimal?, hq, Option.map_some], ?_⟩
      exact neg_abs_of_negative ((lt_zero_iff fx).mp hn).2 nx ▸ rounds.neg
    case neg =>
      have hs : x.isNegative = false := Bool.eq_false_iff.mpr fun h => hn ((lt_zero_iff fx).mpr ⟨hr.ne', h⟩)
      exact ⟨d.toRat, decimal?_of_unsigned? hq, abs_of_positive hs nx ▸ rounds⟩

theorem isFinite_of_abs_lt (h : x.abs < maxPositional) : x.isFinite = true := by
  by_contra hf
  obtain rfl | rfl | rfl := not_finite_cases (Bool.eq_false_iff.mpr hf)
  all_goals exact absurd h (by decide +kernel)

-- The texts that have no exponent are a literal, with a sign before it or without one.
theorem text_literal (h : (x == 0) = true ∨ minPositional ≤ x.abs ∧ x.abs < maxPositional) :
    ∃ whole places, x.text = .ofList ((if x < 0 then ['-'] else []) ++ (Piece.number whole places).text) ∧
      (Piece.number whole places).Fits [] ∧ ofLiteral whole (places.getD []) = x.abs := by
  cases hz : (x == 0)
  case true =>
    have fx := isFinite_of_beq_zero hz
    have nx := isNaN_of_isFinite fx
    have hr := (beq_zero_iff fx).mp hz
    have hn : ¬x < 0 := fun h => ((lt_zero_iff fx).mp h).1 hr
    have ht : x.text = "0" := HasText.text_eq (.zero hz)
    rw [ht, if_neg hn]
    refine ⟨['0'], none, rfl, fits_whole (List.cons_ne_nil _ _) (by simp [digits]) nofun, ?_⟩
    refine ext ?_ ?_
    case refine_1 =>
      rw [isNegative_abs nx]
      decide +kernel
    case refine_2 =>
      rw [rank_abs nx, hr]
      decide +kernel
  case false =>
    have h := h.resolve_left (Bool.eq_false_iff.mp hz)
    have fx := isFinite_of_abs_lt h.2
    have nx := isNaN_of_isFinite fx
    obtain ⟨k, hd⟩ := Decimal.isWritten_shortest (isNegative_abs nx) (isFinite_abs fx) (rank_abs_pos fx hz)
    have hn := (positional_iff (isNegative_abs nx) (isFinite_abs fx) hd).mp h
    obtain ⟨whole, places, ht, hf, hq⟩ :=
      layout_positional Nat.toDigits_ne_nil (digits_of_toDigits _) hn
    refine ⟨whole, places, ?_, hf, ?_⟩
    case refine_1 => rw [← ht, HasText.text_eq (.finite fx hz hd)]
    case refine_2 =>
      rw [ofDigits_toDigits, hd.shortest.digits.length_eq, add_sub_cancel_right] at hq
      change nearest (literalRat whole (places.getD [])) = _
      rw [hq]
      exact (nearest_of_nonneg (Decimal.toRat_nonneg _)).trans (ofMagnitude_written hd (isNegative_abs nx))

end Number

end Calculator
