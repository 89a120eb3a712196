import Calculator.Proofs.Number.Reading
import Calculator.Proofs.Token.Places

/-!
# Values of literals

A literal writes a rational: each of its digits counts ten times what the next one does, and the last
before the point counts ones. Its token has the nearest number, and scanning fails at a literal whose
rational is so great that no finite number is meant.
-/

namespace Calculator

open Number (RoundsTo)

-- The position of a digit among the ten is what it counts for.
def digitValue (c : Char) : Nat := digits.idxOf c

def wholeValue : List Char → Rat
  | []      => 0
  | c :: cs => digitValue c * 10 ^ cs.length + wholeValue cs

def placesValue : List Char → Rat
  | []      => 0
  | c :: cs => (digitValue c + placesValue cs) / 10

def literalValue (whole places : List Char) : Rat := wholeValue whole + placesValue places

example : literalValue "01".toList "50".toList = 3 / 2 := by decide +kernel

def Piece.value? : Piece → Option Rat
  | number whole places => some (literalValue whole (places.getD []))
  | _                   => none

def Token.number? : Token → Option Number
  | number x => some x
  | _        => none

-- `x` is what a literal of the rational `q` means.
structure Means (q : Rat) (x : Number) : Prop where
  sign    : x.isNegative = false
  rounded : RoundsTo q x

variable {whole places ds : List Char} {text before rest : List Char} {fraction : Option (List Char)}
  {p : Piece} {ps : List Piece}

theorem toNat_digit : ∀ c ∈ digits, c.toNat - '0'.toNat = digitValue c := by
  simp [digits, digitValue, List.idxOf_cons]

theorem ofDigits_cons {c : Char} (hc : c ∈ digits) :
    Number.ofDigits (c :: ds) = digitValue c * 10 ^ ds.length + Number.ofDigits ds := by
  have h : Number.ofDigits [c] = digitValue c := by
    rw [← toNat_digit c hc]
    exact Nat.zero_add _
  rw [← List.singleton_append, ofDigits_append, h, Nat.mul_comm]

theorem wholeValue_eq (hd : ∀ c ∈ ds, c ∈ digits) : wholeValue ds = Number.ofDigits ds := by
  induction ds
  case nil => rfl
  case cons c cs hi =>
    obtain ⟨hc, hd⟩ := List.forall_mem_cons.mp hd
    rw [wholeValue, hi hd, ofDigits_cons hc]
    push_cast
    rfl

theorem placesValue_eq (hd : ∀ c ∈ ds, c ∈ digits) :
    placesValue ds = Number.ofDigits ds / (10 : Rat) ^ ds.length := by
  induction ds
  case nil => simp [placesValue, Number.ofDigits]
  case cons c cs hi =>
    obtain ⟨hc, hd⟩ := List.forall_mem_cons.mp hd
    rw [placesValue, hi hd, ofDigits_cons hc, List.length_cons]
    push_cast
    field_simp
    ring

theorem literalRat_eq_value (hw : ∀ c ∈ whole, c ∈ digits) (hp : ∀ c ∈ places, c ∈ digits) :
    literalRat whole places = literalValue whole places := by
  rw [literalRat, literalValue, wholeValue_eq hw, placesValue_eq hp, ofDigits_append]
  push_cast
  field_simp

theorem literalValue_nonneg (hw : ∀ c ∈ whole, c ∈ digits) (hp : ∀ c ∈ places, c ∈ digits) :
    0 ≤ literalValue whole places := by
  rw [← literalRat_eq_value hw hp, literalRat]
  positivity

-- Zeros before and after all other digits.

theorem wholeValue_zeros (n : Nat) : wholeValue (List.replicate n '0' ++ ds) = wholeValue ds := by
  have h₀ : digitValue '0' = 0 := rfl
  induction n
  case zero => rfl
  case succ n hi =>
    rw [List.replicate_succ, List.cons_append, wholeValue, hi, h₀, Nat.cast_zero, zero_mul, zero_add]

theorem placesValue_zeros (n : Nat) : placesValue (ds ++ List.replicate n '0') = placesValue ds := by
  have h₀ : digitValue '0' = 0 := rfl
  have zeros : placesValue (List.replicate n '0') = 0 := by
    induction n
    case zero => rfl
    case succ n hi => rw [List.replicate_succ, placesValue, hi, h₀, Nat.cast_zero, add_zero, zero_div]
  induction ds
  case nil          => exact zeros
  case cons c cs hi => rw [List.cons_append, placesValue, hi, placesValue]

theorem Piece.Fits.digits_of_number (h : (Piece.number whole fraction).Fits rest) :
    whole ≠ [] ∧ (∀ c ∈ whole, c ∈ digits) ∧ ∀ c ∈ fraction.getD [], c ∈ digits := by
  cases h
  case whole _ hw hr => exact ⟨hw, hr.all, nofun⟩
  case decimal hr hw ha => exact ⟨hw, ha, hr.all⟩

theorem fits_end (hw : whole ≠ []) (ha : ∀ c ∈ whole, c ∈ digits) (hd : ∀ c ∈ fraction.getD [], c ∈ digits) :
    (Piece.number whole fraction).Fits [] := by
  cases fraction
  case none   => exact fits_whole hw ha nofun
  case some _ => exact fits_decimal hw ha hd nofun

section

variable (hw : ∀ c ∈ whole, c ∈ digits) (hp : ∀ c ∈ fraction.getD [], c ∈ digits)
include hw hp

theorem ofLiteral_eq : Number.ofLiteral whole (fraction.getD []) =
    .nearest (literalValue whole (fraction.getD [])) := by
  rw [← literalRat_eq_value hw hp]
  rfl

theorem overflows_iff : (Piece.number whole fraction).overflows = true ↔
    2 ^ 1024 - 2 ^ 970 ≤ literalValue whole (fraction.getD []) := by
  rw [Piece.overflows, ofLiteral_eq hw hp, Bool.not_eq_true', Bool.eq_false_iff, Ne, Number.isFinite_nearest,
    abs_of_nonneg (literalValue_nonneg hw hp), not_lt]

theorem means_ofLiteral (hq : literalValue whole (fraction.getD []) < 2 ^ 1024 - 2 ^ 970) :
    Means (literalValue whole (fraction.getD [])) (.ofLiteral whole (fraction.getD [])) := by
  have h₀ := literalValue_nonneg hw hp
  rw [ofLiteral_eq hw hp]
  constructor
  case sign    => rw [Number.isNegative_nearest, decide_eq_false (not_lt.mpr h₀)]
  case rounded => exact Number.roundsTo_nearest (by rwa [abs_of_nonneg h₀])

end

theorem Piece.Fits.overflows_iff (h : p.Fits rest) :
    p.overflows = true ↔ ∃ q ∈ p.value?, 2 ^ 1024 - 2 ^ 970 ≤ q := by
  cases p
  case number whole fraction =>
    obtain ⟨-, hw, hp⟩ := h.digits_of_number
    simp only [Piece.value?, Option.mem_some_iff, exists_eq_left', Calculator.overflows_iff hw hp]
  all_goals simp [Piece.overflows, Piece.value?]

namespace Pieces

theorem overflows_iff (h : Pieces text ps) :
    (∃ p ∈ ps, p.overflows = true) ↔ ∃ q ∈ ps.filterMap Piece.value?, 2 ^ 1024 - 2 ^ 970 ≤ q := by
  simp only [List.mem_filterMap]
  constructor
  case mp =>
    rintro ⟨p, hp, ho⟩
    obtain ⟨rest, hf⟩ := h.fits_of_mem hp
    obtain ⟨q, hq, hb⟩ := hf.overflows_iff.mp ho
    exact ⟨q, ⟨p, hp, hq⟩, hb⟩
  case mpr =>
    rintro ⟨q, ⟨p, hp, hq⟩, hb⟩
    obtain ⟨rest, hf⟩ := h.fits_of_mem hp
    exact ⟨p, hp, hf.overflows_iff.mpr ⟨q, hq, hb⟩⟩

-- The number tokens are the literals in their order.
theorem means (h : Pieces text ps) (ho : ∀ p ∈ ps, p.overflows = false) (before : List Char) :
    List.Forall₂ Means (ps.filterMap Piece.value?)
      ((lexemesAfter before ps).filterMap (·.value.number?)) := by
  induction h generalizing before
  case nil => exact .nil
  case cons p ps rest hf _ hi =>
    obtain ⟨hn, ho⟩ := List.forall_mem_cons.mp ho
    have hi := hi ho (before ++ p.text)
    rw [lexemesAfter, List.filterMap_append]
    cases p
    case blank | mark | name => exact hi
    case number whole fraction =>
      obtain ⟨-, hw, hp⟩ := hf.digits_of_number
      have hq := mt (Calculator.overflows_iff hw hp).mpr (Bool.eq_false_iff.mp hn)
      exact .cons (means_ofLiteral hw hp (not_le.mp hq)) hi

end Pieces

theorem scan_number (h : (Piece.number whole fraction).Fits []) :
    scan (.ofList (Piece.number whole fraction).text) =
      if 2 ^ 1024 - 2 ^ 970 ≤ literalValue whole (fraction.getD []) then
        .error ⟨.overflow (.ofList (Piece.number whole fraction).text), 1⟩
      else
        .ok [⟨.number (.nearest (literalValue whole (fraction.getD []))), 1⟩, ⟨.mark .finish, 1⟩] := by
  obtain ⟨-, hw, hp⟩ := h.digits_of_number
  have hl : lineAfter ([] ++ (Piece.number whole fraction).text) = lineAfter [] := by
    rw [lineAfter_append, h.count_newline]
    rfl
  have hs : Pieces (String.ofList (Piece.number whole fraction).text).toList [.number whole fraction] := by
    simpa using Pieces.cons h .nil
  split_ifs with hq
  case pos =>
    have hs : Pieces _ ([] ++ .number whole fraction :: []) := hs
    exact hs.scan_error nofun ((overflows_iff hw hp).mpr hq)
  case neg =>
    have ho : (Piece.number whole fraction).overflows = false :=
      Bool.eq_false_iff.mpr (mt (overflows_iff hw hp).mp hq)
    rw [hs.scan_ok (List.forall_mem_singleton.mpr ho), lexemesAfter, lexemesAfter, hl, ← ofLiteral_eq hw hp]
    rfl

theorem scan_padded {places : Option (List Char)} (h : (Piece.number whole fraction).Fits []) (n m : Nat)
    (hz : places.getD [] = fraction.getD [] ++ List.replicate m '0') (ts : List Lexeme) :
    scan (.ofList (Piece.number (List.replicate n '0' ++ whole) places).text) = .ok ts ↔
      scan (.ofList (Piece.number whole fraction).text) = .ok ts := by
  obtain ⟨hn, hw, hp⟩ := h.digits_of_number
  have hf : (Piece.number (List.replicate n '0' ++ whole) places).Fits [] :=
    fits_end (List.append_ne_nil_of_right_ne_nil _ hn) (List.forall_mem_append.mpr ⟨zeros_digits n, hw⟩)
      (hz ▸ List.forall_mem_append.mpr ⟨hp, zeros_digits m⟩)
  have hq : literalValue (List.replicate n '0' ++ whole) (places.getD []) =
      literalValue whole (fraction.getD []) := by
    rw [hz, literalValue, literalValue, wholeValue_zeros, placesValue_zeros]
  rw [scan_number hf, scan_number h, hq]
  split_ifs
  case pos => exact iff_of_false nofun nofun
  case neg => rfl

namespace Pieces

variable {source : String}

theorem scan_overflows_iff (h : Pieces source.toList ps) :
    (∃ text line, scan source = .error ⟨.overflow text, line⟩) ↔
      ∃ q ∈ ps.filterMap Piece.value?, 2 ^ 1024 - 2 ^ 970 ≤ q := by
  rw [← h.overflows_iff]
  constructor
  case mp =>
    rintro ⟨text, line, hs⟩
    obtain ⟨done, p, rest, rfl, -, hp, -⟩ := h.error_of_scan hs
    exact ⟨p, by simp, hp⟩
  case mpr =>
    rintro ⟨p, hp, ho⟩
    obtain ⟨done, p, rest, rfl, hd, ho⟩ := exists_first_overflow fun hn =>
      Bool.false_ne_true ((hn p hp).symm.trans ho)
    exact ⟨_, _, h.scan_error hd ho⟩

theorem scan_means (h : Pieces source.toList ps)
    (hq : ∀ q ∈ ps.filterMap Piece.value?, q < 2 ^ 1024 - 2 ^ 970) : ∃ ts, scan source = .ok ts ∧
      List.Forall₂ Means (ps.filterMap Piece.value?) (ts.filterMap (·.value.number?)) := by
  have ho : ∀ p ∈ ps, p.overflows = false := by
    intro p hp
    rw [Bool.eq_false_iff]
    intro ho
    obtain ⟨q, hm, hb⟩ := h.overflows_iff.mp ⟨p, hp, ho⟩
    exact absurd (hq q hm) (not_lt.mpr hb)
  exact ⟨_, h.scan_ok ho, h.means ho []⟩

end Pieces

-- Every literal of a source has its rational, rounded to the nearest number, and scanning fails only where
-- one is too great to be finite. So zeros at the ends of a literal and a point at its end change nothing.
theorem literals_have_values :
    (∀ (source : String) (ps : List Piece), Pieces source.toList ps →
      ((∃ text line, scan source = .error ⟨.overflow text, line⟩) ↔
        ∃ q ∈ ps.filterMap Piece.value?, 2 ^ 1024 - 2 ^ 970 ≤ q) ∧
      ((∀ q ∈ ps.filterMap Piece.value?, q < 2 ^ 1024 - 2 ^ 970) →
        ∃ ts, scan source = .ok ts ∧
          List.Forall₂ Means (ps.filterMap Piece.value?) (ts.filterMap (·.value.number?)))) ∧
    ∀ (whole : List Char) (places : Option (List Char)), whole ≠ [] →
      (∀ c ∈ whole ++ places.getD [], c ∈ digits) →
      let q := literalValue whole (places.getD [])
      let literal := (Piece.number whole places).text
      (q < 2 ^ 1024 - 2 ^ 970 →
        ∃ x, Means q x ∧ scan (.ofList literal) = .ok [⟨.number x, 1⟩, ⟨.mark .finish, 1⟩]) ∧
      (2 ^ 1024 - 2 ^ 970 ≤ q → scan (.ofList literal) = .error ⟨.overflow (.ofList literal), 1⟩) ∧
      ∀ (n m : Nat) (places' : Option (List Char)),
        places'.getD [] = places.getD [] ++ List.replicate m '0' → ∀ ts,
        scan (.ofList (Piece.number (List.replicate n '0' ++ whole) places').text) = .ok ts ↔
          scan (.ofList literal) = .ok ts := by
  refine ⟨fun source ps h => ⟨h.scan_overflows_iff, h.scan_means⟩, ?_⟩
  intro whole places hn hd q literal
  obtain ⟨hw, hp⟩ := List.forall_mem_append.mp hd
  have hf := fits_end hn hw hp
  refine ⟨fun hq => ⟨.nearest q, ?_, ?_⟩, fun hq => ?_, fun n m _ => scan_padded hf n m⟩
  case refine_1 => exact ofLiteral_eq hw hp ▸ means_ofLiteral hw hp hq
  case refine_2 => exact (scan_number hf).trans (if_neg (not_le.mpr hq))
  case refine_3 => exact (scan_number hf).trans (if_pos hq)

-- The middle between two numbers, with zeros around it, and a literal that is too great.
theorem literals_have_values_of_middle :
    let middle := "9007199254740993".toList
    let padded := "09007199254740993.00".toList
    let great := '1' :: List.replicate 309 '0'
    ((∀ c ∈ middle, c ∈ digits) ∧ literalValue middle [] < 2 ^ 1024 - 2 ^ 970 ∧
      (∃ x, Means (literalValue middle []) x ∧
        scan (.ofList middle) = .ok [⟨.number x, 1⟩, ⟨.mark .finish, 1⟩]) ∧
      ∀ ts, scan (.ofList padded) = .ok ts ↔ scan (.ofList middle) = .ok ts) ∧
    ((∀ c ∈ great, c ∈ digits) ∧ 2 ^ 1024 - 2 ^ 970 ≤ literalValue great [] ∧
      scan (.ofList great) = .error ⟨.overflow (.ofList great), 1⟩) ∧
    Pieces padded [.number ('0' :: middle) (some ['0', '0'])] ∧
      ∃ ts, scan (.ofList padded) = .ok ts ∧
        List.Forall₂ Means [literalValue ('0' :: middle) ['0', '0']] (ts.filterMap (·.value.number?)) := by
  intro middle padded great
  have hm : ∀ c ∈ middle, c ∈ digits := by simp [middle, digits]
  have hg : ∀ c ∈ great, c ∈ digits := List.forall_mem_cons.mpr ⟨by decide, zeros_digits 309⟩
  have qm : literalValue middle [] < 2 ^ 1024 - 2 ^ 970 := by decide +kernel
  have qp : literalValue ('0' :: middle) ['0', '0'] < 2 ^ 1024 - 2 ^ 970 := by decide +kernel
  have qg : 2 ^ 1024 - 2 ^ 970 ≤ literalValue great [] := by decide +kernel
  have hf : (Piece.number ('0' :: middle) (some ['0', '0'])).Fits [] :=
    fits_end (List.cons_ne_nil _ _) (List.forall_mem_cons.mpr ⟨by decide, hm⟩) (zeros_digits 2)
  have hp : Pieces padded [.number ('0' :: middle) (some ['0', '0'])] := Pieces.cons hf .nil
  obtain ⟨h₁, -, h₂⟩ := literals_have_values.2 middle none (by simp [middle]) (by simpa using hm)
  obtain ⟨-, h₃, -⟩ := literals_have_values.2 great none (List.cons_ne_nil _ _) (by simpa using hg)
  have h₄ := (literals_have_values.1 (.ofList padded) _ (by rwa [String.toList_ofList])).2
  exact ⟨⟨hm, qm, h₁ qm, h₂ 1 2 (some ['0', '0']) rfl⟩, ⟨hg, qg, h₃ qg⟩, hp,
    h₄ (List.forall_mem_singleton.mpr qp)⟩

end Calculator
