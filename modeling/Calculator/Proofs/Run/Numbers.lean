import Calculator.Proofs.Eval.Session
import Calculator.Proofs.Number.Reading
import Calculator.Proofs.Parse.Outcome
import Calculator.Run

/-!
# Runs of the texts of numbers

The text of a number reads as a decimal that is rounded to the number. Where it has no exponent it is a
program as well, that of a literal or of a literal negated, whose output is the text again.
-/

namespace Calculator

open Parse

variable {whole : List Char} {places : Option (List Char)} {x : Number} (minus : Prop) [Decidable minus]

theorem scan_literal (hf : (Piece.number whole places).Fits [])
    (fx : (Number.ofLiteral whole (places.getD [])).isFinite = true) :
    scan (.ofList ((if minus then ['-'] else []) ++ (Piece.number whole places).text)) =
      .ok ((if minus then [⟨.mark (.operator .sub), 1⟩] else []) ++
        [⟨.number (.ofLiteral whole (places.getD [])), 1⟩, ⟨.mark .finish, 1⟩]) := by
  have hp : Pieces (Piece.number whole places).text [.number whole places] := by
    simpa using Pieces.cons hf .nil
  have ho : (Piece.number whole places).overflows = false := by
    simp [Piece.overflows, fx]
  have hl (before : List Char) : lineAfter (before ++ (Piece.number whole places).text) = lineAfter before := by
    rw [lineAfter_append, hf.count_newline]
    rfl
  split_ifs
  case pos =>
    have hm : Pieces (String.ofList (['-'] ++ (Piece.number whole places).text)).toList
        [.mark '-' (.operator .sub), .number whole places] := by
      rw [String.toList_ofList]
      exact .cons (p := .mark '-' (.operator .sub)) (.mark (by decide)) hp
    rw [hm.scan_ok (List.forall_mem_cons.mpr ⟨rfl, List.forall_mem_singleton.mpr ho⟩)]
    simp only [lexemesAfter, hl]
    rfl
  case neg =>
    rw [← String.toList_ofList (l := (Piece.number whole places).text)] at hp
    rw [List.nil_append, hp.scan_ok (List.forall_mem_singleton.mpr ho)]
    simp only [lexemesAfter, hl]
    rfl

theorem parse_single {e : Expr} {t : Lexeme} {ts : List Lexeme} (ht : t.value ≠ .mark .finish)
    (h : (expression 0 (t :: ts)).outcome = .ok (e, [⟨.mark .finish, 1⟩])) : parse (t :: ts) = .ok [e] := by
  rw [parse_cons ht, h]
  change parse _ >>= _ = _
  rw [parse_finish rfl]
  rfl

theorem parse_literal :
    parse ((if minus then [⟨.mark (.operator .sub), 1⟩] else []) ++ [⟨.number x, 1⟩, ⟨.mark .finish, 1⟩]) =
      .ok [if minus then .negate (.number x 1) 1 else .number x 1] := by
  have hn (power : Nat) : (expression power [⟨.number x, 1⟩, ⟨.mark .finish, 1⟩]).outcome =
      .ok (.number x 1, [⟨.mark .finish, 1⟩]) := by
    rw [expression_cons, operand_number rfl]
    exact extend_stop (Nat.zero_le _)
  split_ifs
  case pos =>
    rw [List.singleton_append]
    refine parse_single (by simp) ?_
    rw [expression_cons, operand_negation rfl, hn]
    exact extend_stop (Nat.zero_le _)
  case neg => exact parse_single (by simp) (hn 0)

theorem evaluate_literal (c : Context) :
    evaluate [if minus then .negate (.number x 1) 1 else .number x 1] c =
      (.ok (Number.text (if minus then -x else x)), c) := by
  have h : (if minus then Expr.negate (.number x 1) 1 else .number x 1).eval c =
      (.ok (some (if minus then -x else x)), c) := by
    split_ifs <;> rfl
  rw [evaluate_cons_ok h rfl]
  exact congrArg (Except.ok ·, c) String.append_empty

theorem run_literal (hf : (Piece.number whole places).Fits [])
    (hx : Number.ofLiteral whole (places.getD []) = x) (fx : x.isFinite = true) (options : Options)
    (draws : Draws) :
    run (.ofList ((if minus then ['-'] else []) ++ (Piece.number whole places).text)) options draws =
      .ok (Number.text (if minus then -x else x)) := by
  subst hx
  have hp : program (.ofList ((if minus then ['-'] else []) ++ (Piece.number whole places).text)) =
      .ok [if minus then .negate (.number (.ofLiteral whole (places.getD [])) 1) 1
        else .number (.ofLiteral whole (places.getD [])) 1] := by
    rw [program, scan_literal minus hf fx]
    exact parse_literal minus
  rw [run, Context.run, hp]
  dsimp only
  rw [evaluate_literal]
  rfl

theorem text_of_abs (fx : x.isFinite = true) : Number.text (if x < 0 then -x.abs else x.abs) = x.text := by
  have nx := Number.isNaN_of_isFinite fx
  split_ifs with hn
  case pos => rw [Number.neg_abs_of_negative ((Number.lt_zero_iff fx).mp hn).2 nx]
  case neg =>
    cases hs : x.isNegative
    case false => rw [Number.abs_of_positive hs nx]
    case true =>
      -- Both zeros have the same text.
      have hr : x.rank = 0 := not_not.mp fun hr => hn ((Number.lt_zero_iff fx).mpr ⟨hr, hs⟩)
      have hx : (x == 0) = true := (Number.beq_zero_iff fx).mpr hr
      have ha : (x.abs == 0) = true := by
        rw [Number.beq_zero_iff (Number.isFinite_abs fx), Number.rank_abs nx, hr]
      rw [(Number.HasText.zero ha).text_eq, (Number.HasText.zero hx).text_eq]

-- The text of a finite number reads as a decimal that is rounded to the number. If it has no exponent, it
-- is a literal to the scanner, after a sign or without one, and running it writes it again.
theorem printed_number_reads_back (x : Number) :
    (x.isFinite = true →
      ∃ q, decimal? x.text.toList = some q ∧ Number.RoundsTo q x ∧ (Number.nearest q == x) = true) ∧
    ((x == 0) = true ∨ Number.minPositional ≤ x.abs ∧ x.abs < Number.maxPositional →
      x.abs.isFinite = true ∧
        scan x.text = .ok ((if x < 0 then [⟨.mark (.operator .sub), 1⟩] else []) ++
          [⟨.number x.abs, 1⟩, ⟨.mark .finish, 1⟩]) ∧
        ∀ options draws, run x.text options draws = .ok x.text) := by
  refine ⟨fun fx => ?_, fun h => ?_⟩
  case refine_1 =>
    obtain ⟨q, hq, hr⟩ := Number.text_reads fx
    exact ⟨q, hq, hr, hr.nearest_beq⟩
  obtain ⟨whole, places, ht, hf, hx⟩ := Number.text_literal h
  have fx : x.isFinite = true :=
    h.elim Number.isFinite_of_beq_zero fun h => Number.isFinite_of_abs_lt h.2
  have fa := Number.isFinite_abs fx
  refine ⟨fa, ?_, fun options draws => ?_⟩
  case refine_1 => rw [ht, scan_literal (x < 0) hf (hx ▸ fa), hx]
  case refine_2 =>
    have hr := run_literal (x < 0) hf hx fa options draws
    rwa [← ht, text_of_abs fx] at hr

-- The number next to -0.1.
theorem printed_number_reads_back_of_tenth :
    let x : Number := .ofBits 0xbfb999999999999a
    x.isFinite = true ∧ (Number.minPositional ≤ x.abs ∧ x.abs < Number.maxPositional) ∧ x.text = "-0.1" ∧
      (∃ q, decimal? "-0.1".toList = some q ∧ Number.RoundsTo q x ∧ (Number.nearest q == x) = true) ∧
      scan "-0.1" = .ok [⟨.mark (.operator .sub), 1⟩, ⟨.number x.abs, 1⟩, ⟨.mark .finish, 1⟩] ∧
      ∀ options draws, run "-0.1" options draws = .ok "-0.1" := by
  intro x
  have fx : x.isFinite = true := by decide +kernel
  have hr : Number.minPositional ≤ x.abs ∧ x.abs < Number.maxPositional := by decide +kernel
  have hn : x < 0 := by decide +kernel
  have ht : x.text = "-0.1" := by decide +kernel
  obtain ⟨hd, hs⟩ := printed_number_reads_back x
  obtain ⟨-, hs, hr'⟩ := hs (.inr hr)
  rw [ht] at hd hs hr'
  rw [if_pos hn] at hs
  exact ⟨fx, hr, ht, hd fx, hs, hr'⟩

end Calculator
