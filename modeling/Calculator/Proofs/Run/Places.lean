import Calculator.Proofs.Eval.Places
import Calculator.Proofs.Token.Places
import Calculator.Run
import Mathlib

/-!
# Places of errors

An error points at the source text. Its line is one that the text has, and what the error is about can
be found on that line, also if it has come up while something on another line was evaluated.
-/

namespace Calculator

open Parse

-- What an error is about begins on its line: a number that is too great, or a token.
inductive Error.Placed (source : String) (options : Options) : Error → Prop
  | overflow {done whole fraction rest} :
    Pieces source.toList (done ++ .number whole fraction :: rest) →
    (Piece.number whole fraction).overflows = true →
    Placed source options (.read ⟨.overflow (.ofList (Piece.number whole fraction).text),
      lineAfter (done.flatMap Piece.text)⟩)
  | read {ts e} :
    scan source = .ok ts → e.value.Placed ts e.line →
    (e.value = .unexpected .finish → e.line = lineAfter source.toList) →
    Placed source options (.read e)
  | eval {ts e} :
    scan source = .ok ts → e.value.Placed ts options e.line → Placed source options (.eval e)

variable {source : String} {options : Options} {draws : Draws} {ts : List Lexeme} {e : Error}
  {line : Nat}

theorem SyntaxFault.Placed.mem {fault : SyntaxFault} (h : fault.Placed ts line) :
    ∃ t ∈ ts, t.line = line := by
  cases h
  case call h => exact ⟨_, h.mem, rfl⟩
  all_goals exact ⟨_, ‹_›, rfl⟩

theorem EvalFault.Placed.mem {fault : EvalFault} (h : fault.Placed ts options line) :
    ∃ t ∈ ts, t.line = line := by
  cases h
  case undefined h         => exact ⟨_, h, rfl⟩
  case argumentCount h _ _ => exact ⟨_, h.mem, rfl⟩
  case tooDeep h           => exact ⟨_, h.mem, rfl⟩

theorem line_of_token (hs : scan source = .ok ts) (h : ∃ t ∈ ts, t.line = line) :
    1 ≤ line ∧ line ≤ lineAfter source.toList := by
  obtain ⟨t, ht, rfl⟩ := h
  exact line_of_scan hs ht

theorem Error.Placed.line_le (h : e.Placed source options) :
    1 ≤ e.line ∧ e.line ≤ lineAfter source.toList := by
  cases h
  case overflow hp _ => exact ⟨one_le_lineAfter, hp.line_le⟩
  case read hs he _  => exact line_of_token hs he.mem
  case eval hs he    => exact line_of_token hs he.mem

theorem scan_placed {e : SyntaxError} (h : scan source = .error e) :
    (Error.read e).Placed source options := by
  have ⟨ps, hp⟩ := Pieces.exist source.toList
  obtain ⟨done, p, rest, rfl, _, ho, rfl⟩ := hp.error_of_scan h
  cases p
  case number => exact .overflow hp ho
  all_goals cases ho

theorem part_of_scan (h : scan source = .ok ts) : Part ts ts := by
  obtain ⟨us, rfl, _⟩ := finish_of_scan h
  exact ⟨List.suffix_rfl, ended_concat⟩

theorem parse_placed {e : SyntaxError} (hs : scan source = .ok ts) (h : parse ts = .error e) :
    (Error.read e).Placed source options := by
  have hp : e.value.Placed ts e.line := by
    have hp := (part_of_scan hs).parse_places
    rwa [h] at hp
  refine .read hs hp fun hf => ?_
  rw [hf] at hp
  cases hp
  case unexpected ht => exact finish_line_of_scan hs ht rfl

-- How a run ends: with an error of the scanner or the parser, or as the evaluation of its program does.
theorem run_cases (source : String) (options : Options) (draws : Draws) :
    (∃ err, scan source = .error err ∧ run source options draws = .error (.read err)) ∨
    (∃ ts err, scan source = .ok ts ∧ parse ts = .error err ∧
      run source options draws = .error (.read err)) ∨
    ∃ ts program, scan source = .ok ts ∧ parse ts = .ok program ∧
      run source options draws = (evaluate program (.fresh options draws)).1.mapError .eval := by
  rw [run, Context.run, program]
  cases hs : scan source
  case error err => exact .inl ⟨err, rfl, rfl⟩
  case ok ts =>
    cases hp : parse ts
    case error err  => exact .inr (.inl ⟨ts, err, rfl, hp, by simp [bind, Except.bind, hp]⟩)
    case ok program =>
      refine .inr (.inr ⟨ts, program, rfl, hp, ?_⟩)
      simp only [bind, Except.bind, hp]
      rfl

theorem mapError_eq_error {α : Type} {x : Except EvalError α} (h : x.mapError .eval = .error e) :
    ∃ err, x = .error err ∧ e = .eval err := by
  cases x
  case ok        => cases h
  case error err => cases h; exact ⟨err, rfl, rfl⟩

theorem run_placed (h : run source options draws = .error e) : e.Placed source options := by
  obtain ⟨err, hs, hr⟩ | ⟨ts, err, hs, hp, hr⟩ | ⟨ts, program, hs, hp, hr⟩ :=
    run_cases source options draws
  case inl =>
    cases hr.symm.trans h
    exact scan_placed hs
  case inr.inl =>
    cases hr.symm.trans h
    exact parse_placed hs hp
  case inr.inr =>
    obtain ⟨err, he, rfl⟩ := mapError_eq_error (hr.symm.trans h)
    have hq := (part_of_scan hs).parse_places
    rw [hp] at hq
    exact .eval hs (evaluate_placed hq Context.fresh_placed err he)

-- Every error points at a place in the source.
theorem error_has_place (h : run source options draws = .error e) :
    1 ≤ e.line ∧ e.line ≤ 1 + source.toList.count '\n' ∧ e.Placed source options :=
  have hp := run_placed h
  ⟨hp.line_le.left, hp.line_le.right, hp⟩

-- The function `f` calls `g` with too many arguments on line 2, which comes up only on line 4.
theorem error_has_place_in_body :
    let source := "f(x) =\n  g(x, pi)\ng(y) = y\nf(e)"
    let options : Options := { strictArity := true }
    let e : Error := .eval ⟨.argumentCount "g" 1 2, 2⟩
    run source options (.ofSeed 0) = .error e ∧
      1 ≤ e.line ∧ e.line ≤ 1 + source.toList.count '\n' ∧ e.Placed source options := by
  intro source options e
  have hp : program source = .ok [.declare "f" ["x"] (.call "g" [.name "x" 2, .name "pi" 2] 2) 1,
      .declare "g" ["y"] (.name "y" 3) 3, .call "f" [.name "e" 4] 4] := by cbv
  have h : run source options (.ofSeed 0) = .error e := by
    rw [run, Context.run, hp]
    rfl
  exact ⟨h, error_has_place h⟩

end Calculator
