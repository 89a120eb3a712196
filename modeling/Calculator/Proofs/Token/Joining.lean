import Calculator.Proofs.Parse.Renaming
import Calculator.Proofs.Token.Places
import Mathlib

/-!
# Joined texts

Two texts with blanks between them fall into the pieces of both, and of the blanks, since no piece but a
blank goes beyond a blank. So their tokens are those of the first text without its end, and those of the
second text further down. Which blanks they are makes a difference to nothing but lines.
-/

namespace Calculator

-- What scanning gives, whatever lines it is on.
def contents (r : Except SyntaxError (List Lexeme)) : Except SyntaxFault (List Token) :=
  (r.map (·.map Located.value)).mapError Located.value

variable {P : Char → Prop} {c : Char} {run rest text text₂ before before₂ blank : List Char} {p : Piece}
  {ps qs : List Piece} {ts us : List Lexeme} {e : SyntaxError} {a b w : String}

theorem MaximalRun.append_cons (h : MaximalRun P run rest) (hc : ¬P c) :
    MaximalRun P run (rest ++ c :: text) where
  all := h.all
  ends := by
    cases rest
    case nil       => simpa using hc
    case cons d cs => exact h.ends

theorem point_not_blank : '.' ∉ blanks := by simp [blanks]

theorem Piece.Fits.append_blank (h : p.Fits rest) (hc : c ∈ blanks) : p.Fits (rest ++ c :: text) := by
  have hd : c ∉ digits := fun hd => not_blank_of_digit c hd hc
  cases h
  case blank h => exact .blank h
  case mark h => exact .mark h
  case whole hw hr hp =>
    have hc : c ≠ '.' := fun h => point_not_blank (h ▸ hc)
    refine .whole hw (hr.append_cons hd) ?_
    cases rest
    case nil       => simpa using hc
    case cons c cs => exact hp
  case decimal hw ha hr => exact .decimal hw ha (hr.append_cons hd)
  case name hl hr => exact .name hl (hr.append_cons fun h => h.left hc)

namespace Pieces

theorem append_blanks (h : Pieces text ps) (hb : ∀ c ∈ blank, c ∈ blanks) :
    Pieces (blank ++ text) (blank.map .blank ++ ps) := by
  induction blank
  case nil => exact h
  case cons c cs hi =>
    rw [List.forall_mem_cons] at hb
    exact .cons (.blank hb.left) (hi hb.right)

theorem join (h : Pieces text ps) (h₂ : Pieces text₂ qs) (hn : blank ≠ [])
    (hb : ∀ c ∈ blank, c ∈ blanks) :
    Pieces (text ++ (blank ++ text₂)) (ps ++ (blank.map .blank ++ qs)) := by
  induction h
  case nil => exact h₂.append_blanks hb
  case cons hf _ hi =>
    obtain ⟨c, cs, rfl⟩ := List.exists_cons_of_ne_nil hn
    rw [List.append_assoc]
    exact .cons (hf.append_blank (hb c List.mem_cons_self)) hi

end Pieces

theorem not_overflows_blanks : ∀ p ∈ blank.map Piece.blank, p.overflows = false := by
  simp [Piece.overflows]

theorem flatMap_blanks : (blank.map Piece.blank).flatMap Piece.text = blank := by
  simp [List.flatMap_map, Piece.text]

theorem lexemesAfter_ne_nil : lexemesAfter before ps ≠ [] := by
  induction ps generalizing before
  case nil     => exact List.cons_ne_nil _ _
  case cons hi => exact List.append_ne_nil_of_right_ne_nil _ hi

theorem lexemesAfter_append :
    lexemesAfter before (ps ++ qs) =
      (lexemesAfter before ps).dropLast ++ lexemesAfter (before ++ ps.flatMap Piece.text) qs := by
  induction ps generalizing before
  case nil          => simp [lexemesAfter]
  case cons p ps hi =>
    rw [List.cons_append, lexemesAfter, hi, lexemesAfter,
      List.dropLast_append_of_ne_nil lexemesAfter_ne_nil]
    simp

theorem lexemesAfter_blanks :
    lexemesAfter before (blank.map .blank ++ ps) = lexemesAfter (before ++ blank) ps := by
  induction blank generalizing before
  case nil          => simp
  case cons c cs hi => simp [lexemesAfter, Piece.token?, Piece.text, hi]

-- The text before the pieces moves their tokens down by its newlines.
theorem lexemesAfter_mapLine (before before₂ : List Char) (ps : List Piece) :
    lexemesAfter (before ++ before₂) ps =
      (lexemesAfter before₂ ps).map (Located.mapLine (· + before.count '\n')) := by
  induction ps generalizing before₂
  case nil => simp [lexemesAfter, Located.mapLine, lineAfter]; omega
  case cons p ps hi =>
    rw [lexemesAfter, lexemesAfter, List.append_assoc, hi, List.map_append]
    congr 1
    cases p.token?
    case none => rfl
    case some => simp [Located.mapLine, lineAfter]; omega

section

variable (hn : w ≠ "") (hw : ∀ c ∈ w.toList, c ∈ blanks)

include hn hw

theorem pieces_joined (hp : Pieces a.toList ps) (hq : Pieces b.toList qs) :
    Pieces (a ++ w ++ b).toList (ps ++ (w.toList.map .blank ++ qs)) := by
  simpa using hp.join hq (by simpa using hn) hw

theorem scan_joined_blanks (ha : scan a = .ok ts) (hb : scan b = .ok us) :
    scan (a ++ w ++ b) =
      .ok (ts.dropLast ++ us.map (Located.mapLine (· + (a ++ w).toList.count '\n'))) := by
  have ⟨ps, hp⟩ := Pieces.exist a.toList
  have ⟨qs, hq⟩ := Pieces.exist b.toList
  obtain ⟨hop, rfl⟩ := hp.ok_of_scan ha
  obtain ⟨hoq, rfl⟩ := hq.ok_of_scan hb
  have ho : ∀ p ∈ ps ++ (w.toList.map .blank ++ qs), p.overflows = false := by
    rw [List.forall_mem_append, List.forall_mem_append]
    exact ⟨hop, not_overflows_blanks, hoq⟩
  have hs : scan (a ++ w ++ b) = .ok (lexemesAfter [] (ps ++ (w.toList.map .blank ++ qs))) :=
    (pieces_joined hn hw hp hq).scan_ok ho
  have hl := lexemesAfter_mapLine (a ++ w).toList [] qs
  rw [List.append_nil, String.toList_append] at hl
  rw [hs, lexemesAfter_append, List.nil_append, hp.flatMap_text, lexemesAfter_blanks, hl,
    String.toList_append]

theorem scan_joined_error (ha : scan a = .error e) : scan (a ++ w ++ b) = .error e := by
  have ⟨_, hp⟩ := Pieces.exist a.toList
  have ⟨_, hq⟩ := Pieces.exist b.toList
  obtain ⟨done, p, rest, rfl, hd, ho, rfl⟩ := hp.error_of_scan ha
  have hj := pieces_joined hn hw hp hq
  rw [List.append_assoc, List.cons_append] at hj
  exact hj.scan_error hd ho

theorem scan_joined_error_after (ha : scan a = .ok ts) (hb : scan b = .error e) :
    scan (a ++ w ++ b) = .error (e.mapLine (· + (a ++ w).toList.count '\n')) := by
  have ⟨ps, hp⟩ := Pieces.exist a.toList
  have ⟨_, hq⟩ := Pieces.exist b.toList
  obtain ⟨hop, _⟩ := hp.ok_of_scan ha
  obtain ⟨done, p, rest, rfl, hd, ho, rfl⟩ := hq.error_of_scan hb
  have hj := pieces_joined hn hw hp hq
  rw [← List.append_assoc, ← List.append_assoc] at hj
  have hd : ∀ q ∈ ps ++ w.toList.map .blank ++ done, q.overflows = false := by
    rw [List.forall_mem_append, List.forall_mem_append]
    exact ⟨⟨hop, not_overflows_blanks⟩, hd⟩
  rw [hj.scan_error hd ho, List.flatMap_append, List.flatMap_append, hp.flatMap_text, flatMap_blanks]
  simp [Located.mapLine, lineAfter]
  omega

theorem contents_joined :
    contents (scan (a ++ w ++ b)) = do
      return (← contents (scan a)).dropLast ++ (← contents (scan b)) := by
  match ha : scan a, hb : scan b with
  | .error e, _ =>
    rw [scan_joined_error hn hw ha]
    rfl
  | .ok ts, .error e =>
    rw [scan_joined_error_after hn hw ha hb]
    rfl
  | .ok ts, .ok us =>
    rw [scan_joined_blanks hn hw ha hb]
    simp [contents, Except.map, Except.mapError, Located.mapLine, bind, Except.bind, pure, Except.pure]

end

-- With a newline in between, the second text begins on the line after the first one.
theorem scan_joined (ha : scan a = .ok ts) (hb : scan b = .ok us) :
    scan (a ++ "\n" ++ b) =
      .ok (ts.dropLast ++ us.map (Located.mapLine (· + (a.toList.count '\n' + 1)))) := by
  have h := scan_joined_blanks (w := "\n") (by decide) (by simp [blanks]) ha hb
  simpa using h

-- The tokens of two texts with blanks in between are those of each text for itself, on the lines where they
-- come to stand, and so is the error. Other blanks change nothing but these lines.
theorem scan_apart (hn : w ≠ "") (hw : ∀ c ∈ w.toList, c ∈ blanks) :
    (∀ e, scan a = .error e → scan (a ++ w ++ b) = .error e) ∧
    (∀ ts e, scan a = .ok ts → scan b = .error e →
      scan (a ++ w ++ b) = .error (e.mapLine (· + (a ++ w).toList.count '\n'))) ∧
    (∀ ts us, scan a = .ok ts → scan b = .ok us →
      ∃ ts₁ line, ts = ts₁ ++ [⟨.mark .finish, line⟩] ∧
        scan (a ++ w ++ b) =
          .ok (ts₁ ++ us.map (Located.mapLine (· + (a ++ w).toList.count '\n')))) ∧
    ∀ w', w' ≠ "" → (∀ c ∈ w'.toList, c ∈ blanks) →
      contents (scan (a ++ w' ++ b)) = contents (scan (a ++ w ++ b)) := by
  refine ⟨fun e ha => ?_, fun ts e ha hb => ?_, fun ts us ha hb => ?_, fun w' hn' hw' => ?_⟩
  case refine_1 => exact scan_joined_error hn hw ha
  case refine_2 => exact scan_joined_error_after hn hw ha hb
  case refine_3 =>
    have hj := scan_joined_blanks hn hw ha hb
    obtain ⟨ts₁, rfl, _⟩ := finish_of_scan ha
    rw [List.dropLast_concat] at hj
    exact ⟨ts₁, _, rfl, hj⟩
  case refine_4 => rw [contents_joined hn hw, contents_joined hn' hw']

-- `x = 1.` and `.5`, where the points are kept apart. A number that is too great is one on either side.
theorem scan_apart_at_points :
    let a := "x = 1."
    let w := " \u00a0\n\t"
    let b := "\n.5"
    let big := String.ofList ('1' :: List.replicate 309 '0')
    let ts : List Lexeme := [⟨.name "x", 1⟩, ⟨.mark .equals, 1⟩, ⟨.number 1, 1⟩]
    w ≠ "" ∧ (∀ c ∈ w.toList, c ∈ blanks) ∧ scan a = .ok (ts ++ [⟨.mark .finish, 1⟩]) ∧
      scan b = .ok [⟨.name ".", 2⟩, ⟨.number 5, 2⟩, ⟨.mark .finish, 2⟩] ∧
      scan (a ++ w ++ b) =
        .ok (ts ++ [⟨.name ".", 3⟩, ⟨.number 5, 3⟩, ⟨.mark .finish, 3⟩]) ∧
      scan big = .error ⟨.overflow big, 1⟩ ∧
      scan (a ++ w ++ big) = .error ⟨.overflow big, 2⟩ ∧
      scan (big ++ w ++ b) = .error ⟨.overflow big, 1⟩ ∧
      " " ≠ "" ∧ (∀ c ∈ " ".toList, c ∈ blanks) ∧
      contents (scan (a ++ " " ++ b)) = contents (scan (a ++ w ++ b)) := by
  intro a w b big ts
  have hn : w ≠ "" := by decide
  have hw : ∀ c ∈ w.toList, c ∈ blanks := by simp [w, blanks]
  have hs : ∀ c ∈ " ".toList, c ∈ blanks := by simp [blanks]
  have ha : scan a = .ok (ts ++ [⟨.mark .finish, 1⟩]) := by
    refine scan_eq_ok ?_
    rw [show a.toList = ['x', ' ', '=', ' ', '1', '.'] by simp [a]]
    decide +kernel
  have hb : scan b = .ok [⟨.name ".", 2⟩, ⟨.number 5, 2⟩, ⟨.mark .finish, 2⟩] := by
    refine scan_eq_ok ?_
    rw [show b.toList = ['\n', '.', '5'] by simp [b]]
    decide +kernel
  have hbig : scan big = .error ⟨.overflow big, 1⟩ := by
    refine scan_eq_error ?_
    rw [String.toList_ofList]
    decide +kernel
  have hl : (a ++ w).toList.count '\n' = 1 := by decide +kernel
  obtain ⟨first, _, _, _⟩ := scan_apart (a := big) (b := b) hn hw
  obtain ⟨_, second, _, _⟩ := scan_apart (a := a) (b := big) hn hw
  obtain ⟨_, _, both, other⟩ := scan_apart (a := a) (b := b) hn hw
  refine ⟨hn, hw, ha, hb, ?_, hbig, ?_, first _ hbig, by decide, hs, other " " (by decide) hs⟩
  case refine_1 =>
    obtain ⟨ts₁, _, h, hj⟩ := both _ _ ha hb
    rw [← (List.append_inj' h rfl).left, hl] at hj
    exact hj
  case refine_2 =>
    have h := second _ _ ha hbig
    rw [hl] at h
    exact h

end Calculator
