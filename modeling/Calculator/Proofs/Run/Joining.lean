import Calculator.Proofs.Parse.Seam
import Calculator.Proofs.Token.Joining
import Calculator.Proofs.Token.Places
import Calculator.Run
import Mathlib

/-!
# Joined runs

To run one text after the other, with a newline between them, is to evaluate the program of the first
one and then, in the same context, that of the second one. This needs the second text to begin something
new, and not to continue the last statement of the first one.
-/

namespace Calculator

open Parse

-- The text with the tokens `us` does not continue the one with the tokens `ts`.
inductive Separate (ts us : List Lexeme) : Prop
  | nothing : ts.dropLast = [] → Separate ts us
  | finish : (current us).value = .mark .finish → Separate ts us
  | number {x} : (current us).value = .number x → Separate ts us
  | name {s} : (current us).value = .name s → Separate ts us
  | paren :
    (current us).value = .mark .openParen →
    (∀ t ∈ ts.dropLast.getLast?, ∀ s, t.value ≠ .name s) → Separate ts us

variable {ts us : List Lexeme} {g : Nat → Nat} {p q : List Expr} {a b : String}

theorem current_mapLine : (current (us.map (Located.mapLine g))).value = (current us).value := by
  cases us <;> rfl

theorem Parse.Apart.mapLine (h : Apart ts us) : Apart ts (us.map (Located.mapLine g)) where
  unbound  := by
    rw [current_mapLine]
    exact h.unbound
  uncalled := by
    rw [current_mapLine]
    exact h.uncalled

theorem Separate.apart (h : Separate ts us) : ts.dropLast = [] ∨ Apart ts.dropLast us := by
  cases h
  case nothing h  => exact .inl h
  case finish h   => exact .inr ⟨by simp [h, Token.leftPower], by simp [h]⟩
  case number h   => exact .inr ⟨by simp [h, Token.leftPower], by simp [h]⟩
  case name h     => exact .inr ⟨by simp [h, Token.leftPower], by simp [h]⟩
  case paren h hl => exact .inr ⟨by simp [h, Token.leftPower], fun _ => hl⟩

theorem rename_id : Lexeme.rename id g = Located.mapLine g := by
  funext t
  rw [Lexeme.rename, Located.mapLine]
  cases t.value <;> rfl

theorem evaluate_append :
    evaluate (p ++ q) = do return (← evaluate p) ++ (← evaluate q) := by
  induction p
  case nil     => simp only [List.nil_append, evaluate, pure_bind, String.empty_append, bind_pure]
  case cons hi =>
    simp only [List.cons_append, evaluate, hi, bind_assoc, pure_bind, String.append_assoc]

theorem program_joined (ha : scan a = .ok ts) (hp : parse ts = .ok p) (hb : scan b = .ok us)
    (hs : Separate ts us) :
    program (a ++ "\n" ++ b) =
      (p ++ ·) <$> parse (us.map (Located.mapLine (· + (a.toList.count '\n' + 1)))) := by
  obtain ⟨ts₁, rfl, hn⟩ := finish_of_scan ha
  have hj := hs.apart
  rw [List.dropLast_concat] at hj
  rw [program, scan_joined ha hb, List.dropLast_concat]
  exact parse_append hn hp (hj.imp_right Parse.Apart.mapLine)

-- A run of two texts is a session with both.
theorem run_joined (ha : scan a = .ok ts) (hp : parse ts = .ok p) (hb : scan b = .ok us)
    (hq : parse us = .ok q) (hs : Separate ts us) (options : Options) (draws : Draws) :
    ∃ q', parse (us.map (Located.mapLine (· + (a.toList.count '\n' + 1)))) = .ok q' ∧
      run (a ++ "\n" ++ b) options draws =
        ((do return (← evaluate p) ++ (← evaluate q') : Eval String)
          (.fresh options draws)).1.mapError .eval := by
  have he : Ended us := by
    obtain ⟨us₁, rfl, _⟩ := finish_of_scan hb
    exact ended_concat
  have hr := parse_rename (r := id) (g := (· + (a.toList.count '\n' + 1))) he
  rw [hq, rename_id] at hr
  refine ⟨_, hr, ?_⟩
  rw [run, Context.run, program_joined ha hp hb hs, hr, ← evaluate_append]
  rfl

-- `f(x) = (x)` and `(f(pi) + y)`, where the parenthesis calls nothing.
theorem run_joined_at_paren :
    let a := "f(x) = (x)"
    let b := "(f(pi) + y)"
    let ts : List Lexeme := [⟨.name "f", 1⟩, ⟨.mark .openParen, 1⟩, ⟨.name "x", 1⟩,
      ⟨.mark .closeParen, 1⟩, ⟨.mark .equals, 1⟩, ⟨.mark .openParen, 1⟩, ⟨.name "x", 1⟩,
      ⟨.mark .closeParen, 1⟩, ⟨.mark .finish, 1⟩]
    let us : List Lexeme := [⟨.mark .openParen, 1⟩, ⟨.name "f", 1⟩, ⟨.mark .openParen, 1⟩,
      ⟨.name "pi", 1⟩, ⟨.mark .closeParen, 1⟩, ⟨.mark (.operator .add), 1⟩, ⟨.name "y", 1⟩,
      ⟨.mark .closeParen, 1⟩, ⟨.mark .finish, 1⟩]
    let p : List Expr := [.declare "f" ["x"] (.name "x" 1) 1]
    let q : List Expr := [.binary .add (.call "f" [.name "pi" 1] 1) (.name "y" 1) 1]
    scan a = .ok ts ∧ parse ts = .ok p ∧ scan b = .ok us ∧ parse us = .ok q ∧ Separate ts us ∧
      run (a ++ "\n" ++ b) {} (.ofSeed 0) = .error (.eval ⟨.undefined "y", 2⟩) := by
  intro a b ts us p q
  have ha : scan a = .ok ts := by cbv
  have hp : parse ts = .ok p := by cbv
  have hb : scan b = .ok us := by cbv
  have hq : parse us = .ok q := by cbv
  have hs : Separate ts us := .paren rfl (by simp [ts])
  refine ⟨ha, hp, hb, hq, hs, ?_⟩
  obtain ⟨_, h, hr⟩ := run_joined ha hp hb hq hs {} (.ofSeed 0)
  have h' : parse (us.map (Located.mapLine (· + (a.toList.count '\n' + 1)))) =
      .ok [.binary .add (.call "f" [.name "pi" 2] 2) (.name "y" 2) 2] := by cbv
  cases h.symm.trans h'
  rw [hr]
  rfl

end Calculator
