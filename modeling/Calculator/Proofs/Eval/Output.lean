import Calculator.Proofs.Eval.Session
import Calculator.Proofs.Token.Pieces

/-!
# Output

What a program writes are texts of numbers, one after the other. They have characters of a few kinds
only: digits, the point, signs, the letter of an exponent, and the letters of infinities and NaN.
-/

namespace Calculator

def outputChars : List Char :=
  digits ++ ['.', '+', '-', 'e', 'N', 'a', 'I', 'n', 'f', 'i', 't', 'y']

def Writable (text : List Char) : Prop := ∀ c ∈ text, c ∈ outputChars

variable {text : List Char} {position exponent : Int} {c : Context} {program : List Expr} {out : String}

namespace Writable

theorem cons {d : Char} (hd : d ∈ outputChars) (h : Writable text) : Writable (d :: text) :=
  List.forall_mem_cons.mpr ⟨hd, h⟩

theorem append {text₂ : List Char} (h : Writable text) (h₂ : Writable text₂) :
    Writable (text ++ text₂) :=
  List.forall_mem_append.mpr ⟨h, h₂⟩

theorem zeros {n : Nat} : Writable (List.replicate n '0') := by
  intro c hc
  rw [List.eq_of_mem_replicate hc]
  decide

theorem toDigits (n : Nat) : Writable (Nat.toDigits 10 n) := fun _ hc =>
  List.mem_append_left _ (isDigit_iff.mp (Nat.isDigit_of_mem_toDigits (by decide) (by decide) hc))

theorem positional (h : Writable text) : Writable (Decimal.positional text position) := by
  have ht (n : Nat) : Writable (text.take n) := fun c hc => h c (List.mem_of_mem_take hc)
  have hd (n : Nat) : Writable (text.drop n) := fun c hc => h c (List.mem_of_mem_drop hc)
  unfold Decimal.positional
  split
  case isTrue => exact h.append zeros
  case isFalse =>
    split
    case isTrue  => exact (ht _).append (.cons (by decide) (hd _))
    case isFalse => exact .append (.cons (by decide) (.cons (by decide) zeros)) h

theorem exponentText : Writable (Decimal.scientific.exponentText exponent) := by
  refine .cons (by decide) (.cons ?_ (toDigits _))
  split <;> decide

theorem scientific (h : Writable text) : Writable (Decimal.scientific text exponent) := by
  unfold Decimal.scientific
  split
  case _ => exact h
  case _ => exact h.append exponentText
  case _ =>
    have ⟨hd, hs⟩ := List.forall_mem_cons.mp h
    exact .append (.cons hd (.cons (by decide) hs)) exponentText

theorem magnitude (x : Number) : Writable (Number.magnitudeText x) := by
  unfold Number.magnitudeText
  dsimp only
  split
  case isTrue  => exact (toDigits _).positional
  case isFalse => exact (toDigits _).scientific

theorem number (x : Number) : Writable x.text.toList := by
  unfold Number.text
  split
  case isTrue => simp [Writable, outputChars]
  case isFalse =>
    split
    case isTrue => split <;> simp [Writable, outputChars]
    case isFalse =>
      split
      case isTrue => simp [Writable, outputChars, digits]
      case isFalse =>
        rw [String.toList_ofList]
        split
        case isTrue  => exact .cons (by decide) (magnitude _)
        case isFalse => exact magnitude _

theorem output (h : (evaluate program c).1 = .ok out) : Writable out.toList := by
  induction program generalizing c out
  case nil => cases h; exact nofun
  case cons s rest hi =>
    match hs : s.eval c with
    | (.error _, _) => rw [evaluate_cons_error hs] at h; cases h
    | (.ok v, c₁) =>
      rw [evaluate_cons_ok hs rfl] at h
      cases hr : (evaluate rest c₁).1
      case error => rw [hr] at h; cases h
      case ok =>
        rw [hr] at h
        cases h
        rw [String.toList_append]
        refine .append ?_ (hi hr)
        cases v
        case none   => exact nofun
        case some x => exact number x

end Writable

end Calculator
