import Calculator.Proofs.Parse.Lookahead

/-!
# The end of the source

The parser takes no token from the first end of the source on, on success and on failure alike. So two lists
of tokens that are the same up to an end hold the same program, or the same error, whatever comes after it.
A list without an end is read as if one stood after it on line 0.
-/

namespace Calculator

open Parse

-- Two lists are the same token by token, until both are at an end. Behind the last token there is one.
inductive SameToFinish : List Lexeme → List Lexeme → Prop
  | finish {ts us} : (current ts).value = .mark .finish → current us = current ts → SameToFinish ts us
  | cons {t ts us} : SameToFinish ts us → SameToFinish (t :: ts) (t :: us)

variable {ts us used rest : List Lexeme}

namespace SameToFinish

theorem current_eq (h : SameToFinish ts us) : current us = current ts := by
  cases h
  case finish h => exact h
  case cons     => rfl

theorem append (h : SameToFinish ts us) : (before : List Lexeme) → SameToFinish (before ++ ts) (before ++ us)
  | []          => h
  | _ :: before => (h.append before).cons

-- What is taken before the end is taken off both lists.
theorem split (h : SameToFinish (used ++ rest) us) (hu : NoFinish used) :
    ∃ rest', us = used ++ rest' ∧ SameToFinish rest rest' := by
  induction used generalizing us
  case nil             => exact ⟨us, rfl, h⟩
  case cons t used hi =>
    cases h
    case finish ht _ => exact absurd ht (hu t List.mem_cons_self)
    case cons us h   =>
      have ⟨rest', hs, hr⟩ := hi h fun u hm => hu u (List.mem_cons_of_mem t hm)
      exact ⟨rest', congrArg (t :: ·) hs, hr⟩

theorem parse_eq (h : SameToFinish ts us) : parse us = parse ts := by
  induction hn : ts.length using Nat.strongRecOn generalizing ts us
  case ind n hi =>
    subst hn
    by_cases ht : (current ts).value = .mark .finish
    case pos => rw [parse_of_finish ht, parse_of_finish (h.current_eq ▸ ht)]
    case neg =>
      cases oneAhead_expression 0 ts
      case reads used rest a hs hr =>
        subst hs
        have ⟨rest', hs, hs'⟩ := h.split hr.unended
        subst hs
        rw [parse_reads hr (.inl hs'.current_eq), parse_reads hr .refl, hi _ (Parsed.length_lt hr.eq) hs' rfl]
      case fails used rest e hs hf =>
        subst hs
        have ⟨rest', hs, hs'⟩ := h.split hf.unended
        subst hs
        have hf := ParseFails.of_fails hf ht
        rw [hf.ahead rest' hs'.current_eq, hf.ahead rest rfl]

end SameToFinish

-- Tokens after an end of the source have no influence on the program before it, or on its error, and the
-- program of a list that has no end is the one of the list ended on line 0.
theorem parse_ends_at_finish :
    (∀ before line after,
      parse (before ++ ⟨.mark .finish, line⟩ :: after) = parse (before ++ [⟨.mark .finish, line⟩])) ∧
      ∀ ts, parse (ts ++ [⟨.mark .finish, 0⟩]) = parse ts := by
  refine ⟨fun before line after => ?_, fun ts => ?_⟩
  case refine_1 =>
    have h : SameToFinish [⟨.mark .finish, line⟩] (⟨.mark .finish, line⟩ :: after) := .finish rfl rfl
    exact (h.append before).parse_eq
  case refine_2 =>
    have h : SameToFinish [] [⟨.mark .finish, 0⟩] := .finish rfl rfl
    have h := (h.append ts).parse_eq
    rwa [List.append_nil] at h

-- The end inside of a group: `(1`, followed by `+ )`.
example : parse [⟨.mark .openParen, 1⟩, ⟨.number 1, 2⟩, ⟨.mark .finish, 2⟩, ⟨.mark (.operator .add), 3⟩,
    ⟨.mark .closeParen, 3⟩] = .error ⟨.unclosed, 1⟩ := by cbv

end Calculator
