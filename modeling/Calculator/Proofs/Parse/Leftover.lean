import Calculator.Proofs.Parse.Lookahead

/-!
# Leftovers

A reader takes tokens off the front of a list and leaves the others over. It never takes the end of the
source, so as long as the list holds one, what is left over does too.
-/

namespace Calculator.Parse

def Ended (ts : List Lexeme) : Prop := ∃ t ∈ ts, t.value = .mark .finish

-- Of `ts`, `rest` is left over once some tokens have been taken, none of them the end.
def Leaves (ts rest : List Lexeme) : Prop := ∃ used, ts = used ++ rest ∧ NoFinish used

variable {α : Type} {read : Reader α} {a : α} {ts rest : List Lexeme} {t : Lexeme} {e : Expr}
  {power : Nat}

namespace Leaves

theorem suffix (h : Leaves ts rest) : rest <:+ ts :=
  have ⟨used, hs, _⟩ := h
  ⟨used, hs.symm⟩

theorem ended (h : Leaves ts rest) (ht : Ended ts) : Ended rest := by
  obtain ⟨used, rfl, hu⟩ := h
  have ⟨t, hm, hv⟩ := ht
  cases List.mem_append.mp hm
  case inl hm => exact absurd hv (hu t hm)
  case inr hm => exact ⟨t, hm, hv⟩

end Leaves

theorem ended_concat {line : Nat} : Ended (ts ++ [⟨.mark .finish, line⟩]) :=
  ⟨_, List.mem_append_right ts List.mem_cons_self, rfl⟩

theorem not_ended_nil : ¬Ended [] := by
  simp [Ended]

theorem Ended.tail (h : Ended (t :: ts)) (ht : t.value ≠ .mark .finish) : Ended ts := by
  have hl : Leaves (t :: ts) ts := ⟨[t], rfl, .cons .nil ht⟩
  exact hl.ended h

theorem OneAhead.leaves (h : OneAhead read ts) (hr : read ts = .ok (a, rest)) : Leaves ts rest := by
  cases h
  case reads hs h =>
    subst hs
    cases h.eq.symm.trans hr
    exact ⟨_, rfl, h.unended⟩
  case fails hs h =>
    subst hs
    cases (h.ahead _ rfl).symm.trans hr

theorem expression_leaves (h : (expression power ts).outcome = .ok (e, rest)) : Leaves ts rest :=
  (oneAhead_expression power ts).leaves h

theorem begins_of_operand (h : (operand t ts).outcome = .ok (e, rest)) : Begins t := by
  intro mark ht
  refine Classical.byContradiction fun hn => ?_
  rw [not_or] at hn
  rw [operand_unexpected ht hn.left hn.right] at h
  cases h

theorem operand_leaves (h : (operand t ts).outcome = .ok (e, rest)) : Leaves ts rest :=
  (oneAhead.2.2.1 t ts (begins_of_operand h)).leaves h

end Calculator.Parse
