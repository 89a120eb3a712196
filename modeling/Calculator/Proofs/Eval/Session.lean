import Calculator.Proofs.Eval.Plain

/-!
# Sessions

A session evaluates one program after the other in the same context. Its programs come from the parser,
so the context stays settled, and a statement either fails without a trace or changes what it names.
-/

namespace Calculator

variable {c c₁ c₂ c' : Context} {e s : Expr} {v : Value} {err : EvalError} {name : String} {line : Nat}
  {program rest : List Expr}

theorem SameButDraws.settled (h : SameButDraws c c') (hc : c.Settled) : c'.Settled := by
  obtain ⟨_, rfl⟩ := h
  exact ⟨hc.frames, hc.depth, hc.functions⟩

theorem eval_assign_ok (h : e.eval c = (.ok v, c')) :
    (Expr.assign name e line).eval c =
      (.ok none, { c' with vars := c'.vars.insert name v.number }) := by
  rw [Expr.eval_apply] at *
  simp [Expr.evalWith, h, Eval.define_apply]

theorem eval_assign_error (h : e.eval c = (.error err, c')) :
    (Expr.assign name e line).eval c = (.error err, c') := by
  rw [Expr.eval_apply] at *
  simp [Expr.evalWith, h]

theorem eval_declare {params : List String} {body : Expr} :
    (Expr.declare name params body line).eval c =
      (.ok none, { c with functions := c.functions.insert name (.declared ⟨params, body⟩) }) := rfl

namespace Expr

-- What a statement that succeeds in the context `c` makes of it: an assignment gives its variable the
-- value that its right side has in `c`, a declaration gives its name the function, and no other
-- statement changes anything.
def Effect (c : Context) : Expr → Context → Prop
  | assign s e _, c' =>
    ∃ x, (e.eval c).1 = .ok (some x) ∧ SameButDraws { c with vars := c.vars.insert s x } c'
  | declare s params body _, c' =>
    SameButDraws { c with functions := c.functions.insert s (.declared ⟨params, body⟩) } c'
  | _, c' => SameButDraws c c'

theorem Plain.same_of_effect (he : e.Plain) (h : e.Effect c c') : SameButDraws c c' := by
  cases he <;> exact h

namespace Statement

theorem eval_error (hs : s.Statement) (hc : c.Settled) (h : s.eval c = (.error err, c')) :
    SameButDraws c c' := by
  cases hs
  case value he => simpa [h] using he.eval_same hc
  case assign e _ he =>
    match hr : e.eval c with
    | (.ok v, _)      => rw [eval_assign_ok hr] at h; cases h
    | (.error e, _) =>
      rw [eval_assign_error hr] at h
      cases h
      simpa [hr] using he.eval_same hc
  case declare => rw [eval_declare] at h; cases h

theorem eval_ok (hs : s.Statement) (hc : c.Settled) (h : s.eval c = (.ok v, c')) :
    s.Effect c c' := by
  cases hs
  case value he =>
    have hs : SameButDraws c c' := by simpa [h] using he.eval_same hc
    cases he <;> exact hs
  case assign e _ he =>
    match hr : e.eval c with
    | (.ok none, _)     => exact absurd (congrArg Prod.fst hr) he.eval_ne_none
    | (.ok (some x), _) =>
      rw [eval_assign_ok hr] at h
      cases h
      obtain ⟨draws, rfl⟩ := hr ▸ he.eval_same hc
      exact ⟨x, congrArg Prod.fst hr, draws, rfl⟩
    | (.error e, _) => rw [eval_assign_error hr] at h; cases h
  case declare =>
    rw [eval_declare] at h
    cases h
    exact ⟨c.draws, rfl⟩

theorem settled_of_effect (hs : s.Statement) (hc : c.Settled) (h : s.Effect c c') : c'.Settled := by
  cases hs
  case value he => exact (he.same_of_effect h).settled hc
  case assign =>
    have ⟨_, _, h⟩ := h
    exact h.settled ⟨hc.frames, hc.depth, hc.functions⟩
  case declare hb =>
    exact SameButDraws.settled h ⟨hc.frames, hc.depth, hc.functions.insert hb⟩

theorem settled (hs : s.Statement) (hc : c.Settled) : (s.eval c).2.Settled := by
  match h : s.eval c with
  | (.ok v, _)      => exact hs.settled_of_effect hc (hs.eval_ok hc h)
  | (.error err, _) => exact (hs.eval_error hc h).settled hc

end Statement

end Expr

theorem evaluate_cons_ok {r : Except EvalError String} (h : s.eval c = (.ok v, c₁))
    (hr : evaluate rest c₁ = (r, c₂)) :
    evaluate (s :: rest) c = (r.map ((v.map Number.text).getD "" ++ ·), c₂) := by
  cases r <;> simp [evaluate, h, hr, Except.map]

theorem evaluate_cons_error (h : s.eval c = (.error err, c₁)) :
    evaluate (s :: rest) c = (.error err, c₁) := by
  simp [evaluate, h]

-- What every statement of a program keeps, the program keeps.
theorem evaluate_keeps {I : Context → Prop} (hs : ∀ s ∈ program, ∀ c, I c → I (s.eval c).2) (hc : I c) :
    I (evaluate program c).2 := by
  induction program generalizing c
  case nil => exact hc
  case cons s rest hi =>
    rw [List.forall_mem_cons] at hs
    have hc₁ := hs.left c hc
    match h : s.eval c with
    | (.ok v, c₁) =>
      rw [evaluate_cons_ok h rfl]
      exact hi hs.right (by rwa [h] at hc₁)
    | (.error e, c₁) =>
      rw [evaluate_cons_error h]
      rwa [h] at hc₁

theorem evaluate_settled (hp : ∀ s ∈ program, s.Statement) (hc : c.Settled) :
    (evaluate program c).2.Settled :=
  evaluate_keeps (fun s hs _ hc => (hp s hs).settled hc) hc

-- An evaluation fails with its first statement that does.
theorem evaluate_error (h : evaluate program c = (.error err, c')) :
    ∃ done s rest out c₁, program = done ++ s :: rest ∧ evaluate done c = (.ok out, c₁) ∧
      s.eval c₁ = (.error err, c') := by
  induction program generalizing c
  case nil => cases h
  case cons s rest hi =>
    match hs : s.eval c with
    | (.error e, c₁) =>
      rw [evaluate_cons_error hs] at h
      cases h
      exact ⟨[], s, rest, "", c, rfl, rfl, hs⟩
    | (.ok v, c₁) =>
      match hr : evaluate rest c₁ with
      | (.ok _, _)    => rw [evaluate_cons_ok hs hr] at h; cases h
      | (.error _, _) =>
        rw [evaluate_cons_ok hs hr] at h
        cases h
        have ⟨done, s', rest', _, c₂, hp, hd, he⟩ := hi hr
        exact ⟨s :: done, s', rest', _, c₂, by rw [hp]; rfl, evaluate_cons_ok hs hd, he⟩

namespace Context

-- The contexts of a session.
inductive Reachable (options : Options) (draws : Draws) : Context → Prop
  | fresh : Reachable options draws (.fresh options draws)
  | evaluate {c ts program} :
    Reachable options draws c → parse ts = .ok program →
    Reachable options draws (evaluate program c).2

theorem fresh_functions {options : Options} {draws : Draws} :
    (fresh options draws).functions.All fun f => ∃ b, f = .builtin b := by
  have h : (Table.ofList (Builtin.all.map fun b => (b.name, Function.builtin b))).All
      fun f => ∃ b, f = .builtin b := by
    refine Table.all_ofList fun entry he => ?_
    have ⟨b, _, he⟩ := List.mem_map.mp he
    exact ⟨b, he ▸ rfl⟩
  unfold fresh
  dsimp only
  split
  case isTrue  => exact h.insert ⟨_, rfl⟩
  case isFalse => exact h

theorem settled_fresh {options : Options} {draws : Draws} : (fresh options draws).Settled where
  frames    := rfl
  depth     := rfl
  functions := by
    intro name f hf
    have ⟨_, hb⟩ := fresh_functions name f hf
    exact hb ▸ trivial

theorem Reachable.settled {options : Options} {draws : Draws} (h : c.Reachable options draws) :
    c.Settled := by
  induction h
  case fresh             => exact settled_fresh
  case evaluate hp hc => exact evaluate_settled (parse_statements hp) hc

end Context

section

variable {options : Options} {draws : Draws} {ts : List Lexeme} {done : List Expr} {out : String}

theorem settled_before (hc : c.Reachable options draws)
    (hp : parse ts = .ok program) (h : program = done ++ s :: rest)
    (hd : evaluate done c = (.ok out, c₁)) : s.Statement ∧ c₁.Settled := by
  have hs := parse_statements hp
  rw [h, List.forall_mem_append, List.forall_mem_cons] at hs
  have hc₁ := evaluate_settled hs.left hc.settled
  rw [hd] at hc₁
  exact ⟨hs.right.left, hc₁⟩

-- In a session a statement that fails changes nothing, so that an evaluation leaves what the statements
-- before it have made of the context. A statement that succeeds changes only what it names.
theorem evaluate_effects (hc : c.Reachable options draws) (hp : parse ts = .ok program) :
    (∀ err c', evaluate program c = (.error err, c') →
      ∃ done s rest out c₁, program = done ++ s :: rest ∧ evaluate done c = (.ok out, c₁) ∧
        (s.eval c₁).1 = .error err ∧ SameButDraws c₁ c') ∧
    (∀ done s rest out c₁ v c₂, program = done ++ s :: rest → evaluate done c = (.ok out, c₁) →
      s.eval c₁ = (.ok v, c₂) → s.Effect c₁ c₂) := by
  refine ⟨fun err c' h => ?_, fun done s rest out c₁ v c₂ h hd he => ?_⟩
  case refine_1 =>
    have ⟨done, s, rest, out, c₁, h, hd, he⟩ := evaluate_error h
    have ⟨hs, hc₁⟩ := settled_before hc hp h hd
    exact ⟨done, s, rest, out, c₁, h, hd, congrArg Prod.fst he, hs.eval_error hc₁ he⟩
  case refine_2 =>
    have ⟨hs, hc₁⟩ := settled_before hc hp h hd
    exact hs.eval_ok hc₁ he

end

-- `f(x) = x + y` in one program, and `x = pi` and `z = f(e)` in the next.
theorem evaluate_effects_in_session :
    let f : Expr := .declare "f" ["x"] (.binary .add (.name "x" 1) (.name "y" 1) 1) 1
    let c := (evaluate [f] (.fresh {} (.ofSeed 0))).2
    let ts : List Lexeme := [⟨.name "x", 1⟩, ⟨.mark .equals, 1⟩, ⟨.name "pi", 1⟩, ⟨.name "z", 2⟩,
      ⟨.mark .equals, 2⟩, ⟨.name "f", 2⟩, ⟨.mark .openParen, 2⟩, ⟨.name "e", 2⟩, ⟨.mark .closeParen, 2⟩]
    let s : Expr := .assign "x" (.name "pi" 1) 1
    let program := [s, .assign "z" (.call "f" [.name "e" 2] 2) 2]
    c.Reachable {} (.ofSeed 0) ∧ parse ts = .ok program ∧
      (∃ done s rest out c₁, program = done ++ s :: rest ∧ evaluate done c = (.ok out, c₁) ∧
        (s.eval c₁).1 = .error ⟨.undefined "y", 1⟩ ∧ SameButDraws c₁ (evaluate program c).2) ∧
      s.Effect c (s.eval c).2 := by
  intro f c ts s program
  have hf : parse [⟨.name "f", 1⟩, ⟨.mark .openParen, 1⟩, ⟨.name "x", 1⟩, ⟨.mark .closeParen, 1⟩,
      ⟨.mark .equals, 1⟩, ⟨.name "x", 1⟩, ⟨.mark (.operator .add), 1⟩, ⟨.name "y", 1⟩] = .ok [f] := by
    cbv
  have hc : c.Reachable {} (.ofSeed 0) := .evaluate .fresh hf
  have hp : parse ts = .ok program := by cbv
  have he : (evaluate program c).1 = .error ⟨.undefined "y", 1⟩ := rfl
  have ⟨failure, effect⟩ := evaluate_effects hc hp
  refine ⟨hc, hp, failure _ _ (Prod.ext he rfl), ?_⟩
  exact effect [] s _ "" c none _ rfl rfl rfl

end Calculator
