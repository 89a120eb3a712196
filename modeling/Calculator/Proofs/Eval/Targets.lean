import Calculator.Proofs.Eval.Bindings
import Calculator.Proofs.Eval.Frames

/-!
# Targets

Evaluation changes what assignments and declarations name, and nothing else. Wherever they stand in an
expression, and whatever is declared on the way and called later on, all code that can come to be evaluated
is a part of the expression or of a body that was there before.
-/

namespace Calculator

-- The parts of an expression, those in the bodies that it declares included.
inductive Expr.Contains : Expr → Expr → Prop
  | self {n} : Contains n n
  | operand {e n line} : Contains e n → Contains (.negate e line) n
  | left {op left right n line} : Contains left n → Contains (.binary op left right line) n
  | right {op left right n line} : Contains right n → Contains (.binary op left right line) n
  | arg {e s es n line} : e ∈ es → Contains e n → Contains (.call s es line) n
  | source {s e n line} : Contains e n → Contains (.assign s e line) n
  | body {s params body n line} : Contains body n → Contains (.declare s params body line) n

namespace Expr

-- What evaluating `e` in the context `c` can come by, in whatever order.
inductive Code (e : Expr) (c : Context) (n : Expr) : Prop
  | tree : e.Contains n → Code e c n
  | body {s d} : c.functions.get? s = some (.declared d) → d.body.Contains n → Code e c n

def MayAssign (e : Expr) (c : Context) (s : String) : Prop := ∃ value line, e.Code c (.assign s value line)

def MayDeclare (e : Expr) (c : Context) (s : String) : Prop :=
  ∃ params body line, e.Code c (.declare s params body line)

end Expr

def Function.Within (code : Expr → Prop) : Function → Prop
  | builtin _  => True
  | declared d => code d.body

def Task.Within {α : Type} (code : Expr → Prop) : Task α → Prop
  | expr e       => code e
  | args es      => ∀ e ∈ es, code e
  | call f _ _ _ => f.Within code

-- What the second context has otherwise than the first one, it has from an assignment or a declaration in the
-- code.
structure Touches (code : Expr → Prop) (c c' : Context) : Prop where
  vars (s) : c'.vars.get? s = c.vars.get? s ∨
    ∃ value line x, code (.assign s value line) ∧ c'.vars.get? s = some x
  functions (s) : c'.functions.get? s = c.functions.get? s ∨
    ∃ params body line, code (.declare s params body line) ∧
      c'.functions.get? s = some (.declared ⟨params, body⟩)

-- The names of the first context are names of the second one.
structure NamesKept (c c' : Context) : Prop where
  vars      : ∀ s, c.vars.contains s = true → c'.vars.contains s = true
  functions : ∀ s, c.functions.contains s = true → c'.functions.contains s = true

variable {α : Type} {t : Task α} {c c' c₁ : Context} {log : List Event} {r : Except EvalError α}
  {code : Expr → Prop} {e m n : Expr} {s : String} {params : List String} {body : Expr} {line : Nat}

namespace Table

variable {γ : Type} {k : Table γ} {n m : String} {v : γ}

theorem contains_eq : k.contains n = true ↔ ∃ v, k.get? n = some v := Option.isSome_iff_exists

theorem contains_insert (h : k.contains m = true) : (k.insert n v).contains m = true := by
  rw [contains, get?_insert]
  split
  case isTrue  => rfl
  case isFalse => exact h

end Table

theorem NamesKept.trans (h₁ : NamesKept c c₁) (h₂ : NamesKept c₁ c') : NamesKept c c' where
  vars s h      := h₂.vars s (h₁.vars s h)
  functions s h := h₂.functions s (h₁.functions s h)

theorem chained_namesKept : Chained fun c _ c' => NamesKept c c' where
  refl _        := ⟨fun _ h => h, fun _ h => h⟩
  trans h₁ h₂   := h₁.trans h₂
  assign _ _ _  := ⟨fun _ h => Table.contains_insert h, fun _ h => h⟩
  declare _ _ _ := ⟨fun _ h => h, fun _ h => Table.contains_insert h⟩
  draw _ _      := ⟨fun _ h => h, fun _ h => h⟩
  call _ _ h    := ⟨h.vars, h.functions⟩

theorem Expr.eval_namesKept : NamesKept c (e.eval c).2 := by
  have ⟨_, h⟩ := (Task.expr e).runs c
  exact h.chained chained_namesKept

namespace Expr

@[simp]
theorem contains_number {x : Number} : (number x line).Contains n ↔ n = .number x line := by
  grind [Contains]

@[simp]
theorem contains_name : (name s line).Contains n ↔ n = .name s line := by
  grind [Contains]

@[simp]
theorem contains_negate : (negate e line).Contains n ↔ n = .negate e line ∨ e.Contains n := by
  grind [Contains]

@[simp]
theorem contains_binary {op : Operator} {left right : Expr} :
    (binary op left right line).Contains n ↔
      n = .binary op left right line ∨ left.Contains n ∨ right.Contains n := by
  grind [Contains]

@[simp]
theorem contains_call {es : List Expr} :
    (call s es line).Contains n ↔ n = .call s es line ∨ ∃ e ∈ es, e.Contains n := by
  grind [Contains]

@[simp]
theorem contains_assign : (assign s e line).Contains n ↔ n = .assign s e line ∨ e.Contains n := by
  grind [Contains]

@[simp]
theorem contains_declare :
    (declare s params e line).Contains n ↔ n = .declare s params e line ∨ e.Contains n := by
  grind [Contains]

end Expr

theorem Expr.Contains.trans (h : m.Contains n) (he : e.Contains m) : e.Contains n := by
  induction he
  case self          => exact h
  case operand hi    => exact .operand (hi h)
  case left hi       => exact .left (hi h)
  case right hi      => exact .right (hi h)
  case arg he _ hi   => exact .arg he (hi h)
  case source hi     => exact .source (hi h)
  case body hi       => exact .body (hi h)

theorem Expr.Code.contains (h : e.Code c m) (hn : m.Contains n) : e.Code c n := by
  cases h
  case tree h    => exact .tree (hn.trans h)
  case body hf h => exact .body hf (hn.trans h)

namespace Touches

theorem of_same (hv : c'.vars = c.vars) (hf : c'.functions = c.functions) : Touches code c c' where
  vars s      := .inl (by rw [hv])
  functions s := .inl (by rw [hf])

theorem trans (h₁ : Touches code c c₁) (h₂ : Touches code c₁ c') : Touches code c c' where
  vars s := by
    cases h₂.vars s
    case inl h => rw [h]; exact h₁.vars s
    case inr h => exact .inr h
  functions s := by
    cases h₂.functions s
    case inl h => rw [h]; exact h₁.functions s
    case inr h => exact .inr h

theorem assign (h : code (.assign s e line)) (x : Number) :
    Touches code c { c with vars := c.vars.insert s x } where
  functions _ := .inl rfl
  vars m      := by
    rw [Table.get?_insert]
    split
    case isTrue hm => exact .inr ⟨_, _, x, hm ▸ h, rfl⟩
    case isFalse   => exact .inl rfl

theorem declare (h : code (.declare s params body line)) :
    Touches code c { c with functions := c.functions.insert s (.declared ⟨params, body⟩) } where
  vars _      := .inl rfl
  functions m := by
    rw [Table.get?_insert]
    split
    case isTrue hm => exact .inr ⟨_, _, _, hm ▸ h, rfl⟩
    case isFalse   => exact .inl rfl

-- A body that has been declared on the way is part of the code too.
theorem within (h : Touches code c c') (hcode : ∀ {m n}, code m → m.Contains n → code n)
    (hc : c.functions.All (Function.Within code)) : c'.functions.All (Function.Within code) := by
  intro s f hf
  obtain he | ⟨_, _, _, hd, he⟩ := h.functions s
  case inl => exact hc s f (he ▸ hf)
  case inr =>
    cases he.symm.trans hf
    exact hcode hd (.body .self)

end Touches

-- The code is closed under parts, so that it holds whatever the run comes by, and the bodies that functions
-- have by then.
theorem Runs.touches (h : Runs t c log r c') (hcode : ∀ {m n}, code m → m.Contains n → code n)
    (ht : t.Within code) (hc : c.functions.All (Function.Within code)) : Touches code c c' := by
  induction h
  case number | name | unboundName | nil | badArity | tooDeep | builtin => exact .of_same rfl rfl
  case negate hi    => exact hi (hcode ht (.operand .self)) hc
  case leftError hi => exact hi (hcode ht (.left .self)) hc
  case binary h₁ h₂ =>
    have hl := h₁ (hcode ht (.left .self)) hc
    exact hl.trans (h₂ (hcode ht (.right .self)) (hl.within hcode hc))
  case argsError hi | unboundCall hi => exact hi (fun _ he => hcode ht (.arg he .self)) hc
  case call hf _ h₁ h₂ =>
    have hl := h₁ (fun _ he => hcode ht (.arg he .self)) hc
    have hc := hl.within hcode hc
    exact hl.trans (h₂ (hc _ _ hf) hc)
  case assignError hi => exact hi (hcode ht (.source .self)) hc
  case assign v _ _ _ _ hi =>
    have hl := hi (hcode ht (.source .self)) hc
    exact hl.trans (.assign ht v.number)
  case declare      => exact .declare ht
  case headError hi => exact hi (ht _ List.mem_cons_self) hc
  case cons h₁ h₂ =>
    have hl := h₁ (ht _ List.mem_cons_self) hc
    exact hl.trans (h₂ (fun _ he => ht _ (List.mem_cons_of_mem _ he)) (hl.within hcode hc))
  case enter hi =>
    have hb := hi ht hc
    exact ⟨hb.vars, hb.functions⟩

theorem Expr.eval_touches (e : Expr) (c : Context) : Touches (e.Code c) c (e.eval c).2 := by
  have ⟨_, h⟩ := (Task.expr e).runs c
  refine h.touches (fun hm hn => hm.contains hn) (.tree .self) fun s f hf => ?_
  cases f
  case builtin  => trivial
  case declared => exact .body hf .self

-- Evaluation changes only what is named as a target somewhere in the code, removes nothing, and gives a name
-- no function but one that is declared for it there.
theorem eval_changes_targets (e : Expr) (c : Context) :
    let c' := (e.eval c).2
    (∀ s, ¬e.MayAssign c s → c'.vars.get? s = c.vars.get? s) ∧
    (∀ s, ¬e.MayDeclare c s → c'.functions.get? s = c.functions.get? s) ∧
    NamesKept c c' ∧
    (∀ s d, c'.functions.get? s = some (.declared d) → c.functions.get? s ≠ some (.declared d) →
      ∃ line, e.Code c (.declare s d.params d.body line)) ∧
    c'.options = c.options ∧ c'.stack.scoping = c.stack.scoping := by
  intro c'
  have h : Touches (e.Code c) c c' := e.eval_touches c
  refine ⟨fun s hs => ?_, fun s hs => ?_, e.eval_namesKept, fun s d hd hn => ?_, e.eval_options c,
    e.eval_scoping c⟩
  case refine_1 =>
    refine (h.vars s).resolve_right fun ⟨_, _, _, ha, _⟩ => ?_
    exact hs ⟨_, _, ha⟩
  case refine_2 =>
    refine (h.functions s).resolve_right fun ⟨_, _, _, ha, _⟩ => ?_
    exact hs ⟨_, _, _, ha⟩
  case refine_3 =>
    obtain he | ⟨_, _, line, ha, he⟩ := h.functions s
    case inl => exact absurd (he.symm.trans hd) hn
    case inr =>
      cases he.symm.trans hd
      exact ⟨line, ha⟩

-- The body of `g` declares `h(y)`, whose body assigns `z`, and then calls it as an operand.
theorem eval_changes_targets_of_nested_declaration :
    let h : Declaration := ⟨["y"], .assign "z" (.name "y" 1) 1⟩
    let g : Declaration :=
      ⟨[], .negate (.binary .add (.declare "h" h.params h.body 1) (.call "h" [.number 2 1] 1) 1) 1⟩
    let c : Context :=
      { Context.fresh {} (.ofSeed 0) with
        functions := .ofList [("g", .declared g), ("abs", .builtin (.unary .abs))] }
    let e : Expr := .call "g" [] 2
    let c' := (e.eval c).2
    ¬e.MayAssign c "y" ∧ c'.vars.get? "y" = c.vars.get? "y" ∧ c'.vars.get? "z" = some 2 ∧
      ¬e.MayDeclare c "abs" ∧ c'.functions.get? "abs" = c.functions.get? "abs" ∧
      c'.functions.get? "h" = some (.declared h) ∧ c.functions.get? "h" ≠ some (.declared h) ∧
      ∃ line, e.Code c (.declare "h" h.params h.body line) := by
  intro h g c e c'
  have ⟨vars, functions, _, declared, _⟩ := eval_changes_targets e c
  have hg : c.functions.All fun f => f = .declared g ∨ f = .builtin (.unary .abs) :=
    Table.all_ofList (by simp)
  have hcode {n : Expr} (hn : e.Code c n) : e.Contains n ∨ g.body.Contains n := by
    cases hn
    case tree hn    => exact .inl hn
    case body hf hn =>
      obtain hf | hf := hg _ _ hf <;> cases hf
      exact .inr hn
  have hy : ¬e.MayAssign c "y" := by
    rintro ⟨_, _, hn⟩
    simpa [e, g, h] using hcode hn
  have habs : ¬e.MayDeclare c "abs" := by
    rintro ⟨_, _, _, hn⟩
    simpa [e, g, h] using hcode hn
  have hh : c'.functions.get? "h" = some (.declared h) := rfl
  have hn : c.functions.get? "h" ≠ some (.declared h) := nofun
  exact ⟨hy, vars "y" hy, rfl, habs, functions "abs" habs, hh, hn, declared "h" h hh hn⟩

end Calculator
