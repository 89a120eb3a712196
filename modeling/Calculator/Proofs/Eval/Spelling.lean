import Calculator.Proofs.Eval.Origins
import Calculator.Proofs.Eval.Renaming
import Calculator.Proofs.Eval.Scoping

/-!
# Spelling

A parameter of a function may be spelled otherwise, in the list of parameters and wherever the body reads it.
If the new name stands for nothing else in the body, runs with nested frames take the same course with either
spelling, through whatever calls. They can be told apart only where the parameter has no value: the error names
it as it is spelled.
-/

namespace Calculator

namespace Expr

mutual

-- The names that an expression reads are exchanged, but not those of the functions that it calls.
def renameReads (r : String → String) : Expr → Expr
  | number x line              => number x line
  | name s line                => name (r s) line
  | negate e line              => negate (e.renameReads r) line
  | binary op left right line  => binary op (left.renameReads r) (right.renameReads r) line
  | call s args line           => call s (renameArgReads r args) line
  | assign s e line            => assign s (e.renameReads r) line
  | declare s params body line => declare s params body line

def renameArgReads (r : String → String) : List Expr → List Expr
  | []      => []
  | e :: es => e.renameReads r :: renameArgReads r es

end

mutual

theorem renameReads_id : (e : Expr) → e.renameReads id = e
  | number _ _            => rfl
  | name _ _              => rfl
  | negate e _            => by rw [renameReads, e.renameReads_id]
  | binary _ left right _ => by rw [renameReads, left.renameReads_id, right.renameReads_id]
  | call _ args _         => by rw [renameReads, renameArgReads_id args]
  | assign _ e _          => by rw [renameReads, e.renameReads_id]
  | declare _ _ _ _       => rfl

theorem renameArgReads_id : (es : List Expr) → renameArgReads id es = es
  | []      => rfl
  | e :: es => by rw [renameArgReads, e.renameReads_id, renameArgReads_id es]

end

theorem renameArgReads_eq {r : String → String} {es : List Expr} :
    renameArgReads r es = es.map (renameReads r) := by
  induction es
  case nil     => rfl
  case cons hi => rw [renameArgReads, hi, List.map_cons]

theorem Plain.renameReads {e : Expr} {r : String → String} (h : e.Plain) : (e.renameReads r).Plain := by
  induction h
  case number         => exact .number
  case name           => exact .name
  case negate hi      => exact .negate hi
  case binary hl hr   => exact .binary hl hr
  case call hi        =>
    refine .call fun e he => ?_
    rw [renameArgReads_eq] at he
    have ⟨e, he, h⟩ := List.mem_map.mp he
    exact h ▸ hi e he

end Expr

def Declaration.renameParams (d : Declaration) (r : String → String) : Declaration :=
  ⟨d.params.map r, d.body.renameReads r⟩

-- `q` in the place of `p`.
def respell (p q s : String) : String := if s = p then q else s

-- The parameter `p` of the function `name`, which is declared by `d`, is to be spelled `q`.
structure Respelling where
  name   : String
  d      : Declaration
  p      : String
  q      : String
  param  : p ∈ d.params
  new    : q ∉ d.params
  unread : .read q ∉ d.body.actions

-- Where a run is: in the body of the function with the other spelling, or elsewhere.
inductive Side
  | inside
  | outside

namespace Respelling

variable (R : Respelling)

def spell : Side → String → String
  | .inside  => respell R.p R.q
  | .outside => id

-- What may be read on either side.
def Reads : Side → String → Prop
  | .inside,  s => s ≠ R.q
  | .outside, _ => True

-- The side of the body of the function called `s`.
def side (s : String) : Side := if s = R.name then .inside else .outside

def declaration (s : String) (d : Declaration) : Declaration := d.renameParams (R.spell (R.side s))

def function (s : String) : Function → Function
  | .builtin b  => .builtin b
  | .declared d => .declared (R.declaration s d)

def task {α : Type} (k : Side) : Task α → Task α
  | .expr e         => .expr (e.renameReads (R.spell k))
  | .args es        => .args (Expr.renameArgReads (R.spell k) es)
  | .call f s xs l  => .call (R.function s f) s xs l

-- The context with the function in its other spelling.
def apply (c : Context) : Context :=
  { c with functions := c.functions.insert R.name (.declared (R.declaration R.name R.d)) }

def Knows {α : Type} : Task α → Prop
  | .call f s _ _      => s = R.name → f = .declared R.d
  | .expr _ | .args _ => True

-- What may be run on a side.
structure Fits {α : Type} (k : Side) (t : Task α) : Prop where
  reads : ∀ s, .read s ∈ t.actions → R.Reads k s
  knows : R.Knows t

-- The contexts of two runs, one with the one spelling and one with the other.
structure Mirrors (k : Side) (c c' : Context) : Prop where
  vars      : c'.vars = c.vars
  functions : c'.functions = c.functions.insert R.name (.declared (R.declaration R.name R.d))
  options   : c'.options = c.options
  draws     : c'.draws = c.draws
  depth     : c'.stack.depth = c.stack.depth
  nested    : c.stack.scoping = .nested
  nested'   : c'.stack.scoping = .nested
  known     : c.functions.get? R.name = some (.declared R.d)
  plain     : c.functions.All Function.Plain
  value {s} : R.Reads k s → c'.value? (R.spell k s) = c.value? s

end Respelling

variable {R : Respelling} {α β : Type} {t : Task α} {u : Task β} {c c' c₁ c₂ : Context} {log : List Event}
  {r : Except EvalError α} {k : Side} {f : Function} {d : Declaration} {s : String} {xs : List Number}
  {line : Nat}

theorem Demands.reads (h : Demands t c u c₁) (hs : .read s ∈ u.actions) : .read s ∈ t.actions := by
  cases h <;> simp_all [Task.actions, Expr.actions, Expr.argActions]

theorem Declaration.renameParams_id : d.renameParams id = d := by
  rw [renameParams, List.map_id, Expr.renameReads_id]

theorem respell_self {p q : String} : respell p q p = q := if_pos rfl

theorem respell_of_ne {p q : String} (h : s ≠ p) : respell p q s = s := if_neg h

-- On all names but the new one, respelling is to exchange the two.
theorem respell_eq_swap {p q : String} (h : s ≠ q) : respell p q s = Equiv.swap p q s := by
  by_cases hs : s = p
  case pos => rw [hs, respell_self, Equiv.swap_apply_left]
  case neg => rw [respell_of_ne hs, Equiv.swap_apply_of_ne_of_ne hs h]

theorem Declaration.frame_respell {p q : String} (hq : q ∉ d.params) (hs : s ≠ q) :
    ((d.renameParams (respell p q)).frame xs).get? (respell p q s) = (d.frame xs).get? s := by
  have hm : d.params.map (respell p q) = d.params.map (Equiv.swap p q) :=
    List.map_congr_left fun s h => respell_eq_swap (ne_of_mem_of_not_mem h hq)
  have hf : (d.renameParams (respell p q)).frame xs = (d.rename (Equiv.swap p q) id).frame xs := by
    rw [frame, frame, renameParams, hm]
    rfl
  have hi := (Equiv.swap p q).injective
  rw [hf, frame_rename hi, respell_eq_swap hs, Table.get?_map hi, Option.map_id]
  rfl

namespace Respelling

theorem side_name : R.side R.name = .inside := if_pos rfl

theorem side_of_ne (h : s ≠ R.name) : R.side s = .outside := if_neg h

theorem function_of_ne (h : s ≠ R.name) : R.function s f = f := by
  cases f
  case builtin  => rfl
  case declared =>
    rw [function, declaration, side_of_ne h, spell, Declaration.renameParams_id]

theorem arity_function : (R.function s f).arity = f.arity := by
  cases f
  case builtin  => rfl
  case declared => simp [function, declaration, Declaration.renameParams, Function.arity]

namespace Mirrors

theorem get?_functions (hm : R.Mirrors k c c') :
    c'.functions.get? s = (c.functions.get? s).map (R.function s) := by
  rw [hm.functions, Table.get?_insert]
  split
  case isTrue hs  => rw [hs, hm.known]; rfl
  case isFalse hs =>
    cases c.functions.get? s
    case none => rfl
    case some => exact congrArg some (function_of_ne hs).symm

theorem checkArity_eq (hm : R.Mirrors k c c') {found : Nat} :
    c'.checkArity (R.function s f) s found line = c.checkArity f s found line := by
  rw [Context.checkArity, Context.checkArity, hm.options, arity_function]

theorem admits (hm : R.Mirrors k c c') (ha : Admits c d s xs line) :
    Admits c' (R.declaration s d) s xs line where
  arity := hm.checkArity_eq.trans ha.arity
  depth := hm.depth ▸ hm.options ▸ ha.depth

theorem draw (hm : R.Mirrors k c c') (draws : Draws) :
    R.Mirrors k { c with draws := draws } { c' with draws := draws } :=
  { hm with
    draws := rfl
    value := hm.value }

-- A body reads its parameters in the new frames, which have what the old ones have, and all else in the
-- variables.
theorem enter (hm : R.Mirrors k c c') (hk : R.Knows (.call (.declared d) s xs line)) :
    R.Mirrors (R.side s) { c with stack := c.stack.enter (d.frame xs) }
      { c' with stack := c'.stack.enter ((R.declaration s d).frame xs) } :=
  { hm with
    depth   := by simp [hm.depth]
    nested  := CallStack.scoping_enter.trans hm.nested
    nested' := CallStack.scoping_enter.trans hm.nested'
    value   := by
      intro x hx
      simp only [Context.value?, CallStack.lookup_enter, declaration, hm.vars]
      by_cases hs : s = R.name
      case pos =>
        subst hs
        cases hk rfl
        rw [side_name] at hx ⊢
        rw [spell, Declaration.frame_respell R.new hx]
        by_cases hp : x = R.p
        case pos =>
          obtain ⟨_, hb⟩ := R.d.exists_frame_get? xs R.param
          rw [hp, hb]
        case neg => rw [respell_of_ne hp]
      case neg => rw [side_of_ne hs, spell, Declaration.renameParams_id]; rfl }

end Mirrors

-- A run of what is plain leaves nothing behind but the random numbers drawn.
theorem Mirrors.after (hm : R.Mirrors k c c') (ht : t.Plain) (h : Runs t c log r c₁) :
    R.Mirrors k c₁ { c' with draws := c₁.draws } := by
  obtain ⟨draws, rfl⟩ := h.sameButDraws ht hm.plain (CallStack.afterCall_of_nested hm.nested)
  exact hm.draw draws

theorem Fits.body (hk : R.Knows (.call (.declared d) s xs line)) :
    R.Fits (R.side s) (.expr d.body) where
  knows := trivial
  reads x hx := by
    by_cases hs : s = R.name
    case pos =>
      subst hs
      cases hk rfl
      rw [side_name]
      exact fun he => R.unread (he ▸ hx)
    case neg => rw [side_of_ne hs]; trivial

end Respelling

open Respelling

-- What is demanded of a task that fits is plain and fits.
theorem Demands.fits (h : Demands t c u c₁) (hm : R.Mirrors k c c') (hs : t.Statement) (ht : R.Fits k t) :
    u.Plain ∧ R.Fits k u := by
  have ⟨hu, hf⟩ := h.plain hs hm.plain
  refine ⟨hu, fun s hs => ht.reads s (h.reads hs), ?_⟩
  cases h
  case call hf hl =>
    rintro rfl
    have ha := (Demands.args.plain hs hm.plain).left
    rw [(hl.kept ha hm.plain).functions, hm.known] at hf
    cases hf
    rfl
  all_goals trivial

-- The induction is on the run with the old spelling. Where one of its steps enters a body, the side changes
-- to that of the function.
theorem Runs.mirrored (h : Runs t c log r c₁) (hm : R.Mirrors k c c') (hp : t.Plain) (ht : R.Fits k t)
    {a : α} (hr : r = .ok a) :
    ∃ log', Runs (R.task k t) c' log' (.ok a) { c' with draws := c₁.draws } := by
  induction h generalizing k c'
  case unboundName | leftError | argsError | unboundCall | assignError | headError | badArity | tooDeep => cases hr
  case assign | declare => cases hp
  case number =>
    cases hr
    rw [← hm.draws]
    exact ⟨_, .number⟩
  case name s _ _ hv =>
    cases hr
    rw [← hm.draws]
    exact ⟨_, .name ((hm.value (ht.reads s (by simp [Task.actions, Expr.actions]))).trans hv)⟩
  case negate hi =>
    obtain ⟨_, ho, rfl⟩ := ok_of_map hr
    obtain ⟨hp, ht⟩ := Demands.operand.fits hm hp.statement ht
    obtain ⟨_, h⟩ := hi hm hp ht ho
    exact ⟨_, .negate h⟩
  case binary hl _ h₁ h₂ =>
    obtain ⟨_, ho, rfl⟩ := ok_of_map hr
    obtain ⟨hp₁, ht₁⟩ := Demands.left.fits hm hp.statement ht
    obtain ⟨hp₂, ht₂⟩ := (Demands.right hl).fits hm hp.statement ht
    obtain ⟨_, hl'⟩ := h₁ hm hp₁ ht₁ rfl
    obtain ⟨_, hr'⟩ := h₂ (hm.after hp₁ hl) hp₂ ht₂ ho
    exact ⟨_, .binary hl' hr'⟩
  case call hl hf _ h₁ h₂ =>
    obtain ⟨_, ho, rfl⟩ := ok_of_map hr
    obtain ⟨hp₁, ht₁⟩ := Demands.args.fits hm hp.statement ht
    obtain ⟨hp₂, ht₂⟩ := (Demands.call hl hf).fits hm hp.statement ht
    obtain ⟨_, hl'⟩ := h₁ hm hp₁ ht₁ rfl
    have hm₁ := hm.after hp₁ hl
    obtain ⟨_, hr'⟩ := h₂ hm₁ hp₂ ht₂ ho
    exact ⟨_, .call hl' (hm₁.get?_functions.trans (by rw [hf]; rfl)) hr'⟩
  case nil =>
    cases hr
    rw [← hm.draws]
    exact ⟨_, .nil⟩
  case cons hl _ h₁ h₂ =>
    obtain ⟨_, ho, rfl⟩ := ok_of_map hr
    obtain ⟨hp₁, ht₁⟩ := Demands.head.fits hm hp.statement ht
    obtain ⟨hp₂, ht₂⟩ := (Demands.tail hl).fits hm hp.statement ht
    obtain ⟨_, hl'⟩ := h₁ hm hp₁ ht₁ rfl
    obtain ⟨_, hr'⟩ := h₂ (hm.after hp₁ hl) hp₂ ht₂ ho
    exact ⟨_, .cons hl' hr'⟩
  case builtin ha =>
    cases hr
    have h := Runs.builtin (hm.checkArity_eq.trans ha)
    rw [hm.draws] at h
    exact ⟨_, h⟩
  case enter ha hd _ hi =>
    obtain ⟨_, ho, rfl⟩ := ok_of_map hr
    have ha := hm.admits ⟨ha, hd⟩
    obtain ⟨_, h⟩ := hi (hm.enter ht.knows) hp (.body ht.knows) ho
    have h := Runs.enter ha.arity ha.depth h
    simp only [CallStack.leave_enter_of_nested hm.nested'] at h
    exact ⟨_, h⟩

theorem Demands.mirrored (h : Demands t c u c₁) (hm : R.Mirrors k c c') (hs : t.Statement) (ht : R.Fits k t) :
    ∃ c₁', Demands (R.task k t) c' (R.task k u) c₁' ∧ R.Mirrors k c₁ c₁' := by
  cases h
  case operand => exact ⟨_, .operand, hm⟩
  case left    => exact ⟨_, .left, hm⟩
  case args    => exact ⟨_, .args, hm⟩
  case source  => exact ⟨_, .source, hm⟩
  case head    => exact ⟨_, .head, hm⟩
  case right h =>
    have ⟨hp, hf⟩ := Demands.left.fits hm hs ht
    have ⟨_, h'⟩ := h.mirrored hm hp hf rfl
    exact ⟨_, .right h', hm.after hp h⟩
  case call hf h =>
    have ⟨hp, ha⟩ := Demands.args.fits hm hs ht
    have ⟨_, h'⟩ := h.mirrored hm hp ha rfl
    have hm₁ := hm.after hp h
    exact ⟨_, .call h' (hm₁.get?_functions.trans (by rw [hf]; rfl)), hm₁⟩
  case tail h =>
    have ⟨hp, hf⟩ := Demands.head.fits hm hs ht
    have ⟨_, h'⟩ := h.mirrored hm hp hf rfl
    exact ⟨_, .tail h', hm.after hp h⟩

theorem Stays.mirrored (h : Stays t c u c₁) (hm : R.Mirrors k c c') (hs : t.Statement) (ht : R.Fits k t) :
    ∃ c₁', Stays (R.task k t) c' (R.task k u) c₁' ∧ R.Mirrors k c₁ c₁' ∧ u.Statement ∧ R.Fits k u := by
  induction h
  case here => exact ⟨_, .here, hm, hs, ht⟩
  case step hd hi =>
    have ⟨_, h, hm, hs, ht⟩ := hi
    have ⟨_, hd', hm₁⟩ := hd.mirrored hm hs ht
    have ⟨hp, hf⟩ := hd.fits hm hs ht
    exact ⟨_, .step h hd', hm₁, hp.statement, hf⟩

-- Through a call that both runs come by, into the body.
theorem Visits.body_mirrored {t' : Task α} {γ : Type} {v : Task γ} {c₁' : Context}
    (h : Visits t' c' (R.task k (.call (.declared d) s xs line)) c₁') (hm : R.Mirrors k c₁ c₁')
    (hp : d.body.Plain) (hk : R.Knows (.call (.declared d) s xs line)) (ha : Admits c₁ d s xs line)
    (hs : Stays (.expr d.body) { c₁ with stack := c₁.stack.enter (d.frame xs) } v c₂) :
    ∃ c₂', Visits t' c' (R.task (R.side s) v) c₂' ∧ R.Mirrors (R.side s) c₂ c₂' ∧ v.Statement ∧
      R.Fits (R.side s) v := by
  have ⟨_, hs', hm₂, hf⟩ := hs.mirrored (hm.enter hk) (.value hp) (.body hk)
  exact ⟨_, .body h (hm.admits ha) hs', hm₂, hf⟩

-- Of two runs that start outside, either one comes by what the other one comes by.
theorem Visits.mirrored (h : Visits t c u c₁) (hm : R.Mirrors .outside c c') (hs : t.Statement)
    (ht : R.Fits .outside t) :
    ∃ k c₁', Visits (R.task .outside t) c' (R.task k u) c₁' ∧ R.Mirrors k c₁ c₁' ∧ u.Statement ∧ R.Fits k u ∧
      (k = .inside → VisitsIn R.name R.d t c u c₁) := by
  induction h
  case stays h =>
    have ⟨_, h, hm₁, hu⟩ := h.mirrored hm hs ht
    exact ⟨_, _, .stays h, hm₁, hu.left, hu.right, by simp⟩
  case body d s xs line _ _ _ _ hv ha hs' hi =>
    have ⟨_, _, h, hm₁, hp, hf, _⟩ := hi
    have ⟨_, h', hm₂, hu⟩ := h.body_mirrored hm₁ hp hf.knows ha hs'
    refine ⟨_, _, h', hm₂, hu.left, hu.right, fun hk => ?_⟩
    by_cases hn : s = R.name
    case pos =>
      subst hn
      cases hf.knows rfl
      exact .intro hv ha hs'
    case neg => rw [side_of_ne hn] at hk; cases hk

theorem VisitsIn.mirrored (h : VisitsIn R.name R.d t c u c₁) (hm : R.Mirrors .outside c c') (hs : t.Statement)
    (ht : R.Fits .outside t) :
    ∃ c₁', Visits (R.task .outside t) c' (R.task .inside u) c₁' ∧ R.Mirrors .inside c₁ c₁' := by
  cases h
  case intro hv ha hb =>
    have ⟨_, _, hv', hm₁, hp, hf, _⟩ := hv.mirrored hm hs ht
    have ⟨_, hv', hm₂, _⟩ := hv'.body_mirrored hm₁ hp hf.knows ha hb
    rw [side_name] at hv' hm₂
    exact ⟨_, hv', hm₂⟩

end Calculator
