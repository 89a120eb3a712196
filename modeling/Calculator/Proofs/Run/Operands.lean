import Calculator.Proofs.Eval.Origins
import Calculator.Proofs.Eval.Session
import Calculator.Proofs.Eval.Targets
import Calculator.Proofs.Parse.Literals
import Calculator.Proofs.Token.Places
import Calculator.Run
import Mathlib

/-!
# Operands

An operand without a value would count as NaN. In a session this never comes up: programs put no assignment
and no declaration where a number is asked for, and the context that they leave behind stays in order, as
it was made for the first of them.
-/

namespace Calculator

-- While `t` is run in the context `c`, the number of `e` is asked for in the context `c'`: as an operand, an
-- argument, the right side of an assignment or the body of a function.
inductive Asks {α : Type} (t : Task α) (c : Context) : Expr → Context → Prop
  | operand : Visits t c u c₁ → Demands u c₁ (.expr e) c' → Asks t c e c'
  | body :
    Visits t c (.call (.declared d) s xs line) c₁ →
    Admits c₁ d s xs line →
    Asks t c d.body { c₁ with stack := c₁.stack.enter (d.frame xs) }

-- The contexts of a session, whose programs are source texts.
inductive Context.InSession (options : Options) (draws : Draws) : Context → Prop
  | fresh : InSession options draws (.fresh options draws)
  | evaluate {c source statements} :
    InSession options draws c → program source = .ok statements →
    InSession options draws (evaluate statements c).2

-- No call is in progress, the names that every run starts with are there, and the bodies of functions are
-- plain and have finite numbers only.
structure Context.Ready (c : Context) : Prop where
  frames    : c.stack.frames = []
  depth     : c.stack.depth = 0
  constants : ∀ entry ∈ constants, c.vars.contains entry.1 = true
  builtins  : ∀ b : Builtin, c.functions.contains b.name = true
  bodies    : ∀ s d, c.functions.get? s = some (.declared d) → d.body.Plain ∧ d.body.Literals (·.isFinite = true)

variable {α β : Type} {t : Task α} {u : Task β} {c c' c₁ : Context} {e s : Expr} {options : Options}
  {draws : Draws} {P : Number → Prop} {statements : List Expr} {source : String}

theorem Asks.plain (h : Asks t c e c') (ht : t.Statement) (hc : c.functions.All Function.Plain) : e.Plain := by
  cases h
  case operand hv hd =>
    have ⟨hu, hc⟩ := hv.statement ht hc
    exact (hd.plain hu hc).left
  case body hv _ => exact (hv.statement ht hc).left

theorem parsed_of_program (h : program source = .ok statements) :
    ∃ ts, scan source = .ok ts ∧ parse ts = .ok statements := by
  cases hs : scan source
  case error => simp [program, hs, bind, Except.bind] at h
  case ok ts => exact ⟨ts, rfl, by simpa [program, hs, bind, Except.bind] using h⟩

def Function.Literals (P : Number → Prop) : Function → Prop
  | builtin _  => True
  | declared d => d.body.Literals P

namespace Expr.Statement

theorem literals_of_effect (hs : s.Statement) (hl : s.Literals P) (h : s.Effect c c')
    (hc : c.functions.All (Function.Literals P)) : c'.functions.All (Function.Literals P) := by
  cases hs
  case value he =>
    have ⟨_, h⟩ := he.same_of_effect h
    exact h ▸ hc
  case assign =>
    have ⟨_, _, _, h⟩ := h
    exact h ▸ hc
  case declare hb =>
    have ⟨_, h⟩ := h
    cases hl
    case declare hl => exact h ▸ hc.insert hl

theorem eval_literals (hs : s.Statement) (hl : s.Literals P) (hc : c.Settled)
    (hf : c.functions.All (Function.Literals P)) : (s.eval c).2.functions.All (Function.Literals P) := by
  match h : s.eval c with
  | (.ok v, _)      => exact hs.literals_of_effect hl (hs.eval_ok hc h) hf
  | (.error err, _) =>
    have ⟨_, h⟩ := hs.eval_error hc h
    exact h ▸ hf

end Expr.Statement

theorem Builtin.mem_all (b : Builtin) : b ∈ all := by
  cases b
  case unary f    => cases f <;> decide
  case extremum e => cases e <;> decide
  case random     => decide

namespace Context

theorem constants_fresh : ∀ entry ∈ constants, (fresh options draws).vars.contains entry.1 = true :=
  fun entry he => Table.contains_eq.mpr (Table.exists_get?_ofList ⟨entry.2, he⟩)

theorem builtins_fresh (b : Builtin) : (fresh options draws).functions.contains b.name = true := by
  have h : (Table.ofList (Builtin.all.map fun b => (b.name, Function.builtin b))).contains b.name = true :=
    Table.contains_eq.mpr (Table.exists_get?_ofList ⟨_, List.mem_map_of_mem b.mem_all⟩)
  unfold fresh
  dsimp only
  split
  case isTrue  => exact Table.contains_insert h
  case isFalse => exact h

theorem Ready.of_settled (hc : c.Settled) (hf : c.functions.All (Function.Literals (·.isFinite = true)))
    (hn : NamesKept (.fresh options draws) c) : c.Ready where
  frames    := hc.frames
  depth     := hc.depth
  constants := fun entry he => hn.vars _ (constants_fresh entry he)
  builtins  := fun b => hn.functions _ (builtins_fresh b)
  bodies s _ h := ⟨hc.functions s _ h, hf s _ h⟩

namespace InSession

theorem reachable (h : c.InSession options draws) : c.Reachable options draws := by
  induction h
  case fresh => exact .fresh
  case evaluate hp hc =>
    have ⟨_, _, hp⟩ := parsed_of_program hp
    exact .evaluate hc hp

theorem literals (h : c.InSession options draws) :
    c.functions.All (Function.Literals (·.isFinite = true)) := by
  induction h
  case fresh =>
    intro name f hf
    have ⟨_, hb⟩ := fresh_functions name f hf
    exact hb ▸ trivial
  case evaluate hc hp hf =>
    have ⟨ts, hs, hp⟩ := parsed_of_program hp
    refine (evaluate_keeps (I := fun c => c.Settled ∧ c.functions.All _) ?_ ⟨hc.reachable.settled, hf⟩).right
    intro s hm c ⟨hc, hf⟩
    have hst := parse_statements hp s hm
    have hl := parse_literals (fun _ ht _ hx => finite_of_scan hs ht hx) hp s hm
    exact ⟨hst.settled hc, hst.eval_literals hl hc hf⟩

theorem namesKept (h : c.InSession options draws) : NamesKept (.fresh options draws) c := by
  induction h
  case fresh       => exact chained_namesKept.refl _
  case evaluate hi => exact evaluate_keeps (fun _ _ _ hc => hc.trans Expr.eval_namesKept) hi

theorem ready (h : c.InSession options draws) : c.Ready :=
  .of_settled h.reachable.settled h.literals h.namesKept

end InSession

end Context

-- The contexts of a session are ready for more programs, and whatever is asked for its number while such a
-- program is evaluated has one, unless it fails.
theorem operands_have_values (hc : c.InSession options draws) :
    c.Ready ∧
    ∀ ts statements, parse ts = .ok statements → ∀ done s c₁, GetsTo statements c done s c₁ →
      ∀ e c₂, Asks (.expr s) c₁ e c₂ → ∀ v, (e.eval c₂).1 = .ok v → ∃ x, v = some x := by
  refine ⟨hc.ready, fun ts statements hp done s c₁ hg e c₂ ha v hv => ?_⟩
  have hst := parse_statements hp
  have ⟨hs, hc₁⟩ := hg.keeps (fun s hs _ hc => (hst s hs).settled hc) hc.reachable.settled
  have he : e.Plain := ha.plain (hst s hs) hc₁.functions
  match v with
  | some x => exact ⟨x, rfl⟩
  | none   => exact absurd hv he.eval_ne_none

-- The first program declares `f` before it fails. In the next one `f` is called in a product.
theorem operands_have_values_after_failure :
    let source := "f(x) = x + e\ny"
    let body : Expr := .binary .add (.name "x" 1) (.name "e" 1) 1
    let statements : List Expr := [.declare "f" ["x"] body 1, .name "y" 2]
    let c := (evaluate statements (.fresh {} (.ofSeed 0))).2
    let ts : List Lexeme := [⟨.number 2, 1⟩, ⟨.mark (.operator .mul), 1⟩, ⟨.name "f", 1⟩, ⟨.mark .openParen, 1⟩,
      ⟨.number 5, 1⟩, ⟨.mark .closeParen, 1⟩]
    let s : Expr := .binary .mul (.number 2 1) (.call "f" [.number 5 1] 1) 1
    let c' := { c with stack := c.stack.enter (.ofList [("x", some 5)]) }
    program source = .ok statements ∧
      (evaluate statements (.fresh {} (.ofSeed 0))).1 = .error ⟨.undefined "y", 2⟩ ∧
      c.Ready ∧ parse ts = .ok [s] ∧ Asks (.expr s) c body c' ∧
      ∃ v, (body.eval c').1 = .ok v ∧ ∃ x, v = some x := by
  intro source body statements c ts s c'
  have hp : program source = .ok statements := by cbv
  have hc : c.InSession {} (.ofSeed 0) := .evaluate .fresh hp
  have hs : parse ts = .ok [s] := by cbv
  have hf : c.functions.get? "f" = some (.declared ⟨["x"], body⟩) := rfl
  have hv : Visits (.expr s) c (.call (.declared ⟨["x"], body⟩) "f" [5] 1) c :=
    .stays <| .step (.step .here (.right .number)) (.call (.cons .number .nil) hf)
  have ha : Asks (.expr s) c body c' := .body hv ⟨rfl, by decide⟩
  obtain ⟨hr, he⟩ := operands_have_values hc
  exact ⟨hp, rfl, hr, hs, ha, _, rfl, he ts [s] hs [] s c .here body c' ha _ rfl⟩

end Calculator
