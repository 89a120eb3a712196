import Calculator.Proofs.Eval.Actions
import Calculator.Proofs.Eval.Plain
import Mathlib.Data.ENat.Lattice
import Mathlib.Order.CompletePartialOrder

/-!
# Height

The language has no conditionals, so an evaluation that succeeds has carried out every call there is.
How deep calls go is therefore known from the declarations alone: it is the length of the longest chain
of calls in which each stands in the body of the one before. An evaluation succeeds only if the chains
fit below the depth limit, and is stopped by the limit only if they do not.
-/

namespace Calculator

-- A chain of nested calls that an expression gives rise to. The first one stands in the expression, and
-- each of the others in the body of the function that is called before it.
inductive Chain (functions : Table Function) : Expr → Nat → Prop
  | nil {e} : Chain functions e 0
  | cons {e g d n} :
    e.Calls g → functions.get? g = some (.declared d) → Chain functions d.body n →
    Chain functions e (n + 1)

noncomputable def Expr.height (functions : Table Function) (e : Expr) : ℕ∞ :=
  ⨆ (n : Nat) (_ : Chain functions e n), (n : ℕ∞)

noncomputable def Function.height (functions : Table Function) : Function → ℕ∞
  | builtin _  => 0
  | declared d => 1 + d.body.height functions

noncomputable def Table.height (functions : Table Function) (g : String) : ℕ∞ :=
  (functions.get? g).elim 0 (Function.height functions)

-- The body of `g` contains a call of `h`.
def CallsDirectly (functions : Table Function) (g h : String) : Prop :=
  ∃ d, functions.get? g = some (.declared d) ∧ d.body.Calls h

def Reaches (functions : Table Function) : String → String → Prop :=
  Relation.TransGen (CallsDirectly functions)

variable {functions : Table Function} {e : Expr} {es : List Expr} {d : Declaration} {g s : String}
  {k : ℕ∞} {n : Nat}

theorem Chain.le_height (h : Chain functions e n) : n ≤ e.height functions :=
  le_iSup₂_of_le n h le_rfl

theorem Declaration.le_height_of_calls (hg : functions.get? g = some (.declared d)) (he : e.Calls g) :
    1 + d.body.height functions ≤ e.height functions := by
  have hn : ∃ n, Chain functions d.body n := ⟨0, .nil⟩
  rw [Expr.height, ENat.add_biSup' hn]
  refine iSup₂_le fun n h => ?_
  have h : Chain functions e (n + 1) := .cons he hg h
  rw [add_comm]
  exact_mod_cast h.le_height

theorem Table.height_of_get? {f : Function} (hg : functions.get? g = some f) :
    functions.height g = f.height functions := by
  rw [Table.height, hg]
  rfl

theorem Expr.height_le_iff : e.height functions ≤ k ↔ ∀ g, e.Calls g → functions.height g ≤ k := by
  constructor
  case mp =>
    intro h g he
    match hg : functions.get? g with
    | none | some (.builtin b) => simp [Table.height, hg, Function.height]
    | some (.declared d) =>
      rw [Table.height_of_get? hg, Function.height]
      exact (Declaration.le_height_of_calls hg he).trans h
  case mpr =>
    refine fun h => iSup₂_le fun n hn => ?_
    cases hn
    case nil => exact zero_le
    case cons hg hn he =>
      have hl := h _ he
      rw [Table.height_of_get? hg, Function.height, add_comm] at hl
      refine le_trans ?_ hl
      push_cast
      exact add_le_add_left hn.le_height 1

-- The height of an expression is that of the greatest call in it.
theorem Expr.height_eq : e.height functions = ⨆ (g : String) (_ : e.Calls g), functions.height g :=
  eq_of_forall_ge_iff fun k => by rw [height_le_iff, iSup₂_le_iff]

namespace Expr

variable {x : Number} {line : Nat} {op : Operator} {left right : Expr}

theorem height_number : (number x line).height functions = 0 := by
  simp [← nonpos_iff_eq_zero, height_le_iff, calls_number]

theorem height_name : (name s line).height functions = 0 := by
  simp [← nonpos_iff_eq_zero, height_le_iff, calls_name]

theorem height_negate : (negate e line).height functions = e.height functions :=
  eq_of_forall_ge_iff fun k => by simp only [height_le_iff, calls_negate]

theorem height_binary : (binary op left right line).height functions =
    max (left.height functions) (right.height functions) :=
  eq_of_forall_ge_iff fun k => by
    simp only [max_le_iff, height_le_iff, calls_binary, or_imp, forall_and]

theorem height_call : (call s es line).height functions =
    max (⨆ e ∈ es, e.height functions) (functions.height s) :=
  eq_of_forall_ge_iff fun k => by
    simp only [max_le_iff, iSup₂_le_iff, height_le_iff, calls_call, or_imp, forall_and, forall_eq,
      forall_exists_index, and_imp]
    exact and_congr_left' ⟨fun h e he g => h g e he, fun h g e he => h e he g⟩

end Expr

noncomputable def Task.height {α : Type} (functions : Table Function) : Task α → ℕ∞
  | expr e       => e.height functions
  | args es      => ⨆ e ∈ es, e.height functions
  | call f _ _ _ => f.height functions

theorem Task.height_cons : (Task.args (e :: es)).height functions =
    max (e.height functions) ((Task.args es).height functions) := by
  simp only [Task.height, List.mem_cons, iSup_or, iSup_sup_eq, iSup_iSup_eq_left]

-- What the result of a run says about the height of its task, if `n` calls may be opened inside each
-- other.
structure Decides {α : Type} (height n : ℕ∞) (r : Except EvalError α) : Prop where
  fits {a} : r = .ok a → height ≤ n
  exceeds {name limit line} : r = .error ⟨.tooDeep name limit, line⟩ → n < height

namespace Decides

variable {α β : Type} {h h₁ h₂ n : ℕ∞} {r : Except EvalError α} {err : EvalError}

theorem ok {a : α} (hh : h ≤ n) : Decides h n (.ok a) where
  fits _  := hh
  exceeds := nofun

theorem undefined {line : Nat} : Decides h n (.error ⟨.undefined s, line⟩ : Except EvalError α) where
  fits    := nofun
  exceeds := nofun

theorem error (hr : Decides h₁ n (.error err : Except EvalError α)) (hh : h₁ ≤ h₂) :
    Decides h₂ n (.error err : Except EvalError β) where
  fits := nofun
  exceeds he := by
    cases he
    exact (hr.exceeds rfl).trans_le hh

theorem map {f : α → β} (hr : Decides h n r) : Decides h n (r.map f) := by
  match r with
  | .ok _    => exact .ok (hr.fits rfl)
  | .error _ => exact hr.error le_rfl

-- Where one part succeeds, the other decides about both.
theorem sup (hh : h₁ ≤ n) (hr : Decides h₂ n r) : Decides (h₁ ⊔ h₂) n r := by
  match r with
  | .ok _    => exact .ok (sup_le hh (hr.fits rfl))
  | .error _ => exact hr.error le_sup_right

theorem succ {m : ℕ} (hr : Decides h m r) : Decides (1 + h) (m + 1 : ℕ) r where
  fits he    := by
    rw [add_comm, Nat.cast_succ]
    exact add_le_add_left (hr.fits he) 1
  exceeds he := by
    rw [add_comm 1, Nat.cast_succ]
    exact (ENat.add_lt_add_iff_right ENat.one_ne_top).mpr (hr.exceeds he)

end Decides

theorem Context.checkArity_ne_tooDeep {c : Context} {f : Function} {name g : String}
    {found limit line line' : Nat} :
    c.checkArity f name found line ≠ .error ⟨.tooDeep g limit, line'⟩ := by
  intro h
  unfold checkArity Arity.check at h
  split at h
  case isTrue =>
    split at h
    case _ => split at h <;> cases h
    case _ => cases h
  case isFalse => cases h

theorem Runs.decides {α : Type} {t : Task α} {c c' : Context} {log : List Event} {r : Except EvalError α}
    (h : Runs t c log r c') (ht : t.Plain) (hc : c.functions.All Function.Plain) :
    Decides (t.height c.functions) c.remainingDepth r := by
  induction h
  case number => exact .ok (by simp [Task.height, Expr.height_number])
  case name => exact .ok (by simp [Task.height, Expr.height_name])
  case unboundName => exact .undefined
  case negate hi =>
    cases ht
    case negate he =>
      rw [Task.height, Expr.height_negate]
      exact (hi he hc).map
  case leftError hi =>
    cases ht
    case binary hl _ =>
      rw [Task.height, Expr.height_binary]
      exact (hi hl hc).error le_sup_left
  case binary hl _ h₁ h₂ =>
    cases ht
    case binary hp₁ hp₂ =>
      have hf := (hl.kept hp₁ hc).functions
      have hr := h₂ hp₂ (hf ▸ hc)
      rw [hf, hl.remainingDepth_eq] at hr
      rw [Task.height, Expr.height_binary]
      exact (hr.sup ((h₁ hp₁ hc).fits rfl)).map
  case argsError hi =>
    cases ht
    case call ha =>
      rw [Task.height, Expr.height_call]
      exact (hi ha hc).error le_sup_left
  case unboundCall => exact .undefined
  case call hl hf _ h₁ h₂ =>
    cases ht
    case call ha =>
      have hk := (hl.kept ha hc).functions
      have hr := h₂ (hc _ _ (hk ▸ hf)) (hk ▸ hc)
      rw [hk, hl.remainingDepth_eq] at hr
      rw [Task.height, Expr.height_call, Table.height_of_get? (hk ▸ hf)]
      exact (hr.sup ((h₁ ha hc).fits rfl)).map
  case assignError | assign | declare => cases ht
  case nil => exact .ok (by simp [Task.height])
  case headError hi =>
    rw [Task.height_cons]
    exact (hi (ht _ List.mem_cons_self) hc).error le_sup_left
  case cons hl _ h₁ h₂ =>
    have hp := List.forall_mem_cons.mp ht
    have hf := (hl.kept hp.left hc).functions
    have hr := h₂ hp.right (hf ▸ hc)
    rw [hf, hl.remainingDepth_eq] at hr
    rw [Task.height_cons]
    exact (hr.sup ((h₁ hp.left hc).fits rfl)).map
  case badArity h =>
    refine ⟨nofun, fun he => ?_⟩
    cases he
    exact absurd h Context.checkArity_ne_tooDeep
  case builtin => exact .ok (by simp [Task.height, Function.height])
  case tooDeep hd =>
    refine ⟨nofun, fun _ => ?_⟩
    rw [Context.remainingDepth_eq_zero.mpr hd, Task.height, Function.height]
    simp
  case enter hd _ hi =>
    have ⟨n, hn⟩ := Nat.exists_eq_add_one.mpr (Context.remainingDepth_pos.mpr hd)
    have hr := hi ht hc
    rw [Context.remainingDepth_enter _ hn] at hr
    rw [hn]
    exact hr.succ.map

-- A call of a function that reaches itself starts chains of any length.
theorem chain_of_reaches_self (hg : Reaches functions g g) (he : e.Calls g) : Chain functions e n := by
  induction n generalizing e g
  case zero => exact .nil
  case succ n hi =>
    have ⟨h, ⟨d, hd, hc⟩, hr⟩ := Relation.TransGen.head'_iff.mp hg
    exact .cons he hd (hi (.tail' hr ⟨d, hd, hc⟩) hc)

theorem height_of_reaches_self (hg : Reaches functions g g) (he : e.Calls g) :
    e.height functions = ⊤ :=
  ENat.eq_top_iff_forall_ge.mpr fun _ => (chain_of_reaches_self hg he).le_height

-- Evaluation succeeds only if the calls fit below the limit, hence never if there are circular ones, and
-- exceeds the limit only if they do not.
theorem eval_decides_height {c : Context} (hc : c.functions.All Function.Plain) (he : e.Plain) :
    (∀ v, (e.eval c).1 = .ok v → e.height c.functions ≤ c.remainingDepth) ∧
    (∀ name limit line, (e.eval c).1 = .error ⟨.tooDeep name limit, line⟩ →
      c.remainingDepth < e.height c.functions) ∧
    ∀ g, e.Calls g → Reaches c.functions g g → ∀ limit v,
      (e.eval { c with options := { c.options with maxCallDepth := limit } }).1 ≠ .ok v := by
  have hd (c : Context) (hc : c.functions.All Function.Plain) :
      Decides (e.height c.functions) c.remainingDepth (e.eval c).1 := by
    have ⟨_, h⟩ := (Task.expr e).runs c
    exact h.decides he hc
  refine ⟨fun v h => (hd c hc).fits h, fun _ _ _ h => (hd c hc).exceeds h, fun g hg hr limit v h => ?_⟩
  have hf := (hd { c with options := { c.options with maxCallDepth := limit } } hc).fits h
  rw [height_of_reaches_self hr hg] at hf
  exact absurd hf (by simp)

-- With `g(x) = h(h(x))` and `h(x) = h(x)`, a call of `h` never succeeds, and `g(5)` is too deep for a
-- limit of 1.
theorem eval_decides_height_of_cycle :
    let g : Declaration := ⟨["x"], .call "h" [.call "h" [.name "x" 1] 1] 1⟩
    let h : Declaration := ⟨["x"], .call "h" [.name "x" 2] 2⟩
    let c : Context :=
      { Context.fresh { maxCallDepth := 1 } (.ofSeed 0) with
        functions := .ofList [("g", .declared g), ("h", .declared h)] }
    let e : Expr := .call "g" [.number 5 3] 3
    let loop : Expr := .call "h" [.number 5 4] 4
    (e.eval c).1 = .error ⟨.tooDeep "h" 1, 1⟩ ∧ 1 < e.height c.functions ∧
      ∀ limit v, (loop.eval { c with options := { c.options with maxCallDepth := limit } }).1 ≠ .ok v := by
  intro g h c e loop
  have hn {x line} : ∀ e ∈ [Expr.number x line], e.Plain := List.forall_mem_singleton.mpr .number
  have hx {line} : ∀ e ∈ [Expr.name "x" line], e.Plain := List.forall_mem_singleton.mpr .name
  have hc : c.functions.All Function.Plain := by
    refine Table.all_ofList (List.forall_mem_cons.mpr ⟨?_, List.forall_mem_singleton.mpr ?_⟩)
    case refine_1 => exact .call (List.forall_mem_singleton.mpr (.call hx))
    case refine_2 => exact .call hx
  have he : (e.eval c).1 = .error ⟨.tooDeep "h" 1, 1⟩ := rfl
  have hl : Reaches c.functions "h" "h" := .single ⟨h, rfl, List.mem_cons_of_mem _ List.mem_cons_self⟩
  refine ⟨he, (eval_decides_height hc (.call hn)).2.1 _ _ _ he, ?_⟩
  exact (eval_decides_height hc (.call hn)).2.2 "h" List.mem_cons_self hl

end Calculator
