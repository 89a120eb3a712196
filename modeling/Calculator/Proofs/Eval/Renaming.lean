import Calculator.Proofs.Eval.Plain
import Calculator.Proofs.Parse.Renaming
import Mathlib.Logic.Equiv.Basic

/-!
# Renaming contexts

To evaluation names mean nothing but where they are bound, and lines nothing at all. If the names of a
program are exchanged for others, without giving two of them the same name, it evaluates as before: with
the same output, or with the same error under its new name and on its new line. Only the names that every
run starts with have to stay.
-/

namespace Calculator

variable {α β γ δ : Type}

section

variable (r : String → String) (g : Nat → Nat)

def EvalFault.rename : EvalFault → EvalFault
  | undefined s                    => undefined (r s)
  | argumentCount s expected found => argumentCount (r s) expected found
  | tooDeep s limit                => tooDeep (r s) limit

def EvalError.rename (e : EvalError) : EvalError := ⟨e.value.rename r, g e.line⟩

def Table.map (f : α → β) (t : Table α) : Table β :=
  ⟨t.entries.map fun entry => (r entry.1, f entry.2)⟩

def Declaration.rename (d : Declaration) : Declaration := ⟨d.params.map r, d.body.rename r g⟩

def Function.rename : Function → Function
  | builtin b  => builtin b
  | declared d => declared (d.rename r g)

def CallStack.rename (s : CallStack) : CallStack := { s with frames := s.frames.map (Table.map r id) }

def Context.rename (c : Context) : Context where
  vars      := c.vars.map r id
  functions := c.functions.map r (Function.rename r g)
  stack     := c.stack.rename r
  options   := c.options
  draws     := c.draws

end

-- The names of what every run starts with.
def builtinNames : List String := Builtin.all.map Builtin.name ++ constants.map Prod.fst

variable {r : String → String} {g : Nat → Nat}

section

variable {f : α → β} {t : Table α} {s : String} {v : α} {entries : List (String × α)}

theorem Table.get?_map (hr : Function.Injective r) : (t.map r f).get? (r s) = (t.get? s).map f := by
  simp only [get?, map]
  induction t.entries
  case nil             => rfl
  case cons entry _ hi =>
    rw [List.map_cons, List.lookup_cons, List.lookup_cons, hr.beq_eq, hi]
    cases s == entry.1 <;> rfl

theorem Table.map_insert (hr : Function.Injective r) :
    (t.insert s v).map r f = (t.map r f).insert (r s) (f v) := by
  simp only [map, insert, Table.mk.injEq]
  induction t.entries
  case nil             => rfl
  case cons entry _ hi =>
    by_cases h : entry.1 = s
    case pos => simp [insert.put, h]
    case neg => simpa [insert.put, h, hr.ne h] using hi

theorem Table.map_ofList (hr : Function.Injective r) :
    (ofList entries).map r f = ofList (entries.map fun entry => (r entry.1, f entry.2)) := by
  suffices h : ∀ t : Table α,
      (entries.foldl (fun t entry => t.insert entry.1 entry.2) t).map r f =
        (entries.map fun entry => (r entry.1, f entry.2)).foldl
          (fun t entry => t.insert entry.1 entry.2) (t.map r f) from h .empty
  induction entries
  case nil => exact fun _ => rfl
  case cons hi =>
    intro t
    rw [List.map_cons, List.foldl_cons, List.foldl_cons, hi, map_insert hr]

theorem Table.map_ofList_eq_self {f : α → α} (hr : Function.Injective r)
    (h : ∀ entry ∈ entries, r entry.1 = entry.1 ∧ f entry.2 = entry.2) :
    (ofList entries).map r f = ofList entries := by
  have he : ∀ entry ∈ entries, (r entry.1, f entry.2) = id entry :=
    fun entry hm => Prod.ext (h entry hm).left (h entry hm).right
  rw [map_ofList hr, List.map_congr_left he, List.map_id]

end

section

variable {c : Context} {d : Declaration} {xs : List Number} {s : String} {stack : CallStack}
  {frame : Frame} {options : Options} {draws : Draws}

theorem Declaration.bindings_rename {ps : List String} :
    bindings (ps.map r) xs = (bindings ps xs).map fun entry => (r entry.1, entry.2) := by
  induction ps generalizing xs
  case nil     => rfl
  case cons hi => cases xs <;> simp [bindings, hi]

theorem Declaration.frame_rename (hr : Function.Injective r) :
    (d.rename r g).frame xs = (d.frame xs).map r id := by
  rw [frame, frame, Table.map_ofList hr, rename, bindings_rename]
  rfl

theorem CallStack.enter_rename : (stack.rename r).enter (frame.map r id) = (stack.enter frame).rename r := by
  rw [enter, enter, rename]
  cases stack.scoping <;> rfl

theorem CallStack.leave_rename : (stack.rename r).leave = stack.leave.rename r := by
  rw [leave, leave, rename]
  cases stack.scoping <;> simp [rename]

theorem CallStack.lookup_rename (hr : Function.Injective r) :
    (stack.rename r).lookup (r s) = stack.lookup s := by
  simp only [lookup, rename]
  cases stack.frames
  case nil  => rfl
  case cons => simp [Table.get?_map hr]

theorem Context.value?_rename (hr : Function.Injective r) : (c.rename r g).value? (r s) = c.value? s := by
  simp only [value?, rename, CallStack.lookup_rename hr, Table.get?_map hr]
  cases c.stack.lookup s <;> simp

theorem Function.arity_rename {f : Function} : (f.rename r g).arity = f.arity := by
  cases f
  case builtin  => rfl
  case declared => simp [rename, Declaration.rename, arity]

theorem Arity.check_rename {arity : Arity} {found line : Nat} :
    arity.check (r s) found (g line) = (arity.check s found line).mapError (EvalError.rename r g) := by
  cases arity
  case exactly n =>
    by_cases h : found = n
    case pos => simp [check, h, Except.mapError]
    case neg => simp [check, h, Except.mapError, EvalError.rename, EvalFault.rename]
  case any => rfl

theorem Context.rename_fresh (hr : Function.Injective r) (hb : ∀ s ∈ builtinNames, r s = s) :
    (fresh options draws).rename r g = fresh options draws := by
  have hv : (Table.ofList constants).map r id = .ofList constants :=
    Table.map_ofList_eq_self hr fun entry hm =>
      ⟨hb _ (List.mem_append_right _ (List.mem_map_of_mem hm)), rfl⟩
  have hf : (Table.ofList (Builtin.all.map fun b => (b.name, Function.builtin b))).map r
      (Function.rename r g) = .ofList (Builtin.all.map fun b => (b.name, Function.builtin b)) := by
    refine Table.map_ofList_eq_self hr fun entry hm => ?_
    obtain ⟨b, he, rfl⟩ := List.mem_map.mp hm
    exact ⟨hb _ (List.mem_append_left _ (List.mem_map_of_mem he)), rfl⟩
  simp only [fresh, rename, hv, CallStack.rename, CallStack.empty, List.map_nil]
  cases options.legacyTan
  case false => simp [hf]
  case true  => simp [Table.map_insert hr, hf, hb "tan" (by decide), Function.rename]

end

namespace Eval

-- One evaluation does in a renamed context what another one does in the context itself.
def Renames (r : String → String) (g : Nat → Nat) (f : α → β) (x : Eval α) (y : Eval β) : Prop :=
  ∀ c, y (c.rename r g) =
    (((x c).1.map f).mapError (EvalError.rename r g), (x c).2.rename r g)

namespace Renames

variable {f : α → β} {h : γ → δ} {x : Eval α} {y : Eval β} {next : α → Eval γ} {next' : β → Eval δ}

theorem pure {a : α} : Renames r g f (pure a) (pure (f a)) := fun _ => rfl

theorem bind (hx : Renames r g f x y) (hn : ∀ a, Renames r g h (next a) (next' (f a))) :
    Renames r g h (x >>= next) (y >>= next') := by
  intro c
  rw [bind_apply, bind_apply, hx c]
  match x c with
  | (.ok a, c₁)    => exact hn a c₁
  | (.error e, c₁) => rfl

theorem map {x x' : Eval α} {φ : α → β} (hx : Renames r g id x x') :
    Renames r g id (φ <$> x) (φ <$> x') := by
  intro c
  rw [map_apply, map_apply, hx c]
  cases (x c).1 <;> rfl

section

variable {s : String} {line : Nat}

theorem value (hr : Function.Injective r) : Renames r g id (value s line) (value (r s) (g line)) := by
  intro c
  rw [value_apply, value_apply, Context.value?_rename hr]
  cases c.value? s <;> rfl

theorem function (hr : Function.Injective r) :
    Renames r g (Function.rename r g) (function s line) (function (r s) (g line)) := by
  intro c
  have hf : (c.rename r g).functions.get? (r s) = (c.functions.get? s).map (Function.rename r g) :=
    Table.get?_map hr
  rw [function_apply, function_apply, hf]
  cases c.functions.get? s <;> rfl

theorem define {x : Number} (hr : Function.Injective r) :
    Renames r g id (define s x) (define (r s) x) := by
  intro c
  rw [define_apply, define_apply]
  simp only [Context.rename, Table.map_insert hr]
  rfl

theorem declare {d : Declaration} (hr : Function.Injective r) :
    Renames r g id (declare s d) (declare (r s) (d.rename r g)) := by
  intro c
  rw [declare_apply, declare_apply]
  simp only [Context.rename, Table.map_insert hr]
  rfl

theorem checkArity {arity : Arity} {found : Nat} :
    Renames r g id (checkArity arity s found line) (checkArity arity (r s) found (g line)) := by
  intro c
  simp only [Eval.checkArity, Arity.check_rename (r := r) (g := g)]
  cases hs : c.options.strictArity <;> simp [Context.rename, hs, Except.mapError]

theorem builtin {b : Builtin} {args : List Number} :
    Renames r g id (builtin b args) (builtin b args) := fun _ => rfl

theorem within {frame : Frame} (hx : Renames r g f x y) :
    Renames r g f (within frame x) (within (frame.map r id) y) := by
  intro c
  have hc : { c.rename r g with stack := (c.rename r g).stack.enter (frame.map r id) } =
      { c with stack := c.stack.enter frame }.rename r g := by
    simp only [Context.rename, CallStack.enter_rename]
  rw [within_apply, within_apply, hc, hx]
  simp only [Context.rename, CallStack.leave_rename]

end

end Renames

-- Two ways to carry out calls, the other one in renamed contexts.
def RenamesCalls (r : String → String) (g : Nat → Nat) (invoke invoke' : Invoke) : Prop :=
  ∀ s d args line, Renames r g id (invoke s d args line) (invoke' (r s) (d.rename r g) args (g line))

variable {invoke invoke' : Invoke}

theorem Function.call_renames (hi : RenamesCalls r g invoke invoke') {f : Function} {s : String}
    {args : List Number} {line : Nat} :
    Renames r g id (f.call invoke s args line) ((f.rename r g).call invoke' (r s) args (g line)) := by
  rw [Function.call.eq_def, Function.call.eq_def, Function.arity_rename]
  refine Renames.checkArity.bind fun _ => ?_
  cases f
  case builtin  => exact Renames.builtin
  case declared => exact hi _ _ _ _

end Eval

open Eval

namespace Expr

variable {invoke invoke' : Invoke}

mutual

theorem evalWith_renames (hr : Function.Injective r) (hi : RenamesCalls r g invoke invoke') :
    (e : Expr) → Renames r g id (e.evalWith invoke) ((e.rename r g).evalWith invoke')
  | number _ _ => by
    simp only [rename, evalWith]
    exact .pure
  | name _ _ => by
    simp only [rename, evalWith]
    exact (Renames.value hr).map
  | negate operand _ => by
    simp only [rename, evalWith]
    exact (operand.evalWith_renames hr hi).bind fun _ => .pure
  | binary _ left right _ => by
    simp only [rename, evalWith]
    exact (left.evalWith_renames hr hi).bind fun _ =>
      (right.evalWith_renames hr hi).bind fun _ => .pure
  | call _ args _ => by
    simp only [rename, evalWith]
    exact (evalArgs_renames hr hi args).bind fun _ =>
      (Renames.function hr).bind fun _ => (Function.call_renames hi).map
  | assign _ value _ => by
    simp only [rename, evalWith]
    exact (value.evalWith_renames hr hi).bind fun _ => Renames.define hr
  | declare _ _ _ _ => by
    simp only [rename, evalWith]
    exact Renames.declare hr

theorem evalArgs_renames (hr : Function.Injective r) (hi : RenamesCalls r g invoke invoke') :
    (es : List Expr) → Renames r g id (evalArgs invoke es) (evalArgs invoke' (renameAll r g es))
  | [] => by
    simp only [renameAll, evalArgs]
    exact .pure
  | e :: es => by
    simp only [renameAll, evalArgs]
    exact (e.evalWith_renames hr hi).bind fun _ => (evalArgs_renames hr hi es).bind fun _ => .pure

end

end Expr

theorem Eval.invoke_renames (hr : Function.Injective r) (n : Nat) :
    RenamesCalls r g (invoke n) (invoke n) := by
  induction n
  case zero =>
    intro s d args line
    exact fun _ => rfl
  case succ n hi =>
    intro s d args line
    simp only [invoke, Declaration.frame_rename hr]
    exact ((d.body.evalWith_renames hr hi).bind fun x => .pure (f := id) (a := x.number)).within

theorem Expr.eval_renames (hr : Function.Injective r) (e : Expr) :
    Renames r g id e.eval (e.rename r g).eval := by
  intro c
  rw [eval_apply, eval_apply]
  exact e.evalWith_renames hr (invoke_renames hr _) c

theorem evaluate_renames (hr : Function.Injective r) (program : List Expr) :
    Renames r g id (evaluate program) (evaluate (program.map (Expr.rename r g))) := by
  induction program
  case nil => exact .pure
  case cons s rest hi => exact (s.eval_renames hr).bind fun _ => hi.bind fun _ => .pure

-- Other names and other lines make another program of the tokens, which gives the same.
theorem renaming_keeps_meaning {ts : List Lexeme} (ht : ∃ t ∈ ts, t.value = .mark .finish)
    (hr : Function.Injective r) (hb : ∀ s ∈ builtinNames, r s = s) (options : Options) (draws : Draws) :
    parse (ts.map (Lexeme.rename r g)) =
      ((parse ts).map (List.map (Expr.rename r g))).mapError (Located.mapLine g) ∧
    ∀ program, parse ts = .ok program →
      let before := evaluate program (.fresh options draws)
      let after  := evaluate (program.map (Expr.rename r g)) (.fresh options draws)
      after.1 = before.1.mapError (EvalError.rename r g) ∧ after.2 = before.2.rename r g := by
  refine ⟨parse_rename ht, fun program _ => ?_⟩
  have he := evaluate_renames (g := g) hr program (.fresh options draws)
  rw [Context.rename_fresh hr hb] at he
  dsimp only
  rw [he, Except.map_id]
  exact ⟨rfl, rfl⟩

-- `f(x) = x` and `f(2) + y`, where `f` and `y` change their names, and all lines move down by seven.
theorem renaming_keeps_meaning_of_swap :
    let r : String → String := Equiv.swap "f" "y"
    let ts : List Lexeme := [⟨.name "f", 1⟩, ⟨.mark .openParen, 1⟩, ⟨.name "x", 1⟩,
      ⟨.mark .closeParen, 1⟩, ⟨.mark .equals, 1⟩, ⟨.name "x", 1⟩, ⟨.name "f", 2⟩,
      ⟨.mark .openParen, 2⟩, ⟨.number 2, 2⟩, ⟨.mark .closeParen, 2⟩, ⟨.mark (.operator .add), 2⟩,
      ⟨.name "y", 2⟩, ⟨.mark .finish, 2⟩]
    let program : List Expr := [.declare "f" ["x"] (.name "x" 1) 1,
      .binary .add (.call "f" [.number 2 2] 2) (.name "y" 2) 2]
    let after := evaluate (program.map (Expr.rename r (· + 7))) (.fresh {} (.ofSeed 0))
    Function.Injective r ∧ (∀ s ∈ builtinNames, r s = s) ∧ parse ts = .ok program ∧
      parse (ts.map (Lexeme.rename r (· + 7))) = .ok (program.map (Expr.rename r (· + 7))) ∧
      after.1 = .error ⟨.undefined "f", 9⟩ ∧
      after.2.functions.get? "y" = some (.declared ⟨["x"], .name "x" 8⟩) := by
  intro r ts program after
  have ht : ∃ t ∈ ts, t.value = .mark .finish := ⟨⟨.mark .finish, 2⟩, by simp [ts], rfl⟩
  have hr : Function.Injective r := (Equiv.swap "f" "y").injective
  have hb : ∀ s ∈ builtinNames, r s = s := by decide
  have hp : parse ts = .ok program := by cbv
  obtain ⟨hq, he⟩ := renaming_keeps_meaning (g := (· + 7)) ht hr hb {} (.ofSeed 0)
  rw [hp] at hq
  obtain ⟨h₁, h₂⟩ := he program hp
  refine ⟨hr, hb, hp, hq, h₁.trans ?_, ?_⟩
  case refine_1 => rfl
  case refine_2 => rw [h₂]; rfl

end Calculator
