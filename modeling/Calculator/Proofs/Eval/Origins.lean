import Calculator.Proofs.Eval.Plain

/-!
# Origins

On its way a run comes by other tasks: operands, arguments, calls, and the bodies of the functions that are
called. Nothing catches an error, so whatever fails on the way makes the whole run fail, and every error
of a run has its origin in a task on the way that fails by itself.
-/

namespace Calculator

-- To run `t` in the context `c`, the task `u` of the same body is run in the context `c'`.
inductive Demands : {α β : Type} → Task α → Context → Task β → Context → Prop
  | operand : Demands (.expr (.negate e line)) c (.expr e) c
  | left : Demands (.expr (.binary op left right line)) c (.expr left) c
  | right :
    Runs (.expr left) c log (.ok v) c₁ →
    Demands (.expr (.binary op left right line)) c (.expr right) c₁
  | args : Demands (.expr (.call s es line)) c (.args es) c
  | call :
    Runs (.args es) c log (.ok xs) c₁ →
    c₁.functions.get? s = some f →
    Demands (.expr (.call s es line)) c (.call f s xs line) c₁
  | source : Demands (.expr (.assign s e line)) c (.expr e) c
  | head : Demands (.args (e :: es)) c (.expr e) c
  | tail :
    Runs (.expr e) c log (.ok v) c₁ →
    Demands (.args (e :: es)) c (.args es) c₁

-- The run of `t` in the context `c` comes by `u` in the context `c'` without entering a body.
inductive Stays {α : Type} (t : Task α) (c : Context) : {β : Type} → Task β → Context → Prop
  | here : Stays t c t c
  | step : Stays t c u c₁ → Demands u c₁ v c₂ → Stays t c v c₂

-- A call of a declared function in the context `c` is let into its body.
structure Admits (c : Context) (d : Declaration) (s : String) (xs : List Number) (line : Nat) : Prop where
  arity : c.checkArity (.declared d) s xs.length line = .ok ()
  depth : c.stack.depth < c.options.maxCallDepth

-- The run of `t` in the context `c` comes by `u` in the context `c'`. The last call on the way there is the
-- one in whose body `u` is.
inductive Visits {α : Type} (t : Task α) (c : Context) : {β : Type} → Task β → Context → Prop
  | stays : Stays t c u c' → Visits t c u c'
  | body :
    Visits t c (.call (.declared d) s xs line) c₁ →
    Admits c₁ d s xs line →
    Stays (.expr d.body) { c₁ with stack := c₁.stack.enter (d.frame xs) } u c' →
    Visits t c u c'

-- The run of `t` in the context `c` comes by `u` in the context `c'`, which is in the body of the function `s`,
-- declared by `d`.
inductive VisitsIn {α : Type} (s : String) (d : Declaration) (t : Task α) (c : Context) :
    {β : Type} → Task β → Context → Prop
  | intro :
    Visits t c (.call (.declared d) s xs line) c₁ →
    Admits c₁ d s xs line →
    Stays (.expr d.body) { c₁ with stack := c₁.stack.enter (d.frame xs) } u c' →
    VisitsIn s d t c u c'

-- The run of `t` in the context `c` enters the body of the function declared by `d`, with the arguments
-- `xs` and on the stack `stack`.
inductive Task.Enters {α : Type} (t : Task α) (c : Context) : Declaration → List Number → CallStack → Prop
  | intro :
    Visits t c (.call (.declared d) s xs line) c₁ →
    Admits c₁ d s xs line →
    Enters t c d xs (c₁.stack.enter (d.frame xs))

-- What fails by itself, and not because of anything that it demands.
inductive Task.Fails : {α : Type} → Task α → Context → EvalError → Prop
  | name : c.value? s = none → Fails (.expr (.name s line)) c ⟨.undefined s, line⟩
  | function :
    Runs (.args es) c log (.ok xs) c₁ →
    c₁.functions.get? s = none →
    Fails (.expr (.call s es line)) c ⟨.undefined s, line⟩
  | arity : c.checkArity f s xs.length line = .error err → Fails (.call f s xs line) c err
  | depth :
    c.checkArity (.declared d) s xs.length line = .ok () →
    c.options.maxCallDepth ≤ c.stack.depth →
    Fails (.call (.declared d) s xs line) c ⟨.tooDeep s c.options.maxCallDepth, line⟩

-- The error of a task on the way.
inductive Task.Fails.Origin {α : Type} (t : Task α) (c : Context) (err : EvalError) : Prop
  | intro {β : Type} {u : Task β} {c' : Context} : Visits t c u c' → u.Fails c' err → Origin t c err

-- A statement, or what may stand below one.
def Task.Statement {α : Type} : Task α → Prop
  | expr e       => e.Statement
  | args es      => ∀ e ∈ es, e.Plain
  | call f _ _ _ => f.Plain

-- The evaluation of a program gets to its statement `s` in the context `c'`, once it is through with the
-- statements `done`.
inductive GetsTo : List Expr → Context → List Expr → Expr → Context → Prop
  | here : GetsTo (s :: rest) c [] s c
  | next : s.eval c = (.ok v, c₁) → GetsTo rest c₁ done u c' → GetsTo (s :: rest) c (s :: done) u c'

variable {α β γ : Type} {t : Task α} {u : Task β} {v : Task γ} {c c' c₁ c₂ : Context} {log : List Event}
  {r : Except EvalError α} {err : EvalError} {d : Declaration} {s : String} {xs : List Number} {line : Nat}
  {stack : CallStack}

theorem GetsTo.keeps {I : Context → Prop} {program done : List Expr} {e : Expr}
    (h : GetsTo program c done e c') (hs : ∀ s ∈ program, ∀ c, I c → I (s.eval c).2) (hc : I c) :
    e ∈ program ∧ I c' := by
  induction h
  case here => exact ⟨List.mem_cons_self, hc⟩
  case next he _ hi =>
    rw [List.forall_mem_cons] at hs
    exact (hi hs.right (by simpa [he] using hs.left _ hc)).imp_left (List.mem_cons_of_mem _)

theorem Stays.cons (h : Demands t c u c₁) (hs : Stays u c₁ v c') : Stays t c v c' := by
  induction hs
  case here       => exact .step .here h
  case step hd hi => exact .step hi hd

namespace Visits

theorem here : Visits t c t c := .stays .here

theorem cons (h : Demands t c u c₁) (hv : Visits u c₁ v c') : Visits t c v c' := by
  induction hv
  case stays hs      => exact .stays (.cons h hs)
  case body ha hs hi => exact .body hi ha hs

theorem enter (ha : Admits c d s xs line)
    (hv : Visits (.expr d.body) { c with stack := c.stack.enter (d.frame xs) } v c') :
    Visits (.call (.declared d) s xs line) c v c' := by
  induction hv
  case stays hs      => exact .body .here ha hs
  case body ha hs hi => exact .body hi ha hs

end Visits

theorem VisitsIn.visits (h : VisitsIn s d t c u c') : Visits t c u c' := by
  cases h
  case intro hv ha hs => exact .body hv ha hs

theorem Demands.options_eq (h : Demands t c u c') : c'.options = c.options := by
  cases h
  case right hl | tail hl => exact hl.chained chained_options
  case call hl            => exact hl.chained chained_options
  all_goals rfl

theorem Stays.options_eq (h : Stays t c u c') : c'.options = c.options := by
  induction h
  case here       => rfl
  case step hd hi => exact hd.options_eq.trans hi

theorem Visits.options_eq (h : Visits t c u c') : c'.options = c.options := by
  induction h
  case stays hs     => exact hs.options_eq
  case body _ hs hi => exact hs.options_eq.trans hi

theorem Task.Plain.statement (h : t.Plain) : t.Statement := by
  cases t
  case expr => exact .value h
  case args => exact h
  case call => exact h

theorem Demands.plain (h : Demands t c u c') (ht : t.Statement) (hc : c.functions.All Function.Plain) :
    u.Plain ∧ c'.functions.All Function.Plain := by
  cases h
  case operand =>
    cases ht
    case value ht =>
      cases ht
      case negate he => exact ⟨he, hc⟩
  case left =>
    cases ht
    case value ht =>
      cases ht
      case binary hl _ => exact ⟨hl, hc⟩
  case right h =>
    cases ht
    case value ht =>
      cases ht
      case binary hl hr => exact ⟨hr, (h.kept hl hc).functions ▸ hc⟩
  case args =>
    cases ht
    case value ht =>
      cases ht
      case call ha => exact ⟨ha, hc⟩
  case call hf h =>
    cases ht
    case value ht =>
      cases ht
      case call ha =>
        have hc₁ := (h.kept ha hc).functions ▸ hc
        exact ⟨hc₁ _ _ hf, hc₁⟩
  case source =>
    cases ht
    case value ht  => cases ht
    case assign he => exact ⟨he, hc⟩
  case head => exact ⟨ht _ List.mem_cons_self, hc⟩
  case tail h =>
    have ⟨he, hes⟩ := List.forall_mem_cons.mp ht
    exact ⟨hes, (h.kept he hc).functions ▸ hc⟩

theorem Stays.statement (h : Stays t c u c') (ht : t.Statement) (hc : c.functions.All Function.Plain) :
    u.Statement ∧ c'.functions.All Function.Plain := by
  induction h
  case here       => exact ⟨ht, hc⟩
  case step hd hi => exact (hd.plain hi.left hi.right).imp_left Task.Plain.statement

theorem Visits.statement (h : Visits t c u c') (ht : t.Statement) (hc : c.functions.All Function.Plain) :
    u.Statement ∧ c'.functions.All Function.Plain := by
  induction h
  case stays hs      => exact hs.statement ht hc
  case body hs hi => exact hs.statement (.value hi.left) hi.right

theorem Task.Enters.cons {xs : List Number} (h : Demands t c u c₁) (he : u.Enters c₁ d xs stack) :
    t.Enters c d xs stack := by
  cases he
  case intro hv ha => exact .intro (.cons h hv) ha

theorem Task.Enters.enter {d' : Declaration} {xs' : List Number} (ha : Admits c d s xs line)
    (he : (Task.expr d.body).Enters { c with stack := c.stack.enter (d.frame xs) } d' xs' stack) :
    (Task.call (.declared d) s xs line).Enters c d' xs' stack := by
  cases he
  case intro hv h => exact .intro (.enter ha hv) h

-- Every call that is logged as entered is on the way.
theorem Runs.enters (h : Runs t c log r c') (hs : .entered stack ∈ log) : ∃ d xs, t.Enters c d xs stack := by
  have lift {α β : Type} {t : Task α} {u : Task β} {c c₁ : Context} (hd : Demands t c u c₁) :
      (∃ d xs, u.Enters c₁ d xs stack) → ∃ d xs, t.Enters c d xs stack :=
    fun ⟨_, _, h⟩ => ⟨_, _, h.cons hd⟩
  induction h
  case number | name | unboundName | declare | nil | badArity | builtin | tooDeep => cases hs
  case negate hi                    => exact lift .operand (hi hs)
  case leftError hi                 => exact lift .left (hi hs)
  case binary hl _ h₁ h₂            =>
    exact (List.mem_append.mp hs).elim (fun hs => lift .left (h₁ hs)) fun hs => lift (.right hl) (h₂ hs)
  case argsError hi | unboundCall hi => exact lift .args (hi hs)
  case call hl hf _ h₁ h₂           =>
    exact (List.mem_append.mp hs).elim (fun hs => lift .args (h₁ hs)) fun hs => lift (.call hl hf) (h₂ hs)
  case assignError hi | assign hi   => exact lift .source (hi hs)
  case headError hi                 => exact lift .head (hi hs)
  case cons hl _ h₁ h₂              =>
    exact (List.mem_append.mp hs).elim (fun hs => lift .head (h₁ hs)) fun hs => lift (.tail hl) (h₂ hs)
  case enter ha hd _ hi =>
    rw [List.cons_append, List.mem_cons, List.mem_append] at hs
    obtain hs | hs | hs := hs
    case inl =>
      cases hs
      exact ⟨_, _, .intro .here ⟨ha, hd⟩⟩
    case inr.inl =>
      have ⟨_, _, he⟩ := hi hs
      exact ⟨_, _, he.enter ⟨ha, hd⟩⟩
    case inr.inr => simp at hs

namespace Task

-- How a run ends that fails, whatever it leaves behind.
def Errs (t : Task α) (c : Context) (err : EvalError) : Prop := ∃ log c', Runs t c log (.error err) c'

theorem run_eq_error_iff : (t.run c).1 = .error err ↔ t.Errs c err := by
  constructor
  case mp =>
    intro h
    have ⟨log, hr⟩ := t.runs c
    exact ⟨log, _, h ▸ hr⟩
  case mpr => exact fun ⟨_, _, h⟩ => congrArg Prod.fst h.run_eq

theorem Fails.errs (h : t.Fails c err) : t.Errs c err := by
  cases h
  case name hv        => exact ⟨_, _, .unboundName hv⟩
  case function hf hl => exact ⟨_, _, .unboundCall hl hf⟩
  case arity ha       => exact ⟨_, _, .badArity ha⟩
  case depth ha hd    => exact ⟨_, _, .tooDeep ha hd⟩

end Task

theorem Demands.errs (h : Demands t c u c₁) (hu : u.Errs c₁ err) : t.Errs c err := by
  have ⟨_, _, hr⟩ := hu
  cases h
  case operand    => exact ⟨_, _, .negate hr⟩
  case left       => exact ⟨_, _, .leftError hr⟩
  case right hl   => exact ⟨_, _, .binary hl hr⟩
  case args       => exact ⟨_, _, .argsError hr⟩
  case call hf hl => exact ⟨_, _, .call hl hf hr⟩
  case source     => exact ⟨_, _, .assignError hr⟩
  case head       => exact ⟨_, _, .headError hr⟩
  case tail hl    => exact ⟨_, _, .cons hl hr⟩

theorem Admits.errs (h : Admits c d s xs line)
    (hb : (Task.expr d.body).Errs { c with stack := c.stack.enter (d.frame xs) } err) :
    (Task.call (.declared d) s xs line).Errs c err :=
  have ⟨_, _, hr⟩ := hb
  ⟨_, _, .enter h.arity h.depth hr⟩

theorem Stays.errs (h : Stays t c u c') (hu : u.Errs c' err) : t.Errs c err := by
  induction h
  case here       => exact hu
  case step hd hi => exact hi (hd.errs hu)

theorem Visits.errs (h : Visits t c u c') (hu : u.Errs c' err) : t.Errs c err := by
  induction h
  case stays hs      => exact hs.errs hu
  case body ha hs hi => exact hi (ha.errs (hs.errs hu))

theorem Task.Fails.Origin.cons (h : Demands t c u c₁) (ho : Origin u c₁ err) : Origin t c err := by
  cases ho
  case intro hv hf => exact .intro (.cons h hv) hf

theorem Task.Fails.Origin.enter (ha : Admits c d s xs line)
    (ho : Origin (.expr d.body) { c with stack := c.stack.enter (d.frame xs) } err) :
    Origin (.call (.declared d) s xs line) c err := by
  cases ho
  case intro hv hf => exact .intro (.enter ha hv) hf

theorem Runs.origin (h : Runs t c log r c') (hr : r = .error err) : Task.Fails.Origin t c err := by
  induction h
  case number | name | assign | declare | nil | builtin => cases hr
  case unboundName hv     => cases hr; exact .intro .here (.name hv)
  case negate hi          => exact (hi (error_of_map hr)).cons .operand
  case leftError hi       => exact (hi (by cases hr; rfl)).cons .left
  case binary hl _ _ hi   => exact (hi (error_of_map hr)).cons (.right hl)
  case argsError hi       => exact (hi (by cases hr; rfl)).cons .args
  case unboundCall hl hf _ => cases hr; exact .intro .here (.function hl hf)
  case call hl hf _ _ hi  => exact (hi (error_of_map hr)).cons (.call hl hf)
  case assignError hi     => exact (hi (by cases hr; rfl)).cons .source
  case headError hi       => exact (hi (by cases hr; rfl)).cons .head
  case cons hl _ _ hi     => exact (hi (error_of_map hr)).cons (.tail hl)
  case badArity ha        => cases hr; exact .intro .here (.arity ha)
  case tooDeep ha hd      => cases hr; exact .intro .here (.depth ha hd)
  case enter ha hd _ hi   => exact (hi (error_of_map hr)).enter ⟨ha, hd⟩

-- A run fails with the error of a task on its way, and with none other.
theorem Task.run_eq_error_iff_origin : (t.run c).1 = .error err ↔ Fails.Origin t c err := by
  rw [run_eq_error_iff]
  constructor
  case mp  => exact fun ⟨_, _, h⟩ => h.origin rfl
  case mpr => exact fun (.intro hv hf) => hv.errs hf.errs

end Calculator
