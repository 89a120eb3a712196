import Calculator.Proofs.Eval.Spelling

/-!
# Parameters

With nested frames the names of parameters are a matter of the function alone. A program may call a parameter
of one of its functions by another name, without any change to what it does: whether callers, functions that
are called, or variables have the old name or the new one. Only the error that the parameter is undefined, for
want of an argument, has the new name instead of the old one.
-/

namespace Calculator

-- While `t` is run in the context `c`, the body of the function `s`, which is declared by `d`, reads the parameter
-- `p` on the line `line`, and the parameter has no value.
def Task.Misses {α : Type} (t : Task α) (c : Context) (s : String) (d : Declaration) (p : String) (line : Nat) :
    Prop :=
  ∃ c', VisitsIn s d t c (.expr (.name p line)) c' ∧ c'.value? p = none

-- The same result, but for the name of the parameter where it is missed.
structure SameButParam {α : Type} (p q : String) (Missed : Nat → Prop) (x y : Except EvalError α) : Prop where
  missed : ∀ line, Missed line → x = .error ⟨.undefined p, line⟩ ∧ y = .error ⟨.undefined q, line⟩
  same   : (∀ line, ¬Missed line) → y = x

-- The evaluation of `program` in the context `c` gets from the statements `start` to a statement that misses
-- the parameter `p` of the function `s`, before `s` is declared again.
inductive MissesParam (program : List Expr) (c : Context) (start : List Expr) (s : String) (d : Declaration)
    (p : String) (line : Nat) : Prop
  | intro :
    GetsTo program c (start ++ done) e c₁ →
    (∀ e ∈ done, e.declared? ≠ some s) →
    (Task.expr e).Misses c₁ s d p line →
    MissesParam program c start s d p line

variable {R : Respelling} {α β : Type} {t : Task α} {c c' c₁ c₂ : Context} {err : EvalError} {e s b : Expr}
  {v : Value} {f p q : String} {d : Declaration} {line : Nat} {start rest program after before : List Expr}

namespace SameButParam

variable {Missed Missed' : Nat → Prop} {x y : Except EvalError α}

theorem map {g : α → β} (h : SameButParam p q Missed x y) : SameButParam p q Missed (x.map g) (y.map g) where
  missed line hm := by
    have ⟨hx, hy⟩ := h.missed line hm
    rw [hx, hy]
    exact ⟨rfl, rfl⟩
  same hn := by rw [h.same hn]

theorem congr (h : SameButParam p q Missed x y) (hm : ∀ line, Missed' line ↔ Missed line) :
    SameButParam p q Missed' x y where
  missed line hl := h.missed line ((hm line).mp hl)
  same hn        := h.same fun line hl => hn line ((hm line).mpr hl)

theorem error (h : SameButParam p q Missed (.error err) y) : ∃ err', y = .error err' := by
  by_cases hm : ∃ line, Missed line
  case pos =>
    have ⟨line, hm⟩ := hm
    exact ⟨_, (h.missed line hm).right⟩
  case neg => exact ⟨err, h.same (not_exists.mp hm)⟩

theorem refl (h : ∀ line, ¬Missed line) : SameButParam p q Missed x x where
  missed line hl := absurd hl (h line)
  same _         := rfl

end SameButParam

theorem Task.Misses.run_eq (h : t.Misses c f d p line) : (t.run c).1 = .error ⟨.undefined p, line⟩ := by
  have ⟨_, hv, hn⟩ := h
  exact run_eq_error_iff_origin.mpr (.intro hv.visits (.name hn))

namespace MissesParam

theorem cons_ok (h : s.eval c = (.ok v, c₁)) :
    MissesParam (s :: rest) c [] f d p line ↔ s.declared? ≠ some f ∧ MissesParam rest c₁ [] f d p line := by
  constructor
  case mp =>
    rintro ⟨hg, hd, hm⟩
    rw [List.nil_append] at hg
    cases hg
    case here =>
      have hx := hm.run_eq
      rw [← Expr.eval_eq_run, h] at hx
      cases hx
    case next he hg =>
      rw [h] at he
      cases he
      rw [List.forall_mem_cons] at hd
      exact ⟨hd.left, .intro hg hd.right hm⟩
  case mpr =>
    rintro ⟨hs, hg, hd, hm⟩
    exact .intro (.next h hg) (List.forall_mem_cons.mpr ⟨hs, hd⟩) hm

theorem cons_error (h : s.eval c = (.error err, c₁)) :
    MissesParam (s :: rest) c [] f d p line ↔ (Task.expr s).Misses c f d p line := by
  constructor
  case mp =>
    rintro ⟨hg, hd, hm⟩
    rw [List.nil_append] at hg
    cases hg
    case here       => exact hm
    case next he hg => rw [h] at he; cases he
  case mpr => exact fun hm => .intro .here (by simp) hm

theorem start_cons (h : b.eval c = (.ok v, c₁)) :
    MissesParam (b :: program) c (b :: start) f d p line ↔ MissesParam program c₁ start f d p line := by
  constructor
  case mp =>
    rintro ⟨hg, hd, hm⟩
    cases hg
    case next he hg =>
      rw [h] at he
      cases he
      exact .intro hg hd hm
  case mpr =>
    rintro ⟨hg, hd, hm⟩
    exact .intro (.next h hg) hd hm

theorem not_start_cons (h : b.eval c = (.error err, c₁)) :
    ¬MissesParam (b :: program) c (b :: start) f d p line := by
  rintro ⟨hg, hd, hm⟩
  cases hg
  case next he hg => rw [h] at he; cases he

end MissesParam

theorem Expr.Statement.get?_functions_of_effect (hs : s.Statement) (hd : s.declared? ≠ some f)
    (h : s.Effect c c₁) : c₁.functions.get? f = c.functions.get? f := by
  cases hs
  case value he =>
    have ⟨_, h⟩ := he.same_of_effect h
    rw [h]
  case assign =>
    have ⟨_, _, _, h⟩ := h
    rw [h]
  case declare g _ _ _ _ =>
    have ⟨_, h⟩ := h
    have hf : f ≠ g := fun hf => hd (hf ▸ rfl)
    rw [h]
    exact Table.get?_insert_of_ne hf

namespace Respelling

theorem run_missed (hm : R.Mirrors .outside c c') (hs : t.Statement) (ht : R.Fits .outside t)
    (h : t.Misses c R.name R.d R.p line) :
    ((R.task .outside t).run c').1 = .error ⟨.undefined R.q, line⟩ := by
  have ⟨_, hv, hn⟩ := h
  have ⟨_, hv', hm₁⟩ := hv.mirrored hm hs ht
  have hq : R.p ≠ R.q := ne_of_mem_of_not_mem R.param R.new
  have hn' := (hm₁.value hq).trans hn
  have he : R.spell .inside R.p = R.q := respell_self
  rw [he] at hn'
  simp only [task, Expr.renameReads, he] at hv'
  exact Task.run_eq_error_iff_origin.mpr (.intro hv' (.name hn'))

theorem run_not_missed (hm : R.Mirrors .outside c c') (hs : t.Statement) (ht : R.Fits .outside t)
    (hn : ∀ line, ¬t.Misses c R.name R.d R.p line) (h : (t.run c).1 = .error err) :
    ((R.task .outside t).run c').1 = .error err := by
  rw [Task.run_eq_error_iff_origin] at *
  cases h
  case intro hv h =>
    obtain ⟨k, _, hv', hm₁, hp, hf, hw⟩ := hv.mirrored hm hs ht
    refine .intro hv' ?_
    cases h
    case name s line hs =>
      have hx := (hm₁.value (hf.reads s (by simp [Task.actions, Expr.actions]))).trans hs
      have he : R.spell k s = s := by
        cases k
        case outside => rfl
        case inside =>
          refine respell_of_ne fun he => ?_
          subst he
          exact hn line ⟨_, hw rfl, hs⟩
      rw [he] at hx
      simp only [task, Expr.renameReads, he]
      exact .name hx
    case function hu hl =>
      obtain ⟨ha, hf⟩ := Demands.args.fits hm₁ hp hf
      obtain ⟨_, hl'⟩ := hl.mirrored hm₁ ha hf rfl
      exact .function hl' ((hm₁.after ha hl).get?_functions.trans (by rw [hu]; rfl))
    case arity ha => exact .arity (hm₁.checkArity_eq.trans ha)
    case depth ha hd =>
      rw [← hm₁.options]
      exact .depth (hm₁.checkArity_eq.trans ha) (hm₁.depth ▸ hm₁.options ▸ hd)

-- The function is declared, and no call is in progress.
structure Live (R : Respelling) (c : Context) : Prop where
  settled : c.Settled
  nested  : c.stack.scoping = .nested
  known   : c.functions.get? R.name = some (.declared R.d)

namespace Live

theorem mirrors (hc : R.Live c) : R.Mirrors .outside c (R.apply c) where
  vars      := rfl
  functions := rfl
  options   := rfl
  draws     := rfl
  depth     := rfl
  nested    := hc.nested
  nested'   := hc.nested
  known     := hc.known
  plain     := hc.settled.functions
  value _   := rfl

theorem settled_apply (hc : R.Live c) : (R.apply c).Settled where
  frames    := hc.settled.frames
  depth     := hc.settled.depth
  functions := hc.settled.functions.insert (hc.settled.functions _ _ hc.known).renameReads

theorem next (hc : R.Live c) (hs : s.Statement) (hd : s.declared? ≠ some R.name)
    (h : s.eval c = (.ok v, c₁)) : R.Live c₁ := by
  have hn := s.eval_scoping c
  rw [h] at hn
  have he := hs.eval_ok hc.settled h
  have hf := hs.get?_functions_of_effect hd he
  exact ⟨hs.settled_of_effect hc.settled he, hn.trans hc.nested, hf.trans hc.known⟩

end Live

theorem fits_expr : R.Fits .outside (.expr e) := ⟨fun _ _ => trivial, trivial⟩

theorem task_expr : R.task .outside (.expr e) = .expr e := congrArg Task.expr e.renameReads_id

theorem eval_apply_ok_of_plain (hc : R.Live c) (he : e.Plain) (h : e.eval c = (.ok v, c₁)) :
    e.eval (R.apply c) = (.ok v, R.apply c₁) := by
  have ⟨_, hr⟩ := (Task.expr e).runs c
  rw [← Expr.eval_eq_run, h] at hr
  have ⟨_, hr'⟩ := hr.mirrored hc.mirrors he fits_expr rfl
  rw [task_expr] at hr'
  obtain ⟨draws, rfl⟩ := hr.sameButDraws he hc.settled.functions (CallStack.afterCall_of_nested hc.nested)
  exact hr'.run_eq

-- A statement does the same with either spelling, and once the function is declared again, the contexts are
-- the same, too.
theorem eval_apply_ok (hc : R.Live c) (hs : s.Statement) (h : s.eval c = (.ok v, c₁)) :
    s.eval (R.apply c) = (.ok v, if s.declared? = some R.name then c₁ else R.apply c₁) := by
  cases hs
  case value he =>
    have hd : s.declared? ≠ some R.name := by cases he <;> simp [Expr.declared?]
    rw [if_neg hd]
    exact eval_apply_ok_of_plain hc he h
  case assign e _ he =>
    match hr : e.eval c with
    | (.error err, _) => rw [eval_assign_error hr] at h; cases h
    | (.ok x, c₂)     =>
      rw [eval_assign_ok hr] at h
      cases h
      exact eval_assign_ok (eval_apply_ok_of_plain hc he hr)
  case declare g _ _ _ hb =>
    rw [eval_declare] at h ⊢
    cases h
    simp only [Expr.declared?, Option.some.injEq]
    split
    case isTrue hg =>
      subst hg
      simp [apply, Table.insert_insert]
    case isFalse hg =>
      simp only [apply]
      rw [Table.insert_comm (Ne.symm hg) ⟨_, hc.known⟩]

theorem eval_apply_same (hc : R.Live c) (hs : s.Statement) :
    SameButParam R.p R.q ((Task.expr s).Misses c R.name R.d R.p) (s.eval c).1 (s.eval (R.apply c)).1 where
  missed line hm := by
    have h := run_missed (t := .expr s) hc.mirrors hs fits_expr hm
    rw [task_expr] at h
    exact ⟨hm.run_eq, h⟩
  same hn := by
    match h : s.eval c with
    | (.ok v, _)      => rw [eval_apply_ok hc hs h]
    | (.error err, _) =>
      have h := run_not_missed (t := .expr s) hc.mirrors hs fits_expr hn (congrArg Prod.fst h)
      rwa [task_expr] at h

theorem evaluate_apply (hs : ∀ s ∈ program, s.Statement) (hc : R.Live c) :
    SameButParam R.p R.q (MissesParam program c [] R.name R.d R.p) (evaluate program c).1
        (evaluate program (R.apply c)).1 ∧
      (evaluate program (R.apply c)).2.vars = (evaluate program c).2.vars := by
  induction program generalizing c
  case nil =>
    refine ⟨.refl ?_, rfl⟩
    rintro line ⟨hg, _, _⟩
    cases hg
  case cons s rest hi =>
    rw [List.forall_mem_cons] at hs
    match h : s.eval c with
    | (.ok v, c₁) =>
      have h' := eval_apply_ok hc hs.left h
      rw [evaluate_cons_ok h rfl, evaluate_cons_ok h' rfl]
      by_cases hd : s.declared? = some R.name
      case pos =>
        rw [if_pos hd]
        exact ⟨.refl fun line hm => ((MissesParam.cons_ok h).mp hm).left hd, rfl⟩
      case neg =>
        rw [if_neg hd]
        have ⟨hr, hv⟩ := hi hs.right (hc.next hs.left hd h)
        exact ⟨hr.map.congr fun line => by rw [MissesParam.cons_ok h]; simp [hd], hv⟩
    | (.error err, c₁) =>
      have hr := eval_apply_same hc hs.left
      rw [h] at hr
      have ⟨err', h'⟩ := hr.error
      have h' : s.eval (R.apply c) = (.error err', (s.eval (R.apply c)).2) := Prod.ext h' rfl
      have ⟨_, hv⟩ := hs.left.eval_error hc.settled h
      have ⟨_, hv'⟩ := hs.left.eval_error hc.settled_apply h'
      rw [evaluate_cons_error h, evaluate_cons_error h']
      rw [h'] at hr
      refine ⟨(hr.map (g := fun _ => "")).congr fun line => MissesParam.cons_error h, ?_⟩
      rw [hv, hv']
      rfl

-- Up to the declaration, nothing is different.
theorem evaluate_respelled (hs : ∀ s ∈ before ++ .declare R.name R.d.params R.d.body line :: after, s.Statement)
    (hc : c.Settled) (hn : c.stack.scoping = .nested) :
    let d := R.declaration R.name R.d
    let declare := Expr.declare R.name R.d.params R.d.body line
    let x := evaluate (before ++ declare :: after) c
    let y := evaluate (before ++ .declare R.name d.params d.body line :: after) c
    SameButParam R.p R.q (MissesParam (before ++ declare :: after) c (before ++ [declare]) R.name R.d R.p) x.1 y.1 ∧
      y.2.vars = x.2.vars := by
  intro d declare
  induction before generalizing c
  case nil =>
    rw [List.nil_append, List.forall_mem_cons] at hs
    let c₁ := { c with functions := c.functions.insert R.name (.declared R.d) }
    have h : declare.eval c = (.ok none, c₁) := rfl
    have h' : (Expr.declare R.name d.params d.body line).eval c = (.ok none, R.apply c₁) := by
      rw [eval_declare, apply, Table.insert_insert]
    have hl : R.Live c₁ := ⟨hs.left.settled hc, hn, Table.get?_insert_self⟩
    have ⟨hr, hv⟩ := evaluate_apply hs.right hl
    rw [List.nil_append, List.nil_append, evaluate_cons_ok h rfl, evaluate_cons_ok h' rfl]
    exact ⟨hr.map.congr fun line => MissesParam.start_cons h, hv⟩
  case cons b before hi =>
    rw [List.cons_append, List.forall_mem_cons] at hs
    match h : b.eval c with
    | (.ok v, c₁) =>
      have hc₁ := hs.left.settled hc
      have hn₁ := b.eval_scoping c
      rw [h] at hc₁ hn₁
      have ⟨hr, hv⟩ := hi hs.right hc₁ (hn₁.trans hn)
      rw [List.cons_append, List.cons_append, List.cons_append, evaluate_cons_ok h rfl, evaluate_cons_ok h rfl]
      exact ⟨hr.map.congr fun line => MissesParam.start_cons h, hv⟩
    | (.error err, _) =>
      rw [List.cons_append, List.cons_append, List.cons_append, evaluate_cons_error h, evaluate_cons_error h]
      exact ⟨.refl fun line => MissesParam.not_start_cons h, rfl⟩

end Respelling

-- With nested frames a parameter may have any name that is no other parameter's and that the body does not
-- read.
theorem parameter_names_are_local {ts : List Lexeme} {params : List String} {body : Expr}
    (hp : parse ts = .ok (before ++ .declare f params body line :: after)) (hm : p ∈ params) (hq : q ∉ params)
    (hr : .read q ∉ body.actions) (options : Options) (draws : Draws) :
    let d : Declaration := ⟨params, body⟩
    let d' := d.renameParams (respell p q)
    let declare := Expr.declare f params body line
    let c := Context.fresh { options with scoping := .nested } draws
    let x := evaluate (before ++ declare :: after) c
    let y := evaluate (before ++ .declare f d'.params d'.body line :: after) c
    SameButParam p q (MissesParam (before ++ declare :: after) c (before ++ [declare]) f d p) x.1 y.1 ∧
      y.2.vars = x.2.vars := by
  intro d d' declare c
  let R : Respelling := ⟨f, d, p, q, hm, hq, hr⟩
  have hd : R.declaration R.name R.d = d' := by
    rw [Respelling.declaration, Respelling.side_name]
    rfl
  have h := R.evaluate_respelled (c := c) (parse_statements hp) Context.settled_fresh rfl
  rw [hd] at h
  exact h

-- `h(y) = f()`, `f(x) = x` and `h(pi)`, where the parameter of `f` becomes `y`, as that of its caller is called.
-- It is missed all the same.
theorem parameter_names_are_local_to_callee :
    let ts : List Lexeme := [⟨.name "h", 1⟩, ⟨.mark .openParen, 1⟩, ⟨.name "y", 1⟩, ⟨.mark .closeParen, 1⟩,
      ⟨.mark .equals, 1⟩, ⟨.name "f", 1⟩, ⟨.mark .openParen, 1⟩, ⟨.mark .closeParen, 1⟩,
      ⟨.name "f", 2⟩, ⟨.mark .openParen, 2⟩, ⟨.name "x", 2⟩, ⟨.mark .closeParen, 2⟩, ⟨.mark .equals, 2⟩,
      ⟨.name "x", 2⟩,
      ⟨.name "h", 3⟩, ⟨.mark .openParen, 3⟩, ⟨.name "pi", 3⟩, ⟨.mark .closeParen, 3⟩]
    let d : Declaration := ⟨["x"], .name "x" 2⟩
    let d' := d.renameParams (respell "x" "y")
    let before : List Expr := [.declare "h" ["y"] (.call "f" [] 1) 1]
    let declare := Expr.declare "f" ["x"] d.body 2
    let after : List Expr := [.call "h" [.name "pi" 3] 3]
    let options : Options := {}
    let c := Context.fresh { options with scoping := .nested } (.ofSeed 0)
    let x := evaluate (before ++ declare :: after) c
    let y := evaluate (before ++ .declare "f" d'.params d'.body 2 :: after) c
    parse ts = .ok (before ++ declare :: after) ∧ "x" ∈ d.params ∧ "y" ∉ d.params ∧
      .read "y" ∉ d.body.actions ∧ d' = ⟨["y"], .name "y" 2⟩ ∧
      x.1 = .error ⟨.undefined "x", 2⟩ ∧ y.1 = .error ⟨.undefined "y", 2⟩ ∧ y.2.vars = x.2.vars := by
  intro ts d d' before declare after options c x y
  have hp : parse ts = .ok (before ++ declare :: after) := by cbv
  have hm : "x" ∈ d.params := by decide
  have hq : "y" ∉ d.params := by decide
  have hr : .read "y" ∉ d.body.actions := by decide
  obtain ⟨h, hv⟩ := parameter_names_are_local hp hm hq hr options (.ofSeed 0)
  let h' : Declaration := ⟨["y"], .call "f" [] 1⟩
  let c₁ : Context :=
    { c with functions := (c.functions.insert "h" (.declared h')).insert "f" (.declared d) }
  have hg : GetsTo (before ++ declare :: after) c (before ++ [declare]) (.call "h" [.name "pi" 3] 3) c₁ :=
    .next eval_declare (.next eval_declare .here)
  have hh : c₁.functions.get? "h" = some (.declared h') := rfl
  have hf : c₁.functions.get? "f" = some (.declared d) := rfl
  have hc : (Task.expr (.call "h" [.name "pi" 3] 3)).Misses c₁ "f" d "x" 2 :=
    ⟨_, .intro (.body (.stays (.step .here (.call (.cons (.name rfl) .nil) hh))) ⟨rfl, by decide⟩
      (.step .here (.call .nil hf))) ⟨rfl, by decide⟩ .here, rfl⟩
  obtain ⟨hx, hy⟩ := h.missed 2 (.intro hg (by simp) hc)
  exact ⟨hp, hm, hq, hr, rfl, hx, hy, hv⟩

end Calculator
