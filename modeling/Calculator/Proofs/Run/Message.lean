import Calculator.Proofs.Eval.Output
import Calculator.Proofs.Run.Places
import Mathlib

/-!
# Messages

The answer to a run tells whether the run has failed, and how. The message of an error begins as no
output does. It is a row of words, and since no name and no literal has a blank in it, the words can be
told apart again, and the error can be read off them.
-/

namespace Calculator

def SyntaxFault.words : SyntaxFault → List String
  | overflow literal =>
    ["Number", literal, "is", "too", "large", "or", "too", "small", "for", "a", "64-bit", "double."]
  | unexpected mark => ["Unexpected", "token:", mark.text ++ "."]
  | unclosed        => ["Expected", "closing", "parenthesis", "')'."]
  | badParameter    => ["Invalid", "argument", "name.", "Example:", "f(x)", "=", "x", "*", "x"]
  | badTarget       => ["Invalid", "lvalue."]

def EvalFault.words : EvalFault → List String
  | undefined name => [name, "is", "undefined."]
  | argumentCount name expected found =>
    ["Function", "'" ++ name ++ "'", "expects", toString expected, "argument(s),", "but", "found",
      toString found ++ "."]
  | tooDeep name limit =>
    ["Call", "to", "'" ++ name ++ "'", "exceeds", "the", "maximum", "call", "depth", "of",
      toString limit ++ "."]

namespace Error

def textWords : Error → List String
  | read error => error.value.words
  | eval error => error.value.words

def words (e : Error) : List String :=
  "Error" :: "on" :: "line" :: (toString e.line ++ ":") :: e.textWords

end Error

-- The marks, of which there are finitely many.
def Mark.all : List Mark := [.blank, .finish] ++ marks.map Prod.snd

variable {e e' : Error} {fault fault' : SyntaxFault} {ef ef' : EvalFault} {n line : Nat}
  {source out : String} {options : Options} {draws : Draws} {ts : List Lexeme} {rest : List Char}

theorem Mark.mem_all (m : Mark) : m ∈ all := by
  cases m
  case operator op => cases op <;> decide
  all_goals decide

theorem Mark.text_inj {m n : Mark} (h : m.text = n.text) : m = n := by
  have hi : ∀ m ∈ all, ∀ n ∈ all, m.text = n.text → m = n := by decide
  exact hi m m.mem_all n n.mem_all h

-- The words of an error tell all about it.

theorem SyntaxFault.words_inj (h : fault.words = fault'.words) : fault = fault' := by
  cases fault <;> cases fault' <;> simp [words] at h
  case overflow   => exact congrArg _ h
  case unexpected => exact congrArg _ (Mark.text_inj h)
  all_goals rfl

theorem EvalFault.words_inj (h : ef.words = ef'.words) : ef = ef' := by
  cases ef <;> cases ef' <;> simp [words] at h
  case undefined => exact congrArg _ h
  case argumentCount =>
    have ⟨hs, hn, hm⟩ := h
    rw [hs, hn, hm]
  case tooDeep =>
    have ⟨hs, hn⟩ := h
    rw [hs, hn]

theorem words_ne : fault.words ≠ ef.words := by
  cases fault <;> cases ef <;> simp [SyntaxFault.words, EvalFault.words]

theorem Error.words_inj (h : e.words = e'.words) : e = e' := by
  simp only [words, List.cons.injEq, String.append_left_inj, true_and] at h
  have hl : e.line = e'.line := Nat.repr_inj.mp h.left
  match e, e' with
  | .read ⟨_, _⟩, .read ⟨_, _⟩ => cases hl; cases SyntaxFault.words_inj h.right; rfl
  | .eval ⟨_, _⟩, .eval ⟨_, _⟩ => cases hl; cases EvalFault.words_inj h.right; rfl
  | .read _, .eval _           => exact absurd h.right words_ne
  | .eval _, .read _           => exact absurd h.right.symm words_ne

-- A message is the words of the error with blanks between them.

theorem SyntaxFault.text_eq : fault.text = " ".intercalate fault.words := by
  apply String.ext
  unfold text words
  cases fault <;> simp

theorem EvalFault.text_eq : ef.text = " ".intercalate ef.words := by
  apply String.ext
  unfold text words
  cases ef <;> simp

theorem SyntaxFault.words_ne_nil : fault.words ≠ [] := by
  cases fault <;> simp [words]

theorem EvalFault.words_ne_nil : ef.words ≠ [] := by
  cases ef <;> simp [words]

theorem Error.message_eq : e.message = " ".intercalate e.words := by
  have ht : e.textWords ≠ [] ∧ e.text = " ".intercalate e.textWords := by
    cases e
    case read => exact ⟨SyntaxFault.words_ne_nil, SyntaxFault.text_eq⟩
    case eval => exact ⟨EvalFault.words_ne_nil, EvalFault.text_eq⟩
  unfold message words
  rw [ht.right]
  apply String.ext
  simp [String.intercalate_cons_of_ne_nil, ht.left]

-- No word of the error has a blank in it.
def Error.Spelled (e : Error) : Prop := ∀ w ∈ e.words, ' ' ∉ w.toList

theorem Error.Spelled.splitOn_message (h : e.Spelled) :
    e.message.toList.splitOn ' ' = e.words.map String.toList := by
  rw [Error.message_eq, String.toList_intercalate]
  refine List.splitOn_intercalate ' ' (fun l hl => ?_) (by simp [words])
  obtain ⟨w, hw, rfl⟩ := List.mem_map.mp hl
  exact h w hw

theorem message_inj (h : e.Spelled) (h' : e'.Spelled) (hm : e.message = e'.message) : e = e' := by
  have hs := h.splitOn_message
  rw [hm, h'.splitOn_message] at hs
  exact Error.words_inj (List.map_inj_right (fun _ _ => String.ext) |>.mp hs).symm

theorem not_blank_of_toDigits : ' ' ∉ Nat.toDigits 10 n := fun hc =>
  absurd (Nat.isDigit_of_mem_toDigits (by decide) (by decide) hc) (by decide)

theorem Mark.not_blank_of_text (m : Mark) : ' ' ∉ m.text.toList := by
  have hi : ∀ m ∈ all, ' ' ∉ m.text.toList := by decide
  exact hi m m.mem_all

theorem SyntaxFault.Placed.spelled (h : fault.Placed ts line) :
    ∀ w ∈ fault.words, ' ' ∉ w.toList := by
  cases h
  case unexpected m _ => simp [words, m.not_blank_of_text]
  all_goals simp [words]

theorem EvalFault.Placed.spelled (h : ef.Placed ts options line) (hs : scan source = .ok ts) :
    ∀ w ∈ ef.words, ' ' ∉ w.toList := by
  have hn {s : String} {line : Nat} (hm : ⟨.name s, line⟩ ∈ ts) : ' ' ∉ s.toList := fun hc =>
    ((letters_of_scan hs hm rfl).right ' ' hc).left (by decide)
  cases h
  case undefined h         => simp [words, hn h]
  case argumentCount h _ _ => simp [words, hn h.mem, not_blank_of_toDigits]
  case tooDeep h           => simp [words, hn h.mem, not_blank_of_toDigits]

theorem Piece.Fits.not_blank_of_overflows {p : Piece} (h : p.Fits rest) (ho : p.overflows = true) :
    ' ' ∉ p.text := by
  have hd : ' ' ∉ digits := by decide
  cases h
  case whole hr _      => exact fun hc => hd (hr.all ' ' hc)
  case decimal _ hw hr =>
    simp only [text, List.mem_append, List.mem_cons, not_or]
    exact ⟨fun hc => hd (hw ' ' hc), by decide, fun hc => hd (hr.all ' ' hc)⟩
  all_goals cases ho

theorem Error.Placed.spelled (h : e.Placed source options) : e.Spelled := by
  suffices ht : ∀ w ∈ e.textWords, ' ' ∉ w.toList by
    simp only [Spelled, words, List.forall_mem_cons]
    exact ⟨by decide, by decide, by decide, by simp [not_blank_of_toDigits], ht⟩
  cases h
  case overflow hp ho =>
    have ⟨_, hf⟩ := hp.fits_of_mem (List.mem_append_right _ List.mem_cons_self)
    simp [textWords, SyntaxFault.words, hf.not_blank_of_overflows ho]
  case read he _  => exact he.spelled
  case eval hs he => exact he.spelled hs

theorem prefix_of_line (text : String) :
    "Error on line ".toList <+: ("Error on line " ++ toString line ++ ": " ++ text).toList := by
  simp only [String.toList_append, List.append_assoc]
  exact List.prefix_append _ _

theorem message_prefix : "Error on line ".toList <+: e.message.toList := prefix_of_line e.text

theorem mapError_eq_ok {x : Except EvalError String} (h : x.mapError Error.eval = .ok out) :
    x = .ok out := by
  cases x
  case ok    => cases h; rfl
  case error => cases h

theorem run_ok (h : run source options draws = .ok out) :
    ∃ program, (evaluate program (.fresh options draws)).1 = .ok out := by
  obtain ⟨_, _, hr⟩ | ⟨_, _, _, _, hr⟩ | ⟨_, program, _, _, hr⟩ := run_cases source options draws
  case inl     => cases hr.symm.trans h
  case inr.inl => cases hr.symm.trans h
  case inr.inr => exact ⟨program, mapError_eq_ok (hr.symm.trans h)⟩

theorem answer_of_error (h : run source options draws = .error e) :
    answer source options draws = e.message := by
  rw [answer, h]

theorem answer_of_ok (h : run source options draws = .ok out) :
    answer source options draws = out := by
  rw [answer, h]

theorem answer_prefix :
    "Error on line ".toList <+: (answer source options draws).toList ↔
      ∃ e, run source options draws = .error e := by
  constructor
  case mp =>
    intro hp
    cases h : run source options draws
    case error e => exact ⟨e, rfl⟩
    case ok out =>
      have ⟨program, he⟩ := run_ok h
      rw [answer_of_ok h] at hp
      have hc : 'E' ∈ outputChars := Writable.output he 'E' (hp.subset (by decide))
      exact absurd hc (by decide)
  case mpr =>
    intro ⟨e, h⟩
    rw [answer_of_error h]
    exact message_prefix

theorem answer_inj {source' : String} {options' : Options} {draws' : Draws}
    (h : answer source options draws = answer source' options' draws') :
    run source options draws = run source' options' draws' := by
  have hp : "Error on line ".toList <+: (answer source options draws).toList ↔ _ := answer_prefix
  rw [h, answer_prefix] at hp
  cases hr : run source options draws
  case ok =>
    cases hr' : run source' options' draws'
    case ok    => rw [← answer_of_ok hr, ← answer_of_ok hr', h]
    case error => simp [hr, hr'] at hp
  case error =>
    cases hr' : run source' options' draws'
    case ok    => simp [hr, hr'] at hp
    case error =>
      rw [answer_of_error hr, answer_of_error hr'] at h
      rw [message_inj (run_placed hr).spelled (run_placed hr').spelled h]

theorem Error.take_textWords (e : Error) : e.textWords.take 2 ≠ ["Unrecognized", "token"] := by
  match e with
  | .read ⟨fault, _⟩ => cases fault <;> simp [textWords, SyntaxFault.words]
  | .eval ⟨fault, _⟩ => cases fault <;> simp [textWords, EvalFault.words]

theorem splitOn_intercalate_concat {words : List String} (h : ∀ w ∈ words, ' ' ∉ w.toList)
    (last : String) :
    (" ".intercalate (words ++ [last])).toList.splitOn ' ' =
      words.map String.toList ++ last.toList.splitOn ' ' := by
  rw [String.toList_intercalate]
  induction words
  case nil => simp
  case cons hi =>
    rw [List.forall_mem_cons] at h
    rw [List.cons_append, List.map_cons, List.intercalate_cons_of_ne_nil (by simp), List.append_assoc]
    exact (List.splitOn_append_cons_self_of_not_mem h.left _).trans (congrArg _ (hi h.right))

-- The message of a token that is not recognized is no answer to any run.
theorem answer_ne_unrecognized (token : String) :
    answer source options draws ≠
      "Error on line " ++ toString line ++ ": " ++ (LexFault.unrecognized token).text := by
  intro h
  have ⟨e, he⟩ := answer_prefix.mp (h ▸ prefix_of_line _)
  let words := ["Error", "on", "line", toString line ++ ":", "Unrecognized", "token"]
  have hm : e.message = " ".intercalate (words ++ ["'" ++ token ++ "'."]) := by
    rw [← answer_of_error he, h]
    apply String.ext
    unfold LexFault.text
    simp [words]
  have hw : ∀ w ∈ words, ' ' ∉ w.toList := by simp [words, not_blank_of_toDigits]
  have hs := (run_placed he).spelled.splitOn_message
  rw [hm, splitOn_intercalate_concat hw] at hs
  have ht : (e.textWords.take 2).map String.toList = ["Unrecognized", "token"].map String.toList := by
    simpa [words, Error.words] using congrArg (fun words => (words.drop 4).take 2) hs.symm
  exact e.take_textWords (List.map_inj_right (fun _ _ => String.ext) |>.mp ht)

-- The answer to a run gives away its result: output and messages cannot be mistaken for each other, nor
-- can two messages.
theorem answer_unambiguous (source source' : String) (options options' : Options)
    (draws draws' : Draws) :
    (answer source options draws = answer source' options' draws' →
      run source options draws = run source' options' draws') ∧
    ("Error on line ".toList <+: (answer source options draws).toList ↔
      ∃ e, run source options draws = .error e) :=
  ⟨answer_inj, answer_prefix⟩

-- Two programs that fail in the same way, the first one in the body of a function.
theorem answer_unambiguous_in_body :
    let source := "f(x) = y\nf(pi)"
    let options : Options := { strictArity := true }
    answer source options (.ofSeed 0) = answer "y + pi" {} (.ofSeed 1) ∧
      run source options (.ofSeed 0) = run "y + pi" {} (.ofSeed 1) ∧
      ∃ e, run source options (.ofSeed 0) = .error e := by
  intro source options
  have hp : program source = .ok [.declare "f" ["x"] (.name "y" 1) 1, .call "f" [.name "pi" 2] 2] := by
    cbv
  have hp' : program "y + pi" = .ok [.binary .add (.name "y" 1) (.name "pi" 1) 1] := by cbv
  have hr : run source options (.ofSeed 0) = .error (.eval ⟨.undefined "y", 1⟩) := by
    rw [run, Context.run, hp]
    rfl
  have hr' : run "y + pi" {} (.ofSeed 1) = .error (.eval ⟨.undefined "y", 1⟩) := by
    rw [run, Context.run, hp']
    rfl
  have h : answer source options (.ofSeed 0) = "Error on line 1: y is undefined." := by
    rw [answer, hr]
    decide
  have h' : answer "y + pi" {} (.ofSeed 1) = "Error on line 1: y is undefined." := by
    rw [answer, hr']
    decide
  have hu := answer_unambiguous source "y + pi" options {} (.ofSeed 0) (.ofSeed 1)
  refine ⟨h.trans h'.symm, hu.left (h.trans h'.symm), hu.right.mp ?_⟩
  rw [h]
  decide

end Calculator
