import Calculator.Error
import Calculator.Number.Literal

/-!
# Scanning

`scan` splits a source text into tokens. Every character is blank, a digit, a mark or a letter, and
the token that a character begins is as long as possible: digits, then a point and digits, make up a
number; letters make up a name. A point is a letter elsewhere, and digits end a name. Blanks
separate tokens. The list of tokens ends with the mark `finish`.

Scanning stops at a character of no class, and at a number that cannot be read. It is shown here that
it never comes to that, so that a number that is too great is all that can be wrong with a text.
-/

namespace Calculator

-- The white space of the source: tab to carriage return, the spaces of Unicode (the no-break ones
-- included), its line and paragraph separator, and the byte order mark.
def isBlank (c : Char) : Bool :=
  ('\t' ≤ c && c ≤ '\r') || ('\u2000' ≤ c && c ≤ '\u200a') ||
    [' ', '\u00a0', '\u1680', '\u2028', '\u2029', '\u202f', '\u205f', '\u3000', '\ufeff'].contains c

def Operator.ofChar? : Char → Option Operator
  | '+' => some add
  | '-' => some sub
  | '*' => some mul
  | '/' => some div
  | '%' => some rem
  | '^' => some pow
  | _   => none

def Mark.ofChar? : Char → Option Mark
  | '=' => some equals
  | '(' => some openParen
  | ')' => some closeParen
  | ',' => some comma
  | c   => operator <$> Operator.ofChar? c

-- A letter is any character but these: the digits, the marks and the white space.
def isLetter (c : Char) : Bool :=
  !(('0' ≤ c && c ≤ '9') || ('\u2000' ≤ c && c ≤ '\u200a') ||
    ['+', '-', '*', '/', '^', '%', '=', '(', ')', ',', '\t', '\n', '\u000b', '\u000c', '\r', ' ',
      '\u00a0', '\u1680', '\u2028', '\u2029', '\u202f', '\u205f', '\u3000', '\ufeff'].contains c)

-- The fraction at the front of a text: a point and the digits after it, or nothing.
def fraction : List Char → List Char
  | '.' :: cs => '.' :: cs.takeWhile Char.isDigit
  | _         => []

def afterFraction : List Char → List Char
  | '.' :: cs => cs.dropWhile Char.isDigit
  | cs        => cs

-- The token of a text that has the form of a number.
def Lexeme.number (text : List Char) (line : Nat) : Except LexError Lexeme :=
  match Number.ofText? text with
  | none       => .error ⟨.unrecognized (.ofList text), line⟩
  | some value =>
    if value.isFinite then .ok ⟨.number value, line⟩ else .error ⟨.overflow (.ofList text), line⟩

variable {c : Char} {cs whole rest : List Char} {line line' : Nat} {token : String}

theorem fraction_append_afterFraction (cs : List Char) : fraction cs ++ afterFraction cs = cs := by
  unfold fraction afterFraction
  split <;> simp [List.takeWhile_append_dropWhile]

theorem length_afterFraction_le (cs : List Char) : (afterFraction cs).length ≤ cs.length := by
  have h := congrArg List.length (fraction_append_afterFraction cs)
  simp only [List.length_append] at h
  omega

theorem length_dropWhile_le (p : Char → Bool) (cs : List Char) :
    (cs.dropWhile p).length ≤ cs.length :=
  (List.dropWhile_sublist p).length_le

def scanFrom (line : Nat) : List Char → Except LexError (List Lexeme)
  | [] => .ok [⟨.mark .finish, line⟩]
  | c :: cs =>
    if isBlank c then
      scanFrom (if c = '\n' then line + 1 else line) cs
    else if c.isDigit then do
      let rest := cs.dropWhile Char.isDigit
      let number ← Lexeme.number (c :: cs.takeWhile Char.isDigit ++ fraction rest) line
      return number :: (← scanFrom line (afterFraction rest))
    else if isLetter c then do
      let name := String.ofList (c :: cs.takeWhile isLetter)
      return ⟨.name name, line⟩ :: (← scanFrom line (cs.dropWhile isLetter))
    else match Mark.ofChar? c with
      | some mark => return ⟨.mark mark, line⟩ :: (← scanFrom line cs)
      | none      => .error ⟨.unrecognized (.singleton c), line⟩
termination_by cs => cs.length
decreasing_by
  · exact Nat.lt_succ_self _
  · exact Nat.lt_succ_of_le <| Nat.le_trans (length_afterFraction_le _) (length_dropWhile_le _ cs)
  · exact Nat.lt_succ_of_le (length_dropWhile_le _ cs)
  · exact Nat.lt_succ_self _

-- Nothing is left unrecognized: the classes cover all characters, and every number can be read.

theorem Mark.ofChar?_eq_none :
    Mark.ofChar? c = none ↔ c ∉ ['=', '(', ')', ',', '+', '-', '*', '/', '%', '^'] := by
  unfold Mark.ofChar? Operator.ofChar?
  split
  case h_5 => split <;> simp_all
  all_goals simp

theorem control_iff : ('\t' ≤ c ∧ c ≤ '\r') ↔ c ∈ ['\t', '\n', '\u000b', '\u000c', '\r'] := by
  simp [Char.le_def, UInt32.le_iff_toNat_le, Char.ext_iff, ← UInt32.toNat_inj]
  omega

-- The class of letters lists all that the other classes take in, and nothing else.
theorem isLetter_iff_not_other :
    isLetter c ↔ ¬isBlank c ∧ ¬c.isDigit ∧ Mark.ofChar? c = none := by
  have hd : c.isDigit ↔ '0' ≤ c ∧ c ≤ '9' := by simp [Char.isDigit, Char.le_def]
  rw [Mark.ofChar?_eq_none, hd]
  simp only [isLetter, isBlank, Bool.or_eq_true, Bool.and_eq_true, decide_eq_true_eq,
    List.contains_iff_mem, control_iff, Bool.not_eq_true', ← Bool.not_eq_true]
  grind

theorem fraction_cases (cs : List Char) :
    fraction cs = [] ∨ ∃ places, fraction cs = '.' :: places ∧ ∀ c ∈ places, c.isDigit := by
  unfold fraction
  split
  case _ => exact .inr ⟨_, rfl, List.all_eq_true.mp List.all_takeWhile⟩
  case _ => exact .inl rfl

theorem Lexeme.number_eq (hw : whole ≠ []) (hd : ∀ c ∈ whole, c.isDigit) :
    Lexeme.number (whole ++ fraction rest) line =
      if (Number.ofLiteral whole ((fraction rest).drop 1)).isFinite then
        .ok ⟨.number (.ofLiteral whole ((fraction rest).drop 1)), line⟩
      else .error ⟨.overflow (.ofList (whole ++ fraction rest)), line⟩ := by
  obtain hf | ⟨places, hf, hp⟩ := fraction_cases rest
  case inl => simp [Lexeme.number, hf, Number.ofText?_whole hw hd]
  case inr => simp [Lexeme.number, hf, Number.ofText?_decimal hw hd hp]

theorem bind_ne_error {ε α β : Type} {x : Except ε α} {f : α → Except ε β} {e : ε}
    (hx : x ≠ .error e) (hf : ∀ a, f a ≠ .error e) : x >>= f ≠ .error e := by
  cases x
  case ok a    => exact hf a
  case error _ => exact fun h => hx (congrArg Except.error (Except.error.inj h))

theorem scanFrom_ne_unrecognized :
    scanFrom line cs ≠ .error ⟨.unrecognized token, line'⟩ := by
  fun_induction scanFrom line cs
  case case1    => simp
  case case2 hi => simpa using hi
  case case3 _ c cs _ hd rest hi =>
    have hw : ∀ d ∈ c :: cs.takeWhile Char.isDigit, d.isDigit :=
      List.forall_mem_cons.mpr ⟨hd, List.all_eq_true.mp List.all_takeWhile⟩
    refine bind_ne_error ?_ fun number => bind_ne_error hi (by simp [pure, Except.pure])
    rw [Lexeme.number_eq (List.cons_ne_nil _ _) hw]
    split <;> simp
  case case4 hi | case5 hi => exact bind_ne_error hi (by simp [pure, Except.pure])
  case case6 hb hd hl hm   => exact absurd (isLetter_iff_not_other.mpr ⟨hb, hd, hm⟩) hl

-- The outcome of scanning that has recognized everything.
def ofRecognized {α : Type} : (x : Except LexError α) →
    (∀ token line, x ≠ .error ⟨.unrecognized token, line⟩) → Except SyntaxError α
  | .ok a, _                              => .ok a
  | .error ⟨.overflow literal, line⟩, _   => .error ⟨.overflow literal, line⟩
  | .error ⟨.unrecognized token, line⟩, h => absurd rfl (h token line)

def scan (source : String) : Except SyntaxError (List Lexeme) :=
  ofRecognized (scanFrom 1 source.toList) fun _ _ => scanFrom_ne_unrecognized

variable {source : String} {ts : List Lexeme} {literal : String}

theorem scan_eq_ok (h : scanFrom 1 source.toList = .ok ts) : scan source = .ok ts := by
  simp only [scan, h]
  rfl

theorem scan_eq_error (h : scanFrom 1 source.toList = .error ⟨.overflow literal, line⟩) :
    scan source = .error ⟨.overflow literal, line⟩ := by
  simp only [scan, h]
  rfl

end Calculator
