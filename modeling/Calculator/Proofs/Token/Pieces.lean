import Calculator.Token.Scan
import Mathlib.Data.List.TakeWhile

/-!
# Pieces of a source text

A source text falls into pieces from left to right: blanks, marks, numbers and names. Every piece is
as long as the classes of its characters allow, so each text has pieces, and has them in one way only.
Scanning a text gives the tokens of its pieces, each on the line that it begins on, or fails at the
first number that is too great.
-/

namespace Calculator

-- The classes of characters. What is no blank, no digit and no mark is a letter.

def blanks : List Char :=
  ['\t', '\n', '\u000b', '\u000c', '\r', ' ', '\u00a0', '\u1680', '\u2000', '\u2001', '\u2002',
   '\u2003', '\u2004', '\u2005', '\u2006', '\u2007', '\u2008', '\u2009', '\u200a', '\u2028',
   '\u2029', '\u202f', '\u205f', '\u3000', '\ufeff']

def digits : List Char := ['0', '1', '2', '3', '4', '5', '6', '7', '8', '9']

def marks : List (Char × Mark) :=
  [('+', .operator .add), ('-', .operator .sub), ('*', .operator .mul), ('/', .operator .div),
   ('^', .operator .pow), ('%', .operator .rem), ('=', .equals), ('(', .openParen),
   (')', .closeParen), (',', .comma)]

def Letter (c : Char) : Prop := c ∉ blanks ∧ c ∉ digits ∧ ∀ m, (c, m) ∉ marks

-- A run of characters of a class, which what comes after it does not continue.
structure MaximalRun (P : Char → Prop) (run rest : List Char) : Prop where
  all  : ∀ c ∈ run, P c
  ends : ∀ c ∈ rest.head?, ¬P c

inductive Piece
  | blank (c : Char)
  | mark (c : Char) (m : Mark)
  | number (whole : List Char) (fraction : Option (List Char)) -- no fraction without a point
  | name (letters : List Char)

namespace Piece

def text : Piece → List Char
  | blank c | mark c _           => [c]
  | number whole none            => whole
  | number whole (some fraction) => whole ++ '.' :: fraction
  | name letters                 => letters

def token? : Piece → Option Token
  | blank _               => none
  | mark _ m              => some (.mark m)
  | number whole fraction => some (.number (.ofLiteral whole (fraction.getD [])))
  | name letters          => some (.name (.ofList letters))

-- Whether the piece is a number that is too great to be finite.
def overflows : Piece → Bool
  | number whole fraction => !(Number.ofLiteral whole (fraction.getD [])).isFinite
  | _                     => false

-- The pieces that may stand before `rest`.
inductive Fits (rest : List Char) : Piece → Prop
  | blank {c} : c ∈ blanks → Fits rest (.blank c)
  | mark {c m} : (c, m) ∈ marks → Fits rest (.mark c m)
  | whole {whole} :
    whole ≠ [] → MaximalRun (· ∈ digits) whole rest → rest.head? ≠ some '.' →
    Fits rest (.number whole none)
  | decimal {whole fraction} :
    whole ≠ [] → (∀ c ∈ whole, c ∈ digits) → MaximalRun (· ∈ digits) fraction rest →
    Fits rest (.number whole (some fraction))
  | name {letters} : letters ≠ [] → MaximalRun Letter letters rest → Fits rest (.name letters)

end Piece

inductive Pieces : List Char → List Piece → Prop
  | nil : Pieces [] []
  | cons {p ps rest} : p.Fits rest → Pieces rest ps → Pieces (p.text ++ rest) (p :: ps)

-- The line that a text ends on.
def lineAfter (text : List Char) : Nat := 1 + text.count '\n'

-- The tokens of pieces that stand after the text `before`, and the mark at the end.
def lexemesAfter (before : List Char) : List Piece → List Lexeme
  | []      => [⟨.mark .finish, lineAfter before⟩]
  | p :: ps =>
    (p.token?.map (⟨·, lineAfter before⟩)).toList ++ lexemesAfter (before ++ p.text) ps

variable {c : Char} {m : Mark} {cs run rest text before : List Char} {P : Char → Prop} {p : Piece}
  {ps : List Piece} {line : Nat}

theorem isBlank_iff : isBlank c ↔ c ∈ blanks := by
  simp [isBlank, blanks, Char.le_def, UInt32.le_iff_toNat_le, Char.ext_iff, ← UInt32.toNat_inj]
  omega

theorem isDigit_iff : c.isDigit ↔ c ∈ digits := by
  simp [Char.isDigit, digits, UInt32.le_iff_toNat_le, Char.ext_iff, ← UInt32.toNat_inj]
  omega

theorem ofChar?_eq_some_iff : Mark.ofChar? c = some m ↔ (c, m) ∈ marks := by
  unfold Mark.ofChar? Operator.ofChar?
  constructor
  case mp =>
    intro h
    split at h
    case _ | _ | _ | _ => cases h; decide
    case _ => split at h <;> cases h <;> decide
  case mpr =>
    intro h
    simp only [marks, List.mem_cons, Prod.mk.injEq, List.not_mem_nil, or_false] at h
    grind

theorem ofChar?_eq_none_iff : Mark.ofChar? c = none ↔ ∀ m, (c, m) ∉ marks := by
  simp [Option.eq_none_iff_forall_ne_some, ofChar?_eq_some_iff]

theorem newline_blank : '\n' ∈ blanks := by decide

theorem not_blank_of_digit : ∀ c ∈ digits, c ∉ blanks := by
  simp [digits, blanks]

theorem not_blank_of_mark : ∀ entry ∈ marks, entry.1 ∉ blanks := by
  simp [marks, blanks]

theorem mark_ne_finish : ∀ entry ∈ marks, entry.2 ≠ .finish ∧ entry.2 ≠ .blank := by
  simp [marks]

theorem not_digit_of_mark : ∀ entry ∈ marks, entry.1 ∉ digits := by
  simp [marks, digits]

theorem isLetter_iff : isLetter c ↔ Letter c := by
  simp [isLetter_iff_not_other, Letter, ← isBlank_iff, ← isDigit_iff, ← ofChar?_eq_none_iff]

namespace MaximalRun

variable {p : Char → Bool}

theorem cons (hc : P c) (h : MaximalRun P run rest) : MaximalRun P (c :: run) rest where
  all  := List.forall_mem_cons.mpr ⟨hc, h.all⟩
  ends := h.ends

theorem takeWhile_dropWhile (hp : ∀ c, p c ↔ P c) :
    MaximalRun P (cs.takeWhile p) (cs.dropWhile p) where
  all c hc  := (hp c).mp (List.mem_takeWhile_imp hc)
  ends c hc := by
    have h := List.head?_dropWhile_not p cs
    rw [hc] at h
    simp [← hp, h]

theorem tail (h : MaximalRun P (c :: run) rest) : MaximalRun P run rest where
  all c hc := h.all c (List.mem_cons_of_mem _ hc)
  ends     := h.ends

theorem takeWhile_append (h : MaximalRun P run rest) (p : Char → Bool) (hp : ∀ c, p c ↔ P c) :
    (run ++ rest).takeWhile p = run := by
  rw [List.takeWhile_append_of_pos fun c hc => (hp c).mpr (h.all c hc)]
  cases rest
  case nil       => simp
  case cons c cs => simpa [hp] using h.ends c

theorem dropWhile_append (h : MaximalRun P run rest) (p : Char → Bool) (hp : ∀ c, p c ↔ P c) :
    (run ++ rest).dropWhile p = rest := by
  rw [List.dropWhile_append_of_pos fun c hc => (hp c).mpr (h.all c hc)]
  cases rest
  case nil       => simp
  case cons c cs => simpa [← hp] using h.ends c

end MaximalRun

theorem classes (c : Char) : c ∈ blanks ∨ c ∈ digits ∨ (∃ m, (c, m) ∈ marks) ∨ Letter c := by
  by_cases hm : ∃ m, (c, m) ∈ marks
  case pos => exact .inr (.inr (.inl hm))
  case neg =>
    rw [not_exists] at hm
    by_cases hb : c ∈ blanks
    case pos => exact .inl hb
    case neg =>
      by_cases hd : c ∈ digits
      case pos => exact .inr (.inl hd)
      case neg => exact .inr (.inr (.inr ⟨hb, hd, hm⟩))

namespace Piece

-- The number whose digits before the point are `whole`, and what comes after it.
def numberFront (whole : List Char) : List Char → Piece × List Char
  | '.' :: cs => (.number whole (some (cs.takeWhile Char.isDigit)), cs.dropWhile Char.isDigit)
  | cs        => (.number whole none, cs)

-- The piece at the front of a text that begins with `c`, and what comes after it.
def front (c : Char) (cs : List Char) : Piece × List Char :=
  if isBlank c then (.blank c, cs)
  else if c.isDigit then
    numberFront (c :: cs.takeWhile Char.isDigit) (cs.dropWhile Char.isDigit)
  else match Mark.ofChar? c with
    | some m => (.mark c m, cs)
    | none   => (.name (c :: cs.takeWhile isLetter), cs.dropWhile isLetter)

theorem numberFront_whole (h : rest.head? ≠ some '.') :
    numberFront run rest = (.number run none, rest) := by
  unfold numberFront
  split
  case _ => exact absurd rfl h
  case _ => rfl

theorem front_blank (h : c ∈ blanks) : front c cs = (.blank c, cs) := by
  simp [front, isBlank_iff, h]

theorem front_digit (h : c ∈ digits) :
    front c cs = numberFront (c :: cs.takeWhile Char.isDigit) (cs.dropWhile Char.isDigit) := by
  simp [front, isBlank_iff, isDigit_iff, not_blank_of_digit c h, h]

theorem front_mark (h : (c, m) ∈ marks) : front c cs = (.mark c m, cs) := by
  have hb := not_blank_of_mark _ h
  have hd := not_digit_of_mark _ h
  simp [front, isBlank_iff, isDigit_iff, hb, hd, ofChar?_eq_some_iff.mpr h]

theorem front_letter (h : Letter c) :
    front c cs = (.name (c :: cs.takeWhile isLetter), cs.dropWhile isLetter) := by
  have ⟨hb, hd, hm⟩ := h
  simp [front, isBlank_iff, isDigit_iff, hb, hd, ofChar?_eq_none_iff.mpr hm]

theorem numberFront_append :
    (numberFront run rest).1.text ++ (numberFront run rest).2 = run ++ rest := by
  unfold numberFront
  split <;> simp [text]

theorem front_append : (front c cs).1.text ++ (front c cs).2 = c :: cs := by
  obtain h | h | ⟨m, h⟩ | h := classes c
  case inl         => simp [front_blank h, text]
  case inr.inl     => simp [front_digit h, numberFront_append]
  case inr.inr.inl => simp [front_mark h, text]
  case inr.inr.inr => simp [front_letter h, text]

theorem numberFront_fits (hw : run ≠ []) (hr : MaximalRun (· ∈ digits) run rest) :
    (numberFront run rest).1.Fits (numberFront run rest).2 := by
  by_cases hp : rest.head? = some '.'
  case pos =>
    have ⟨cs, h⟩ := List.head?_eq_some_iff.mp hp
    subst h
    exact .decimal hw hr.all (.takeWhile_dropWhile fun _ => isDigit_iff)
  case neg =>
    rw [numberFront_whole hp]
    exact .whole hw hr hp

theorem front_fits : (front c cs).1.Fits (front c cs).2 := by
  obtain h | h | ⟨m, h⟩ | h := classes c
  case inl =>
    rw [front_blank h]
    exact .blank h
  case inr.inl =>
    rw [front_digit h]
    exact numberFront_fits (List.cons_ne_nil _ _)
      (.cons h (.takeWhile_dropWhile fun _ => isDigit_iff))
  case inr.inr.inl =>
    rw [front_mark h]
    exact .mark h
  case inr.inr.inr =>
    rw [front_letter h]
    exact .name (List.cons_ne_nil _ _) (.cons h (.takeWhile_dropWhile fun _ => isLetter_iff))

theorem Fits.front_eq (h : p.Fits rest) (ht : p.text ++ rest = c :: cs) :
    front c cs = (p, rest) := by
  cases h
  case blank h =>
    simp only [text, List.cons_append, List.nil_append, List.cons.injEq] at ht
    obtain ⟨rfl, rfl⟩ := ht
    exact front_blank h
  case mark h =>
    simp only [text, List.cons_append, List.nil_append, List.cons.injEq] at ht
    obtain ⟨rfl, rfl⟩ := ht
    exact front_mark h
  case whole hw hr hp =>
    obtain ⟨d, whole, rfl⟩ := List.exists_cons_of_ne_nil hw
    simp only [text, List.cons_append, List.cons.injEq] at ht
    obtain ⟨rfl, rfl⟩ := ht
    rw [front_digit (hr.all d List.mem_cons_self),
      hr.tail.takeWhile_append Char.isDigit fun _ => isDigit_iff,
      hr.tail.dropWhile_append Char.isDigit fun _ => isDigit_iff, numberFront_whole hp]
  case decimal fraction hw ha hr =>
    obtain ⟨d, whole, rfl⟩ := List.exists_cons_of_ne_nil hw
    simp only [text, List.cons_append, List.append_assoc, List.cons.injEq] at ht
    obtain ⟨rfl, rfl⟩ := ht
    rw [List.forall_mem_cons] at ha
    have hp : MaximalRun (· ∈ digits) whole ('.' :: (fraction ++ rest)) :=
      ⟨ha.right, by simp [digits]⟩
    rw [front_digit ha.left, hp.takeWhile_append Char.isDigit fun _ => isDigit_iff,
      hp.dropWhile_append Char.isDigit fun _ => isDigit_iff, numberFront,
      hr.takeWhile_append Char.isDigit fun _ => isDigit_iff,
      hr.dropWhile_append Char.isDigit fun _ => isDigit_iff]
  case name hl hr =>
    obtain ⟨d, letters, rfl⟩ := List.exists_cons_of_ne_nil hl
    simp only [text, List.cons_append, List.cons.injEq] at ht
    obtain ⟨rfl, rfl⟩ := ht
    rw [front_letter (hr.all d List.mem_cons_self),
      hr.tail.takeWhile_append isLetter fun _ => isLetter_iff,
      hr.tail.dropWhile_append isLetter fun _ => isLetter_iff]

theorem Fits.text_ne_nil (h : p.Fits rest) : p.text ≠ [] := by
  cases h <;> simp_all [text]

theorem Fits.append_eq_cons (h : p.Fits rest) : ∃ c cs, p.text ++ rest = c :: cs :=
  List.exists_cons_of_ne_nil (List.append_ne_nil_of_left_ne_nil h.text_ne_nil rest)

theorem Fits.token?_ne {t : Token} (h : p.Fits rest) (ht : p.token? = some t) :
    t ≠ .mark .finish ∧ t ≠ .mark .blank := by
  cases h
  case blank                  => cases ht
  case mark h                 => cases ht; simpa using mark_ne_finish _ h
  case whole | decimal | name => cases ht; exact ⟨nofun, nofun⟩

-- Every line that a piece ends is ended by a blank.
def newlines : Piece → Nat
  | blank c => if c = '\n' then 1 else 0
  | _       => 0

theorem Fits.count_newline (h : p.Fits rest) : p.text.count '\n' = p.newlines := by
  have digit {run : List Char} (h : ∀ c ∈ run, c ∈ digits) : run.count '\n' = 0 :=
    List.count_eq_zero.mpr fun hc => not_blank_of_digit _ (h _ hc) newline_blank
  cases h
  case blank c _ => by_cases hc : c = '\n' <;> simp [text, newlines, hc]
  case mark c m h =>
    have hc : c ≠ '\n' := fun hc => not_blank_of_mark _ h (hc ▸ newline_blank)
    simp [text, newlines, hc]
  case whole hr _      => exact digit hr.all
  case decimal _ hw hr => simp [text, newlines, digit hw, digit hr.all]
  case name _ hr       => exact List.count_eq_zero.mpr fun h => (hr.all _ h).left newline_blank

-- The tokens that scanning makes of a piece on a line.
def scanned (line : Nat) (p : Piece) : Except LexError (List Lexeme) :=
  if p.overflows then .error ⟨.overflow (.ofList p.text), line⟩
  else .ok (p.token?.map (⟨·, line⟩)).toList

theorem numberFront_scanned (hw : run ≠ []) (hd : ∀ c ∈ run, c ∈ digits) :
    (numberFront run rest).1.scanned line =
      (fun t => [t]) <$> Lexeme.number (run ++ fraction rest) line := by
  rw [Lexeme.number_eq hw fun c hc => isDigit_iff.mpr (hd c hc)]
  unfold numberFront fraction
  split <;> simp [scanned, overflows, token?, text, apply_ite]

theorem numberFront_rest : (numberFront run rest).2 = afterFraction rest := by
  unfold numberFront afterFraction
  split <;> simp

theorem numberFront_newlines : (numberFront run rest).1.newlines = 0 := by
  unfold numberFront
  split <;> rfl

theorem scanFrom_front :
    scanFrom line (c :: cs) = (front c cs).1.scanned line >>= fun ts =>
      (ts ++ ·) <$> scanFrom (line + (front c cs).1.newlines) (front c cs).2 := by
  rw [scanFrom]
  obtain h | h | ⟨m, h⟩ | h := classes c
  case inl =>
    have hl : line + (blank c).newlines = if c = '\n' then line + 1 else line := by
      by_cases hc : c = '\n' <;> simp [newlines, hc]
    rw [if_pos (isBlank_iff.mpr h), front_blank h, hl]
    cases scanFrom (if c = '\n' then line + 1 else line) cs <;> rfl
  case inr.inl =>
    have hd : ∀ d ∈ c :: cs.takeWhile Char.isDigit, d ∈ digits :=
      List.forall_mem_cons.mpr ⟨h, fun _ hd => isDigit_iff.mp (List.mem_takeWhile_imp hd)⟩
    rw [if_neg (mt isBlank_iff.mp (not_blank_of_digit c h)), if_pos (isDigit_iff.mpr h),
      front_digit h, numberFront_scanned (List.cons_ne_nil _ _) hd, numberFront_rest,
      numberFront_newlines]
    dsimp only
    cases Lexeme.number _ line <;> rfl
  case inr.inr.inl =>
    have hl : ¬Letter c := fun hl => hl.right.right m h
    rw [if_neg (mt isBlank_iff.mp (not_blank_of_mark _ h)),
      if_neg (mt isDigit_iff.mp (not_digit_of_mark _ h)), if_neg (mt isLetter_iff.mp hl),
      ofChar?_eq_some_iff.mpr h, front_mark h]
    rfl
  case inr.inr.inr =>
    rw [if_neg (mt isBlank_iff.mp h.left), if_neg (mt isDigit_iff.mp h.right.left),
      if_pos (isLetter_iff.mpr h), front_letter h]
    rfl

end Piece

namespace Pieces

theorem nil_inv (h : Pieces [] ps) : ps = [] := by
  generalize ht : [] = text at h
  cases h
  case nil       => rfl
  case cons hf _ => exact absurd (List.append_eq_nil_iff.mp ht.symm).left hf.text_ne_nil

theorem cons_inv (h : Pieces (c :: cs) ps) :
    ∃ ps', ps = (Piece.front c cs).1 :: ps' ∧ Pieces (Piece.front c cs).2 ps' := by
  generalize ht : c :: cs = text at h
  cases h
  case nil        => cases ht
  case cons hf hr => rw [hf.front_eq ht.symm]; exact ⟨_, rfl, hr⟩

theorem unique {ps' : List Piece} (h : Pieces text ps) (h' : Pieces text ps') : ps' = ps := by
  induction h generalizing ps'
  case nil => exact h'.nil_inv
  case cons hf _ hi =>
    obtain ⟨c, cs, ht⟩ := hf.append_eq_cons
    rw [ht] at h'
    have ⟨_, hp, hr⟩ := h'.cons_inv
    rw [hf.front_eq ht] at hp hr
    rw [hp, hi hr]

theorem exist (text : List Char) : ∃ ps, Pieces text ps := by
  induction hn : text.length using Nat.strongRecOn generalizing text
  case ind n hi =>
    subst hn
    match text with
    | [] => exact ⟨[], .nil⟩
    | c :: cs =>
      have hf : (Piece.front c cs).1.Fits (Piece.front c cs).2 := Piece.front_fits
      have ht : (Piece.front c cs).1.text ++ (Piece.front c cs).2 = c :: cs := Piece.front_append
      have hl : (Piece.front c cs).2.length < (c :: cs).length := by
        have := List.length_pos_iff.mpr hf.text_ne_nil
        rw [← ht, List.length_append]
        omega
      have ⟨ps, hr⟩ := hi _ hl _ rfl
      have h : Pieces (c :: cs) ((Piece.front c cs).1 :: ps) := ht ▸ Pieces.cons hf hr
      exact ⟨_, h⟩

end Pieces

theorem lineAfter_append : lineAfter (before ++ text) = lineAfter before + text.count '\n' := by
  simp [lineAfter, Nat.add_assoc]

theorem Piece.Fits.scanFrom_eq (h : p.Fits rest) :
    scanFrom (lineAfter before) (p.text ++ rest) = p.scanned (lineAfter before) >>= fun ts =>
      (ts ++ ·) <$> scanFrom (lineAfter (before ++ p.text)) rest := by
  obtain ⟨c, cs, ht⟩ := h.append_eq_cons
  rw [lineAfter_append, h.count_newline, ht, Piece.scanFrom_front, h.front_eq ht]

theorem Piece.scanned_ok (h : p.overflows = false) :
    p.scanned line = .ok (p.token?.map (⟨·, line⟩)).toList := by
  simp [scanned, h]

theorem Piece.scanned_error (h : p.overflows = true) :
    p.scanned line = .error ⟨.overflow (.ofList p.text), line⟩ := by
  simp [scanned, h]

namespace Pieces

theorem scanFrom_ok (before : List Char) (h : Pieces text ps)
    (ho : ∀ p ∈ ps, p.overflows = false) :
    scanFrom (lineAfter before) text = .ok (lexemesAfter before ps) := by
  induction h generalizing before
  case nil => rw [scanFrom, lexemesAfter]
  case cons hf _ hi =>
    rw [List.forall_mem_cons] at ho
    rw [hf.scanFrom_eq, Piece.scanned_ok ho.left, hi _ ho.right]
    rfl

theorem scanFrom_error (before : List Char) {done : List Piece} (h : Pieces text (done ++ p :: ps))
    (hd : ∀ q ∈ done, q.overflows = false) (hp : p.overflows = true) :
    scanFrom (lineAfter before) text =
      .error ⟨.overflow (.ofList p.text), lineAfter (before ++ done.flatMap Piece.text)⟩ := by
  induction done generalizing before text
  case nil =>
    cases h
    case cons hf _ =>
      rw [hf.scanFrom_eq, Piece.scanned_error hp, List.flatMap_nil, List.append_nil]
      rfl
  case cons hi =>
    rw [List.forall_mem_cons] at hd
    cases h
    case cons hf hr =>
      rw [hf.scanFrom_eq, Piece.scanned_ok hd.left, hi _ hr hd.right, List.flatMap_cons,
        List.append_assoc]
      rfl

theorem exists_first_overflow (h : ¬∀ p ∈ ps, p.overflows = false) :
    ∃ done p rest, ps = done ++ p :: rest ∧ (∀ q ∈ done, q.overflows = false) ∧
      p.overflows = true := by
  have hp : ∃ p ∈ ps, p.overflows := by simpa using h
  have ⟨p, hf⟩ := Option.isSome_iff_exists.mp (List.find?_isSome.mpr hp)
  have ⟨ho, done, rest, hs, hd⟩ := List.find?_eq_some_iff_append.mp hf
  exact ⟨done, p, rest, hs, by simpa using hd, ho⟩

theorem lexemesAfter_finish (before : List Char) (h : Pieces text ps) :
    ∃ ts, lexemesAfter before ps = ts ++ [⟨.mark .finish, lineAfter (before ++ text)⟩] ∧
      ∀ t ∈ ts, t.value ≠ .mark .finish ∧ t.value ≠ .mark .blank := by
  induction h generalizing before
  case nil => exact ⟨[], by rw [List.append_nil]; rfl, nofun⟩
  case cons p _ _ hf _ hi =>
    have ⟨ts, ht, hs⟩ := hi (before ++ p.text)
    refine ⟨(p.token?.map (⟨·, lineAfter before⟩)).toList ++ ts, ?_, fun t hm => ?_⟩
    case refine_1 => rw [lexemesAfter, ht, List.append_assoc, List.append_assoc]
    case refine_2 =>
      refine (List.mem_append.mp hm).elim (fun hm => ?_) (hs t)
      have ⟨token, hp, ht⟩ := Option.map_eq_some_iff.mp (Option.mem_toList.mp hm)
      rw [← ht]
      exact hf.token?_ne hp

variable {source : String} {done : List Piece}

theorem scan_ok (h : Pieces source.toList ps) (ho : ∀ p ∈ ps, p.overflows = false) :
    scan source = .ok (lexemesAfter [] ps) :=
  scan_eq_ok (h.scanFrom_ok [] ho)

theorem scan_error (h : Pieces source.toList (done ++ p :: ps))
    (hd : ∀ q ∈ done, q.overflows = false) (hp : p.overflows = true) :
    scan source = .error ⟨.overflow (.ofList p.text), lineAfter (done.flatMap Piece.text)⟩ :=
  scan_eq_error (h.scanFrom_error [] hd hp)

theorem ok_of_scan {ts : List Lexeme} (h : Pieces source.toList ps) (hs : scan source = .ok ts) :
    (∀ p ∈ ps, p.overflows = false) ∧ ts = lexemesAfter [] ps := by
  by_cases ho : ∀ p ∈ ps, p.overflows = false
  case pos =>
    cases hs.symm.trans (h.scan_ok ho)
    exact ⟨ho, rfl⟩
  case neg =>
    obtain ⟨done, p, rest, rfl, hd, hp⟩ := exists_first_overflow ho
    cases hs.symm.trans (h.scan_error hd hp)

theorem error_of_scan {e : SyntaxError} (h : Pieces source.toList ps) (hs : scan source = .error e) :
    ∃ done p rest, ps = done ++ p :: rest ∧ (∀ q ∈ done, q.overflows = false) ∧ p.overflows = true ∧
      e = ⟨.overflow (.ofList p.text), lineAfter (done.flatMap Piece.text)⟩ := by
  by_cases ho : ∀ p ∈ ps, p.overflows = false
  case pos => cases hs.symm.trans (h.scan_ok ho)
  case neg =>
    obtain ⟨done, p, rest, rfl, hd, hp⟩ := exists_first_overflow ho
    cases hs.symm.trans (h.scan_error hd hp)
    exact ⟨done, p, rest, rfl, hd, hp, rfl⟩

theorem flatMap_text (h : Pieces text ps) : ps.flatMap Piece.text = text := by
  induction h
  case nil     => rfl
  case cons hi => rw [List.flatMap_cons, hi]

end Pieces

-- Scanning gives the tokens of the pieces of a text, unless one of them overflows. Then it fails, at
-- the first one that does. It leaves no token unrecognized.
theorem scan_reads_pieces (source : String) :
    ∃ ps, Pieces source.toList ps ∧ (∀ ps', Pieces source.toList ps' → ps' = ps) ∧
      ((∀ p ∈ ps, p.overflows = false) → scan source = .ok (lexemesAfter [] ps)) ∧
      (∀ done p rest, ps = done ++ p :: rest → (∀ q ∈ done, q.overflows = false) →
        p.overflows = true →
        scan source = .error ⟨.overflow (.ofList p.text), lineAfter (done.flatMap Piece.text)⟩) ∧
      ((∃ e, scan source = .error e) ↔ ∃ p ∈ ps, p.overflows = true) ∧
      (∀ token line, scanFrom 1 source.toList ≠ .error ⟨.unrecognized token, line⟩) ∧
      ∃ ts, lexemesAfter [] ps = ts ++ [⟨.mark .finish, lineAfter source.toList⟩] ∧
        ∀ t ∈ ts, t.value ≠ .mark .finish ∧ t.value ≠ .mark .blank := by
  have ⟨ps, h⟩ := Pieces.exist source.toList
  have hok : (∀ p ∈ ps, p.overflows = false) → scan source = .ok (lexemesAfter [] ps) := h.scan_ok
  have herror (done : List Piece) (p : Piece) (rest : List Piece) (hp : ps = done ++ p :: rest) :
      (∀ q ∈ done, q.overflows = false) → p.overflows = true →
      scan source = .error ⟨.overflow (.ofList p.text), lineAfter (done.flatMap Piece.text)⟩ :=
    (hp ▸ h).scan_error
  refine ⟨ps, h, fun _ => h.unique, hok, herror, ⟨fun ⟨e, he⟩ => ?_, fun hp => ?_⟩,
    fun _ _ => scanFrom_ne_unrecognized, h.lexemesAfter_finish []⟩
  case refine_1 =>
    by_contra hn
    have ho : ∀ p ∈ ps, p.overflows = false := by simpa using hn
    cases he.symm.trans (hok ho)
  case refine_2 =>
    have ⟨p, hf⟩ := Option.isSome_iff_exists.mp (List.find?_isSome.mpr hp)
    have ⟨ho, done, rest, hp, hd⟩ := List.find?_eq_some_iff_append.mp hf
    exact ⟨_, herror done p rest hp (by simpa using hd) ho⟩

end Calculator
