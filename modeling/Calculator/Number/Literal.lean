import Calculator.Number.Nearest

/-!
# Literals

A literal is a run of digits, with or without a point and a run of digits after it. Its value is the
number nearest to the decimal it writes, and an infinity when it is too great for a finite number.
-/

namespace Calculator.Number

def ofDigits (digits : List Char) : Nat :=
  digits.foldl (fun value digit => 10 * value + (digit.toNat - '0'.toNat)) 0

def ofLiteral (whole fraction : List Char) : Number :=
  nearest (ofDigits (whole ++ fraction) / (10 : Rat) ^ fraction.length)

-- Reads digits, of which there is at least one, and a point that may stand anywhere among them. Signs
-- and exponents, which no literal has, are not read.
def ofText? (text : List Char) : Option Number :=
  let whole := text.takeWhile Char.isDigit
  match text.dropWhile Char.isDigit with
  | []              => if whole = [] then none else some (ofLiteral whole [])
  | '.' :: fraction =>
    if whole ++ fraction ≠ [] ∧ fraction.all Char.isDigit then some (ofLiteral whole fraction) else none
  | _               => none

variable {whole fraction : List Char}

theorem ofText?_whole (hw : whole ≠ []) (hd : ∀ c ∈ whole, c.isDigit) :
    ofText? whole = some (ofLiteral whole []) := by
  have ht : (whole ++ []).takeWhile Char.isDigit = whole := by
    rw [List.takeWhile_append_of_pos hd, List.takeWhile_nil, List.append_nil]
  have hr : (whole ++ []).dropWhile Char.isDigit = [] := List.dropWhile_append_of_pos hd
  rw [List.append_nil] at ht hr
  simp [ofText?, ht, hr, hw]

theorem ofText?_decimal (hw : whole ≠ []) (hd : ∀ c ∈ whole, c.isDigit)
    (hf : ∀ c ∈ fraction, c.isDigit) :
    ofText? (whole ++ '.' :: fraction) = some (ofLiteral whole fraction) := by
  have ht : (whole ++ '.' :: fraction).takeWhile Char.isDigit = whole := by
    simp [List.takeWhile_append_of_pos hd]
  have hr : (whole ++ '.' :: fraction).dropWhile Char.isDigit = '.' :: fraction := by
    simp [List.dropWhile_append_of_pos hd]
  simpa [ofText?, ht, hr, hw] using hf

end Calculator.Number
