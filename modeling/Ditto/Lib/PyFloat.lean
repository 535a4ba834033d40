-- Fractional numbers in a text, as Python reads them: `float(s)` takes off the
-- white space at both ends, and allows a sign, an exponent, single underscores
-- between digits, and names for infinity and for what is no number.
import Ditto.Lib.PyText
import Mathlib.Data.Rat.Defs

/-- The values of `float(s)`. The value of a numeral is the number that it writes. -/
inductive PyFloat where
  | finite (value : ℚ)
  | inf (negative : Bool)
  | nan

namespace PyFloat

open PyText

/-- A character as `float` looks at it, which knows ASCII only. -/
def ascii (c : Char) : Char :=
  if c.toNat < 128 then c
  else
    match decimal? c with
    | some d => Nat.digitChar d
    | none => if isSpace c then ' ' else '?'

/-- The text without its underscores, each of which has to stand between two digits. `before`
is the character in front of the text. -/
def dropUnderscores : Char → List Char → Option (List Char)
  | before, [] => if before = '_' then none else some []
  | before, c :: s =>
    if c = '_' then
      if before.isDigit then dropUnderscores c s else none
    else if before = '_' ∧ c.isDigit = false then none
    else (dropUnderscores c s).map (c :: ·)

/-- The digits at the front of a text, and what is behind them. -/
def spanDigits (s : List Char) : List Char × List Char :=
  (s.takeWhile Char.isDigit, s.dropWhile Char.isDigit)

/-- The digits behind a dot, and what is behind them. -/
def fractionDigits : List Char → List Char × List Char
  | '.' :: s => spanDigits s
  | s => ([], s)

/-- The value of an exponent, which is the rest of the text. -/
def exponent : List Char → Option ℤ
  | [] => some 0
  | c :: s =>
    if c = 'e' ∨ c = 'E' then
      let (negative, s) :=
        match s with
        | '-' :: s => (true, s)
        | '+' :: s => (false, s)
        | s => (false, s)
      let (digits, rest) := spanDigits s
      if digits = [] ∨ rest ≠ [] then none
      else
        let n : ℤ := Nat.ofDigitChars 10 digits 0
        some (if negative then -n else n)
    else none

/-- The value of a numeral without a sign. -/
def numeral (s : List Char) : Option ℚ := do
  let (whole, rest) := spanDigits s
  let (fraction, rest) := fractionDigits rest
  if whole ++ fraction = [] then none
  else
    let e ← exponent rest
    return Nat.ofDigitChars 10 (whole ++ fraction) 0 * (10 : ℚ) ^ (e - fraction.length)

/-- The value of a text without a sign. -/
def unsigned (negative : Bool) (s : List Char) : Option PyFloat :=
  let name := s.map Char.toLower
  if name = "inf".toList ∨ name = "infinity".toList then some (.inf negative)
  else if name = "nan".toList then some .nan
  else (numeral s).map fun q => .finite (if negative then -q else q)

/-- The model of `float(s)`. -/
def float (s : List Char) : Except PyError PyFloat :=
  let value := do
    match ← dropUnderscores '\x00' ((strip s).map ascii) with
    | '-' :: t => unsigned true t
    | '+' :: t => unsigned false t
    | t => unsigned false t
  match value with
  | some v => .ok v
  | none => .error .valueError

/-! ## Texts that are no numbers -/

theorem exists_strip_cons {c : Char} (hc : isSpace c = false) (s : List Char) :
    ∃ t, strip (c :: s) = c :: t := by
  have hdrop : (c :: s).dropWhile isSpace = c :: s := by simp [hc]
  rw [strip, hdrop, List.reverse_cons, List.dropWhile_append]
  split
  · exact ⟨[], by simp [hc]⟩
  · exact ⟨(s.reverse.dropWhile isSpace).reverse, by simp⟩

theorem unsigned_cons_eq_none {c : Char} (hdigit : c.isDigit = false) (hdot : c ≠ '.')
    (hname : c.toLower ∉ ['i', 'n']) (negative : Bool) (s : List Char) :
    unsigned negative (c :: s) = none := by
  simp only [List.mem_cons, List.not_mem_nil, or_false, not_or] at hname
  have hspan : spanDigits (c :: s) = ([], c :: s) := by
    simp [spanDigits, hdigit]
  have hfraction : fractionDigits (c :: s) = ([], c :: s) := by
    unfold fractionDigits
    split
    · rename_i heq
      cases heq
      exact absurd rfl hdot
    · rfl
  have hnumeral : numeral (c :: s) = none := by simp [numeral, hspan, hfraction]
  simp [unsigned, hname, hnumeral]

/-- A text that starts with a character of no number is an error. -/
theorem float_cons_eq_error {c : Char} (hascii : ascii c = c) (hspace : isSpace c = false)
    (hdigit : c.isDigit = false) (hsign : c ∉ ['+', '-', '.', '_'])
    (hname : c.toLower ∉ ['i', 'n']) (s : List Char) : float (c :: s) = .error .valueError := by
  simp only [List.mem_cons, List.not_mem_nil, or_false, not_or] at hsign
  obtain ⟨hplus, hminus, hdot, hunderscore⟩ := hsign
  obtain ⟨t, hstrip⟩ := exists_strip_cons hspace s
  have hdrop : dropUnderscores '\x00' ((strip (c :: s)).map ascii) =
      (dropUnderscores c (t.map ascii)).map (c :: ·) := by
    simp [hstrip, hascii, dropUnderscores, hunderscore]
  unfold float
  rw [hdrop]
  cases dropUnderscores c (t.map ascii) with
  | none => rfl
  | some u =>
    have hnone := unsigned_cons_eq_none hdigit hdot hname false u
    simp only [Option.map_some, Option.bind_eq_bind, Option.bind_some]
    split
    · rename_i v hv
      split at hv
      · rename_i heq
        cases heq
        exact absurd rfl hminus
      · rename_i heq
        cases heq
        exact absurd rfl hplus
      · rw [hnone] at hv
        cases hv
    · rfl

end PyFloat
