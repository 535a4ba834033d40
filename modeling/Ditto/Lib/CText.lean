-- The string functions of C++ that small parsers are made of: `strpbrk` and
-- `stoi`. A position in a text is an index, and what the language leaves
-- undefined is `none`.
import Ditto.Lib.PyText
import Ditto.Lib.Text
import Mathlib.Algebra.Group.Int.Defs
import Mathlib.Algebra.Group.Nat.Defs
import Mathlib.Data.List.TakeWhile

namespace CText

/-! ## The functions -/

/-- The characters that a C string holds: those in front of the first zero. -/
def c_str (s : List Char) : List Char := s.takeWhile (· ≠ '\x00')

/-- The model of `strpbrk`: the first position from `i` on with a character of `set`. -/
def strpbrk (set s : List Char) (i : ℕ) : Option ℕ :=
  ((s.drop i).findIdx? (· ∈ set)).map (i + ·)

/-- The white space of `isspace` in the C locale. -/
def isspace (c : Char) : Bool := c = ' ' ∨ 9 ≤ c.toNat ∧ c.toNat ≤ 13

/-- The value of the digits that a text starts with, if it starts with one. -/
def leadingDigits (s : List Char) : Option ℕ :=
  let digits := s.takeWhile Char.isDigit
  if digits = [] then none else some (Nat.ofDigitChars 10 digits 0)

/-- The number that a text starts with, behind white space and a sign. -/
def strtol (s : List Char) : Option ℤ :=
  match s.dropWhile isspace with
  | '-' :: t => (leadingDigits t).map fun n => -(n : ℤ)
  | '+' :: t => (leadingDigits t).map fun n => (n : ℤ)
  | t => (leadingDigits t).map fun n => (n : ℤ)

/-- The model of `stoi`, which throws where the text starts with no number or with one that
is not an `int`. -/
def stoi (s : List Char) : Option ℤ :=
  (strtol s).filter fun n => -2 ^ 31 ≤ n ∧ n < 2 ^ 31

/-! ## Their results -/

theorem c_str_eq_self {s : List Char} (h : '\x00' ∉ s) : c_str s = s := by
  have hall : ∀ c ∈ s, decide (c ≠ '\x00') = true := by
    intro c hc
    simpa using ne_of_mem_of_not_mem hc h
  simpa [c_str] using List.takeWhile_eq_self_iff.mpr hall

theorem strpbrk_of_split {set s t u : List Char} {i : ℕ} {c : Char} (hs : s.drop i = t ++ c :: u)
    (ht : ∀ d ∈ t, d ∉ set) (hc : c ∈ set) : strpbrk set s i = some (i + t.length) := by
  have hfind : t.findIdx? (· ∈ set) = none := by simpa using ht
  simp [strpbrk, hs, List.findIdx?_append, hfind, List.findIdx?_cons, hc]

theorem strpbrk_of_forall {set s : List Char} {i : ℕ} (h : ∀ d ∈ s.drop i, d ∉ set) :
    strpbrk set s i = none := by
  simpa [strpbrk] using h

theorem leadingDigits_repr (n : ℕ) : leadingDigits n.repr.toList = some n := by
  have htake : n.repr.toList.takeWhile Char.isDigit = n.repr.toList := by
    simpa using Text.takeWhile_repr n (by simp [Text.NoDigit] : Text.NoDigit [])
  have hvalue : Nat.ofDigitChars 10 n.repr.toList 0 = n := by
    rw [Nat.toList_repr]
    exact Nat.ofDigitChars_toDigits (by decide) (by decide)
  simp only [leadingDigits, htake, hvalue]
  rw [if_neg (PyText.repr_ne_nil n)]

/-- A printed number that is an `int` reads back as itself. -/
theorem stoi_repr {n : ℕ} (h : n < 2 ^ 31) : stoi n.repr.toList = some (n : ℤ) := by
  have hdigit : ∀ c ∈ n.repr.toList, c.isDigit = true := fun c => PyText.isDigit_of_mem_repr
  have htol : strtol n.repr.toList = some (n : ℤ) := by
    have hdrop : n.repr.toList.dropWhile isspace = n.repr.toList := by
      refine List.dropWhile_eq_self_iff.mpr fun hlen => ?_
      have hc := PyText.toNat_of_isDigit (hdigit _ (List.getElem_mem hlen))
      generalize n.repr.toList[0] = c at hc
      simp only [isspace, decide_eq_true_eq, not_or, not_and]
      refine ⟨?_, fun _ => by omega⟩
      rintro rfl
      exact absurd hc.1 (by decide)
    unfold strtol
    rw [hdrop]
    split
    · rename_i heq
      exact absurd (hdigit '-' (by simp [heq])) (by decide)
    · rename_i heq
      exact absurd (hdigit '+' (by simp [heq])) (by decide)
    · rw [leadingDigits_repr]
      rfl
  simp only [stoi, htol, Option.filter_some]
  rw [if_pos (by simp; omega)]

end CText
