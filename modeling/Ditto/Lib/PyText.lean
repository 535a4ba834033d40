-- Texts as Python takes them apart: `text in s`, `s.split(sep)` and the numbers
-- in a text. `int(s)` takes off the white space at both ends, and allows a sign
-- and single underscores between the digits. The decimal text of a number reads
-- back as the number.
import Ditto.Lib.PyDict
import Ditto.Lib.Text
import Mathlib.Data.Int.Notation
import Mathlib.Data.List.Infix

namespace PyText

/-! ## Characters -/

/-- The zeros of the decimal digits of Unicode. -/
def ZEROS : List ℕ :=
  [0x30, 0x660, 0x6F0, 0x7C0, 0x966, 0x9E6, 0xA66, 0xAE6, 0xB66, 0xBE6, 0xC66, 0xCE6, 0xD66, 0xDE6,
   0xE50, 0xED0, 0xF20, 0x1040, 0x1090, 0x17E0, 0x1810, 0x1946, 0x19D0, 0x1A80, 0x1A90, 0x1B50,
   0x1BB0, 0x1C40, 0x1C50, 0xA620, 0xA8D0, 0xA900, 0xA9D0, 0xA9F0, 0xAA50, 0xABF0, 0xFF10, 0x104A0,
   0x10D30, 0x11066, 0x110F0, 0x11136, 0x111D0, 0x112F0, 0x11450, 0x114D0, 0x11650, 0x116C0,
   0x11730, 0x118E0, 0x11950, 0x11C50, 0x11D50, 0x11DA0, 0x11F50, 0x16A60, 0x16AC0, 0x16B50,
   0x1D7CE, 0x1D7D8, 0x1D7E2, 0x1D7EC, 0x1D7F6, 0x1E140, 0x1E2F0, 0x1E4F0, 0x1E950, 0x1FBF0]

/-- The value of a decimal digit. -/
def decimal? (c : Char) : Option ℕ :=
  (ZEROS.find? fun z => z ≤ c.toNat ∧ c.toNat < z + 10).map fun z => c.toNat - z

/-- The white space that may stand around a number. -/
def isSpace (c : Char) : Bool :=
  (9 ≤ c.toNat && c.toNat ≤ 13) || c.toNat = 0x20 || c.toNat = 0x85 ||
    c.toNat = 0xA0 || c.toNat = 0x1680 || (0x2000 ≤ c.toNat && c.toNat ≤ 0x200A) ||
    c.toNat = 0x2028 || c.toNat = 0x2029 || c.toNat = 0x202F || c.toNat = 0x205F ||
    c.toNat = 0x3000

/-- A text without the white space at its ends. -/
def strip (s : List Char) : List Char := ((s.dropWhile isSpace).reverse.dropWhile isSpace).reverse

/-! ## Parts of a text -/

/-- The model of `text in s`. -/
def isIn (text s : List Char) : Bool := s.tails.any text.isPrefixOf

theorem isIn_iff {text s : List Char} : isIn text s = true ↔ text <:+: s := by
  unfold isIn
  rw [List.any_eq_true, List.infix_iff_prefix_suffix]
  simp only [List.mem_tails, List.isPrefixOf_iff_prefix]
  exact exists_congr fun t => and_comm

/-- The pieces of a text between the occurrences of a separator. The first `skip` characters
belong to an occurrence, and `piece` is what was read since the last one. -/
def splitFrom (sep : List Char) : ℕ → List Char → List Char → List (List Char)
  | _, piece, [] => [piece]
  | skip + 1, piece, _ :: s => splitFrom sep skip piece s
  | 0, piece, c :: s =>
    if sep.isPrefixOf (c :: s) then piece :: splitFrom sep (sep.length - 1) [] s
    else splitFrom sep 0 (piece ++ [c]) s

/-- The model of `s.split(sep)`. -/
def split (sep s : List Char) : List (List Char) := splitFrom sep 0 [] s

theorem splitFrom_of_not_mem {c : Char} {sep s : List Char} (h : c ∉ s) (piece : List Char) :
    splitFrom (c :: sep) 0 piece s = [piece ++ s] := by
  induction s generalizing piece with
  | nil => simp [splitFrom]
  | cons d s ih =>
    rw [List.mem_cons, not_or] at h
    have hprefix : (c :: sep).isPrefixOf (d :: s) = false := by
      simp [List.isPrefixOf, h.1]
    simp [splitFrom, hprefix, ih h.2]

theorem splitFrom_skip (sep s t piece : List Char) :
    splitFrom sep s.length piece (s ++ t) = splitFrom sep 0 piece t := by
  induction s with
  | nil => rfl
  | cons c s ih => simp [splitFrom, ih]

/-- The first piece ends at the first separator. -/
theorem splitFrom_append {c : Char} {sep s : List Char} (h : c ∉ s) (t piece : List Char) :
    splitFrom (c :: sep) 0 piece (s ++ (c :: sep ++ t)) =
      (piece ++ s) :: splitFrom (c :: sep) 0 [] t := by
  induction s generalizing piece with
  | nil => simp [splitFrom, splitFrom_skip]
  | cons d s ih =>
    rw [List.mem_cons, not_or] at h
    have hprefix : (c :: sep).isPrefixOf (d :: (s ++ (c :: sep ++ t))) = false := by
      simp [List.isPrefixOf, h.1]
    rw [List.cons_append, splitFrom, hprefix]
    simpa using ih h.2 (piece ++ [d])

/-- A text with one separator falls into the two pieces around it. -/
theorem split_append {c : Char} {sep s t : List Char} (hs : c ∉ s) (ht : c ∉ t) :
    split (c :: sep) (s ++ (c :: sep ++ t)) = [s, t] := by
  rw [split, splitFrom_append hs, splitFrom_of_not_mem ht]
  simp

/-! ## Digits -/

/-- The digits behind a digit, with at most one underscore in front of each. -/
def moreDigits : List Char → Option (List ℕ)
  | [] => some []
  | '_' :: c :: s => do
    let d ← decimal? c
    return d :: (← moreDigits s)
  | c :: s => do
    let d ← decimal? c
    return d :: (← moreDigits s)

/-- The digits of a number that is nothing but digits. -/
def digits? : List Char → Option (List ℕ)
  | [] => none
  | c :: s => do
    let d ← decimal? c
    return d :: (← moreDigits s)

/-- The number that the digits write. -/
def ofDigits (ds : List ℕ) : ℕ := ds.foldl (fun n d => 10 * n + d) 0

/-- The value of digits, which is an error for anything else. -/
def natural (s : List Char) : Except PyError ℕ :=
  match digits? s with
  | none => .error .valueError
  | some ds => .ok (ofDigits ds)

/-- The model of `int(s)`. -/
def int (s : List Char) : Except PyError ℤ :=
  match strip s with
  | '-' :: t => do return -(← natural t : ℕ)
  | '+' :: t => do return (← natural t : ℕ)
  | t => do return (← natural t : ℕ)

/-- The text of `%d`. -/
def ofInt (n : ℤ) : List Char := n.repr.toList

/-! ## The text of a number -/

theorem toNat_of_isDigit {c : Char} (h : c.isDigit = true) : 48 ≤ c.toNat ∧ c.toNat < 58 := by
  simp only [Char.isDigit, Bool.and_eq_true, decide_eq_true_eq] at h
  exact ⟨h.1, Nat.lt_succ_of_le h.2⟩

theorem decimal?_of_isDigit {c : Char} (h : c.isDigit = true) :
    decimal? c = some (c.toNat - 48) := by
  have hbounds := toNat_of_isDigit h
  simp [decimal?, ZEROS, hbounds]

theorem isSpace_of_isDigit {c : Char} (h : c.isDigit = true) : isSpace c = false := by
  have hbounds := toNat_of_isDigit h
  simp only [isSpace, Bool.or_eq_false_iff, Bool.and_eq_false_iff, decide_eq_false_iff_not]
  omega

theorem moreDigits_of_isDigit {s : List Char} (h : ∀ c ∈ s, c.isDigit = true) :
    moreDigits s = some (s.map fun c => c.toNat - 48) := by
  induction s with
  | nil => rfl
  | cons c s ih =>
    rw [List.forall_mem_cons] at h
    have hc : c ≠ '_' := by
      rintro rfl
      cases h.1
    unfold moreDigits
    split
    · rename_i heq
      cases heq
    · rename_i heq
      cases heq
      exact absurd rfl hc
    · rename_i heq
      cases heq
      simp [decimal?_of_isDigit h.1, ih h.2]

theorem isDigit_of_mem_repr {n : ℕ} {c : Char} (h : c ∈ n.repr.toList) : c.isDigit = true := by
  rw [Nat.toList_repr] at h
  exact Nat.isDigit_of_mem_toDigits (by decide) (by decide) h

theorem repr_ne_nil (n : ℕ) : n.repr.toList ≠ [] := by
  rw [Nat.toList_repr]
  exact Nat.toDigits_ne_nil

theorem natural_repr (n : ℕ) : natural n.repr.toList = .ok n := by
  have hdigits : digits? n.repr.toList = some (n.repr.toList.map fun c => c.toNat - 48) := by
    have hall : ∀ c ∈ n.repr.toList, c.isDigit = true := fun c => isDigit_of_mem_repr
    have hne := repr_ne_nil n
    generalize n.repr.toList = s at hall hne
    cases s with
    | nil => exact absurd rfl hne
    | cons c s =>
      rw [List.forall_mem_cons] at hall
      simp [digits?, decimal?_of_isDigit hall.1, moreDigits_of_isDigit hall.2]
  have hvalue : Nat.ofDigitChars 10 n.repr.toList 0 = n := by
    rw [Nat.toList_repr]
    exact Nat.ofDigitChars_toDigits (by decide) (by decide)
  rw [natural, hdigits]
  simp only [ofDigits, List.foldl_map]
  exact congrArg Except.ok hvalue

theorem strip_cons {c : Char} (hc : isSpace c = true) (s : List Char) : strip (c :: s) = strip s := by
  rw [strip, List.dropWhile_cons_of_pos hc, ← strip]

/-- A text without white space at its ends. -/
theorem strip_eq_self {s : List Char} (hhead : ∀ c ∈ s.head?, isSpace c = false)
    (hlast : ∀ c ∈ s.getLast?, isSpace c = false) : strip s = s := by
  have hdrop {t : List Char} (h : ∀ c ∈ t.head?, isSpace c = false) : t.dropWhile isSpace = t := by
    cases t with
    | nil => rfl
    | cons c t => exact List.dropWhile_cons_of_neg (by simp [h c rfl])
  rw [strip, hdrop hhead, hdrop, List.reverse_reverse]
  rwa [List.head?_reverse]

theorem isSpace_of_mem_ofInt {n : ℤ} {c : Char} (hc : c ∈ ofInt n) : isSpace c = false := by
  cases n with
  | ofNat m => exact isSpace_of_isDigit (isDigit_of_mem_repr hc)
  | negSucc m =>
    have hc' : c = '-' ∨ c ∈ (m + 1).repr.toList := by simpa [ofInt, Int.repr] using hc
    rcases hc' with rfl | hc'
    · decide
    · exact isSpace_of_isDigit (isDigit_of_mem_repr hc')

theorem strip_ofInt (n : ℤ) : strip (ofInt n) = ofInt n :=
  strip_eq_self (fun _ hc => isSpace_of_mem_ofInt (List.mem_of_mem_head? hc))
    (fun _ hc => isSpace_of_mem_ofInt (List.mem_of_mem_getLast? hc))

/-- A text without a sign. -/
theorem int_of_unsigned {s : List Char} (hs : strip s = s)
    (h : ∀ c ∈ s.head?, c ≠ '-' ∧ c ≠ '+') :
    int s = do return (← natural s : ℕ) := by
  unfold int
  rw [hs]
  split
  · exact absurd rfl (h '-' rfl).1
  · exact absurd rfl (h '+' rfl).2
  · rfl

/-- A printed number reads back as itself. -/
theorem int_ofInt (n : ℤ) : int (ofInt n) = .ok n := by
  cases n with
  | ofNat m =>
    have hhead : ∀ c ∈ (ofInt (Int.ofNat m)).head?, c ≠ '-' ∧ c ≠ '+' := by
      intro c hc
      have hdigit := isDigit_of_mem_repr (List.mem_of_mem_head? hc)
      constructor
      · rintro rfl
        cases hdigit
      · rintro rfl
        cases hdigit
    rw [int_of_unsigned (strip_ofInt _) hhead, ofInt, Int.repr, natural_repr]
    rfl
  | negSucc m =>
    have htext : ofInt (Int.negSucc m) = '-' :: (m + 1).repr.toList := by simp [ofInt, Int.repr]
    rw [int, strip_ofInt, htext]
    simp only [natural_repr]
    rfl

theorem int_space_ofInt (n : ℤ) : int (' ' :: ofInt n) = .ok n := by
  rw [← int_ofInt n, int, strip_cons (by decide), ← int]

end PyText
