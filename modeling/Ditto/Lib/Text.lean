-- Texts as lists of items and line ends, with the string methods of Python
-- that cut a text into lines and join lines to a text. An item is never cut,
-- so the methods keep the items of a text in their order. A decimal number can
-- be read back from the characters that start with it.
import Mathlib.Data.List.Forall2
import Mathlib.Data.List.ReduceOption
import Mathlib.Tactic.Common

/-- A text over items `α`. The line end is `none`. -/
abbrev Text (α : Type) := List (Option α)

/-- Texts are compared character by character. -/
instance lawfulBEq_listChar : LawfulBEq (List Char) := List.instLawfulBEq

namespace Text

variable {α : Type}

/-- The items of a text, without its line ends. -/
def items (t : Text α) : List α := t.reduceOption

/-- A text of one line, without a line end. -/
def ofLine (l : List α) : Text α := l.map some

/-- A text of one item and a line end. -/
def line (a : α) : Text α := [some a, none]

/-- The model of `'\n'.join(ts)`. -/
def join (ts : List (Text α)) : Text α := [none].intercalate ts

/-- The model of `t.split('\n')`. -/
def split [DecidableEq α] (t : Text α) : List (List α) := (t.splitOn none).map items

/-- The model of `t.splitlines()`: a line end at the end of the text opens no line. -/
def splitlines [DecidableEq α] (t : Text α) : List (List α) :=
  if (split t).getLast? = some [] then (split t).dropLast else split t

@[simp] theorem items_append (s t : Text α) : items (s ++ t) = items s ++ items t :=
  List.reduceOption_append s t

@[simp] theorem items_ofLine (l : List α) : items (ofLine l) = l := by
  simp [items, ofLine, List.reduceOption]

@[simp] theorem items_line (a : α) : items (line a) = [a] := rfl

@[simp] theorem items_join (ts : List (Text α)) : items (join ts) = (ts.map items).flatten := by
  unfold join
  induction ts with
  | nil => rfl
  | cons t ts ih =>
    rcases ts with _ | ⟨t', ts⟩
    · simp
    · rw [List.intercalate_cons_cons, items_append, items_append, ih, List.map_cons,
        List.flatten_cons]
      simp [items, List.reduceOption]

/-- The lines of a text hold its items in their order. -/
theorem flatten_split [DecidableEq α] (t : Text α) : (split t).flatten = items t := by
  have h : items (join (t.splitOn none)) = items t := by
    unfold join
    rw [List.intercalate_splitOn]
  rw [← h, items_join, split]

theorem flatten_splitlines [DecidableEq α] (t : Text α) : (splitlines t).flatten = items t := by
  unfold splitlines
  rw [← flatten_split]
  split
  · rename_i hlast
    obtain ⟨ls, hls⟩ := List.getLast?_eq_some_iff.mp hlast
    simp [hls]
  · rfl

/-! ## The last occurrence -/

/-- The model of `b.join(l.rsplit(a, 1))`: the last `a` becomes `b`. -/
def replaceLast [DecidableEq α] (a b : α) (l : List α) : List α := (l.reverse.replace a b).reverse

theorem replaceLast_append [DecidableEq α] (a b : α) (l l' : List α) :
    replaceLast a b (l ++ l') =
      if a ∈ l' then l ++ replaceLast a b l' else replaceLast a b l ++ l' := by
  unfold replaceLast
  rw [List.reverse_append, List.replace_append]
  simp only [List.mem_reverse]
  split <;> simp

theorem replace_perm [DecidableEq α] {a : α} (b : α) {l : List α} (h : a ∈ l) :
    (l.replace a b).Perm (b :: l.erase a) := by
  induction l with
  | nil => cases h
  | cons x l ih =>
    by_cases hx : x = a
    · simp [hx]
    · have hl : a ∈ l := by simpa [Ne.symm hx] using h
      have hax : (a == x) = false := by simpa using Ne.symm hx
      rw [List.replace_cons, hax, List.erase_cons_tail (by simpa using hx)]
      exact ((ih hl).cons x).trans (List.Perm.swap b x _)

theorem replaceLast_perm [DecidableEq α] {a : α} (b : α) {l : List α} (h : a ∈ l) :
    (replaceLast a b l).Perm (b :: l.erase a) := by
  have herase : (b :: l.reverse.erase a).Perm (b :: l.erase a) :=
    ((List.reverse_perm l).erase a).cons b
  exact (List.reverse_perm _).trans ((replace_perm b (List.mem_reverse.mpr h)).trans herase)

theorem replaceLast_of_not_mem [DecidableEq α] {a : α} {b : α} {l : List α} (h : a ∉ l) :
    replaceLast a b l = l := by
  unfold replaceLast
  rw [List.replace_of_not_mem (by simpa using h), List.reverse_reverse]

theorem mem_or_eq_of_mem_replaceLast [DecidableEq α] {a b x : α} {l : List α}
    (h : x ∈ replaceLast a b l) : x ∈ l ∨ x = b := by
  by_cases ha : a ∈ l
  · rcases List.mem_cons.mp ((replaceLast_perm b ha).mem_iff.mp h) with rfl | hx
    · exact .inr rfl
    · exact .inl (List.mem_of_mem_erase hx)
  · rw [replaceLast_of_not_mem ha] at h
    exact .inl h

theorem forall₂_replace [DecidableEq α] (a b : α) (l : List α) :
    List.Forall₂ (fun x y => y = x ∨ x = a ∧ y = b) l (l.replace a b) := by
  induction l with
  | nil => exact .nil
  | cons x l ih =>
    by_cases hx : x = a
    · subst hx
      rw [List.replace_cons_self]
      exact .cons (.inr ⟨rfl, rfl⟩) (List.forall₂_same.mpr fun y _ => .inl rfl)
    · have hne : (a == x) = false := by simpa using Ne.symm hx
      simp only [List.replace_cons, hne]
      exact .cons (.inl rfl) ih

/-- Each item stays, or it is an `a` that becomes `b`. -/
theorem forall₂_replaceLast [DecidableEq α] (a b : α) (l : List α) :
    List.Forall₂ (fun x y => y = x ∨ x = a ∧ y = b) l (replaceLast a b l) := by
  rw [← List.forall₂_reverse_iff, replaceLast, List.reverse_reverse]
  exact forall₂_replace a b l.reverse

/-! ## Words in a text -/

/-- A word without the separator is on one side of it. -/
theorem infix_append_cons_iff {p a b : List α} {c : α} (hc : c ∉ p) :
    p <:+: a ++ c :: b ↔ p <:+: a ∨ p <:+: b := by
  constructor
  · rintro ⟨s, t, h⟩
    rcases List.append_eq_append_iff.mp h with ⟨a', rfl, -⟩ | ⟨c', hsp, hcb⟩
    · exact .inl ⟨s, a', rfl⟩
    rcases List.cons_eq_append_iff.mp hcb with ⟨rfl, -⟩ | ⟨c'', rfl, rfl⟩
    · exact .inl ⟨s, [], by simpa using hsp⟩
    rcases List.append_eq_append_iff.mp hsp with ⟨a', rfl, rfl⟩ | ⟨s', rfl, hc'⟩
    · simp at hc
    rcases List.cons_eq_append_iff.mp hc' with ⟨rfl, rfl⟩ | ⟨s'', rfl, rfl⟩
    · simp at hc
    · exact .inr ⟨s'', t, rfl⟩
  · rintro (h | h)
    · exact h.trans ⟨[], c :: b, rfl⟩
    · exact h.trans ⟨a ++ [c], [], by simp⟩

/-! ## Numbers in a text -/

/-- A list that does not go on with a digit. -/
def NoDigit (s : List Char) : Prop := ∀ c ∈ s.head?, c.isDigit = false

theorem takeWhile_repr (n : ℕ) {s : List Char} (hs : NoDigit s) :
    (n.repr.toList ++ s).takeWhile Char.isDigit = n.repr.toList := by
  have hdigits : ∀ c ∈ n.repr.toList, c.isDigit = true := by
    intro c hc
    rw [Nat.toList_repr] at hc
    exact Nat.isDigit_of_mem_toDigits (by decide) (by decide) hc
  rw [List.takeWhile_append_of_pos hdigits]
  rcases s with _ | ⟨c, s⟩
  · simp
  · rw [List.takeWhile_cons_of_neg (by simp [hs c rfl]), List.append_nil]

/-- A number can be read back from the text that starts with it. -/
theorem repr_append_inj {n m : ℕ} {s t : List Char} (hs : NoDigit s) (ht : NoDigit t)
    (h : n.repr.toList ++ s = m.repr.toList ++ t) : n = m ∧ s = t := by
  have hrepr : n.repr.toList = m.repr.toList := by
    rw [← takeWhile_repr n hs, h, takeWhile_repr m ht]
  constructor
  · rw [Nat.toList_repr, Nat.toList_repr] at hrepr
    simpa using congrArg (fun digits => Nat.ofDigitChars 10 digits 0) hrepr
  · rw [hrepr] at h
    exact List.append_cancel_left h

@[simp] theorem repr_inj {n m : ℕ} : n.repr = m.repr ↔ n = m := by
  refine ⟨fun h => ?_, congrArg Nat.repr⟩
  have hnil : NoDigit [] := by simp [NoDigit]
  exact (repr_append_inj hnil hnil (congrArg (·.toList ++ []) h)).1

end Text
