-- Dictionaries in the order of their keys, and dictionaries from a list of
-- entries. The keys of a sorted dictionary are the one sorted list of them.
import Ditto.Lib.PyDict
import Mathlib.Data.List.Induction
import Mathlib.Data.List.Sort

namespace PyDict

variable {κ ν : Type}

/-- The dictionary that a loop over entries writes. -/
def ofList [DecidableEq κ] (l : List (κ × ν)) : PyDict κ ν :=
  l.foldl (fun d e => d.set e.1 e.2) empty

theorem mem_keys_foldl_entries [DecidableEq κ] (l : List (κ × ν)) (d : PyDict κ ν) (x : κ) :
    x ∈ (l.foldl (fun d e => d.set e.1 e.2) d).keys ↔ x ∈ l.map Prod.fst ∨ x ∈ d.keys := by
  induction l generalizing d with
  | nil => simp
  | cons e rest ih =>
    rw [List.foldl_cons, ih, mem_keys_set, List.map_cons, List.mem_cons]
    tauto

@[simp] theorem mem_keys_ofList [DecidableEq κ] {l : List (κ × ν)} {x : κ} :
    x ∈ (ofList l).keys ↔ x ∈ l.map Prod.fst := by
  rw [ofList, mem_keys_foldl_entries]
  simp

theorem ofList_append [DecidableEq κ] (l : List (κ × ν)) (e : κ × ν) :
    ofList (l ++ [e]) = (ofList l).set e.1 e.2 := by
  simp [ofList, List.foldl_append]

theorem mem_of_mem_entries_ofList [DecidableEq κ] {l : List (κ × ν)} {e : κ × ν}
    (h : e ∈ (ofList l).entries) : e ∈ l := by
  induction l using List.reverseRecOn with
  | nil => cases h
  | append_singleton l e' ih =>
    rw [ofList_append] at h
    rcases mem_entries_set h with ⟨hkey, hvalue⟩ | h
    · simp [Prod.ext hkey hvalue]
    · exact List.mem_append_left _ (ih h)

/-- Entries with different keys are all kept. -/
theorem get?_ofList [DecidableEq κ] {l : List (κ × ν)} (hl : (l.map Prod.fst).Nodup) {e : κ × ν}
    (he : e ∈ l) : (ofList l).get? e.1 = some e.2 := by
  induction l using List.reverseRecOn with
  | nil => cases he
  | append_singleton l e' ih =>
    rw [List.map_append, List.nodup_append] at hl
    rw [ofList_append]
    rcases List.mem_append.mp he with he | he
    · have hne : e.1 ≠ e'.1 := hl.2.2 e.1 (List.mem_map_of_mem he) e'.1 (by simp)
      rw [get?_set_of_ne _ _ hne]
      exact ih hl.1 he
    · rw [List.mem_singleton.mp he, get?_set_self]

theorem entries_ofList [DecidableEq κ] {l : List (κ × ν)} (hl : (l.map Prod.fst).Nodup) :
    (ofList l).entries = l :=
  entries_setAll hl

/-- A loop whose turns each write one key has written the keys of its items. -/
theorem mem_keys_foldlM [DecidableEq κ] {α : Type} {key : α → κ}
    {f : PyDict κ ν → α → Except PyError (PyDict κ ν)} {l : List α} {d d' : PyDict κ ν}
    (hf : ∀ d e d', f d e = .ok d' → ∃ v, d' = d.set (key e) v) (h : l.foldlM f d = .ok d') (x : κ) :
    x ∈ d'.keys ↔ x ∈ l.map key ∨ x ∈ d.keys := by
  induction l generalizing d with
  | nil =>
    cases h
    simp
  | cons e l ih =>
    rw [List.foldlM_cons] at h
    obtain ⟨m, hm, h⟩ := PyError.ok_of_bind h
    obtain ⟨v, rfl⟩ := hf d e m hm
    rw [ih h, mem_keys_set, List.map_cons, List.mem_cons]
    tauto

variable [LinearOrder κ]

/-- The model of `{k: d[k] for k in sorted(d.keys())}`. -/
def sortKeys (d : PyDict κ ν) : PyDict κ ν where
  entries := d.entries.insertionSort fun a b => a.1 ≤ b.1
  nodup := (((List.perm_insertionSort _ d.entries).map Prod.fst).nodup_iff).mpr d.nodup

theorem perm_keys_sortKeys (d : PyDict κ ν) : d.sortKeys.keys.Perm d.keys :=
  (List.perm_insertionSort _ d.entries).map Prod.fst

theorem pairwise_keys_sortKeys (d : PyDict κ ν) : d.sortKeys.keys.Pairwise (· ≤ ·) := by
  have : Std.Total fun a b : κ × ν => a.1 ≤ b.1 := ⟨fun a b => le_total a.1 b.1⟩
  have : IsTrans (κ × ν) fun a b => a.1 ≤ b.1 := ⟨fun _ _ _ => le_trans⟩
  exact List.pairwise_map.mpr (List.pairwise_insertionSort _ d.entries)

theorem perm_entries_sortKeys (d : PyDict κ ν) : d.sortKeys.entries.Perm d.entries :=
  List.perm_insertionSort _ d.entries

theorem get?_sortKeys (d : PyDict κ ν) (k : κ) : d.sortKeys.get? k = d.get? k := by
  ext v
  rw [get?_eq_some_iff, get?_eq_some_iff]
  exact d.perm_entries_sortKeys.mem_iff

theorem strictly_sorted_sortKeys (d : PyDict κ ν) : d.sortKeys.keys.Pairwise (· < ·) := by
  have hne : d.sortKeys.keys.Pairwise (· ≠ ·) := d.sortKeys.nodup
  exact d.pairwise_keys_sortKeys.and hne |>.imp fun h => lt_of_le_of_ne h.1 h.2

/-- An ascending list with the keys of a dictionary is the list of its sorted keys. -/
theorem keys_sortKeys_eq {d : PyDict κ ν} {l : List κ} (hl : l.Pairwise (· < ·))
    (hmem : ∀ x, x ∈ d.keys ↔ x ∈ l) : d.sortKeys.keys = l := by
  have hnodup : l.Nodup := hl.imp ne_of_lt
  have hperm : d.sortKeys.keys.Perm l :=
    d.perm_keys_sortKeys.trans ((List.perm_ext_iff_of_nodup d.nodup hnodup).mpr hmem)
  exact hperm.eq_of_pairwise' d.pairwise_keys_sortKeys (hl.imp le_of_lt)

end PyDict
