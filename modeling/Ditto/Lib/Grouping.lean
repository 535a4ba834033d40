-- Items put into lists by their labels, in a dictionary from labels to lists.
-- The lists may be new ones, or lists that are already somewhere: then the
-- first list with a label is itself made longer by the others with its label.
import Ditto.Lib.PyDict
import Mathlib.Data.List.Induction
import Mathlib.Logic.Function.Basic

namespace Grouping

variable {κ α β : Type} [DecidableEq κ]

/-- The items with a label, in order. -/
def members (zs : List (κ × α)) (k : κ) : List α := (zs.filter fun z => z.1 = k).map Prod.snd

variable {zs : List (κ × α)}

theorem mem_members {k : κ} {a : α} : a ∈ members zs k ↔ (k, a) ∈ zs := by
  simp [members]

theorem members_append (zs : List (κ × α)) (z : κ × α) (k : κ) :
    members (zs ++ [z]) k = if z.1 = k then members zs k ++ [z.2] else members zs k := by
  by_cases h : z.1 = k <;> simp [members, h]

/-! ## New lists -/

/-- One turn of the loop: the item goes to the list of its label, or opens one. -/
def put (d : PyDict κ (List α)) (z : κ × α) : PyDict κ (List α) :=
  match d.get? z.1 with
  | none => d.set z.1 [z.2]
  | some l => d.set z.1 (l ++ [z.2])

def group (zs : List (κ × α)) : PyDict κ (List α) := zs.foldl put .empty

/-- Each label of an item has the list of the items with it. -/
theorem get?_group (zs : List (κ × α)) (k : κ) :
    (group zs).get? k = if members zs k = [] then none else some (members zs k) := by
  induction zs using List.reverseRecOn generalizing k with
  | nil => rfl
  | append_singleton zs z ih =>
    have hgroup : group (zs ++ [z]) = put (group zs) z := by simp [group, List.foldl_append]
    rw [hgroup, put, ih, members_append]
    by_cases hk : z.1 = k
    · subst hk
      by_cases hnil : members zs z.1 = []
      · simp [hnil]
      · simp [hnil]
    · by_cases hnil : members zs z.1 = []
      · simp [hnil, hk, PyDict.get?_set_of_ne _ _ (Ne.symm hk), ih]
      · simp [hnil, hk, PyDict.get?_set_of_ne _ _ (Ne.symm hk), ih]

/-! ## Lists that are already there -/

/-- Lists by their addresses, and the address of the list for each label. -/
structure Shared (κ α β : Type) where
  lists : α → List β
  heads : PyDict κ α

variable [DecidableEq α]

/-- One turn of the loop: the first list with a label stands for it, and each later one is
added to its end, in place. -/
def Shared.put (s : Shared κ α β) (z : κ × α) : Shared κ α β :=
  match s.heads.get? z.1 with
  | none => { s with heads := s.heads.set z.1 z.2 }
  | some a => { s with lists := Function.update s.lists a (s.lists a ++ s.lists z.2) }

def share (lists : α → List β) (zs : List (κ × α)) : Shared κ α β :=
  zs.foldl Shared.put { lists, heads := .empty }

/-- What the loop has done after the lists `zs`, if no list comes twice. -/
structure Shared.After (s : Shared κ α β) (lists : α → List β) (zs : List (κ × α)) : Prop where
  heads : ∀ k, s.heads.get? k = (members zs k).head?
  head_list : ∀ k, ∀ a ∈ (members zs k).head?, s.lists a = (members zs k).flatMap lists
  others : ∀ a, a ∉ zs.map Prod.snd → s.lists a = lists a

omit [DecidableEq κ] [DecidableEq α] in
theorem eq_of_mem_of_nodup (hnodup : (zs.map Prod.snd).Nodup) {k k' : κ} {a : α} (h : (k, a) ∈ zs)
    (h' : (k', a) ∈ zs) : k = k' := by
  have heq := List.inj_on_of_nodup_map hnodup h h' rfl
  exact congrArg Prod.fst heq

section Put

variable {s : Shared κ α β} {lists : α → List β} {zs : List (κ × α)} {k : κ} {a : α}

/-- The first list with a label is its head from then on. -/
theorem Shared.After.put_first (hnew : a ∉ zs.map Prod.snd) (h : s.After lists zs)
    (hnil : members zs k = []) : (s.put (k, a)).After lists (zs ++ [(k, a)]) := by
  have hput : s.put (k, a) = { s with heads := s.heads.set k a } := by
    simp [Shared.put, h.heads, hnil]
  refine ⟨fun x => ?_, fun x b hb => ?_, fun b hb => ?_⟩
  · rw [hput, members_append]
    by_cases hx : k = x
    · subst hx
      simp [hnil]
    · simp [hx, PyDict.get?_set_of_ne _ _ (Ne.symm hx), h.heads]
  · rw [members_append] at hb ⊢
    rw [hput]
    by_cases hx : k = x
    · subst hx
      obtain rfl : a = b := by simpa [hnil] using hb
      simpa [hnil] using h.others a hnew
    · simp only [hx, if_false] at hb ⊢
      exact h.head_list x b hb
  · rw [hput]
    exact h.others b fun hmem => hb (by simp [List.mem_map.mp hmem])

/-- A later list goes to the end of the head. The lists of the other labels stay. -/
theorem Shared.After.put_later (hzs : (zs.map Prod.snd).Nodup) (hnew : a ∉ zs.map Prod.snd)
    (h : s.After lists zs) {c : α} (hhead : (members zs k).head? = some c) :
    (s.put (k, a)).After lists (zs ++ [(k, a)]) := by
  have hc : (k, c) ∈ zs := mem_members.mp (List.mem_of_mem_head? hhead)
  have hput : s.put (k, a) =
      { s with lists := Function.update s.lists c (s.lists c ++ s.lists a) } := by
    simp [Shared.put, h.heads, hhead]
  refine ⟨fun x => ?_, fun x b hb => ?_, fun b hb => ?_⟩
  · rw [hput, members_append]
    by_cases hx : k = x
    · subst hx
      simp [h.heads, hhead]
    · simp [hx, h.heads]
  · rw [members_append] at hb ⊢
    rw [hput]
    by_cases hx : k = x
    · subst hx
      obtain rfl : c = b := by simpa [hhead] using hb
      simp [h.head_list k c hhead, h.others a hnew]
    · simp only [hx, if_false] at hb ⊢
      have hne : b ≠ c := by
        rintro rfl
        exact hx (eq_of_mem_of_nodup hzs hc (mem_members.mp (List.mem_of_mem_head? hb)))
      simp [Function.update_of_ne hne, h.head_list x b hb]
  · rw [hput]
    have hne : b ≠ c := by
      rintro rfl
      exact hb (List.mem_map.mpr ⟨(k, b), by simp [hc], rfl⟩)
    rw [List.map_append, List.mem_append, not_or] at hb
    simp [Function.update_of_ne hne, h.others b hb.1]

end Put

theorem share_spec (lists : α → List β) (hnodup : (zs.map Prod.snd).Nodup) :
    (share lists zs).After lists zs := by
  induction zs using List.reverseRecOn with
  | nil => exact ⟨fun k => rfl, fun k a ha => by simp [members] at ha, fun a _ => rfl⟩
  | append_singleton zs z ih =>
    obtain ⟨k, a⟩ := z
    rw [List.map_append, List.nodup_append] at hnodup
    have hnew : a ∉ zs.map Prod.snd := fun hmem => hnodup.2.2 a hmem a (by simp) rfl
    have hafter := ih hnodup.1
    have hshare : share lists (zs ++ [(k, a)]) = (share lists zs).put (k, a) := by
      simp [share, List.foldl_append]
    rw [hshare]
    cases hhead : (members zs k).head? with
    | none => exact hafter.put_first hnew (List.head?_eq_none_iff.mp hhead)
    | some c => exact hafter.put_later hnodup.1 hnew hhead

/-- The list of a label is all lists with the label, one after another. -/
theorem mem_map_heads_share (lists : α → List β) (hnodup : (zs.map Prod.snd).Nodup) (c : List β) :
    c ∈ (share lists zs).heads.values.map (share lists zs).lists ↔
      ∃ k, members zs k ≠ [] ∧ c = (members zs k).flatMap lists := by
  have hafter := share_spec lists hnodup
  simp only [PyDict.values, List.map_map, List.mem_map]
  constructor
  · rintro ⟨⟨k, a⟩, he, rfl⟩
    have hhead := (hafter.heads k).symm.trans (PyDict.get?_eq_some_iff.mpr he)
    exact ⟨k, List.ne_nil_of_mem (List.mem_of_mem_head? hhead), hafter.head_list k a hhead⟩
  · rintro ⟨k, hne, rfl⟩
    obtain ⟨a, hhead⟩ := Option.ne_none_iff_exists'.mp (mt List.head?_eq_none_iff.mp hne)
    have he := PyDict.get?_eq_some_iff.mp ((hafter.heads k).trans hhead)
    exact ⟨(k, a), he, hafter.head_list k a hhead⟩

end Grouping
