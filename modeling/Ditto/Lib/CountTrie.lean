-- Tries that count: a node has a name and a weight, and each inserted word
-- adds its weight to every node on its way. The trie of some words is known
-- from them: its children are the first letters in the order in which they
-- come, and the trie below a letter is the trie of the words behind it.
import Ditto.Lib.Rose
import Mathlib.Algebra.BigOperators.Group.Finset.Piecewise
import Mathlib.Algebra.Order.BigOperators.Group.List
import Mathlib.Algebra.Order.Group.Nat
import Mathlib.Data.List.Induction
import Mathlib.Data.List.Nodup

namespace CountTrie

/-! ## First occurrences -/

section Firsts

variable {κ : Type} [DecidableEq κ]

/-- The items of a list, each at the place where it comes first. -/
def firsts (l : List κ) : List κ := l.foldl (fun seen k => if k ∈ seen then seen else seen ++ [k]) []

theorem firsts_concat (l : List κ) (k : κ) :
    firsts (l ++ [k]) = if k ∈ firsts l then firsts l else firsts l ++ [k] := by
  unfold firsts
  rw [List.foldl_append]
  rfl

@[simp] theorem mem_firsts {l : List κ} {k : κ} : k ∈ firsts l ↔ k ∈ l := by
  induction l using List.reverseRecOn with
  | nil => simp [firsts]
  | append_singleton l x ih =>
    rw [firsts_concat]
    split
    · rename_i hx
      rw [ih, List.mem_append, List.mem_singleton]
      refine (or_iff_left_of_imp ?_).symm
      rintro rfl
      exact ih.mp hx
    · rw [List.mem_append, ih, List.mem_append]

theorem nodup_firsts (l : List κ) : (firsts l).Nodup := by
  induction l using List.reverseRecOn with
  | nil => exact List.nodup_nil
  | append_singleton l x ih =>
    rw [firsts_concat]
    split
    · exact ih
    · rename_i hx
      exact List.nodup_append.mpr ⟨ih, List.nodup_singleton x, by
        rintro y hy z hz rfl
        exact hx (List.mem_singleton.mp hz ▸ hy)⟩

theorem filter_firsts (l : List κ) (k : κ) :
    (firsts l).filter (fun x => decide (x = k)) = if k ∈ l then [k] else [] := by
  have hfilter : ∀ l : List κ, l.Nodup →
      l.filter (fun x => decide (x = k)) = if k ∈ l then [k] else [] := by
    intro l hl
    induction l with
    | nil => rfl
    | cons x l ih =>
      rw [List.nodup_cons] at hl
      by_cases hx : x = k
      · subst hx
        simp [ih hl.2, hl.1]
      · simp [hx, Ne.symm hx, ih hl.2]
  rw [hfilter _ (nodup_firsts l)]
  simp only [mem_firsts]

theorem firsts_perm {l l' : List κ} (h : l.Perm l') : (firsts l).Perm (firsts l') := by
  rw [List.perm_ext_iff_of_nodup (nodup_firsts l) (nodup_firsts l')]
  intro k
  rw [mem_firsts, mem_firsts, h.mem_iff]

end Firsts

/-! ## Tries -/

variable {κ M : Type}

/-- A trie with names `κ` and weights `M`. -/
abbrev Trie (κ M : Type) := Rose (κ × M)

def name : Trie κ M → κ
  | .node a _ => a.1

def weight : Trie κ M → M
  | .node a _ => a.2

def children : Trie κ M → List (Trie κ M)
  | .node _ cs => cs

variable [DecidableEq κ]

/-- The nodes that are reached by the names of a path. -/
def nodesAt : List κ → Trie κ M → List (Trie κ M)
  | [], t => [t]
  | k :: path, t => ((children t).filter fun c => name c = k).flatMap (nodesAt path)

variable [AddCommMonoid M]

/-- The tree with more weight at its root. -/
def bump (w : M) : Trie κ M → Trie κ M
  | .node a cs => .node (a.1, a.2 + w) cs

/-- The first child of a name changed. If there is none, there is a new one at the end. -/
def updateChild (k : κ) (f : Trie κ M → Trie κ M) : List (Trie κ M) → List (Trie κ M)
  | [] => [f (.node (k, 0) [])]
  | t :: ts => if name t = k then f t :: ts else t :: updateChild k f ts

/-- The trie with the weight of a word on its way down. -/
def insert (w : M) : List κ → Trie κ M → Trie κ M
  | [], t => bump w t
  | k :: p, .node a cs => .node (a.1, a.2 + w) (updateChild k (insert w p) cs)

/-- The trie of some words with their weights. -/
def build (k : κ) (words : List (List κ × M)) : Trie κ M :=
  words.foldl (fun t s => insert s.2 s.1 t) (.node (k, 0) [])

theorem build_concat (k : κ) (words : List (List κ × M)) (s : List κ × M) :
    build k (words ++ [s]) = insert s.2 s.1 (build k words) := by
  simp [build, List.foldl_append]

@[simp] theorem build_nil (k : κ) : build k ([] : List (List κ × M)) = .node (k, 0) [] := rfl

theorem updateChild_of_not_mem {k : κ} {f : Trie κ M → Trie κ M} {cs : List (Trie κ M)}
    (h : k ∉ cs.map name) : updateChild k f cs = cs ++ [f (.node (k, 0) [])] := by
  induction cs with
  | nil => rfl
  | cons c cs ih =>
    rw [List.map_cons, List.mem_cons, not_or] at h
    rw [updateChild, if_neg (Ne.symm h.1), ih h.2, List.cons_append]

/-- The change of one of several children with different names. -/
theorem updateChild_map {k : κ} {f : Trie κ M → Trie κ M} {ks : List κ} {g : κ → Trie κ M}
    (hname : ∀ x, name (g x) = x) (hnodup : ks.Nodup) (hk : k ∈ ks) :
    updateChild k f (ks.map g) = ks.map fun x => if x = k then f (g x) else g x := by
  induction ks with
  | nil => cases hk
  | cons x ks ih =>
    rw [List.nodup_cons] at hnodup
    rw [List.map_cons, updateChild, hname, List.map_cons]
    by_cases hx : x = k
    · subst hx
      rw [if_pos rfl, if_pos rfl]
      congr 1
      apply List.map_congr_left
      intro y hy
      rw [if_neg]
      rintro rfl
      exact hnodup.1 hy
    · have hks : k ∈ ks := (List.mem_cons.mp hk).resolve_left (Ne.symm hx)
      rw [if_neg hx, if_neg hx, ih hnodup.2 hks]

/-! ## The trie of some words -/

/-- A word without its first letter, if it is the given one. -/
def behind (k : κ) (s : List κ × M) : Option (List κ × M) :=
  match s.1 with
  | [] => none
  | x :: p => if x = k then some (p, s.2) else none

/-- The first letters of some words. -/
def heads (words : List (List κ × M)) : List κ := words.filterMap fun s => s.1.head?

omit [DecidableEq κ] [AddCommMonoid M] in
theorem heads_concat (words : List (List κ × M)) (s : List κ × M) :
    heads (words ++ [s]) = heads words ++ s.1.head?.toList := by
  cases h : s.1.head? <;> simp [heads, h]

omit [AddCommMonoid M] in
theorem behind_eq_some {k : κ} {s r : List κ × M} :
    behind k s = some r ↔ s = (k :: r.1, r.2) := by
  obtain ⟨p, w⟩ := s
  obtain ⟨q, v⟩ := r
  cases p with
  | nil => simp [behind]
  | cons x p =>
    by_cases hx : x = k
    · simp [behind, hx]
    · simp [behind, hx]

omit [AddCommMonoid M] in
theorem filterMap_behind_eq_nil {k : κ} {words : List (List κ × M)} (h : k ∉ heads words) :
    words.filterMap (behind k) = [] := by
  rw [List.filterMap_eq_nil_iff]
  intro s hs
  cases hb : behind k s with
  | none => rfl
  | some r =>
    rw [behind_eq_some] at hb
    exact absurd (List.mem_filterMap.mpr ⟨s, hs, by rw [hb]; rfl⟩) h

theorem name_build (k : κ) (words : List (List κ × M)) : name (build k words) = k := by
  induction words using List.reverseRecOn with
  | nil => rfl
  | append_singleton words s ih =>
    rw [build_concat]
    obtain ⟨p, w⟩ := s
    revert ih
    generalize build k words = t
    intro ih
    cases t with
    | node a cs =>
      cases p with
      | nil => exact ih
      | cons x p => exact ih

/-- A new word changes the trie behind its own first letter only. -/
theorem build_behind_concat (x y : κ) (p : List κ) (w : M) (words : List (List κ × M)) :
    build x ((words ++ [(y :: p, w)]).filterMap (behind x)) =
      if x = y then insert w p (build x (words.filterMap (behind x)))
      else build x (words.filterMap (behind x)) := by
  by_cases hx : x = y
  · subst hx
    simp [List.filterMap_append, behind, build_concat]
  · simp [List.filterMap_append, behind, hx, Ne.symm hx]

/-- The trie of some words is put together from the tries of what is behind their first
letters. -/
theorem build_eq (k : κ) (words : List (List κ × M)) :
    build k words = .node (k, (words.map Prod.snd).sum)
      ((firsts (heads words)).map fun x => build x (words.filterMap (behind x))) := by
  induction words using List.reverseRecOn with
  | nil => rfl
  | append_singleton words s ih =>
    obtain ⟨p, w⟩ := s
    rw [build_concat, ih, heads_concat]
    cases p with
    | nil =>
      have hbehind : ∀ x, [(([], w) : List κ × M)].filterMap (behind x) = [] := fun _ => rfl
      simp [insert, bump, hbehind]
    | cons y p =>
      have hnames : ((firsts (heads words)).map fun x =>
          build x (words.filterMap (behind x))).map name = firsts (heads words) := by
        simp [Function.comp_def, name_build]
      simp only [build_behind_concat, insert, List.head?_cons, Option.toList_some, firsts_concat]
      by_cases hy : y ∈ firsts (heads words)
      · rw [if_pos hy, updateChild_map (fun x => name_build x _) (nodup_firsts _) hy]
        simp
      · have hnew : words.filterMap (behind y) = [] :=
          filterMap_behind_eq_nil fun h => hy (mem_firsts.mpr h)
        have hold : ((firsts (heads words)).map fun x =>
            if x = y then insert w p (build x (words.filterMap (behind x)))
            else build x (words.filterMap (behind x))) =
            (firsts (heads words)).map fun x => build x (words.filterMap (behind x)) := by
          apply List.map_congr_left
          intro x hx
          rw [if_neg]
          rintro rfl
          exact hy hx
        rw [if_neg hy, updateChild_of_not_mem (by rwa [hnames]), @List.map_append _ _ _ (firsts _),
          hold]
        simp [hnew]

theorem weight_build (k : κ) (words : List (List κ × M)) :
    weight (build k words) = (words.map Prod.snd).sum := by
  rw [build_eq]
  rfl

theorem children_build (k : κ) (words : List (List κ × M)) :
    children (build k words) =
      (firsts (heads words)).map fun x => build x (words.filterMap (behind x)) := by
  rw [build_eq]
  rfl

theorem map_name_children_build (k : κ) (words : List (List κ × M)) :
    (children (build k words)).map name = firsts (heads words) := by
  rw [children_build, List.map_map]
  simp [Function.comp_def, name_build]

/-! ## The nodes of a trie -/

/-- What is behind a path in a word, if the word starts with it. -/
def strip (path : List κ) (s : List κ × M) : Option (List κ × M) :=
  if path <+: s.1 then some (s.1.drop path.length, s.2) else none

omit [AddCommMonoid M] in
theorem strip_cons (k : κ) (path : List κ) (words : List (List κ × M)) :
    (words.filterMap (behind k)).filterMap (strip path) = words.filterMap (strip (k :: path)) := by
  rw [List.filterMap_filterMap]
  apply List.filterMap_congr
  rintro ⟨p, w⟩ -
  cases p with
  | nil => simp [behind, strip]
  | cons x p =>
    by_cases hx : x = k
    · subst hx
      simp [behind, strip]
    · simp [behind, strip, hx, Ne.symm hx]

omit [AddCommMonoid M] in
theorem strip_nil (words : List (List κ × M)) : words.filterMap (strip []) = words := by
  have hsome : strip (M := M) ([] : List κ) = some := by
    funext s
    simp [strip]
  rw [hsome, List.filterMap_some]

/-- The children of one name. -/
theorem filter_children_build (k x : κ) (words : List (List κ × M)) :
    (children (build k words)).filter (fun c => name c = x) =
      if x ∈ heads words then [build x (words.filterMap (behind x))] else [] := by
  have hname : (fun y => decide (name (build y (words.filterMap (behind y))) = x)) =
      fun y => decide (y = x) := by simp only [name_build]
  rw [children_build, List.filter_map, Function.comp_def, hname, filter_firsts]
  split
  · rfl
  · rfl

/-- The node at a path is the trie of what is behind the path. -/
theorem nodesAt_build (path : List κ) (k : κ) (words : List (List κ × M)) :
    (path ≠ [] ∧ words.filterMap (strip path) = [] ∧ nodesAt path (build k words) = []) ∨
      ((path = [] ∨ words.filterMap (strip path) ≠ []) ∧
        ∃ x, nodesAt path (build k words) = [build x (words.filterMap (strip path))]) := by
  induction path generalizing k words with
  | nil => exact .inr ⟨.inl rfl, k, by rw [strip_nil]; rfl⟩
  | cons x path ih =>
    rw [nodesAt, filter_children_build]
    by_cases hx : x ∈ heads words
    · rw [if_pos hx, List.flatMap_singleton, ← strip_cons]
      rcases ih x (words.filterMap (behind x)) with ⟨-, hnil, hnodes⟩ | ⟨hne, y, hnodes⟩
      · exact .inl ⟨List.cons_ne_nil _ _, hnil, hnodes⟩
      · refine .inr ⟨.inr ?_, y, hnodes⟩
        rcases hne with rfl | hne
        · rw [strip_nil]
          obtain ⟨s, hs, hhead⟩ := List.mem_filterMap.mp hx
          obtain ⟨p, hp⟩ := List.head?_eq_some_iff.mp hhead
          exact List.ne_nil_of_mem (List.mem_filterMap.mpr
            ⟨s, hs, behind_eq_some.mpr (Prod.ext hp rfl : s = (x :: (p, s.2).1, (p, s.2).2))⟩)
        · exact hne
    · rw [if_neg hx, ← strip_cons, filterMap_behind_eq_nil hx]
      exact .inl ⟨List.cons_ne_nil _ _, rfl, rfl⟩

omit [AddCommMonoid M] in
theorem map_snd_strip (path : List κ) (words : List (List κ × M)) :
    (words.filterMap (strip path)).map Prod.snd =
      (words.filter fun s => path <+: s.1).map Prod.snd := by
  induction words with
  | nil => rfl
  | cons s words ih =>
    by_cases hs : path <+: s.1
    · simp [strip, hs, ← ih]
    · simp [strip, hs, ← ih]

/-! ## Weights -/

theorem sum_behind_cons (x : κ) (s : List κ × M) (words : List (List κ × M)) :
    (((s :: words).filterMap (behind x)).map Prod.snd).sum =
      (if s.1.head? = some x then s.2 else 0) +
        ((words.filterMap (behind x)).map Prod.snd).sum := by
  obtain ⟨p, w⟩ := s
  cases p with
  | nil =>
    rw [List.filterMap_cons_none rfl]
    simp
  | cons y p =>
    by_cases hy : y = x
    · simp [behind, hy]
    · simp [behind, hy]

/-- The words behind different first letters weigh no more than all words. -/
theorem sum_behind_le [PartialOrder M] [IsOrderedAddMonoid M] (ks : Finset κ)
    {words : List (List κ × M)} (hnonneg : ∀ s ∈ words, 0 ≤ s.2) :
    ∑ x ∈ ks, ((words.filterMap (behind x)).map Prod.snd).sum ≤ (words.map Prod.snd).sum := by
  induction words with
  | nil => simp
  | cons s words ih =>
    rw [List.forall_mem_cons] at hnonneg
    simp only [sum_behind_cons, Finset.sum_add_distrib, List.map_cons, List.sum_cons]
    refine add_le_add ?_ (ih hnonneg.2)
    cases s.1.head? with
    | none => simpa using hnonneg.1
    | some y =>
      simp only [Option.some.injEq, Finset.sum_ite_eq]
      split
      · exact le_refl _
      · exact hnonneg.1

/-- A node weighs at least as much as its children. -/
theorem sum_children_le [PartialOrder M] [IsOrderedAddMonoid M] (k : κ)
    {words : List (List κ × M)} (hnonneg : ∀ s ∈ words, 0 ≤ s.2) :
    ((children (build k words)).map weight).sum ≤ weight (build k words) := by
  rw [weight_build, children_build, List.map_map]
  simp only [Function.comp_def, weight_build]
  rw [← List.sum_toFinset _ (nodup_firsts _)]
  exact sum_behind_le _ hnonneg

/-! ## The order of the words -/

/-- The order of the words changes only the order of siblings. -/
theorem reordered_build (k : κ) {words words' : List (List κ × M)} (h : words.Perm words') :
    Rose.Reordered (build k words) (build k words') := by
  -- The words behind a first letter are shorter.
  have hbound : ∃ n, ∀ s ∈ words, s.1.length < n :=
    ⟨(words.map fun s => s.1.length).sum + 1, fun s hs =>
      Nat.lt_succ_of_le (List.single_le_sum (by simp) _ (List.mem_map_of_mem hs))⟩
  obtain ⟨n, hn⟩ := hbound
  induction n generalizing k words words' with
  | zero =>
    obtain rfl : words = [] :=
      List.eq_nil_iff_forall_not_mem.mpr fun s hs => Nat.not_lt_zero _ (hn s hs)
    obtain rfl : words' = [] := h.symm.eq_nil
    exact .node _ .nil (.refl _)
  | succ n ih =>
    rw [build_eq k words, build_eq k words', (h.map Prod.snd).sum_eq]
    have hperm : ((firsts (heads words)).map fun x => build x (words'.filterMap (behind x))).Perm
        ((firsts (heads words')).map fun x => build x (words'.filterMap (behind x))) :=
      (firsts_perm (h.filterMap _)).map _
    refine .node _ ?_ hperm
    rw [List.forall₂_map_left_iff, List.forall₂_map_right_iff]
    refine List.forall₂_same.mpr fun x _ => ih x (h.filterMap _) ?_
    intro r hr
    obtain ⟨s, hs, hbehind⟩ := List.mem_filterMap.mp hr
    have hlength := hn s hs
    rw [behind_eq_some.mp hbehind, List.length_cons] at hlength
    exact Nat.lt_of_succ_lt_succ hlength

end CountTrie
