-- Dictionaries of weights. A key that is not there weighs nothing, and the
-- mass of a dictionary is the sum of its values.
import Ditto.Lib.PyDict
import Mathlib.Algebra.BigOperators.Group.Finset.Basic
import Mathlib.Algebra.BigOperators.Ring.List
import Mathlib.Algebra.Field.Defs
import Mathlib.Algebra.Order.BigOperators.Group.Finset
import Mathlib.Data.List.Induction

namespace PyDict

variable {κ M : Type}

/-- The dictionary `{k: v}`. -/
def single (k : κ) (v : M) : PyDict κ M := ⟨[(k, v)], List.nodup_singleton k⟩

variable [AddCommMonoid M]

/-- The mass of the dictionary. -/
def total (d : PyDict κ M) : M := d.values.sum

@[simp] theorem total_empty : (empty : PyDict κ M).total = 0 := rfl

@[simp] theorem total_single (k : κ) (v : M) : (single k v).total = v := by
  simp [total, values, single]

variable [DecidableEq κ]

/-- The weight of a key. -/
def val (d : PyDict κ M) (k : κ) : M := (d.get? k).getD 0

theorem val_of_mem {d : PyDict κ M} {k : κ} {v : M} (h : (k, v) ∈ d.entries) : d.val k = v := by
  unfold val
  rw [get?_eq_some_iff.mpr h]
  rfl

theorem val_of_not_mem {d : PyDict κ M} {k : κ} (h : k ∉ d.keys) : d.val k = 0 := by
  unfold val
  rw [get?_eq_none_iff.mpr h]
  rfl

theorem get?_eq_of_val {d d' : PyDict κ M} {k : κ} (hval : d'.val k = d.val k)
    (hkey : k ∈ d'.keys ↔ k ∈ d.keys) : d'.get? k = d.get? k := by
  unfold val at hval
  cases hd : d.get? k with
  | none =>
    rw [get?_eq_none_iff] at hd ⊢
    exact fun h => hd (hkey.mp h)
  | some v =>
    obtain ⟨v', hd'⟩ := exists_get?_of_mem_keys (hkey.mpr (mem_keys_of_get? hd))
    rw [hd, hd'] at hval
    rw [hd']
    exact congrArg some hval

@[simp] theorem val_empty (k : κ) : (empty : PyDict κ M).val k = 0 := rfl

theorem val_set (d : PyDict κ M) (k x : κ) (v : M) :
    (d.set k v).val x = if x = k then v else d.val x := by
  unfold val
  split
  · rename_i h
    rw [h, get?_set_self]
    rfl
  · rename_i h
    rw [get?_set_of_ne d v h]

@[simp] theorem val_single (k x : κ) (v : M) : (single k v).val x = if x = k then v else 0 := by
  split
  · rename_i h
    rw [h]
    exact val_of_mem (List.mem_singleton_self _)
  · rename_i h
    apply val_of_not_mem
    simpa [keys, single] using h

theorem total_eq_sum (d : PyDict κ M) : d.total = ∑ k ∈ d.keys.toFinset, d.val k := by
  have hnd : d.keys.Nodup := d.nodup
  rw [List.sum_toFinset _ hnd]
  unfold total values keys
  rw [List.map_map]
  congr 1
  apply List.map_congr_left
  intro e he
  exact (val_of_mem he).symm

/-- The mass is the sum of the weights over any set that holds the keys. -/
theorem total_eq_sum_of_subset {d : PyDict κ M} {s : Finset κ} (h : ∀ k ∈ d.keys, k ∈ s) :
    d.total = ∑ k ∈ s, d.val k := by
  rw [total_eq_sum]
  apply Finset.sum_subset
  · intro k hk
    exact h k (List.mem_toFinset.mp hk)
  · intro k _ hk
    exact val_of_not_mem fun hmem => hk (List.mem_toFinset.mpr hmem)

/-- Weights that add up add up to the sum of the masses. -/
theorem total_add {d d₀ d₁ : PyDict κ M} (h : ∀ k, d.val k = d₀.val k + d₁.val k) :
    d.total = d₀.total + d₁.total := by
  let s := d.keys.toFinset ∪ d₀.keys.toFinset ∪ d₁.keys.toFinset
  have hd : d.total = ∑ k ∈ s, d.val k := total_eq_sum_of_subset (by simp +contextual [s])
  have hd₀ : d₀.total = ∑ k ∈ s, d₀.val k := total_eq_sum_of_subset (by simp +contextual [s])
  have hd₁ : d₁.total = ∑ k ∈ s, d₁.val k := total_eq_sum_of_subset (by simp +contextual [s])
  rw [hd, hd₀, hd₁, ← Finset.sum_add_distrib]
  exact Finset.sum_congr rfl fun k _ => h k

theorem total_congr {d d' : PyDict κ M} (h : ∀ k, d.val k = d'.val k) : d.total = d'.total := by
  have hadd : ∀ k, d.val k = d'.val k + (empty : PyDict κ M).val k := by simpa using h
  rw [total_add hadd, total_empty, add_zero]

omit [DecidableEq κ] in
/-- Weights that are divided have their mass divided. -/
theorem total_mapVal_div {F : Type} [Field F] (d : PyDict κ F) (s : F) :
    (d.mapVal fun _ v => v / s).total = d.total / s := by
  unfold total values mapVal
  simp only [List.map_map, Function.comp_def, div_eq_mul_inv]
  exact List.sum_map_mul_right _ _ _

omit [AddCommMonoid M] in
theorem val_mapVal_div {F : Type} [Field F] (d : PyDict κ F) (s : F) (k : κ) :
    (d.mapVal fun _ v => v / s).val k = d.val k / s := by
  unfold val
  rw [get?_mapVal]
  cases d.get? k <;> simp

theorem val_of_perm {d d' : PyDict κ M} (h : d.entries.Perm d'.entries) (k : κ) :
    d.val k = d'.val k := by
  have hget : d.get? k = d'.get? k := by
    ext v
    rw [get?_eq_some_iff, get?_eq_some_iff, h.mem_iff]
  unfold val
  rw [hget]

theorem val_filter (d : PyDict κ M) (p : κ → Bool) (k : κ) :
    (d.filter fun x _ => p x).val k = if p k then d.val k else 0 := by
  unfold val
  rw [get?_filter]
  cases d.get? k <;> cases p k <;> simp [Option.filter]

/-- Weights that add up also do so over the keys that pass a test. -/
theorem total_filter_add {d d₀ d₁ : PyDict κ M} (h : ∀ k, d.val k = d₀.val k + d₁.val k)
    (p : κ → Bool) : (d.filter fun k _ => p k).total =
      (d₀.filter fun k _ => p k).total + (d₁.filter fun k _ => p k).total := by
  apply total_add
  intro k
  rw [val_filter, val_filter, val_filter, h k]
  split
  · rfl
  · rw [add_zero]

/-- A key has the weight of its entry. -/
theorem sum_filter_key (d : PyDict κ M) (k : κ) :
    ((d.entries.filter fun e => e.1 = k).map Prod.snd).sum = d.val k := by
  have hsub : ∀ x ∈ (d.filter fun x _ => x = k).keys, x ∈ ({k} : Finset κ) := by
    intro x hx
    obtain ⟨e, he, rfl⟩ := List.mem_map.mp hx
    exact Finset.mem_singleton.mpr (of_decide_eq_true (List.mem_filter.mp he).2)
  have htotal := total_eq_sum_of_subset hsub
  rw [Finset.sum_singleton] at htotal
  refine htotal.trans ?_
  rw [val_filter]
  simp

/-! ## Sums of dictionaries -/

/-- The dictionary with some weight added to a key. -/
def add (d : PyDict κ M) (k : κ) (v : M) : PyDict κ M := d.set k (d.val k + v)

theorem val_add (d : PyDict κ M) (k x : κ) (v : M) :
    (d.add k v).val x = d.val x + if x = k then v else 0 := by
  rw [add, val_set]
  split
  · rename_i h
    rw [h]
  · rw [add_zero]

theorem mem_keys_add {d : PyDict κ M} {k x : κ} {v : M} :
    x ∈ (d.add k v).keys ↔ x = k ∨ x ∈ d.keys := mem_keys_set

/-- A dictionary is the sum of two, key by key. -/
def IsSum (d d₁ d₂ : PyDict κ M) : Prop :=
  ∀ k, d.val k = d₁.val k + d₂.val k ∧ (k ∈ d.keys ↔ k ∈ d₁.keys ∨ k ∈ d₂.keys)

theorem isSum_empty (d : PyDict κ M) : IsSum d d empty := by
  intro k
  simp

theorem IsSum.symm {d d₁ d₂ : PyDict κ M} (h : IsSum d d₁ d₂) : IsSum d d₂ d₁ := by
  intro k
  rw [add_comm, or_comm]
  exact h k

theorem IsSum.add_left {d d₁ d₂ : PyDict κ M} (h : IsSum d d₁ d₂) (k : κ) (v : M) :
    IsSum (d.add k v) (d₁.add k v) d₂ := by
  intro x
  rw [val_add, val_add, mem_keys_add, mem_keys_add, (h x).1, (h x).2, add_right_comm, or_assoc]
  exact ⟨rfl, Iff.rfl⟩

/-- Along a loop each key gets what the turns for it add. -/
theorem val_foldl_add {α : Type} (key : α → κ) (w : α → M) (l : List α) (d : PyDict κ M) (x : κ) :
    (l.foldl (fun d e => d.add (key e) (w e)) d).val x =
      d.val x + (l.map fun e => if key e = x then w e else 0).sum := by
  induction l generalizing d with
  | nil => simp
  | cons e l ih =>
    rw [List.foldl_cons, ih, val_add, List.map_cons, List.sum_cons, add_assoc]
    simp only [eq_comm]

theorem total_add_key (d : PyDict κ M) (k : κ) (v : M) : (d.add k v).total = d.total + v := by
  have hval : ∀ x, (d.add k v).val x = d.val x + (single k v).val x := by simp [val_add]
  rw [total_add hval, total_single]

/-! ## Tallies -/

omit [AddCommMonoid M] in
/-- How often each item occurs in a list. -/
def tally (l : List κ) : PyDict κ ℕ := l.foldl (fun d k => d.add k 1) empty

theorem tally_concat (l : List κ) (k : κ) : tally (l ++ [k]) = (tally l).add k 1 := by
  simp [tally, List.foldl_append]

theorem mem_keys_tally {l : List κ} {k : κ} : k ∈ (tally l).keys ↔ k ∈ l := by
  induction l using List.reverseRecOn with
  | nil => simp [tally]
  | append_singleton l x ih =>
    rw [tally_concat, mem_keys_add, ih, List.mem_append, List.mem_singleton, or_comm]

theorem get?_tally (l : List κ) (k : κ) :
    (tally l).get? k = if k ∈ l then some (l.count k) else none := by
  have hval : (tally l).val k = l.count k := by
    induction l using List.reverseRecOn with
    | nil => simp [tally]
    | append_singleton l x ih =>
      rw [tally_concat, val_add, ih, List.count_append, List.count_singleton]
      by_cases hx : k = x
      · simp [hx]
      · simp [hx, Ne.symm hx]
  by_cases hk : k ∈ l
  · obtain ⟨v, hv⟩ := Option.ne_none_iff_exists'.mp fun h =>
      get?_eq_none_iff.mp h (mem_keys_tally.mpr hk)
    rw [if_pos hk, ← hval, val, hv]
    rfl
  · rw [if_neg hk, get?_eq_none_iff, mem_keys_tally]
    exact hk

theorem total_tally (l : List κ) : (tally l).total = l.length := by
  induction l using List.reverseRecOn with
  | nil => rfl
  | append_singleton l x ih => rw [tally_concat, total_add_key, ih, List.length_append]; rfl

/-! ## Many writes -/

theorem val_foldl_set (f : κ → M) (l : List κ) (d : PyDict κ M) (x : κ) :
    (l.foldl (fun d k => d.set k (f k)) d).val x = if x ∈ l then f x else d.val x := by
  induction l generalizing d with
  | nil => simp
  | cons k rest ih =>
    rw [List.foldl_cons, ih, val_set]
    by_cases hx : x = k
    · subst hx
      simp
    · simp [hx]

omit [AddCommMonoid M] in
theorem mem_keys_foldl_set (f : κ → M) (l : List κ) (d : PyDict κ M) (x : κ) :
    x ∈ (l.foldl (fun d k => d.set k (f k)) d).keys ↔ x ∈ l ∨ x ∈ d.keys := by
  induction l generalizing d with
  | nil => simp
  | cons k rest ih =>
    rw [List.foldl_cons, ih, mem_keys_set, List.mem_cons]
    tauto

omit [AddCommMonoid M] in
theorem keys_foldl_set (f : κ → M) {l : List κ} (hl : l.Nodup) :
    (l.foldl (fun d k => d.set k (f k)) empty).keys = l := by
  have hfst : (l.map fun k => (k, f k)).map Prod.fst = l := by simp [Function.comp_def]
  have hentries : ((empty : PyDict κ M).setAll (l.map fun k => (k, f k))).entries =
      [] ++ l.map fun k => (k, f k) := entries_setAll (by rw [hfst]; exact hl)
  unfold setAll at hentries
  rw [List.foldl_map] at hentries
  unfold keys
  rw [hentries]
  exact hfst

/-! ## Weights that move to other keys -/

section Pour

variable {ι : Type}

/-- The weights of `src`, each added to the key that `g` gives for its own one. -/
def pour (g : ι → κ) (src : PyDict ι M) (d : PyDict κ M) : PyDict κ M :=
  src.entries.foldl (fun d e => d.add (g e.1) e.2) d

/-- A key gets the weights of all keys that move to it. -/
theorem val_pour (g : ι → κ) (src : PyDict ι M) (d : PyDict κ M) (x : κ) :
    (pour g src d).val x = d.val x + (src.filter fun k _ => g k = x).total := by
  unfold pour total values filter
  rw [val_foldl_add]
  congr 1
  dsimp only
  induction src.entries with
  | nil => rfl
  | cons e l ih =>
    rw [List.map_cons, List.sum_cons, ih, List.filter_cons]
    by_cases hx : g e.1 = x <;> simp [hx]

theorem keys_pour {g : ι → κ} {d : PyDict κ M} (h : ∀ k, g k ∈ d.keys) (src : PyDict ι M) :
    (pour g src d).keys = d.keys := by
  unfold pour
  refine List.foldlRecOn (motive := fun d' : PyDict κ M => d'.keys = d.keys) _ _ rfl ?_
  intro d' hkeys e _
  rw [add, keys_set, hkeys, if_pos (h e.1)]

/-- No weight is lost. -/
theorem total_pour (g : ι → κ) (src : PyDict ι M) (d : PyDict κ M) :
    (pour g src d).total = d.total + src.total := by
  unfold pour
  change _ = d.total + (src.entries.map Prod.snd).sum
  generalize src.entries = l
  induction l generalizing d with
  | nil => simp
  | cons e l ih => rw [List.foldl_cons, ih, total_add_key, List.map_cons, List.sum_cons, add_assoc]

/-- Weights that add up do so wherever they move, when nothing was there. -/
theorem isSum_pour [DecidableEq ι] {g : ι → κ} {d : PyDict κ M} (hg : ∀ k, g k ∈ d.keys)
    (hd : ∀ x, d.val x = 0) {src src₀ src₁ : PyDict ι M}
    (h : ∀ k, src.val k = src₀.val k + src₁.val k) :
    IsSum (pour g src d) (pour g src₀ d) (pour g src₁ d) := by
  intro x
  rw [val_pour, val_pour, val_pour, hd x, keys_pour hg, keys_pour hg, keys_pour hg, or_self]
  refine ⟨?_, Iff.rfl⟩
  rw [zero_add, zero_add, zero_add]
  exact total_filter_add h fun k => g k = x

end Pour

end PyDict
