-- Dictionaries with insertion order, as Python keeps them. A write to a
-- key that is there changes its value in place, and a write to a new key
-- goes to the end. The keys are distinct in every dictionary that can be
-- built.
import Mathlib.Data.List.Basic
import Mathlib.Data.List.Induction
import Mathlib.Data.List.Nodup

/-- Why a run of Python code gives no value. A loop of the model that has used up its
fuel stops with `outOfFuel`. -/
inductive PyError
  | indexError
  | keyError
  | valueError
  | zeroDivisionError
  | unboundLocalError
  | exception (message : String)
  | outOfFuel
  deriving DecidableEq, Repr

namespace PyError

variable {α β γ δ : Type}

/-- Both steps of a run that gives a value give one. -/
theorem ok_of_bind {x : Except PyError α} {f : α → Except PyError β} {b : β}
    (h : (x >>= f) = .ok b) : ∃ a, x = .ok a ∧ f a = .ok b := by
  cases x with
  | error err => cases h
  | ok a => exact ⟨a, rfl, h⟩

/-- A run that raises no `Exception` of its own. -/
def Quiet (x : Except PyError α) : Prop :=
  ∀ message, x ≠ .error (.exception message)

theorem quiet_ok (a : α) : Quiet (.ok a) := by
  rintro message ⟨⟩

theorem Quiet.bind {x : Except PyError α} {f : α → Except PyError β}
    (hx : Quiet x) (hf : ∀ a, x = .ok a → Quiet (f a)) : Quiet (x >>= f) := by
  cases x with
  | error err =>
    intro message h
    cases h
    exact hx message rfl
  | ok a => exact hf a rfl

/-- Two loops over related lists end in related states, when each turn keeps the relation. -/
theorem foldlM_rel {α α' β β' : Type} {S : α → α' → Prop} {R : β → β' → Prop}
    {f : β → α → Except PyError β} {f' : β' → α' → Except PyError β'} {l : List α} {l' : List α'}
    (hstep : ∀ b b' x x' c c', R b b' → S x x' → f b x = .ok c → f' b' x' = .ok c' → R c c')
    (hl : List.Forall₂ S l l') {b c : β} {b' c' : β'} (hb : R b b')
    (hc : l.foldlM f b = .ok c) (hc' : l'.foldlM f' b' = .ok c') : R c c' := by
  induction hl generalizing b b' with
  | nil =>
    cases hc
    cases hc'
    exact hb
  | cons hx _ ih =>
    rw [List.foldlM_cons] at hc hc'
    obtain ⟨m, hm, hc⟩ := ok_of_bind hc
    obtain ⟨m', hm', hc'⟩ := ok_of_bind hc'
    exact ih (hstep _ _ _ _ _ _ hb hx hm hm') hc hc'

/-- Two runs that give related values, or stop with the same error. -/
inductive Agree (R : α → β → Prop) : Except PyError α → Except PyError β → Prop
  | ok {a : α} {b : β} : R a b → Agree R (.ok a) (.ok b)
  | error (err : PyError) : Agree R (.error err) (.error err)

theorem Agree.refl (x : Except PyError α) : Agree Eq x x := by
  cases x with
  | ok a => exact .ok rfl
  | error err => exact .error err

theorem Agree.bind {R : α → β → Prop} {S : γ → δ → Prop}
    {x : Except PyError α} {y : Except PyError β} {f : α → Except PyError γ}
    {g : β → Except PyError δ} (h : Agree R x y) (hf : ∀ a b, R a b → Agree S (f a) (g b)) :
    Agree S (x >>= f) (y >>= g) := by
  cases h with
  | ok hab => exact hf _ _ hab
  | error err => exact .error err

variable {f : β → α → Except PyError β} {l : List α}

theorem Agree.foldlM {R : β → γ → Prop} {g : γ → α → Except PyError γ}
    (hstep : ∀ b c x, R b c → Agree R (f b x) (g c x)) (l : List α) {b : β} {c : γ} (h : R b c) :
    Agree R (l.foldlM f b) (l.foldlM g c) := by
  induction l generalizing b c with
  | nil => exact .ok h
  | cons x l ih =>
    rw [List.foldlM_cons, List.foldlM_cons]
    exact (hstep b c x h).bind fun b' c' h' => ih h'

/-- What each turn of a loop keeps holds behind the loop. -/
theorem foldlM_inv {P : β → Prop}
    (hstep : ∀ b, ∀ x ∈ l, ∀ c, P b → f b x = .ok c → P c) {b c : β} (hb : P b)
    (h : l.foldlM f b = .ok c) : P c := by
  induction l generalizing b with
  | nil =>
    cases h
    exact hb
  | cons x l ih =>
    rw [List.foldlM_cons] at h
    obtain ⟨m, hm, h⟩ := ok_of_bind h
    exact ih (fun b y hy => hstep b y (List.mem_cons_of_mem _ hy))
      (hstep b x List.mem_cons_self m hb hm) h

/-- A loop whose turns all give a value is a loop without errors. -/
theorem foldlM_eq_ok {g : β → α → β} (h : ∀ x ∈ l, ∀ b, f b x = .ok (g b x)) (b : β) :
    l.foldlM f b = .ok (l.foldl g b) := by
  induction l generalizing b with
  | nil => rfl
  | cons x l ih =>
    rw [List.forall_mem_cons] at h
    rw [List.foldlM_cons, h.1 b]
    exact ih h.2 (g b x)

theorem foldlM_congr {g : β → α → Except PyError β} (h : ∀ x ∈ l, ∀ b, f b x = g b x)
    (b : β) : l.foldlM f b = l.foldlM g b := by
  induction l generalizing b with
  | nil => rfl
  | cons x l ih =>
    rw [List.forall_mem_cons] at h
    rw [List.foldlM_cons, List.foldlM_cons, h.1 b]
    exact congrArg _ (funext fun c => ih h.2 c)

/-- Each turn of a loop that gives a value gives one. -/
theorem turn_of_foldlM {b c : β} (h : l.foldlM f b = .ok c) :
    ∀ x ∈ l, ∃ b' c', f b' x = .ok c' := by
  induction l generalizing b with
  | nil => simp
  | cons x l ih =>
    rw [List.foldlM_cons] at h
    obtain ⟨m, hm, h⟩ := ok_of_bind h
    rw [List.forall_mem_cons]
    exact ⟨⟨b, m, hm⟩, ih h⟩

/-- What holds of the turns so far and the state, and is kept by each turn, holds in the end. -/
theorem foldlM_along {P : List α → β → Prop} {b : β} (hstart : P [] b)
    (hstep : ∀ done x b c, P done b → f b x = .ok c → P (done ++ [x]) c) {c : β}
    (h : l.foldlM f b = .ok c) : P l c := by
  induction l using List.reverseRecOn generalizing c with
  | nil =>
    cases h
    exact hstart
  | append_singleton l x ih =>
    rw [List.foldlM_append] at h
    obtain ⟨mid, hmid, h⟩ := ok_of_bind h
    obtain ⟨last, hlast, h⟩ := ok_of_bind h
    cases h
    exact hstep l x mid c (ih hmid) hlast

/-- A loop whose turns all return from a state of the invariant returns, with the invariant. -/
theorem exists_foldlM_along {P : List α → β → Prop} {b : β} (hstart : P [] b)
    (hstep : ∀ done, ∀ x ∈ l, ∀ b, P done b → ∃ c, f b x = .ok c ∧ P (done ++ [x]) c) :
    ∃ c, l.foldlM f b = .ok c ∧ P l c := by
  induction l using List.reverseRecOn with
  | nil => exact ⟨b, rfl, hstart⟩
  | append_singleton l x ih =>
    have hrest := ih fun done y hy => hstep done y (List.mem_append_left _ hy)
    obtain ⟨mid, hmid, hP⟩ := hrest
    obtain ⟨c, hc, hP'⟩ := hstep l x (by simp) mid hP
    refine ⟨c, ?_, hP'⟩
    rw [List.foldlM_append, hmid]
    simp only [bind, Except.bind, List.foldlM_cons, hc]
    rfl

/-- A loop whose turns all end without an error does so too. -/
theorem exists_foldlM (h : ∀ x ∈ l, ∀ b, ∃ c, f b x = .ok c) (b : β) :
    ∃ c, l.foldlM f b = .ok c := by
  have hstep : ∀ x ∈ l, ∀ b, ∃ c, f b x = .ok c ∧ True := by simpa using h
  obtain ⟨c, hc, -⟩ := exists_foldlM_along (P := fun _ _ => True) (b := b) trivial
    fun _ x hx b _ => hstep x hx b
  exact ⟨c, hc⟩

/-- Each turn of a loop that gives a list gives the value at its place. -/
theorem forall₂_of_mapM {f : α → Except PyError β} {l' : List β} (h : l.mapM f = .ok l') :
    List.Forall₂ (fun x y => f x = .ok y) l l' := by
  induction l generalizing l' with
  | nil =>
    cases h
    exact .nil
  | cons x l ih =>
    rw [List.mapM_cons] at h
    obtain ⟨y, hy, h⟩ := ok_of_bind h
    obtain ⟨ys, hys, h⟩ := ok_of_bind h
    cases h
    exact .cons hy (ih hys)

/-- A loop whose turns all give a value gives the list of them. -/
theorem mapM_eq_ok {f : α → Except PyError β} {g : α → β}
    (h : ∀ x ∈ l, f x = .ok (g x)) : l.mapM f = .ok (l.map g) := by
  induction l with
  | nil => rfl
  | cons x l ih =>
    rw [List.forall_mem_cons] at h
    rw [List.mapM_cons, h.1, ih h.2]
    rfl

theorem exists_mapM {f : α → Except PyError β}
    (h : ∀ x ∈ l, ∃ y, f x = .ok y) : ∃ l', l.mapM f = .ok l' := by
  induction l with
  | nil => exact ⟨[], rfl⟩
  | cons x l ih =>
    rw [List.forall_mem_cons] at h
    obtain ⟨y, hy⟩ := h.1
    obtain ⟨ys, hys⟩ := ih h.2
    refine ⟨y :: ys, ?_⟩
    rw [List.mapM_cons, hy, hys]
    rfl

/-- A loop over indices whose turns give values is the loop over the items there. -/
theorem foldlM_range_eq_ok {f : β → ℕ → Except PyError β} {g : β → α → β}
    {n : ℕ} (h : ∀ i < n, ∀ b, ∃ x, l[i]? = some x ∧ f b i = .ok (g b x)) (b : β) :
    (List.range n).foldlM f b = .ok ((l.take n).foldl g b) := by
  induction n with
  | zero => rfl
  | succ n ih =>
    obtain ⟨x, hx, hf⟩ := h n (Nat.lt_succ_self n) ((l.take n).foldl g b)
    rw [List.range_succ, List.foldlM_append, ih fun i hi => h i (Nat.lt_succ_of_lt hi),
      List.take_add_one, hx, List.foldl_append]
    change ([n].foldlM f ((l.take n).foldl g b)) = _
    rw [List.foldlM_cons, hf]
    rfl

end PyError

/-- Related lists agree on what related items agree on. -/
theorem map_eq_of_forall₂ {α β γ : Type} {R : α → β → Prop} {f : α → γ} {g : β → γ}
    (hR : ∀ x y, R x y → f x = g y) {l : List α} {l' : List β} (h : List.Forall₂ R l l') :
    l.map f = l'.map g := by
  induction h with
  | nil => rfl
  | cons hxy _ ih => rw [List.map_cons, List.map_cons, hR _ _ hxy, ih]

theorem exists_of_forall₂ {α β : Type} {R : α → β → Prop} {l : List α} {l' : List β}
    (h : List.Forall₂ R l l') {x' : β} (hx : x' ∈ l') : ∃ x ∈ l, R x x' := by
  induction h with
  | nil => cases hx
  | cons hR _ ih =>
    rcases List.mem_cons.mp hx with rfl | hx
    · exact ⟨_, List.mem_cons_self, hR⟩
    · obtain ⟨x, hmem, hR⟩ := ih hx
      exact ⟨x, List.mem_cons_of_mem _ hmem, hR⟩

/-- The entries of a dictionary, oldest key first. -/
structure PyDict (κ ν : Type) where
  entries : List (κ × ν)
  nodup : (entries.map Prod.fst).Nodup

namespace PyDict

variable {κ ν : Type}

/-- The dictionary `{}`. -/
def empty : PyDict κ ν := ⟨[], List.nodup_nil⟩

def keys (d : PyDict κ ν) : List κ := d.entries.map Prod.fst

def values (d : PyDict κ ν) : List ν := d.entries.map Prod.snd

@[simp] theorem entries_empty : (empty : PyDict κ ν).entries = [] := rfl

@[simp] theorem keys_empty : (empty : PyDict κ ν).keys = [] := rfl

variable [DecidableEq κ]

instance [DecidableEq ν] : DecidableEq (PyDict κ ν) := fun a b =>
  decidable_of_iff (a.entries = b.entries) (by cases a; cases b; simp)

/-- The write `l[k] = v` on a list of entries. -/
def setEntries : List (κ × ν) → κ → ν → List (κ × ν)
  | [], k, v => [(k, v)]
  | e :: rest, k, v => if e.1 = k then (k, v) :: rest else e :: setEntries rest k v

theorem setEntries_of_not_mem (l : List (κ × ν)) (k : κ) (v : ν) (h : k ∉ l.map Prod.fst) :
    setEntries l k v = l ++ [(k, v)] := by
  induction l with
  | nil => rfl
  | cons e rest ih =>
    simp only [List.map_cons, List.mem_cons, not_or] at h
    simp only [setEntries, if_neg (Ne.symm h.1), List.cons_append]
    rw [ih h.2]

/-- A write to the newest key changes the last entry. -/
theorem setEntries_of_last (l : List (κ × ν)) (k : κ) (u v : ν) (h : k ∉ l.map Prod.fst) :
    setEntries (l ++ [(k, u)]) k v = l ++ [(k, v)] := by
  induction l with
  | nil => simp [setEntries]
  | cons e rest ih =>
    simp only [List.map_cons, List.mem_cons, not_or] at h
    simp only [List.cons_append, setEntries, if_neg (Ne.symm h.1)]
    rw [ih h.2]

theorem keys_setEntries (l : List (κ × ν)) (k : κ) (v : ν) :
    (setEntries l k v).map Prod.fst =
      if k ∈ l.map Prod.fst then l.map Prod.fst else l.map Prod.fst ++ [k] := by
  induction l with
  | nil => simp [setEntries]
  | cons e rest ih =>
    simp only [setEntries]
    by_cases he : e.1 = k
    · simp [he]
    · simp only [if_neg he, List.map_cons, ih, List.mem_cons, Ne.symm he, false_or]
      split <;> simp

/-- The write `d[k] = v`. -/
def set (d : PyDict κ ν) (k : κ) (v : ν) : PyDict κ ν where
  entries := setEntries d.entries k v
  nodup := by
    rw [keys_setEntries]
    split
    · exact d.nodup
    · rename_i hk
      rw [List.nodup_append]
      refine ⟨d.nodup, List.nodup_singleton k, ?_⟩
      intro a ha b hb
      simp only [List.mem_singleton] at hb
      subst hb
      intro hab
      exact hk (hab ▸ ha)

/-- The read `d[k]`, with `none` for a `KeyError`. -/
def get? (d : PyDict κ ν) (k : κ) : Option ν := (d.entries.find? (fun e => e.1 = k)).map Prod.snd

@[simp] theorem entries_set (d : PyDict κ ν) (k : κ) (v : ν) :
    (d.set k v).entries = setEntries d.entries k v := rfl

theorem entries_set_new {d : PyDict κ ν} {k : κ} (v : ν) (h : k ∉ d.keys) :
    (d.set k v).entries = d.entries ++ [(k, v)] := setEntries_of_not_mem _ _ _ h

theorem keys_set (d : PyDict κ ν) (k : κ) (v : ν) :
    (d.set k v).keys = if k ∈ d.keys then d.keys else d.keys ++ [k] :=
  keys_setEntries d.entries k v

variable {v : ν}

theorem mem_keys_set {d : PyDict κ ν} {k x : κ} : x ∈ (d.set k v).keys ↔ x = k ∨ x ∈ d.keys := by
  rw [keys_set]
  split
  · rename_i hk
    constructor
    · exact Or.inr
    · rintro (rfl | hx)
      · exact hk
      · exact hx
  · simp [or_comm]

theorem find?_setEntries (l : List (κ × ν)) (k x : κ) (v : ν) :
    (setEntries l k v).find? (fun e => e.1 = x) =
      if x = k then some (k, v) else l.find? (fun e => e.1 = x) := by
  induction l with
  | nil =>
    unfold setEntries
    by_cases hx : x = k
    · simp [hx]
    · simp [hx, Ne.symm hx]
  | cons e rest ih =>
    unfold setEntries
    by_cases he : e.1 = k
    · by_cases hx : x = k
      · simp [he, hx]
      · simp [he, hx, Ne.symm hx]
    · rw [if_neg he, List.find?_cons, ih]
      by_cases hx : x = k
      · simp [hx, he]
      · simp only [hx, ↓reduceIte, List.find?_cons]

@[simp] theorem get?_set_self (d : PyDict κ ν) (k : κ) (v : ν) : (d.set k v).get? k = some v := by
  unfold get?
  rw [entries_set, find?_setEntries, if_pos rfl]
  rfl

theorem get?_set_of_ne (d : PyDict κ ν) {k x : κ} (v : ν) (h : x ≠ k) :
    (d.set k v).get? x = d.get? x := by
  unfold get?
  rw [entries_set, find?_setEntries, if_neg h]

theorem get?_eq_none_iff {d : PyDict κ ν} {k : κ} : d.get? k = none ↔ k ∉ d.keys := by
  unfold get? keys
  simp only [Option.map_eq_none_iff, List.find?_eq_none, decide_eq_true_eq, List.mem_map, not_exists,
    not_and]

theorem mem_keys_of_get? {d : PyDict κ ν} {k : κ} (h : d.get? k = some v) : k ∈ d.keys := by
  by_contra hnot
  rw [get?_eq_none_iff.mpr hnot] at h
  cases h

theorem exists_get?_of_mem_keys {d : PyDict κ ν} {k : κ} (h : k ∈ d.keys) :
    ∃ v, d.get? k = some v := by
  rw [← Option.ne_none_iff_exists', ne_eq, get?_eq_none_iff, not_not]
  exact h

theorem get?_eq_some_iff {d : PyDict κ ν} {k : κ} : d.get? k = some v ↔ (k, v) ∈ d.entries := by
  unfold get?
  rw [Option.map_eq_some_iff]
  constructor
  · rintro ⟨e, he, rfl⟩
    have hk : e.1 = k := by simpa using List.find?_some he
    rw [← hk]
    exact List.mem_of_find?_eq_some he
  · intro h
    rcases hf : d.entries.find? (fun e => e.1 = k) with _ | e
    · rw [List.find?_eq_none] at hf
      exact absurd (hf _ h) (by simp)
    · have hk : e.1 = k := by simpa using List.find?_some hf
      have := List.inj_on_of_nodup_map d.nodup (List.mem_of_find?_eq_some hf) h hk
      exact ⟨e, hf, by rw [this]⟩

theorem mem_entries_set {d : PyDict κ ν} {k x : κ} {u : ν} (h : (x, v) ∈ (d.set k u).entries) :
    (x = k ∧ v = u) ∨ (x, v) ∈ d.entries := by
  rw [← get?_eq_some_iff] at h
  by_cases hx : x = k
  · subst hx
    rw [get?_set_self] at h
    exact .inl ⟨rfl, (Option.some.inj h).symm⟩
  · rw [get?_set_of_ne d u hx, get?_eq_some_iff] at h
    exact .inr h

/-- The writes of a list, one after the other. -/
def setAll (d : PyDict κ ν) (ws : List (κ × ν)) : PyDict κ ν :=
  ws.foldl (fun m w => m.set w.1 w.2) d

/-- Writes to keys that are all new and all different stay in the order they were made. -/
theorem entries_setAll {d : PyDict κ ν} {ws : List (κ × ν)}
    (h : (d.keys ++ ws.map Prod.fst).Nodup) : (d.setAll ws).entries = d.entries ++ ws := by
  induction ws generalizing d with
  | nil => simp [setAll]
  | cons w ws ih =>
    have hnew : w.1 ∉ d.keys := by
      intro hw
      exact (List.nodup_append.mp h).2.2 _ hw _ List.mem_cons_self rfl
    have hkeys : (d.set w.1 w.2).keys = d.keys ++ [w.1] := by rw [keys_set, if_neg hnew]
    have htail := ih (d := d.set w.1 w.2) (by simpa [hkeys] using h)
    rw [entries_set_new w.2 hnew, List.append_assoc] at htail
    exact htail

/-! ## The same keys with other values -/

/-- A new value for each key. -/
def mapVal {μ : Type} (f : κ → ν → μ) (d : PyDict κ ν) : PyDict κ μ where
  entries := d.entries.map fun e => (e.1, f e.1 e.2)
  nodup := by
    rw [List.map_map]
    exact d.nodup

/-- The entries that pass a test. -/
def filter (p : κ → ν → Bool) (d : PyDict κ ν) : PyDict κ ν where
  entries := d.entries.filter fun e => p e.1 e.2
  nodup := d.nodup.sublist (List.filter_sublist.map Prod.fst)

variable {μ : Type}

omit [DecidableEq κ] in
@[simp] theorem keys_mapVal (f : κ → ν → μ) (d : PyDict κ ν) : (d.mapVal f).keys = d.keys := by
  simp [keys, mapVal]

theorem get?_mapVal (f : κ → ν → μ) (d : PyDict κ ν) (k : κ) :
    (d.mapVal f).get? k = (d.get? k).map (f k) := by
  rcases h : d.get? k with _ | v
  · rw [get?_eq_none_iff] at h
    rw [Option.map_none, get?_eq_none_iff, keys_mapVal]
    exact h
  · rw [get?_eq_some_iff] at h
    rw [Option.map_some, get?_eq_some_iff]
    exact List.mem_map.mpr ⟨(k, v), h, rfl⟩

theorem get?_filter (p : κ → ν → Bool) (d : PyDict κ ν) (k : κ) :
    (d.filter p).get? k = (d.get? k).filter (p k) := by
  ext v
  rw [get?_eq_some_iff, Option.filter_eq_some_iff, get?_eq_some_iff]
  exact List.mem_filter

/-- A new value for each key, by a loop that writes each entry anew and stops at the first
error. -/
def mapM {μ : Type} (f : κ → ν → Except PyError μ) (d : PyDict κ ν) : Except PyError (PyDict κ μ) :=
  d.entries.foldlM (fun acc e => do return acc.set e.1 (← f e.1 e.2)) empty

theorem foldlM_set_spec {f : κ → ν → Except PyError μ} (l : List (κ × ν)) (acc d' : PyDict κ μ)
    (hnd : (l.map Prod.fst).Nodup) (hnew : ∀ k ∈ l.map Prod.fst, k ∉ acc.keys)
    (h : l.foldlM (fun acc e => do return acc.set e.1 (← f e.1 e.2)) acc = .ok d') :
    ∃ l', d'.entries = acc.entries ++ l' ∧
      List.Forall₂ (fun e e' => e.1 = e'.1 ∧ f e.1 e.2 = .ok e'.2) l l' := by
  induction l generalizing acc with
  | nil =>
    cases h
    exact ⟨[], by simp, List.Forall₂.nil⟩
  | cons e rest ih =>
    rw [List.map_cons, List.nodup_cons] at hnd
    rw [List.foldlM_cons] at h
    rcases hf : f e.1 e.2 with err | v
    · rw [hf] at h
      cases h
    · rw [hf] at h
      have hk : e.1 ∉ acc.keys := hnew e.1 (by simp)
      obtain ⟨l', hl', hrel⟩ := ih (acc.set e.1 v) hnd.2 (by
        intro k hmem
        rw [mem_keys_set]
        rintro (rfl | hk')
        · exact hnd.1 hmem
        · exact hnew k (List.mem_cons_of_mem _ hmem) hk') h
      refine ⟨(e.1, v) :: l', ?_, List.Forall₂.cons ⟨rfl, hf⟩ hrel⟩
      rw [hl', entries_set_new v hk]
      simp

variable {d' : PyDict κ μ}

/-- A loop that ends without an error has a value for each key and no other key. -/
theorem mapM_spec {f : κ → ν → Except PyError μ} {d : PyDict κ ν} (h : d.mapM f = .ok d') :
    List.Forall₂ (fun e e' => e.1 = e'.1 ∧ f e.1 e.2 = .ok e'.2) d.entries d'.entries := by
  obtain ⟨l', hl', hrel⟩ := foldlM_set_spec d.entries empty d' d.nodup (by simp) h
  rw [hl']
  exact hrel

theorem keys_mapM {f : κ → ν → Except PyError μ} {d : PyDict κ ν} (h : d.mapM f = .ok d') :
    d'.keys = d.keys :=
  (map_eq_of_forall₂ (fun _ _ he => he.1) (mapM_spec h)).symm

theorem get?_mapM {f : κ → ν → Except PyError μ} {d : PyDict κ ν} (h : d.mapM f = .ok d') {k : κ}
    (hv : d.get? k = some v) : ∃ v', f k v = .ok v' ∧ d'.get? k = some v' := by
  obtain ⟨⟨k', v'⟩, hmem, rfl, hf⟩ :=
    exists_of_forall₂ (mapM_spec h).flip (get?_eq_some_iff.mp hv)
  exact ⟨v', hf, get?_eq_some_iff.mpr hmem⟩

/-! ## Two dictionaries with the same keys and related values -/

/-- The keys are the same, in the same order, and the values are related. -/
structure Rel (R : ν → μ → Prop) (d : PyDict κ ν) (d' : PyDict κ μ) : Prop where
  keys : d.keys = d'.keys
  vals : ∀ k v v', d.get? k = some v → d'.get? k = some v' → R v v'

theorem rel_empty (R : ν → μ → Prop) : Rel R (empty : PyDict κ ν) empty :=
  ⟨rfl, fun _ _ _ h => by cases h⟩

theorem Rel.set {R : ν → μ → Prop} {d : PyDict κ ν} {d' : PyDict κ μ} (h : Rel R d d') (k : κ)
    {v : ν} {v' : μ} (hv : R v v') : Rel R (d.set k v) (d'.set k v') := by
  refine ⟨by rw [keys_set, keys_set, h.keys], ?_⟩
  intro x u u' hu hu'
  by_cases hx : x = k
  · subst hx
    rw [get?_set_self] at hu hu'
    cases hu
    cases hu'
    exact hv
  · rw [get?_set_of_ne d v hx] at hu
    rw [get?_set_of_ne d' v' hx] at hu'
    exact h.vals x u u' hu hu'

omit [DecidableEq κ] in
theorem forall₂_of_keys {R : ν → μ → Prop} (l : List (κ × ν)) (l' : List (κ × μ))
    (hkeys : l.map Prod.fst = l'.map Prod.fst)
    (hvals : ∀ k v v', (k, v) ∈ l → (k, v') ∈ l' → R v v') :
    List.Forall₂ (fun e e' => e.1 = e'.1 ∧ R e.2 e'.2) l l' := by
  induction l generalizing l' with
  | nil =>
    rw [List.map_nil] at hkeys
    rw [List.map_eq_nil_iff.mp hkeys.symm]
    exact List.Forall₂.nil
  | cons e rest ih =>
    cases l' with
    | nil => cases hkeys
    | cons e' rest' =>
      rw [List.map_cons, List.map_cons, List.cons.injEq] at hkeys
      refine List.Forall₂.cons ⟨hkeys.1, ?_⟩ (ih rest' hkeys.2 ?_)
      · apply hvals e.1 e.2 e'.2 List.mem_cons_self
        rw [hkeys.1]
        exact List.mem_cons_self
      · intro k v v' hv hv'
        exact hvals k v v' (List.mem_cons_of_mem _ hv) (List.mem_cons_of_mem _ hv')

/-- Related dictionaries have related entries, one by one. -/
theorem Rel.forall₂ {R : ν → μ → Prop} {d : PyDict κ ν} (h : Rel R d d') :
    List.Forall₂ (fun e e' => e.1 = e'.1 ∧ R e.2 e'.2) d.entries d'.entries := by
  apply forall₂_of_keys _ _ h.keys
  intro k v v' hv hv'
  exact h.vals k v v' (get?_eq_some_iff.mpr hv) (get?_eq_some_iff.mpr hv')

variable {ρ : Type}

/-- A loop that has a value for each entry ends without an error. -/
theorem mapM_ok {f : κ → μ → Except PyError ρ} {d : PyDict κ μ}
    (h : ∀ e ∈ d.entries, ∃ v, f e.1 e.2 = .ok v) : ∃ d', d.mapM f = .ok d' := by
  unfold mapM
  generalize (empty : PyDict κ ρ) = acc
  generalize d.entries = l at h
  induction l generalizing acc with
  | nil => exact ⟨acc, rfl⟩
  | cons e rest ih =>
    rw [List.forall_mem_cons] at h
    obtain ⟨⟨v, hv⟩, hrest⟩ := h
    obtain ⟨d', hd'⟩ := ih (acc.set e.1 v) hrest
    refine ⟨d', ?_⟩
    rw [List.foldlM_cons, hv]
    exact hd'

/-- A loop over the values does not depend on the order of the keys. -/
theorem exists_mapM_congr {f : κ → μ → Except PyError ρ} {d₁ d₂ : PyDict κ μ} {e₁ : PyDict κ ρ}
    (h : ∀ k, d₂.get? k = d₁.get? k) (h₁ : d₁.mapM f = .ok e₁) :
    ∃ e₂, d₂.mapM f = .ok e₂ ∧ ∀ k, e₂.get? k = e₁.get? k := by
  have hvalues : ∀ e ∈ d₂.entries, ∃ v, f e.1 e.2 = .ok v := by
    intro e he
    have hget : d₁.get? e.1 = some e.2 := (h e.1).symm.trans (get?_eq_some_iff.mpr he)
    obtain ⟨v, hv, -⟩ := get?_mapM h₁ hget
    exact ⟨v, hv⟩
  obtain ⟨e₂, h₂⟩ := mapM_ok hvalues
  refine ⟨e₂, h₂, fun k => ?_⟩
  cases hget : d₁.get? k with
  | none =>
    have hget₂ : d₂.get? k = none := (h k).trans hget
    rw [get?_eq_none_iff, ← keys_mapM h₁, ← get?_eq_none_iff] at hget
    rw [get?_eq_none_iff, ← keys_mapM h₂, ← get?_eq_none_iff] at hget₂
    rw [hget, hget₂]
  | some v =>
    obtain ⟨w₁, hw₁, he₁⟩ := get?_mapM h₁ hget
    obtain ⟨w₂, hw₂, he₂⟩ := get?_mapM h₂ ((h k).trans hget)
    rw [hw₁, Except.ok.injEq] at hw₂
    rw [he₁, he₂, hw₂]

/-- A loop whose turns all give a value writes these values. -/
theorem mapM_eq_ok {f : κ → μ → Except PyError ρ} {g : κ → μ → ρ} {d : PyDict κ μ}
    (h : ∀ e ∈ d.entries, f e.1 e.2 = .ok (g e.1 e.2)) : d.mapM f = .ok (d.mapVal g) := by
  obtain ⟨d', hd'⟩ := mapM_ok fun e he => ⟨_, h e he⟩
  have hentries : d'.entries = (d.mapVal g).entries := by
    have hrel := mapM_spec hd'
    change _ = d.entries.map _
    generalize d.entries = l at h hrel
    generalize d'.entries = l' at hrel
    induction hrel with
    | nil => rfl
    | @cons e e' _ _ he _ ih =>
      rw [List.forall_mem_cons] at h
      have hvalue : g e.1 e.2 = e'.2 := Except.ok.inj (h.1.symm.trans he.2)
      rw [ih h.2, List.map_cons, hvalue, he.1]
  rw [hd']
  congr 1
  obtain ⟨_, _⟩ := d'
  cases hentries
  rfl

end PyDict
