-- The law of the instruction mix: what is left of the application without the
-- skeleton, category by category, in proportion. The loops of `run_analysis`
-- take the counts of the skeleton away one at a time.
import Ditto.InstMix
import Ditto.Lib.Mass
import Mathlib.Algebra.Order.BigOperators.Group.List
import Mathlib.Algebra.Order.Group.MinMax
import Mathlib.Tactic.Linarith

namespace ditto.inst_mix_analyzer

open assembly_generator

/-! ## The counts of a category -/

section Counts

variable {κ : Type} [DecidableEq κ] (catagorize : String → Except PyError (Option κ))

/-- All the names of a histogram have a category, or are known to have none. -/
def Catagorized (l : List (String × ℕ)) : Prop := ∀ imix ∈ l, ∃ o, catagorize imix.1 = .ok o

/-- A category occurs in a histogram. -/
def Occurs (l : List (String × ℕ)) (c : κ) : Prop := ∃ imix ∈ l, catagorize imix.1 = .ok (some c)

/-- The total count of a category in a histogram. -/
def countOf (l : List (String × ℕ)) (c : κ) : ℚ :=
  (l.map fun imix => if catagorize imix.1 = .ok (some c) then (imix.2 : ℚ) else 0).sum

/-- What the application has of a category on top of the skeleton. -/
def remaining (app skeleton : ImixHist) (c : κ) : ℚ :=
  max 0 (countOf catagorize app.entries c - countOf catagorize skeleton.entries c)

variable {catagorize}

theorem countOf_cons (imix : String × ℕ) (l : List (String × ℕ)) (c : κ) :
    countOf catagorize (imix :: l) c =
      (if catagorize imix.1 = .ok (some c) then (imix.2 : ℚ) else 0) + countOf catagorize l c := by
  simp [countOf]

omit [DecidableEq κ] in
theorem occurs_cons {imix : String × ℕ} {l : List (String × ℕ)} {c : κ} :
    Occurs catagorize (imix :: l) c ↔
      catagorize imix.1 = .ok (some c) ∨ Occurs catagorize l c := by
  simp [Occurs]

theorem countOf_nonneg (l : List (String × ℕ)) (c : κ) : 0 ≤ countOf catagorize l c := by
  apply List.sum_nonneg
  intro x hx
  obtain ⟨imix, -, rfl⟩ := List.mem_map.mp hx
  split
  · exact Nat.cast_nonneg _
  · exact le_refl _

theorem countOf_perm {l l' : List (String × ℕ)} (h : l.Perm l') (c : κ) :
    countOf catagorize l c = countOf catagorize l' c := (h.map _).sum_eq

omit [DecidableEq κ] in
theorem occurs_perm {l l' : List (String × ℕ)} (h : l.Perm l') (c : κ) :
    Occurs catagorize l c ↔ Occurs catagorize l' c := by
  simp only [Occurs, h.mem_iff]

/-! ## The loops over the histograms -/

variable {hist' : PyDict κ ℚ}

theorem add_app_turn {hist : PyDict κ ℚ} {imix : String × ℕ}
    (h : add_app catagorize hist imix = .ok hist') (c : κ) :
    hist'.val c =
        hist.val c + (if catagorize imix.1 = .ok (some c) then (imix.2 : ℚ) else 0) ∧
      (c ∈ hist'.keys ↔ c ∈ hist.keys ∨ catagorize imix.1 = .ok (some c)) := by
  obtain ⟨o, ho, h⟩ := PyError.ok_of_bind h
  cases o with
  | none =>
    cases h
    simp [ho]
  | some catagory =>
    cases h
    rw [PyDict.val_set, PyDict.mem_keys_set, ho]
    by_cases hc : c = catagory
    · subst hc
      simp [PyDict.val]
    · simp [hc, Ne.symm hc]

theorem add_app_run {l : List (String × ℕ)} {hist : PyDict κ ℚ}
    (h : l.foldlM (add_app catagorize) hist = .ok hist') (c : κ) :
    hist'.val c = hist.val c + countOf catagorize l c ∧
      (c ∈ hist'.keys ↔ c ∈ hist.keys ∨ Occurs catagorize l c) := by
  induction l generalizing hist with
  | nil =>
    cases h
    simp [countOf, Occurs]
  | cons imix l ih =>
    rw [List.foldlM_cons] at h
    obtain ⟨mid, hmid, h⟩ := PyError.ok_of_bind h
    obtain ⟨hval, hkeys⟩ := add_app_turn hmid c
    obtain ⟨hval', hkeys'⟩ := ih h
    rw [hval', hval, hkeys', hkeys, countOf_cons, occurs_cons, add_assoc, or_assoc]
    exact ⟨rfl, Iff.rfl⟩

theorem exists_add_app {l : List (String × ℕ)} (h : Catagorized catagorize l)
    (hist : PyDict κ ℚ) : ∃ hist', l.foldlM (add_app catagorize) hist = .ok hist' := by
  refine PyError.exists_foldlM (fun imix himix hist => ?_) hist
  obtain ⟨o, ho⟩ := h imix himix
  unfold add_app
  rw [ho]
  cases o with
  | none => exact ⟨_, rfl⟩
  | some catagory => exact ⟨_, rfl⟩

variable {absent : PyDict κ ℚ → Except PyError (PyDict κ ℚ)} {hist : PyDict κ ℚ}
  {imix : String × ℕ}

theorem sub_skeleton_of_none (ho : catagorize imix.1 = .ok none) :
    sub_skeleton catagorize absent hist imix = .ok hist := by
  unfold sub_skeleton
  rw [ho]
  rfl

theorem sub_skeleton_of_absent {c : κ} (ho : catagorize imix.1 = .ok (some c))
    (hget : hist.get? c = none) : sub_skeleton catagorize absent hist imix = absent hist := by
  unfold sub_skeleton
  simp only [ho, bind, Except.bind, hget]

theorem sub_skeleton_of_present {c : κ} {count : ℚ} (ho : catagorize imix.1 = .ok (some c))
    (hget : hist.get? c = some count) :
    sub_skeleton catagorize absent hist imix =
      .ok (hist.set c (max 0 (count - imix.2))) := by
  unfold sub_skeleton
  simp only [ho, bind, Except.bind, hget]
  rfl

/-- One turn over the skeleton takes its count away, down to zero. -/
theorem sub_skeleton_turn (habsent : ∀ d d', absent d = .ok d' → d' = d)
    (h : sub_skeleton catagorize absent hist imix = .ok hist') (c : κ) (hnonneg : 0 ≤ hist.val c) :
    hist'.val c =
        max 0 (hist.val c - (if catagorize imix.1 = .ok (some c) then (imix.2 : ℚ) else 0)) ∧
      (c ∈ hist'.keys ↔ c ∈ hist.keys) := by
  obtain ⟨o, ho, -⟩ := PyError.ok_of_bind h
  cases o with
  | none =>
    rw [sub_skeleton_of_none ho] at h
    cases h
    simp [ho, hnonneg]
  | some catagory =>
    simp only [ho, Except.ok.injEq, Option.some.injEq]
    cases hget : hist.get? catagory with
    | none =>
      rw [sub_skeleton_of_absent ho hget] at h
      rw [habsent _ _ h]
      refine ⟨?_, Iff.rfl⟩
      split
      · rename_i hc
        have hzero : hist.val c = 0 := by simp [PyDict.val, ← hc, hget]
        rw [hzero, zero_sub, max_eq_left (neg_nonpos.mpr (Nat.cast_nonneg _))]
      · rw [sub_zero, max_eq_right hnonneg]
    | some count =>
      rw [sub_skeleton_of_present ho hget] at h
      cases h
      rw [PyDict.val_set, PyDict.mem_keys_set]
      by_cases hc : c = catagory
      · subst hc
        simp [PyDict.val, hget, PyDict.mem_keys_of_get? hget]
      · simp [hc, Ne.symm hc, hnonneg]

/-- The counts that are taken away one at a time are taken away at once. -/
theorem sub_skeleton_run (habsent : ∀ d d', absent d = .ok d' → d' = d) {l : List (String × ℕ)}
    {hist : PyDict κ ℚ} (h : l.foldlM (sub_skeleton catagorize absent) hist = .ok hist') (c : κ)
    (hnonneg : 0 ≤ hist.val c) :
    hist'.val c = max 0 (hist.val c - countOf catagorize l c) ∧
      (c ∈ hist'.keys ↔ c ∈ hist.keys) := by
  induction l generalizing hist with
  | nil =>
    cases h
    simp [countOf, hnonneg]
  | cons imix l ih =>
    rw [List.foldlM_cons] at h
    obtain ⟨mid, hmid, h⟩ := PyError.ok_of_bind h
    obtain ⟨hval, hkeys⟩ := sub_skeleton_turn habsent hmid c hnonneg
    obtain ⟨hval', hkeys'⟩ := ih h (hval ▸ le_max_left _ _)
    refine ⟨?_, hkeys'.trans hkeys⟩
    -- A count that has reached zero stays there, since the next one is not negative.
    have hcount : 0 ≤ countOf catagorize l c := countOf_nonneg l c
    rw [hval', hval, countOf_cons, ← sub_sub, ← max_sub_sub_right, zero_sub, ← max_assoc,
      max_eq_left (neg_nonpos.mpr hcount)]

theorem exists_sub_skeleton {l : List (String × ℕ)} (h : Catagorized catagorize l)
    (hist : PyDict κ ℚ) : ∃ hist', l.foldlM (sub_skeleton catagorize .ok) hist = .ok hist' := by
  refine PyError.exists_foldlM (fun imix himix hist => ?_) hist
  obtain ⟨o, ho⟩ := h imix himix
  cases o with
  | none => exact ⟨_, sub_skeleton_of_none ho⟩
  | some catagory =>
    cases hget : hist.get? catagory with
    | none => exact ⟨_, sub_skeleton_of_absent ho hget⟩
    | some count => exact ⟨_, sub_skeleton_of_present ho hget⟩

/-- A skeleton whose categories must all be there, and whether they are. -/
theorem sub_skeleton_strict {l : List (String × ℕ)} (h : Catagorized catagorize l)
    (hist : PyDict κ ℚ) :
    ((∃ hist', l.foldlM (sub_skeleton catagorize fun _ => .error .keyError) hist = .ok hist') ∧
      ∀ c, Occurs catagorize l c → c ∈ hist.keys) ∨
    (l.foldlM (sub_skeleton catagorize fun _ => .error .keyError) hist = .error .keyError ∧
      ∃ c, Occurs catagorize l c ∧ c ∉ hist.keys) := by
  induction l generalizing hist with
  | nil => exact .inl ⟨⟨hist, rfl⟩, by simp [Occurs]⟩
  | cons imix l ih =>
    obtain ⟨⟨o, ho⟩, h⟩ := List.forall_mem_cons.mp h
    simp only [List.foldlM_cons, occurs_cons, ho, Except.ok.injEq]
    cases o with
    | none =>
      rw [sub_skeleton_of_none ho]
      simp only [reduceCtorEq, false_or]
      exact ih h hist
    | some catagory =>
      cases hget : hist.get? catagory with
      | none =>
        rw [sub_skeleton_of_absent ho hget]
        exact .inr ⟨rfl, catagory, .inl rfl, PyDict.get?_eq_none_iff.mp hget⟩
      | some count =>
        rw [sub_skeleton_of_present ho hget]
        have hkey := PyDict.mem_keys_of_get? hget
        have hrest := ih h (hist.set catagory (max 0 (count - imix.2)))
        rw [PyDict.keys_set, if_pos hkey] at hrest
        rcases hrest with ⟨hrun, hoccurs⟩ | ⟨hrun, c, hc, hmissing⟩
        · refine .inl ⟨hrun, ?_⟩
          rintro c (hc | hc)
          · cases hc
            exact hkey
          · exact hoccurs c hc
        · exact .inr ⟨hrun, c, .inr hc, hmissing⟩

/-! ## Weights in proportion -/

/-- The weights of a histogram are in proportion to some amounts. If there is none, all of the
weight is on one key. -/
structure InProportion (hist : PyDict κ ℚ) (amount : κ → ℚ) (fallback : κ) : Prop where
  nonneg : ∀ c, 0 ≤ hist.val c
  total_one : hist.total = 1
  share : ∀ c, hist.val c * ∑ x ∈ hist.keys.toFinset, amount x = amount c
  all_on_one : (∀ c, amount c = 0) → ∀ c, hist.val c = if c = fallback then 1 else 0

theorem normalize_of_total {hist : PyDict κ ℚ} (h : hist.total ≠ 0) (fallback : κ) :
    normalize hist fallback = hist.mapVal fun _ weight => weight / hist.total := if_pos h

theorem normalize_of_zero {hist : PyDict κ ℚ} (h : hist.total = 0) (fallback : κ) :
    normalize hist fallback = hist.set fallback 1 := if_neg (not_not.mpr h)

theorem val_eq_zero {hist : PyDict κ ℚ} (hnonneg : ∀ c, 0 ≤ hist.val c) (h : hist.total = 0)
    (c : κ) : hist.val c = 0 := by
  by_cases hc : c ∈ hist.keys
  · rw [PyDict.total_eq_sum, Finset.sum_eq_zero_iff_of_nonneg fun x _ => hnonneg x] at h
    exact h c (List.mem_toFinset.mpr hc)
  · exact PyDict.val_of_not_mem hc

theorem inProportion_normalize {hist : PyDict κ ℚ} (hnonneg : ∀ c, 0 ≤ hist.val c)
    (fallback : κ) : InProportion (normalize hist fallback) hist.val fallback := by
  by_cases h : hist.total = 0
  · have hzero := val_eq_zero hnonneg h
    have hval : ∀ c, (hist.set fallback 1).val c = (PyDict.single fallback 1).val c := by
      intro c
      rw [PyDict.val_set, PyDict.val_single, hzero]
    rw [normalize_of_zero h]
    refine ⟨fun c => ?_, ?_, fun c => ?_, fun _ c => ?_⟩
    · rw [hval, PyDict.val_single]
      split <;> simp
    · rw [PyDict.total_congr hval, PyDict.total_single]
    · simp only [hzero, Finset.sum_const_zero, mul_zero]
    · rw [hval, PyDict.val_single]
  · have hval : ∀ c, (hist.mapVal fun _ weight => weight / hist.total).val c =
        hist.val c / hist.total := by
      intro c
      unfold PyDict.val
      rw [PyDict.get?_mapVal]
      cases hist.get? c <;> simp
    have htotal : 0 ≤ hist.total := by
      rw [PyDict.total_eq_sum]
      exact Finset.sum_nonneg fun c _ => hnonneg c
    rw [normalize_of_total h]
    refine ⟨fun c => ?_, ?_, fun c => ?_, fun hnone c => ?_⟩
    · rw [hval]
      exact div_nonneg (hnonneg c) htotal
    · rw [PyDict.total_mapVal_div, div_self h]
    · rw [hval, PyDict.keys_mapVal, ← PyDict.total_eq_sum, div_mul_cancel₀ _ h]
    · refine absurd ?_ h
      rw [PyDict.total_eq_sum]
      exact Finset.sum_eq_zero fun x _ => hnone x

theorem mem_keys_normalize {hist : PyDict κ ℚ} (hnonneg : ∀ c, 0 ≤ hist.val c) {fallback c : κ} :
    c ∈ (normalize hist fallback).keys ↔
      c ∈ hist.keys ∨ (∀ x, hist.val x = 0) ∧ c = fallback := by
  by_cases h : hist.total = 0
  · have hzero := val_eq_zero hnonneg h
    rw [normalize_of_zero h, PyDict.mem_keys_set]
    simp [hzero, or_comm]
  · have hsome : ¬ ∀ x, hist.val x = 0 := by
      intro hnone
      rw [PyDict.total_eq_sum] at h
      exact h (Finset.sum_eq_zero fun x _ => hnone x)
    rw [normalize_of_total h, PyDict.keys_mapVal]
    simp [hsome]

/-- Two histograms with the same keys in proportion to the same amounts are the same. -/
theorem InProportion.get?_eq {hist : PyDict κ ℚ} {amount : κ → ℚ} {fallback : κ}
    (h : InProportion hist amount fallback) (h' : InProportion hist' amount fallback)
    (hkeys : ∀ c, c ∈ hist'.keys ↔ c ∈ hist.keys) (c : κ) : hist'.get? c = hist.get? c := by
  have hset : hist'.keys.toFinset = hist.keys.toFinset := by
    ext x
    simp [hkeys]
  have hval : hist'.val c = hist.val c := by
    have hshare := h.share
    have hshare' := h'.share
    rw [hset] at hshare'
    by_cases htotal : ∑ x ∈ hist.keys.toFinset, amount x = 0
    · have hnone : ∀ c, amount c = 0 := by
        intro c
        rw [← hshare c, htotal, mul_zero]
      rw [h.all_on_one hnone, h'.all_on_one hnone]
    · exact mul_right_cancel₀ htotal ((hshare' c).trans (hshare c).symm)
  exact PyDict.get?_eq_of_val hval (hkeys c)

end Counts

/-! ## The whole analysis -/

/-- The kind of a load or a store, which is never an error. -/
def ldst (imix : String) : Except PyError (Option Ldst) := .ok (catagorize_ldst imix)

/-- What `adjust` makes of the counts of the categories. -/
def adjusted (count : OpType → ℚ) (c : OpType) : ℚ :=
  if c ∈ REP_CATAGORIES then 0
  else if c = ARITH then max 0 (count ARITH - count BRANCH)
  else count c

theorem adjusted_nonneg {count : OpType → ℚ} (h : ∀ c, 0 ≤ count c) (c : OpType) :
    0 ≤ adjusted count c := by
  unfold adjusted
  split
  · exact le_refl _
  · split
    · exact le_max_left _ _
    · exact h c

theorem adjust_spec {hist hist' : PyDict OpType ℚ} (h : adjust hist = .ok hist') (c : OpType) :
    hist'.val c = adjusted hist.val c ∧
      (c ∈ hist'.keys ↔ c ∈ hist.keys ∨ c ∈ REP_CATAGORIES) := by
  unfold adjust at h
  obtain ⟨arith, harith, h⟩ := PyError.ok_of_bind h
  obtain ⟨branch, hbranch, h⟩ := PyError.ok_of_bind h
  cases h
  rw [lookup_eq_ok] at harith hbranch
  have harith_val : hist.val ARITH = arith := by simp [PyDict.val, harith]
  have hbranch_val : hist.val BRANCH = branch := by simp [PyDict.val, hbranch]
  have hkey := PyDict.mem_keys_of_get? harith
  constructor
  · rw [PyDict.val_foldl_set (fun _ => 0), PyDict.val_set, adjusted, harith_val, hbranch_val]
  · rw [PyDict.mem_keys_foldl_set (fun _ => 0), PyDict.mem_keys_set, or_comm]
    refine or_congr_left (or_iff_right_iff_imp.mpr ?_)
    rintro rfl
    exact hkey

/-- Both categories that `adjust` reads are there, or it fails. -/
theorem adjust_cases (hist : PyDict OpType ℚ) :
    ((∃ hist', adjust hist = .ok hist') ∧ ARITH ∈ hist.keys ∧ BRANCH ∈ hist.keys) ∨
      (adjust hist = .error .keyError ∧ ¬ (ARITH ∈ hist.keys ∧ BRANCH ∈ hist.keys)) := by
  unfold adjust lookup
  cases harith : hist.get? ARITH with
  | none =>
    exact .inr ⟨rfl, fun h => PyDict.get?_eq_none_iff.mp harith h.1⟩
  | some arith =>
    cases hbranch : hist.get? BRANCH with
    | none => exact .inr ⟨rfl, fun h => PyDict.get?_eq_none_iff.mp hbranch h.2⟩
    | some branch =>
      exact .inl ⟨⟨_, rfl⟩, PyDict.mem_keys_of_get? harith, PyDict.mem_keys_of_get? hbranch⟩

section Analysis

variable {db : Tables} {app skeleton : ImixHist}

/-- The categories that `run_analysis` reads are categories of the application. -/
structure Readable (db : Tables) (app skeleton : ImixHist) : Prop where
  arith : Occurs (catagorize_imix db) app.entries ARITH
  branch : Occurs (catagorize_imix db) app.entries BRANCH
  ldst : ∀ kind, Occurs ldst skeleton.entries kind → Occurs ldst app.entries kind

theorem loops_spec {κ : Type} [DecidableEq κ] {catagorize : String → Except PyError (Option κ)}
    {absent : PyDict κ ℚ → Except PyError (PyDict κ ℚ)}
    (habsent : ∀ d d', absent d = .ok d' → d' = d) {hist hist' : PyDict κ ℚ}
    (happ : app.entries.foldlM (add_app catagorize) .empty = .ok hist)
    (hskeleton : skeleton.entries.foldlM (sub_skeleton catagorize absent) hist = .ok hist')
    (c : κ) :
    hist'.val c = remaining catagorize app skeleton c ∧
      (c ∈ hist'.keys ↔ Occurs catagorize app.entries c) := by
  obtain ⟨hval, hkeys⟩ := add_app_run happ c
  rw [PyDict.val_empty, zero_add] at hval
  have hnonneg : 0 ≤ hist.val c := hval ▸ countOf_nonneg _ c
  obtain ⟨hval', hkeys'⟩ := sub_skeleton_run habsent hskeleton c hnonneg
  rw [hval', hval, hkeys', hkeys]
  simp [remaining]

theorem run_analysis_spec {hist : PyDict OpType ℚ} {ldst_hist : PyDict Ldst ℚ}
    (h : run_analysis db app skeleton = .ok (hist, ldst_hist)) :
    InProportion hist (adjusted (remaining (catagorize_imix db) app skeleton)) ARITH ∧
    (∀ c, c ∈ hist.keys ↔ Occurs (catagorize_imix db) app.entries c ∨ c ∈ REP_CATAGORIES) ∧
    InProportion ldst_hist (remaining ldst app skeleton) .load ∧
    ∀ kind, kind ∈ ldst_hist.keys ↔ Occurs ldst app.entries kind ∨
      (∀ kind, remaining ldst app skeleton kind = 0) ∧ kind = .load := by
  unfold run_analysis at h
  obtain ⟨hist₀, happ, h⟩ := PyError.ok_of_bind h
  obtain ⟨hist₁, hskeleton, h⟩ := PyError.ok_of_bind h
  obtain ⟨ldst₀, happ', h⟩ := PyError.ok_of_bind h
  obtain ⟨ldst₁, hskeleton', h⟩ := PyError.ok_of_bind h
  obtain ⟨hist₂, hadjust, h⟩ := PyError.ok_of_bind h
  cases h
  have hmix := loops_spec (fun d d' h => (Except.ok.inj h).symm) happ hskeleton
  have hldst : ∀ kind, ldst₁.val kind = remaining ldst app skeleton kind ∧
      (kind ∈ ldst₁.keys ↔ Occurs ldst app.entries kind) :=
    loops_spec (by rintro d d' ⟨⟩) happ' hskeleton'
  have hval : hist₂.val = adjusted (remaining (catagorize_imix db) app skeleton) := by
    funext c
    rw [(adjust_spec hadjust c).1, funext fun c => (hmix c).1]
  have hval' : ldst₁.val = remaining ldst app skeleton := funext fun kind => (hldst kind).1
  have hnonneg : ∀ c, 0 ≤ hist₂.val c := by
    rw [hval]
    exact adjusted_nonneg fun c => le_max_left _ _
  have hnonneg' : ∀ kind, 0 ≤ ldst₁.val kind := by
    rw [hval']
    exact fun kind => le_max_left _ _
  refine ⟨hval ▸ inProportion_normalize hnonneg ARITH, fun c => ?_,
    hval' ▸ inProportion_normalize hnonneg' .load, fun kind => ?_⟩
  · rw [mem_keys_normalize hnonneg, (adjust_spec hadjust c).2, (hmix c).2]
    refine or_iff_left_iff_imp.mpr ?_
    rintro ⟨-, rfl⟩
    rcases adjust_cases hist₁ with ⟨-, harith, -⟩ | ⟨herror, -⟩
    · exact .inl ((hmix ARITH).2.mp harith)
    · rw [herror] at hadjust
      cases hadjust
  · rw [mem_keys_normalize hnonneg', (hldst kind).2, hval']

theorem catagorized_ldst (l : List (String × ℕ)) : Catagorized ldst l := fun _ _ => ⟨_, rfl⟩

/-- What is left of a run behind the loops that return in any case. -/
theorem run_analysis_eq {hist₀ hist₁ : PyDict OpType ℚ} {ldst₀ : PyDict Ldst ℚ}
    (hhist₀ : app.entries.foldlM (add_app (catagorize_imix db)) .empty = .ok hist₀)
    (hhist₁ : skeleton.entries.foldlM (sub_skeleton (catagorize_imix db) .ok) hist₀ = .ok hist₁)
    (hldst₀ : app.entries.foldlM (add_app ldst) .empty = .ok ldst₀) :
    run_analysis db app skeleton = (do
      let ldst_hist ← skeleton.entries.foldlM
        (sub_skeleton ldst fun _ => .error .keyError) ldst₀
      let hist ← adjust hist₁
      return (normalize hist ARITH, normalize ldst_hist .load)) := by
  unfold run_analysis
  rw [hhist₀]
  change (skeleton.entries.foldlM (sub_skeleton (catagorize_imix db) .ok) hist₀ >>= _) = _
  rw [hhist₁]
  change (app.entries.foldlM (add_app ldst) .empty >>= _) = _
  rw [hldst₀]
  rfl

theorem run_analysis_cases (happ : Catagorized (catagorize_imix db) app.entries)
    (hskeleton : Catagorized (catagorize_imix db) skeleton.entries) :
    ((∃ r, run_analysis db app skeleton = .ok r) ∧ Readable db app skeleton) ∨
      (run_analysis db app skeleton = .error .keyError ∧ ¬ Readable db app skeleton) := by
  obtain ⟨hist₀, hhist₀⟩ := exists_add_app happ .empty
  obtain ⟨hist₁, hhist₁⟩ := exists_sub_skeleton hskeleton hist₀
  obtain ⟨ldst₀, hldst₀⟩ := exists_add_app (catagorized_ldst app.entries) .empty
  have hkeys : ∀ c, c ∈ hist₁.keys ↔ Occurs (catagorize_imix db) app.entries c :=
    fun c => (loops_spec (fun d d' h => (Except.ok.inj h).symm) hhist₀ hhist₁ c).2
  have hkeys' : ∀ kind, kind ∈ ldst₀.keys ↔ Occurs ldst app.entries kind := by
    intro kind
    simpa using (add_app_run hldst₀ kind).2
  rw [run_analysis_eq hhist₀ hhist₁ hldst₀]
  rcases sub_skeleton_strict (catagorized_ldst skeleton.entries) ldst₀ with
    ⟨⟨ldst₁, hldst₁⟩, hoccurs⟩ | ⟨herror, kind, hkind, hmissing⟩
  · rw [hldst₁]
    rcases adjust_cases hist₁ with ⟨⟨hist₂, hhist₂⟩, harith, hbranch⟩ | ⟨herror, hmissing⟩
    · refine .inl ⟨⟨(normalize hist₂ ARITH, normalize ldst₁ .load), ?_⟩,
        (hkeys _).mp harith, (hkeys _).mp hbranch, fun kind hkind => ?_⟩
      · rw [hhist₂]
        rfl
      · exact (hkeys' kind).mp (hoccurs kind hkind)
    · refine .inr ⟨?_, fun h => ?_⟩
      · rw [herror]
        rfl
      · exact hmissing ⟨(hkeys _).mpr h.arith, (hkeys _).mpr h.branch⟩
  · refine .inr ⟨?_, fun h => ?_⟩
    · rw [herror]
      rfl
    · exact hmissing ((hkeys' kind).mpr (h.ldst kind hkind))

variable {app' skeleton' : ImixHist}

theorem remaining_perm {κ : Type} [DecidableEq κ] {catagorize : String → Except PyError (Option κ)}
    (happ : app'.entries.Perm app.entries) (hskeleton : skeleton'.entries.Perm skeleton.entries) :
    remaining catagorize app' skeleton' = remaining catagorize app skeleton := by
  funext c
  unfold remaining
  rw [countOf_perm happ, countOf_perm hskeleton]

theorem readable_perm (happ : app'.entries.Perm app.entries)
    (hskeleton : skeleton'.entries.Perm skeleton.entries) (h : Readable db app skeleton) :
    Readable db app' skeleton' where
  arith := (occurs_perm happ _).mpr h.arith
  branch := (occurs_perm happ _).mpr h.branch
  ldst kind hkind := (occurs_perm happ kind).mpr (h.ldst kind ((occurs_perm hskeleton kind).mp hkind))

/-- A run that returns has found a category for each name. -/
theorem catagorized_of_run {r : PyDict OpType ℚ × PyDict Ldst ℚ}
    (h : run_analysis db app skeleton = .ok r) :
    Catagorized (catagorize_imix db) app.entries ∧
      Catagorized (catagorize_imix db) skeleton.entries := by
  unfold run_analysis at h
  obtain ⟨hist₀, happ, h⟩ := PyError.ok_of_bind h
  obtain ⟨hist₁, hskeleton, -⟩ := PyError.ok_of_bind h
  constructor
  · intro imix himix
    obtain ⟨hist, hist', hturn⟩ := PyError.turn_of_foldlM happ imix himix
    obtain ⟨o, ho, -⟩ := PyError.ok_of_bind hturn
    exact ⟨o, ho⟩
  · intro imix himix
    obtain ⟨hist, hist', hturn⟩ := PyError.turn_of_foldlM hskeleton imix himix
    obtain ⟨o, ho, -⟩ := PyError.ok_of_bind hturn
    exact ⟨o, ho⟩

/-- A run on the same counts in another order returns. -/
theorem exists_run_of_perm (happ : app'.entries.Perm app.entries)
    (hskeleton : skeleton'.entries.Perm skeleton.entries) {r : PyDict OpType ℚ × PyDict Ldst ℚ}
    (h : run_analysis db app skeleton = .ok r) : ∃ r', run_analysis db app' skeleton' = .ok r' := by
  obtain ⟨hcat, hcat'⟩ := catagorized_of_run h
  have hreadable : Readable db app skeleton := by
    rcases run_analysis_cases hcat hcat' with ⟨-, hreadable⟩ | ⟨herror, -⟩
    · exact hreadable
    · rw [herror] at h
      cases h
  rcases run_analysis_cases (fun imix himix => hcat imix (happ.mem_iff.mp himix))
    (fun imix himix => hcat' imix (hskeleton.mem_iff.mp himix)) with ⟨hrun, -⟩ | ⟨-, hnot⟩
  · exact hrun
  · exact absurd (readable_perm happ hskeleton hreadable) hnot

end Analysis

/-! ## The laws -/

/-- The weights are in proportion to what the application has on top of the skeleton, and the
order of the counts does not change them. -/
theorem mix_is_the_clamped_difference (db : Tables) (app skeleton : ImixHist)
    (hist : PyDict OpType ℚ) (ldst_hist : PyDict Ldst ℚ)
    (h : run_analysis db app skeleton = .ok (hist, ldst_hist)) :
    InProportion hist (adjusted (remaining (catagorize_imix db) app skeleton)) ARITH ∧
    (∀ c, c ∈ hist.keys ↔ Occurs (catagorize_imix db) app.entries c ∨ c ∈ REP_CATAGORIES) ∧
    InProportion ldst_hist (remaining ldst app skeleton) .load ∧
    ∀ app' skeleton' : ImixHist, app'.entries.Perm app.entries →
      skeleton'.entries.Perm skeleton.entries →
      ∃ hist' ldst_hist', run_analysis db app' skeleton' = .ok (hist', ldst_hist') ∧
        (∀ c, hist'.get? c = hist.get? c) ∧ ∀ kind, ldst_hist'.get? kind = ldst_hist.get? kind := by
  obtain ⟨hmix, hkeys, hldst, hldst_keys⟩ := run_analysis_spec h
  refine ⟨hmix, hkeys, hldst, fun app' skeleton' happ hskeleton => ?_⟩
  obtain ⟨⟨hist', ldst_hist'⟩, hrun⟩ := exists_run_of_perm happ hskeleton h
  obtain ⟨hmix', hkeys', hldst', hldst_keys'⟩ := run_analysis_spec hrun
  rw [remaining_perm happ hskeleton] at hmix' hldst'
  simp only [remaining_perm happ hskeleton] at hldst_keys'
  refine ⟨hist', ldst_hist', hrun, hmix.get?_eq hmix' fun c => ?_,
    hldst.get?_eq hldst' fun kind => ?_⟩
  · rw [hkeys', hkeys, occurs_perm happ]
  · rw [hldst_keys', hldst_keys, occurs_perm happ]

/-- Tables that know two instructions. -/
def nopAndJump : Tables where
  x86operands := .empty
  x86inst_extensions := (PyDict.empty.set "nop" []).set "jz" []

theorem catagorize_nop : catagorize_imix nopAndJump "NOP_90" = .ok (some ARITH) := by
  decide +kernel

theorem catagorize_jump : catagorize_imix nopAndJump "JZ_RELBRb" = .ok (some BRANCH) := by
  decide +kernel

theorem mix_is_the_clamped_difference_for_two_instructions : ∃ hist ldst_hist,
    run_analysis nopAndJump
        (((PyDict.empty.set "NOP_90" 5).set "JZ_RELBRb" 2).set "*mem-read" 3)
        (PyDict.empty.set "NOP_90" 1) = .ok (hist, ldst_hist) ∧
      hist.val ARITH = 1 / 2 ∧ hist.total = 1 ∧ ldst_hist.total = 1 := by
  have hrun : ∃ r, run_analysis nopAndJump
      (((PyDict.empty.set "NOP_90" 5).set "JZ_RELBRb" 2).set "*mem-read" 3)
      (PyDict.empty.set "NOP_90" 1) = .ok r ∧ r.1.val ARITH = 1 / 2 := ⟨_, rfl, by decide +kernel⟩
  obtain ⟨⟨hist, ldst_hist⟩, hrun, hval⟩ := hrun
  obtain ⟨hmix, -, hldst, -⟩ := mix_is_the_clamped_difference _ _ _ _ _ hrun
  exact ⟨hist, ldst_hist, hrun, hval, hmix.total_one, hldst.total_one⟩

/-- A run on names that all have a category returns exactly if the application has the categories
that are read. Every other run ends with a `KeyError`. -/
theorem mix_is_defined_iff (db : Tables) (app skeleton : ImixHist)
    (happ : Catagorized (catagorize_imix db) app.entries)
    (hskeleton : Catagorized (catagorize_imix db) skeleton.entries) :
    ((∃ r, run_analysis db app skeleton = .ok r) ↔ Readable db app skeleton) ∧
      (¬ Readable db app skeleton → run_analysis db app skeleton = .error .keyError) := by
  rcases run_analysis_cases happ hskeleton with ⟨hrun, hreadable⟩ | ⟨herror, hnot⟩
  · exact ⟨iff_of_true hrun hreadable, fun hnot => absurd hreadable hnot⟩
  · refine ⟨iff_of_false ?_ hnot, fun _ => herror⟩
    rintro ⟨r, hr⟩
    rw [herror] at hr
    cases hr

theorem mix_is_defined_for_two_instructions :
    ∃ r, run_analysis nopAndJump ((PyDict.empty.set "NOP_90" 5).set "JZ_RELBRb" 2) .empty =
      .ok r := by
  refine (mix_is_defined_iff nopAndJump _ _ ?_ ?_).1.mpr ⟨?_, ?_, ?_⟩
  · change ∀ imix ∈ [("NOP_90", 5), ("JZ_RELBRb", 2)], _
    rw [List.forall_mem_cons, List.forall_mem_singleton]
    exact ⟨⟨some ARITH, catagorize_nop⟩, some BRANCH, catagorize_jump⟩
  · simp [Catagorized]
  · exact ⟨("NOP_90", 5), by decide +kernel, catagorize_nop⟩
  · exact ⟨("JZ_RELBRb", 2), by decide +kernel, catagorize_jump⟩
  · simp [Occurs]

/-- An empty application, one without conditional branches, and a skeleton with loads that the
application lacks, on names that all have a category. -/
theorem a_profile_without_the_read_catagories_fails :
    run_analysis nopAndJump .empty .empty = .error .keyError ∧
    run_analysis nopAndJump (PyDict.empty.set "NOP_90" 5) .empty = .error .keyError ∧
    run_analysis nopAndJump ((PyDict.empty.set "NOP_90" 5).set "JZ_RELBRb" 2)
      (PyDict.empty.set "*mem-read" 1) = .error .keyError ∧
    (catagorize_imix nopAndJump "NOP_90" = .ok (some ARITH) ∧
      catagorize_imix nopAndJump "JZ_RELBRb" = .ok (some BRANCH) ∧
      catagorize_imix nopAndJump "*mem-read" = .ok none) := by
  refine ⟨rfl, ?_, ?_, catagorize_nop, catagorize_jump, rfl⟩
  · decide +kernel
  · decide +kernel

end ditto.inst_mix_analyzer
