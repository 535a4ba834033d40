-- The mass of the distance tables. A walk writes the table of a block when it
-- leaves the block. When no walk comes back to a block that it has not left,
-- each table is written once, and gets the mass one.
import Ditto.RegDistances

open PyDict

namespace ditto.data_dependency_analyzer

/-! ## The mass of a written table -/

/-- The weights that a turn with the probability `prob` would write to an empty table. -/
theorem val_written (D : Table) (prob : ℚ) (dist k : ℤ) :
    (shift D (1 / prob) (-dist)).val k = D.val (k + dist) / prob := by
  rw [val_shift, sub_neg_eq_add, mul_one_div]

theorem total_written (D : Table) (prob : ℚ) (dist : ℤ) :
    (shift D (1 / prob) (-dist)).total = D.total / prob := by
  rw [total_shift, mul_one_div]

theorem val_of_entries_nil {t : Table} (h : t.entries = []) (k : ℤ) : t.val k = 0 := by
  apply val_of_not_mem
  unfold keys
  rw [h]
  simp

variable {D : Table} {prob : ℚ}

theorem total_write_back {t : Table} (dist : ℤ) (hp : 0 < prob) (hD : ∀ k, 0 ≤ D.val k)
    (ht : t.entries = []) : (write_back D prob dist t).total = D.total / prob := by
  rw [← total_written D prob dist]
  apply total_congr
  intro k
  rw [val_write_back dist t hp, val_written]
  split
  · rfl
  · rename_i h
    have hzero : D.val (k + dist) = 0 := le_antisymm (not_lt.mp h) (hD _)
    rw [hzero, zero_div, val_of_entries_nil ht]

theorem val_write_back_nonneg {D t : Table} {prob : ℚ} (dist : ℤ) (hp : 0 < prob)
    (ht : ∀ k, 0 ≤ t.val k) (k : ℤ) : 0 ≤ (write_back D prob dist t).val k := by
  rw [val_write_back dist t hp]
  split
  · rename_i h
    exact le_of_lt (div_pos h hp)
  · exact ht k

theorem val_single_nonneg {q : ℚ} (hq : 0 ≤ q) (k x : ℤ) : 0 ≤ (single k q).val x := by
  rw [val_single]
  split
  · exact hq
  · exact le_refl 0

/-- The table is a probability distribution. -/
def IsDistribution (t : Table) : Prop := (∀ k, 0 ≤ t.val k) ∧ t.total = 1

/-- A table that is not written yet, or a distribution. -/
def Clean (t : Table) : Prop := t.entries = [] ∨ IsDistribution t

theorem isDistribution_single (k : ℤ) : IsDistribution (single k 1) :=
  ⟨val_single_nonneg zero_le_one _, total_single k 1⟩

theorem isDistribution_write_back {t : Table} (dist : ℤ) (hp : 0 < prob) (hD : ∀ k, 0 ≤ D.val k)
    (htotal : D.total = prob) (ht : t.entries = []) :
    IsDistribution (write_back D prob dist t) := by
  refine ⟨val_write_back_nonneg dist hp fun k => le_of_eq (val_of_entries_nil ht k).symm, ?_⟩
  rw [total_write_back dist hp hD ht, htotal, div_self (ne_of_gt hp)]

theorem IsDistribution.ne_nil {t : Table} (h : IsDistribution t) : t.entries ≠ [] := by
  intro hnil
  have hone := h.2
  unfold total values at hone
  rw [hnil] at hone
  exact absurd hone (by norm_num)

/-! ## The blocks that a walk writes -/

/-- The blocks with a table behind a walk from `bb`, when those of `W` have one before it. There
are none when the walk comes back to a block and writes its table before it has left the block.
A walk that is not `live` has the probability 0 and writes the tables of accesses only. At the
`top` of a visit, and over an edge of its block to itself, coming back does no harm, since the
visit writes the whole table again. -/
def walk (an : Analyzer) (slot : Slot) : ℕ → List ℕ → ℕ → Bool → Bool → Option (List ℕ)
  | 0, W, _, _, _ => some W
  | left + 1, W, bb, live, top =>
    if bb ∈ W then some W
    else if an.reg_insts bb slot ≠ [] then some (bb :: W)
    else do
      let W' ← (an.cfg.predecessors bb).foldlM (fun W p => walk an slot left W p
        (live && decide (0 < an.cfg.backward_prob p bb)) (top && p == bb)) W
      if an.cfg.predecessors bb = [] ∨ live = false then return W'
      else if bb ∈ W' ∧ top = false then none
      else return bb :: W'

/-- No visit, in the order of the nodes, comes back to a block that it has not left. -/
def NoReturn (an : Analyzer) (slot : Slot) : Prop :=
  (an.cfg.nodes.foldlM (fun W bb =>
    (walk an slot (an.max_bb_depth + 1).toNat W bb true true).map (bb :: ·)) []).isSome = true

instance (an : Analyzer) (slot : Slot) : Decidable (NoReturn an slot) :=
  inferInstanceAs (Decidable (_ = true))

section walk

variable {an : Analyzer} {slot : Slot} {left bb : ℕ} {W W' : List ℕ} {live top : Bool}

theorem walk_of_mem (h : bb ∈ W) : walk an slot left W bb live top = some W := by
  cases left with
  | zero => rfl
  | succ left => rw [walk, if_pos h]

theorem walk_of_access (hW : bb ∉ W) (h : an.reg_insts bb slot ≠ []) :
    walk an slot (left + 1) W bb live top = some (bb :: W) := by
  rw [walk, if_neg hW, if_pos h]

theorem walk_of_entry (hW : bb ∉ W) (hsilent : Silent an slot bb)
    (h : an.cfg.predecessors bb = []) : walk an slot (left + 1) W bb live top = some W := by
  have hnone : ¬ an.reg_insts bb slot ≠ [] := not_not.mpr hsilent
  rw [walk, if_neg hW, if_neg hnone, h]
  simp

/-- The walk from a silent block goes on from its predecessors, and writes the table of the block
when it leaves it. -/
theorem walk_inner (hW : bb ∉ W) (hsilent : Silent an slot bb)
    (hpreds : an.cfg.predecessors bb ≠ [])
    (h : walk an slot (left + 1) W bb live top = some W') :
    ∃ V, (an.cfg.predecessors bb).foldlM (fun W p => walk an slot left W p
        (live && decide (0 < an.cfg.backward_prob p bb)) (top && p == bb)) W = some V ∧
      (live = false ∧ W' = V ∨ live = true ∧ (top = false → bb ∉ V) ∧ W' = bb :: V) := by
  have hnone : ¬ an.reg_insts bb slot ≠ [] := not_not.mpr hsilent
  rw [walk, if_neg hW, if_neg hnone] at h
  obtain ⟨V, hV, h⟩ := Option.bind_eq_some_iff.mp h
  refine ⟨V, hV, ?_⟩
  simp only [hpreds, false_or] at h
  split at h
  · rename_i hlive
    cases h
    exact Or.inl ⟨hlive, rfl⟩
  · rename_i hlive
    split at h
    · cases h
    · rename_i hback
      cases h
      exact Or.inr ⟨by simpa using hlive, fun htop hmem => hback ⟨hmem, htop⟩, rfl⟩

/-- A walk stays where it has nothing to write, writes a block with an access, or goes on from the
predecessors of a silent block. -/
theorem walk_cases (h : walk an slot (left + 1) W bb live top = some W') :
    (W' = W ∧ (bb ∈ W ∨ Silent an slot bb ∧ an.cfg.predecessors bb = [])) ∨
    (¬ Silent an slot bb ∧ W' = bb :: W) ∨
    (Silent an slot bb ∧ ∃ V, (an.cfg.predecessors bb).foldlM (fun W p => walk an slot left W p
        (live && decide (0 < an.cfg.backward_prob p bb)) (top && p == bb)) W = some V ∧
      (live = false ∧ W' = V ∨ live = true ∧ (top = false → bb ∉ V) ∧ W' = bb :: V)) := by
  by_cases hW : bb ∈ W
  · rw [walk_of_mem hW] at h
    cases h
    exact .inl ⟨rfl, .inl hW⟩
  · by_cases hsilent : Silent an slot bb
    · by_cases hpreds : an.cfg.predecessors bb = []
      · rw [walk_of_entry hW hsilent hpreds] at h
        cases h
        exact .inl ⟨rfl, .inr ⟨hsilent, hpreds⟩⟩
      · exact .inr (.inr ⟨hsilent, walk_inner hW hsilent hpreds h⟩)
    · rw [walk_of_access hW hsilent] at h
      cases h
      exact .inr (.inl ⟨hsilent, rfl⟩)

theorem foldlM_subset {α : Type} {f : List ℕ → α → Option (List ℕ)} {l : List α}
    (hf : ∀ x ∈ l, ∀ W W', f W x = some W' → W ⊆ W') (h : l.foldlM f W = some W') : W ⊆ W' := by
  induction l generalizing W with
  | nil =>
    cases h
    exact List.Subset.refl _
  | cons x l ih =>
    rw [List.foldlM_cons] at h
    obtain ⟨V, hV, h⟩ := Option.bind_eq_some_iff.mp h
    rw [List.forall_mem_cons] at hf
    exact List.Subset.trans (hf.1 W V hV) (ih hf.2 h)

/-- Each turn of the loop is taken, and what it writes stays. -/
theorem foldlM_turn {α : Type} {f : List ℕ → α → Option (List ℕ)} {l : List α}
    (hf : ∀ x ∈ l, ∀ W W', f W x = some W' → W ⊆ W') (h : l.foldlM f W = some W') {x : α}
    (hx : x ∈ l) : ∃ V V', f V x = some V' ∧ V' ⊆ W' := by
  induction l generalizing W with
  | nil => cases hx
  | cons y l ih =>
    rw [List.foldlM_cons] at h
    obtain ⟨V, hV, hrest⟩ := Option.bind_eq_some_iff.mp h
    rw [List.forall_mem_cons] at hf
    rcases List.mem_cons.mp hx with rfl | hx
    · exact ⟨W, V, hV, foldlM_subset hf.2 hrest⟩
    · exact ih hf.2 hrest hx

theorem walk_subset (h : walk an slot left W bb live top = some W') : W ⊆ W' := by
  induction left generalizing W W' bb live top with
  | zero =>
    cases h
    exact List.Subset.refl _
  | succ left ih =>
    rcases walk_cases h with ⟨rfl, -⟩ | ⟨-, rfl⟩ | ⟨-, V, hV, h⟩
    · exact List.Subset.refl _
    · exact List.subset_cons_self bb W
    · have hsub : W ⊆ V := foldlM_subset (fun p _ W W' h => ih h) hV
      rcases h with ⟨-, rfl⟩ | ⟨-, -, rfl⟩
      · exact hsub
      · exact List.Subset.trans hsub (List.subset_cons_self bb V)

/-- The block has a table, or a walk from it ends there without one. -/
def Settled (an : Analyzer) (slot : Slot) (W : List ℕ) (bb : ℕ) : Prop :=
  bb ∈ W ∨ Silent an slot bb ∧ an.cfg.predecessors bb = []

theorem settled_of_walk (h : walk an slot (left + 1) W bb true top = some W') :
    Settled an slot W' bb := by
  rcases walk_cases h with ⟨rfl, hsettled⟩ | ⟨-, rfl⟩ | ⟨-, V, -, ⟨hlive, -⟩ | ⟨-, -, rfl⟩⟩
  · exact hsettled
  · exact Or.inl List.mem_cons_self
  · cases hlive
  · exact Or.inl List.mem_cons_self

/-- A walk without a probability does not ask where it started. -/
theorem walk_dead : walk an slot left W bb false top = walk an slot left W bb false false := by
  induction left generalizing W bb top with
  | zero => rfl
  | succ left ih =>
    have hturn : (fun W p => walk an slot left W p
        (false && decide (0 < an.cfg.backward_prob p bb)) (top && p == bb)) =
        fun W p => walk an slot left W p (false && decide (0 < an.cfg.backward_prob p bb))
          (false && p == bb) := by
      funext W p
      rw [Bool.false_and, Bool.false_and, ih]
    unfold walk
    rw [hturn]
    simp

end walk

/-! ## The mass of a walk that does not come back -/

/-- The blocks of `W` are those with a table. -/
def Written (slot : Slot) (W : List ℕ) (T : Tables) : Prop :=
  ∀ b, b ∈ W ↔ (T (b, slot)).entries ≠ []

theorem Written.update {slot : Slot} {W : List ℕ} {T : Tables} (h : Written slot W T) (bb : ℕ)
    {t : Table} (ht : t.entries ≠ []) :
    Written slot (bb :: W) (Function.update T (bb, slot) t) := by
  intro b
  by_cases hb : b = bb
  · subst hb
    rw [Function.update_self]
    simp [ht]
  · rw [Function.update_of_ne (by simp [hb]), List.mem_cons, ← h b]
    simp [hb]

theorem clean_update {slot : Slot} {T : Tables} {b : ℕ} (bb : ℕ) {t : Table}
    (h : b ≠ bb → Clean (T (b, slot))) (ht : b = bb → Clean t) :
    Clean (Function.update T (bb, slot) t (b, slot)) := by
  by_cases hb : b = bb
  · subst hb
    rw [Function.update_self]
    exact ht rfl
  · rw [Function.update_of_ne (by simp [hb])]
    exact h hb

/-- What a walk does when it does not come back: it returns the mass it is asked for, writes the
blocks of `W'`, and leaves clean tables clean. -/
structure Follows (slot : Slot) (prob : ℚ) (W' : List ℕ) (T : Tables) (D : Table) (T' : Tables) :
    Prop where
  nonneg : ∀ k, 0 ≤ D.val k
  total : D.total = prob
  written : Written slot W' T'
  clean : ∀ b, Clean (T (b, slot)) → Clean (T' (b, slot))

theorem follows_single {slot : Slot} {W : List ℕ} {T : Tables} (k : ℤ) (hp : 0 ≤ prob)
    (hW : Written slot W T) : Follows slot prob W T (single k prob) T :=
  ⟨val_single_nonneg hp _, total_single _ _, hW, fun _ h => h⟩

/-- A walk that reads a table. With the probability 0 any table will do. -/
theorem follows_shift {slot : Slot} {W : List ℕ} {T : Tables} {bb : ℕ} (dist : ℤ) (hp : 0 ≤ prob)
    (hW : Written slot W T) (hT : prob = 0 ∨ IsDistribution (T (bb, slot))) :
    Follows slot prob W T (shift (T (bb, slot)) prob dist) T := by
  refine ⟨fun k => ?_, ?_, hW, fun b hb => hb⟩
  · rw [val_shift]
    rcases hT with rfl | hT
    · rw [mul_zero]
    · exact mul_nonneg (hT.1 _) hp
  · rw [total_shift]
    rcases hT with rfl | hT
    · rw [mul_zero]
    · rw [hT.2, one_mul]

variable {an : Analyzer} {bb : ℕ} {parents W' : List ℕ} {D' : Table} {T' : Tables}

/-- A walk writes the table of the block that it leaves, if it has not written it before. -/
theorem Follows.write_back {slot : Slot} {T : Tables} (h : Follows slot prob W' T D T') (dist : ℤ)
    (hp : 0 < prob) (hback : bb ∉ W') : Follows slot prob (bb :: W') T D
      (Function.update T' (bb, slot) (write_back D prob dist (T' (bb, slot)))) := by
  have hnil : (T' (bb, slot)).entries = [] := by
    by_contra hne
    exact hback ((h.written bb).mpr hne)
  have hdist := isDistribution_write_back dist hp h.nonneg h.total hnil
  refine ⟨h.nonneg, h.total, h.written.update bb hdist.ne_nil, fun b hb => ?_⟩
  exact clean_update bb (fun _ => h.clean b hb) fun _ => Or.inr hdist

/-- The loop over predecessors, when each turn keeps `I` and returns its share. -/
theorem Turns.follow {an : Analyzer} {C : Tables → ℕ → ℚ → ℤ → Table → Tables → Prop} {bb : ℕ}
    {prob : ℚ} {dist : ℤ} {parents : List ℕ} {D D' : Table} {T T' : Tables} {W W' : List ℕ}
    {I : List ℕ → Tables → Prop} {f : List ℕ → ℕ → Option (List ℕ)}
    (h : Turns an C bb prob dist parents D T D' T')
    (hC : ∀ p ∈ parents, ∀ T d D T' W W', C T p (prob * an.cfg.backward_prob p bb) d D T' →
      f W p = some W' → I W T → (∀ k, 0 ≤ D.val k) ∧
        D.total = prob * an.cfg.backward_prob p bb ∧ I W' T')
    (hD : ∀ k, 0 ≤ D.val k) (hW : parents.foldlM f W = some W') (hI : I W T) :
    (∀ k, 0 ≤ D'.val k) ∧
      D'.total = D.total + prob * (parents.map fun p => an.cfg.backward_prob p bb).sum ∧
      I W' T' := by
  induction h generalizing W with
  | nil D T =>
    cases hW
    exact ⟨hD, by simp, hI⟩
  | @cons parent rest D curr D' T T₁ T' turn _ ih =>
    rw [List.foldlM_cons] at hW
    obtain ⟨V, hV, hW⟩ := Option.bind_eq_some_iff.mp hW
    rw [List.forall_mem_cons] at hC
    obtain ⟨hnn, hmass, hI₁⟩ := hC.1 _ _ _ _ _ _ turn hV hI
    have hD₁ : ∀ k, 0 ≤ (merge_distribution D curr).val k := by
      intro k
      rw [val_merge]
      exact add_nonneg (hD k) (hnn k)
    obtain ⟨hnn', hmass', hI'⟩ := ih hC.2 hD₁ hW hI₁
    refine ⟨hnn', ?_, hI'⟩
    rw [hmass', total_merge, hmass, List.map_cons, List.sum_cons, mul_add, add_assoc]

/-- The turns of a walk are live when the walk and the edge have a positive probability. -/
theorem live_turn {p q : ℚ} (hp : 0 ≤ p) (hq : 0 ≤ q) :
    (decide (0 < p) && decide (0 < q)) = decide (0 < p * q) := by
  rw [← Bool.decide_and, decide_eq_decide]
  constructor
  · rintro ⟨hp, hq⟩
    exact mul_pos hp hq
  · intro h
    refine ⟨lt_of_le_of_ne hp ?_, lt_of_le_of_ne hq ?_⟩
    · rintro rfl
      simp at h
    · rintro rfl
      simp at h

/-- A walk that does not come back returns the mass it is asked for. A walk with the probability 0
may meet tables of any mass. -/
theorem helper_follows {slot : Slot} (left : ℕ) (T : Tables) (bb : ℕ) (prob : ℚ) (dist : ℤ)
    {W W' : List ℕ} (hp : 0 ≤ prob) (hW : Written slot W T)
    (hT : prob = 0 ∨ ∀ b, Clean (T (b, slot)))
    (h : walk an slot left W bb (decide (0 < prob)) false = some W') :
    Follows slot prob W' T (helper an slot left T bb prob dist).1
      (helper an slot left T bb prob dist).2 := by
  revert W W'
  revert hp hT
  refine helper_induct (P := fun left T bb prob _ D T' => 0 ≤ prob →
    (prob = 0 ∨ ∀ b, Clean (T (b, slot))) → ∀ {W W' : List ℕ}, Written slot W T →
    walk an slot left W bb (decide (0 < prob)) false = some W' → Follows slot prob W' T D T')
    ?_ ?_ ?_ ?_ ?_ left T bb prob dist
  · intro T bb prob dist hp _ W W' hW h
    cases h
    exact follows_single _ hp hW
  · intro left T bb prob dist hne hp hT W W' hW h
    rw [walk_of_mem ((hW bb).mpr hne)] at h
    cases h
    exact follows_shift dist hp hW (hT.imp_right fun hT => (hT bb).resolve_left hne)
  · intro left T bb prob dist last hempty hlast hp _ W W' hW h
    have haccess : an.reg_insts bb slot ≠ [] := by
      intro hnil
      rw [hnil] at hlast
      cases hlast
    rw [walk_of_access (fun hmem => (hW bb).mp hmem hempty) haccess] at h
    cases h
    have hdist := isDistribution_single (an.insts bb - last)
    refine ⟨val_single_nonneg hp _, total_single _ _, hW.update bb hdist.ne_nil, fun b hb => ?_⟩
    exact clean_update bb (fun _ => hb) fun _ => Or.inr hdist
  · intro left T bb prob dist hempty hsilent hpreds hp _ W W' hW h
    rw [walk_of_entry (fun hmem => (hW bb).mp hmem hempty) hsilent hpreds] at h
    cases h
    exact follows_single _ hp hW
  · intro left T bb prob dist D T' hempty hsilent hpreds hturns hp hT W W' hW h
    obtain ⟨V, hV, hwrite⟩ := walk_inner (fun hmem => (hW bb).mp hmem hempty) hsilent hpreds h
    have hloop := hturns.follow (I := fun W T₁ => Written slot W T₁ ∧
      ∀ b, Clean (T (b, slot)) → Clean (T₁ (b, slot))) (fun p hpmem T₁ d D T₂ W W₂ hC hstep hI => by
        have hq := an.cfg.nonneg bb p hpmem
        rw [live_turn hp hq, Bool.false_and] at hstep
        have hT₁ : prob * an.cfg.backward_prob p bb = 0 ∨ ∀ b, Clean (T₁ (b, slot)) := by
          rcases hT with rfl | hT
          · exact Or.inl (zero_mul _)
          · exact Or.inr fun b => hI.2 b (hT b)
        have hfollow := hC.2 (mul_nonneg hp hq) hT₁ hI.1 hstep
        exact ⟨hfollow.nonneg, hfollow.total, hfollow.written,
          fun b hb => hfollow.clean b (hI.2 b hb)⟩)
      (fun k => le_of_eq (val_empty k).symm) hV ⟨hW, fun b hb => hb⟩
    rw [an.cfg.sum_one bb hpreds, total_empty, zero_add, mul_one] at hloop
    have hfollow : Follows slot prob V T D T' := ⟨hloop.1, hloop.2.1, hloop.2.2.1, hloop.2.2.2⟩
    rcases hwrite with ⟨hlive, rfl⟩ | ⟨hlive, hback, rfl⟩
    · have hpos : ¬ 0 < prob := by simpa using hlive
      rw [write_back_of_not_pos dist _ hpos, Function.update_eq_self]
      exact hfollow
    · exact hfollow.write_back dist (by simpa using hlive) (hback rfl)

/-! ## The visit of a block with an edge to itself -/

/-- Where the walks of a visit from `y` stand. All tables but that of `y` are clean. The table of
`y` is clean too, or no walk from a predecessor of `y` goes anywhere any more. -/
structure VisitState (an : Analyzer) (slot : Slot) (y : ℕ) (W : List ℕ) (T : Tables) : Prop where
  written : Written slot W T
  clean : ∀ b, b ≠ y → Clean (T (b, slot))
  own : Clean (T (y, slot)) ∨ ∀ p ∈ an.cfg.predecessors y, p ≠ y →
    0 < an.cfg.backward_prob p y → Settled an slot W p

variable {y : ℕ}

theorem VisitState.of_clean {slot : Slot} {W : List ℕ} {T : Tables} (hW : Written slot W T)
    (hT : ∀ b, Clean (T (b, slot))) : VisitState an slot y W T :=
  ⟨hW, fun b _ => hT b, Or.inl (hT y)⟩

theorem VisitState.of_follows {slot : Slot} {W : List ℕ} {T : Tables} (h : VisitState an slot y W T)
    (hsub : W ⊆ W') (hf : Follows slot prob W' T D T') : VisitState an slot y W' T' := by
  refine ⟨hf.written, fun b hb => hf.clean b (h.clean b hb), ?_⟩
  rcases h.own with hown | hown
  · exact Or.inl (hf.clean y hown)
  · right
    intro p hp hne hpos
    exact (hown p hp hne hpos).imp (fun hmem => hsub hmem) id

/-- A walk from a settled block ends there. -/
theorem helper_settled {slot : Slot} {left p : ℕ} {dist : ℤ} {W : List ℕ} {T : Tables} {live : Bool}
    (hp : 0 ≤ prob) (hW : Written slot W T) (hclean : Clean (T (p, slot)))
    (hsettled : Settled an slot W p) (h : walk an slot left W p live false = some W') :
    Follows slot prob W' T (helper an slot left T p prob dist).1
      (helper an slot left T p prob dist).2 := by
  cases left with
  | zero =>
    cases h
    exact follows_single _ hp hW
  | succ left =>
    by_cases hempty : (T (p, slot)).entries = []
    · have hmem : p ∉ W := fun hmem => (hW p).mp hmem hempty
      obtain ⟨hsilent, hpreds⟩ := hsettled.resolve_left hmem
      rw [walk_of_entry hmem hsilent hpreds] at h
      cases h
      rw [helper, if_neg (not_not.mpr hempty), List.getLast?_eq_none_iff.mpr hsilent, hpreds]
      exact follows_single _ hp hW
    · rw [walk_of_mem ((hW p).mpr hempty)] at h
      cases h
      rw [helper, if_pos hempty]
      exact follows_shift dist hp hW (Or.inr (hclean.resolve_left hempty))

/-- A walk from another predecessor does not see what is wrong with the table of `y`. -/
theorem VisitState.follows {slot : Slot} {p left : ℕ} {dist : ℤ} {W : List ℕ} {T : Tables}
    (h : VisitState an slot y W T) (hp : 0 ≤ prob) (hpmem : p ∈ an.cfg.predecessors y) (hne : p ≠ y)
    (hstep : walk an slot left W p (decide (0 < prob * an.cfg.backward_prob p y)) false = some W') :
    Follows slot (prob * an.cfg.backward_prob p y) W' T
      (helper an slot left T p (prob * an.cfg.backward_prob p y) dist).1
      (helper an slot left T p (prob * an.cfg.backward_prob p y) dist).2 := by
  have hedge := an.cfg.nonneg y p hpmem
  have hq : 0 ≤ prob * an.cfg.backward_prob p y := mul_nonneg hp hedge
  rcases h.own with hown | hown
  · apply helper_follows left T p _ dist hq h.written (Or.inr fun b => ?_) hstep
    by_cases hb : b = y
    · subst hb
      exact hown
    · exact h.clean b hb
  · rcases hedge.eq_or_lt with hzero | hpos
    · rw [← hzero, mul_zero] at hstep ⊢
      exact helper_follows left T p 0 dist le_rfl h.written (Or.inl rfl) hstep
    · exact helper_settled hq h.written (h.clean p hne) (hown p hpmem hne hpos) hstep

theorem write_back_ne_nil {t : Table} (dist : ℤ) (hp : 0 < prob) (hD : ∀ k, 0 ≤ D.val k)
    (htotal : D.total = prob) : (write_back D prob dist t).entries ≠ [] := by
  intro hnil
  have hzero : ∀ k, D.val k = 0 := by
    intro k
    by_contra hk
    have hval := @val_write_back prob D dist t hp (k - dist)
    rw [val_of_entries_nil hnil, sub_add_cancel, if_pos (lt_of_le_of_ne (hD k) (Ne.symm hk))] at hval
    exact absurd hval.symm (div_ne_zero hk hp.ne')
  have hsame : D.total = (empty : Table).total := total_congr fun k => by rw [hzero, val_empty]
  rw [hsame, total_empty] at htotal
  exact hp.ne htotal

theorem Turns.split {C : Tables → ℕ → ℚ → ℤ → Table → Tables → Prop} {dist : ℤ} {parents' : List ℕ}
    {T : Tables} (h : Turns an C bb prob dist (parents ++ parents') D T D' T') :
    ∃ D₁ T₁, Turns an C bb prob dist parents D T D₁ T₁ ∧
      Turns an C bb prob dist parents' D₁ T₁ D' T' := by
  induction parents generalizing D T with
  | nil => exact ⟨D, T, .nil D T, h⟩
  | cons parent rest ih =>
    cases h with
    | cons turn more =>
      obtain ⟨D₁, T₁, h₁, h₂⟩ := ih more
      exact ⟨D₁, T₁, .cons turn h₁, h₂⟩

/-- The turns of a visit from `y` over predecessors other than `y`. -/
theorem Turns.visit {an : Analyzer} {slot : Slot} {left y : ℕ} {prob : ℚ} {dist : ℤ}
    {parents : List ℕ} {D D' : Table} {T T' : Tables} {W W' : List ℕ}
    (h : Turns an (fun T p q d D T' => helper an slot left T p q d = (D, T')) y prob dist parents
      D T D' T')
    (hparents : ∀ p ∈ parents, p ∈ an.cfg.predecessors y ∧ p ≠ y) (hp : 0 < prob)
    (hD : ∀ k, 0 ≤ D.val k)
    (hW : parents.foldlM (fun W p => walk an slot left W p
      (true && decide (0 < an.cfg.backward_prob p y)) (true && p == y)) W = some W')
    (hI : VisitState an slot y W T) :
    (∀ k, 0 ≤ D'.val k) ∧
      D'.total = D.total + prob * (parents.map fun p => an.cfg.backward_prob p y).sum ∧
      VisitState an slot y W' T' ∧
      ((∀ b, Clean (T (b, slot))) → ∀ b, Clean (T' (b, slot))) := by
  refine (h.follow (I := fun W T₁ => VisitState an slot y W T₁ ∧
    ((∀ b, Clean (T (b, slot))) → ∀ b, Clean (T₁ (b, slot)))) ?_ hD hW ⟨hI, id⟩)
  intro p hpmem T₁ d D₁ T₂ W₁ W₂ hres hstep hI₁
  obtain ⟨hpred, hne⟩ := hparents p hpmem
  have htop : (true && p == y) = false := by simpa using hne
  have hlive := live_turn hp.le (an.cfg.nonneg y p hpred)
  rw [decide_eq_true hp] at hlive
  rw [htop, hlive] at hstep
  have hfollow : Follows slot _ W₂ T₁ (helper an slot left T₁ p _ d).1 _ :=
    hI₁.1.follows hp.le hpred hne hstep
  rw [hres] at hfollow
  exact ⟨hfollow.nonneg, hfollow.total, hI₁.1.of_follows (walk_subset hstep) hfollow,
    fun hT b => hfollow.clean b (hI₁.2 hT b)⟩

/-- What a walk from `y` itself does in a visit from `y`. -/
structure Visited (an : Analyzer) (slot : Slot) (y : ℕ) (prob : ℚ) (W : List ℕ) (r : Table × Tables) :
    Prop where
  nonneg : ∀ k, 0 ≤ r.1.val k
  total : r.1.total = prob
  state : VisitState an slot y W r.2

/-- The walks from `y` with `left` blocks to go. -/
def VisitsSelf (an : Analyzer) (slot : Slot) (y left : ℕ) : Prop :=
  ∀ T prob dist W W', 0 < prob → Written slot W T → (∀ b, Clean (T (b, slot))) →
    walk an slot left W y true true = some W' →
    Visited an slot y prob W' (helper an slot left T y prob dist)

/-- The turn of `y` itself. An edge without a probability is a walk that writes nothing. -/
theorem VisitState.self_turn {slot : Slot} {left : ℕ} {q : ℚ} {dist : ℤ} {T : Tables} {W : List ℕ}
    (h : VisitState an slot y W T) (hself : VisitsSelf an slot y left) (hp : 0 < prob)
    (hq : 0 ≤ q) (hT : ∀ b, Clean (T (b, slot)))
    (hwalk : walk an slot left W y (decide (0 < q)) true = some W') :
    Visited an slot y (prob * q) W' (helper an slot left T y (prob * q) dist) := by
  rcases hq.eq_or_lt with hzero | hpos
  · rw [← hzero] at hwalk
    rw [← hzero, mul_zero]
    have hdead : walk an slot left W y (decide ((0 : ℚ) < 0)) false = some W' := by
      simpa [walk_dead] using hwalk
    have hfollow := helper_follows left T y 0 dist le_rfl h.written (Or.inl rfl) hdead
    exact ⟨hfollow.nonneg, hfollow.total, h.of_follows (walk_subset hdead) hfollow⟩
  · rw [decide_eq_true hpos] at hwalk
    exact hself T (prob * q) dist W W' (mul_pos hp hpos) h.written hT hwalk

/-- The loop of a visit over all predecessors. Before the turn of `y` itself all tables are clean,
and behind it the table of `y` need not be. -/
theorem visit_turns {an : Analyzer} {slot : Slot} {left y : ℕ} {prob : ℚ} {dist : ℤ}
    {D : Table} {T T' : Tables} {W W' : List ℕ} (hpreds : an.cfg.predecessors y ≠ [])
    (h : Turns an (fun T p q d D T' => helper an slot left T p q d = (D, T')) y prob dist
      (an.cfg.predecessors y) .empty T D T')
    (hself : VisitsSelf an slot y left) (hp : 0 < prob) (hwritten : Written slot W T)
    (hT : ∀ b, Clean (T (b, slot)))
    (hW : (an.cfg.predecessors y).foldlM (fun W p => walk an slot left W p
      (true && decide (0 < an.cfg.backward_prob p y)) (true && p == y)) W = some W') :
    Visited an slot y prob W' (D, T') := by
  have hstart : VisitState an slot y W T := .of_clean hwritten hT
  have hempty : ∀ k, 0 ≤ (empty : Table).val k := fun k => le_of_eq (val_empty k).symm
  have hsum := an.cfg.sum_one y hpreds
  by_cases hmem : y ∈ an.cfg.predecessors y
  · obtain ⟨pre, post, hsplit⟩ := List.append_of_mem hmem
    have hnodup := an.cfg.nodup_predecessors y
    have hall : ∀ p ∈ pre ++ y :: post, p ∈ an.cfg.predecessors y := fun p hp => hsplit ▸ hp
    rw [hsplit] at h hW hnodup hsum
    obtain ⟨hpre, hpost, hdisj⟩ := List.nodup_append.mp hnodup
    obtain ⟨D₁, T₁, h₁, h₂⟩ := h.split
    rw [List.foldlM_append] at hW
    obtain ⟨W₁, hW₁, hW⟩ := Option.bind_eq_some_iff.mp hW
    obtain ⟨hnn₁, htotal₁, hstate₁, hclean₁⟩ := h₁.visit (fun p hp => ⟨hall p (by simp [hp]), by
      rintro rfl
      exact hdisj p hp p List.mem_cons_self rfl⟩) hp hempty hW₁ hstart
    rw [List.foldlM_cons] at hW
    obtain ⟨W₂, hW₂, hW⟩ := Option.bind_eq_some_iff.mp hW
    rw [beq_self_eq_true, Bool.true_and, Bool.true_and] at hW₂
    cases h₂ with
    | cons turn more =>
      have hself₂ : Visited an slot y (prob * an.cfg.backward_prob y y) W₂ _ :=
        turn ▸ hstate₁.self_turn hself hp (an.cfg.nonneg y y hmem) (hclean₁ hT) hW₂
      obtain ⟨hnn₃, htotal₃, hstate₃, -⟩ := more.visit (fun p hp => ⟨hall p (by simp [hp]), by
        rintro rfl
        exact (List.nodup_cons.mp hpost).1 hp⟩) hp (fun k => by
          rw [val_merge]
          exact add_nonneg (hnn₁ k) (hself₂.nonneg k)) hW hself₂.state
      refine ⟨hnn₃, ?_, hstate₃⟩
      rw [List.map_append, List.sum_append, List.map_cons, List.sum_cons] at hsum
      rw [htotal₃, total_merge, htotal₁, hself₂.total, total_empty, zero_add, ← mul_add, ← mul_add,
        add_assoc, hsum, mul_one]
  · obtain ⟨hnn, htotal, hstate, -⟩ := h.visit (fun p hp => ⟨hp, by
      rintro rfl
      exact hmem hp⟩) hp hempty hW hstart
    rw [hsum, total_empty, zero_add, mul_one] at htotal
    exact ⟨hnn, htotal, hstate⟩

theorem foldlM_walk_zero {slot : Slot} {live top : ℕ → Bool} (l W : List ℕ) :
    l.foldlM (fun W p => walk an slot 0 W p (live p) (top p)) W = some W := by
  induction l generalizing W with
  | nil => rfl
  | cons p l ih =>
    rw [List.foldlM_cons]
    exact ih W

/-- A walk with more than one block to go settles the predecessors that it comes to. -/
theorem settled_of_turns {an : Analyzer} {slot : Slot} {left y : ℕ} {W V : List ℕ}
    (h : (an.cfg.predecessors y).foldlM (fun W p => walk an slot (left + 1) W p
      (true && decide (0 < an.cfg.backward_prob p y)) (true && p == y)) W = some V) {p : ℕ}
    (hp : p ∈ an.cfg.predecessors y) (hpos : 0 < an.cfg.backward_prob p y) :
    Settled an slot V p := by
  obtain ⟨V₁, V₂, hturn, hsub⟩ := foldlM_turn (fun p _ W W' h => walk_subset h) h hp
  rw [decide_eq_true hpos, Bool.true_and] at hturn
  exact (settled_of_walk hturn).imp (fun hmem => hsub hmem) id

theorem visited_of_walk {slot : Slot} {left : ℕ} {T : Tables} {dist : ℤ} {W : List ℕ}
    (hp : 0 < prob) (hW : Written slot W T) (hT : ∀ b, Clean (T (b, slot)))
    (h : walk an slot left W y (decide (0 < prob)) false = some W') :
    Visited an slot y prob W' (helper an slot left T y prob dist) := by
  have hfollow := helper_follows left T y prob dist hp.le hW (Or.inr hT) h
  exact ⟨hfollow.nonneg, hfollow.total, .of_clean hfollow.written fun b => hfollow.clean b (hT b)⟩

/-- The walk at the top of a visit returns the mass it is asked for. The induction is on the turns
over the edge of the block to itself. -/
theorem helper_visit {slot : Slot} (left : ℕ) : VisitsSelf an slot y left := by
  induction left with
  | zero => exact fun T prob dist W W' hp hW hT h => visited_of_walk hp hW hT h
  | succ left ih =>
    intro T prob dist W W' hp hW hT h
    by_cases hempty : (T (y, slot)).entries = []
    · have hmem : y ∉ W := fun hmem => (hW y).mp hmem hempty
      by_cases hsilent : Silent an slot y
      · by_cases hpreds : an.cfg.predecessors y = []
        · rw [walk_of_entry hmem hsilent hpreds] at h
          exact visited_of_walk hp hW hT ((walk_of_entry hmem hsilent hpreds).trans h)
        · obtain ⟨V, hV, ⟨hlive, -⟩ | ⟨-, -, rfl⟩⟩ := walk_inner hmem hsilent hpreds h
          · cases hlive
          · obtain ⟨D, T', hturns, hres⟩ := helper_inner left prob dist hempty hsilent hpreds
            obtain ⟨hnn, htotal, hstate⟩ := visit_turns hpreds hturns ih hp hW hT hV
            rw [hres]
            refine ⟨hnn, htotal, hstate.written.update y (write_back_ne_nil dist hp hnn htotal),
              fun b hb => clean_update y (fun _ => hstate.clean b hb) fun h => absurd h hb, ?_⟩
            cases left with
            | zero =>
              -- No walk from a predecessor goes anywhere, so the table is written once.
              rw [foldlM_walk_zero] at hV
              cases hV
              have hnil : (T' (y, slot)).entries = [] := by
                by_contra hne
                exact hmem ((hstate.written y).mpr hne)
              left
              exact clean_update y (fun h => absurd rfl h) fun _ =>
                Or.inr (isDistribution_write_back dist hp hnn htotal hnil)
            | succ left =>
              right
              intro p hpmem _ hpos
              exact (settled_of_turns hV hpmem hpos).imp (List.mem_cons_of_mem y) id
      · rw [walk_of_access hmem hsilent] at h
        exact visited_of_walk hp hW hT ((walk_of_access hmem hsilent).trans h)
    · have hmem : y ∈ W := (hW y).mpr hempty
      rw [walk_of_mem hmem] at h
      exact visited_of_walk hp hW hT ((walk_of_mem hmem).trans h)

/-! ## The whole run -/

/-- The blocks that have a table of each slot, and the tables. -/
def RunState (W : Slot → List ℕ) (T : Tables) : Prop :=
  ∀ slot, Written slot (W slot) T ∧ ∀ b, Clean (T (b, slot))

/-- A visit writes a distribution, and leaves clean tables. -/
theorem visit_clean {slot : Slot} {T : Tables} {W : Slot → List ℕ} {V : List ℕ} (h : RunState W T)
    (hwalk : walk an slot (an.max_bb_depth + 1).toNat (W slot) bb true true = some V) :
    RunState (Function.update W slot (bb :: V)) (visit an T (bb, slot)) := by
  obtain ⟨hnn, htotal, hstate⟩ := helper_visit (an.max_bb_depth + 1).toNat T 1 0 (W slot) V
    one_pos (h slot).1 (h slot).2 hwalk
  have hdist : IsDistribution (helper an slot (an.max_bb_depth + 1).toNat T bb 1 0).1 :=
    ⟨hnn, htotal⟩
  intro slot'
  unfold visit
  by_cases hslot : slot' = slot
  · subst hslot
    rw [Function.update_self]
    exact ⟨hstate.written.update bb hdist.ne_nil,
      fun b => clean_update bb (hstate.clean b) fun _ => Or.inr hdist⟩
  · have hsame : ∀ b, Function.update (helper an slot (an.max_bb_depth + 1).toNat T bb 1 0).2
        (bb, slot) (helper an slot (an.max_bb_depth + 1).toNat T bb 1 0).1 (b, slot') =
          T (b, slot') := by
      intro b
      rw [Function.update_of_ne (by simp [hslot]), helper_keeps _ _ _ _ _ _ _ _ (Or.inr hslot)]
    rw [Function.update_of_ne hslot]
    refine ⟨fun b => ?_, fun b => ?_⟩
    · rw [(h slot').1 b, hsame]
    · rw [hsame]
      exact (h slot').2 b

/-- A visit leaves an entry in the table it is for, and in each table that has one. -/
theorem visit_ne_nil (an : Analyzer) (T : Tables) (key k : ℕ × Slot)
    (hk : k = key ∨ (T k).entries ≠ []) : (visit an T key k).entries ≠ [] := by
  unfold visit
  by_cases heq : k = key
  · rw [heq, Function.update_self]
    exact helper_ne_nil _ _ _ _ _ _ _
  · have hne := hk.resolve_left heq
    rw [Function.update_of_ne heq, helper_keeps _ _ _ _ _ _ _ _ (Or.inl hne)]
    exact hne

theorem visits_ne_nil (an : Analyzer) (keys : List (ℕ × Slot)) (T : Tables) (k : ℕ × Slot)
    (hk : k ∈ keys ∨ (T k).entries ≠ []) : (keys.foldl (visit an) T k).entries ≠ [] := by
  induction keys generalizing T with
  | nil => exact hk.resolve_left (by simp)
  | cons key rest ih =>
    apply ih
    rw [List.mem_cons] at hk
    rcases hk with (hk | hk) | hk
    · exact Or.inr (visit_ne_nil an T key k (Or.inl hk))
    · exact Or.inl hk
    · exact Or.inr (visit_ne_nil an T key k (Or.inr hk))

theorem mem_slots (slot : Slot) : slot ∈ slots := by
  obtain ⟨reg, rw⟩ := slot
  cases reg <;> cases rw <;> decide

/-- Each table of the run is a distribution. -/
def AllDistributions (an : Analyzer) : Prop :=
  ∀ bb ∈ an.cfg.nodes, ∀ slot,
    (∀ v ∈ (basic_block_reg_dep_distances an (bb, slot)).values, 0 ≤ v) ∧
      (basic_block_reg_dep_distances an (bb, slot)).values.sum = 1

theorem mem_visited (hbb : bb ∈ an.cfg.nodes) (slot : Slot) :
    (bb, slot) ∈ an.cfg.nodes.flatMap fun bb => slots.map fun slot => (bb, slot) :=
  List.mem_flatMap.mpr ⟨bb, hbb, List.mem_map.mpr ⟨slot, mem_slots slot, rfl⟩⟩

theorem nodup_slots : slots.Nodup := by decide

/-- The visits of one block, a slot after the other. -/
theorem visits_of_block {an : Analyzer} {bb : ℕ} {W V : Slot → List ℕ} (l : List Slot) (T : Tables)
    (hl : l.Nodup) (h : RunState W T)
    (hwalk : ∀ slot ∈ l, walk an slot (an.max_bb_depth + 1).toNat (W slot) bb true true =
      some (V slot)) :
    RunState (fun slot => if slot ∈ l then bb :: V slot else W slot)
      ((l.map fun slot => (bb, slot)).foldl (visit an) T) := by
  induction l generalizing T W with
  | nil => simpa using h
  | cons slot l ih =>
    rw [List.forall_mem_cons] at hwalk
    obtain ⟨hmem, hl⟩ := List.nodup_cons.mp hl
    have hnext : ∀ slot' ∈ l, Function.update W slot (bb :: V slot) slot' = W slot' := by
      intro slot' hslot'
      rw [Function.update_of_ne]
      rintro rfl
      exact hmem hslot'
    have hrest := ih (visit an T (bb, slot)) hl (visit_clean h hwalk.1) fun slot' hslot' => by
      rw [hnext slot' hslot']
      exact hwalk.2 slot' hslot'
    rw [List.map_cons, List.foldl_cons]
    convert hrest using 2 with slot'
    by_cases hslot' : slot' = slot
    · subst hslot'
      simp [hmem]
    · simp [hslot']

/-- The visits of the blocks, in the order of the nodes. -/
theorem visits_clean {an : Analyzer} (nodes : List ℕ) (W : Slot → List ℕ) (T : Tables)
    (h : RunState W T)
    (hwalk : ∀ slot, (nodes.foldlM (fun W bb =>
      (walk an slot (an.max_bb_depth + 1).toNat W bb true true).map (bb :: ·)) (W slot)).isSome) :
    ∃ W', RunState W'
      ((nodes.flatMap fun bb => slots.map fun slot => (bb, slot)).foldl (visit an) T) := by
  induction nodes generalizing W T with
  | nil => exact ⟨W, h⟩
  | cons bb nodes ih =>
    have hstep : ∀ slot, ∃ V, walk an slot (an.max_bb_depth + 1).toNat (W slot) bb true true =
        some V ∧ (nodes.foldlM (fun W bb =>
          (walk an slot (an.max_bb_depth + 1).toNat W bb true true).map (bb :: ·)) (bb :: V)).isSome := by
      intro slot
      obtain ⟨U, hU⟩ := Option.isSome_iff_exists.mp (hwalk slot)
      rw [List.foldlM_cons] at hU
      obtain ⟨V', hV', hU⟩ := Option.bind_eq_some_iff.mp hU
      obtain ⟨V, hV, rfl⟩ := Option.map_eq_some_iff.mp hV'
      exact ⟨V, hV, Option.isSome_iff_exists.mpr ⟨U, hU⟩⟩
    choose V hV hrest using hstep
    have hblock := visits_of_block slots T nodup_slots h fun slot _ => hV slot
    simp only [mem_slots, if_true] at hblock
    rw [List.flatMap_cons, List.foldl_append]
    exact ih _ _ hblock hrest

theorem allDistributions_of_noReturn (h : ∀ slot, NoReturn an slot) : AllDistributions an := by
  intro bb hbb slot
  obtain ⟨W, hW⟩ := visits_clean an.cfg.nodes (fun _ => []) (fun _ => .empty)
    (fun slot => ⟨fun b => by simp, fun b => Or.inl rfl⟩) h
  have hne : (basic_block_reg_dep_distances an (bb, slot)).entries ≠ [] :=
    visits_ne_nil an _ _ _ (Or.inl (mem_visited hbb slot))
  have hclean : Clean (basic_block_reg_dep_distances an (bb, slot)) := (hW slot).2 bb
  obtain ⟨hnn, htotal⟩ := hclean.resolve_left hne
  refine ⟨?_, htotal⟩
  intro v hv
  obtain ⟨e, he, rfl⟩ := List.mem_map.mp hv
  have := hnn e.1
  rwa [val_of_mem (v := e.2) he] at this

end ditto.data_dependency_analyzer
