-- Walks that come back. A walk that comes back to a block before it has left
-- it leaves a key in the table of the block, and the walk outside adds its own
-- mass beside it. In a graph where no block on a cycle feeds another block
-- this happens in no order of the blocks.
import Ditto.DistanceMass
import Mathlib.Logic.Relation

open PyDict

namespace ditto.data_dependency_analyzer

/-! ## Blocks on a cycle -/

/-- The walk goes from the silent block `y` to the silent block `x` with a positive
probability: `x` feeds `y`. -/
def Feeds (an : Analyzer) (slot : Slot) (y x : ℕ) : Prop :=
  x ∈ an.cfg.predecessors y ∧ 0 < an.cfg.backward_prob x y ∧ Silent an slot y ∧ Silent an slot x

/-- A walk from the block can come back to it. -/
def OnCycle (an : Analyzer) (slot : Slot) (z : ℕ) : Prop :=
  Relation.TransGen (Feeds an slot) z z

/-- No block that a walk can come back to feeds another silent block. -/
def NoFeedback (an : Analyzer) (slot : Slot) : Prop :=
  ∀ x y, Feeds an slot y x → x ≠ y → ¬ OnCycle an slot x

section graph

variable {an : Analyzer} {slot : Slot} {left bb : ℕ} {W W' : List ℕ} {top : Bool}

/-- A loop of walks writes what its walks write. -/
theorem foldlM_mem {α : Type} {f : List ℕ → α → Option (List ℕ)} {l : List α} {b : ℕ}
    {Q : Prop} (hf : ∀ x ∈ l, ∀ W W', f W x = some W' → b ∈ W' → b ∈ W ∨ Q)
    (h : l.foldlM f W = some W') (hb : b ∈ W') : b ∈ W ∨ Q := by
  induction l generalizing W with
  | nil =>
    cases h
    exact Or.inl hb
  | cons x l ih =>
    rw [List.foldlM_cons] at h
    obtain ⟨V, hV, hrest⟩ := Option.bind_eq_some_iff.mp h
    rw [List.forall_mem_cons] at hf
    rcases ih hf.2 hrest with hb | hb
    · exact hf.1 W V hV hb
    · exact Or.inr hb

/-- A walk without a probability writes no silent block. -/
theorem mem_of_walk_dead {b : ℕ} (hsilent : Silent an slot b)
    (h : walk an slot left W bb false top = some W') (hb : b ∈ W') : b ∈ W := by
  induction left generalizing W W' bb top with
  | zero =>
    cases h
    exact hb
  | succ left ih =>
    rcases walk_cases h with ⟨rfl, -⟩ | ⟨hbb, rfl⟩ | ⟨-, V, hV, ⟨-, rfl⟩ | ⟨hlive, -⟩⟩
    · exact hb
    · refine (List.mem_cons.mp hb).resolve_left ?_
      rintro rfl
      exact hbb hsilent
    · refine (foldlM_mem (Q := False) (fun p _ W W' h hb => Or.inl ?_) hV hb).resolve_right id
      rw [Bool.false_and] at h
      exact ih h hb
    · cases hlive

/-- A walk writes the silent blocks on its way only. -/
theorem reaches_of_walk {b : ℕ} (hsilent : Silent an slot b)
    (h : walk an slot left W bb true top = some W') (hb : b ∈ W') :
    b ∈ W ∨ Relation.ReflTransGen (Feeds an slot) bb b := by
  induction left generalizing W W' bb top with
  | zero =>
    cases h
    exact Or.inl hb
  | succ left ih =>
    rcases walk_cases h with ⟨rfl, -⟩ | ⟨hbb, rfl⟩ | ⟨hbb, V, hV, ⟨hlive, -⟩ | ⟨-, -, rfl⟩⟩
    · exact Or.inl hb
    · rcases List.mem_cons.mp hb with rfl | hb
      · exact absurd hsilent hbb
      · exact Or.inl hb
    · cases hlive
    · rcases List.mem_cons.mp hb with rfl | hb
      · exact Or.inr .refl
      · refine foldlM_mem (fun p hp W W' h hb => ?_) hV hb
        by_cases hpos : 0 < an.cfg.backward_prob p bb
        · rw [decide_eq_true hpos, Bool.true_and] at h
          rcases ih h hb with hb | hway
          · exact Or.inl hb
          · rcases hway.cases_head with rfl | ⟨z, hz, -⟩
            · exact Or.inr (.single ⟨hp, hpos, hbb, hsilent⟩)
            · exact Or.inr (.head ⟨hp, hpos, hbb, hz.2.2.1⟩ hway)
        · rw [decide_eq_false hpos, Bool.and_false] at h
          exact Or.inl (mem_of_walk_dead hsilent h hb)

theorem foldlM_isSome {α : Type} {f : List ℕ → α → Option (List ℕ)} {l : List α}
    (hf : ∀ x ∈ l, ∀ W, (f W x).isSome) : (l.foldlM f W).isSome := by
  induction l generalizing W with
  | nil => rfl
  | cons x l ih =>
    rw [List.forall_mem_cons] at hf
    obtain ⟨V, hV⟩ := Option.isSome_iff_exists.mp (hf.1 W)
    rw [List.foldlM_cons, hV]
    exact ih hf.2

/-- A walk goes through when the walks from the predecessors do, and do not come back. -/
theorem walk_isSome_of_turns {live : Bool}
    (hturns : Silent an slot bb → ∀ p ∈ an.cfg.predecessors bb, ∀ W, (walk an slot left W p
      (live && decide (0 < an.cfg.backward_prob p bb)) (top && p == bb)).isSome)
    (hback : live = true → top = false → Silent an slot bb → ¬ OnCycle an slot bb) :
    (walk an slot (left + 1) W bb live top).isSome := by
  by_cases hW : bb ∈ W
  · rw [walk_of_mem hW]
    rfl
  · by_cases hbb : Silent an slot bb
    · obtain ⟨V, hV⟩ := Option.isSome_iff_exists.mp (foldlM_isSome (W := W) (hturns hbb))
      have hnone : ¬ an.reg_insts bb slot ≠ [] := not_not.mpr hbb
      rw [walk, if_neg hW, if_neg hnone, hV]
      simp only [Option.bind_eq_bind, Option.bind_some]
      split
      · rfl
      · rename_i hlive
        rw [not_or, Bool.not_eq_false] at hlive
        rw [if_neg]
        · rfl
        · rintro ⟨hmem, htop⟩
          -- The table of the block was written on the way back to it.
          refine hback hlive.2 htop hbb ?_
          have hway := foldlM_mem (Q := OnCycle an slot bb) (fun p hp W W' h hb => ?_) hV hmem
          · exact hway.resolve_left hW
          · by_cases hpos : 0 < an.cfg.backward_prob p bb
            · rw [hlive.2, decide_eq_true hpos, Bool.true_and] at h
              rcases reaches_of_walk hbb h hb with hb | hway
              · exact Or.inl hb
              · right
                have hp' : Silent an slot p := by
                  rcases hway.cases_head with rfl | ⟨z, hz, -⟩
                  · exact hbb
                  · exact hz.2.2.1
                exact Relation.TransGen.head' ⟨hp, hpos, hbb, hp'⟩ hway
            · rw [decide_eq_false hpos, Bool.and_false] at h
              exact Or.inl (mem_of_walk_dead hbb h hb)
    · rw [walk_of_access hW hbb]
      rfl

theorem walk_dead_isSome : (walk an slot left W bb false top).isSome := by
  induction left generalizing W bb top with
  | zero => rfl
  | succ left ih =>
    refine walk_isSome_of_turns (fun _ p _ W => ?_) fun hlive => ?_
    · rw [Bool.false_and]
      exact ih
    · cases hlive

/-- A walk from the block meets no block on a cycle. -/
def Calm (an : Analyzer) (slot : Slot) (bb : ℕ) : Prop :=
  ∀ z, Relation.ReflTransGen (Feeds an slot) bb z → ¬ OnCycle an slot z

theorem calm_of_access (h : ¬ Silent an slot bb) : Calm an slot bb := by
  intro z hz hcycle
  obtain rfl : bb = z := by
    rcases hz.cases_head with rfl | ⟨w, hw, -⟩
    · rfl
    · exact absurd hw.2.2.1 h
  obtain ⟨w, hw, -⟩ := Relation.TransGen.head'_iff.mp hcycle
  exact h hw.2.2.1

theorem Calm.walk_isSome (h : Calm an slot bb) : (walk an slot left W bb true false).isSome := by
  induction left generalizing W bb with
  | zero => rfl
  | succ left ih =>
    refine walk_isSome_of_turns (fun hbb p hp W => ?_) fun _ _ _ => h bb .refl
    rw [Bool.false_and, Bool.true_and]
    by_cases hpos : 0 < an.cfg.backward_prob p bb
    · rw [decide_eq_true hpos]
      apply ih
      by_cases hsilent : Silent an slot p
      · exact fun z hz => h z (.head ⟨hp, hpos, hbb, hsilent⟩ hz)
      · exact calm_of_access hsilent
    · rw [decide_eq_false hpos]
      exact walk_dead_isSome

/-- A walk gets to a block on a cycle only when it starts there. -/
theorem NoFeedback.eq_of_reaches (h : NoFeedback an slot) {z : ℕ}
    (hz : Relation.ReflTransGen (Feeds an slot) bb z) (hcycle : OnCycle an slot z) : z = bb := by
  induction hz with
  | refl => rfl
  | @tail w z _ hwz ih =>
    by_cases hzw : z = w
    · subst hzw
      exact ih hcycle
    · exact absurd hcycle (h z w hwz hzw)

/-- The walks from the other predecessors of a block meet no cycle. -/
theorem NoFeedback.calm_parent (h : NoFeedback an slot) {x p : ℕ} (hx : Silent an slot x)
    (hp : p ∈ an.cfg.predecessors x) (hpos : 0 < an.cfg.backward_prob p x) (hne : p ≠ x) :
    Calm an slot p := by
  by_cases hsilent : Silent an slot p
  · intro z hz hcycle
    obtain rfl := h.eq_of_reaches hz hcycle
    exact h z x ⟨hp, hpos, hx, hsilent⟩ hne hcycle
  · exact calm_of_access hsilent

theorem NoFeedback.walk_isSome (h : NoFeedback an slot) :
    (walk an slot left W bb true true).isSome := by
  induction left generalizing W with
  | zero => rfl
  | succ left ih =>
    refine walk_isSome_of_turns (fun hbb p hp W => ?_) fun _ htop => ?_
    · rw [Bool.true_and, Bool.true_and]
      by_cases hpos : 0 < an.cfg.backward_prob p bb
      · rw [decide_eq_true hpos]
        by_cases hne : p = bb
        · subst hne
          rw [beq_self_eq_true]
          exact ih
        · rw [beq_false_of_ne hne]
          exact (h.calm_parent hbb hp hpos hne).walk_isSome
      · rw [decide_eq_false hpos]
        exact walk_dead_isSome
    · cases htop

end graph

/-- Without feedback no order of the blocks and no depth makes a walk come back. -/
theorem NoFeedback.noReturn {an : Analyzer} {slot : Slot} (h : NoFeedback an slot) :
    NoReturn an slot := by
  apply foldlM_isSome
  intro bb _ W
  rw [Option.isSome_map]
  exact h.walk_isSome

/-! ## The laws -/

/-- The tables are distributions when no visit of the run comes back to a block before it has left
it. This is so in every order, for every depth and for all numbers of instructions, when no block
on a cycle of silent blocks feeds another silent block. -/
theorem tables_are_distributions_if_no_walk_returns (an : Analyzer) :
    ((∀ slot, NoReturn an slot) → AllDistributions an) ∧
      ∀ slot, NoFeedback an slot → NoReturn an slot :=
  ⟨allDistributions_of_noReturn, fun _ h => h.noReturn⟩

/-- The entry block 0 reads the register `a`, the block 2 is a loop behind it, and the block
1 is behind the loop. Each block has one instruction. -/
def loopThenExit (nodes : List ℕ) (hnodes : nodes.Perm [0, 1, 2]) (max_bb_depth : ℤ) :
    Analyzer where
  cfg :=
    { nodes := nodes
      predecessors := fun b => if b = 1 then [2] else if b = 2 then [2, 0] else []
      backward_prob := fun _ b => if b = 2 then 1 / 2 else 1
      nodup_nodes := hnodes.nodup_iff.mpr (by decide)
      nodup_predecessors := by
        intro b
        split_ifs <;> decide
      closed := by
        intro b p hp
        rw [hnodes.mem_iff, hnodes.mem_iff]
        split_ifs at hp <;> simp_all
        rcases hp with rfl | rfl <;> simp
      nonneg := by
        intro b p _
        split_ifs <;> norm_num
      sum_one := by
        intro b hb
        by_cases h1 : b = 1
        · simp [h1]
        · by_cases h2 : b = 2
          · norm_num [h2]
          · simp [h1, h2] at hb }
  insts := fun _ => 1
  reg_insts := fun b slot => if b = 0 ∧ slot = ⟨.a, .rd⟩ then [0] else []
  max_bb_depth := max_bb_depth
  blocks := by
    intro b slot h
    rw [hnodes.mem_iff]
    split_ifs at h with hb
    · simp [hb.1]
    · exact absurd rfl h

/-- From the loop itself, or with less depth, the walks do not come back. -/
theorem tables_are_distributions_from_the_loop_on :
    AllDistributions (loopThenExit [2, 1, 0] (by decide) 2) ∧
      AllDistributions (loopThenExit [1, 2, 0] (by decide) 1) := by
  have hfirst : ∀ slot ∈ slots, NoReturn (loopThenExit [2, 1, 0] (by decide) 2) slot := by
    decide +kernel
  have hshort : ∀ slot ∈ slots, NoReturn (loopThenExit [1, 2, 0] (by decide) 1) slot := by
    decide +kernel
  exact ⟨(tables_are_distributions_if_no_walk_returns _).1 fun slot => hfirst slot (mem_slots slot),
    (tables_are_distributions_if_no_walk_returns _).1 fun slot => hshort slot (mem_slots slot)⟩

/-- The walk from the block 1 comes to the loop twice. The inner turn of the loop leaves the
mass one at `MAX_INT - 2`, and the outer turn adds its own mass one beside it. -/
theorem a_loop_before_an_exit_gets_twice_the_mass : ¬ ∀ an : Analyzer, AllDistributions an := by
  intro h
  have htwo : (basic_block_reg_dep_distances (loopThenExit [1, 2, 0] (by decide) 2)
      (2, ⟨.a, .rd⟩)).values.sum = 2 := by decide +kernel
  have hone := (h (loopThenExit [1, 2, 0] (by decide) 2) 2 (by decide) ⟨.a, .rd⟩).2
  rw [htwo] at hone
  exact absurd hone (by norm_num)

/-- Two loops over the block 0, which no block reads or writes a register in. -/
def twoLoops : Analyzer where
  cfg :=
    { nodes := [1, 0, 2]
      predecessors := fun b => if b = 0 then [1, 2] else if b = 1 ∨ b = 2 then [0] else []
      backward_prob := fun _ b => if b = 0 then 1 / 2 else 1
      nodup_nodes := by decide
      nodup_predecessors := by
        intro b
        split_ifs <;> decide
      closed := by
        intro b p hp
        split_ifs at hp with h0 h1
        · subst h0
          simp only [List.mem_cons, List.not_mem_nil, or_false] at hp
          rcases hp with rfl | rfl <;> decide
        · obtain rfl := List.mem_singleton.mp hp
          rcases h1 with rfl | rfl <;> decide
        · cases hp
      nonneg := by
        intro b p _
        split_ifs <;> norm_num
      sum_one := by
        intro b hb
        by_cases h0 : b = 0
        · norm_num [h0]
        · by_cases h1 : b = 1 ∨ b = 2
          · simp [h0, h1]
          · simp [h0, h1] at hb }
  insts := fun b => if b = 1 then 2 else 3
  reg_insts := fun _ _ => []
  max_bb_depth := 4
  blocks := by
    intro b slot h
    exact absurd rfl h

/-- The condition on the walks is not the weakest one. Here the walk comes back, but the walk
outside finds each distance that the inner one has left, and writes over it. -/
theorem a_walk_may_come_back_unseen :
    ¬ NoReturn twoLoops ⟨.a, .rd⟩ ∧ AllDistributions twoLoops := by
  have hall : ∀ bb ∈ twoLoops.cfg.nodes, ∀ slot ∈ slots,
      (∀ v ∈ (basic_block_reg_dep_distances twoLoops (bb, slot)).values, 0 ≤ v) ∧
        (basic_block_reg_dep_distances twoLoops (bb, slot)).values.sum = 1 := by
    decide +kernel
  exact ⟨by decide +kernel, fun bb hbb slot => hall bb hbb slot (mem_slots slot)⟩

end ditto.data_dependency_analyzer
