-- What the register allocation makes of a body. It ends for all lines and
-- all draws, every placeholder is a register of its own class in the end,
-- and the registers that the loop of a block needs are left alone.
import Ditto.Clobbers

open LabelMachine
open ditto.data_dependency_analyzer (GpReg)

namespace ditto.assembly_generator

/-! ## Classes of registers -/

def RegName.group : RegName → RegGroup
  | .gp _ => .REG
  | .xmm _ => .XMMREG
  | .st _ => .STREG

/-- The registers of the loop and of the stack. -/
def RESERVED : List RegName := [.gp .r10, .gp .r11, .gp .r12, .gp .r13, .gp .sp, .gp .bp]

theorem group_of_mem_reg_groups {group : RegGroup} {r : RegName} (h : r ∈ reg_groups group) :
    r.group = group ∧ r ∉ RESERVED := by
  have hall : ∀ r ∈ reg_groups group, r.group = group ∧ r ∉ RESERVED := by
    cases group <;> decide
  exact hall r h

theorem reg_groups_ne_nil (group : RegGroup) : reg_groups group ≠ [] := by
  cases group <;> decide

/-- A placeholder becomes a register of its class that is not reserved, and every other operand
stays. -/
def Allocates : Operand → Operand → Prop
  | .slot _ group, o => ∃ r : RegName, r.group = group ∧ r ∉ RESERVED ∧ o = .reg r
  | o, o' => o' = o

/-- The same in the middle of the loop, where a placeholder may also stay. -/
def MayAllocate (o o' : Operand) : Prop := o' = o ∨ Allocates o o'

theorem allocates_reg_iff {r : RegName} {o : Operand} : Allocates (.reg r) o ↔ o = .reg r := Iff.rfl

theorem allocates_of_not_slot {o : Operand} (h : ∀ access group, o ≠ .slot access group) :
    Allocates o o := by
  cases o with
  | slot access group => exact absurd rfl (h access group)
  | _ => rfl

theorem MayAllocate.trans {o o' o'' : Operand} (h : MayAllocate o o') (h' : MayAllocate o' o'') :
    MayAllocate o o'' := by
  rcases h with rfl | h
  · exact h'
  cases o with
  | slot access group =>
    -- A register stays.
    obtain ⟨r, hgroup, hfree, rfl⟩ := h
    have heq : o'' = .reg r := h'.elim id allocates_reg_iff.mp
    exact .inr ⟨r, hgroup, hfree, heq⟩
  | _ =>
    obtain rfl := h
    exact h'

theorem mayAllocate_of_replace {access : Access} {group : RegGroup} {r : RegName}
    (hr : r ∈ reg_groups group) {o o' : Operand}
    (h : o' = o ∨ o = .slot access group ∧ o' = .reg r) : MayAllocate o o' := by
  rcases h with rfl | ⟨rfl, rfl⟩
  · exact .inl rfl
  · obtain ⟨hgroup, hfree⟩ := group_of_mem_reg_groups hr
    exact .inr ⟨r, hgroup, hfree, rfl⟩

/-! ## Statements -/

/-- The statements differ at most in their operands, and these are related one by one. -/
structure StmtRel (R : Operand → Operand → Prop) (st st' : Stmt) : Prop where
  shape_eq : shape st' = shape st
  operands : List.Forall₂ R (operands st) (operands st')

theorem StmtRel.imp {R R' : Operand → Operand → Prop} (hR : ∀ o o', R o o' → R' o o')
    {st st' : Stmt} (h : StmtRel R st st') : StmtRel R' st st' :=
  ⟨h.shape_eq, h.operands.imp hR⟩

theorem StmtRel.refl {R : Operand → Operand → Prop} (hR : ∀ o, R o o) (st : Stmt) :
    StmtRel R st st :=
  ⟨rfl, List.forall₂_same.mpr fun o _ => hR o⟩

/-- One replacement, for a single line. -/
theorem forall₂_replace_last (old new : Operand) (line : List Stmt) :
    List.Forall₂ (StmtRel fun o o' => o' = o ∨ o = old ∧ o' = new) line
      (replace_last old new line) := by
  induction line with
  | nil => exact .nil
  | cons s rest ih =>
    unfold replace_last
    split
    · exact .cons (StmtRel.refl (fun _ => .inl rfl) s) ih
    · refine .cons ⟨shape_replace_operand old new s, ?_⟩ ?_
      · rw [operands_replace_operand]
        exact Text.forall₂_replaceLast old new (operands s)
      · exact List.forall₂_same.mpr fun s _ => StmtRel.refl (fun _ => .inl rfl) s

theorem forall₂_mayAllocate_trans {l l' l'' : List Stmt}
    (h : List.Forall₂ (StmtRel MayAllocate) l l') (h' : List.Forall₂ (StmtRel MayAllocate) l' l'') :
    List.Forall₂ (StmtRel MayAllocate) l l'' := by
  have htrans {l l' l'' : List Operand} (h : List.Forall₂ MayAllocate l l')
      (h' : List.Forall₂ MayAllocate l' l'') : List.Forall₂ MayAllocate l l'' := by
    induction h generalizing l'' with
    | nil => exact h'
    | cons ho _ ih =>
      obtain _ | ⟨ho', h'⟩ := h'
      exact .cons (ho.trans ho') (ih h')
  induction h generalizing l'' with
  | nil => exact h'
  | cons hs _ ih =>
    obtain _ | ⟨hs', h'⟩ := h'
    exact .cons ⟨hs'.shape_eq.trans hs.shape_eq, htrans hs.operands hs'.operands⟩ (ih h')

/-! ## The loop ends -/

def Operand.isSlot : Operand → Bool
  | .slot _ _ => true
  | _ => false

/-- The placeholders of a line. -/
def num_slots (line : List Stmt) : ℕ := (line_operands line).countP Operand.isSlot

theorem num_slots_replace_last {access : Access} {group : RegGroup} {line : List Stmt}
    (h : .slot access group ∈ line_operands line) (r : RegName) :
    num_slots (replace_last (.slot access group) (.reg r) line) + 1 = num_slots line := by
  rw [num_slots, num_slots, line_operands_replace_last,
    (Text.replaceLast_perm _ h).countP_eq, (List.perm_cons_erase h).countP_eq,
    List.countP_cons_of_neg (by simp [Operand.isSlot]), List.countP_cons_of_pos rfl]

theorem first_slot_eq_none {line : List Stmt} (h : first_slot line = none) :
    ∀ o ∈ line_operands line, ∀ access group, o ≠ .slot access group := by
  rintro o ho access group rfl
  have := List.findSome?_eq_none_iff.mp h _ ho
  cases this

/-- With more fuel than placeholders the loop ends, and none is left. -/
theorem allocate_line_spec (distances : ℕ → Distances) (i : ℤ) {fuel : ℕ} (st : RegState)
    {line : List Stmt} (hfuel : num_slots line < fuel) : ∃ st' line',
      allocate_line distances i fuel st line = .ok (st', line') ∧
      List.Forall₂ (StmtRel MayAllocate) line line' ∧ first_slot line' = none := by
  induction fuel generalizing st line with
  | zero => omega
  | succ fuel ih =>
    unfold allocate_line
    cases hslot : first_slot line with
    | none =>
      exact ⟨st, line, rfl, List.forall₂_same.mpr fun s _ => StmtRel.refl (fun _ => .inl rfl) s,
        hslot⟩
    | some slot =>
      obtain ⟨access, group⟩ := slot
      have hmem := first_slot_mem hslot
      cases hr : (reg_groups group).argmin (reg_key st i (distances st.used) access) with
      | none => exact absurd (List.argmin_eq_none.mp hr) (reg_groups_ne_nil group)
      | some r =>
        have hcount := num_slots_replace_last hmem r
        obtain ⟨st', line', hline, hrel, hnone⟩ := ih (st.use i r access)
          (by omega : num_slots (replace_last (.slot access group) (.reg r) line) < fuel)
        refine ⟨st', line', by simpa only [hr] using hline, ?_, hnone⟩
        refine forall₂_mayAllocate_trans ?_ hrel
        exact (forall₂_replace_last _ _ line).imp fun _ _ h =>
          h.imp fun _ _ => mayAllocate_of_replace (List.argmin_mem hr)

/-- A line without placeholders has a register for each of them. -/
theorem forall₂_allocates {line line' : List Stmt} (h : List.Forall₂ (StmtRel MayAllocate) line line')
    (hnone : ∀ o ∈ line_operands line', ∀ access group, o ≠ .slot access group) :
    List.Forall₂ (StmtRel Allocates) line line' := by
  have hoperands {l l' : List Operand} (h : List.Forall₂ MayAllocate l l')
      (hnone : ∀ o ∈ l', ∀ access group, o ≠ .slot access group) :
      List.Forall₂ Allocates l l' := by
    induction h with
    | nil => exact .nil
    | cons ho _ ih =>
      rw [List.forall_mem_cons] at hnone
      refine .cons ?_ (ih hnone.2)
      rcases ho with rfl | ho
      · exact allocates_of_not_slot hnone.1
      · exact ho
  induction h with
  | nil => exact .nil
  | cons hs _ ih =>
    rw [line_operands, List.flatMap_cons, List.forall_mem_append] at hnone
    exact .cons ⟨hs.shape_eq, hoperands hs.operands hnone.1⟩ (ih hnone.2)

theorem allocate_lines_spec (distances : ℕ → Distances) (i : ℤ) (st : RegState)
    (lines : List (List Stmt)) : ∃ lines', allocate_lines distances i st lines = .ok lines' ∧
      List.Forall₂ (List.Forall₂ (StmtRel Allocates)) lines lines' ∧
      ∀ line ∈ lines', ∀ o ∈ line_operands line, ∀ access group, o ≠ .slot access group := by
  induction lines generalizing i st with
  | nil => exact ⟨[], rfl, .nil, by simp⟩
  | cons line rest ih =>
    have hfuel : num_slots line < (line_operands line).length + 1 :=
      Nat.lt_succ_of_le List.countP_le_length
    obtain ⟨st', line', hline, hrel, hslot⟩ := allocate_line_spec distances i st hfuel
    obtain ⟨rest', hrest, hrels, hnones⟩ := ih (i + 1) st'
    have hnone := first_slot_eq_none hslot
    refine ⟨line' :: rest', ?_, .cons (forall₂_allocates hrel hnone) hrels, ?_⟩
    · rw [allocate_lines, hline]
      change (allocate_lines distances (i + 1) st' rest >>= fun rest => _) = _
      rw [hrest]
      rfl
    · rw [List.forall_mem_cons]
      exact ⟨hnone, hnones⟩

/-! ## What the body writes -/

/-- A statement of the generator: its instructions are those of templates. -/
def Templated (st : Stmt) : Prop :=
  ∀ i, st = .inst i → ∃ d t, template d = .ok t ∧ i ∈ t.insts

/-- The operand is not a part of the address, the counter or the random register. -/
def Spared (o : Operand) : Prop :=
  ∀ r ∈ [ADDR_OFFSET_REG, LOOP_IDX_REG, RAND_REG], o ≠ gp r ∧ o ≠ .reg32 r

instance (o : Operand) : Decidable (Spared o) := inferInstanceAs (Decidable (∀ r ∈ _, _))

theorem spared_reg {r : RegName} (h : r ∉ RESERVED) : Spared (.reg r) := by
  intro r' hr'
  refine ⟨?_, by simp⟩
  intro heq
  cases heq
  simp only [ADDR_OFFSET_REG, LOOP_IDX_REG, RAND_REG, List.mem_cons, List.not_mem_nil,
    or_false] at hr'
  rcases hr' with rfl | rfl | rfl <;> exact h (by decide)

/-- An instruction writes its first operand, or registers that have no name in it. -/
theorem written_cases {i : Inst} (hop : i.op ≠ .test) {o : Operand} (h : o ∈ i.written) :
    o ∈ [gp .a, gp .d, gp .si, gp .di, gp .c, gp .sp] ∨ o ∈ i.operands.head? := by
  obtain ⟨op, operands⟩ := i
  rcases operands with _ | ⟨x, _ | ⟨y, operands⟩⟩ <;> cases op <;>
    simp_all [Inst.written] <;> tauto

/-- A template does not name a spared register in the place that is written. -/
theorem template_dst {d : Draw} {t : Template} (h : template d = .ok t) : ∀ i ∈ t.insts,
    i.op = .test ∨ ∀ o ∈ i.operands.head?, (∃ access group, o = .slot access group) ∨ Spared o := by
  have hcond : ∀ i ∈ (cond_template d).insts, i.op = .test := by
    unfold cond_template
    split <;> simp [Template.insts]
  have hplaces : ∀ o ∈ placeholders, (∃ access group, o = .slot access group) ∨ Spared o := by
    unfold placeholders
    simp only [List.forall_mem_cons]
    exact ⟨.inl ⟨_, _, rfl⟩, .inl ⟨_, _, rfl⟩, .inl ⟨_, _, rfl⟩, .inl ⟨_, _, rfl⟩,
      .inl ⟨_, _, rfl⟩, .inl ⟨_, _, rfl⟩, .inl ⟨_, _, rfl⟩, .inr (by decide), .inr (by decide),
      List.forall_mem_nil _⟩
  intro i hi
  rcases insts_of_template h i hi with htest | rfl | hoperands
  · exact .inl (hcond i htest)
  · refine .inr fun o ho => .inr ?_
    cases ho
    decide
  · exact .inr fun o ho => hplaces o (hoperands o (List.mem_of_mem_head? ho))

/-- Behind the allocation no statement of a template writes a spared register. -/
theorem spared_of_written {st st' : Stmt} (hst : Templated st) (h : StmtRel Allocates st st') :
    ∀ o ∈ stmt_written st', Spared o := by
  intro o ho
  cases st' with
  | call l =>
    rw [stmt_written, List.mem_singleton] at ho
    subst ho
    decide
  | inst i' =>
    cases st with
    | inst i =>
      obtain ⟨d, t, ht, hi⟩ := hst i rfl
      have hop : i'.op = i.op := by simpa [shape, LabelMachine.Stmt.mapInst] using h.shape_eq
      have hoperands : List.Forall₂ Allocates i.operands i'.operands := h.operands
      rcases template_dst ht i hi with htest | hdst
      · rw [stmt_written, Inst.written, hop, htest] at ho
        cases ho
      by_cases htest : i'.op = .test
      · rw [stmt_written, Inst.written, htest] at ho
        cases ho
      rcases written_cases htest ho with himplicit | hhead
      · have hall : ∀ o ∈ [gp .a, gp .d, gp .si, gp .di, gp .c, gp .sp], Spared o := by decide
        exact hall o himplicit
      -- The first operand is a register for a placeholder, or the one of the template.
      generalize i.operands = l at hoperands hdst
      generalize i'.operands = l' at hoperands hhead
      cases hoperands with
      | nil => cases hhead
      | @cons x y l l' hxy _ =>
        obtain rfl : y = o := by simpa using hhead
        rcases hdst x rfl with ⟨access, group, rfl⟩ | hspared
        · obtain ⟨r, -, hfree, rfl⟩ := hxy
          exact spared_reg hfree
        · cases x with
          | slot access group =>
            obtain ⟨r, -, hfree, rfl⟩ := hxy
            exact spared_reg hfree
          | _ =>
            obtain rfl := hxy
            exact hspared
    | _ => cases h.shape_eq
  | _ => cases ho

/-! ## The laws -/

/-- The allocation ends with a register of its class for each placeholder, none of them reserved,
and changes nothing else. The body it gives writes none of `r10`, `r11` and `r12`. -/
theorem allocation_is_complete_and_spares_the_loop (distances : ℕ → Distances)
    (lines : List (List Stmt)) (hlines : ∀ line ∈ lines, ∀ st ∈ line, Templated st) :
    ∃ lines', allocate_regs distances lines = .ok lines' ∧
      List.Forall₂ (List.Forall₂ (StmtRel Allocates)) lines lines' ∧
      (∀ line ∈ lines', ∀ o ∈ line_operands line, ∀ access group, o ≠ .slot access group) ∧
      ∀ line ∈ lines', ∀ st ∈ line, ∀ o ∈ stmt_written st, Spared o := by
  obtain ⟨lines', hok, hrel, hnone⟩ :=
    allocate_lines_spec distances 0 ⟨fun _ => -1, fun _ => -1, 0⟩ lines
  refine ⟨lines', hok, hrel, hnone, ?_⟩
  intro line' hline' st' hst'
  obtain ⟨k, hk, rfl⟩ := List.mem_iff_getElem.mp hline'
  have hline := hrel.get (by rw [hrel.length_eq]; exact hk) hk
  obtain ⟨j, hj, rfl⟩ := List.mem_iff_getElem.mp hst'
  have hst := hline.get (by rw [hline.length_eq]; exact hj) hj
  exact spared_of_written (hlines _ (List.get_mem _ _) _ (List.get_mem _ _)) hst

/-- A line of two statements: `fmul` has no line end, so a move is behind it. -/
def glued_line : List Stmt := [.inst ⟨.fmul, [ST0, R_STREG]⟩, .inst ⟨.mov, [W_REG, R_REG]⟩]

theorem allocation_of_a_glued_line : (∀ st ∈ glued_line, Templated st) ∧
    ∃ lines', allocate_regs (fun _ => ⟨1, 1, 1⟩) [glued_line] = .ok lines' ∧
      ∀ line ∈ lines', ∀ st ∈ line, ∀ o ∈ stmt_written st, Spared o := by
  have hline : ∀ st ∈ glued_line, Templated st := by
    intro st hst i hi
    subst hi
    simp only [glued_line, List.mem_cons, List.not_mem_nil, or_false] at hst
    rcases hst with hst | hst <;> cases hst
    · exact ⟨⟨.op .base .mul_fp .no_mem, 0, 0, false, 0, false⟩, _, rfl, List.mem_singleton.mpr rfl⟩
    · exact ⟨⟨.op .base .mov_uncond .no_mem, 0, 0, false, 0, false⟩, _, rfl,
        List.mem_singleton.mpr rfl⟩
  obtain ⟨lines', hok, -, -, hspared⟩ := allocation_is_complete_and_spares_the_loop
    (fun _ => ⟨1, 1, 1⟩) [glued_line] (by simpa using hline)
  exact ⟨hline, lines', hok, hspared⟩

end ditto.assembly_generator
