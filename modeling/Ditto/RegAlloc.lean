-- The registers of a block. A line is a list of statements, because some
-- templates have no line end. The pass takes the first placeholder of a line,
-- picks a register for it, and writes the register over the last placeholder
-- of that kind. It keeps everything else.
import Ditto.ShuffleBlocks
import Mathlib.Algebra.Order.Field.Rat
import Mathlib.Data.List.MinMax

open LabelMachine
open ditto.data_dependency_analyzer (GpReg)

namespace ditto.assembly_generator

/-! ## Lines -/

def operands : Stmt → List Operand
  | .inst i => i.operands
  | _ => []

def line_operands (line : List Stmt) : List Operand := line.flatMap operands

/-- The statement without its operands. -/
def shape : Stmt → LabelMachine.Stmt Label Cond Op := LabelMachine.Stmt.mapInst Inst.op

def replace_operand (old new : Operand) : Stmt → Stmt
  | .inst i => .inst { i with operands := Text.replaceLast old new i.operands }
  | s => s

/-- The model of `new.join(line.rsplit(old, 1))`. -/
def replace_last (old new : Operand) : List Stmt → List Stmt
  | [] => []
  | s :: rest =>
    if old ∈ line_operands rest then s :: replace_last old new rest
    else replace_operand old new s :: rest

theorem operands_replace_operand (old new : Operand) (s : Stmt) :
    operands (replace_operand old new s) = Text.replaceLast old new (operands s) := by
  cases s <;> rfl

theorem line_operands_replace_last (old new : Operand) (line : List Stmt) :
    line_operands (replace_last old new line) =
      Text.replaceLast old new (line_operands line) := by
  unfold line_operands
  induction line with
  | nil => rfl
  | cons s rest ih =>
    unfold replace_last
    rw [List.flatMap_cons, Text.replaceLast_append]
    split
    · rename_i hold
      rw [line_operands] at hold
      rw [if_pos hold, List.flatMap_cons, ih]
    · rename_i hold
      rw [line_operands] at hold
      rw [if_neg hold, List.flatMap_cons, operands_replace_operand]

theorem shape_replace_operand (old new : Operand) (s : Stmt) :
    shape (replace_operand old new s) = shape s := by
  cases s <;> rfl

theorem shape_replace_last (old new : Operand) (line : List Stmt) :
    (replace_last old new line).map shape = line.map shape := by
  induction line with
  | nil => rfl
  | cons s rest ih =>
    unfold replace_last
    split
    · rw [List.map_cons, ih, List.map_cons]
    · rw [List.map_cons, shape_replace_operand, List.map_cons]

/-! ## Registers -/

/-- One draw of the three dependency distances. -/
structure Distances where
  raw_distance : ℤ
  war_distance : ℤ
  waw_distance : ℤ

/-- The line of the last read and of the last write of each register, and the number of
draws so far. -/
structure RegState where
  inst_last_rd : RegName → ℤ
  inst_last_wr : RegName → ℤ
  used : ℕ

def reg_groups : RegGroup → List RegName
  | .REG => GP_REG_NAMES.filter (· ∉ CLOG_REGS)
  | .XMMREG => XMM_REGS
  | .STREG => ST_REGS

/-- The leftmost placeholder of a line. -/
def first_slot (line : List Stmt) : Option (Access × RegGroup) :=
  (line_operands line).findSome? fun
    | .slot access group => some (access, group)
    | _ => none

/-- How far a register is from the drawn distances. -/
def reg_key (st : RegState) (i : ℤ) (d : Distances) : Access → RegName → ℚ
  | .R, k => |i - st.inst_last_wr k - d.raw_distance|
  | .W, k =>
    1 / 2 * |i - st.inst_last_rd k - d.war_distance| +
      1 / 2 * |i - st.inst_last_wr k - d.waw_distance|
  | .X, k =>
    4 / 5 * |i - st.inst_last_wr k - d.raw_distance| +
      1 / 10 * |i - st.inst_last_rd k - d.war_distance| +
      1 / 10 * |i - st.inst_last_wr k - d.waw_distance|

def RegState.use (st : RegState) (i : ℤ) (r : RegName) : Access → RegState
  | .R => { st with inst_last_rd := Function.update st.inst_last_rd r i, used := st.used + 1 }
  | .W => { st with inst_last_wr := Function.update st.inst_last_wr r i, used := st.used + 1 }
  | .X =>
    { inst_last_rd := Function.update st.inst_last_rd r i
      inst_last_wr := Function.update st.inst_last_wr r i
      used := st.used + 1 }

/-- The loop over the placeholders of line `i`. -/
def allocate_line (distances : ℕ → Distances) (i : ℤ) :
    ℕ → RegState → List Stmt → Except PyError (RegState × List Stmt)
  | 0, _, _ => .error .outOfFuel
  | fuel + 1, st, line =>
    match first_slot line with
    | none => .ok (st, line)
    | some (access, group) =>
      match (reg_groups group).argmin (reg_key st i (distances st.used) access) with
      | none => .error .valueError
      | some r =>
        allocate_line distances i fuel (st.use i r access)
          (replace_last (.slot access group) (.reg r) line)

def allocate_lines (distances : ℕ → Distances) :
    ℤ → RegState → List (List Stmt) → Except PyError (List (List Stmt))
  | _, _, [] => .ok []
  | i, st, line :: rest => do
    let (st, line) ← allocate_line distances i ((line_operands line).length + 1) st line
    let rest ← allocate_lines distances (i + 1) st rest
    return line :: rest

def allocate_regs (distances : ℕ → Distances) (asm_lines : List (List Stmt)) :
    Except PyError (List (List Stmt)) :=
  allocate_lines distances 0 ⟨fun _ => -1, fun _ => -1, 0⟩ asm_lines

/-! ## What the registers keep -/

/-- The line has the same statements, and the same operands that are no registers. -/
structure KeepsLine (line line' : List Stmt) : Prop where
  shape_eq : line'.map shape = line.map shape
  count_eq : ∀ o, (∀ access group, o ≠ .slot access group) → (∀ r, o ≠ .reg r) →
    (line_operands line').count o = (line_operands line).count o

theorem KeepsLine.refl (line : List Stmt) : KeepsLine line line := ⟨rfl, fun _ _ _ => rfl⟩

theorem KeepsLine.trans {l l' l'' : List Stmt} (h : KeepsLine l l') (h' : KeepsLine l' l'') :
    KeepsLine l l'' :=
  ⟨h'.shape_eq.trans h.shape_eq, fun o ho hr => (h'.count_eq o ho hr).trans (h.count_eq o ho hr)⟩

variable {distances : ℕ → Distances} {i : ℤ} {fuel : ℕ} {st st' : RegState} {line line' : List Stmt}
  {lines lines' : List (List Stmt)} {access : Access} {group : RegGroup}

theorem first_slot_mem (h : first_slot line = some (access, group)) :
    .slot access group ∈ line_operands line := by
  obtain ⟨o, ho, hslot⟩ := List.exists_of_findSome?_eq_some h
  split at hslot
  · cases hslot
    exact ho
  · cases hslot

theorem keepsLine_replace_slot (h : .slot access group ∈ line_operands line) (r : RegName) :
    KeepsLine line (replace_last (.slot access group) (.reg r) line) := by
  refine ⟨shape_replace_last _ _ _, ?_⟩
  intro o hslot hreg
  rw [line_operands_replace_last, (Text.replaceLast_perm _ h).count_eq,
    List.count_cons_of_ne (hreg r).symm, List.count_erase_of_ne (hslot access group)]

theorem allocate_line_keeps (h : allocate_line distances i fuel st line = .ok (st', line')) :
    KeepsLine line line' := by
  induction fuel generalizing st line with
  | zero => cases h
  | succ fuel ih =>
    unfold allocate_line at h
    split at h
    · cases h
      exact KeepsLine.refl _
    · rename_i access group hslot
      split at h
      · cases h
      · rename_i r _
        exact (keepsLine_replace_slot (first_slot_mem hslot) r).trans (ih h)

/-- What each line has to do with the line it becomes. -/
theorem allocate_lines_forall₂ {R : List Stmt → List Stmt → Prop}
    (hR : ∀ {i fuel st st' line line'}, allocate_line distances i fuel st line = .ok (st', line') →
      R line line')
    (h : allocate_lines distances i st lines = .ok lines') : List.Forall₂ R lines lines' := by
  induction lines generalizing i st lines' with
  | nil =>
    cases h
    exact .nil
  | cons line rest ih =>
    unfold allocate_lines at h
    obtain ⟨⟨st', line'⟩, hline, h⟩ := PyError.ok_of_bind h
    obtain ⟨rest', hrest, h⟩ := PyError.ok_of_bind h
    cases h
    exact .cons (hR hline) (ih hrest)

theorem allocate_regs_keeps (h : allocate_regs distances lines = .ok lines') :
    List.Forall₂ KeepsLine lines lines' :=
  allocate_lines_forall₂ allocate_line_keeps h

/-! ## What each statement keeps -/

theorem mem_replace_last {old new : Operand} {st : Stmt} (h : st ∈ replace_last old new line) :
    ∃ st' ∈ line, st = st' ∨ st = replace_operand old new st' := by
  induction line with
  | nil => cases h
  | cons s rest ih =>
    unfold replace_last at h
    split at h
    · rcases List.mem_cons.mp h with rfl | h
      · exact ⟨st, List.mem_cons_self, .inl rfl⟩
      · obtain ⟨st', hst', hst⟩ := ih h
        exact ⟨st', List.mem_cons_of_mem _ hst', hst⟩
    · rcases List.mem_cons.mp h with rfl | h
      · exact ⟨s, List.mem_cons_self, .inr rfl⟩
      · exact ⟨st, List.mem_cons_of_mem _ h, .inl rfl⟩

section statements

variable {ok : Stmt → Prop}

theorem replace_last_all {old new : Operand} (hok : ∀ st, ok st → ok (replace_operand old new st))
    (hline : ∀ st ∈ line, ok st) : ∀ st ∈ replace_last old new line, ok st := by
  intro st hst
  obtain ⟨st', hst', rfl | rfl⟩ := mem_replace_last hst
  · exact hline _ hst'
  · exact hok _ (hline _ hst')

/-- A register of its group in the place of a placeholder keeps the property. -/
def KeptByRegs (ok : Stmt → Prop) : Prop :=
  ∀ access group, ∀ r ∈ reg_groups group, ∀ st, ok st →
    ok (replace_operand (.slot access group) (.reg r) st)

theorem allocate_line_all (hok : KeptByRegs ok)
    (h : allocate_line distances i fuel st line = .ok (st', line'))
    (hline : ∀ s ∈ line, ok s) : ∀ s ∈ line', ok s := by
  induction fuel generalizing st line with
  | zero => cases h
  | succ fuel ih =>
    unfold allocate_line at h
    split at h
    · cases h
      exact hline
    · rename_i access group _
      split at h
      · cases h
      · rename_i r hr
        exact ih h (replace_last_all (hok access group r (List.argmin_mem hr)) hline)

theorem allocate_lines_all (hok : KeptByRegs ok)
    (h : allocate_lines distances i st lines = .ok lines')
    (hlines : ∀ line ∈ lines, ∀ s ∈ line, ok s) : ∀ line ∈ lines', ∀ s ∈ line, ok s := by
  intro line' hline'
  obtain ⟨line, hline, hall⟩ :=
    exists_of_forall₂ (allocate_lines_forall₂ (allocate_line_all hok) h) hline'
  exact hall (hlines line hline)

end statements

end ditto.assembly_generator
