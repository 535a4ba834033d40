-- The assembly that the generator writes: registers, operands, statements
-- and labels. A string literal of the generated file is one statement. The
-- names of two labels are the same text only for the same label.
import Ditto.Lib.LabelMachine
import Ditto.Lib.Text
import Ditto.RegDistances

open ditto.data_dependency_analyzer (GpReg)

namespace ditto.assembly_generator

/-! ## Registers -/

-- There are 32 `xmm` registers, 8 `st` registers and 6 operands of an asm statement.
instance neZero_thirtyTwo : NeZero 32 := ⟨by decide⟩
instance neZero_eight : NeZero 8 := ⟨by decide⟩
instance neZero_six : NeZero 6 := ⟨by decide⟩

/-- The registers that a placeholder can become. -/
inductive RegName
  | gp (r : GpReg)
  | xmm (i : Fin 32)
  | st (i : Fin 8)
deriving DecidableEq

def BASE_ADDR_REG : GpReg := .r8
def TOP_ADDR_REG : GpReg := .r9
def ADDR_OFFSET_REG : GpReg := .r10
def LOOP_IDX_REG : GpReg := .r11
def RAND_REG : GpReg := .r12
def POINTER_CHASE_REG : GpReg := .r13

def GP_REG_NAMES : List RegName :=
  ([.a, .b, .c, .d, .sp, .bp, .si, .di, .r8, .r9, .r10, .r11, .r12, .r13, .r14, .r15] :
    List GpReg).map .gp

def XMM_REGS : List RegName := (List.finRange 32).map .xmm

def ST_REGS : List RegName := (List.finRange 8).map .st

def CLOG_REGS : List RegName :=
  [.gp ADDR_OFFSET_REG, .gp LOOP_IDX_REG, .gp RAND_REG, .gp POINTER_CHASE_REG, .gp .sp, .gp .bp,
    .xmm 1, .st 1]

/-! ## Statements -/

/-- How an instruction uses the register of a placeholder. -/
inductive Access
  | R | W | X
deriving DecidableEq

inductive RegGroup
  | REG | XMMREG | STREG
deriving DecidableEq

/-- The operands of an instruction. `slot` is a placeholder such as `<R_REG>`, `memaddr` is
`QWORD PTR[<MEMADDR>]`, and `arg` is an operand of the asm statement such as `%2`. -/
inductive Operand
  | slot (access : Access) (group : RegGroup)
  | memaddr
  | reg (r : RegName)
  | reg32 (r : GpReg)
  | mem (r : GpReg) (offset : ℕ)
  | imm (n : ℕ)
  | arg (k : Fin 6)
  | argMem (k : Fin 6) (offset : ℕ)
deriving DecidableEq

inductive Op
  | and | or | sub | add | fadd | fsub | addsd | subsd | mul | imul | fmul | mulsd
  | test | mov | movsd | crc32 | lea | cmp | rdtsc | ret | rep_movsb
deriving DecidableEq

structure Inst where
  op : Op
  operands : List Operand
deriving DecidableEq

/-- The conditions of `jz`, `jnz`, `jle` and `jl`. -/
inductive Cond
  | z | nz | le | l
deriving DecidableEq

/-! ## Labels -/

inductive LabelKind
  | asm_start | asm_end | loop_start | bypass_reset
  | br_cond (idx : ℕ) | br_uncond (idx : ℕ)
  | dummy_call | end_func
deriving DecidableEq

/-- One replica of one block of one function. -/
structure BlockId where
  function_id : ℕ
  block_id : ℕ
  replica_id : ℕ
deriving DecidableEq

structure Label where
  kind : LabelKind
  block : BlockId
deriving DecidableEq

abbrev Stmt := LabelMachine.Stmt Label Cond Inst

abbrev Asm := Text Stmt

def BlockId.label (b : BlockId) (kind : LabelKind) : Label := ⟨kind, b⟩

/-- The text of a label in front of the numbers of its block. -/
def LabelKind.stem : LabelKind → String
  | .asm_start | .asm_end | .loop_start => ""
  | .bypass_reset => "bypass_reset_"
  | .br_cond _ => "br_cond_"
  | .br_uncond _ => "br_uncond_"
  | .dummy_call => "dummy_call_"
  | .end_func => "end_"

/-- The text of a label behind the numbers of its block. -/
def LabelKind.tail : LabelKind → String
  | .asm_start => "_asm_start"
  | .asm_end => "_asm_end"
  | .loop_start => "_loop_start"
  | .br_cond idx | .br_uncond idx => "_" ++ toString idx
  | .bypass_reset | .dummy_call | .end_func => ""

def BlockId.text (b : BlockId) : String :=
  "func_" ++ toString b.function_id ++ "_block_" ++ toString b.block_id ++
    "_rep_" ++ toString b.replica_id

def Label.text (l : Label) : String := l.kind.stem ++ l.block.text ++ l.kind.tail

example : Label.text ⟨.br_cond 12, 0, 3, 7⟩ = "br_cond_func_0_block_3_rep_7_12" := by decide +kernel

/-! ### The text of a label names it -/

theorem LabelKind.noDigit_tail (k : LabelKind) : Text.NoDigit k.tail.toList := by
  cases k <;> simp [Text.NoDigit, tail]

/-- The stem can be read back in front of the text of a block. -/
theorem LabelKind.stem_append_inj {k k' : LabelKind} {s t : List Char}
    (h : k.stem.toList ++ 'f' :: s = k'.stem.toList ++ 'f' :: t) : k.stem = k'.stem ∧ s = t := by
  cases k <;> cases k' <;> simp_all [stem]

theorem BlockId.toList_text (b : BlockId) (s : List Char) :
    b.text.toList ++ s = 'f' :: "unc_".toList ++ (b.function_id.repr.toList ++
      ("_block_".toList ++ (b.block_id.repr.toList ++
        ("_rep_".toList ++ (b.replica_id.repr.toList ++ s))))) := by
  simp [text]

theorem BlockId.text_append_inj {b b' : BlockId} {s t : List Char} (hs : Text.NoDigit s)
    (ht : Text.NoDigit t) (h : b.text.toList ++ s = b'.text.toList ++ t) : b = b' ∧ s = t := by
  rw [toList_text, toList_text] at h
  obtain ⟨hf, h⟩ := Text.repr_append_inj (by simp [Text.NoDigit]) (by simp [Text.NoDigit])
    (List.append_cancel_left h)
  obtain ⟨hb, h⟩ := Text.repr_append_inj (by simp [Text.NoDigit]) (by simp [Text.NoDigit])
    (List.append_cancel_left h)
  obtain ⟨hr, h⟩ := Text.repr_append_inj hs ht (List.append_cancel_left h)
  cases b
  cases b'
  simp_all

theorem LabelKind.eq_of_stem_of_tail {k k' : LabelKind} (hstem : k.stem = k'.stem)
    (htail : k.tail = k'.tail) : k = k' := by
  cases k <;> cases k' <;> simp_all [stem, tail]

/-- Two labels have the same text only when they are the same label. -/
theorem Label.text_injective : Function.Injective Label.text := by
  rintro ⟨k, b⟩ ⟨k', b'⟩ h
  have hlist : k.stem.toList ++ (b.text.toList ++ k.tail.toList) =
      k'.stem.toList ++ (b'.text.toList ++ k'.tail.toList) := by
    simpa [Label.text] using congrArg String.toList h
  have hstem : k.stem = k'.stem := by
    rw [BlockId.toList_text, BlockId.toList_text] at hlist
    exact (LabelKind.stem_append_inj hlist).1
  rw [hstem] at hlist
  obtain ⟨rfl, htail⟩ := BlockId.text_append_inj k.noDigit_tail k'.noDigit_tail
    (List.append_cancel_left hlist)
  rw [LabelKind.eq_of_stem_of_tail hstem (String.toList_inj.mp htail)]

end ditto.assembly_generator
