-- The register accesses of a block, as the analyzer reads them from the text
-- of its instructions. A register is filed under a canonical name, which is
-- the first of the names that occurs in its own name.
import Ditto.InstMix
import Ditto.Lib.PyText
import Ditto.RegDistances

namespace ditto.data_dependency_analyzer

open inst_mix_analyzer (Kind Access Rows)

/-! ## Names of registers -/

def GpReg.name : GpReg → List Char
  | .a => ['a']
  | .b => ['b']
  | .c => ['c']
  | .d => ['d']
  | .sp => ['s', 'p']
  | .bp => ['b', 'p']
  | .si => ['s', 'i']
  | .di => ['d', 'i']
  | .r8 => ['r', '8']
  | .r9 => ['r', '9']
  | .r10 => ['r', '1', '0']
  | .r11 => ['r', '1', '1']
  | .r12 => ['r', '1', '2']
  | .r13 => ['r', '1', '3']
  | .r14 => ['r', '1', '4']
  | .r15 => ['r', '1', '5']

/-- The list `GP_REGS`, with the names that may stand in an address. -/
def GP_REGS : List (List Char) :=
  ["al", "bl", "cl", "dl", "ah", "bh", "ch", "dh", "spl", "bpl", "sil", "dil",
   "r8b", "r9b", "r10b", "r11b", "r12b", "r13b", "r14b", "r15b",
   "ax", "cx", "dx", "bx", "sp", "bp", "si", "di",
   "r8w", "r9w", "r10w", "r11w", "r12w", "r13w", "r14w", "r15w",
   "eax", "ecx", "edx", "ebx", "esp", "ebp", "esi", "edi",
   "r8d", "r9d", "r10d", "r11d", "r12d", "r13d", "r14d", "r15d",
   "rax", "rcx", "rdx", "rbx", "rsp", "rbp", "rsi", "rdi",
   "r8", "r9", "r10", "r11", "r12", "r13", "r14", "r15"].map String.toList

/-- The numbered registers with this last letter, which the loop of `get_reg_name` skips. -/
def numbered (letter : Char) : List (List Char) :=
  ["r8", "r9", "r10", "r11", "r12", "r13", "r14", "r15"].map fun s => s.toList ++ [letter]

def get_reg_name (reg : List Char) : List Char :=
  let kernel := GP_REG_NAMES.find? fun kernel =>
    PyText.isIn kernel.name reg && !(kernel = .b && reg ∈ numbered 'b') &&
      !(kernel = .d && reg ∈ numbered 'd')
  match kernel with
  | some kernel => kernel.name
  | none => reg

/-- The test `reg in GP_REG_NAMES`. -/
def gp_reg (name : List Char) : Option GpReg := GP_REG_NAMES.find? fun kernel => kernel.name = name

/-- The column `names` of the registers in `x86data.json`. -/
def register_names : List String :=
  ["al", "cl", "dl", "bl", "spl", "bpl", "sil", "dil", "r8-15b", "ah", "ch", "dh", "bh",
   "ax", "cx", "dx", "bx", "sp", "bp", "si", "di", "r8-15w",
   "eax", "ecx", "edx", "ebx", "esp", "ebp", "esi", "edi", "r8-15d",
   "rax", "rcx", "rdx", "rbx", "rsp", "rbp", "rsi", "rdi", "r8-15",
   "zax", "zcx", "zdx", "zbx", "zsp", "zbp", "zsi", "zdi",
   "es", "cs", "ss", "ds", "fs", "gs", "cr0-15", "dr0-15", "bnd0-3", "st(0-7)", "mm0-7", "k0-7",
   "xmm0-31", "ymm0-31", "zmm0-31", "tmm0-7"]

/-- The names that a row stands for: `r8-15b` is `r8b` to `r15b`. -/
def expand_name (reg_name : List Char) : List (List Char) :=
  if '-' ∉ reg_name then [reg_name]
  else
    let head := reg_name.takeWhile fun c => !c.isDigit
    let rest := reg_name.drop head.length
    let start := rest.takeWhile Char.isDigit
    let stop := (rest.drop (start.length + 1)).takeWhile Char.isDigit
    let tail := rest.drop (start.length + 1 + stop.length)
    let value := fun digits : List Char => digits.foldl (fun n c => 10 * n + (c.toNat - 48)) 0
    (List.range' (value start) (value stop + 1 - value start)).map fun i =>
      head ++ Nat.toDigits 10 i ++ tail

def x86regs : List (List Char) := register_names.flatMap fun s => expand_name s.toList

/-! ## Operands -/

/-- The characters of the pattern before `ptr`. -/
def is_size_char (c : Char) : Bool := c ∈ "byte|word|dword|qword|xmmword ".toList

def is_addr_char (c : Char) : Bool := c.isLower || c.isDigit || c ∈ "+-*:".toList

/-- The text in the brackets at the start of a text. -/
def bracketed (p : Char → Bool) : List Char → Option (List Char)
  | '[' :: s =>
    if s.takeWhile p ≠ [] ∧ (s.dropWhile p).head? = some ']' then some (s.takeWhile p) else none
  | _ => none

/-- The match with the pattern of a memory operand. -/
def is_mem (operand : List Char) : Bool :=
  let rest := operand.dropWhile is_size_char
  if "ptr ".toList <+: rest then
    (bracketed (fun c => is_addr_char c || c.isUpper)
      ((rest.drop 4).dropWhile fun c => c.isLower || c = ':')).isSome
  else false

/-- The first address in brackets. -/
def first_addr : List Char → Option (List Char)
  | [] => none
  | c :: s => (bracketed is_addr_char (c :: s)).or (first_addr s)

/-- The matches of `[a-z0-9]+`. -/
def words (operand : List Char) : List (List Char) :=
  (operand.splitOnP fun c => !(c.isLower || c.isDigit)).filter (· ≠ [])

def is_imm (operand : List Char) : Bool :=
  match operand with
  | '0' :: 'x' :: c :: _ => c ∈ "0123456789abcdef".toList
  | _ => false

/-- The operands of an instruction as the loop collects them, with the registers in the
addresses. -/
structure Operands where
  types : List Kind
  addrs : List (Option (List Char))
  addr_regs : List (List Char)

def add_operand (acc : Operands) (operand : List Char) : Except PyError Operands :=
  if operand = [] then .ok acc
  else if operand ∈ x86regs then
    .ok { acc with types := acc.types ++ [.reg], addrs := acc.addrs ++ [some operand] }
  else if is_mem operand then
    match first_addr operand with
    | none => .error .indexError
    | some addr =>
      .ok { types := acc.types ++ [.mem], addrs := acc.addrs ++ [some addr],
            addr_regs := acc.addr_regs ++ (words operand).filter (· ∈ GP_REGS) }
  else if is_imm operand then
    .ok { acc with types := acc.types ++ [.imm], addrs := acc.addrs ++ [none] }
  else if operand = "st".toList then .ok acc
  else .error .valueError

/-- The model of `s.replace(old, '')`. -/
def remove (old s : List Char) : List Char := (PyText.split old s).flatten

/-- The text without the prefixes that are ignored. -/
def strip_prefixes (inst : List Char) : List Char :=
  ["rep ", "repz ", "repnz ", "repe ", "repne ", "bnd ", "lock "].foldl
    (fun inst p => remove p.toList inst) inst

/-- The model of `inst.split()[0]`. The text of an instruction has no white space but blanks. -/
def first_word (inst : List Char) : Except PyError (List Char) :=
  match (inst.dropWhile (· = ' ')).takeWhile (· ≠ ' ') with
  | [] => .error .indexError
  | op => .ok op

/-- The texts of the operands behind the name of the instruction. -/
def operand_texts (op inst : List Char) : List (List Char) :=
  PyText.split ", ".toList (remove op (remove (op ++ [' ']) inst))

/-- The operands that the loop at the end reads: kinds, addresses and uses. -/
structure Uses where
  types : List Kind
  addrs : List (Option (List Char))
  rwx : List Access

/-- The one operand of an instruction that also uses `rdx` and `rax`. -/
def with_implicit (rwx : List Access) (ops : Operands) : Except PyError Uses :=
  match ops.types, ops.addrs with
  | type :: _, addr :: _ =>
    .ok ⟨[.reg, .reg, type], [some "rdx".toList, some "rax".toList, addr], rwx⟩
  | _, _ => .error .indexError

/-- The uses of the operands. Some instructions use registers that are not in their text, and
one that is not in the table has no operands. -/
def operand_uses (x86operands : PyDict String Rows) (op inst : List Char)
    (texts : List (List Char)) (ops : Operands) : Except PyError Uses :=
  if "mul ".toList <+: inst then
    if texts.length = 1 then with_implicit [.w, .x, .r] ops
    else .error (.exception "AssertionError")
  else if "imul ".toList <+: inst ∧ texts.length = 1 then with_implicit [.w, .x, .r] ops
  else if "div ".toList <+: inst ∨ "idiv ".toList <+: inst then
    if texts.length = 1 then with_implicit [.x, .x, .r] ops
    else .error (.exception "AssertionError")
  else if "cmpxchg ".toList <+: inst then
    if texts.length = 2 then
      match ops.types, ops.addrs with
      | t :: t' :: _, addr :: addr' :: _ =>
        .ok ⟨[t, t', .reg], [addr, addr', some "rax".toList], [.x, .r, .r]⟩
      | _, _ => .error .indexError
    else .error (.exception "AssertionError")
  else
    match (x86operands.get? (String.ofList op)).bind (·.get? ops.types) with
    | some rwx => .ok ⟨ops.types, ops.addrs, rwx⟩
    | none => .ok ⟨[], [], []⟩

/-- The registers that an instruction reads and writes, by the names in its text. The source
puts `get_reg_name` on each name as it adds it. -/
structure InstRegs where
  rd_regs : List (List Char)
  wr_regs : List (List Char)
deriving DecidableEq

/-- One turn of the loop over the kinds of the operands. -/
def add_use (uses : Uses) (result : InstRegs) (i : ℕ) : Except PyError InstRegs :=
  match uses.types[i]?, uses.addrs[i]?, uses.rwx[i]? with
  | some .imm, _, _ => .ok result
  | _, _, none => .error .indexError
  | _, _, some .none => .error .valueError
  | some .reg, some (some addr), some .r =>
    .ok { result with rd_regs := result.rd_regs ++ [addr] }
  | some .reg, some (some addr), some .w =>
    .ok { result with wr_regs := result.wr_regs ++ [addr] }
  | some .reg, some (some addr), some .x =>
    .ok ⟨result.rd_regs ++ [addr], result.wr_regs ++ [addr]⟩
  | some .mem, _, _ => .ok result
  | _, _, _ => .error .indexError

/-- The model of `__parse_inst_operand`, without the memory operands of its result. -/
def parse_inst_operand (x86operands : PyDict String Rows) (inst : List Char) :
    Except PyError InstRegs :=
  if PyText.isIn "nop".toList inst then .ok ⟨[], []⟩
  else do
    let inst := strip_prefixes inst
    let op ← first_word inst
    let texts := operand_texts op inst
    let ops ← texts.foldlM add_operand ⟨[], [], []⟩
    let uses ← operand_uses x86operands op inst texts ops
    (List.range uses.types.length).foldlM (add_use uses) ⟨ops.addr_regs, []⟩

/-! ## The registers of a block -/

/-- The entry that an access to a register is filed under. -/
def entry (reg : List Char) : Option GpReg := gp_reg (get_reg_name reg)

/-- The registers of each instruction of a block, and the instructions of each register. -/
structure BlockRegs where
  inst_regs : List (RW → List GpReg)
  reg_insts : Slot → List ℕ

def InstRegs.names (regs : InstRegs) : RW → List (List Char)
  | .rd => regs.rd_regs
  | .wr => regs.wr_regs

/-- One turn of the loop over the instructions of a block. -/
def file_inst (block : BlockRegs) (regs : InstRegs) : BlockRegs where
  inst_regs := block.inst_regs ++ [fun rw => ((regs.names rw).filterMap entry).dedup]
  reg_insts slot := block.reg_insts slot ++
    (((regs.names slot.rw).filterMap entry).filter (· = slot.reg)).map fun _ =>
      block.inst_regs.length

/-- The model of `__parse_basic_block_regs` for one block. -/
def parse_basic_block_regs (x86operands : PyDict String Rows) (insts : List (List Char)) :
    Except PyError BlockRegs :=
  insts.foldlM (fun block inst => do
    let regs ← parse_inst_operand x86operands inst
    return file_inst block regs) ⟨[], fun _ => []⟩

/-! ## Parts of a register -/

/-- The names of the parts of a general-purpose register, with the name of asmdb for a part of
any size. -/
def parts : GpReg → List (List Char)
  | .a => lettered 'a'
  | .b => lettered 'b'
  | .c => lettered 'c'
  | .d => lettered 'd'
  | .sp => paired 's' 'p'
  | .bp => paired 'b' 'p'
  | .si => paired 's' 'i'
  | .di => paired 'd' 'i'
  | reg => [[], ['b'], ['w'], ['d']].map fun size => reg.name ++ size
where
  lettered (c : Char) : List (List Char) :=
    [[c, 'l'], [c, 'h'], [c, 'x'], ['e', c, 'x'], ['r', c, 'x'], ['z', c, 'x']]
  paired (c c' : Char) : List (List Char) :=
    [[c, c', 'l'], [c, c'], ['e', c, c'], ['r', c, c'], ['z', c, c']]

/-- The general-purpose register that a name is a part of. -/
def part_of (name : List Char) : Option GpReg := GP_REG_NAMES.find? fun reg => name ∈ parts reg

/-- The entry of each register: `rbp` goes with `rbx`, and `rdi` with `rdx`. -/
def filed_as : GpReg → GpReg
  | .bp => .b
  | .di => .d
  | reg => reg

/-- The registers that are not general-purpose and are filed under the entry of one. -/
def strays : List (List Char) :=
  ["cs", "ds", "cr0-15", "dr0-15", "bnd0-3"].flatMap fun s => expand_name s.toList

theorem entry_of_part {name : List Char} {reg : GpReg} (h : part_of name = some reg) :
    entry name = some (filed_as reg) := by
  have hall : ∀ reg ∈ GP_REG_NAMES, ∀ name ∈ parts reg, entry name = some (filed_as reg) := by
    decide +kernel
  have hname : name ∈ parts reg := by simpa using List.find?_some h
  exact hall reg (List.mem_of_find?_eq_some h) name hname

/-- A name without the letters that the canonical names start with has no entry. -/
theorem entry_eq_none {name : List Char} (h : ∀ c ∈ ['a', 'b', 'c', 'd', 's', 'r'], c ∉ name) :
    entry name = none := by
  have hhead : ∀ reg : GpReg, ∃ c ∈ ['a', 'b', 'c', 'd', 's', 'r'], ∃ t, reg.name = c :: t := by
    intro reg
    cases reg <;> simp [GpReg.name]
  have hfind : get_reg_name name = name := by
    have hnone : GP_REG_NAMES.find? (fun kernel =>
        PyText.isIn kernel.name name && !(kernel = .b && name ∈ numbered 'b') &&
          !(kernel = .d && name ∈ numbered 'd')) = none := by
      refine List.find?_eq_none.mpr fun reg _ hreg => ?_
      obtain ⟨c, hc, t, ht⟩ := hhead reg
      rw [Bool.and_eq_true, Bool.and_eq_true, ht] at hreg
      exact h c hc ((PyText.isIn_iff.mp hreg.1.1).subset List.mem_cons_self)
    simp only [get_reg_name, hnone]
  rw [entry, hfind]
  refine List.find?_eq_none.mpr fun reg _ hreg => ?_
  obtain ⟨c, hc, t, ht⟩ := hhead reg
  have hname : reg.name = name := by simpa using hreg
  exact h c hc (by rw [← hname, ht]; exact List.mem_cons_self)

/-- What holds for the names of each row holds for all registers. -/
theorem forall_mem_x86regs {P : List Char → Prop}
    (h : ∀ row ∈ register_names, ∀ name ∈ expand_name row.toList, P name) :
    ∀ name ∈ x86regs, P name := by
  intro name hname
  obtain ⟨row, hrow, hname⟩ := List.mem_flatMap.mp hname
  exact h row hrow name hname

theorem entry_of_no_part {name : List Char} (hname : name ∈ x86regs) (h : part_of name = none) :
    entry name ≠ none ↔ name ∈ strays := by
  -- The vector registers have none of the letters, so few names are looked up.
  have hall : ∀ name ∈ x86regs, (name.all fun c => c ∉ ['a', 'b', 'c', 'd', 's', 'r']) = true ∨
      part_of name ≠ none ∨ name ∈ strays ∨ entry name = none :=
    forall_mem_x86regs (by decide +kernel)
  have hstray : ∀ name ∈ strays, entry name ≠ none := by decide +kernel
  refine ⟨fun hentry => ?_, hstray name⟩
  obtain hletters | hpart | hmem | hnone := hall name hname
  · have hnone : entry name = none := by
      refine entry_eq_none fun c hc hmem => ?_
      exact of_decide_eq_true (List.all_eq_true.mp hletters c hmem) hc
    exact absurd hnone hentry
  · exact absurd h hpart
  · exact hmem
  · exact absurd hnone hentry

theorem part_of_stray {name : List Char} (h : name ∈ strays) : part_of name = none := by
  have hall : ∀ name ∈ strays, part_of name = none := by decide +kernel
  exact hall name h

/-- Two registers share an entry only if they are one, or one of the two pairs. -/
theorem filed_as_eq_iff (reg reg' : GpReg) : filed_as reg = filed_as reg' ↔
    reg = reg' ∨ (reg = .b ∧ reg' = .bp) ∨ (reg = .bp ∧ reg' = .b) ∨
      (reg = .d ∧ reg' = .di) ∨ (reg = .di ∧ reg' = .d) := by
  cases reg <;> cases reg' <;> decide

/-- The name of a register is not the text of a memory operand, which has a blank. -/
theorem not_is_mem {name : List Char} (h : name ∈ x86regs) : is_mem name = false := by
  have hall : ∀ name ∈ x86regs, ' ' ∉ name := forall_mem_x86regs (by decide +kernel)
  have hpre : ¬ "ptr ".toList <+: name.dropWhile is_size_char := by
    intro hpre
    have hblank : ' ' ∈ name.dropWhile is_size_char := hpre.subset (by decide)
    exact hall name h ((List.dropWhile_suffix is_size_char).subset hblank)
  simp only [is_mem]
  rw [if_neg hpre]

/-! ## The operands of an instruction -/

/-- The texts of the operands of an instruction. -/
def operand_list (inst : List Char) : List (List Char) :=
  match first_word (strip_prefixes inst) with
  | .ok op => operand_texts op (strip_prefixes inst)
  | .error _ => []

/-- The words in the memory operands of an instruction. -/
def address_words (inst : List Char) : List (List Char) :=
  ((operand_list inst).filter (is_mem ·)).flatMap words

/-- A register operand of an instruction, explicit or in an address. -/
def IsOperand (inst name : List Char) : Prop :=
  name ∈ x86regs ∧ (name ∈ operand_list inst ∨ name ∈ address_words inst)

/-- The kind and the address that the loop adds for an operand. -/
def operand_of (text : List Char) : Option (Kind × Option (List Char)) :=
  if text ∈ x86regs then some (.reg, some text)
  else if is_mem text then some (.mem, first_addr text)
  else if is_imm text then some (.imm, none)
  else none

/-- The uses of the operands are known: the instruction is one of the special cases, or its name
and the kinds of its operands are in the table. -/
def KnownForm (x86operands : PyDict String Rows) (op inst : List Char)
    (texts : List (List Char)) : Prop :=
  "mul ".toList <+: inst ∨ ("imul ".toList <+: inst ∧ texts.length = 1) ∨
    ("div ".toList <+: inst ∨ "idiv ".toList <+: inst) ∨ "cmpxchg ".toList <+: inst ∨
    ∃ rwx, (x86operands.get? (String.ofList op)).bind
      (·.get? ((texts.filterMap operand_of).map Prod.fst)) = some rwx

def Known (x86operands : PyDict String Rows) (inst : List Char) : Prop :=
  ∃ op, first_word (strip_prefixes inst) = .ok op ∧
    KnownForm x86operands op (strip_prefixes inst) (operand_list inst)

/-- The analyzer sees the use of an operand. -/
def Accessed (x86operands : PyDict String Rows) (inst name : List Char) : Prop :=
  PyText.isIn "nop".toList inst = false ∧
    ((name ∈ address_words inst ∧ name ∈ GP_REGS) ∨
      (name ∈ operand_list inst ∧ name ∈ x86regs ∧ Known x86operands inst))

variable {ops : Operands}

theorem add_operand_ok {acc : Operands} {text : List Char} (h : add_operand acc text = .ok ops) :
    ops.types = acc.types ++ ((operand_of text).map Prod.fst).toList ∧
      ops.addrs = acc.addrs ++ ((operand_of text).map Prod.snd).toList ∧
      ops.addr_regs = acc.addr_regs ++
        if is_mem text then (words text).filter (· ∈ GP_REGS) else [] := by
  unfold add_operand at h
  by_cases hreg : text ∈ x86regs
  · have hne : text ≠ [] := by
      rintro rfl
      exact absurd hreg (by decide +kernel)
    rw [if_neg hne, if_pos hreg] at h
    cases h
    simp [operand_of, hreg, not_is_mem hreg]
  · by_cases hnil : text = []
    · subst hnil
      rw [if_pos rfl] at h
      cases h
      simp [operand_of, hreg, is_mem, is_imm]
    · rw [if_neg hnil, if_neg hreg] at h
      by_cases hmem : is_mem text = true
      · rw [if_pos hmem] at h
        cases hfirst : first_addr text with
        | none =>
          rw [hfirst] at h
          cases h
        | some addr =>
          rw [hfirst] at h
          cases h
          simp [operand_of, hreg, hmem, hfirst]
      · rw [if_neg hmem] at h
        by_cases himm : is_imm text = true
        · rw [if_pos himm] at h
          cases h
          simp [operand_of, hreg, hmem, himm]
        · rw [if_neg himm] at h
          split at h
          · cases h
            simp [operand_of, hreg, hmem, himm]
          · cases h

/-- The operands behind the loop. -/
theorem operands_ok {texts : List (List Char)} {acc : Operands}
    (h : texts.foldlM add_operand acc = .ok ops) :
    ops.types = acc.types ++ (texts.filterMap operand_of).map Prod.fst ∧
      ops.addrs = acc.addrs ++ (texts.filterMap operand_of).map Prod.snd ∧
      ops.addr_regs = acc.addr_regs ++
        ((texts.filter (is_mem ·)).flatMap words).filter (· ∈ GP_REGS) := by
  induction texts generalizing acc with
  | nil =>
    cases h
    simp
  | cons text texts ih =>
    rw [List.foldlM_cons] at h
    obtain ⟨mid, hmid, h⟩ := PyError.ok_of_bind h
    obtain ⟨htypes, haddrs, hregs⟩ := add_operand_ok hmid
    obtain ⟨htypes', haddrs', hregs'⟩ := ih h
    rw [htypes', haddrs', hregs', htypes, haddrs, hregs]
    refine ⟨?_, ?_, ?_⟩
    · cases hop : operand_of text <;> simp [hop]
    · cases hop : operand_of text <;> simp [hop]
    · cases hmem : is_mem text <;> simp [hmem]

/-- An operand that the analyzer adds by itself. -/
def implicit_regs : List (Kind × Option (List Char)) :=
  [(.reg, some "rdx".toList), (.reg, some "rax".toList)]

/-- The last loop reads these operands, perhaps with implicit ones around them. -/
def Uses.Reads (uses : Uses) (l : List (Kind × Option (List Char))) : Prop :=
  ∃ before after, before ⊆ implicit_regs ∧ after ⊆ implicit_regs ∧
    uses.types = (before ++ l ++ after).map Prod.fst ∧
    uses.addrs = (before ++ l ++ after).map Prod.snd

variable {uses : Uses}

theorem reads_with_implicit {rwx : List Access} {l : List (Kind × Option (List Char))}
    (hl : l.length ≤ 1) (htypes : ops.types = l.map Prod.fst) (haddrs : ops.addrs = l.map Prod.snd)
    (h : with_implicit rwx ops = .ok uses) : uses.Reads l := by
  unfold with_implicit at h
  rw [htypes, haddrs] at h
  match l, hl with
  | [], _ => cases h
  | [p], _ =>
    cases h
    exact ⟨implicit_regs, [], List.Subset.refl _, List.nil_subset _, rfl, rfl⟩

/-- The operands of an instruction with one operand in its text. -/
theorem reads_of_one {texts : List (List Char)} {rwx : List Access}
    (htypes : ops.types = (texts.filterMap operand_of).map Prod.fst)
    (haddrs : ops.addrs = (texts.filterMap operand_of).map Prod.snd) (hone : texts.length = 1)
    (h : with_implicit rwx ops = .ok uses) : uses.Reads (texts.filterMap operand_of) := by
  have hlen : (texts.filterMap operand_of).length ≤ texts.length := List.length_filterMap_le ..
  exact reads_with_implicit (by omega) htypes haddrs h

/-- The operands of an instruction with two operands in its text and `rax`. -/
theorem reads_of_two {texts : List (List Char)} {rwx : List Access} {ops : Operands} {uses : Uses}
    (htypes : ops.types = (texts.filterMap operand_of).map Prod.fst)
    (haddrs : ops.addrs = (texts.filterMap operand_of).map Prod.snd) (htwo : texts.length = 2)
    (h : (match ops.types, ops.addrs with
      | t :: t' :: _, addr :: addr' :: _ =>
        .ok ⟨[t, t', .reg], [addr, addr', some "rax".toList], rwx⟩
      | _, _ => .error .indexError) = (.ok uses : Except PyError Uses)) :
    uses.Reads (texts.filterMap operand_of) := by
  refine ⟨[], [(.reg, some "rax".toList)], List.nil_subset _, by simp [implicit_regs], ?_⟩
  have hlen : (texts.filterMap operand_of).length ≤ 2 := htwo ▸ List.length_filterMap_le ..
  rw [htypes, haddrs] at h
  -- The two operands are there, because both are looked at.
  generalize texts.filterMap operand_of = l at h hlen
  match l, hlen with
  | [], _ => cases h
  | [p], _ => cases h
  | [p, q], _ =>
    cases h
    exact ⟨rfl, rfl⟩

variable {x86operands : PyDict String Rows}

/-- The operands that the last loop reads: those in the text, if the form is known, and else
none. -/
theorem operand_uses_ok {op inst : List Char} {texts : List (List Char)}
    (htypes : ops.types = (texts.filterMap operand_of).map Prod.fst)
    (haddrs : ops.addrs = (texts.filterMap operand_of).map Prod.snd)
    (h : operand_uses x86operands op inst texts ops = .ok uses) :
    (KnownForm x86operands op inst texts ∧ uses.Reads (texts.filterMap operand_of)) ∨
      (¬ KnownForm x86operands op inst texts ∧ uses.types = []) := by
  unfold operand_uses at h
  by_cases hmul : "mul ".toList <+: inst
  · rw [if_pos hmul] at h
    split at h
    · rename_i hone
      exact .inl ⟨.inl hmul, reads_of_one htypes haddrs hone h⟩
    · cases h
  rw [if_neg hmul] at h
  by_cases himul : "imul ".toList <+: inst ∧ texts.length = 1
  · rw [if_pos himul] at h
    exact .inl ⟨.inr (.inl himul), reads_of_one htypes haddrs himul.2 h⟩
  rw [if_neg himul] at h
  by_cases hdiv : "div ".toList <+: inst ∨ "idiv ".toList <+: inst
  · rw [if_pos hdiv] at h
    split at h
    · rename_i hone
      exact .inl ⟨.inr (.inr (.inl hdiv)), reads_of_one htypes haddrs hone h⟩
    · cases h
  rw [if_neg hdiv] at h
  by_cases hcmp : "cmpxchg ".toList <+: inst
  · rw [if_pos hcmp] at h
    split at h
    · rename_i htwo
      exact .inl ⟨.inr (.inr (.inr (.inl hcmp))), reads_of_two htypes haddrs htwo h⟩
    · cases h
  rw [if_neg hcmp, htypes] at h
  cases hrow : (x86operands.get? (String.ofList op)).bind
      (·.get? ((texts.filterMap operand_of).map Prod.fst)) with
  | none =>
    rw [hrow] at h
    cases h
    refine .inr ⟨?_, rfl⟩
    rintro (h | h | h | h | ⟨rwx, h⟩)
    · exact hmul h
    · exact himul h
    · exact hdiv h
    · exact hcmp h
    · rw [hrow] at h
      cases h
  | some rwx =>
    rw [hrow] at h
    cases h
    exact .inl ⟨.inr (.inr (.inr (.inr ⟨rwx, hrow⟩))), [], [], List.nil_subset _,
      List.nil_subset _, by simp, by simp [haddrs]⟩

/-! ## What an instruction accesses -/

/-- An instruction reads or writes the register of a name. -/
def InstRegs.Has (regs : InstRegs) (name : List Char) : Prop := ∃ rw, name ∈ regs.names rw

theorem InstRegs.has_iff (regs : InstRegs) (name : List Char) :
    regs.Has name ↔ name ∈ regs.rd_regs ∨ name ∈ regs.wr_regs := by
  constructor
  · rintro ⟨_ | _, h⟩
    · exact .inl h
    · exact .inr h
  · rintro (h | h)
    · exact ⟨.rd, h⟩
    · exact ⟨.wr, h⟩

variable {regs : InstRegs}

/-- A turn adds the name of its operand if that is a register, and no other name. -/
theorem add_use_ok {l : List (Kind × Option (List Char))} (htypes : uses.types = l.map Prod.fst)
    (haddrs : uses.addrs = l.map Prod.snd) {regs' : InstRegs} {i : ℕ}
    (h : add_use uses regs i = .ok regs') (name : List Char) :
    regs'.Has name ↔ regs.Has name ∨ l[i]? = some (.reg, some name) := by
  unfold add_use at h
  rw [htypes, haddrs, List.getElem?_map, List.getElem?_map] at h
  rw [InstRegs.has_iff, InstRegs.has_iff]
  cases hp : l[i]? with
  | none =>
    rw [hp] at h
    cases hrwx : uses.rwx[i]? with
    | none => simp [hrwx] at h
    | some use => cases use <;> simp [hrwx] at h
  | some p =>
    obtain ⟨kind, addr⟩ := p
    rw [hp] at h
    cases kind with
    | imm =>
      cases h
      simp
    | mem =>
      cases hrwx : uses.rwx[i]? with
      | none => simp [hrwx] at h
      | some use =>
        cases use <;> simp [hrwx] at h <;> simp [h]
    | reg =>
      cases hrwx : uses.rwx[i]? with
      | none => simp [hrwx] at h
      | some use =>
        cases addr with
        | none => cases use <;> simp [hrwx] at h
        | some addr =>
          have heq : addr = name ↔ name = addr := eq_comm
          cases use <;> simp [hrwx] at h <;> subst h <;> simp [heq] <;> tauto

theorem uses_ok {l : List (Kind × Option (List Char))} (htypes : uses.types = l.map Prod.fst)
    (haddrs : uses.addrs = l.map Prod.snd) {regs' : InstRegs} {n : ℕ}
    (h : (List.range n).foldlM (add_use uses) regs = .ok regs') (name : List Char) :
    regs'.Has name ↔ regs.Has name ∨ (.reg, some name) ∈ l.take n := by
  induction n generalizing regs' with
  | zero =>
    cases h
    simp
  | succ n ih =>
    rw [List.range_succ, List.foldlM_append] at h
    obtain ⟨mid, hmid, h⟩ := PyError.ok_of_bind h
    rw [List.foldlM_cons] at h
    obtain ⟨last, hlast, h⟩ := PyError.ok_of_bind h
    cases h
    rw [add_use_ok htypes haddrs hlast, ih hmid, List.take_add_one, List.mem_append,
      Option.mem_toList, or_assoc]

theorem mem_operand_of_iff {texts : List (List Char)} {name : List Char} :
    (Kind.reg, some name) ∈ texts.filterMap operand_of ↔ name ∈ texts ∧ name ∈ x86regs := by
  rw [List.mem_filterMap]
  constructor
  · rintro ⟨text, htext, h⟩
    unfold operand_of at h
    split at h
    · rename_i hreg
      cases h
      exact ⟨htext, hreg⟩
    · split at h
      · cases h
      · split at h <;> cases h
  · rintro ⟨htext, hreg⟩
    exact ⟨name, htext, by simp [operand_of, hreg]⟩

/-- The steps of an instruction that is no `nop`. -/
theorem parse_inst_operand_ok {inst : List Char} (hnop : PyText.isIn "nop".toList inst = false)
    (h : parse_inst_operand x86operands inst = .ok regs) : ∃ op ops uses,
      first_word (strip_prefixes inst) = .ok op ∧
      (operand_list inst).foldlM add_operand ⟨[], [], []⟩ = .ok ops ∧
      operand_uses x86operands op (strip_prefixes inst) (operand_list inst) ops = .ok uses ∧
      (List.range uses.types.length).foldlM (add_use uses) ⟨ops.addr_regs, []⟩ = .ok regs := by
  unfold parse_inst_operand at h
  rw [if_neg (by simp only [hnop, Bool.false_eq_true, not_false_eq_true])] at h
  obtain ⟨op, hop, h⟩ := PyError.ok_of_bind h
  obtain ⟨ops, hops, h⟩ := PyError.ok_of_bind h
  obtain ⟨uses, huses, h⟩ := PyError.ok_of_bind h
  have hlist : operand_texts op (strip_prefixes inst) = operand_list inst := by
    simp only [operand_list, hop]
  rw [hlist] at hops huses
  exact ⟨op, ops, uses, hop, hops, huses, h⟩

theorem known_iff {op inst : List Char} (hop : first_word (strip_prefixes inst) = .ok op) :
    Known x86operands inst ↔
      KnownForm x86operands op (strip_prefixes inst) (operand_list inst) := by
  constructor
  · rintro ⟨op', hop', hform⟩
    rw [hop] at hop'
    cases hop'
    exact hform
  · exact fun hform => ⟨op, hop, hform⟩

/-- The implicit operands are registers that may also stand in an address. -/
theorem mem_GP_REGS_of_implicit {name : List Char} (h : (Kind.reg, some name) ∈ implicit_regs) :
    name ∈ GP_REGS := by
  have hname : name = "rdx".toList ∨ name = "rax".toList := by simpa [implicit_regs] using h
  rcases hname with rfl | rfl <;> decide +kernel

/-- A name that is also an implicit operand is seen where it stands in the text. -/
theorem IsOperand.seen_of_implicit {inst name : List Char} (h : IsOperand inst name)
    (himplicit : (Kind.reg, some name) ∈ implicit_regs) :
    (name ∈ address_words inst ∧ name ∈ GP_REGS) ∨ (name ∈ operand_list inst ∧ name ∈ x86regs) := by
  rcases h.2 with hmem | hmem
  · exact .inr ⟨hmem, h.1⟩
  · exact .inl ⟨hmem, mem_GP_REGS_of_implicit himplicit⟩

/-- An operand of an instruction is among its reads and writes if the analyzer sees its use. -/
theorem has_iff_accessed {inst name : List Char}
    (h : parse_inst_operand x86operands inst = .ok regs) (hname : IsOperand inst name) :
    regs.Has name ↔ Accessed x86operands inst name := by
  cases hnop : PyText.isIn "nop".toList inst with
  | true =>
    unfold parse_inst_operand at h
    rw [if_pos hnop] at h
    cases h
    rw [Accessed, hnop]
    simp [InstRegs.has_iff]
  | false =>
    obtain ⟨op, ops, uses, hop, hops, huses, h⟩ := parse_inst_operand_ok hnop h
    obtain ⟨htypes, haddrs, hregs⟩ := operands_ok hops
    simp only [List.nil_append] at htypes haddrs hregs
    have haddr : name ∈ ops.addr_regs ↔ name ∈ address_words inst ∧ name ∈ GP_REGS := by
      rw [hregs, List.mem_filter, decide_eq_true_eq]
      rfl
    have hinit : (InstRegs.mk ops.addr_regs []).Has name ↔ name ∈ ops.addr_regs := by
      simp [InstRegs.has_iff]
    rw [Accessed, and_iff_right hnop, ← haddr, known_iff hop]
    obtain ⟨hform, before, after, hbefore, hafter, ht, ha⟩ | ⟨hform, ht⟩ :=
      operand_uses_ok htypes haddrs huses
    · have hlen : uses.types.length =
          (before ++ (operand_list inst).filterMap operand_of ++ after).length := by
        rw [ht, List.length_map]
      rw [uses_ok ht ha h, hinit, hlen, List.take_length, List.mem_append, List.mem_append,
        mem_operand_of_iff]
      have hseen (himplicit : (Kind.reg, some name) ∈ implicit_regs) :
          name ∈ ops.addr_regs ∨ (name ∈ operand_list inst ∧ name ∈ x86regs) :=
        (hname.seen_of_implicit himplicit).imp_left haddr.mpr
      constructor
      · rintro (hmem | (hmem | hmem) | hmem)
        · exact .inl hmem
        · exact (hseen (hbefore hmem)).imp_right fun h => ⟨h.1, h.2, hform⟩
        · exact .inr ⟨hmem.1, hmem.2, hform⟩
        · exact (hseen (hafter hmem)).imp_right fun h => ⟨h.1, h.2, hform⟩
      · rintro (hmem | ⟨hmem, hreg, -⟩)
        · exact .inl hmem
        · exact .inr (.inl (.inr ⟨hmem, hreg⟩))
    · rw [ht] at h
      cases h
      rw [hinit]
      constructor
      · exact .inl
      · rintro (hmem | ⟨-, -, hform'⟩)
        · exact hmem
        · exact absurd hform' hform

/-! ## The lists of a block -/

/-- The lists for the accesses of the instructions of a block. -/
def file_block (regs : List InstRegs) : BlockRegs := regs.foldl file_inst ⟨[], fun _ => []⟩

theorem file_block_concat (regs : List InstRegs) (r : InstRegs) :
    file_block (regs ++ [r]) = file_inst (file_block regs) r := by
  rw [file_block, List.foldl_append]
  rfl

theorem inst_regs_file_block (regs : List InstRegs) : (file_block regs).inst_regs =
    regs.map fun r rw => ((r.names rw).filterMap entry).dedup := by
  induction regs using List.reverseRecOn with
  | nil => rfl
  | append_singleton regs r ih =>
    rw [file_block_concat, file_inst, ih, List.map_append]
    rfl

/-- The instructions in the list of a register are those that access it. -/
theorem mem_reg_insts_iff (regs : List InstRegs) (slot : Slot) (k : ℕ) :
    k ∈ (file_block regs).reg_insts slot ↔
      ∃ r, regs[k]? = some r ∧ ∃ name ∈ r.names slot.rw, entry name = some slot.reg := by
  induction regs using List.reverseRecOn with
  | nil => simp [file_block]
  | append_singleton regs r ih =>
    have hlen : (file_block regs).inst_regs.length = regs.length := by
      rw [inst_regs_file_block, List.length_map]
    have hlast : k ∈ (((r.names slot.rw).filterMap entry).filter (· = slot.reg)).map
          (fun _ => regs.length) ↔
        k = regs.length ∧ ∃ name ∈ r.names slot.rw, entry name = some slot.reg := by
      simp only [List.mem_map, List.mem_filter, List.mem_filterMap, decide_eq_true_eq]
      constructor
      · rintro ⟨reg, ⟨hname, rfl⟩, rfl⟩
        exact ⟨rfl, hname⟩
      · rintro ⟨rfl, hname⟩
        exact ⟨slot.reg, ⟨hname, rfl⟩, rfl⟩
    rw [file_block_concat, file_inst, List.mem_append, ih, hlen, hlast]
    rcases Nat.lt_trichotomy k regs.length with hk | rfl | hk
    · rw [List.getElem?_append_left hk]
      simp [hk.ne]
    · simp
    · have hnone : regs[k]? = none := List.getElem?_eq_none hk.le
      have hnone' : (regs ++ [r])[k]? = none := List.getElem?_eq_none (by simp; omega)
      simp [hnone, hnone', hk.ne']

/-- A block that is read has the lists of its instructions. -/
theorem parse_basic_block_regs_ok {insts : List (List Char)} {block : BlockRegs}
    (h : parse_basic_block_regs x86operands insts = .ok block) :
    ∃ regs, List.Forall₂ (fun inst r => parse_inst_operand x86operands inst = .ok r) insts regs ∧
      block = file_block regs := by
  refine PyError.foldlM_along (P := fun insts block => ∃ regs,
    List.Forall₂ (fun inst r => parse_inst_operand x86operands inst = .ok r) insts regs ∧
      block = file_block regs) ⟨[], .nil, rfl⟩ ?_ h
  rintro done inst mid last ⟨regs, hregs, rfl⟩ hlast
  obtain ⟨r, hr, hlast⟩ := PyError.ok_of_bind hlast
  cases hlast
  exact ⟨regs ++ [r], List.rel_append hregs (.cons hr .nil), (file_block_concat regs r).symm⟩

/-! ## Entries -/

/-- A block has an operand of this name in instruction `k`. -/
def OperandAt (insts : List (List Char)) (k : ℕ) (name : List Char) : Prop :=
  ∃ inst, insts[k]? = some inst ∧ IsOperand inst name

/-- The access of instruction `k` to the register of a name is filed under an entry. -/
def Files (x86operands : PyDict String Rows) (insts : List (List Char)) (block : BlockRegs) (k : ℕ)
    (name : List Char) (reg : GpReg) : Prop :=
  ∃ inst regs rw, insts[k]? = some inst ∧ parse_inst_operand x86operands inst = .ok regs ∧
    name ∈ regs.names rw ∧ entry name = some reg ∧ k ∈ block.reg_insts ⟨reg, rw⟩

/-- An operand is filed under its entry if the analyzer sees its use. -/
theorem files_iff {insts : List (List Char)} {block : BlockRegs}
    (h : parse_basic_block_regs x86operands insts = .ok block) {k : ℕ} {inst name : List Char}
    (hinst : insts[k]? = some inst) (hname : IsOperand inst name) (reg : GpReg) :
    Files x86operands insts block k name reg ↔
      Accessed x86operands inst name ∧ entry name = some reg := by
  obtain ⟨regs, hregs, rfl⟩ := parse_basic_block_regs_ok h
  have hk : k < insts.length := (List.getElem?_eq_some_iff.mp hinst).1
  have hk' : k < regs.length := hregs.length_eq ▸ hk
  have hget : insts[k] = inst := (List.getElem?_eq_some_iff.mp hinst).2
  have hparse : parse_inst_operand x86operands inst = .ok regs[k] := hget ▸ hregs.get hk hk'
  rw [← has_iff_accessed hparse hname]
  constructor
  · rintro ⟨inst', r, rw, hinst', hr, hmem, hentry, -⟩
    rw [hinst] at hinst'
    cases hinst'
    rw [hparse] at hr
    cases hr
    exact ⟨⟨rw, hmem⟩, hentry⟩
  · rintro ⟨⟨rw, hmem⟩, hentry⟩
    exact ⟨inst, regs[k], rw, hinst, hparse, hmem, hentry,
      (mem_reg_insts_iff regs ⟨reg, rw⟩ k).mpr
        ⟨regs[k], List.getElem?_eq_getElem hk', name, hmem, hentry⟩⟩

/-- Two operands share an entry if they are parts of one register, and no other operand has
one. -/
structure FiledByRegister (x86operands : PyDict String Rows) (insts : List (List Char))
    (block : BlockRegs) : Prop where
  same_entry : ∀ k name k' name', OperandAt insts k name → OperandAt insts k' name' →
    ((∃ reg, Files x86operands insts block k name reg ∧
        Files x86operands insts block k' name' reg) ↔
      ∃ reg, part_of name = some reg ∧ part_of name' = some reg)
  nowhere : ∀ k name, OperandAt insts k name → part_of name = none →
    ∀ reg, ¬ Files x86operands insts block k name reg

/-- Operands of a block are parts of both registers. -/
def Mixes (insts : List (List Char)) (reg reg' : GpReg) : Prop :=
  ∃ k name k' name', OperandAt insts k name ∧ OperandAt insts k' name' ∧
    part_of name = some reg ∧ part_of name' = some reg'

/-- The blocks whose registers have entries of their own. -/
structure Separable (x86operands : PyDict String Rows) (insts : List (List Char)) : Prop where
  seen : ∀ inst ∈ insts, ∀ name, IsOperand inst name → part_of name ≠ none →
    Accessed x86operands inst name
  no_stray : ∀ inst ∈ insts, ∀ name ∈ strays, IsOperand inst name →
    ¬ Accessed x86operands inst name
  not_b_and_bp : ¬ Mixes insts .b .bp
  not_d_and_di : ¬ Mixes insts .d .di

section

variable {x86operands : PyDict String Rows} {insts : List (List Char)} {block : BlockRegs}
  (h : parse_basic_block_regs x86operands insts = .ok block)

include h

/-- A part of a register that the analyzer sees is filed under the entry of the register. -/
theorem files_of_part {inst name : List Char} {k : ℕ} {reg : GpReg}
    (hinst : insts[k]? = some inst) (hname : IsOperand inst name) (hpart : part_of name = some reg)
    (hacc : Accessed x86operands inst name) :
    Files x86operands insts block k name (filed_as reg) :=
  (files_iff h hinst hname _).mpr ⟨hacc, entry_of_part hpart⟩

theorem FiledByRegister.accessed (hfiled : FiledByRegister x86operands insts block)
    {inst name : List Char} {k : ℕ} (hinst : insts[k]? = some inst) (hname : IsOperand inst name)
    (hpart : part_of name ≠ none) : Accessed x86operands inst name := by
  obtain ⟨reg, hreg⟩ := Option.ne_none_iff_exists'.mp hpart
  have hat : OperandAt insts k name := ⟨inst, hinst, hname⟩
  -- The operand shares an entry with itself.
  obtain ⟨reg', hfiles, -⟩ := (hfiled.same_entry k name k name hat hat).mpr ⟨reg, hreg, hreg⟩
  exact ((files_iff h hinst hname reg').mp hfiles).1

/-- Registers that are filed as one do not both have parts among the operands. -/
theorem FiledByRegister.not_mixes (hfiled : FiledByRegister x86operands insts block)
    {reg reg' : GpReg} (hne : reg ≠ reg') (hsame : filed_as reg = filed_as reg') :
    ¬ Mixes insts reg reg' := by
  rintro ⟨k, name, k', name', hat, hat', hpart, hpart'⟩
  have hne_none : part_of name ≠ none := by simp [hpart]
  have hne_none' : part_of name' ≠ none := by simp [hpart']
  obtain ⟨inst, hinst, hname⟩ := id hat
  obtain ⟨inst', hinst', hname'⟩ := id hat'
  have hfiles := files_of_part h hinst hname hpart (hfiled.accessed h hinst hname hne_none)
  have hfiles' := files_of_part h hinst' hname' hpart' (hfiled.accessed h hinst' hname' hne_none')
  obtain ⟨r, hr, hr'⟩ := (hfiled.same_entry k name k' name' hat hat').mp
    ⟨filed_as reg, hfiles, hsame ▸ hfiles'⟩
  rw [hpart] at hr
  rw [hpart'] at hr'
  exact hne (Option.some.inj (hr.trans hr'.symm))

/-- In a separable block, what is filed is a part of a register. -/
theorem Separable.part_of_files (hsep : Separable x86operands insts) {k : ℕ} {name : List Char}
    {reg : GpReg} (hat : OperandAt insts k name)
    (hfiles : Files x86operands insts block k name reg) :
    ∃ r, part_of name = some r ∧ reg = filed_as r := by
  obtain ⟨inst, hinst, hname⟩ := hat
  obtain ⟨hacc, hentry⟩ := (files_iff h hinst hname reg).mp hfiles
  cases hpart : part_of name with
  | none =>
    have hstray : name ∈ strays := (entry_of_no_part hname.1 hpart).mp (by simp [hentry])
    exact absurd hacc (hsep.no_stray inst (List.mem_of_getElem? hinst) name hstray hname)
  | some r =>
    rw [entry_of_part hpart] at hentry
    exact ⟨r, rfl, (Option.some.inj hentry).symm⟩

end

/-! ## The laws -/

/-- The entries of a block are its registers exactly if the analyzer sees every general-purpose
operand and no segment, control, debug or bound register that it takes for one, and neither `rbx`
and `rbp` nor `rdx` and `rdi` both have parts among the operands. -/
theorem entries_are_registers_iff (x86operands : PyDict String Rows) (insts : List (List Char))
    (block : BlockRegs) (h : parse_basic_block_regs x86operands insts = .ok block) :
    FiledByRegister x86operands insts block ↔ Separable x86operands insts := by
  constructor
  · intro hfiled
    refine ⟨?_, ?_, hfiled.not_mixes h (by decide) rfl, hfiled.not_mixes h (by decide) rfl⟩
    · intro inst hinst name hname hpart
      obtain ⟨k, hk⟩ := List.mem_iff_getElem?.mp hinst
      exact hfiled.accessed h hk hname hpart
    · intro inst hinst name hstray hname hacc
      obtain ⟨k, hk⟩ := List.mem_iff_getElem?.mp hinst
      have hnone := part_of_stray hstray
      have hentry : entry name ≠ none := (entry_of_no_part hname.1 hnone).mpr hstray
      obtain ⟨reg, hreg⟩ := Option.ne_none_iff_exists'.mp hentry
      exact hfiled.nowhere k name ⟨inst, hk, hname⟩ hnone reg
        ((files_iff h hk hname reg).mpr ⟨hacc, hreg⟩)
  · intro hsep
    refine ⟨?_, ?_⟩
    · intro k name k' name' hat hat'
      constructor
      · rintro ⟨reg, hfiles, hfiles'⟩
        obtain ⟨r, hr, hreg⟩ := hsep.part_of_files h hat hfiles
        obtain ⟨r', hr', hreg'⟩ := hsep.part_of_files h hat' hfiles'
        rcases (filed_as_eq_iff r r').mp (hreg.symm.trans hreg') with
          rfl | ⟨rfl, rfl⟩ | ⟨rfl, rfl⟩ | ⟨rfl, rfl⟩ | ⟨rfl, rfl⟩
        · exact ⟨r, hr, hr'⟩
        · exact absurd ⟨k, name, k', name', hat, hat', hr, hr'⟩ hsep.not_b_and_bp
        · exact absurd ⟨k', name', k, name, hat', hat, hr', hr⟩ hsep.not_b_and_bp
        · exact absurd ⟨k, name, k', name', hat, hat', hr, hr'⟩ hsep.not_d_and_di
        · exact absurd ⟨k', name', k, name, hat', hat, hr', hr⟩ hsep.not_d_and_di
      · rintro ⟨reg, hr, hr'⟩
        obtain ⟨inst, hinst, hname⟩ := hat
        obtain ⟨inst', hinst', hname'⟩ := hat'
        have hacc := hsep.seen inst (List.mem_of_getElem? hinst) name hname (by simp [hr])
        have hacc' := hsep.seen inst' (List.mem_of_getElem? hinst') name' hname' (by simp [hr'])
        exact ⟨filed_as reg, files_of_part h hinst hname hr hacc,
          files_of_part h hinst' hname' hr' hacc'⟩
    · intro k name hat hnone reg hfiles
      obtain ⟨r, hr, -⟩ := hsep.part_of_files h hat hfiles
      rw [hnone] at hr
      cases hr

/-- The row of `mov` between registers. -/
def mov_rows : PyDict String Rows :=
  PyDict.empty.set "mov" (PyDict.empty.set [.reg, .reg] [.w, .r])

def twoMoves : List (List Char) := ["mov rax, rcx".toList, "mov rsi, rax".toList]

theorem isOperand_twoMoves {inst name : List Char} (hinst : inst ∈ twoMoves)
    (h : IsOperand inst name) :
    name ∈ operand_list inst ∧ name ∈ ["rax".toList, "rcx".toList, "rsi".toList] := by
  have hlists : ∀ inst ∈ twoMoves, address_words inst = [] ∧
      ∀ name ∈ operand_list inst, name ∈ ["rax".toList, "rcx".toList, "rsi".toList] := by
    decide +kernel
  obtain ⟨hwords, hlist⟩ := hlists inst hinst
  rcases h.2 with hname | hname
  · exact ⟨hname, hlist name hname⟩
  · rw [hwords] at hname
    cases hname

theorem known_twoMoves {inst : List Char} (hinst : inst ∈ twoMoves) : Known mov_rows inst := by
  have hrow : ∀ inst ∈ twoMoves, first_word (strip_prefixes inst) = .ok "mov".toList ∧
      (mov_rows.get? "mov").bind
        (·.get? (((operand_list inst).filterMap operand_of).map Prod.fst)) = some [.w, .r] := by
    decide +kernel
  obtain ⟨hop, hrwx⟩ := hrow inst hinst
  exact ⟨_, hop, .inr (.inr (.inr (.inr ⟨_, hrwx⟩)))⟩

theorem separable_twoMoves : Separable mov_rows twoMoves := by
  have hmixes : ∀ reg reg' : GpReg,
      (∀ name ∈ ["rax".toList, "rcx".toList, "rsi".toList], part_of name ≠ some reg') →
      ¬ Mixes twoMoves reg reg' := by
    rintro reg reg' hnot ⟨k, name, k', name', -, ⟨inst, hinst, hname⟩, -, hpart⟩
    exact hnot name' (isOperand_twoMoves (List.mem_of_getElem? hinst) hname).2 hpart
  refine ⟨?_, ?_, hmixes _ _ (by decide +kernel), hmixes _ _ (by decide +kernel)⟩
  · intro inst hinst name hname _
    have hnop : ∀ inst ∈ twoMoves, PyText.isIn "nop".toList inst = false := by decide +kernel
    exact ⟨hnop inst hinst,
      .inr ⟨(isOperand_twoMoves hinst hname).1, hname.1, known_twoMoves hinst⟩⟩
  · intro inst hinst name hstray hname
    have hnone : ∀ name ∈ ["rax".toList, "rcx".toList, "rsi".toList], name ∉ strays := by
      decide +kernel
    exact absurd hstray (hnone name (isOperand_twoMoves hinst hname).2)

theorem entries_are_registers_for_two_moves : ∃ block,
    parse_basic_block_regs mov_rows twoMoves = .ok block ∧
    FiledByRegister mov_rows twoMoves block := by
  have h1 : parse_inst_operand mov_rows "mov rax, rcx".toList =
      .ok ⟨["rcx".toList], ["rax".toList]⟩ := by decide +kernel
  have h2 : parse_inst_operand mov_rows "mov rsi, rax".toList =
      .ok ⟨["rax".toList], ["rsi".toList]⟩ := by decide +kernel
  have hblock : parse_basic_block_regs mov_rows twoMoves =
      .ok (file_block [⟨["rcx".toList], ["rax".toList]⟩, ⟨["rax".toList], ["rsi".toList]⟩]) := by
    simp only [parse_basic_block_regs, twoMoves, List.foldlM_cons, h1, h2]
    rfl
  exact ⟨_, hblock, (entries_are_registers_iff _ _ _ hblock).mpr separable_twoMoves⟩

/-- In this block `rbp` is filed with `rbx`, and the segment register `ds` with `edx`. -/
theorem rbp_and_ds_are_filed_with_others : ∃ block,
    parse_basic_block_regs mov_rows ["mov rbx, rbp".toList, "mov edx, ds".toList] = .ok block ∧
    block.reg_insts ⟨.b, .wr⟩ = [0] ∧ block.reg_insts ⟨.b, .rd⟩ = [0] ∧
    block.reg_insts ⟨.d, .wr⟩ = [1] ∧ block.reg_insts ⟨.d, .rd⟩ = [1] ∧
    part_of "rbx".toList = some .b ∧ part_of "rbp".toList = some .bp ∧
    part_of "ds".toList = none ∧
    ¬ FiledByRegister mov_rows ["mov rbx, rbp".toList, "mov edx, ds".toList] block := by
  have h1 : parse_inst_operand mov_rows "mov rbx, rbp".toList =
      .ok ⟨["rbp".toList], ["rbx".toList]⟩ := by decide +kernel
  have h2 : parse_inst_operand mov_rows "mov edx, ds".toList =
      .ok ⟨["ds".toList], ["edx".toList]⟩ := by decide +kernel
  have hblock : parse_basic_block_regs mov_rows ["mov rbx, rbp".toList, "mov edx, ds".toList] =
      .ok (file_block [⟨["rbp".toList], ["rbx".toList]⟩, ⟨["ds".toList], ["edx".toList]⟩]) := by
    simp only [parse_basic_block_regs, List.foldlM_cons, h1, h2]
    rfl
  refine ⟨_, hblock, by decide +kernel, by decide +kernel, by decide +kernel, by decide +kernel,
    by decide +kernel, by decide +kernel, by decide +kernel, fun hfiled => ?_⟩
  have hds : OperandAt ["mov rbx, rbp".toList, "mov edx, ds".toList] 1 "ds".toList :=
    ⟨_, rfl, by decide +kernel, .inl (by decide +kernel)⟩
  have hfiles : Files mov_rows ["mov rbx, rbp".toList, "mov edx, ds".toList]
      (file_block [⟨["rbp".toList], ["rbx".toList]⟩, ⟨["ds".toList], ["edx".toList]⟩]) 1
      "ds".toList .d :=
    ⟨_, _, .rd, rfl, h2, List.mem_cons_self, by decide +kernel, by decide +kernel⟩
  exact hfiled.nowhere 1 "ds".toList hds (by decide +kernel) .d hfiles

end ditto.data_dependency_analyzer
