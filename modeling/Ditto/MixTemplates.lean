-- The laws of the instruction mix: the generator has a template for each
-- category that an instruction of x86data.json comes out as, but for a crc32
-- with an operand in memory, so it writes every block of a mix without one.
import Ditto.BlockAsm
import Ditto.InstMix

namespace ditto.inst_mix_analyzer

open assembly_generator

/-! ## The instructions of x86data.json -/

/-- Instructions, with the operands and the extensions that they have in some form. -/
structure X86Entry where
  names : List String
  operands : List (List X86Operand)
  extensions : List (List String) := [[]]

def R (type : OperandType) : X86Operand := .of type true false

def W (type : OperandType) : X86Operand := .of type false true

def X (type : OperandType) : X86Operand := .of type true true

/-- The instructions of x86data.json whose names the categories list. -/
def x86data : Catagory → List X86Entry
  | .mov_uncond => [
    { names := ["mov"]
      operands := [[W .reg_mem, .imm], [W .reg_mem, R .reg], [W .mem, R .reg], [W .reg, .imm],
        [W .reg, R .reg_mem], [W .reg, R .mem], [W .reg, R .reg]] },
    { names := ["movsx", "movsxd", "movzx"], operands := [[W .reg, R .reg_mem]] },
    { names := ["push"], operands := [[.imm], [R .reg_mem], [R .reg]] },
    { names := ["pop"], operands := [[W .reg_mem], [W .reg]] },
    { names := ["movsq"], operands := [[W .mem, R .mem]] },
    { names := ["stosq"], operands := [[W .mem, R .reg]] },
    { names := ["movaps", "movups", "movdqu", "vmovdqa", "vmovdqu"]
      operands := [[W .reg_mem, R .reg], [W .reg, R .reg_mem]]
      extensions := [["SSE"], ["SSE2"], ["AVX"]] }]
  | .mov_cond => [
    { names := ["seto", "setno", "setb", "setnae", "setc", "setae", "setnb", "setnc", "sete",
      "setz", "setne", "setnz", "setbe", "setna", "seta", "setnbe", "sets", "setns", "setp",
      "setpe", "setnp", "setpo", "setl", "setnge", "setge", "setnl", "setle", "setng", "setg",
      "setnle"]
      operands := [[W .reg_mem]] },
    { names := ["setssbsy"], operands := [[]], extensions := [["CET_SS"]] },
    { names := ["cmovo", "cmovno", "cmovb", "cmovnae", "cmovc", "cmovae", "cmovnb", "cmovnc",
      "cmove", "cmovz", "cmovne", "cmovnz", "cmovbe", "cmovna", "cmova", "cmovnbe", "cmovs",
      "cmovns", "cmovp", "cmovpe", "cmovnp", "cmovpo", "cmovl", "cmovnge", "cmovge", "cmovnl",
      "cmovle", "cmovng", "cmovg", "cmovnle"]
      operands := [[X .reg, R .reg_mem]], extensions := [["CMOV"]] }]
  | .branch_cond => [
    { names := ["jo", "jno", "jb", "jnae", "jc", "jae", "jnb", "jnc", "je", "jz", "jne", "jnz",
      "jbe", "jna", "ja", "jnbe", "js", "jns", "jp", "jpe", "jnp", "jpo", "jl", "jnge", "jge",
      "jnl", "jle", "jng", "jg", "jnle"]
      operands := [[.rel]] }]
  | .branch_uncond => [{ names := ["jmp"], operands := [[.rel], [R .reg_mem]] }]
  | .arith_int => [
    { names := ["add", "adc", "and", "or", "sbb", "sub", "xor"]
      operands := [[X .reg_mem, .imm], [X .reg_mem, R .reg], [X .reg, .imm],
        [X .reg, R .reg_mem]] },
    { names := ["cmp"]
      operands := [[R .reg_mem, .imm], [R .reg_mem, R .reg], [R .reg, .imm],
        [R .reg, R .reg_mem]] },
    { names := ["test"]
      operands := [[R .reg_mem, .imm], [R .reg_mem, R .reg], [R .reg, .imm]] },
    { names := ["inc", "dec", "neg", "not"], operands := [[X .reg_mem], [X .reg]] },
    { names := ["shl", "sal", "shr", "sar", "rcl", "rcr", "rol", "ror"]
      operands := [[X .reg_mem, .imm], [X .reg_mem, R .reg]] },
    { names := ["xadd"], operands := [[X .reg_mem, X .reg]], extensions := [["I486"]] },
    { names := ["andn"], operands := [[W .reg, R .reg, R .reg_mem]]
      extensions := [["BMI"]] },
    { names := ["pxor"], operands := [[X .reg, R .reg_mem]]
      extensions := [["MMX"], ["SSE2"]] },
    { names := ["lea"], operands := [[W .reg, R .mem]] },
    { names := ["nop"], operands := [[], [R .reg_mem], [R .reg_mem, R .reg]] }]
  | .mul_int => [
    { names := ["mul", "imul"]
      operands := [[X .reg, R .reg_mem], [W .reg, X .reg, R .reg_mem],
        [W .reg, R .reg_mem, .imm]] }]
  | .div_int => [
    { names := ["div", "idiv"]
      operands := [[X .reg, R .reg_mem], [X .reg, X .reg, R .reg_mem]] }]
  | .arith_fp => [
    { names := ["fadd", "fsub", "fiadd", "fisub", "fucom"]
      operands := [[], [R .reg], [R .mem], [R .reg, R .reg]] },
    { names := ["addpd", "addsd", "addps", "addss", "subpd", "subsd", "subps", "subss", "addsubpd",
      "addsubps"]
      operands := [[X .reg, R .reg_mem]]
      extensions := [["SSE"], ["SSE2"], ["SSE3"]] }]
  | .mul_fp => [
    { names := ["fmul", "fmulp", "fimul"], operands := [[], [R .reg], [R .mem], [R .reg, R .reg]] },
    { names := ["mulpd", "mulsd", "mulps", "mulss"], operands := [[X .reg, R .reg_mem]]
      extensions := [["SSE"], ["SSE2"]] }]
  | .div_fp => [
    { names := ["fdiv", "fdivp", "fidiv"], operands := [[], [R .reg], [R .mem], [R .reg, R .reg]] },
    { names := ["divpd", "divsd", "divps", "divss"], operands := [[X .reg, R .reg_mem]]
      extensions := [["SSE"], ["SSE2"]] }]
  | .crc32 => [
    { names := ["crc32"], operands := [[X .reg, R .reg_mem]]
      extensions := [["SSE4_2"]] }]
  | .other => []

/-- x86insts.json lists the instructions of x86data.json: those that a category lists are in
an entry of the category. -/
def FromX86Data (x86insts : List X86Inst) : Prop :=
  ∀ inst ∈ x86insts, op_catagory inst.name ≠ .other →
    ∃ e ∈ x86data (op_catagory inst.name),
      inst.name ∈ e.names ∧ inst.operands ∈ e.operands ∧ inst.extensions ∈ e.extensions

instance (x86insts : List X86Inst) : Decidable (FromX86Data x86insts) := by
  unfold FromX86Data
  infer_instance

/-! ## What the generator accepts -/

/-- The generator has a template for a category. -/
def accepts (t : OpType) : Bool := (template ⟨t, 0, 0, false, 0, false⟩).isOk

/-- It depends on nothing but the category. -/
theorem isOk_template (d : Draw) : (template d).isOk = accepts d.op_type := by
  obtain ⟨op_type, choice, bit_mask, hard_branch_flag, randint, pointer_chase_flag⟩ := d
  cases op_type with
  | op ext catagory mem_rwx =>
    cases catagory <;> cases ext <;> cases mem_rwx
    all_goals first
      | rfl
      | cases pointer_chase_flag <;> rfl
  | _ => rfl

/-- An instruction of the category is written, whatever else is drawn for it. -/
theorem forall_asm_inst_generator_iff (t : OpType) :
    (∀ b idx (d : Draw), d.op_type = t → ∃ r, asm_inst_generator b idx d = .ok r) ↔
      accepts t = true := by
  constructor
  · intro h
    obtain ⟨r, hr⟩ := h ⟨0, 0, 0⟩ ⟨0, 0⟩ ⟨t, 0, 0, false, 0, false⟩ rfl
    obtain ⟨_, htemplate, -⟩ := PyError.ok_of_bind hr
    unfold accepts
    rw [htemplate]
    rfl
  · rintro h b idx d rfl
    rw [← isOk_template] at h
    unfold asm_inst_generator
    cases htemplate : template d with
    | error err =>
      rw [htemplate] at h
      cases h
    | ok a => exact ⟨_, rfl⟩

/-- A block has a text exactly if all of its categories are accepted. -/
theorem exists_insts_text_iff (b : BlockId) (idx : LabelIdx) (ds : List Draw) :
    (∃ asm, insts_text b idx ds = .ok asm) ↔ ∀ d ∈ ds, accepts d.op_type = true := by
  induction ds generalizing idx with
  | nil => simp [insts_text]
  | cons d ds ih =>
    rw [List.forall_mem_cons, ← isOk_template]
    cases htemplate : template d with
    | error err => simp [insts_text, asm_inst_generator, htemplate, Except.isOk, Except.toBool, bind,
        Except.bind]
    | ok t =>
      rw [← ih (t.next idx)]
      simp only [insts_text, asm_inst_generator, htemplate]
      constructor
      · rintro ⟨asm, h⟩
        obtain ⟨_, hpair, h⟩ := PyError.ok_of_bind h
        cases hpair
        obtain ⟨rest, hrest, -⟩ := PyError.ok_of_bind h
        exact ⟨rfl, rest, hrest⟩
      · rintro ⟨-, rest, hrest⟩
        refine ⟨t.text b idx ++ rest, ?_⟩
        simp [bind, Except.bind, pure, Except.pure, hrest]

/-! ## The categories that come out -/

/-- How the operands of an instruction may use the memory. -/
def mem_uses (operands : List X86Operand) : List MemRwx :=
  match operands.mapM X86Operand.rwx with
  | .error _ => []
  | .ok rwx =>
    ((product (operands.map X86Operand.kinds)).filter (.mem ∈ ·)).filterMap fun types =>
      rwx[types.idxOf .mem]?.bind Access.mem_rwx

/-- The generator accepts what the instructions of x86data.json come out as, but for the use of
the memory by crc32. -/
theorem accepts_of_x86data (c : Catagory) : ∀ e ∈ x86data c, ∀ exts ∈ e.extensions,
    accepts (.op (op_ext exts) c .no_mem) = true ∧
      (c ≠ .crc32 → ∀ e' ∈ x86data c, ∀ operands ∈ e'.operands, ∀ m ∈ mem_uses operands,
        accepts (.op (op_ext exts) c m) = true) := by
  cases c <;> decide +kernel

theorem not_accepts_crc32 (ext : Ext) {m : MemRwx} (hm : m ≠ .no_mem) :
    accepts (.op ext .crc32 m) = false := by
  cases m with
  | no_mem => exact absurd rfl hm
  | _ => cases ext <;> rfl

theorem accepts_other (ext : Ext) (m : MemRwx) : accepts (.op ext .other m) = true := by
  cases m <;> cases ext <;> rfl

theorem accepts_special {op : String} {t : OpType} (h : special_catagory op = some t)
    (hrep : t ∉ REP_CATAGORIES) : accepts t = true := by
  unfold special_catagory at h
  split_ifs at h <;> cases h <;> first | rfl | simp [REP_CATAGORIES] at hrep

theorem ite_ne {p : Prop} [Decidable p] {a b c : Catagory} (ha : a ≠ c) (hb : b ≠ c) :
    (if p then a else b) ≠ c := by
  split
  · exact ha
  · exact hb

/-- The operation has the category of crc32. -/
theorem op_catagory_eq_crc32_iff (op : String) :
    op_catagory op = .crc32 ↔ op = "crc32" := by
  constructor
  · contrapose
    intro hne
    have hcrc : op ∉ ["crc32"] := mt List.mem_singleton.mp hne
    unfold op_catagory
    -- The ten categories before crc32 are other ones.
    iterate 10 refine ite_ne (by decide) ?_
    rw [if_neg hcrc]
    decide
  · rintro rfl
    decide +kernel

/-! ## The blocks -/

theorem allocate_line_quiet (distances : ℕ → Distances) (i : ℤ) (fuel : ℕ) (st : RegState)
    (line : List Stmt) : PyError.Quiet (allocate_line distances i fuel st line) := by
  induction fuel generalizing st line with
  | zero => rintro message ⟨⟩
  | succ fuel ih =>
    unfold allocate_line
    split
    · exact PyError.quiet_ok _
    · split
      · rintro message ⟨⟩
      · exact ih _ _

theorem allocate_lines_quiet (distances : ℕ → Distances) (i : ℤ) (st : RegState)
    (lines : List (List Stmt)) : PyError.Quiet (allocate_lines distances i st lines) := by
  induction lines generalizing i st with
  | nil => exact PyError.quiet_ok _
  | cons line rest ih =>
    unfold allocate_lines
    refine (allocate_line_quiet _ _ _ _ _).bind fun a _ => ?_
    exact (ih _ _).bind fun _ _ => PyError.quiet_ok _

theorem place_line_quiet (indices : List ℕ) (mem_size fuel idx : ℕ) (line : List Stmt) :
    PyError.Quiet (place_line indices mem_size fuel idx line) := by
  induction fuel generalizing idx line with
  | zero => rintro message ⟨⟩
  | succ fuel ih =>
    unfold place_line
    split
    · split
      · rintro message ⟨⟩
      · exact ih _ _
    · exact PyError.quiet_ok _

theorem place_lines_quiet (indices : List ℕ) (mem_size idx : ℕ) (lines : List (List Stmt)) :
    PyError.Quiet (place_lines indices mem_size idx lines) := by
  induction lines generalizing idx with
  | nil => exact PyError.quiet_ok _
  | cons line rest ih =>
    unfold place_lines
    refine (place_line_quiet _ _ _ _ _).bind fun a _ => ?_
    exact (ih _).bind fun _ _ => PyError.quiet_ok _

theorem mem_drawn {n : ℤ} {fuel : ℕ} {draws : ℕ → Draw} {i : ℤ} {d : Draw}
    (h : d ∈ drawn n fuel draws i) : ∃ k, d = draws k := by
  induction fuel generalizing draws i with
  | zero => cases h
  | succ fuel ih =>
    unfold drawn at h
    split at h
    · rcases List.mem_cons.mp h with rfl | hrest
      · exact ⟨0, rfl⟩
      · obtain ⟨k, rfl⟩ := ih hrest
        exact ⟨k + 1, rfl⟩
    · cases h

/-- Only a draw that is not accepted makes the generator raise an exception of its own. -/
theorem generate_asm_block_quiet (g : Generator) (s : Submission) (d : BlockDraws)
    (hd : ∀ k, accepts (d.insts k).op_type = true) : PyError.Quiet (generate_asm_block g s d) := by
  have hbody : PyError.Quiet (body_lines s d) := by
    have hinsts : ∀ x ∈ drawn s.num_static_insts s.num_static_insts.toNat d.insts 0,
        accepts x.op_type = true := by
      intro x hx
      obtain ⟨k, rfl⟩ := mem_drawn hx
      exact hd k
    obtain ⟨asm, hasm⟩ := (exists_insts_text_iff s.id ⟨0, 0⟩ _).mpr hinsts
    unfold body_lines unshuffled
    rw [hasm]
    exact allocate_lines_quiet _ _ _ _
  unfold generate_asm_block
  split
  · rintro message ⟨⟩
  split
  · rintro message ⟨⟩
  refine hbody.bind fun lines _ => ?_
  simp only
  split
  · exact PyError.quiet_ok _
  · exact (place_lines_quiet _ _ _ _).bind fun _ _ => PyError.quiet_ok _

/-! ## The mix -/

/-- An iform of crc32 with an operand in memory. -/
def Crc32OfMemory (imix_str : String) : Prop :=
  ∃ keywords, parse_iform imix_str = .ok ("crc32", keywords) ∧
    ∃ w ∈ keywords, operand_kind w = some .mem

section Mix

variable {x86insts : List X86Inst} {db : Tables}

/-- The use of the memory by a listed operation is one of x86data.json. -/
theorem mem_uses_of_get? (hdata : FromX86Data x86insts) (hdb : tables x86insts = .ok db)
    {op : String} (hop : op_catagory op ≠ .other) {rows : Rows} {operands : List Kind}
    {rwx : List Access} {m : MemRwx} (hrows : db.x86operands.get? op = some rows)
    (hrwx : rows.get? operands = some rwx) (hmem : .mem ∈ operands)
    (hm : rwx[operands.idxOf .mem]?.bind Access.mem_rwx = some m) :
    ∃ e ∈ x86data (op_catagory op), ∃ forms ∈ e.operands, m ∈ mem_uses forms := by
  unfold tables at hdb
  obtain ⟨x86operands, hparse, heq⟩ := PyError.ok_of_bind hdb
  cases heq
  obtain ⟨inst, hinst, rfl, htypes, hinstRwx⟩ :=
    hasSource_of_parse hparse op rows hrows operands rwx hrwx
  obtain ⟨e, he, -, hoperands, -⟩ := hdata inst hinst hop
  refine ⟨e, he, inst.operands, hoperands, ?_⟩
  simp only [mem_uses, hinstRwx, List.mem_filterMap, List.mem_filter, decide_eq_true_eq]
  exact ⟨operands, ⟨htypes, hmem⟩, hm⟩

theorem extensions_of_get? (hdata : FromX86Data x86insts) (hdb : tables x86insts = .ok db)
    {op : String} (hop : op_catagory op ≠ .other) {exts : List String}
    (hexts : db.x86inst_extensions.get? op = some exts) :
    ∃ e ∈ x86data (op_catagory op), exts ∈ e.extensions := by
  unfold tables at hdb
  obtain ⟨x86operands, -, heq⟩ := PyError.ok_of_bind hdb
  cases heq
  obtain ⟨inst, hinst, rfl, rfl⟩ := exists_inst_of_extensions hexts
  obtain ⟨e, he, -, -, hext⟩ := hdata inst hinst hop
  exact ⟨e, he, hext⟩

/-- The generator accepts the category of an iform unless it is a crc32 with memory. -/
theorem accepts_iff (hdata : FromX86Data x86insts) (hdb : tables x86insts = .ok db)
    {imix_str : String} {t : OpType} (h : catagorize_imix db imix_str = .ok (some t))
    (hrep : t ∉ REP_CATAGORIES) : accepts t = true ↔ ¬ Crc32OfMemory imix_str := by
  unfold catagorize_imix at h
  split at h
  · cases h
  obtain ⟨⟨op, keywords⟩, hparse, h⟩ := PyError.ok_of_bind h
  obtain ⟨m, hm, h⟩ := PyError.ok_of_bind h
  obtain ⟨exts, hexts, h⟩ := PyError.ok_of_bind h
  cases h
  have hreads : Crc32OfMemory imix_str ↔
      op_catagory op = .crc32 ∧ .mem ∈ inst_operands op keywords := by
    rw [op_catagory_eq_crc32_iff, mem_mem_inst_operands]
    constructor
    · rintro ⟨keywords', hparse', hw⟩
      rw [hparse] at hparse'
      cases hparse'
      exact ⟨rfl, hw⟩
    · rintro ⟨rfl, hw⟩
      exact ⟨keywords, hparse, hw⟩
  rw [hreads]
  cases hspecial : special_catagory op with
  | some t =>
    have hcrc : op_catagory op ≠ .crc32 := by
      rw [Ne, op_catagory_eq_crc32_iff]
      rintro rfl
      have hnone : special_catagory "crc32" = none := by decide +kernel
      rw [hnone] at hspecial
      cases hspecial
    rw [hspecial, Option.getD_some] at hrep
    simp [hcrc, accepts_special hspecial hrep]
  | none =>
    rw [Option.getD_none]
    by_cases hother : op_catagory op = .other
    · simp [hother, accepts_other]
    · obtain ⟨e, he, hext⟩ := extensions_of_get? hdata hdb hother (lookup_eq_ok.mp hexts)
      obtain ⟨hnoMem, huses⟩ := accepts_of_x86data _ e he exts hext
      rcases mem_rwx_spec hm with ⟨rfl, hmem⟩ | ⟨hne, hmem, rows, rwx, hrows, hrwx, haccess⟩
      · simp [hnoMem, hmem]
      · by_cases hcrc : op_catagory op = .crc32
        · simp [hcrc, hmem, not_accepts_crc32 _ hne]
        · obtain ⟨e', he', forms, hforms, huse⟩ :=
            mem_uses_of_get? hdata hdb hother hrows hrwx hmem haccess
          simp [hcrc, huses hcrc e' he' forms hforms m huse]

end Mix

/-! ## The laws -/

/-- The generator takes the category of an iform exactly if the iform is no crc32 with an operand
in memory. The blocks of a mix without such an iform come out without an exception. -/
theorem catagory_is_taken_iff_no_crc32_of_memory (x86insts : List X86Inst) (db : Tables)
    (hdata : FromX86Data x86insts) (hdb : tables x86insts = .ok db) :
    (∀ imix t, catagorize_imix db imix = .ok (some t) → t ∉ REP_CATAGORIES →
      ((∀ b idx (d : Draw), d.op_type = t → ∃ r, asm_inst_generator b idx d = .ok r) ↔
        ¬ Crc32OfMemory imix)) ∧
    ∀ app_imix_hist skeleton_imix_hist imix_hist ldst_hist,
      run_analysis db app_imix_hist skeleton_imix_hist = .ok (imix_hist, ldst_hist) →
      (∀ imix ∈ app_imix_hist.keys, ¬ Crc32OfMemory imix) →
      ∀ g s (d : BlockDraws), (∀ k, ∃ w ≠ 0, imix_hist.get? (d.insts k).op_type = some w) →
        ∀ message, generate_asm_block g s d ≠ .error (.exception message) := by
  constructor
  · intro imix t hcat hrep
    rw [← accepts_iff hdata hdb hcat hrep]
    exact forall_asm_inst_generator_iff t
  · intro app_imix_hist skeleton_imix_hist imix_hist ldst_hist hrun happ g s d hdraws
    refine generate_asm_block_quiet g s d fun k => ?_
    obtain ⟨w, hw, hget⟩ := hdraws k
    rcases catagory_of_weight hrun hget hw with harith | ⟨hrep, imix, himix, hcat⟩
    · rw [harith]
      rfl
    · exact (accepts_iff hdata hdb hcat hrep).mpr (happ imix himix)

/-- A crc32, an add and a conditional branch. -/
def someInsts : List X86Inst :=
  [⟨"crc32", [X .reg, R .reg_mem], ["SSE4_2"]⟩, ⟨"add", [X .reg, R .reg_mem], []⟩,
    ⟨"jnz", [.rel], []⟩]

theorem catagory_of_crc32_of_registers_is_taken : FromX86Data someInsts ∧
    ∃ db, tables someInsts = .ok db ∧
      catagorize_imix db "CRC32_GPRyy_GPR8b" = .ok (some (.op .sse .crc32 .no_mem)) ∧
      ∀ b idx (d : Draw), d.op_type = .op .sse .crc32 .no_mem →
        ∃ r, asm_inst_generator b idx d = .ok r := by
  have hdata : FromX86Data someInsts := by decide +kernel
  have hcat : (tables someInsts >>= fun db => catagorize_imix db "CRC32_GPRyy_GPR8b") =
      .ok (some (.op .sse .crc32 .no_mem)) := by decide +kernel
  obtain ⟨db, hdb, hcat⟩ := PyError.ok_of_bind hcat
  have htaken := (catagory_is_taken_iff_no_crc32_of_memory someInsts db hdata hdb).1
  refine ⟨hdata, db, hdb, hcat, (htaken _ _ hcat (by decide)).mpr ?_⟩
  rintro ⟨keywords, hform, hmem⟩
  have hwords : parse_iform "CRC32_GPRyy_GPR8b" = .ok ("crc32", ["GPRyy", "GPR8b"]) := by
    decide +kernel
  rw [hwords] at hform
  cases hform
  exact absurd hmem (by decide +kernel)

/-- A mix of the three where the crc32 reads memory. -/
def crc32Mix : ImixHist :=
  .ofList [("CRC32_GPRyy_MEMb", 1), ("ADD_GPRv_GPRv_01", 1), ("JNZ_RELBRb", 1)]

/-- The crc32 keeps half of the weight, but the generator has no template for it. -/
theorem crc32_of_memory_is_not_taken :
    FromX86Data someInsts ∧
    (tables someInsts >>= fun db => catagorize_imix db "CRC32_GPRyy_MEMb") =
      .ok (some (.op .sse .crc32 .mem_r)) ∧
    (do
      let db ← tables someInsts
      let (imix_hist, _) ← run_analysis db crc32Mix .empty
      return imix_hist.get? (.op .sse .crc32 .mem_r)) = .ok (some (1 / 2)) ∧
    ∀ b idx (d : Draw), d.op_type = .op .sse .crc32 .mem_r →
      asm_inst_generator b idx d = .error (.exception "Invalid op_type: sse.crc32.mem_r") := by
  refine ⟨by decide +kernel, by decide +kernel, by decide +kernel, ?_⟩
  rintro b idx ⟨op_type, choice, bit_mask, hard_branch_flag, randint, pointer_chase_flag⟩ rfl
  rfl

end ditto.inst_mix_analyzer
