-- The instruction mix (assembly_analysis/analyzers/inst_mix_analyzer.py and
-- the operand table of base_analyzer.py): the category of an instruction is
-- read off its iform and the tables of asmdb, and the weights of the
-- categories are what the application has on top of the skeleton.
import Ditto.Lib.PyText
import Ditto.Lib.SortedDict
import Ditto.Templates
import Mathlib.Data.Rat.Defs

namespace ditto.inst_mix_analyzer

open assembly_generator

/-! ## The tables of asmdb -/

inductive OperandType
  | reg | mem | reg_mem
deriving DecidableEq

/-- An operand in x86insts.json. The access to an immediate is not looked at. -/
inductive X86Operand
  | imm
  | rel
  | of (type : OperandType) (read write : Bool)
deriving DecidableEq

/-- An instruction in x86insts.json. -/
structure X86Inst where
  name : String
  operands : List X86Operand
  extensions : List String

/-- What an operand of an instruction is. -/
inductive Kind
  | reg | mem | imm
deriving DecidableEq

/-- How an operand is used: `r`, `w`, `x` or not given. -/
inductive Access
  | none | r | w | x
deriving DecidableEq

def X86Operand.kinds : X86Operand → List Kind
  | .imm | .rel => [.imm]
  | .of .reg _ _ => [.reg]
  | .of .mem _ _ => [.mem]
  | .of .reg_mem _ _ => [.reg, .mem]

def X86Operand.rwx : X86Operand → Except PyError Access
  | .imm | .rel => .ok .none
  | .of _ true true => .ok .x
  | .of _ true false => .ok .r
  | .of _ false true => .ok .w
  | .of _ false false => .error .valueError

/-- The model of `itertools.product(*ls)`. -/
def product {α : Type} : List (List α) → List (List α)
  | [] => [[]]
  | l :: ls => l.flatMap fun a => (product ls).map (a :: ·)

/-- The operands of one instruction name: how each list of kinds is used. -/
abbrev Rows := PyDict (List Kind) (List Access)

/-- One turn of the inner loop of `__parse_x86operands`. -/
def add_row (inst_rwx : List Access) (rows : Rows) (types : List Kind) : Except PyError Rows :=
  match rows.get? types with
  | some rwx => if rwx = inst_rwx then .ok rows else .error (.exception "AssertionError")
  | none => .ok (rows.set types inst_rwx)

/-- One turn of the loop of `__parse_x86operands` over the instructions. -/
def add_inst (x86operands : PyDict String Rows) (inst : X86Inst) :
    Except PyError (PyDict String Rows) := do
  let inst_rwx ← inst.operands.mapM X86Operand.rwx
  let rows := (x86operands.get? inst.name).getD .empty
  let rows ← (product (inst.operands.map X86Operand.kinds)).foldlM (add_row inst_rwx) rows
  return x86operands.set inst.name rows

/-- The model of `__parse_x86operands`. -/
def parse_x86operands (x86insts : List X86Inst) : Except PyError (PyDict String Rows) :=
  x86insts.foldlM add_inst .empty

/-- The tables that the analyzer reads. -/
structure Tables where
  x86operands : PyDict String Rows
  x86inst_extensions : PyDict String (List String)

/-- The tables for the instructions of x86insts.json. The last instruction of a name gives its
extensions. -/
def tables (x86insts : List X86Inst) : Except PyError Tables := do
  let x86operands ← parse_x86operands x86insts
  return {
    x86operands
    x86inst_extensions := PyDict.ofList (x86insts.map fun inst => (inst.name, inst.extensions)) }

/-! ## The categories -/

def IFORM_INST_PREFIXES : List String := ["LOCK", "REP", "REPE", "REPZ", "REPNZ", "REPNE", "REX"]

/-- The model of `w.split('_')`. -/
def split (w : String) : List String := (w.toList.splitOn '_').map String.ofList

/-- The model of `w.lower()`, for the ASCII texts of asmdb and of the mix files. -/
def lower (w : String) : String := String.ofList (w.toList.map Char.toLower)

/-- One of the texts is in a word. -/
def hasOneOf (texts : List String) (w : String) : Bool := texts.any fun text => PyText.isIn text.toList w.toList

/-- The operation of an iform, and the words for its operands. -/
def parse_iform (imix_str : String) : Except PyError (String × List String) :=
  match (split imix_str).eraseP (· ∈ IFORM_INST_PREFIXES) with
  | [] => .error .indexError
  | w :: keywords =>
    let op := lower w
    if op = "movsd" then
      match keywords with
      | [] => .error .indexError
      | _ :: keywords => .ok (op, keywords)
    else .ok (op, keywords)

/-- What a word of an iform says about an operand, if anything. -/
def operand_kind (w : String) : Option Kind :=
  if hasOneOf ["GPR", "XMM", "YMM", "OrAX", "AL", "CL"] w then some .reg
  else if hasOneOf ["MEM", "AGEN"] w then some .mem
  else if hasOneOf ["IMM", "ONE"] w then some .imm
  else none

/-- The operands of an iform, with the implicit ones at both ends. -/
def inst_operands (op : String) (keywords : List String) : List Kind :=
  (if op ∈ ["mul", "imul", "div", "idiv"] ∧ keywords.length = 1 then [.reg, .reg] else []) ++
  keywords.filterMap operand_kind ++
  (if op ∈ ["cmpxchg", "pcmpistri", "vpcmpistri"] then [.reg] else []) ++
  (if op ∈ ["xrstor", "xsavec"] then [.reg, .reg] else [])

/-- The value of a key, which raises an error if it is not there. -/
def lookup {κ ν : Type} [DecidableEq κ] (d : PyDict κ ν) (k : κ) : Except PyError ν :=
  match d.get? k with
  | none => .error .keyError
  | some v => .ok v

/-- The loop over the operands that looks for the use of the memory. -/
def mem_rwx (db : Tables) (op : String) (operands : List Kind) : Except PyError MemRwx :=
  if operands = [] then .ok .no_mem
  else do
    let rows ← lookup db.x86operands op
    if .mem ∈ operands then
      let rwx ← lookup rows operands
      match rwx[operands.idxOf .mem]? with
      | some .r => .ok .mem_r
      | some .w => .ok .mem_w
      | some .x => .ok .mem_x
      | some .none => .error (.exception "Unknown memory operand type")
      | none => .error .indexError
    else .ok .no_mem

/-- The extension of an operation, by the first one of its extensions with a name for it. -/
def op_ext : List String → Ext
  | [] => .base
  | ext :: exts =>
    let ext := lower ext
    if PyText.isIn "sse".toList ext.toList then .sse
    else if PyText.isIn "avx".toList ext.toList then .avx
    else op_ext exts

def op_catagory (op : String) : Catagory :=
  if op ∈ ["mov", "movsx", "movzx", "push", "pop", "movaps", "movdqu", "movsxd", "movups", "movsq",
    "stosq", "vmovdqa", "vmovdqu"]
  then .mov_uncond
  else if "cmov".toList.isPrefixOf op.toList ∨ "set".toList.isPrefixOf op.toList then .mov_cond
  else if op ∈ ["ja", "jae", "jb", "jbe", "jc", "je", "jg", "jge", "jl", "jle", "jna", "jnae",
    "jnb", "jnbe", "jnc", "jne", "jng", "jnge", "jnl", "jnle", "jno", "jnp", "jns", "jnz", "jo",
    "jp", "jpe", "jpo", "js", "jz"] then .branch_cond
  else if op ∈ ["jmp"] then .branch_uncond
  else if op ∈ ["add", "adc", "xadd", "inc", "dec", "cmp", "neg", "sub", "and", "andn", "or",
    "shl", "shr", "sal", "sar", "xor", "pxor", "not", "rcl", "rcr", "rol", "ror", "abs", "test",
    "sbb", "lea", "nop"] then .arith_int
  else if op ∈ ["mul", "imul"] then .mul_int
  else if op ∈ ["div", "idiv"] then .div_int
  else if op ∈ ["fadd", "fsub", "fucom", "fisub", "fiadd", "addpd", "addsd", "addps", "addss",
    "subpd", "subsd", "subps", "subss", "addsubpd", "addsubps"] then .arith_fp
  else if op ∈ ["fmul", "fmulp", "fimul", "mulpd", "mulsd", "mulps", "mulss"] then .mul_fp
  else if op ∈ ["fdiv", "fdivp", "fidiv", "divpd", "divsd", "divps", "divss"] then .div_fp
  else if op ∈ ["crc32"] then .crc32
  else .other

/-- The operations with a category of their own. -/
def special_catagory (op : String) : Option OpType :=
  if op = "call" then some .func_call
  else if op = "ret" then some .func_ret
  else if op = "push" then some (.op .base .mov_uncond .mem_w)
  else if op = "pop" then some (.op .base .mov_uncond .mem_r)
  else if op ∈ ["movsb", "movsq"] then some .rep_movs
  else if op ∈ ["lodsb", "lodsq"] then some .rep_lods
  else if op ∈ ["stosb", "stosq"] then some .rep_stos
  else none

/-- The model of `__catagorize_imix`. -/
def catagorize_imix (db : Tables) (imix_str : String) : Except PyError (Option OpType) :=
  if imix_str.toList.head? = some '*' then .ok none
  else do
    let (op, keywords) ← parse_iform imix_str
    let mem ← mem_rwx db op (inst_operands op keywords)
    let exts ← lookup db.x86inst_extensions op
    return some ((special_catagory op).getD (.op (op_ext exts) (op_catagory op) mem))

/-! ## The weights -/

inductive Ldst
  | load | store
deriving DecidableEq

/-- The model of `__catagorize_ldst`. -/
def catagorize_ldst (imix : String) : Option Ldst :=
  if imix = "*mem-read" then some .load
  else if imix = "*mem-write" then some .store
  else none

/-- The counts of the iforms of a mix file. -/
abbrev ImixHist := PyDict String ℕ

section Hist

variable {κ : Type} [DecidableEq κ] (catagorize : String → Except PyError (Option κ))

/-- One turn of a loop over `app_imix_hist`. -/
def add_app (hist : PyDict κ ℚ) (imix : String × ℕ) : Except PyError (PyDict κ ℚ) := do
  match ← catagorize imix.1 with
  | none => return hist
  | some catagory => return hist.set catagory ((hist.get? catagory).getD 0 + imix.2)

/-- One turn of a loop over `skeleton_imix_hist`. It leaves out what the application does not
have, or raises an error there. -/
def sub_skeleton (absent : PyDict κ ℚ → Except PyError (PyDict κ ℚ)) (hist : PyDict κ ℚ)
    (imix : String × ℕ) : Except PyError (PyDict κ ℚ) := do
  match ← catagorize imix.1 with
  | none => return hist
  | some catagory =>
    match hist.get? catagory with
    | none => absent hist
    | some count => return hist.set catagory (max 0 (count - imix.2))

/-- The weights of a histogram, with all the weight on one key if nothing is left. -/
def normalize (hist : PyDict κ ℚ) (catagory : κ) : PyDict κ ℚ :=
  let total := hist.values.sum
  if total ≠ 0 then hist.mapVal fun _ weight => weight / total else hist.set catagory 1

end Hist

def ARITH : OpType := .op .base .arith_int .no_mem

def BRANCH : OpType := .op .base .branch_cond .no_mem

/-- The categories that are not considered. -/
def REP_CATAGORIES : List OpType := [.rep_movs, .rep_lods, .rep_stos]

/-- What `run_analysis` does to the categories before it takes the weights. -/
def adjust (hist : PyDict OpType ℚ) : Except PyError (PyDict OpType ℚ) := do
  let arith ← lookup hist ARITH
  let branch ← lookup hist BRANCH
  -- Every conditional branch of the generator has a test.
  let hist := hist.set ARITH (max 0 (arith - branch))
  return REP_CATAGORIES.foldl (fun hist catagory => hist.set catagory 0) hist

/-- The model of `run_analysis`. -/
def run_analysis (db : Tables) (app_imix_hist skeleton_imix_hist : ImixHist) :
    Except PyError (PyDict OpType ℚ × PyDict Ldst ℚ) := do
  let hist ← app_imix_hist.entries.foldlM (add_app (catagorize_imix db)) .empty
  let hist ← skeleton_imix_hist.entries.foldlM (sub_skeleton (catagorize_imix db) .ok) hist
  let ldst imix := .ok (catagorize_ldst imix)
  let ldst_hist ← app_imix_hist.entries.foldlM (add_app ldst) .empty
  let ldst_hist ← skeleton_imix_hist.entries.foldlM
    (sub_skeleton ldst fun _ => .error .keyError) ldst_hist
  let hist ← adjust hist
  return (normalize hist ARITH, normalize ldst_hist .load)

/-! ## What the tables hold -/

theorem lookup_eq_ok {κ ν : Type} [DecidableEq κ] {d : PyDict κ ν} {k : κ} {v : ν} :
    lookup d k = .ok v ↔ d.get? k = some v := by
  unfold lookup
  cases d.get? k with
  | none => simp
  | some u => simp

/-- A row of the operand table comes from an instruction with the name. -/
def HasSource (x86insts : List X86Inst) (op : String) (types : List Kind)
    (rwx : List Access) : Prop :=
  ∃ inst ∈ x86insts, inst.name = op ∧ types ∈ product (inst.operands.map X86Operand.kinds) ∧
    inst.operands.mapM X86Operand.rwx = .ok rwx

theorem get?_of_add_row {inst_rwx : List Access} {rows rows' : Rows} {types x : List Kind}
    {rwx : List Access} (h : add_row inst_rwx rows types = .ok rows')
    (hget : rows'.get? x = some rwx) : rows.get? x = some rwx ∨ x = types ∧ rwx = inst_rwx := by
  unfold add_row at h
  split at h
  · split at h
    · cases h
      exact .inl hget
    · cases h
  · cases h
    rw [PyDict.get?_eq_some_iff] at hget ⊢
    exact (PyDict.mem_entries_set hget).symm

theorem hasSource_of_parse {x86insts : List X86Inst} {x86operands : PyDict String Rows}
    (h : parse_x86operands x86insts = .ok x86operands) :
    ∀ op rows, x86operands.get? op = some rows → ∀ types rwx, rows.get? types = some rwx →
      HasSource x86insts op types rwx := by
  refine PyError.foldlM_inv (P := fun d => ∀ op rows, d.get? op = some rows →
    ∀ types rwx, rows.get? types = some rwx → HasSource x86insts op types rwx)
    (fun d inst hinst d' hd hadd => ?_) (fun op rows hget => ?_) h
  · unfold add_inst at hadd
    obtain ⟨inst_rwx, hrwx, hadd⟩ := PyError.ok_of_bind hadd
    obtain ⟨rows', hrows', hadd⟩ := PyError.ok_of_bind hadd
    cases hadd
    intro op rows hget
    by_cases hop : op = inst.name
    · subst hop
      rw [PyDict.get?_set_self, Option.some.injEq] at hget
      subst hget
      refine PyError.foldlM_inv (P := fun rows : Rows => ∀ types rwx, rows.get? types = some rwx →
        HasSource x86insts inst.name types rwx)
        (fun rows types htypes rows' hrows hrow x rwx hx => ?_) ?_ hrows'
      · rcases get?_of_add_row hrow hx with hold | ⟨rfl, rfl⟩
        · exact hrows x rwx hold
        · exact ⟨inst, hinst, rfl, htypes, hrwx⟩
      · intro types rwx hold
        cases hname : d.get? inst.name with
        | none =>
          rw [hname] at hold
          cases hold
        | some rows =>
          rw [hname] at hold
          exact hd inst.name rows hname types rwx hold
    · rw [PyDict.get?_set_of_ne _ _ hop] at hget
      exact hd op rows hget
  · cases hget

theorem exists_inst_of_extensions {x86insts : List X86Inst} {op : String}
    {exts : List String}
    (h : (PyDict.ofList (x86insts.map fun inst => (inst.name, inst.extensions))).get? op =
      some exts) : ∃ inst ∈ x86insts, inst.name = op ∧ inst.extensions = exts := by
  have hentry := PyDict.mem_of_mem_entries_ofList (PyDict.get?_eq_some_iff.mp h)
  obtain ⟨inst, hinst, heq⟩ := List.mem_map.mp hentry
  cases heq
  exact ⟨inst, hinst, rfl, rfl⟩

/-! ## What the operands say -/

def Access.mem_rwx : Access → Option MemRwx
  | .none => Option.none
  | .r => some .mem_r
  | .w => some .mem_w
  | .x => some .mem_x

theorem mem_mem_inst_operands (op : String) (keywords : List String) :
    .mem ∈ inst_operands op keywords ↔ ∃ w ∈ keywords, operand_kind w = some .mem := by
  have himplicit {p : Prop} [Decidable p] (l : List Kind) (hl : .mem ∉ l) :
      Kind.mem ∉ (if p then l else []) := by
    split
    · exact hl
    · simp
  simp only [inst_operands, List.mem_append, List.mem_filterMap]
  have hfirst := himplicit (p := op ∈ ["mul", "imul", "div", "idiv"] ∧ keywords.length = 1)
    [.reg, .reg] (by simp)
  have hlast := himplicit (p := op ∈ ["cmpxchg", "pcmpistri", "vpcmpistri"]) [.reg] (by simp)
  have hlast' := himplicit (p := op ∈ ["xrstor", "xsavec"]) [.reg, .reg] (by simp)
  simp only [hfirst, hlast, hlast', false_or, or_false]

/-- The memory is used exactly if an operand is in it. -/
theorem mem_rwx_spec {db : Tables} {op : String} {operands : List Kind} {m : MemRwx}
    (h : mem_rwx db op operands = .ok m) :
    (m = .no_mem ∧ .mem ∉ operands) ∨
      (m ≠ .no_mem ∧ .mem ∈ operands ∧ ∃ rows rwx, db.x86operands.get? op = some rows ∧
        rows.get? operands = some rwx ∧
        rwx[operands.idxOf .mem]?.bind Access.mem_rwx = some m) := by
  unfold mem_rwx at h
  split at h
  · rename_i hnil
    cases h
    exact .inl ⟨rfl, by simp [hnil]⟩
  · obtain ⟨rows, hrows, h⟩ := PyError.ok_of_bind h
    split at h
    · rename_i hmem
      obtain ⟨rwx, hrwx, h⟩ := PyError.ok_of_bind h
      refine .inr ⟨?_, hmem, rows, rwx, lookup_eq_ok.mp hrows, lookup_eq_ok.mp hrwx, ?_⟩
      · split at h <;> cases h <;> simp
      · split at h <;> rename_i haccess <;> cases h <;> simp [haccess, Access.mem_rwx]
    · rename_i hmem
      cases h
      exact .inl ⟨rfl, hmem⟩

/-! ## Where the weights come from -/

section Hist

variable {κ : Type} [DecidableEq κ] {catagorize : String → Except PyError (Option κ)}

/-- The keys of a histogram are categories of the application. -/
theorem exists_of_mem_keys_add_app {l : List (String × ℕ)} {hist : PyDict κ ℚ}
    (h : l.foldlM (add_app catagorize) .empty = .ok hist) :
    ∀ c ∈ hist.keys, ∃ imix ∈ l, catagorize imix.1 = .ok (some c) := by
  refine PyError.foldlM_inv (P := fun hist : PyDict κ ℚ =>
    ∀ c ∈ hist.keys, ∃ imix ∈ l, catagorize imix.1 = .ok (some c))
    (fun hist imix himix hist' hkeys hadd => ?_) (by simp) h
  obtain ⟨o, ho, hadd⟩ := PyError.ok_of_bind hadd
  cases o with
  | none =>
    cases hadd
    exact hkeys
  | some catagory =>
    cases hadd
    intro c hc
    rcases PyDict.mem_keys_set.mp hc with rfl | hold
    · exact ⟨imix, himix, ho⟩
    · exact hkeys c hold

/-- The skeleton adds no key. -/
theorem keys_sub_skeleton {l : List (String × ℕ)} {hist hist' : PyDict κ ℚ}
    (h : l.foldlM (sub_skeleton catagorize .ok) hist = .ok hist') :
    ∀ c ∈ hist'.keys, c ∈ hist.keys := by
  refine PyError.foldlM_inv (P := fun d : PyDict κ ℚ => ∀ c ∈ d.keys, c ∈ hist.keys)
    (fun d imix _ d' hkeys hsub => ?_) (fun c hc => hc) h
  obtain ⟨o, ho, hsub⟩ := PyError.ok_of_bind hsub
  cases o with
  | none =>
    cases hsub
    exact hkeys
  | some catagory =>
    simp only at hsub
    split at hsub
    · cases hsub
      exact hkeys
    · rename_i count hget
      cases hsub
      intro c hc
      rcases PyDict.mem_keys_set.mp hc with rfl | hold
      · exact hkeys c (PyDict.mem_keys_of_get? hget)
      · exact hkeys c hold

theorem get?_foldl_set (l : List κ) (v : ℚ) (hist : PyDict κ ℚ) (c : κ) :
    (l.foldl (fun hist catagory => hist.set catagory v) hist).get? c =
      if c ∈ l then some v else hist.get? c := by
  induction l generalizing hist with
  | nil => rfl
  | cons x l ih =>
    rw [List.foldl_cons, ih]
    by_cases hl : c ∈ l
    · simp [hl]
    · by_cases hx : c = x
      · subst hx
        simp [hl]
      · simp [hl, hx, PyDict.get?_set_of_ne]

/-- A key with a weight had one before, or all of the weight went to it. -/
theorem get?_of_normalize {hist : PyDict κ ℚ} {catagory c : κ} {w : ℚ}
    (h : (normalize hist catagory).get? c = some w) (hw : w ≠ 0) :
    c = catagory ∨ ∃ w' ≠ 0, hist.get? c = some w' := by
  unfold normalize at h
  simp only at h
  split at h
  · rw [PyDict.get?_mapVal] at h
    cases hget : hist.get? c with
    | none => simp [hget] at h
    | some w' =>
      refine .inr ⟨w', ?_, rfl⟩
      rintro rfl
      simp only [hget, Option.map_some, zero_div, Option.some.injEq] at h
      exact hw h.symm
  · by_cases hc : c = catagory
    · exact .inl hc
    · rw [PyDict.get?_set_of_ne _ _ hc] at h
      exact .inr ⟨w, hw, h⟩

end Hist

/-- A category with a weight is one of the application's that is considered, or it has all of
the weight. -/
theorem catagory_of_weight {db : Tables} {app_imix_hist skeleton_imix_hist : ImixHist}
    {imix_hist : PyDict OpType ℚ} {ldst_hist : PyDict Ldst ℚ}
    (h : run_analysis db app_imix_hist skeleton_imix_hist = .ok (imix_hist, ldst_hist))
    {t : OpType} {w : ℚ} (hget : imix_hist.get? t = some w) (hw : w ≠ 0) :
    t = ARITH ∨ t ∉ REP_CATAGORIES ∧
      ∃ imix ∈ app_imix_hist.keys, catagorize_imix db imix = .ok (some t) := by
  unfold run_analysis at h
  obtain ⟨app, happ, h⟩ := PyError.ok_of_bind h
  obtain ⟨hist, hsub, h⟩ := PyError.ok_of_bind h
  obtain ⟨_, -, h⟩ := PyError.ok_of_bind h
  obtain ⟨_, -, h⟩ := PyError.ok_of_bind h
  obtain ⟨adjusted, hadjust, h⟩ := PyError.ok_of_bind h
  cases h
  rcases get?_of_normalize hget hw with rfl | ⟨w', hw', hget'⟩
  · exact .inl rfl
  unfold adjust at hadjust
  obtain ⟨_, -, hadjust⟩ := PyError.ok_of_bind hadjust
  obtain ⟨_, -, hadjust⟩ := PyError.ok_of_bind hadjust
  cases hadjust
  rw [get?_foldl_set] at hget'
  split at hget'
  · cases hget'
    exact absurd rfl hw'
  rename_i hrep
  by_cases harith : t = ARITH
  · exact .inl harith
  rw [PyDict.get?_set_of_ne _ _ harith] at hget'
  have hkey := keys_sub_skeleton hsub t (PyDict.mem_keys_of_get? hget')
  obtain ⟨imix, himix, hcat⟩ := exists_of_mem_keys_add_app happ t hkey
  exact .inr ⟨hrep, imix.1, List.mem_map_of_mem himix, hcat⟩

end ditto.inst_mix_analyzer
