-- The instruction counts of a profile (`InstructionAnalyzer`): sums over the
-- blocks of the application without the sums over the blocks of the skeleton.
-- One of the sums over the skeleton weighs its blocks in another way.
import Ditto.BlockListing

namespace ditto.instruction_analyzer

open base_analyzer

/-! ## The analyzer -/

structure InstructionAnalyzer where
  total_reqs : ℤ
  app_dcfg : Dcfg
  skeleton_dcfg : Dcfg
  app_basic_blocks : PyDict ℕ BasicBlock

/-- The sums that both loops make. -/
structure Sums where
  num_static_insts : ℤ := 0
  num_dynamic_insts : ℤ := 0
  static_inst_size : ℤ := 0
  dynamic_inst_size : ℤ := 0

/-- The counts of the repeated instructions. -/
structure RepSums where
  num_rep_static_insts : ℤ := 0
  num_rep_dynamic_insts : ℤ := 0

/-- The first instruction of a block. -/
def first_inst (basic_blocks : PyDict ℕ BasicBlock) (bb : ℕ) : Except PyError Inst :=
  match basic_blocks.get? bb with
  | none => .error .keyError
  | some block =>
    match block.insts with
    | [] => .error .indexError
    | inst :: _ => .ok inst

/-- One turn of the loop over the blocks of the application. -/
def app_turn (a : InstructionAnalyzer) (sums : Sums × RepSums) (node : ℕ × BlockInfo) :
    Except PyError (Sums × RepSums) := do
  let total : Sums := {
    num_static_insts := sums.1.num_static_insts + node.2.insts
    num_dynamic_insts := sums.1.num_dynamic_insts + node.2.insts * node.2.executions
    static_inst_size := sums.1.static_inst_size + node.2.size
    dynamic_inst_size := sums.1.dynamic_inst_size + node.2.size * node.2.executions }
  let first ← first_inst a.app_basic_blocks node.1
  if "rep".toList.isPrefixOf first.inst.toList then
    -- A repeated instruction is a loop on its own block.
    let in_edges := (a.app_dcfg.in_edges node.1).filter fun edge => edge.1.1 ≠ node.1
    let in_edge_executions := (in_edges.map fun edge => edge.2.executions).sum
    return (total, {
      num_rep_static_insts := sums.2.num_rep_static_insts + in_edge_executions
      num_rep_dynamic_insts := sums.2.num_rep_dynamic_insts + node.2.executions })
  else return (total, sums.2)

/-- One turn of the loop over the blocks of the skeleton. Its dynamic instructions are counted
with the size of the block. -/
def skeleton_turn (sums : Sums) (node : ℕ × BlockInfo) : Sums where
  num_static_insts := sums.num_static_insts + node.2.insts
  num_dynamic_insts := sums.num_dynamic_insts + node.2.size * node.2.executions
  static_inst_size := sums.static_inst_size + node.2.size
  dynamic_inst_size := sums.dynamic_inst_size + node.2.size * node.2.executions

structure InstStats where
  num_static_insts : ℤ
  num_dynamic_insts : ℤ
  num_dynamic_insts_per_request : ℤ
  mean_static_inst_size : ℚ
  rep_num_static_insts : ℤ
  rep_num_dynamic_insts : ℤ
  rep_num_dynamic_insts_per_request : ℤ
deriving DecidableEq

def run_analysis (a : InstructionAnalyzer) : Except PyError InstStats := do
  let (app, rep) ← a.app_dcfg.nodes.entries.foldlM (app_turn a) ({}, {})
  let skeleton := a.skeleton_dcfg.nodes.entries.foldl skeleton_turn {}
  let num_static_insts := app.num_static_insts - skeleton.num_static_insts
  let mean_static_inst_size ←
    PyError.div (app.static_inst_size - skeleton.static_inst_size : ℤ) num_static_insts
  let num_dynamic_insts := app.num_dynamic_insts - skeleton.num_dynamic_insts
  let per_request ← PyError.div num_dynamic_insts a.total_reqs
  let rep_per_request ← PyError.div rep.num_rep_dynamic_insts a.total_reqs
  return {
    num_static_insts
    num_dynamic_insts
    num_dynamic_insts_per_request := truncate per_request
    mean_static_inst_size
    rep_num_static_insts := rep.num_rep_static_insts
    rep_num_dynamic_insts := rep.num_rep_dynamic_insts
    rep_num_dynamic_insts_per_request := truncate rep_per_request }

/-! ## Measures of a graph -/

section Measures

variable (g : Dcfg)

def static_insts : ℤ := (g.nodes.entries.map fun node => node.2.insts).sum

def dynamic_insts : ℤ :=
  (g.nodes.entries.map fun node => node.2.insts * (node.2.executions : ℤ)).sum

def static_size : ℤ := (g.nodes.entries.map fun node => (node.2.size : ℤ)).sum

def dynamic_size : ℤ :=
  (g.nodes.entries.map fun node => (node.2.size : ℤ) * (node.2.executions : ℤ)).sum

end Measures

theorem app_turn_sums {a : InstructionAnalyzer} {sums sums' : Sums × RepSums}
    {node : ℕ × BlockInfo} (h : app_turn a sums node = .ok sums') :
    sums'.1.num_static_insts = sums.1.num_static_insts + node.2.insts ∧
      sums'.1.num_dynamic_insts = sums.1.num_dynamic_insts + node.2.insts * node.2.executions ∧
      sums'.1.static_inst_size = sums.1.static_inst_size + node.2.size := by
  unfold app_turn at h
  obtain ⟨first, -, h⟩ := PyError.ok_of_bind h
  split at h
  · cases h
    exact ⟨rfl, rfl, rfl⟩
  · cases h
    exact ⟨rfl, rfl, rfl⟩

theorem app_loop_sums {a : InstructionAnalyzer} {nodes : List (ℕ × BlockInfo)}
    {sums sums' : Sums × RepSums} (h : nodes.foldlM (app_turn a) sums = .ok sums') :
    sums'.1.num_static_insts =
        sums.1.num_static_insts + (nodes.map fun node => node.2.insts).sum ∧
      sums'.1.num_dynamic_insts = sums.1.num_dynamic_insts +
        (nodes.map fun node => node.2.insts * (node.2.executions : ℤ)).sum ∧
      sums'.1.static_inst_size =
        sums.1.static_inst_size + (nodes.map fun node => (node.2.size : ℤ)).sum := by
  induction nodes generalizing sums with
  | nil =>
    cases h
    simp
  | cons node nodes ih =>
    rw [List.foldlM_cons] at h
    obtain ⟨mid, hmid, h⟩ := PyError.ok_of_bind h
    obtain ⟨hstatic, hdynamic, hsize⟩ := app_turn_sums hmid
    simp only [ih h, hstatic, hdynamic, hsize, List.map_cons, List.sum_cons, add_assoc, and_self]

theorem skeleton_loop_sums (nodes : List (ℕ × BlockInfo)) (sums : Sums) :
    (nodes.foldl skeleton_turn sums).num_static_insts =
        sums.num_static_insts + (nodes.map fun node => node.2.insts).sum ∧
      (nodes.foldl skeleton_turn sums).num_dynamic_insts = sums.num_dynamic_insts +
        (nodes.map fun node => (node.2.size : ℤ) * (node.2.executions : ℤ)).sum ∧
      (nodes.foldl skeleton_turn sums).static_inst_size =
        sums.static_inst_size + (nodes.map fun node => (node.2.size : ℤ)).sum := by
  induction nodes generalizing sums with
  | nil => simp
  | cons node nodes ih =>
    simp only [List.foldl_cons, ih, skeleton_turn, List.map_cons, List.sum_cons, add_assoc,
      and_self]

/-- What a run returns, in terms of the measures of the two graphs. -/
theorem run_analysis_ok {a : InstructionAnalyzer} {r : InstStats} (h : run_analysis a = .ok r) :
    r.num_static_insts = static_insts a.app_dcfg - static_insts a.skeleton_dcfg ∧
      r.num_dynamic_insts = dynamic_insts a.app_dcfg - dynamic_size a.skeleton_dcfg ∧
      static_insts a.app_dcfg - static_insts a.skeleton_dcfg ≠ 0 ∧
      r.mean_static_inst_size =
        ((static_size a.app_dcfg - static_size a.skeleton_dcfg : ℤ) : ℚ) /
          (static_insts a.app_dcfg - static_insts a.skeleton_dcfg : ℤ) := by
  unfold run_analysis at h
  obtain ⟨⟨app, rep⟩, happ, h⟩ := PyError.ok_of_bind h
  obtain ⟨mean, hmean, h⟩ := PyError.ok_of_bind h
  obtain ⟨per_request, -, h⟩ := PyError.ok_of_bind h
  obtain ⟨rep_per_request, -, h⟩ := PyError.ok_of_bind h
  cases h
  obtain ⟨hstatic, hdynamic, hsize⟩ := app_loop_sums happ
  obtain ⟨hstatic', hdynamic', hsize'⟩ := skeleton_loop_sums a.skeleton_dcfg.nodes.entries {}
  simp only [zero_add] at hstatic hdynamic hsize hstatic' hdynamic' hsize'
  obtain ⟨hne, hquotient⟩ := PyError.div_eq_ok.mp hmean
  simp only [hstatic, hstatic', hsize, hsize'] at hne hquotient
  refine ⟨?_, ?_, Int.cast_ne_zero.mp hne, hquotient⟩
  · rw [hstatic, hstatic']
    rfl
  · rw [hdynamic, hdynamic']
    rfl

/-! ## The laws -/

/-- The static counts and both parts of the mean size are differences of one measure of the two
graphs. The dynamic count is one exactly if the instructions of the skeleton that are executed are
as many as their bytes, and it changes its sign with the graphs exactly if this holds of the two
graphs together. Graphs with the same static count give no result. -/
theorem counts_are_differences_iff (a : InstructionAnalyzer) (r : InstStats)
    (h : run_analysis a = .ok r) :
    r.num_static_insts = static_insts a.app_dcfg - static_insts a.skeleton_dcfg ∧
    (∃ size insts : ℤ, r.mean_static_inst_size = (size : ℚ) / insts ∧
      size = static_size a.app_dcfg - static_size a.skeleton_dcfg ∧
      insts = static_insts a.app_dcfg - static_insts a.skeleton_dcfg) ∧
    (r.num_dynamic_insts = dynamic_insts a.app_dcfg - dynamic_insts a.skeleton_dcfg ↔
      dynamic_size a.skeleton_dcfg = dynamic_insts a.skeleton_dcfg) ∧
    (∀ a' r', a'.app_dcfg = a.skeleton_dcfg → a'.skeleton_dcfg = a.app_dcfg →
      run_analysis a' = .ok r' → r'.num_static_insts = -r.num_static_insts ∧
      (r'.num_dynamic_insts = -r.num_dynamic_insts ↔
        dynamic_size a.app_dcfg + dynamic_size a.skeleton_dcfg =
          dynamic_insts a.app_dcfg + dynamic_insts a.skeleton_dcfg)) ∧
    static_insts a.app_dcfg ≠ static_insts a.skeleton_dcfg := by
  obtain ⟨hstatic, hdynamic, hne, hmean⟩ := run_analysis_ok h
  refine ⟨hstatic, ⟨_, _, hmean, rfl, rfl⟩, ?_, ?_, sub_ne_zero.mp hne⟩
  · rw [hdynamic]
    omega
  · intro a' r' happ hskeleton h'
    obtain ⟨hstatic', hdynamic', -, -⟩ := run_analysis_ok h'
    rw [happ, hskeleton] at hstatic' hdynamic'
    refine ⟨by omega, ?_⟩
    rw [hdynamic, hdynamic']
    omega

/-- A graph of one block that is executed once. -/
def oneBlock (insts : ℤ) (size : ℕ) : Dcfg :=
  DiGraph.empty.add_node 7 ⟨"10", "10", 1, size, insts, 7⟩

def analyzerOf (app skeleton : Dcfg) : InstructionAnalyzer where
  total_reqs := 1
  app_dcfg := app
  skeleton_dcfg := skeleton
  app_basic_blocks := PyDict.empty.set 7 ⟨"10", [⟨"10", "nop"⟩]⟩

theorem counts_are_differences_for_one_byte_instructions : ∃ r,
    run_analysis (analyzerOf (oneBlock 3 9) (oneBlock 2 2)) = .ok r ∧ r.num_dynamic_insts = 1 ∧
      dynamic_insts (oneBlock 3 9) - dynamic_insts (oneBlock 2 2) = 1 := by
  have hrun : run_analysis (analyzerOf (oneBlock 3 9) (oneBlock 2 2)) =
      .ok ⟨1, 1, 1, 7, 0, 0, 0⟩ := by decide +kernel
  obtain ⟨-, -, hiff, -⟩ := counts_are_differences_iff _ _ hrun
  have hdiff : dynamic_insts (oneBlock 3 9) - dynamic_insts (oneBlock 2 2) = 1 := by decide +kernel
  exact ⟨_, hrun, (hiff.mpr (by decide +kernel)).trans hdiff, hdiff⟩

/-- No measure of a graph gives the dynamic counts: one instruction of four bytes without two of
them leaves -7, and the exchange leaves -2. With the same graph on both sides the mean size is
divided by zero. -/
theorem no_measure_gives_the_dynamic_counts :
    (¬ ∃ f : Dcfg → ℤ, ∀ a r, run_analysis a = .ok r →
      r.num_dynamic_insts = f a.app_dcfg - f a.skeleton_dcfg) ∧
    run_analysis (analyzerOf (oneBlock 1 4) (oneBlock 1 4)) = .error .zeroDivisionError := by
  refine ⟨?_, by decide +kernel⟩
  rintro ⟨f, hf⟩
  have hrun : run_analysis (analyzerOf (oneBlock 1 4) (oneBlock 2 8)) =
      .ok ⟨-1, -7, -7, 4, 0, 0, 0⟩ := by decide +kernel
  have hrun' : run_analysis (analyzerOf (oneBlock 2 8) (oneBlock 1 4)) =
      .ok ⟨1, -2, -2, 4, 0, 0, 0⟩ := by decide +kernel
  have hleft : -7 = f (oneBlock 1 4) - f (oneBlock 2 8) := hf _ _ hrun
  have hright : -2 = f (oneBlock 2 8) - f (oneBlock 1 4) := hf _ _ hrun'
  omega

end ditto.instruction_analyzer
