-- The outcomes of branches in the traces of the threads. The trace law: the
-- profile is that of the traces of all selected threads just if the threads
-- other than 0, whose files are not found, have no outcome to lose, the last
-- pair of thread 0 has none, and each block of its other pairs has one.
import Ditto.Dcfg
import Ditto.Lib.Neighbours
import Ditto.Lib.PyText
import Mathlib.Algebra.Order.BigOperators.Group.List
import Mathlib.Algebra.Order.Field.Basic
import Mathlib.Data.List.Flatten
import Mathlib.Data.List.Induction
import Mathlib.Data.Rat.Cast.Order

open Neighbours

namespace ditto.base_analyzer

/-! ## The trace files -/

/-- The digits that the pattern `(?<=tid)([0-9]+)` matches between two parts of a text. -/
def tid_at (before after : List Char) : Option (List Char) :=
  let digits := after.takeWhile Char.isDigit
  if "tid".toList <:+ before ∧ digits ≠ [] then some digits else none

/-- The first match anywhere behind the first part of a text. -/
def first_tid (before : List Char) : List Char → Option (List Char)
  | [] => tid_at before []
  | c :: after => (tid_at before (c :: after)).or (first_tid (before ++ [c]) after)

/-- A file of the walk, with its name and its lines. `re.match` looks at the start of the name
only. -/
def itrace_file (itraces : PyDict ℕ (List (List Char))) (file : List Char × List (List Char)) :
    Except PyError (PyDict ℕ (List (List Char))) := do
  let itraces ←
    if "sde-itrace-out".toList <+: file.1 ∧ (tid_at [] file.1).isSome then
      match first_tid [] file.1 with
      | some digits => do return itraces.set (← PyText.natural digits) file.2
      | none => .error .indexError
    else .ok itraces
  return if file.1 = "sde-itrace-out.txt".toList then itraces.set 0 file.2 else itraces

def itrace (tids : List ℕ) (files : List (List Char × List (List Char))) :
    Except PyError (PyDict ℕ (List (List Char))) := do
  let itraces ← files.foldlM itrace_file .empty
  return itraces.filter fun k _ => k ∈ tids

theorem tid_at_start (name : List Char) : tid_at [] name = none := by
  unfold tid_at
  rw [if_neg]
  rintro ⟨hsuffix, -⟩
  exact absurd (List.suffix_nil.mp hsuffix) (by decide)

theorem itrace_file_eq (itraces : PyDict ℕ (List (List Char)))
    (file : List Char × List (List Char)) :
    itrace_file itraces file =
      .ok (if file.1 = "sde-itrace-out.txt".toList then itraces.set 0 file.2 else itraces) := by
  unfold itrace_file
  rw [if_neg]
  · rfl
  · rw [tid_at_start]
    simp

/-- The files of a traced process, one for each thread. -/
def trace_files (name : ℕ → List Char) (traces : PyDict ℕ (List (List Char))) :
    List (List Char × List (List Char)) :=
  traces.entries.map fun e => (name e.1, e.2)

/-- What the tracer is taken to name its files: the thread 0 gets no suffix, the others do. -/
structure ThreadNames (name : ℕ → List Char) : Prop where
  zero : name 0 = "sde-itrace-out.txt".toList
  suffixed : ∀ tid, tid ≠ 0 → name tid ≠ "sde-itrace-out.txt".toList

/-- Of the selected threads only the thread 0 gets its trace. The pattern for the other files
looks for `tid` before the start of the name. -/
theorem itrace_trace_files {name : ℕ → List Char} (hname : ThreadNames name) (tids : List ℕ)
    (traces : PyDict ℕ (List (List Char))) :
    itrace tids (trace_files name traces) =
      .ok (traces.filter fun tid _ => tid = 0 ∧ tid ∈ tids) := by
  have hloop : ∀ (es : List (ℕ × List (List Char))) (acc : PyDict ℕ (List (List Char))),
      (es.map fun e => (name e.1, e.2)).foldlM itrace_file acc =
        .ok (acc.setAll (es.filter fun e => e.1 = 0)) := by
    intro es
    induction es with
    | nil => exact fun acc => rfl
    | cons e es ih =>
      intro acc
      rw [List.map_cons, List.foldlM_cons, itrace_file_eq]
      change List.foldlM itrace_file (if name e.1 = _ then _ else _) _ = _
      by_cases he : e.1 = 0
      · rw [if_pos (by rw [he, hname.zero]), ih, List.filter_cons_of_pos (by simpa using he)]
        change _ = Except.ok ((acc.set e.1 e.2).setAll _)
        rw [he]
      · rw [if_neg (hname.suffixed e.1 he), ih, List.filter_cons_of_neg (by simpa using he)]
  have hentries : (PyDict.empty.setAll (traces.entries.filter fun e => e.1 = 0)).entries =
      traces.entries.filter fun e => e.1 = 0 :=
    PyDict.entries_setAll (traces.nodup.sublist (List.filter_sublist.map Prod.fst))
  unfold itrace trace_files
  rw [hloop]
  change Except.ok (PyDict.filter _ _) = _
  unfold PyDict.filter
  simp only [hentries, List.filter_filter]
  congr 2
  apply List.filter_congr
  intro e _
  simp [and_comm]

end ditto.base_analyzer

namespace ditto.branch_analyzer

open ditto.base_analyzer

/-! ## Outcomes -/

def conditional_types : List String := ["DIRECT_CONDITIONAL_BRANCH", "INDIRECT_CONDITIONAL_BRANCH"]

inductive Outcome where
  | T
  | NT
deriving DecidableEq

/-- What a step from a block to the next one says of the branch. -/
def outcome (dcfg : Dcfg) (p : ℕ × ℕ) : Option Outcome :=
  match dcfg.edges.get? p with
  | some e =>
    if e.type ∈ conditional_types then some .T
    else if e.type ∈ ["FALL_THROUGH"] then some .NT
    else none
  | none => some .NT

/-- The loop of `count_transitions_helper`. -/
def count_transitions_loop : Outcome → List Outcome → ℕ → ℕ
  | _, [], transition_count => transition_count
  | prev_state, state :: rest, transition_count =>
    if state ≠ prev_state then count_transitions_loop state rest (transition_count + 1)
    else count_transitions_loop prev_state rest transition_count

def count_transitions_helper : List Outcome → Except PyError ℕ
  | [] => .error .indexError
  | prev_state :: rest => .ok (count_transitions_loop prev_state rest 0)

/-! ## The profile -/

/-- The model of `line.split('0x')[1][:-1]`. -/
def line_addr (line : List Char) : Except PyError (List Char) :=
  match (PyText.split "0x".toList line)[1]? with
  | some s => .ok s.dropLast
  | none => .error .indexError

/-- The last block with each address. -/
def addr_to_bb_id (dcfg : Dcfg) : PyDict (List Char) ℕ :=
  dcfg.nodes.entries.foldl (fun acc e => acc.set e.2.addr.toList e.1) .empty

def bb_at (dcfg : Dcfg) (addr : List Char) : Except PyError ℕ :=
  match (addr_to_bb_id dcfg).get? addr with
  | some bb => .ok bb
  | none => .error .keyError

/-- A block opens its list before the kind of the edge is known. -/
def visit (dcfg : Dcfg) (branch_transitions : PyDict ℕ (List Outcome)) (p : ℕ × ℕ) :
    PyDict ℕ (List Outcome) :=
  let outcomes := (branch_transitions.get? p.1).getD []
  match outcome dcfg p with
  | some o => branch_transitions.set p.1 (outcomes ++ [o])
  | none => branch_transitions.set p.1 outcomes

/-- The model of `itrace[i].split('0x')[1][:-1]`. -/
def itrace_addr (itrace : List (List Char)) (i : ℕ) : Except PyError (List Char) :=
  match itrace[i]? with
  | some line => line_addr line
  | none => .error .indexError

/-- One turn of the loop over a trace. -/
def itrace_turn (dcfg : Dcfg) (itrace : List (List Char))
    (branch_transitions : PyDict ℕ (List Outcome)) (i : ℕ) :
    Except PyError (PyDict ℕ (List Outcome)) := do
  let curr_line ← itrace_addr itrace i
  let next_line ← itrace_addr itrace (i + 1)
  let curr_bb ← bb_at dcfg curr_line
  let next_bb ← bb_at dcfg next_line
  return visit dcfg branch_transitions (curr_bb, next_bb)

/-- The traces of the threads that `name == 'skeleton' or tid in self.app_tids` keeps. -/
def selected (skeleton : Bool) (app_tids : List ℕ) (itraces : PyDict ℕ (List (List Char))) :
    List (List (List Char)) :=
  (itraces.entries.filter fun e => skeleton ∨ e.1 ∈ app_tids).map Prod.snd

/-- The outcomes of each block, over all traces. -/
def branch_transitions (dcfg : Dcfg) (traces : List (List (List Char))) :
    Except PyError (PyDict ℕ (List Outcome)) :=
  traces.foldlM (fun acc itrace =>
    (List.range (itrace.length - 2)).foldlM (itrace_turn dcfg itrace) acc) .empty

def transition_rate (outcomes : List Outcome) : Except PyError ℚ := do
  let transition_count ← count_transitions_helper outcomes
  return (transition_count : ℚ) / outcomes.length

def profile_branch_transition (skeleton : Bool) (app_tids : List ℕ) (dcfg : Dcfg)
    (itraces : PyDict ℕ (List (List Char))) : Except PyError (PyDict ℕ ℚ) := do
  let transitions ← branch_transitions dcfg (selected skeleton app_tids itraces)
  transitions.mapM fun _ outcomes => transition_rate outcomes

/-! ## Traces over the blocks of the graph -/

def block_of (dcfg : Dcfg) (line : List Char) : Except PyError ℕ := do
  let addr ← line_addr line
  bb_at dcfg addr

/-- The blocks that the lines of a trace name. -/
def blocks (dcfg : Dcfg) (itrace : List (List Char)) : List ℕ :=
  itrace.filterMap fun line => (block_of dcfg line).toOption

/-- Each line names a block of the graph. -/
def OverBlocks (dcfg : Dcfg) (itrace : List (List Char)) : Prop :=
  ∀ line ∈ itrace, ∃ bb, block_of dcfg line = .ok bb

/-- The outcomes that a row of steps gives a block. -/
def outcomes (dcfg : Dcfg) (ps : List (ℕ × ℕ)) (bb : ℕ) : List Outcome :=
  (ps.filter fun p => p.1 = bb).filterMap (outcome dcfg)

variable {dcfg : Dcfg}

theorem map_block_of {itrace : List (List Char)} (h : OverBlocks dcfg itrace) :
    itrace.map (block_of dcfg) = (blocks dcfg itrace).map .ok := by
  induction itrace with
  | nil => rfl
  | cons line rest ih =>
    obtain ⟨⟨bb, hbb⟩, hrest⟩ := List.forall_mem_cons.mp h
    have htail := ih hrest
    unfold blocks at htail ⊢
    rw [List.map_cons, htail, hbb, List.filterMap_cons, hbb]
    rfl

theorem itrace_turn_eq {itrace : List (List Char)} (h : OverBlocks dcfg itrace) {i : ℕ} {p : ℕ × ℕ}
    (hp : (pairs (blocks dcfg itrace))[i]? = some p) (acc : PyDict ℕ (List Outcome)) :
    itrace_turn dcfg itrace acc i = .ok (visit dcfg acc p) := by
  have hline : ∀ j bb, (blocks dcfg itrace)[j]? = some bb →
      ∃ addr, itrace_addr itrace j = .ok addr ∧ bb_at dcfg addr = .ok bb := by
    intro j bb hj
    have hmap := congrArg (·[j]?) (map_block_of h)
    simp only [List.getElem?_map, hj, Option.map_some] at hmap
    obtain ⟨line, hget, hblock⟩ := Option.map_eq_some_iff.mp hmap
    obtain ⟨addr, haddr, hbb⟩ := PyError.ok_of_bind hblock
    refine ⟨addr, ?_, hbb⟩
    unfold itrace_addr
    rw [hget]
    exact haddr
  rw [getElem?_pairs] at hp
  obtain ⟨curr, hcurr, hp⟩ := Option.bind_eq_some_iff.mp hp
  obtain ⟨next, hnext, rfl⟩ := Option.map_eq_some_iff.mp hp
  obtain ⟨curr_line, hcurr_line, hcurr_bb⟩ := hline i curr hcurr
  obtain ⟨next_line, hnext_line, hnext_bb⟩ := hline (i + 1) next hnext
  unfold itrace_turn
  rw [hcurr_line, hnext_line]
  change (bb_at dcfg curr_line >>= _) = _
  rw [hcurr_bb]
  change (bb_at dcfg next_line >>= _) = _
  rw [hnext_bb]
  rfl

/-- The loop over a trace visits its steps but the last one. -/
theorem itrace_loop_eq {itrace : List (List Char)} (h : OverBlocks dcfg itrace)
    (acc : PyDict ℕ (List Outcome)) :
    (List.range (itrace.length - 2)).foldlM (itrace_turn dcfg itrace) acc =
      .ok ((pairs (blocks dcfg itrace).dropLast).foldl (visit dcfg) acc) := by
  have hlength : (blocks dcfg itrace).length = itrace.length := by
    simpa using (congrArg List.length (map_block_of h)).symm
  have hdrop : pairs (blocks dcfg itrace).dropLast =
      (pairs (blocks dcfg itrace)).take (itrace.length - 2) := by
    rw [pairs_dropLast, List.dropLast_eq_take, length_pairs, hlength, Nat.sub_sub]
  rw [hdrop]
  apply PyError.foldlM_range_eq_ok
  intro i hi acc
  rw [← hlength] at hi
  have hlt : i < (pairs (blocks dcfg itrace)).length := by
    rw [length_pairs]
    omega
  exact ⟨_, List.getElem?_eq_getElem hlt, itrace_turn_eq h (List.getElem?_eq_getElem hlt) acc⟩

/-- All steps of the traces. -/
def steps (dcfg : Dcfg) (traces : List (List (List Char))) : List (ℕ × ℕ) :=
  (traces.map fun itrace => pairs (blocks dcfg itrace)).flatten

/-- The steps that the loops visit. -/
def visited (dcfg : Dcfg) (traces : List (List (List Char))) : List (ℕ × ℕ) :=
  (traces.map fun itrace => pairs (blocks dcfg itrace).dropLast).flatten

theorem branch_transitions_eq {traces : List (List (List Char))}
    (h : ∀ itrace ∈ traces, OverBlocks dcfg itrace) :
    branch_transitions dcfg traces = .ok ((visited dcfg traces).foldl (visit dcfg) .empty) := by
  unfold branch_transitions visited
  generalize (PyDict.empty : PyDict ℕ (List Outcome)) = acc
  induction traces generalizing acc with
  | nil => rfl
  | cons itrace rest ih =>
    rw [List.forall_mem_cons] at h
    rw [List.foldlM_cons, itrace_loop_eq h.1, List.map_cons, List.flatten_cons, List.foldl_append]
    exact ih h.2 _

/-! ## The lists of the blocks -/

theorem outcomes_append (dcfg : Dcfg) (ps qs : List (ℕ × ℕ)) (bb : ℕ) :
    outcomes dcfg (ps ++ qs) bb = outcomes dcfg ps bb ++ outcomes dcfg qs bb := by
  unfold outcomes
  rw [List.filter_append, List.filterMap_append]

theorem outcomes_singleton (dcfg : Dcfg) (p : ℕ × ℕ) (bb : ℕ) :
    outcomes dcfg [p] bb = if p.1 = bb then (outcome dcfg p).toList else [] := by
  unfold outcomes
  by_cases h : p.1 = bb
  · rcases ho : outcome dcfg p with _ | o <;> simp [h, ho]
  · simp [h]

theorem outcomes_flatten (dcfg : Dcfg) (rows : List (List (ℕ × ℕ))) (bb : ℕ) :
    outcomes dcfg rows.flatten bb = (rows.map fun ps => outcomes dcfg ps bb).flatten := by
  induction rows with
  | nil => rfl
  | cons ps rows ih => rw [List.flatten_cons, outcomes_append, ih, List.map_cons, List.flatten_cons]

variable {ps : List (ℕ × ℕ)}

theorem outcomes_of_not_mem {bb : ℕ} (h : bb ∉ ps.map Prod.fst) : outcomes dcfg ps bb = [] := by
  unfold outcomes
  rw [List.filter_eq_nil_iff.mpr, List.filterMap_nil]
  intro q hq heq
  exact h (List.mem_map.mpr ⟨q, hq, of_decide_eq_true heq⟩)

theorem get?_visit (dcfg : Dcfg) (acc : PyDict ℕ (List Outcome)) (p : ℕ × ℕ) (bb : ℕ) :
    (visit dcfg acc p).get? bb =
      if p.1 = bb then some ((acc.get? bb).getD [] ++ outcomes dcfg [p] bb) else acc.get? bb := by
  unfold visit
  rw [outcomes_singleton]
  by_cases h : p.1 = bb
  · subst h
    rcases ho : outcome dcfg p with _ | o <;> simp
  · rcases ho : outcome dcfg p with _ | o <;> simp [h, PyDict.get?_set_of_ne _ _ (Ne.symm h)]

/-- A block that was left has the list of its outcomes, which may be empty. -/
theorem get?_visits (dcfg : Dcfg) (ps : List (ℕ × ℕ)) (bb : ℕ) :
    (ps.foldl (visit dcfg) .empty).get? bb =
      if bb ∈ ps.map Prod.fst then some (outcomes dcfg ps bb) else none := by
  induction ps using List.reverseRecOn with
  | nil => rfl
  | append_singleton ps p ih =>
    rw [List.foldl_append, List.foldl_cons, List.foldl_nil, get?_visit, ih, outcomes_append]
    have hkeys : bb ∈ (ps ++ [p]).map Prod.fst ↔ bb ∈ ps.map Prod.fst ∨ p.1 = bb := by
      rw [List.map_append, List.mem_append, List.map_singleton, List.mem_singleton, eq_comm (b := p.1)]
    by_cases hp : p.1 = bb
    · rw [if_pos hp, if_pos (hkeys.mpr (Or.inr hp))]
      by_cases hmem : bb ∈ ps.map Prod.fst
      · rw [if_pos hmem, Option.getD_some]
      · rw [if_neg hmem, outcomes_of_not_mem hmem, Option.getD_none]
    · have hsingle : outcomes dcfg [p] bb = [] := by rw [outcomes_singleton, if_neg hp]
      rw [if_neg hp, hsingle, List.append_nil]
      exact if_congr (by rw [hkeys]; exact ⟨Or.inl, fun h => h.resolve_right hp⟩) rfl rfl

theorem count_transitions_loop_eq (prev_state : Outcome) (rest : List Outcome) (n : ℕ) :
    count_transitions_loop prev_state rest n = n + changes (prev_state :: rest) := by
  induction rest generalizing prev_state n with
  | nil => rfl
  | cons state rest ih =>
    unfold count_transitions_loop
    have hchanges : changes (prev_state :: state :: rest) =
        changes (state :: rest) + if prev_state ≠ state then 1 else 0 := by
      unfold changes
      rw [pairs, List.countP_cons]
      simp
    by_cases h : state = prev_state
    · subst h
      rw [if_neg (by simp), ih, hchanges]
      simp
    · rw [if_pos h, ih, hchanges, if_pos (Ne.symm h)]
      omega

theorem transition_rate_eq {l : List Outcome} (h : l ≠ []) :
    transition_rate l = .ok ((changes l : ℚ) / l.length) := by
  obtain ⟨state, rest, rfl⟩ := List.exists_cons_of_ne_nil h
  have hcount : count_transitions_helper (state :: rest) = .ok (changes (state :: rest)) := by
    change Except.ok (count_transitions_loop state rest 0) = _
    rw [count_transitions_loop_eq, Nat.zero_add]
  unfold transition_rate
  rw [hcount]
  rfl

theorem changes_div_lt_one {l : List Outcome} (h : l ≠ []) :
    0 ≤ (changes l : ℚ) / l.length ∧ (changes l : ℚ) / l.length < 1 := by
  have hlt : (changes l : ℚ) < l.length := by exact_mod_cast changes_lt h
  have hpos : (0 : ℚ) < l.length := by exact_mod_cast List.length_pos_iff.mpr h
  exact ⟨div_nonneg (by exact_mod_cast Nat.zero_le _) (le_of_lt hpos), (div_lt_one hpos).mpr hlt⟩

/-- The rates come out just if no block has an empty list. -/
theorem exists_rates_iff (transitions : PyDict ℕ (List Outcome)) :
    (∃ rates, transitions.mapM (fun _ outcomes => transition_rate outcomes) = .ok rates) ↔
      ∀ bb, transitions.get? bb ≠ some [] := by
  constructor
  · rintro ⟨rates, hrates⟩ bb hbb
    obtain ⟨rate, hrate, -⟩ := PyDict.get?_mapM hrates hbb
    cases hrate
  · intro h
    apply PyDict.mapM_ok
    intro e he
    have hne : e.2 ≠ [] := by
      intro hnil
      apply h e.1
      rw [PyDict.get?_eq_some_iff, ← hnil]
      exact he
    exact ⟨_, transition_rate_eq hne⟩

theorem get?_rates {rates : PyDict ℕ ℚ}
    (h : (ps.foldl (visit dcfg) .empty).mapM (fun _ l => transition_rate l) = .ok rates) {bb : ℕ}
    (hbb : outcomes dcfg ps bb ≠ []) :
    rates.get? bb = some ((changes (outcomes dcfg ps bb) : ℚ) / (outcomes dcfg ps bb).length) := by
  have hmem : bb ∈ ps.map Prod.fst := by
    obtain ⟨o, ho⟩ := List.exists_mem_of_ne_nil _ hbb
    obtain ⟨p, hp, -⟩ := List.mem_filterMap.mp ho
    obtain ⟨hp, heq⟩ := List.mem_filter.mp hp
    exact List.mem_map.mpr ⟨p, hp, of_decide_eq_true heq⟩
  have hget := get?_visits dcfg ps bb
  rw [if_pos hmem] at hget
  obtain ⟨rate, hrate, hout⟩ := PyDict.get?_mapM h hget
  rw [transition_rate_eq hbb] at hrate
  rw [hout, Except.ok.inj hrate]

/-! ## The last step of a trace -/

/-- No trace ends with a step that has an outcome. -/
def QuietEnds (dcfg : Dcfg) (traces : List (List (List Char))) : Prop :=
  ∀ itrace ∈ traces, ∀ p ∈ (pairs (blocks dcfg itrace)).getLast?, outcome dcfg p = none

/-- Each block that a visited step leaves has an outcome in a visited step. -/
def EachHasOutcome (dcfg : Dcfg) (traces : List (List (List Char))) : Prop :=
  ∀ p ∈ visited dcfg traces, ∃ q ∈ visited dcfg traces, q.1 = p.1 ∧ outcome dcfg q ≠ none

theorem outcomes_trace (dcfg : Dcfg) (itrace : List (List Char)) (bb : ℕ) :
    outcomes dcfg (pairs (blocks dcfg itrace)) bb =
      outcomes dcfg (pairs (blocks dcfg itrace).dropLast) bb ++
        outcomes dcfg (pairs (blocks dcfg itrace)).getLast?.toList bb := by
  nth_rewrite 1 [pairs_eq_append]
  exact outcomes_append _ _ _ _

theorem length_outcomes_steps (dcfg : Dcfg) (traces : List (List (List Char))) (bb : ℕ) :
    (outcomes dcfg (steps dcfg traces) bb).length =
      (outcomes dcfg (visited dcfg traces) bb).length +
        (traces.map fun itrace =>
          (outcomes dcfg (pairs (blocks dcfg itrace)).getLast?.toList bb).length).sum := by
  unfold steps visited
  induction traces with
  | nil => rfl
  | cons itrace rest ih =>
    simp only [List.map_cons, List.flatten_cons, List.sum_cons, outcomes_append,
      List.length_append, ih]
    rw [outcomes_trace, List.length_append]
    omega

/-- The visited steps have all outcomes just if the steps that are not visited have none. -/
theorem outcomes_visited_iff (dcfg : Dcfg) (traces : List (List (List Char))) :
    (∀ bb, outcomes dcfg (visited dcfg traces) bb = outcomes dcfg (steps dcfg traces) bb) ↔
      QuietEnds dcfg traces := by
  constructor
  · intro h itrace hitrace p hp
    have hlength := length_outcomes_steps dcfg traces p.1
    rw [h p.1] at hlength
    have hle := List.le_sum_of_mem (List.mem_map_of_mem (f := fun itrace =>
        (outcomes dcfg (pairs (blocks dcfg itrace)).getLast?.toList p.1).length) hitrace)
    rw [Option.mem_def.mp hp, Option.toList_some, outcomes_singleton, if_pos rfl] at hle
    have hzero : (outcome dcfg p).toList.length = 0 := by omega
    simpa using hzero
  · intro h bb
    unfold visited steps
    rw [outcomes_flatten, outcomes_flatten, List.map_map, List.map_map]
    congr 1
    apply List.map_congr_left
    intro itrace hitrace
    have hlast : outcomes dcfg (pairs (blocks dcfg itrace)).getLast?.toList bb = [] := by
      rcases hp : (pairs (blocks dcfg itrace)).getLast? with _ | p
      · rfl
      · rw [Option.toList_some, outcomes_singleton, h itrace hitrace p hp]
        simp
    rw [Function.comp_apply, Function.comp_apply, outcomes_trace, hlast, List.append_nil]

/-! ## The threads whose files are not found -/

/-- The traces of the selected threads. -/
def threads (tids : List ℕ) (traces : PyDict ℕ (List (List Char))) : List (List (List Char)) :=
  (traces.entries.filter fun e => e.1 ∈ tids).map Prod.snd

/-- The trace of the thread 0, if that is selected. -/
def thread_zero (tids : List ℕ) (traces : PyDict ℕ (List (List Char))) : List (List (List Char)) :=
  (traces.entries.filter fun e => e.1 = 0 ∧ e.1 ∈ tids).map Prod.snd

/-- The traces of the other selected threads. -/
def others (tids : List ℕ) (traces : PyDict ℕ (List (List Char))) : List (List (List Char)) :=
  (traces.entries.filter fun e => e.1 ≠ 0 ∧ e.1 ∈ tids).map Prod.snd

/-- No step of another selected thread has an outcome. -/
def QuietOthers (dcfg : Dcfg) (tids : List ℕ) (traces : PyDict ℕ (List (List Char))) : Prop :=
  ∀ p ∈ steps dcfg (others tids traces), outcome dcfg p = none

instance (dcfg : Dcfg) (traces : List (List (List Char))) : Decidable (QuietEnds dcfg traces) :=
  List.decidableBAll _ _

instance (dcfg : Dcfg) (traces : List (List (List Char))) :
    Decidable (EachHasOutcome dcfg traces) :=
  List.decidableBAll _ _

instance (dcfg : Dcfg) (tids : List ℕ) (traces : PyDict ℕ (List (List Char))) :
    Decidable (QuietOthers dcfg tids traces) :=
  List.decidableBAll _ _

/-- A selected thread is the thread 0 or another thread. -/
theorem threads_perm (tids : List ℕ) (traces : PyDict ℕ (List (List Char))) :
    (thread_zero tids traces ++ others tids traces).Perm (threads tids traces) := by
  have hsplit := List.filter_append_perm (fun e : ℕ × List (List Char) => decide (e.1 = 0))
    (traces.entries.filter fun e => e.1 ∈ tids)
  simp only [List.filter_filter, ← decide_not, ← Bool.decide_and] at hsplit
  unfold thread_zero others threads
  rw [← List.map_append]
  exact hsplit.map _

theorem length_outcomes_threads (dcfg : Dcfg) (tids : List ℕ)
    (traces : PyDict ℕ (List (List Char))) (bb : ℕ) :
    (outcomes dcfg (steps dcfg (threads tids traces)) bb).length =
      (outcomes dcfg (steps dcfg (thread_zero tids traces)) bb).length +
        (outcomes dcfg (steps dcfg (others tids traces)) bb).length := by
  have hperm := ((threads_perm tids traces).map fun itrace => pairs (blocks dcfg itrace)).flatten
  rw [List.map_append, List.flatten_append] at hperm
  have hlength := ((hperm.filter fun p => p.1 = bb).filterMap (outcome dcfg)).length_eq
  rw [List.filter_append, List.filterMap_append, List.length_append] at hlength
  exact hlength.symm

theorem outcomes_of_quiet (h : ∀ p ∈ ps, outcome dcfg p = none) (bb : ℕ) :
    outcomes dcfg ps bb = [] := by
  unfold outcomes
  rw [List.filterMap_eq_nil_iff]
  exact fun p hp => h p (List.mem_of_mem_filter hp)

theorem outcomes_threads {tids : List ℕ} {traces : PyDict ℕ (List (List Char))}
    (h : QuietOthers dcfg tids traces) (bb : ℕ) :
    outcomes dcfg (steps dcfg (threads tids traces)) bb =
      outcomes dcfg (steps dcfg (thread_zero tids traces)) bb := by
  have hzero : (thread_zero tids traces).Sublist (threads tids traces) := by
    refine (List.monotone_filter_right _ fun e he => ?_).map _
    simpa using (of_decide_eq_true he).2
  have hsteps : (steps dcfg (thread_zero tids traces)).Sublist (steps dcfg (threads tids traces)) :=
    (hzero.map _).flatten
  refine (((hsteps.filter fun p => p.1 = bb).filterMap (outcome dcfg)).eq_of_length ?_).symm
  have hlength := length_outcomes_threads dcfg tids traces bb
  rw [outcomes_of_quiet h] at hlength
  exact hlength.symm

/-- The visited steps of the thread 0 have the outcomes of all selected threads just if nothing
else has an outcome. -/
theorem outcomes_thread_zero_iff (dcfg : Dcfg) (tids : List ℕ)
    (traces : PyDict ℕ (List (List Char))) :
    (∀ bb, outcomes dcfg (visited dcfg (thread_zero tids traces)) bb =
        outcomes dcfg (steps dcfg (threads tids traces)) bb) ↔
      QuietOthers dcfg tids traces ∧ QuietEnds dcfg (thread_zero tids traces) := by
  constructor
  · intro h
    have hothers : QuietOthers dcfg tids traces := by
      intro p hp
      have hvisited := length_outcomes_steps dcfg (thread_zero tids traces) p.1
      have hthreads := length_outcomes_threads dcfg tids traces p.1
      rw [← h p.1] at hthreads
      have hnil : outcomes dcfg (steps dcfg (others tids traces)) p.1 = [] :=
        List.eq_nil_of_length_eq_zero (by omega)
      unfold outcomes at hnil
      rw [List.filterMap_eq_nil_iff] at hnil
      exact hnil p (List.mem_filter.mpr ⟨hp, decide_eq_true rfl⟩)
    refine ⟨hothers, (outcomes_visited_iff dcfg _).mp fun bb => ?_⟩
    rw [h bb, outcomes_threads hothers]
  · rintro ⟨hothers, hends⟩ bb
    rw [outcomes_threads hothers, (outcomes_visited_iff dcfg _).mpr hends bb]

/-! ## The laws -/

/-- The branch at the end of a block was taken in this step. -/
def Branches (dcfg : Dcfg) (p : ℕ × ℕ) : Prop :=
  ∃ e, dcfg.edges.get? p = some e ∧ e.type ∈ conditional_types

/-- The profile of all steps: the list of each block has its outcomes in all steps, and each
block with a branch gets the changes in its list for each outcome. -/
structure ProfilesAll (dcfg : Dcfg) (traces : List (List (List Char)))
    (transitions : Except PyError (PyDict ℕ (List Outcome)))
    (profile : Except PyError (PyDict ℕ ℚ)) : Prop where
  lists : ∃ d, transitions = .ok d ∧
    ∀ bb, (d.get? bb).getD [] = outcomes dcfg (steps dcfg traces) bb
  rates : ∃ rates, profile = .ok rates ∧ ∀ p ∈ steps dcfg traces, Branches dcfg p →
    let l := outcomes dcfg (steps dcfg traces) p.1
    rates.get? p.1 = some ((changes l : ℚ) / l.length) ∧
      0 ≤ (changes l : ℚ) / l.length ∧ (changes l : ℚ) / l.length < 1

theorem getD_visits (dcfg : Dcfg) (ps : List (ℕ × ℕ)) (bb : ℕ) :
    ((ps.foldl (visit dcfg) .empty).get? bb).getD [] = outcomes dcfg ps bb := by
  rw [get?_visits]
  split
  · rfl
  · rename_i hmem
    exact (outcomes_of_not_mem hmem).symm

theorem eachHasOutcome_iff (dcfg : Dcfg) (traces : List (List (List Char))) :
    (∀ bb, ((visited dcfg traces).foldl (visit dcfg) .empty).get? bb ≠ some []) ↔
      EachHasOutcome dcfg traces := by
  unfold EachHasOutcome
  constructor
  · intro h p hp
    have hne := h p.1
    rw [get?_visits, if_pos (List.mem_map_of_mem hp), ne_eq, Option.some.injEq] at hne
    obtain ⟨o, ho⟩ := List.exists_mem_of_ne_nil _ hne
    obtain ⟨q, hq, hout⟩ := List.mem_filterMap.mp ho
    obtain ⟨hq, heq⟩ := List.mem_filter.mp hq
    exact ⟨q, hq, of_decide_eq_true heq, by rw [hout]; exact Option.some_ne_none o⟩
  · intro h bb hbb
    rw [get?_visits] at hbb
    split at hbb
    · rename_i hmem
      obtain ⟨p, hp, rfl⟩ := List.mem_map.mp hmem
      obtain ⟨q, hq, hfirst, hout⟩ := h p hp
      obtain ⟨o, ho⟩ := Option.ne_none_iff_exists'.mp hout
      have hmem : o ∈ outcomes dcfg (visited dcfg traces) p.1 :=
        List.mem_filterMap.mpr ⟨q, List.mem_filter.mpr ⟨hq, decide_eq_true hfirst⟩, ho⟩
      rw [Option.some.inj hbb] at hmem
      cases hmem
    · cases hbb

/-- The profile of some traces is that of all steps of other ones just if it has their outcomes,
and each block that it lists has one. -/
theorem profilesAll_iff {skeleton : Bool} {app_tids : List ℕ}
    {itraces : PyDict ℕ (List (List Char))}
    (h : ∀ itrace ∈ selected skeleton app_tids itraces, OverBlocks dcfg itrace)
    (all : List (List (List Char))) :
    ProfilesAll dcfg all (branch_transitions dcfg (selected skeleton app_tids itraces))
        (profile_branch_transition skeleton app_tids dcfg itraces) ↔
      (∀ bb, outcomes dcfg (visited dcfg (selected skeleton app_tids itraces)) bb =
        outcomes dcfg (steps dcfg all) bb) ∧
      EachHasOutcome dcfg (selected skeleton app_tids itraces) := by
  have htransitions := branch_transitions_eq h
  unfold profile_branch_transition
  rw [htransitions, ← eachHasOutcome_iff, ← exists_rates_iff]
  constructor
  · rintro ⟨⟨d, hd, hlists⟩, rates, hrates, -⟩
    cases hd
    exact ⟨fun bb => by rw [← hlists bb, getD_visits], rates, hrates⟩
  · rintro ⟨hlists, rates, hrates⟩
    refine ⟨⟨_, rfl, fun bb => by rw [getD_visits, hlists bb]⟩, rates, hrates, ?_⟩
    rintro p hp ⟨e, he, htype⟩
    have hne : outcomes dcfg (steps dcfg all) p.1 ≠ [] := by
      apply List.ne_nil_of_mem (a := Outcome.T)
      refine List.mem_filterMap.mpr ⟨p, List.mem_filter.mpr ⟨hp, decide_eq_true rfl⟩, ?_⟩
      unfold outcome
      rw [he]
      exact if_pos htype
    refine ⟨?_, changes_div_lt_one hne⟩
    rw [← hlists] at hne ⊢
    exact get?_rates hrates hne

/-- The threads whose files `itrace` looks for. -/
def tids_of (skeleton : Bool) (app_tids skeleton_tids : List ℕ) : List ℕ :=
  if skeleton then skeleton_tids else app_tids

theorem selected_filter (skeleton : Bool) (app_tids skeleton_tids : List ℕ)
    (traces : PyDict ℕ (List (List Char))) :
    selected skeleton app_tids (traces.filter fun tid _ =>
        tid = 0 ∧ tid ∈ tids_of skeleton app_tids skeleton_tids) =
      thread_zero (tids_of skeleton app_tids skeleton_tids) traces := by
  unfold selected thread_zero PyDict.filter tids_of
  rw [List.filter_filter]
  congr 1
  apply List.filter_congr
  intro e _
  cases skeleton
  · simp
  · simp

/-- The profile that is made of the files of the threads is that of all steps of the selected
threads just if no step of a thread other than 0 has an outcome, the last step of the thread 0
has none, and each block that another step of the thread 0 leaves has an outcome in such a
step. -/
theorem profile_has_all_steps_iff {name : ℕ → List Char} (hname : ThreadNames name)
    (skeleton : Bool) (app_tids skeleton_tids : List ℕ) (dcfg : Dcfg)
    (traces : PyDict ℕ (List (List Char)))
    (h : ∀ itrace ∈ threads (tids_of skeleton app_tids skeleton_tids) traces,
      OverBlocks dcfg itrace) :
    let tids := tids_of skeleton app_tids skeleton_tids
    ∃ itraces, itrace tids (trace_files name traces) = .ok itraces ∧
      (ProfilesAll dcfg (threads tids traces)
          (branch_transitions dcfg (selected skeleton app_tids itraces))
          (profile_branch_transition skeleton app_tids dcfg itraces) ↔
        QuietOthers dcfg tids traces ∧ QuietEnds dcfg (thread_zero tids traces) ∧
          EachHasOutcome dcfg (thread_zero tids traces)) := by
  refine ⟨_, itrace_trace_files hname _ traces, ?_⟩
  have hloaded : ∀ itrace ∈ thread_zero (tids_of skeleton app_tids skeleton_tids) traces,
      OverBlocks dcfg itrace := by
    intro itrace hitrace
    obtain ⟨e, he, rfl⟩ := List.mem_map.mp hitrace
    obtain ⟨he, htid⟩ := List.mem_filter.mp he
    refine h e.2 (List.mem_map_of_mem (List.mem_filter.mpr ⟨he, ?_⟩))
    exact decide_eq_true (of_decide_eq_true htid).2
  rw [← selected_filter] at hloaded
  rw [profilesAll_iff hloaded, selected_filter, outcomes_thread_zero_iff, and_assoc]

/-- The block 1 jumps back to itself or falls through to the block 2, which calls the block 1. -/
def callsALoop : Dcfg where
  nodes := ⟨[(1, ⟨"400000", "400004", 4, 8, 2, 1⟩), (2, ⟨"400008", "400008", 2, 4, 1, 1⟩)], by decide⟩
  edges := ⟨[((1, 1), ⟨"DIRECT_CONDITIONAL_BRANCH", 2, (1, 1), 1 / 2, 1 / 2⟩),
    ((1, 2), ⟨"FALL_THROUGH", 2, (1, 1), 1 / 2, 1⟩),
    ((2, 1), ⟨"DIRECT_CALL", 2, (1, 1), 1, 1 / 2⟩)], by decide⟩
  closed := by decide

def first_line : List Char := "0x400000\n".toList

def second_line : List Char := "0x400008\n".toList

theorem block_of_lines :
    block_of callsALoop first_line = .ok 1 ∧ block_of callsALoop second_line = .ok 2 := by
  decide +kernel

/-- The name of the file of a thread. -/
def itrace_name (tid : ℕ) : List Char :=
  if tid = 0 then "sde-itrace-out.txt".toList
  else "sde-itrace-out.tid".toList ++ (Nat.repr tid).toList ++ ".txt".toList

theorem threadNames_itrace_name : ThreadNames itrace_name where
  zero := rfl
  suffixed := by
    intro tid htid heq
    unfold itrace_name at heq
    rw [if_neg htid] at heq
    have hchar := congrArg (·[16]?) heq
    simp at hchar

/-- The thread 0 ends with the call, and the thread 1 only calls, so nothing is missing. -/
theorem profile_has_all_steps_before_a_call :
    let traces := (PyDict.empty.set 1 [second_line, first_line]).set 0
      [first_line, first_line, second_line, first_line]
    ∃ itraces, itrace [0, 1] (trace_files itrace_name traces) = .ok itraces ∧
      ProfilesAll callsALoop (threads [0, 1] traces)
        (branch_transitions callsALoop (selected false [0, 1] itraces))
        (profile_branch_transition false [0, 1] callsALoop itraces) := by
  have hthreads : threads [0, 1] ((PyDict.empty.set 1 [second_line, first_line]).set 0
      [first_line, first_line, second_line, first_line]) =
        [[second_line, first_line], [first_line, first_line, second_line, first_line]] := by
    decide +kernel
  have hone : ∃ bb, block_of callsALoop first_line = .ok bb := ⟨1, block_of_lines.1⟩
  have htwo : ∃ bb, block_of callsALoop second_line = .ok bb := ⟨2, block_of_lines.2⟩
  obtain ⟨itraces, hitraces, hiff⟩ := profile_has_all_steps_iff threadNames_itrace_name false
    [0, 1] [] callsALoop ((PyDict.empty.set 1 [second_line, first_line]).set 0
      [first_line, first_line, second_line, first_line]) (by
    change ∀ itrace ∈ threads [0, 1] _, _
    rw [hthreads]
    simp only [List.forall_mem_cons, OverBlocks, hone, htwo]
    simp)
  exact ⟨itraces, hitraces, hiff.mpr (by decide +kernel)⟩

/-- The trace 1, 1, 1, 2 of the thread 0 has the outcomes T, T, NT at the block 1, and the profile
sees T, T. The trace 2, 1, 1 leaves the block 2 by a call only, and its profile ends with an
error. Of two threads with the trace 1, 1, 2, 1 the second is lost. -/
theorem steps_are_lost_and_a_call_raises :
    branch_transitions callsALoop [[first_line, first_line, first_line, second_line]] =
      .ok (PyDict.empty.set 1 [.T, .T]) ∧
    outcomes callsALoop
        (steps callsALoop [[first_line, first_line, first_line, second_line]]) 1 = [.T, .T, .NT] ∧
    profile_branch_transition false [0] callsALoop
        (PyDict.empty.set 0 [first_line, first_line, first_line, second_line]) =
      .ok (PyDict.empty.set 1 0) ∧
    profile_branch_transition false [0] callsALoop
        (PyDict.empty.set 0 [second_line, first_line, first_line]) = .error .indexError ∧
    (let line := [first_line, first_line, second_line, first_line]
    let traces := (PyDict.empty.set 0 line).set 1 line
    (itrace [0, 1] (trace_files itrace_name traces)).bind (fun itraces =>
        branch_transitions callsALoop (selected false [0, 1] itraces)) =
      .ok (PyDict.empty.set 1 [.T, .NT]) ∧
    outcomes callsALoop (steps callsALoop (threads [0, 1] traces)) 1 = [.T, .NT, .T, .NT]) := by
  decide +kernel

end ditto.branch_analyzer
