-- The dynamic control-flow graph of a profile. The analyzers load the graph
-- of the whole process, and then keep what the chosen threads executed. The
-- library that builds the graph is a parameter of the loading.
import Ditto.Lib.DiGraph
import Ditto.Lib.Rounding

namespace ditto.base_analyzer

/-! ## The profile -/

/-- A row of `EDGES`: the two blocks, the id of the edge type, and the executions of each
thread. -/
structure EdgeRow where
  source : ℕ
  target : ℕ
  type_id : ℕ
  executions : List ℕ
deriving DecidableEq

structure Routine where
  entry_node : ℕ
  nodes : List ℕ
deriving DecidableEq

structure Image where
  routines : Option (List Routine)
  basic_blocks : Option (List ℕ)
deriving DecidableEq

structure Process where
  images : Option (List Image)
  edges : Option (List EdgeRow)
deriving DecidableEq

/-- The file `dcfg-out.dcfg.json`. Each list is without the row of column names that the
source skips. -/
structure DcfgJson where
  edge_types : List (ℕ × String)
  processes : List Process
deriving DecidableEq

/-- A line of the file `dcfg-out.bb.txt`. -/
inductive BBLine where
  | block (bb_id : ℕ) (addr : String) (executions size icount : ℕ)
  | xdis (addr inst : String)
  | other
deriving DecidableEq

/-- The attributes of a block. -/
structure BlockInfo where
  addr : String
  tail_addr : String
  executions : ℕ
  size : ℕ
  insts : ℤ
  func : ℕ
deriving DecidableEq

/-- The attributes of an edge, with the executions of each thread. -/
structure FullEdge where
  type : String
  executions : List ℕ
  func : ℕ × ℕ
deriving DecidableEq

abbrev FullDcfg := DiGraph ℕ BlockInfo FullEdge

/-! ## Loading the graph of the process -/

def edge_types (json : DcfgJson) : PyDict ℕ String :=
  json.edge_types.foldl (fun acc type => acc.set type.1 type.2) .empty

/-- The entry node of the routine of each block. -/
def bb_funcs (json : DcfgJson) : PyDict ℕ ℕ :=
  json.processes.foldl (fun acc process =>
    (process.images.getD []).foldl (fun acc image =>
      (image.routines.getD []).foldl (fun acc routine =>
        routine.nodes.foldl (fun acc node => acc.set node routine.entry_node) acc) acc) acc) .empty

/-- What a `BLOCK` line says. -/
structure Header where
  addr : String
  executions : ℕ
  size : ℕ
  insts : ℚ

/-- The loop over the lines: the open block, its header, the last `XDIS` address, and the
blocks that are done. The address stays from one block to the next. -/
structure Scan where
  bb_id : ℕ
  header : Option Header
  tail_addr : Option String
  bb_info : PyDict ℕ BlockInfo

/-- The write of `bb_info[bb_id]`. -/
def Scan.close (funcs : PyDict ℕ ℕ) (s : Scan) : Except PyError Scan :=
  match s.header, s.tail_addr, funcs.get? s.bb_id with
  | some h, some tail_addr, some func =>
    let info : BlockInfo := ⟨h.addr, tail_addr, h.executions, h.size, truncate h.insts, func⟩
    .ok { s with bb_info := s.bb_info.set s.bb_id info }
  | some _, some _, none => .error .keyError
  | _, _, _ => .error .unboundLocalError

def Scan.line (funcs : PyDict ℕ ℕ) (s : Scan) : BBLine → Except PyError Scan
  | .block bb_id addr executions size icount => do
    let s ← if s.bb_id = 0 then .ok s else s.close funcs
    if executions = 0 then .error .zeroDivisionError
    else .ok { s with
      bb_id := bb_id
      header := some ⟨addr, executions, size, (icount : ℚ) / executions⟩ }
  | .xdis addr _ => .ok { s with tail_addr := some addr }
  | .other => .ok s

def bb_info (json : DcfgJson) (bb_lines : List BBLine) : Except PyError (PyDict ℕ BlockInfo) := do
  let s ← bb_lines.foldlM (Scan.line (bb_funcs json)) ⟨0, none, none, .empty⟩
  -- The last basic block has no line behind it.
  let s ← s.close (bb_funcs json)
  return s.bb_info

section Library

variable (nx : GraphLib ℕ BlockInfo FullEdge)

def add_block (info : PyDict ℕ BlockInfo) (g : nx.Graph) (bb : ℕ) : Except PyError nx.Graph :=
  match info.get? bb with
  | some a => .ok (nx.add_node g bb a)
  | none => .error .keyError

def add_image (info : PyDict ℕ BlockInfo) (g : nx.Graph) (image : Image) :
    Except PyError nx.Graph :=
  (image.basic_blocks.getD []).foldlM (add_block nx info) g

/-- A row between two known blocks. A later row between the same blocks takes the place of
an earlier one. -/
def add_row (types : PyDict ℕ String) (g : nx.Graph) (row : EdgeRow) : Except PyError nx.Graph :=
  match nx.nodes g row.source, nx.nodes g row.target with
  | some a, some b =>
    match types.get? row.type_id with
    | some type =>
      .ok (nx.add_edge g row.source row.target ⟨type, row.executions, (a.func, b.func)⟩)
    | none => .error .keyError
  | _, _ => .ok g

/-- The graph of the process, in a library of graphs. -/
def parse_dcfg_in (json : DcfgJson) (bb_lines : List BBLine) : Except PyError nx.Graph := do
  let info ← bb_info json bb_lines
  match json.processes with
  | [] => .error .indexError
  | process :: _ =>
    match process.images, process.edges with
    | some images, some edges => do
      let g ← images.foldlM (add_image nx info) nx.new
      edges.foldlM (add_row nx (edge_types json)) g
    | _, _ => .error .keyError

end Library

def parse_dcfg (json : DcfgJson) (bb_lines : List BBLine) : Except PyError FullDcfg :=
  parse_dcfg_in .values json bb_lines

theorem add_block_ok {info : PyDict ℕ BlockInfo} {g g' : FullDcfg} {bb : ℕ}
    (h : add_block .values info g bb = .ok g') :
    ∃ a, info.get? bb = some a ∧ g' = g.add_node bb a := by
  unfold add_block at h
  split at h
  · rename_i a ha
    cases h
    exact ⟨a, ha, rfl⟩
  · cases h

/-- A row is added if the graph has its two blocks, and is left out if not. -/
theorem add_row_ok {types : PyDict ℕ String} {g g' : FullDcfg} {row : EdgeRow}
    (h : add_row .values types g row = .ok g') :
    (∃ hin e, e.executions = row.executions ∧ g' = g.add_edge (row.source, row.target) hin e) ∨
      ¬ (row.source ∈ g.nodes.keys ∧ row.target ∈ g.nodes.keys) ∧ g' = g := by
  unfold add_row at h
  split at h
  · rename_i a b ha hb
    split at h
    · cases h
      have hin : row.source ∈ g.nodes.keys ∧ row.target ∈ g.nodes.keys :=
        ⟨PyDict.mem_keys_of_get? ha, PyDict.mem_keys_of_get? hb⟩
      exact .inl ⟨hin, _, rfl, dif_pos hin⟩
    · cases h
  · rename_i hnone
    cases h
    refine .inr ⟨?_, rfl⟩
    rintro ⟨hsource, htarget⟩
    obtain ⟨a, ha⟩ := PyDict.exists_get?_of_mem_keys hsource
    obtain ⟨b, hb⟩ := PyDict.exists_get?_of_mem_keys htarget
    exact hnone a b ha hb

section Documented

variable {nx : GraphLib ℕ BlockInfo FullEdge}

theorem agree_add_block (hnx : nx.Documented) {g : nx.Graph} {d : FullDcfg} (h : nx.Holds g d)
    (info : PyDict ℕ BlockInfo) (bb : ℕ) :
    PyError.Agree nx.Holds (add_block nx info g bb) (add_block .values info d bb) := by
  unfold add_block
  cases info.get? bb with
  | none => exact .error _
  | some a => exact .ok (h.add_node hnx bb a)

theorem agree_add_row (hnx : nx.Documented) {g : nx.Graph} {d : FullDcfg} (h : nx.Holds g d)
    (types : PyDict ℕ String) (row : EdgeRow) :
    PyError.Agree nx.Holds (add_row nx types g row) (add_row .values types d row) := by
  unfold add_row
  rw [h.nodes, h.nodes]
  dsimp only
  cases hsource : d.nodes.get? row.source with
  | none => exact .ok h
  | some a =>
    cases htarget : d.nodes.get? row.target with
    | none => exact .ok h
    | some b =>
      cases types.get? row.type_id with
      | none => exact .error _
      | some type =>
        exact .ok (h.add_edge hnx
          ⟨PyDict.mem_keys_of_get? hsource, PyDict.mem_keys_of_get? htarget⟩ _)

/-- In every library with the documented behaviour, the graph holds what `parse_dcfg` says, or the
same error stops the loading. -/
theorem holds_parse_dcfg (hnx : nx.Documented) (json : DcfgJson) (bb_lines : List BBLine) :
    PyError.Agree nx.Holds (parse_dcfg_in nx json bb_lines) (parse_dcfg json bb_lines) := by
  unfold parse_dcfg parse_dcfg_in
  refine (PyError.Agree.refl (bb_info json bb_lines)).bind ?_
  rintro info _ rfl
  split
  · exact .error _
  · split
    · refine PyError.Agree.bind ?_ fun g d h =>
        PyError.Agree.foldlM (fun g d row h => agree_add_row hnx h _ row) _ h
      refine PyError.Agree.foldlM ?_ _ (GraphLib.holds_new hnx)
      intro g d image h
      exact PyError.Agree.foldlM (fun g d bb h => agree_add_block hnx h info bb) _ h
    · exact .error _

end Documented

/-! ## The graph of the chosen threads -/

/-- The attributes of an edge, with the executions of the chosen threads. -/
structure CountedEdge where
  type : String
  executions : ℕ
  func : ℕ × ℕ
deriving DecidableEq

structure Edge where
  type : String
  executions : ℕ
  func : ℕ × ℕ
  forward_prob : ℚ
  backward_prob : ℚ
deriving DecidableEq

def CountedDcfg := DiGraph ℕ BlockInfo CountedEdge

def Dcfg := DiGraph ℕ BlockInfo Edge

/-- The sum of the executions of the threads. -/
def thread_sum (tids counts : List ℕ) : Except PyError ℕ := do
  let picked ← tids.mapM fun i =>
    match counts[i]? with
    | some n => .ok n
    | none => .error .indexError
  return picked.sum

def count_edge (tids : List ℕ) (e : FullEdge) : Except PyError CountedEdge := do
  return ⟨e.type, ← thread_sum tids e.executions, e.func⟩

/-- The graph without the edges that no chosen thread executed. -/
def count_edges (tids : List ℕ) (g : FullDcfg) : Except PyError CountedDcfg := do
  let counted ← g.mapEdgesM fun _ e => count_edge tids e
  return counted.filterEdges fun _ e => e.executions ≠ 0

/-- The loop over the edges into a node. It writes nothing when there is no edge. -/
def update_node (g : CountedDcfg) (node : ℕ) (info : BlockInfo) : BlockInfo :=
  (g.in_edges node).foldl (fun info _ =>
    { info with executions := ((g.in_edges node).map fun e => e.2.executions).sum }) info

def executionsOf {ε : Type} (g : DiGraph ℕ BlockInfo ε) (node : ℕ) : Option ℕ :=
  (g.nodes.get? node).map BlockInfo.executions

def call_prob (executions total : ℕ) : ℚ :=
  if total ≠ 0 then min ((executions : ℚ) / total) 1 else 1

/-- Both ends of an edge are nodes, so the reads of their executions find them. -/
def update_edge (g : CountedDcfg) (edge : ℕ × ℕ) (e : CountedEdge) : Edge where
  type := e.type
  executions := e.executions
  func := e.func
  forward_prob := call_prob e.executions ((executionsOf g edge.1).getD 0)
  backward_prob := call_prob e.executions ((executionsOf g edge.2).getD 0)

def build_target_tid_dcfg (tids : List ℕ) (full : FullDcfg) : Except PyError Dcfg := do
  let counted ← count_edges tids full
  let updated : CountedDcfg := counted.mapNodes (update_node counted)
  return updated.mapEdges (update_edge updated)

/-- The graph of the chosen threads, behind the graph that it is built from. -/
def load (tids : List ℕ) (json : DcfgJson) (bb_lines : List BBLine) :
    Except PyError (FullDcfg × Dcfg) := do
  let full ← parse_dcfg json bb_lines
  return (full, ← build_target_tid_dcfg tids full)

/-- A load without an error, and what is read off its graphs. -/
theorem exists_of_load {α : Type} {tids : List ℕ} {json : DcfgJson} {bb_lines : List BBLine}
    {f : FullDcfg × Dcfg → α} {a : α} (h : (load tids json bb_lines).map f = .ok a) :
    ∃ full d, parse_dcfg json bb_lines = .ok full ∧ build_target_tid_dcfg tids full = .ok d ∧
      f (full, d) = a := by
  obtain ⟨⟨full, d⟩, hload, hf⟩ : ∃ loaded, load tids json bb_lines = .ok loaded ∧
      f loaded = a := by
    cases hload : load tids json bb_lines with
    | error err =>
      rw [hload] at h
      cases h
    | ok loaded =>
      rw [hload] at h
      exact ⟨loaded, rfl, Except.ok.inj h⟩
  obtain ⟨full', hfull, hload⟩ := PyError.ok_of_bind hload
  obtain ⟨d', hd, hload⟩ := PyError.ok_of_bind hload
  cases hload
  exact ⟨full, d, hfull, hd, hf⟩

/-! ## What the graph of the threads holds -/

theorem count_edges_spec {tids : List ℕ} {full : FullDcfg} {counted : CountedDcfg}
    (h : count_edges tids full = .ok counted) :
    counted.nodes = full.nodes ∧ ∃ all : List ((ℕ × ℕ) × CountedEdge),
      List.Forall₂ (fun e e' => e.1 = e'.1 ∧ count_edge tids e.2 = .ok e'.2)
        full.edges.entries all ∧
      counted.edges.entries = all.filter fun e => e.2.executions ≠ 0 := by
  unfold count_edges at h
  obtain ⟨g, hg, h⟩ := PyError.ok_of_bind h
  cases h
  obtain ⟨hnodes, hmap⟩ := DiGraph.mapEdgesM_spec hg
  exact ⟨hnodes, g.edges.entries, PyDict.mapM_spec hmap, rfl⟩

theorem count_edge_executions {tids : List ℕ} {e : FullEdge} {e' : CountedEdge}
    (h : count_edge tids e = .ok e') : thread_sum tids e.executions = .ok e'.executions := by
  unfold count_edge at h
  obtain ⟨n, hn, h⟩ := PyError.ok_of_bind h
  cases h
  exact hn

/-- The loop over the edges into a node writes their sum, if there is an edge. -/
theorem update_node_executions (g : CountedDcfg) (node : ℕ) (info : BlockInfo) :
    (update_node g node info).executions =
      if g.in_edges node = [] then info.executions
      else ((g.in_edges node).map fun e => e.2.executions).sum := by
  unfold update_node
  have hloop : ∀ (l : List ((ℕ × ℕ) × CountedEdge)) (info : BlockInfo) (n : ℕ),
      (l.foldl (fun (info : BlockInfo) _ => { info with executions := n }) info).executions =
        if l = [] then info.executions else n := by
    intro l info n
    induction l generalizing info with
    | nil => rfl
    | cons e rest ih =>
      rw [List.foldl_cons, ih, if_neg (List.cons_ne_nil e rest)]
      split <;> rfl
  exact hloop _ _ _

theorem build_spec {tids : List ℕ} {full : FullDcfg} {d : Dcfg}
    (h : build_target_tid_dcfg tids full = .ok d) :
    ∃ counted, count_edges tids full = .ok counted ∧
      (∀ b, executionsOf d b =
        (full.nodes.get? b).map fun info => (update_node counted b info).executions) ∧
      ∀ e, (d.edges.get? e).map (fun a => (a.executions, a.forward_prob, a.backward_prob)) =
        ((counted.edges.get? e).map CountedEdge.executions).map fun n =>
          (n, call_prob n ((executionsOf d e.1).getD 0), call_prob n ((executionsOf d e.2).getD 0))
    := by
  unfold build_target_tid_dcfg at h
  obtain ⟨counted, hcounted, h⟩ := PyError.ok_of_bind h
  cases h
  refine ⟨counted, hcounted, ?_, ?_⟩
  · intro b
    rw [← (count_edges_spec hcounted).1]
    simp only [executionsOf, DiGraph.mapEdges, DiGraph.mapNodes, PyDict.get?_mapVal,
      Option.map_map]
    rfl
  · intro e
    simp only [DiGraph.mapEdges, DiGraph.mapNodes, PyDict.get?_mapVal, Option.map_map]
    rfl

end ditto.base_analyzer
