-- The listing of the basic blocks (`dcfg-out.bb.txt`), which is read twice.
-- The loader of the graph keeps a block open and writes it when the next
-- header comes, and the other reader files each instruction as it comes.
import Ditto.Dcfg
import Ditto.RegAccess

namespace ditto.base_analyzer

/-! ## The reader of the instructions -/

structure Inst where
  addr : String
  inst : String
deriving DecidableEq

structure BasicBlock where
  addr : String
  insts : List Inst
deriving DecidableEq

/-- The variables of `__parse_basic_blocks`. -/
structure BlockReader where
  bb_id : Option ℕ
  basic_blocks : PyDict ℕ BasicBlock

def BlockReader.line (r : BlockReader) : BBLine → Except PyError BlockReader
  | .block bb_id addr _ _ _ => .ok ⟨some bb_id, r.basic_blocks.set bb_id ⟨addr, []⟩⟩
  | .xdis addr inst =>
    match r.bb_id with
    | none => .error .unboundLocalError
    | some bb_id =>
      match r.basic_blocks.get? bb_id with
      | none => .error .keyError
      | some block =>
        let insts := block.insts ++ [⟨addr, inst⟩]
        .ok { r with basic_blocks := r.basic_blocks.set bb_id { block with insts } }
  | .other => .ok r

def parse_basic_blocks (bb_lines : List BBLine) : Except PyError (PyDict ℕ BasicBlock) := do
  let r ← bb_lines.foldlM BlockReader.line ⟨none, .empty⟩
  return r.basic_blocks

/-! ## Listings -/

/-- The instruction of a line. -/
def BBLine.inst? : BBLine → Option Inst
  | .xdis addr inst => some ⟨addr, inst⟩
  | .block .. | .other => none

/-- A line that is no header. -/
def BBLine.IsBody : BBLine → Prop
  | .block .. => False
  | .xdis .. | .other => True

/-- A block of a listing: what its header says, and the lines up to the next header. -/
structure Section where
  bb_id : ℕ
  addr : String
  executions : ℕ
  size : ℕ
  body : List BBLine
  bb_id_ne_zero : bb_id ≠ 0
  executions_pos : 0 < executions
  is_body : ∀ line ∈ body, line.IsBody
  has_inst : body.filterMap BBLine.inst? ≠ []

/-- The instructions of a block. -/
def Section.insts (s : Section) : List Inst := s.body.filterMap BBLine.inst?

/-- The last instruction of a block. -/
def Section.last (s : Section) : Inst := s.insts.getLast s.has_inst

/-- The lines of a block. The instruction count of its header counts each execution. -/
def Section.lines (s : Section) : List BBLine :=
  .block s.bb_id s.addr s.executions s.size (s.executions * s.insts.length) :: s.body

/-- The file with these blocks. -/
def listing (sections : List Section) : List BBLine := sections.flatMap Section.lines

/-! ## The body of a block -/

/-- The record that the loader should keep for a block. -/
def Section.info (s : Section) (func : ℕ) : BlockInfo :=
  ⟨s.addr, s.last.addr, s.executions, s.size, s.insts.length, func⟩

/-- The block that the other reader should keep. -/
def Section.block (s : Section) : BasicBlock := ⟨s.addr, s.insts⟩

theorem filterMap_xdis (addr inst : String) (body : List BBLine) :
    (BBLine.xdis addr inst :: body).filterMap BBLine.inst? =
      ⟨addr, inst⟩ :: body.filterMap BBLine.inst? := rfl

/-- The lines of a body leave the address of the last instruction, if there is one. -/
theorem scan_body (funcs : PyDict ℕ ℕ) {body : List BBLine} (h : ∀ line ∈ body, line.IsBody)
    (s : Scan) :
    body.foldlM (Scan.line funcs) s = .ok { s with
      tail_addr := ((body.filterMap BBLine.inst?).getLast?.map Inst.addr).or s.tail_addr } := by
  induction body generalizing s with
  | nil => rfl
  | cons line body ih =>
    rw [List.forall_mem_cons] at h
    rw [List.foldlM_cons]
    cases line with
    | block => exact absurd h.1 id
    | other => exact ih h.2 s
    | xdis addr inst =>
      refine (ih h.2 { s with tail_addr := some addr }).trans ?_
      rw [filterMap_xdis, List.getLast?_cons]
      cases (body.filterMap BBLine.inst?).getLast? <;> rfl

/-- The lines of a body add their instructions to the newest block. -/
theorem read_body {body : List BBLine} (h : ∀ line ∈ body, line.IsBody) {bb_id : ℕ}
    {done : List (ℕ × BasicBlock)} (hnew : bb_id ∉ done.map Prod.fst) {addr : String}
    {insts : List Inst} {blocks : PyDict ℕ BasicBlock}
    (hblocks : blocks.entries = done ++ [(bb_id, ⟨addr, insts⟩)]) :
    ∃ blocks', body.foldlM BlockReader.line ⟨some bb_id, blocks⟩ = .ok ⟨some bb_id, blocks'⟩ ∧
      blocks'.entries = done ++ [(bb_id, ⟨addr, insts ++ body.filterMap BBLine.inst?⟩)] := by
  induction body generalizing insts blocks with
  | nil => exact ⟨blocks, rfl, by simpa using hblocks⟩
  | cons line body ih =>
    rw [List.forall_mem_cons] at h
    rw [List.foldlM_cons]
    cases line with
    | block => exact absurd h.1 id
    | other => exact ih h.2 hblocks
    | xdis a inst =>
      have hget : blocks.get? bb_id = some ⟨addr, insts⟩ := by
        rw [PyDict.get?_eq_some_iff, hblocks]
        simp
      have hset : (blocks.set bb_id ⟨addr, insts ++ [⟨a, inst⟩]⟩).entries =
          done ++ [(bb_id, ⟨addr, insts ++ [⟨a, inst⟩]⟩)] := by
        rw [PyDict.entries_set, hblocks, PyDict.setEntries_of_last _ _ _ _ hnew]
      obtain ⟨blocks', hrun, hentries⟩ := ih h.2 hset
      refine ⟨blocks', ?_, ?_⟩
      · simp only [BlockReader.line, hget]
        exact hrun
      · rw [hentries, filterMap_xdis, List.append_assoc]
        rfl

/-! ## Whole listings -/

theorem truncate_div {n k : ℕ} (h : 0 < n) : truncate (((n * k : ℕ) : ℚ) / n) = k := by
  have hne : (n : ℚ) ≠ 0 := by exact_mod_cast Nat.ne_of_gt h
  rw [Nat.cast_mul, mul_div_cancel_left₀ _ hne]
  exact truncate_intCast k

/-- The loader behind a block that is still open. -/
def Section.opened (s : Section) (done : PyDict ℕ BlockInfo) : Scan where
  bb_id := s.bb_id
  header := some ⟨s.addr, s.executions, s.size, ((s.executions * s.insts.length : ℕ) : ℚ) /
    s.executions⟩
  tail_addr := some s.last.addr
  bb_info := done

variable {funcs : PyDict ℕ ℕ}

/-- The open block is written with its own data. -/
theorem close_opened {s : Section} {func : ℕ} (hfunc : funcs.get? s.bb_id = some func)
    (done : PyDict ℕ BlockInfo) :
    (s.opened done).close funcs =
      .ok { s.opened done with bb_info := done.set s.bb_id (s.info func) } := by
  simp only [Scan.close, Section.opened, hfunc, truncate_div s.executions_pos]
  rfl

/-- A header closes the open block, if there is one, and opens its own. -/
theorem scan_header {start mid : Scan}
    (hstart : (if start.bb_id = 0 then .ok start else start.close funcs) = .ok mid) (bb_id : ℕ)
    (addr : String) {executions : ℕ} (hpos : 0 < executions) (size icount : ℕ) :
    Scan.line funcs start (.block bb_id addr executions size icount) =
      .ok { mid with
        bb_id, header := some ⟨addr, executions, size, (icount : ℚ) / executions⟩ } := by
  have hne : executions ≠ 0 := Nat.ne_of_gt hpos
  split at hstart
  · rename_i hzero
    cases hstart
    simp only [Scan.line, if_pos hzero]
    exact if_neg hne
  · rename_i hzero
    simp only [Scan.line, if_neg hzero, hstart]
    exact if_neg hne

/-- The lines of a block leave it open, whatever was open before. -/
theorem scan_section (s : Section) {start mid : Scan}
    (hstart : (if start.bb_id = 0 then .ok start else start.close funcs) = .ok mid) :
    s.lines.foldlM (Scan.line funcs) start = .ok (s.opened mid.bb_info) := by
  have hlast : (s.body.filterMap BBLine.inst?).getLast? = some s.last :=
    List.getLast?_eq_getLast_of_ne_nil s.has_inst
  rw [Section.lines, List.foldlM_cons, scan_header hstart _ _ s.executions_pos]
  refine (scan_body funcs s.is_body _).trans ?_
  rw [hlast]
  rfl

/-- The functions of the blocks are known. -/
def HasFuncs (funcs : PyDict ℕ ℕ) (sections : List Section) : Prop :=
  ∀ s ∈ sections, s.bb_id ∈ funcs.keys

/-- The entry of a block in the dictionary of the loader. -/
def Section.infoEntry (funcs : PyDict ℕ ℕ) (s : Section) : ℕ × BlockInfo :=
  (s.bb_id, s.info ((funcs.get? s.bb_id).getD 0))

theorem close_opened_entries {s : Section} (hfunc : s.bb_id ∈ funcs.keys)
    {done : PyDict ℕ BlockInfo} (hnew : s.bb_id ∉ done.keys) :
    ∃ closed, (s.opened done).close funcs = .ok closed ∧
      closed.bb_info.entries = done.entries ++ [s.infoEntry funcs] := by
  obtain ⟨func, hget⟩ := PyDict.exists_get?_of_mem_keys hfunc
  refine ⟨_, close_opened hget done, ?_⟩
  rw [Section.infoEntry, hget]
  exact PyDict.entries_set_new _ hnew

variable {sections : List Section}

/-- The first of different new keys is new. -/
theorem not_mem_keys_of_nodup {ν : Type} {done : PyDict ℕ ν} {s : Section}
    (h : (done.keys ++ (s :: sections).map Section.bb_id).Nodup) : s.bb_id ∉ done.keys :=
  fun hmem => (List.nodup_append.mp h).2.2 _ hmem _ List.mem_cons_self rfl

/-- Behind an open block, the loader writes it and all blocks that follow but the last one, which
is written after the loop. -/
theorem scan_listing {s : Section} {done : PyDict ℕ BlockInfo}
    (hfuncs : HasFuncs funcs (s :: sections))
    (hids : (done.keys ++ (s :: sections).map Section.bb_id).Nodup) :
    ∃ last closed, (listing sections).foldlM (Scan.line funcs) (s.opened done) = .ok last ∧
      last.close funcs = .ok closed ∧
      closed.bb_info.entries = done.entries ++ (s :: sections).map (Section.infoEntry funcs) := by
  induction sections generalizing s done with
  | nil =>
    obtain ⟨closed, hclosed, hentries⟩ :=
      close_opened_entries (hfuncs s List.mem_cons_self) (not_mem_keys_of_nodup hids)
    exact ⟨s.opened done, closed, rfl, hclosed, hentries⟩
  | cons t sections ih =>
    obtain ⟨mid, hmid, hentries⟩ :=
      close_opened_entries (hfuncs s List.mem_cons_self) (not_mem_keys_of_nodup hids)
    have hkeys : mid.bb_info.keys = done.keys ++ [s.bb_id] := by
      unfold PyDict.keys
      rw [hentries, List.map_append]
      rfl
    have hids' : (mid.bb_info.keys ++ (t :: sections).map Section.bb_id).Nodup := by
      simpa [hkeys] using hids
    obtain ⟨last, closed, hrun, hclosed, hall⟩ :=
      ih (fun u hu => hfuncs u (List.mem_cons_of_mem _ hu)) hids'
    refine ⟨last, closed, ?_, hclosed, ?_⟩
    · -- The header of the next block writes the open one.
      have hstart : (if (s.opened done).bb_id = 0 then .ok (s.opened done)
          else (s.opened done).close funcs) = .ok mid := (if_neg s.bb_id_ne_zero).trans hmid
      rw [listing, List.flatMap_cons, List.foldlM_append, scan_section t hstart]
      exact hrun
    · rw [hall, hentries, List.append_assoc]
      rfl

variable {json : DcfgJson}

/-- The loader keeps the record of each block, in the order of the listing. -/
theorem bb_info_listing (hne : sections ≠ []) (hids : (sections.map Section.bb_id).Nodup)
    (hfuncs : HasFuncs (bb_funcs json) sections) :
    ∃ info, bb_info json (listing sections) = .ok info ∧
      info.entries = sections.map (Section.infoEntry (bb_funcs json)) := by
  obtain ⟨s, sections, rfl⟩ := List.exists_cons_of_ne_nil hne
  have hnew : ((.empty : PyDict ℕ BlockInfo).keys ++ (s :: sections).map Section.bb_id).Nodup := by
    simpa using hids
  obtain ⟨last, closed, hrun, hclosed, hentries⟩ := scan_listing hfuncs hnew
  refine ⟨closed.bb_info, ?_, hentries⟩
  set start : Scan := ⟨0, none, none, .empty⟩
  have hstart : (if start.bb_id = 0 then .ok start else start.close (bb_funcs json)) = .ok start :=
    rfl
  have hfirst : s.lines.foldlM (Scan.line (bb_funcs json)) start = .ok (s.opened .empty) :=
    scan_section s hstart
  unfold bb_info
  rw [listing, List.flatMap_cons, List.foldlM_append, hfirst]
  change ((listing sections).foldlM _ (s.opened .empty) >>= _) = _
  rw [hrun]
  change (last.close _ >>= _) = _
  rw [hclosed]
  rfl

/-- The other reader keeps each block with its instructions, in the order of the listing. -/
theorem read_listing (bb_id : Option ℕ) {blocks : PyDict ℕ BasicBlock}
    (hids : (blocks.keys ++ sections.map Section.bb_id).Nodup) :
    ∃ r, (listing sections).foldlM BlockReader.line ⟨bb_id, blocks⟩ = .ok r ∧
      r.basic_blocks.entries = blocks.entries ++ sections.map fun s => (s.bb_id, s.block) := by
  induction sections generalizing bb_id blocks with
  | nil => exact ⟨_, rfl, by simp⟩
  | cons s sections ih =>
    have hnew := not_mem_keys_of_nodup hids
    have hheader := PyDict.entries_set_new (⟨s.addr, []⟩ : BasicBlock) hnew
    obtain ⟨blocks', hbody, hentries⟩ := read_body s.is_body hnew hheader
    have hkeys : blocks'.keys = blocks.keys ++ [s.bb_id] := by
      unfold PyDict.keys
      rw [hentries, List.map_append]
      rfl
    have hids' : (blocks'.keys ++ sections.map Section.bb_id).Nodup := by
      simpa [hkeys] using hids
    obtain ⟨r, hr, hall⟩ := ih (some s.bb_id) hids'
    refine ⟨r, ?_, ?_⟩
    · rw [listing, List.flatMap_cons, List.foldlM_append, Section.lines, List.foldlM_cons]
      change (s.body.foldlM BlockReader.line
        ⟨some s.bb_id, blocks.set s.bb_id ⟨s.addr, []⟩⟩ >>= _) = _
      rw [hbody]
      exact hr
    · rw [hall, hentries, List.append_assoc]
      rfl

theorem parse_basic_blocks_listing (hids : (sections.map Section.bb_id).Nodup) :
    ∃ blocks, parse_basic_blocks (listing sections) = .ok blocks ∧
      blocks.entries = sections.map fun s => (s.bb_id, s.block) := by
  have hnew : ((.empty : PyDict ℕ BasicBlock).keys ++ sections.map Section.bb_id).Nodup := by
    simpa using hids
  obtain ⟨r, hr, hentries⟩ := read_listing none hnew
  refine ⟨r.basic_blocks, ?_, hentries⟩
  unfold parse_basic_blocks
  rw [hr]
  rfl

/-! ## The blocks of the graph -/

/-- The nodes of a graph have the records of the loader. -/
def FromInfo (info : PyDict ℕ BlockInfo) (g : FullDcfg) : Prop :=
  ∀ bb node, g.nodes.get? bb = some node → info.get? bb = some node

variable {bb : ℕ}

theorem FromInfo.add_block {info : PyDict ℕ BlockInfo} {g g' : FullDcfg} (hg : FromInfo info g)
    (h : add_block .values info g bb = .ok g') : FromInfo info g' := by
  obtain ⟨a, ha, rfl⟩ := add_block_ok h
  intro x node hx
  unfold DiGraph.add_node at hx
  by_cases hxb : x = bb
  · subst hxb
    rw [PyDict.get?_set_self] at hx
    rw [ha, hx]
  · rw [PyDict.get?_set_of_ne _ _ hxb] at hx
    exact hg x node hx

theorem FromInfo.add_row {info : PyDict ℕ BlockInfo} {types : PyDict ℕ String} {g g' : FullDcfg}
    {row : EdgeRow} (hg : FromInfo info g) (h : add_row .values types g row = .ok g') :
    FromInfo info g' := by
  obtain ⟨hin, e, -, rfl⟩ | ⟨-, rfl⟩ := add_row_ok h
  · exact hg
  · exact hg

variable {full : FullDcfg}

theorem fromInfo_parse {bb_lines : List BBLine} (h : parse_dcfg json bb_lines = .ok full)
    {info : PyDict ℕ BlockInfo} (hinfo : bb_info json bb_lines = .ok info) :
    FromInfo info full := by
  unfold parse_dcfg parse_dcfg_in at h
  obtain ⟨info', hinfo', h⟩ := PyError.ok_of_bind h
  rw [hinfo] at hinfo'
  cases hinfo'
  split at h
  · cases h
  · split at h
    · obtain ⟨g, hg, h⟩ := PyError.ok_of_bind h
      refine PyError.foldlM_inv (P := FromInfo info) (fun _ _ _ _ hg => hg.add_row) ?_ h
      refine PyError.foldlM_inv (P := FromInfo info) (fun g image _ g' hg himage => ?_) ?_ hg
      · exact PyError.foldlM_inv (P := FromInfo info) (fun _ _ _ _ hg => hg.add_block) hg himage
      · intro bb node hnode
        cases hnode
    · cases h

/-- The loop over the edges into a node writes nothing but its executions. -/
theorem update_node_insts (g : CountedDcfg) (node : ℕ) (info : BlockInfo) :
    (update_node g node info).insts = info.insts := by
  unfold update_node
  generalize ((g.in_edges node).map fun e => e.2.executions).sum = n
  generalize g.in_edges node = l
  induction l generalizing info with
  | nil => rfl
  | cons e l ih => exact ih _

theorem exists_node_of_build {tids : List ℕ} {d : Dcfg}
    (h : build_target_tid_dcfg tids full = .ok d) {node : BlockInfo}
    (hnode : d.nodes.get? bb = some node) :
    ∃ info, full.nodes.get? bb = some info ∧ node.insts = info.insts := by
  unfold build_target_tid_dcfg at h
  obtain ⟨counted, hcounted, h⟩ := PyError.ok_of_bind h
  cases h
  simp only [DiGraph.mapEdges, DiGraph.mapNodes, PyDict.get?_mapVal, Option.map_eq_some_iff] at hnode
  obtain ⟨info, hinfo, rfl⟩ := hnode
  rw [(count_edges_spec hcounted).1] at hinfo
  exact ⟨info, hinfo, update_node_insts counted bb info⟩

/-- A node of the graph of some threads is a block of the listing. -/
theorem exists_section_of_node {info : PyDict ℕ BlockInfo}
    (hinfo : bb_info json (listing sections) = .ok info)
    (hentries : info.entries = sections.map (Section.infoEntry (bb_funcs json))) {tids : List ℕ}
    {d : Dcfg} (hfull : parse_dcfg json (listing sections) = .ok full)
    (hd : build_target_tid_dcfg tids full = .ok d) {node : BlockInfo}
    (hnode : d.nodes.get? bb = some node) :
    ∃ s ∈ sections, bb = s.bb_id ∧ node.insts = s.insts.length := by
  obtain ⟨record, hrecord, hinsts⟩ := exists_node_of_build hd hnode
  have hmem := PyDict.get?_eq_some_iff.mp (fromInfo_parse hfull hinfo bb record hrecord)
  rw [hentries] at hmem
  obtain ⟨s, hs, heq⟩ := List.mem_map.mp hmem
  cases heq
  exact ⟨s, hs, rfl, hinsts⟩

/-- Each index below the number of instructions has its registers. -/
theorem exists_inst_regs {x86operands : PyDict String inst_mix_analyzer.Rows}
    {insts : List (List Char)} {regs : data_dependency_analyzer.BlockRegs}
    (h : data_dependency_analyzer.parse_basic_block_regs x86operands insts = .ok regs) {i : ℕ}
    (hi : i < insts.length) : ∃ r, regs.inst_regs[i]? = some r := by
  obtain ⟨l, hl, rfl⟩ := data_dependency_analyzer.parse_basic_block_regs_ok h
  have hlen : i < (data_dependency_analyzer.file_block l).inst_regs.length := by
    rw [data_dependency_analyzer.inst_regs_file_block, List.length_map, ← hl.length_eq]
    exact hi
  exact ⟨_, List.getElem?_eq_getElem hlen⟩

/-! ## The laws -/

/-- The records of the loader and the lists of the other reader are about the same blocks: each
record has the address of its own header and of its own last instruction, and as many
instructions as the list. So the dependency analyzer finds the registers of each instruction that
it looks up. -/
theorem the_two_readers_agree (json : DcfgJson) (sections : List Section) (hne : sections ≠ [])
    (hids : (sections.map Section.bb_id).Nodup) (hfuncs : HasFuncs (bb_funcs json) sections) :
    ∃ info blocks, bb_info json (listing sections) = .ok info ∧
      parse_basic_blocks (listing sections) = .ok blocks ∧
      info.keys = sections.map Section.bb_id ∧ blocks.keys = sections.map Section.bb_id ∧
      (∀ s ∈ sections, ∃ record block, info.get? s.bb_id = some record ∧
        blocks.get? s.bb_id = some block ∧ record.addr = s.addr ∧
        record.tail_addr = s.last.addr ∧ block.insts = s.insts ∧
        record.insts = block.insts.length) ∧
      ∀ tids full d, parse_dcfg json (listing sections) = .ok full →
        build_target_tid_dcfg tids full = .ok d → ∀ bb node, d.nodes.get? bb = some node →
        ∃ block, blocks.get? bb = some block ∧ ∀ x86operands regs,
          data_dependency_analyzer.parse_basic_block_regs x86operands
            (block.insts.map fun i => i.inst.toList) = .ok regs →
          ∀ inst_idx : ℕ, inst_idx < node.insts → ∃ r, regs.inst_regs[inst_idx]? = some r := by
  obtain ⟨info, hinfo, hinfoEntries⟩ := bb_info_listing hne hids hfuncs
  obtain ⟨blocks, hblocks, hblockEntries⟩ := parse_basic_blocks_listing hids
  have hblock : ∀ s ∈ sections, blocks.get? s.bb_id = some s.block := by
    intro s hs
    rw [PyDict.get?_eq_some_iff, hblockEntries]
    exact List.mem_map.mpr ⟨s, hs, rfl⟩
  refine ⟨info, blocks, hinfo, hblocks, ?_, ?_, fun s hs => ?_, ?_⟩
  · rw [PyDict.keys, hinfoEntries, List.map_map]
    rfl
  · rw [PyDict.keys, hblockEntries, List.map_map]
    rfl
  · refine ⟨s.info (((bb_funcs json).get? s.bb_id).getD 0), s.block, ?_, hblock s hs, rfl, rfl,
      rfl, rfl⟩
    rw [PyDict.get?_eq_some_iff, hinfoEntries]
    exact List.mem_map.mpr ⟨s, hs, rfl⟩
  · intro tids full d hfull hd bb node hnode
    obtain ⟨s, hs, rfl, hinsts⟩ := exists_section_of_node hinfo hinfoEntries hfull hd hnode
    refine ⟨s.block, hblock s hs, fun x86operands regs hregs inst_idx hidx => ?_⟩
    refine exists_inst_regs hregs ?_
    rw [hinsts] at hidx
    rw [List.length_map]
    exact Int.ofNat_lt.mp hidx

/-- A block of two instructions that runs three times, and a block of one. -/
def twoSections : List Section := [
  { bb_id := 7, addr := "10", executions := 3, size := 4
    body := [.xdis "10" "mov rax, rbx", .other, .xdis "13" "nop"]
    bb_id_ne_zero := by decide
    executions_pos := by decide
    is_body := by simp [BBLine.IsBody]
    has_inst := by decide },
  { bb_id := 4, addr := "14", executions := 1, size := 1
    body := [.xdis "14" "ret"]
    bb_id_ne_zero := by decide
    executions_pos := Nat.one_pos
    is_body := by simp [BBLine.IsBody]
    has_inst := by decide }]

def oneRoutine : DcfgJson where
  edge_types := []
  processes := [⟨some [⟨some [⟨7, [7, 4]⟩], some [7, 4]⟩], some []⟩]

theorem the_two_readers_agree_on_two_blocks :
    bb_info oneRoutine (listing twoSections) = .ok ((PyDict.empty.set 7
        ⟨"10", "13", 3, 4, 2, 7⟩).set 4 ⟨"14", "14", 1, 1, 1, 7⟩) ∧
      ∃ info blocks, bb_info oneRoutine (listing twoSections) = .ok info ∧
        parse_basic_blocks (listing twoSections) = .ok blocks ∧
        ∀ s ∈ twoSections, ∃ record block, info.get? s.bb_id = some record ∧
          blocks.get? s.bb_id = some block ∧ record.insts = block.insts.length := by
  refine ⟨by decide +kernel, ?_⟩
  obtain ⟨info, blocks, hinfo, hblocks, -, -, hagree, -⟩ := the_two_readers_agree oneRoutine
    twoSections (by simp [twoSections]) (by decide) (by unfold HasFuncs; decide)
  refine ⟨info, blocks, hinfo, hblocks, fun s hs => ?_⟩
  obtain ⟨record, block, hrecord, hblock, -, -, -, hinsts⟩ := hagree s hs
  exact ⟨record, block, hrecord, hblock, hinsts⟩

end ditto.base_analyzer
