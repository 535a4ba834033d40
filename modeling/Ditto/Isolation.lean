-- Isolation of the threads. The graph of the chosen threads should not depend
-- on what the other threads do, but a block that the chosen threads never
-- enter keeps the executions of the whole process.
import Ditto.Dcfg

namespace ditto.base_analyzer

/-! ## Profiles that agree on the chosen threads -/

structure Profile where
  json : DcfgJson
  bb_lines : List BBLine

def CountsAgree (tids counts counts' : List ℕ) : Prop := ∀ i ∈ tids, counts[i]? = counts'[i]?

/-- The same edge, with other executions of the other threads. -/
structure EdgeRow.Same (tids : List ℕ) (r r' : EdgeRow) : Prop where
  source : r.source = r'.source
  target : r.target = r'.target
  type_id : r.type_id = r'.type_id
  counts : CountsAgree tids r.executions r'.executions

structure Process.Same (tids : List ℕ) (p p' : Process) : Prop where
  images : p.images = p'.images
  edges : Option.Rel (List.Forall₂ (EdgeRow.Same tids)) p.edges p'.edges

/-- The same line, up to the numbers of executions of the whole process. -/
def BBLine.Same : BBLine → BBLine → Prop
  | .block bb_id addr _ size _, .block bb_id' addr' _ size' _ =>
    bb_id = bb_id' ∧ addr = addr' ∧ size = size'
  | .xdis addr inst, .xdis addr' inst' => addr = addr' ∧ inst = inst'
  | .other, .other => True
  | _, _ => False

/-- The same blocks, edges and edge types, and the same executions of the chosen threads. -/
structure Profile.Same (tids : List ℕ) (p p' : Profile) : Prop where
  edge_types : p.json.edge_types = p'.json.edge_types
  processes : List.Forall₂ (Process.Same tids) p.json.processes p'.json.processes
  lines : List.Forall₂ BBLine.Same p.bb_lines p'.bb_lines

/-- Two loaded graphs with the same blocks and edges that agree on the chosen threads. -/
structure FullDcfg.Same (tids : List ℕ) (g g' : FullDcfg) : Prop where
  nodes : g.nodes.keys = g'.nodes.keys
  edges : PyDict.Rel (fun a a' => CountsAgree tids a.executions a'.executions) g.edges g'.edges

variable {tids : List ℕ} {g g' h h' : FullDcfg}

theorem same_add_block {info info' : PyDict ℕ BlockInfo} {bb : ℕ} (hs : FullDcfg.Same tids g g')
    (hg : add_block .values info g bb = .ok h) (hg' : add_block .values info' g' bb = .ok h') :
    FullDcfg.Same tids h h' := by
  obtain ⟨a, -, rfl⟩ := add_block_ok hg
  obtain ⟨a', -, rfl⟩ := add_block_ok hg'
  refine ⟨?_, hs.edges⟩
  unfold DiGraph.add_node
  rw [PyDict.keys_set, PyDict.keys_set, hs.nodes]

theorem same_add_image {info info' : PyDict ℕ BlockInfo} {image : Image}
    (hs : FullDcfg.Same tids g g') (hg : add_image .values info g image = .ok h)
    (hg' : add_image .values info' g' image = .ok h') : FullDcfg.Same tids h h' := by
  unfold add_image at hg hg'
  refine PyError.foldlM_rel (S := Eq) ?_ (List.forall₂_eq_eq_eq.symm ▸ rfl) hs hg hg'
  rintro b b' x _ c c' hb rfl hc hc'
  exact same_add_block hb hc hc'

theorem same_add_row {types : PyDict ℕ String} {row row' : EdgeRow} (hs : FullDcfg.Same tids g g')
    (hrow : EdgeRow.Same tids row row') (hg : add_row .values types g row = .ok h)
    (hg' : add_row .values types g' row' = .ok h') : FullDcfg.Same tids h h' := by
  have hsame : row.source ∈ g.nodes.keys ∧ row.target ∈ g.nodes.keys ↔
      row'.source ∈ g'.nodes.keys ∧ row'.target ∈ g'.nodes.keys := by
    rw [hrow.source, hrow.target, hs.nodes]
  obtain ⟨hin, e, he, rfl⟩ | ⟨hout, rfl⟩ := add_row_ok hg
  · obtain ⟨hin', e', he', rfl⟩ | ⟨hout', -⟩ := add_row_ok hg'
    · refine ⟨hs.nodes, ?_⟩
      change PyDict.Rel _ (g.edges.set (row.source, row.target) e)
        (g'.edges.set (row'.source, row'.target) e')
      rw [hrow.source, hrow.target]
      exact hs.edges.set _ (by rw [he, he']; exact hrow.counts)
    · exact absurd (hsame.mp hin) hout'
  · obtain ⟨hin', -⟩ | ⟨-, rfl⟩ := add_row_ok hg'
    · exact absurd (hsame.mpr hin') hout
    · exact hs

theorem same_parse {p p' : Profile} (hs : Profile.Same tids p p')
    (hg : parse_dcfg p.json p.bb_lines = .ok g) (hg' : parse_dcfg p'.json p'.bb_lines = .ok g') :
    FullDcfg.Same tids g g' := by
  unfold parse_dcfg parse_dcfg_in at hg hg'
  obtain ⟨info, -, hg⟩ := PyError.ok_of_bind hg
  obtain ⟨info', -, hg'⟩ := PyError.ok_of_bind hg'
  have htypes : edge_types p.json = edge_types p'.json := by
    unfold edge_types
    rw [hs.edge_types]
  have hprocesses := hs.processes
  rw [htypes] at hg
  generalize p.json.processes = processes at hg hprocesses
  generalize p'.json.processes = processes' at hg' hprocesses
  cases hprocesses with
  | nil => cases hg
  | @cons process process' _ _ hprocess _ =>
    obtain ⟨himages, hedges⟩ := hprocess
    obtain ⟨images, edges⟩ := process
    obtain ⟨images', edges'⟩ := process'
    simp only at himages hedges hg hg'
    subst himages
    cases images with
    | none => cases hg
    | some images =>
      cases hedges with
      | none => cases hg
      | some hrows =>
        obtain ⟨m, hm, hg⟩ := PyError.ok_of_bind hg
        obtain ⟨m', hm', hg'⟩ := PyError.ok_of_bind hg'
        have hempty : FullDcfg.Same tids .empty .empty := ⟨rfl, PyDict.rel_empty _⟩
        have hnodes : FullDcfg.Same tids m m' := by
          refine PyError.foldlM_rel (S := Eq) ?_ (List.forall₂_eq_eq_eq.symm ▸ rfl) hempty hm hm'
          rintro b b' x _ c c' hb rfl hc hc'
          exact same_add_image hb hc hc'
        refine PyError.foldlM_rel ?_ hrows hnodes hg hg'
        intro b b' x x' c c' hb hx hc hc'
        exact same_add_row hb hx hc hc'

/-! ## The counts of the chosen threads -/

theorem thread_sum_congr {counts counts' : List ℕ} (h : CountsAgree tids counts counts') :
    thread_sum tids counts = thread_sum tids counts' := by
  unfold thread_sum
  congr 1
  induction tids with
  | nil => rfl
  | cons i rest ih =>
    rw [List.mapM_cons, List.mapM_cons, h i List.mem_cons_self,
      ih fun j hj => h j (List.mem_cons_of_mem _ hj)]

theorem counts_congr {tids : List ℕ} {l l' : List ((ℕ × ℕ) × FullEdge)}
    {all all' : List ((ℕ × ℕ) × CountedEdge)}
    (hl : List.Forall₂ (fun e e' => e.1 = e'.1 ∧ CountsAgree tids e.2.executions e'.2.executions)
      l l')
    (hall : List.Forall₂ (fun e e' => e.1 = e'.1 ∧ count_edge tids e.2 = .ok e'.2) l all)
    (hall' : List.Forall₂ (fun e e' => e.1 = e'.1 ∧ count_edge tids e.2 = .ok e'.2) l' all') :
    all.map (fun e => (e.1, e.2.executions)) = all'.map (fun e => (e.1, e.2.executions)) := by
  induction hl generalizing all all' with
  | nil =>
    cases hall
    cases hall'
    rfl
  | cons he _ ih =>
    cases hall with
    | cons hx hrest =>
      cases hall' with
      | cons hx' hrest' =>
        have hsum := count_edge_executions hx.2
        rw [thread_sum_congr he.2, count_edge_executions hx'.2, Except.ok.injEq] at hsum
        rw [List.map_cons, List.map_cons, ih hrest hrest', hsum, ← hx.1, ← hx'.1, he.1]

/-- The edges that are left, each with its executions. -/
def weights (g : CountedDcfg) : List ((ℕ × ℕ) × ℕ) :=
  g.edges.entries.map fun e => (e.1, e.2.executions)

theorem weights_congr {c c' : CountedDcfg} (hs : FullDcfg.Same tids g g')
    (hc : count_edges tids g = .ok c) (hc' : count_edges tids g' = .ok c') :
    weights c = weights c' := by
  obtain ⟨-, all, hall, hleft⟩ := count_edges_spec hc
  obtain ⟨-, all', hall', hleft'⟩ := count_edges_spec hc'
  have hfilter : ∀ l : List ((ℕ × ℕ) × CountedEdge),
      (l.filter fun e => e.2.executions ≠ 0).map (fun e => (e.1, e.2.executions)) =
        (l.map fun e => (e.1, e.2.executions)).filter fun e => e.2 ≠ 0 := by
    intro l
    rw [List.filter_map]
    rfl
  unfold weights
  rw [hleft, hleft', hfilter, hfilter, counts_congr hs.edges.forall₂ hall hall']

theorem counts_ok {tids : List ℕ} {l l' : List ((ℕ × ℕ) × FullEdge)}
    {all : List ((ℕ × ℕ) × CountedEdge)}
    (hl : List.Forall₂ (fun e e' => e.1 = e'.1 ∧ CountsAgree tids e.2.executions e'.2.executions)
      l l')
    (hall : List.Forall₂ (fun e e' => e.1 = e'.1 ∧ count_edge tids e.2 = .ok e'.2) l all) :
    ∀ e ∈ l', ∃ v, count_edge tids e.2 = .ok v := by
  induction hl generalizing all with
  | nil => simp
  | cons he _ ih =>
    cases hall with
    | cons hx hrest =>
      rw [List.forall_mem_cons]
      refine ⟨?_, ih hrest⟩
      have hsum := count_edge_executions hx.2
      rw [thread_sum_congr he.2] at hsum
      unfold count_edge
      rw [hsum]
      exact ⟨_, rfl⟩

theorem count_edges_ok {c : CountedDcfg} (hs : FullDcfg.Same tids g g')
    (hc : count_edges tids g = .ok c) : ∃ c', count_edges tids g' = .ok c' := by
  obtain ⟨-, all, hall, -⟩ := count_edges_spec hc
  obtain ⟨edges, hedges⟩ := PyDict.mapM_ok (f := fun _ e => count_edge tids e)
    (counts_ok hs.edges.forall₂ hall)
  obtain ⟨counted, hcounted⟩ := DiGraph.mapEdgesM_ok hedges
  unfold count_edges
  rw [hcounted]
  exact ⟨_, rfl⟩

theorem in_edges_eq (g : CountedDcfg) (b : ℕ) :
    (g.in_edges b).map (fun e => e.2.executions) =
      ((weights g).filter fun e => e.1.2 = b).map Prod.snd := by
  unfold weights DiGraph.in_edges
  rw [List.filter_map, List.map_map]
  rfl

theorem in_edges_nil_iff (g : CountedDcfg) (b : ℕ) :
    g.in_edges b = [] ↔ ((weights g).filter fun e => e.1.2 = b).map Prod.snd = [] := by
  rw [← in_edges_eq, List.map_eq_nil_iff]

theorem update_node_congr {c c' : CountedDcfg} (h : weights c = weights c') (b : ℕ)
    (info info' : BlockInfo) (hinfo : c.in_edges b = [] → info.executions = info'.executions) :
    (update_node c b info).executions = (update_node c' b info').executions := by
  rw [update_node_executions, update_node_executions, in_edges_eq, in_edges_eq, h]
  have hnil : c.in_edges b = [] ↔ c'.in_edges b = [] := by
    rw [in_edges_nil_iff, in_edges_nil_iff, h]
  by_cases hb : c.in_edges b = []
  · rw [if_pos hb, if_pos (hnil.mp hb), hinfo hb]
  · rw [if_neg hb, if_neg (fun hb' => hb (hnil.mpr hb'))]

theorem get?_executions_eq (g : CountedDcfg) (e : ℕ × ℕ) :
    (g.edges.get? e).map CountedEdge.executions =
      ((weights g).find? fun x => x.1 = e).map Prod.snd := by
  unfold weights PyDict.get?
  rw [List.find?_map, Option.map_map, Option.map_map]
  rfl

/-- No chosen thread enters the block over an edge. -/
def Unreached (tids : List ℕ) (g : FullDcfg) (b : ℕ) : Prop :=
  ∀ e ∈ g.edges.entries, e.1.2 = b → thread_sum tids e.2.executions = .ok 0

instance (tids : List ℕ) (g : FullDcfg) (b : ℕ) : Decidable (Unreached tids g b) :=
  inferInstanceAs (Decidable (∀ e ∈ g.edges.entries, _ → _))

theorem in_edges_nil_iff_unreached {c : CountedDcfg} (b : ℕ) (hc : count_edges tids g = .ok c) :
    c.in_edges b = [] ↔ Unreached tids g b := by
  obtain ⟨-, all, hall, hleft⟩ := count_edges_spec hc
  unfold DiGraph.in_edges Unreached
  rw [hleft]
  clear hleft
  generalize g.edges.entries = l at hall
  induction hall with
  | nil => simp
  | @cons x y _ _ hxy _ ih =>
    have hsum := count_edge_executions hxy.2
    rw [List.forall_mem_cons, ← ih, hsum, hxy.1, Except.ok.injEq]
    by_cases hy : y.2.executions = 0
    · simp [hy]
    · by_cases hb : y.1.2 = b <;> simp [hy, hb]

/-! ## The laws -/

/-- The same executions on each block, and the same executions and probabilities on each
edge. -/
structure SameStats (d d' : Dcfg) : Prop where
  nodes : ∀ b, executionsOf d b = executionsOf d' b
  edges : ∀ e, (d.edges.get? e).map (fun a => (a.executions, a.forward_prob, a.backward_prob)) =
    (d'.edges.get? e).map fun a => (a.executions, a.forward_prob, a.backward_prob)

theorem sameStats_iff {d d' : Dcfg} (hs : FullDcfg.Same tids g g')
    (hd : build_target_tid_dcfg tids g = .ok d) (hd' : build_target_tid_dcfg tids g' = .ok d') :
    SameStats d d' ↔
      ∀ b, Unreached tids g b → executionsOf g b = executionsOf g' b := by
  obtain ⟨c, hc, hnodes, hedges⟩ := build_spec hd
  obtain ⟨c', hc', hnodes', hedges'⟩ := build_spec hd'
  have hw := weights_congr hs hc hc'
  have hnil : ∀ b, c'.in_edges b = [] ↔ c.in_edges b = [] := by
    intro b
    rw [in_edges_nil_iff, in_edges_nil_iff, hw]
  constructor
  · intro h b hb
    have hout := h.nodes b
    rw [← in_edges_nil_iff_unreached b hc] at hb
    rw [hnodes, hnodes'] at hout
    simp only [update_node_executions, hb, (hnil b).mpr hb, ↓reduceIte] at hout
    exact hout
  · intro h
    have hsame : ∀ b, executionsOf d b = executionsOf d' b := by
      intro b
      rw [hnodes, hnodes']
      rcases hg : g.nodes.get? b with _ | info
      · rw [PyDict.get?_eq_none_iff, hs.nodes, ← PyDict.get?_eq_none_iff] at hg
        rw [hg]
        rfl
      · rcases hg' : g'.nodes.get? b with _ | info'
        · rw [PyDict.get?_eq_none_iff, ← hs.nodes, ← PyDict.get?_eq_none_iff, hg] at hg'
          cases hg'
        · rw [Option.map_some, Option.map_some, update_node_congr hw b info info']
          intro hb
          have := h b ((in_edges_nil_iff_unreached b hc).mp hb)
          unfold executionsOf at this
          rw [hg, hg', Option.map_some, Option.map_some, Option.some.injEq] at this
          exact this
    refine ⟨hsame, fun e => ?_⟩
    rw [hedges, hedges', get?_executions_eq, get?_executions_eq, hw, hsame, hsame]

/-- The graph of the chosen threads depends on the other threads exactly through the blocks
that no chosen thread enters: such a block keeps the executions of the whole process. -/
theorem threads_are_isolated_iff_unreached_blocks_agree (tids : List ℕ) (p p' : Profile)
    (g g' : FullDcfg) (d : Dcfg) (hs : Profile.Same tids p p')
    (hg : parse_dcfg p.json p.bb_lines = .ok g) (hg' : parse_dcfg p'.json p'.bb_lines = .ok g')
    (hd : build_target_tid_dcfg tids g = .ok d) :
    ∃ d', build_target_tid_dcfg tids g' = .ok d' ∧
      (SameStats d d' ↔ ∀ b, Unreached tids g b → executionsOf g b = executionsOf g' b) := by
  have hsame := same_parse hs hg hg'
  obtain ⟨c, hc, -, -⟩ := build_spec hd
  obtain ⟨c', hc'⟩ := count_edges_ok hsame hc
  have hd' : ∃ d', build_target_tid_dcfg tids g' = .ok d' := by
    unfold build_target_tid_dcfg
    rw [hc']
    exact ⟨_, rfl⟩
  obtain ⟨d', hd'⟩ := hd'
  exact ⟨d', hd', sameStats_iff hsame hd hd'⟩

/-- A process whose thread 0 goes round the blocks 1 and 2. Thread 1 goes round them `n`
times, and enters the block 3 from the block 1 `m` times. -/
def twoThreads (n m : ℕ) : Profile where
  json :=
    { edge_types := [(1, "direct conditional branch")]
      processes := [
        { images := some [⟨some [⟨1, [1, 2, 3]⟩], some [1, 2, 3]⟩]
          edges := some [⟨1, 2, 1, [4, n]⟩, ⟨2, 1, 1, [3, n]⟩, ⟨1, 3, 1, [0, m]⟩] }] }
  bb_lines := [.block 1 "400000" (4 + n + m) 8 (8 + 2 * n + 2 * m), .xdis "400000" "nop",
    .block 2 "400008" (4 + n) 4 (4 + n), .xdis "400008" "nop",
    .block 3 "40000c" m 4 m, .xdis "40000c" "nop"]

theorem same_twoThreads (n m n' m' : ℕ) : (twoThreads n m).Same [0] (twoThreads n' m') := by
  refine ⟨rfl, List.Forall₂.cons ⟨rfl, Option.Rel.some ?_⟩ List.Forall₂.nil, ?_⟩
  · refine List.Forall₂.cons ⟨rfl, rfl, rfl, ?_⟩ (List.Forall₂.cons ⟨rfl, rfl, rfl, ?_⟩
      (List.Forall₂.cons ⟨rfl, rfl, rfl, ?_⟩ List.Forall₂.nil)) <;> simp [CountsAgree]
  · simp [twoThreads, BBLine.Same]

/-- The blocks of a loaded graph, which of them thread 0 never enters, and how often the block 3
was executed. -/
def blocksOf (loaded : FullDcfg × Dcfg) : List ℕ × List Bool × Option ℕ :=
  (loaded.1.nodes.keys, [1, 2, 3].map fun b => decide (Unreached [0] loaded.1 b),
    executionsOf loaded.1 3)

theorem load_twoThreads {n m k : ℕ}
    (h : (load [0] (twoThreads n m).json (twoThreads n m).bb_lines).map blocksOf =
      .ok ([1, 2, 3], [false, false, true], some k)) :
    ∃ g d, parse_dcfg (twoThreads n m).json (twoThreads n m).bb_lines = .ok g ∧
      build_target_tid_dcfg [0] g = .ok d ∧ g.nodes.keys = [1, 2, 3] ∧
      (∀ b ∈ g.nodes.keys, Unreached [0] g b ↔ b = 3) ∧ executionsOf g 3 = some k := by
  obtain ⟨g, d, hg, hd, hblocks⟩ := exists_of_load h
  simp only [blocksOf, List.map_cons, List.map_nil, Prod.mk.injEq, List.cons.injEq,
    decide_eq_false_iff_not, decide_eq_true_eq] at hblocks
  obtain ⟨hkeys, ⟨h1, h2, h3, -⟩, hn⟩ := hblocks
  refine ⟨g, d, hg, hd, hkeys, ?_, hn⟩
  rw [hkeys]
  simp [h1, h2, h3]

/-- Thread 0 gets the same graph when thread 1 goes round the loop more often. -/
theorem threads_are_isolated_on_a_loop :
    ∃ g g' d d', parse_dcfg (twoThreads 2 5).json (twoThreads 2 5).bb_lines = .ok g ∧
      parse_dcfg (twoThreads 9 5).json (twoThreads 9 5).bb_lines = .ok g' ∧
      build_target_tid_dcfg [0] g = .ok d ∧ build_target_tid_dcfg [0] g' = .ok d' ∧
      SameStats d d' := by
  obtain ⟨g, d, hg, hd, hkeys, hun, hn⟩ :=
    load_twoThreads (n := 2) (m := 5) (k := 5) (by decide +kernel)
  obtain ⟨g', -, hg', -, hkeys', -, hn'⟩ :=
    load_twoThreads (n := 9) (m := 5) (k := 5) (by decide +kernel)
  obtain ⟨d', hd', hiff⟩ := threads_are_isolated_iff_unreached_blocks_agree [0] (twoThreads 2 5)
    (twoThreads 9 5) g g' d (same_twoThreads 2 5 9 5) hg hg' hd
  refine ⟨g, g', d, d', hg, hg', hd, hd', hiff.mpr fun b hb => ?_⟩
  by_cases hmem : b ∈ g.nodes.keys
  · rw [(hun b hmem).mp hb, hn, hn']
  · -- neither graph has the block
    unfold executionsOf
    rw [PyDict.get?_eq_none_iff.mpr hmem,
      PyDict.get?_eq_none_iff.mpr (by rwa [hkeys', ← hkeys])]

/-- Only thread 1 enters the block 3, five times in one profile and seven times in the other.
The graph of thread 0 has the block with these executions. -/
theorem a_block_of_another_thread_leaks_its_executions :
    ¬ ∀ (tids : List ℕ) (p p' : Profile) (g g' : FullDcfg) (d d' : Dcfg),
      Profile.Same tids p p' → parse_dcfg p.json p.bb_lines = .ok g →
      parse_dcfg p'.json p'.bb_lines = .ok g' → build_target_tid_dcfg tids g = .ok d →
      build_target_tid_dcfg tids g' = .ok d' → SameStats d d' := by
  intro h
  obtain ⟨g, d, hg, hd, hkeys, hun, hn⟩ :=
    load_twoThreads (n := 2) (m := 5) (k := 5) (by decide +kernel)
  obtain ⟨g', d', hg', hd', -, -, hn'⟩ :=
    load_twoThreads (n := 2) (m := 7) (k := 7) (by decide +kernel)
  have hsame := same_twoThreads 2 5 2 7
  have hstats := h [0] _ _ g g' d d' hsame hg hg' hd hd'
  have hthree := (sameStats_iff (same_parse hsame hg hg') hd hd').mp hstats 3
    ((hun 3 (by simp [hkeys])).mpr rfl)
  rw [hn, hn'] at hthree
  cases hthree

end ditto.base_analyzer
