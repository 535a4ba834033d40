-- The call trees of the cluster analysis (`build_call_graph_helper` of
-- backbone_analysis/analyze_cluster.py): each line of a collapsed stack adds its
-- count on the way of its frames. The counts stand in the labels of the nodes,
-- which are taken apart and put together again for each line.
import Ditto.BracketNotation
import Ditto.Lib.CountTrie
import Mathlib.Algebra.Order.Group.Int
import Mathlib.Algebra.Ring.Int.Defs

open PyText CountTrie

namespace ditto.call_trees

open bracket_notation

/-! ## Labels and lines -/

/-- The model of `text.split(' %%% ')[0]`. -/
def func_part (text : List Char) : List Char := (split " %%% ".toList text).headD []

/-- The model of `int(text.split(' %%% ')[1])`. -/
def count_part (text : List Char) : Except PyError ℤ :=
  match (split " %%% ".toList text)[1]? with
  | none => .error .indexError
  | some count => int count

/-- The model of `line.split(' %%% ')[0].split(';')`. -/
def words (line : List Char) : List (List Char) := (func_part line).splitOn ';'

/-- The frames of a line: all its words but the first. -/
def frames (line : List Char) : List (List Char) := (words line).tail

/-- The model of `[int(i) for i in re.findall('[0-9]+', text)]`. -/
def find_numbers (text : List Char) : List ℕ :=
  ((text.splitOnP fun c => !c.isDigit).filter (· ≠ [])).map fun digits =>
    ofDigits (digits.map fun c => c.toNat - 48)

/-- The process or thread of a line, from the end of its first word. -/
def key_of (line : List Char) : List ℕ :=
  find_numbers ((((words line).headD []).splitOn '-').getLastD [])

/-- The name of a node: the hash of a function, or no name. -/
abbrev HexName := { name : List Char // ∀ c ∈ name, isHexDigit c = true }

def isAscii (w : List Char) : Bool := w.all fun c => c.toNat < 128

/-! ## The builder -/

section Builder

-- The first digits of the SHA-1 hash of an ASCII text.
variable (sha1 : List Char → HexName)

/-- The model of `hashlib.sha1(w.encode("ascii")).hexdigest()[:16]`. -/
def func_name_hashed (w : List Char) : Except PyError (List Char) :=
  if isAscii w then .ok (sha1 w).val else .error .valueError

/-- A node with a larger count in its label. -/
def add_count (count : ℤ) : TreeNode → Except PyError TreeNode
  | .node label children => do
    let func_name := func_part label
    let prev_count ← count_part label
    return .node (label_text ⟨func_name, prev_count + count⟩) children

/-- The function in the label of a node. -/
def node_func : TreeNode → List Char
  | .node label _ => func_part label

/-- The loop over the children that stops at the first one of a name. -/
def update_child (func_name_hashed : List Char) (f : TreeNode → Except PyError TreeNode) :
    List TreeNode → Except PyError (List TreeNode)
  | [] => .ok []
  | child :: children =>
    if func_name_hashed = node_func child then do return (← f child) :: children
    else do return child :: (← update_child func_name_hashed f children)

/-- The loop over the frames of a line, below a node that has been counted. -/
def add_frames (count : ℤ) : List (List Char) → TreeNode → Except PyError TreeNode
  | [], prev_node => .ok prev_node
  | w :: ws, .node label children => do
    let func ← func_name_hashed sha1 w
    if func ∉ children.map node_func then
      let curr_node ← add_frames count ws (.node (label_text ⟨func, count⟩) [])
      return .node label (children ++ [curr_node])
    else
      let children ← update_child func
        (fun child => do add_frames count ws (← add_count count child)) children
      return .node label children

/-- The trees by their processes and threads. -/
abbrev Graphs := PyDict (List ℕ) TreeNode

/-- The root for a line, which is a new one for a new process or thread. -/
def count_root (app : List Char) (count : ℤ) : Option TreeNode → Except PyError TreeNode
  | none => do
    let func ← func_name_hashed sha1 app
    return .node (label_text ⟨func, count⟩) []
  | some root => add_count count root

/-- One turn of the loop over the lines. -/
def add_line (app : List Char) (graphs : Graphs) (line : List Char) : Except PyError Graphs :=
  if 1 < (words line).length then do
    let key := key_of line
    let count ← count_part line
    let root ← count_root sha1 app count (graphs.get? key)
    let root ← add_frames sha1 count (frames line) root
    return graphs.set key root
  else .ok graphs

/-- The model of `build_call_graph_helper`. An empty file has a tree of one node. -/
def build_call_graph_helper (app : List Char) (lines : List (List Char)) (pid : ℕ)
    (thread : Bool) : Except PyError Graphs :=
  if lines ≠ [] then lines.foldlM (add_line sha1 app) .empty
  else .ok (PyDict.empty.set (if thread then [pid, pid] else [pid]) (.node " %%% 0".toList []))

/-! ## What the lines say -/

/-- A line with frames has a count, and the names of its frames are ASCII texts. -/
def CollapsedStack (line : List Char) : Prop :=
  1 < (words line).length →
    (∃ count, count_part line = .ok count) ∧ ∀ w ∈ frames line, isAscii w = true

theorem collapsedStack_of_isSome {line : List Char}
    (hcount : (count_part line).toOption.isSome = true)
    (hascii : ∀ w ∈ frames line, isAscii w = true) : CollapsedStack line := by
  refine fun _ => ⟨?_, hascii⟩
  cases h : count_part line with
  | error err =>
    rw [h] at hcount
    cases hcount
  | ok count => exact ⟨count, rfl⟩

/-- The stack of a line of a process or thread: the hashed frames and the count. -/
def stack_of (key : List ℕ) (line : List Char) : Option (List HexName × ℤ) :=
  if 1 < (words line).length ∧ key_of line = key then
    some ((frames line).map sha1, (count_part line).toOption.getD 0)
  else none

def stacksOf (lines : List (List Char)) (key : List ℕ) : List (List HexName × ℤ) :=
  lines.filterMap (stack_of sha1 key)

end Builder

/-! ## Trees of names and counts -/

/-- The label of a name and a count. -/
def labelOf (a : HexName × ℤ) : List Char := label_text ⟨a.1.val, a.2⟩

/-- A tree with its names and counts in labels. -/
def shown (t : Trie HexName ℤ) : TreeNode := t.map labelOf

theorem split_labelOf (a : HexName × ℤ) :
    split " %%% ".toList (labelOf a) = [a.1.val, ofInt a.2] := by
  have hname : ' ' ∉ a.1.val := fun h => ne_space_of_isHexDigit (a.1.2 _ h) rfl
  have hcount : ' ' ∉ ofInt a.2 := fun h => absurd (isSpace_of_mem_ofInt h) (by decide)
  exact split_append hname hcount

theorem func_part_labelOf (a : HexName × ℤ) : func_part (labelOf a) = a.1.val := by
  rw [func_part, split_labelOf]
  rfl

theorem count_part_labelOf (a : HexName × ℤ) : count_part (labelOf a) = .ok a.2 := by
  rw [count_part, split_labelOf]
  exact int_ofInt a.2

theorem shown_node (a : HexName × ℤ) (cs : List (Trie HexName ℤ)) :
    shown (.node a cs) = .node (labelOf a) (cs.map shown) := by
  unfold shown
  rw [Rose.map, Rose.forestMap_eq_map]

theorem node_func_shown (t : Trie HexName ℤ) : node_func (shown t) = (name t).val := by
  cases t with
  | node a cs =>
    rw [shown_node]
    exact func_part_labelOf a

theorem add_count_shown (count : ℤ) (t : Trie HexName ℤ) :
    add_count count (shown t) = .ok (shown (bump count t)) := by
  cases t with
  | node a cs =>
    rw [shown_node, add_count, func_part_labelOf, count_part_labelOf, bump, shown_node]
    rfl

theorem update_child_shown {k : HexName} {f : TreeNode → Except PyError TreeNode}
    {g : Trie HexName ℤ → Trie HexName ℤ} (hf : ∀ t, f (shown t) = .ok (shown (g t)))
    {cs : List (Trie HexName ℤ)} (hk : k ∈ cs.map name) :
    update_child k.val f (cs.map shown) = .ok ((updateChild k g cs).map shown) := by
  induction cs with
  | nil => cases hk
  | cons c cs ih =>
    rw [List.map_cons, update_child, node_func_shown, updateChild]
    by_cases hc : name c = k
    · rw [if_pos (by rw [hc]), if_pos hc, hf]
      rfl
    · have hrest : k ∈ cs.map name := (List.mem_cons.mp hk).resolve_left (Ne.symm hc)
      rw [if_neg fun h => hc (Subtype.ext h.symm), if_neg hc, ih hrest]
      rfl

/-- The loop over the frames inserts them below the node. -/
theorem add_frames_shown (sha1 : List Char → HexName) (count : ℤ) {ws : List (List Char)}
    (hascii : ∀ w ∈ ws, isAscii w = true) (t : Trie HexName ℤ) :
    add_frames sha1 count ws (shown (bump count t)) =
      .ok (shown (CountTrie.insert count (ws.map sha1) t)) := by
  induction ws generalizing t with
  | nil => rfl
  | cons w ws ih =>
    rw [List.forall_mem_cons] at hascii
    have hrest := ih hascii.2
    cases t with
    | node a cs =>
      have hmem : (sha1 w).val ∈ (cs.map shown).map node_func ↔ sha1 w ∈ cs.map name := by
        simp [node_func_shown, Subtype.ext_iff]
      rw [bump, shown_node, add_frames, func_name_hashed, if_pos hascii.1]
      rw [List.map_cons, CountTrie.insert, shown_node]
      change (if (sha1 w).val ∉ (cs.map shown).map node_func then _ else _) = _
      by_cases hw : sha1 w ∈ cs.map name
      · rw [if_neg (not_not.mpr (hmem.mpr hw)),
          update_child_shown (g := CountTrie.insert count (ws.map sha1)) ?_ hw]
        · rfl
        · intro t
          rw [add_count_shown]
          exact hrest t
      · have hnew : shown (bump count (.node (sha1 w, 0) [])) =
            .node (label_text ⟨(sha1 w).val, count⟩) [] := by
          rw [bump, shown_node, zero_add]
          rfl
        rw [if_pos fun h => hw (hmem.mp h), ← hnew, hrest, updateChild_of_not_mem hw, List.map_append]
        rfl

/-! ## The run over the lines -/

section Run

variable {sha1 : List Char → HexName} {app : List Char}

/-- The trees are those of the stacks of the lines. -/
def Shows (sha1 : List Char → HexName) (app : List Char) (lines : List (List Char))
    (graphs : Graphs) : Prop :=
  ∀ key, graphs.get? key =
    if stacksOf sha1 lines key = [] then none
    else some (shown (build (sha1 app) (stacksOf sha1 lines key)))

theorem stacksOf_concat (lines : List (List Char)) (line : List Char) (key : List ℕ) :
    stacksOf sha1 (lines ++ [line]) key =
      stacksOf sha1 lines key ++ (stack_of sha1 key line).toList := by
  unfold stacksOf
  rw [List.filterMap_append]
  cases h : stack_of sha1 key line with
  | none => rw [List.filterMap_cons_none h]; rfl
  | some s => rw [List.filterMap_cons_some h]; rfl

theorem count_root_shows {lines : List (List Char)} {graphs : Graphs}
    (happ : isAscii app = true) (h : Shows sha1 app lines graphs) (count : ℤ) (key : List ℕ) :
    count_root sha1 app count (graphs.get? key) =
      .ok (shown (bump count (build (sha1 app) (stacksOf sha1 lines key)))) := by
  rw [h key]
  split
  · rename_i hnil
    rw [hnil, build_nil, bump, shown_node, zero_add, count_root, func_name_hashed, if_pos happ]
    rfl
  · exact add_count_shown count _

theorem add_line_shows (happ : isAscii app = true) {lines : List (List Char)} {line : List Char}
    (hline : CollapsedStack line) {graphs : Graphs} (h : Shows sha1 app lines graphs) :
    ∃ graphs', add_line sha1 app graphs line = .ok graphs' ∧
      Shows sha1 app (lines ++ [line]) graphs' := by
  unfold add_line
  by_cases hlength : 1 < (words line).length
  · obtain ⟨⟨count, hcount⟩, hascii⟩ := hline hlength
    refine ⟨graphs.set (key_of line) (shown (build (sha1 app)
      (stacksOf sha1 lines (key_of line) ++ [((frames line).map sha1, count)]))), ?_,
      fun key => ?_⟩
    · rw [if_pos hlength, hcount]
      change (count_root sha1 app count (graphs.get? (key_of line)) >>= _) = _
      rw [count_root_shows happ h]
      change (add_frames sha1 count (frames line) _ >>= _) = _
      rw [add_frames_shown sha1 count hascii, build_concat]
      rfl
    · rw [stacksOf_concat]
      by_cases hkey : key_of line = key
      · subst hkey
        have hstack : stack_of sha1 (key_of line) line =
            some ((frames line).map sha1, count) := by
          rw [stack_of, if_pos ⟨hlength, rfl⟩, hcount]
          rfl
        rw [PyDict.get?_set_self, hstack]
        simp
      · have hstack : stack_of sha1 key line = none := if_neg fun hboth => hkey hboth.2
        rw [PyDict.get?_set_of_ne _ _ (Ne.symm hkey), hstack, h key]
        simp
  · refine ⟨graphs, if_neg hlength, fun key => ?_⟩
    have hstack : stack_of sha1 key line = none := if_neg fun hboth => hlength hboth.1
    rw [stacksOf_concat, hstack, h key]
    simp

theorem run_shows (sha1 : List Char → HexName) (happ : isAscii app = true)
    {lines : List (List Char)}
    (hlines : ∀ line ∈ lines, CollapsedStack line) :
    ∃ graphs, lines.foldlM (add_line sha1 app) .empty = .ok graphs ∧
      Shows sha1 app lines graphs := by
  apply PyError.exists_foldlM_along
  · exact fun key => rfl
  · intro done line hline graphs hshows
    exact add_line_shows happ (hlines line hline) hshows

/-- The tree of an empty file. -/
theorem shown_empty : shown (.node (⟨[], by simp⟩, 0) []) = .node " %%% 0".toList [] := by
  rw [shown_node]
  rfl

/-- The key of the tree of an empty file. -/
def emptyKey (pid : ℕ) (thread : Bool) : List ℕ := if thread then [pid, pid] else [pid]

/-- The tree of a process or thread. -/
def tree_of (sha1 : List Char → HexName) (app : List Char) (lines : List (List Char)) (pid : ℕ)
    (thread : Bool) (key : List ℕ) : Option (Trie HexName ℤ) :=
  if stacksOf sha1 lines key ≠ [] then some (build (sha1 app) (stacksOf sha1 lines key))
  else if lines = [] ∧ key = emptyKey pid thread then some (.node (⟨[], by simp⟩, 0) [])
  else none

/-- What the builder returns for each key. -/
theorem build_call_graph_helper_spec (sha1 : List Char → HexName) (happ : isAscii app = true)
    {lines : List (List Char)} (hlines : ∀ line ∈ lines, CollapsedStack line) (pid : ℕ)
    (thread : Bool) :
    ∃ graphs, build_call_graph_helper sha1 app lines pid thread = .ok graphs ∧
      ∀ key, graphs.get? key = (tree_of sha1 app lines pid thread key).map shown := by
  unfold build_call_graph_helper tree_of
  by_cases hnil : lines = []
  · subst hnil
    refine ⟨PyDict.empty.set (emptyKey pid thread) (.node " %%% 0".toList []), if_neg (by simp),
      fun key => ?_⟩
    have hnone : stacksOf sha1 [] key = [] := rfl
    rw [hnone, if_neg (not_not.mpr rfl)]
    by_cases hkey : key = emptyKey pid thread
    · rw [if_pos ⟨rfl, hkey⟩, hkey, Option.map_some, shown_empty]
      exact PyDict.get?_set_self _ _ _
    · rw [if_neg fun h => hkey h.2]
      exact PyDict.get?_set_of_ne _ _ hkey
  · obtain ⟨graphs, hrun, hshows⟩ := run_shows sha1 happ hlines
    refine ⟨graphs, by rw [if_pos hnil, hrun], fun key => ?_⟩
    rw [hshows key]
    by_cases hstacks : stacksOf sha1 lines key = []
    · simp [hstacks, hnil]
    · simp [hstacks]

theorem tree_of_eq_none {lines : List (List Char)} {pid : ℕ} {thread : Bool} {key : List ℕ} :
    tree_of sha1 app lines pid thread key = none ↔
      ¬ (stacksOf sha1 lines key ≠ [] ∨ lines = [] ∧ key = emptyKey pid thread) := by
  unfold tree_of
  rw [not_or]
  split
  · rename_i hstacks
    exact iff_of_false (by simp) fun h => h.1 hstacks
  · split
    · rename_i hempty
      exact iff_of_false (by simp) fun h => h.2 hempty
    · rename_i hstacks hempty
      exact iff_of_true rfl ⟨hstacks, hempty⟩

/-- The order of the lines changes only the order of siblings. -/
theorem tree_of_perm (sha1 : List Char → HexName) (app : List Char) {lines lines' : List (List Char)}
    (h : lines'.Perm lines) (pid : ℕ) (thread : Bool) (key : List ℕ) :
    Option.Rel Rose.Reordered ((tree_of sha1 app lines pid thread key).map shown)
      ((tree_of sha1 app lines' pid thread key).map shown) := by
  have hstacks : (stacksOf sha1 lines key).Perm (stacksOf sha1 lines' key) :=
    (h.filterMap _).symm
  have hnil : stacksOf sha1 lines' key = [] ↔ stacksOf sha1 lines key = [] :=
    ⟨fun h => (h ▸ hstacks).eq_nil, fun h => (h ▸ hstacks.symm).eq_nil⟩
  have hlines_nil : lines' = [] ↔ lines = [] :=
    ⟨fun h' => (h' ▸ h.symm).eq_nil, fun h' => (h' ▸ h).eq_nil⟩
  simp only [tree_of, ne_eq, hnil, hlines_nil]
  split
  · exact .some ((reordered_build _ hstacks).map _)
  · split
    · refine .some ?_
      rw [shown_empty]
      exact .node _ .nil (.refl _)
    · exact .none

end Run

/-! ## The law -/

/-- A tree has a node for each start of a stack, with the counts of the stacks that start so. -/
structure CountsPrefixes (samples : List (List HexName × ℤ)) (t : Trie HexName ℤ) : Prop where
  root : weight t = (samples.map Prod.snd).sum
  node : ∀ path ≠ [], (∃ s ∈ samples, path <+: s.1) →
    ∃ n, nodesAt path t = [n] ∧
      weight n = ((samples.filter fun s => path <+: s.1).map Prod.snd).sum
  no_node : ∀ path ≠ [], (¬ ∃ s ∈ samples, path <+: s.1) → nodesAt path t = []
  siblings : ∀ path, ∀ n ∈ nodesAt path t, ((children n).map name).Nodup
  children_le : (∀ s ∈ samples, 0 ≤ s.2) →
    ∀ path, ∀ n ∈ nodesAt path t, ((children n).map weight).sum ≤ weight n

theorem strip_ne_nil_iff {samples : List (List HexName × ℤ)} {path : List HexName} :
    samples.filterMap (CountTrie.strip path) ≠ [] ↔ ∃ s ∈ samples, path <+: s.1 := by
  simp only [ne_eq, List.filterMap_eq_nil_iff, CountTrie.strip, ite_eq_right_iff, reduceCtorEq,
    imp_false, not_forall, not_not, exists_prop]

theorem countsPrefixes_build (k : HexName) (samples : List (List HexName × ℤ)) :
    CountsPrefixes samples (build k samples) := by
  refine ⟨weight_build k samples, fun path hpath hsome => ?_, fun path hpath hnone => ?_,
    fun path n hn => ?_, fun hnonneg path n hn => ?_⟩
  · rcases nodesAt_build path k samples with ⟨-, hnil, -⟩ | ⟨-, x, hnodes⟩
    · exact absurd hnil (strip_ne_nil_iff.mpr hsome)
    · refine ⟨_, hnodes, ?_⟩
      rw [weight_build, map_snd_strip]
  · rcases nodesAt_build path k samples with ⟨-, -, hnodes⟩ | ⟨hne, -⟩
    · exact hnodes
    · exact absurd (strip_ne_nil_iff.mp (hne.resolve_left hpath)) hnone
  · rcases nodesAt_build path k samples with ⟨-, -, hnodes⟩ | ⟨-, x, hnodes⟩
    · rw [hnodes] at hn
      cases hn
    · rw [hnodes, List.mem_singleton] at hn
      rw [hn, map_name_children_build]
      exact nodup_firsts _
  · rcases nodesAt_build path k samples with ⟨-, -, hnodes⟩ | ⟨-, x, hnodes⟩
    · rw [hnodes] at hn
      cases hn
    · rw [hnodes, List.mem_singleton] at hn
      rw [hn]
      refine sum_children_le x fun r hr => ?_
      obtain ⟨s, hs, hstrip⟩ := List.mem_filterMap.mp hr
      unfold CountTrie.strip at hstrip
      split at hstrip
      · cases hstrip
        exact hnonneg s hs
      · cases hstrip

theorem countsPrefixes_tree_of {sha1 : List Char → HexName} {app : List Char}
    {lines : List (List Char)} {pid : ℕ} {thread : Bool} {key : List ℕ} {t : Trie HexName ℤ}
    (h : tree_of sha1 app lines pid thread key = some t) :
    CountsPrefixes (stacksOf sha1 lines key) t := by
  unfold tree_of at h
  split at h
  · cases h
    exact countsPrefixes_build _ _
  · rename_i hstacks
    split at h
    · cases h
      rw [not_not.mp hstacks, ← build_nil]
      exact countsPrefixes_build _ _
    · cases h

/-- The tree of each process and thread counts the starts of its stacks, and the order of the
lines changes only the order of siblings. -/
theorem call_trees_count_prefixes (sha1 : List Char → HexName) (app : List Char)
    (happ : isAscii app = true) (lines : List (List Char))
    (hlines : ∀ line ∈ lines, CollapsedStack line) (pid : ℕ) (thread : Bool) :
    ∃ graphs, build_call_graph_helper sha1 app lines pid thread = .ok graphs ∧
      (∀ key, key ∈ graphs.keys ↔
        stacksOf sha1 lines key ≠ [] ∨ lines = [] ∧ key = emptyKey pid thread) ∧
      (∀ key g, graphs.get? key = some g →
        ∃ t, g = shown t ∧ CountsPrefixes (stacksOf sha1 lines key) t) ∧
      ∀ lines' : List (List Char), lines'.Perm lines →
        ∃ graphs', build_call_graph_helper sha1 app lines' pid thread = .ok graphs' ∧
          ∀ key, Option.Rel Rose.Reordered (graphs.get? key) (graphs'.get? key) := by
  obtain ⟨graphs, hrun, hget⟩ := build_call_graph_helper_spec sha1 happ hlines pid thread
  refine ⟨graphs, hrun, fun key => ?_, fun key g hg => ?_, fun lines' hperm => ?_⟩
  · rw [← not_iff_not, ← PyDict.get?_eq_none_iff, hget key, Option.map_eq_none_iff,
      tree_of_eq_none]
  · rw [hget key, Option.map_eq_some_iff] at hg
    obtain ⟨t, ht, rfl⟩ := hg
    exact ⟨t, rfl, countsPrefixes_tree_of ht⟩
  · have hlines' : ∀ line ∈ lines', CollapsedStack line := fun line hline =>
      hlines line (hperm.mem_iff.mp hline)
    obtain ⟨graphs', hrun', hget'⟩ := build_call_graph_helper_spec sha1 happ hlines' pid thread
    refine ⟨graphs', hrun', fun key => ?_⟩
    rw [hget key, hget' key]
    exact tree_of_perm sha1 app hperm pid thread key

/-- A stand-in for the hash of a name. -/
def hexOnly (w : List Char) : HexName :=
  ⟨w.filter isHexDigit, fun _ hc => (List.mem_filter.mp hc).2⟩

def twoLines : List (List Char) := ["app-1;a;b %%% 2\n".toList, "app-1;a %%% 3\n".toList]

theorem call_trees_count_prefixes_of_two_lines : ∃ graphs t n,
    build_call_graph_helper hexOnly "app".toList twoLines 1 false = .ok graphs ∧
      graphs.get? [1] = some (shown t) ∧ nodesAt [hexOnly "a".toList] t = [n] ∧ weight n = 5 := by
  have hdecide : ∀ line ∈ twoLines, (count_part line).toOption.isSome = true ∧
      ∀ w ∈ frames line, isAscii w = true := by decide +kernel
  have hcollapsed : ∀ line ∈ twoLines, CollapsedStack line := fun line hline =>
    collapsedStack_of_isSome (hdecide line hline).1 (hdecide line hline).2
  obtain ⟨graphs, hrun, hkeys, htree, -⟩ := call_trees_count_prefixes hexOnly "app".toList
    (by decide) twoLines hcollapsed 1 false
  have hkey : [1] ∈ graphs.keys := (hkeys [1]).mpr (.inl (by decide +kernel))
  obtain ⟨g, hget⟩ := PyDict.exists_get?_of_mem_keys hkey
  obtain ⟨t, rfl, hcounts⟩ := htree [1] g hget
  obtain ⟨n, hn, hweight⟩ := hcounts.node [hexOnly "a".toList] (by simp) (by decide +kernel)
  refine ⟨graphs, t, n, hrun, hget, hn, hweight.trans ?_⟩
  decide +kernel

end ditto.call_trees
