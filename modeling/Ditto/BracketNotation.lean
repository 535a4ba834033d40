-- The laws of the bracket notation (backbone_analysis/analyze_cluster.py and
-- the parser of tree-similarity): the call trees that the Python side writes
-- are the trees that the C++ side reads, and a parser keeps nothing of a tree
-- that it has read. The split of a label is done by Boost; what is used of it
-- is assumed.
import Ditto.Lib.CText
import Ditto.Lib.Rose

namespace ditto.bracket_notation

open Rose CText

/-! ## The printer -/

/-- A call tree of the Python side. The value of a node is its label. -/
abbrev TreeNode := Rose (List Char)

mutual

/-- The model of `output_bracket_notation_helper`. -/
def output_bracket_notation_helper : TreeNode → List Char
  | .node label children =>
    '\x7b' :: (label ++ (output_children children ++ ['\x7d']))

/-- The loop of `output_bracket_notation_helper` over the children. -/
def output_children : List TreeNode → List Char
  | [] => []
  | c :: cs => output_bracket_notation_helper c ++ output_children cs

end

/-! ## The parser -/

/-- A label of the C++ side: the name of a function and its count. -/
structure StringLabel where
  label : List Char
  weight : ℤ

/-- A tree of the C++ side. -/
abbrev Node := Rose StringLabel

def kLeftBracket : Char := '\x7b'

def kRightBracket : Char := '\x7d'

def kStructureElements : List Char := [kLeftBracket, kRightBracket]

def kEscapeChar : Char := '\\'

/-- What `validate_input` counts, and the lines that it prints. The counters are `int`s in the
source, which hold the counts of a tree of fewer than 2 ^ 31 nodes. -/
structure Brackets where
  bracket_diff_counter : ℤ := 0
  bracket_pair_counter : ℤ := 0
  cout : List Char := []

/-- One turn of the loop of `validate_input`, on a character that is no escape. -/
def Brackets.see (b : Brackets) (c : Char) : Brackets :=
  if c = kLeftBracket then
    { bracket_diff_counter := b.bracket_diff_counter + 1
      bracket_pair_counter := b.bracket_pair_counter + 1
      cout := b.cout ++ "Found left bracket.\n".toList }
  else if c = kRightBracket then
    { b with
      bracket_diff_counter := b.bracket_diff_counter - 1
      cout := b.cout ++ "Found right bracket.\n".toList }
  else b

/-- The loop of `validate_input`. An escape at the end steps over the end of the text. -/
def validate_chars : List Char → Brackets → Option Brackets
  | [], b => some b
  | [c], b => if c = kEscapeChar then none else some (b.see c)
  | c :: d :: s, b =>
    if c = kEscapeChar then validate_chars s b else validate_chars (d :: s) (b.see c)

/-- The model of `validate_input`: its answer, and what it prints. -/
def validate_input (tree_string : List Char) : Option (Bool × List Char) :=
  (validate_chars tree_string {}).map fun b =>
    (!(b.bracket_diff_counter ≠ 0 ∨ b.bracket_pair_counter = 0), b.cout)

/-- The loop of `get_tokens`. The text is a C string, and a pointer is a position in it. -/
def tokens_from (s : List Char) : ℕ → ℕ → ℕ → List (List Char)
  | 0, _, _ => []
  | fuel + 1, next_begin, old_iter =>
    match strpbrk kStructureElements s next_begin with
    | none => []
    | some iter =>
      if iter > 0 ∧ s[iter - 1]? = some kEscapeChar then tokens_from s fuel (iter + 1) old_iter
      else
        let label :=
          if iter > old_iter + 1 then [(s.drop (old_iter + 1)).take (iter - (old_iter + 1))] else []
        label ++ (s.drop iter).take 1 :: tokens_from s fuel (iter + 1) iter

/-- The model of `get_tokens`. Each turn of its loop moves on in the text. -/
def get_tokens (tree_string : List Char) : List (List Char) :=
  let s := c_str tree_string
  tokens_from s (s.length + 1) 0 0

/-- A reference on `node_stack`: a node of the tree that is read, or what is left of a tree
that was read before. -/
inductive NodeRef where
  | dangling
  | node (path : Path)

/-- The variables of `parse_single`. The last item of `node_stack` is in front. -/
structure Parse where
  tokens : List (List Char)
  match_str : List Char
  root : Node
  node_stack : List NodeRef

/-- The token at a label. It is the empty label if a bracket stands there, which is kept. -/
def take_label : List (List Char) → Option (List Char × List (List Char))
  | [] => none
  | t :: ts =>
    if t = [kLeftBracket] ∨ t = [kRightBracket] then some ([], t :: ts) else some (t, ts)

/-- What is used of `split_regex` of Boost with the regular expression ` %%% `: a text with this in
it once falls into the two pieces around it. -/
structure SplitRegex (split_regex : List Char → List (List Char)) : Prop where
  split_once : ∀ name count : List Char, ' ' ∉ name → ' ' ∉ count →
    split_regex (name ++ (" %%% ".toList ++ count)) = [name, count]

section Parser

variable (split_regex : List Char → List (List Char))

/-- The label of a node from its text, a name and a number with ` %%% ` between them. -/
def make_label (match_str : List Char) : Option StringLabel := do
  let match_str_vec := split_regex match_str
  return ⟨← match_str_vec[0]?, ← stoi (← match_str_vec[1]?)⟩

/-- The model of `add_child` on a reference: the tree, and a reference to the new child. -/
def add_child (root : Node) (n : StringLabel) : NodeRef → Option (Node × NodeRef)
  | .dangling => none
  | .node path => do
    let k ← root.childCount path
    return (root.appendAt path [.node n []], .node (path ++ [k]))

/-- The part of the loop of `parse_single` that enters a node, behind its bracket. -/
def enter (s : Parse) : Option Parse := do
  let (match_str, tokens) ← take_label s.tokens
  let n ← make_label split_regex match_str
  let back ← s.node_stack.head?
  let (root, child) ← add_child s.root n back
  return { tokens, match_str, root, node_stack := child :: s.node_stack }

/-- The part of the loop of `parse_single` that leaves a node. -/
def leave (s : Parse) : Option Parse :=
  match s.node_stack, s.tokens with
  | _ :: node_stack, _ :: tokens => some { s with node_stack, tokens }
  | _, _ => none

/-- One turn of the loop of `parse_single`. -/
def turn (s : Parse) : Option Parse := do
  let match_str ← s.tokens.head?
  let s ←
    if match_str = [kLeftBracket] then enter split_regex { s with match_str, tokens := s.tokens.tail }
    else some { s with match_str }
  if s.match_str = [kRightBracket] then leave s else some s

/-- The loop of `parse_single`. A turn that takes no token leaves the next one the same, so
no loop that ends has more turns than tokens. -/
def parse_tokens : ℕ → Parse → Option Parse
  | 0, s => if s.tokens = [] then some s else none
  | fuel + 1, s => if s.tokens = [] then some s else (turn split_regex s).bind (parse_tokens fuel)

/-- The model of `parse_single`: the tree, and `node_stack` as the next call finds it. -/
def parse_single (node_stack : List NodeRef) (tree_string : List Char) :
    Option (Node × List NodeRef) := do
  let (match_str, tokens) ← take_label (get_tokens tree_string).tail
  let root : Node := .node (← make_label split_regex match_str) []
  let s ← parse_tokens split_regex tokens.length
    { tokens, match_str, root, node_stack := .node [] :: node_stack }
  return (s.root, s.node_stack.map fun _ => .dangling)

/-- Calls of `parse_single` on one parser, one after another. -/
def parse_each : List NodeRef → List (List Char) → Option (List Node × List NodeRef)
  | node_stack, [] => some ([], node_stack)
  | node_stack, s :: ss => do
    let (n, node_stack) ← parse_single split_regex node_stack s
    let (ns, node_stack) ← parse_each node_stack ss
    return (n :: ns, node_stack)

end Parser

/-! ## The labels of call trees -/

/-- The text of a label, as the Python side writes it. -/
def label_text (l : StringLabel) : List Char :=
  l.label ++ (" %%% ".toList ++ PyText.ofInt l.weight)

/-- The text of a call tree. -/
def printed (n : Node) : List Char := output_bracket_notation_helper (n.map label_text)

def isHexDigit (c : Char) : Bool := c.isDigit || "abcdefABCDEF".toList.contains c

/-- A label of a call tree: the hash of a function or no name, and a count. -/
structure Counted (l : StringLabel) : Prop where
  hex : ∀ c ∈ l.label, isHexDigit c = true
  weight : 0 ≤ l.weight ∧ l.weight < 2 ^ 31

/-- A character that means nothing to the parser, in a line of a file. -/
def Plain (c : Char) : Prop := c ∉ ['\x7b', '\x7d', '\\', '\x00', '\n']

theorem plain_of_isHexDigit {c : Char} (h : isHexDigit c = true) : Plain c := by
  intro hmem
  simp only [List.mem_cons, List.not_mem_nil, or_false] at hmem
  rcases hmem with rfl | rfl | rfl | rfl | rfl <;> simp [isHexDigit] at h

theorem ne_space_of_isHexDigit {c : Char} (h : isHexDigit c = true) : c ≠ ' ' := by
  rintro rfl
  simp [isHexDigit] at h

theorem isHexDigit_of_mem_ofInt {n : ℤ} (hn : 0 ≤ n) {c : Char} (h : c ∈ PyText.ofInt n) :
    isHexDigit c = true := by
  obtain ⟨m, rfl⟩ := Int.eq_ofNat_of_zero_le hn
  have hdigit : c.isDigit = true := PyText.isDigit_of_mem_repr h
  simp [isHexDigit, hdigit]

theorem plain_of_mem_label_text {l : StringLabel} (hl : Counted l) {c : Char}
    (h : c ∈ label_text l) : Plain c := by
  simp only [label_text, List.mem_append] at h
  rcases h with h | h | h
  · exact plain_of_isHexDigit (hl.hex c h)
  · have hc : c = ' ' ∨ c = '%' ∨ c = ' ' := by simpa using h
    rcases hc with rfl | rfl | rfl <;> simp [Plain]
  · exact plain_of_isHexDigit (isHexDigit_of_mem_ofInt hl.weight.1 h)

theorem space_mem_label_text (l : StringLabel) : ' ' ∈ label_text l := by
  simp [label_text]

theorem label_text_ne_nil (l : StringLabel) : label_text l ≠ [] :=
  List.ne_nil_of_mem (space_mem_label_text l)

/-- The parser takes a label apart where the Python side put it together. -/
theorem make_label_label_text {split_regex : List Char → List (List Char)}
    (hsplit : SplitRegex split_regex) {l : StringLabel} (hl : Counted l) :
    make_label split_regex (label_text l) = some l := by
  obtain ⟨name, weight⟩ := l
  obtain ⟨n, rfl⟩ := Int.eq_ofNat_of_zero_le hl.weight.1
  have hname : ' ' ∉ name := fun h => ne_space_of_isHexDigit (hl.hex _ h) rfl
  have hcount : ' ' ∉ n.repr.toList := fun h =>
    ne_space_of_isHexDigit (isHexDigit_of_mem_ofInt hl.weight.1 h) rfl
  have hlt : n < 2 ^ 31 := by
    have hweight : (n : ℤ) < 2 ^ 31 := hl.weight.2
    omega
  have htext : label_text ⟨name, n⟩ = name ++ (" %%% ".toList ++ n.repr.toList) := rfl
  rw [make_label, htext, hsplit.split_once _ _ hname hcount]
  simp only [List.getElem?_cons_zero, List.getElem?_cons_succ, Option.pure_def,
    Option.bind_eq_bind, Option.bind_some, stoi_repr hlt]

/-- The trees whose labels mean nothing to the parser. -/
def PlainLabels (t : TreeNode) : Prop := ∀ l ∈ t.values, ∀ c ∈ l, Plain c

theorem plainLabels_map {n : Node} (h : ∀ l ∈ n.values, Counted l) :
    PlainLabels (n.map label_text) := by
  intro text htext c hc
  rw [(values_map label_text).1, List.mem_map] at htext
  obtain ⟨l, hl, rfl⟩ := htext
  exact plain_of_mem_label_text (h l hl) hc

/-- Induction over the trees with plain labels. -/
theorem plain_induction {p : TreeNode → Prop} {q : List TreeNode → Prop}
    (node : ∀ label cs, (∀ c ∈ label, Plain c) → q cs → p (.node label cs)) (nil : q [])
    (cons : ∀ t ts, p t → q ts → q (t :: ts)) : ∀ t, PlainLabels t → p t := by
  refine (forest_induction
    (fun label cs ih h => ?_) (fun _ => nil) (fun t ts iht ihts h => ?_) :
    (∀ t, PlainLabels t → p t) ∧
      ∀ ts : List TreeNode, (∀ l ∈ forestValues ts, ∀ c ∈ l, Plain c) → q ts).1
  · rw [PlainLabels, forall_mem_values_node] at h
    exact node label cs h.1 (ih h.2)
  · rw [forall_mem_forestValues_cons] at h
    exact cons t ts (iht h.1) (ihts h.2)

/-! ## The brackets of a printed tree -/

theorem validate_chars_eq_foldl {s : List Char} (h : kEscapeChar ∉ s) (b : Brackets) :
    validate_chars s b = some (s.foldl Brackets.see b) := by
  fun_induction validate_chars s b with
  | case1 b => rfl
  | case2 b => simp at h
  | case3 c b hc => rfl
  | case4 d s b ih => simp at h
  | case5 c d s b hc ih =>
    rw [ih (fun hmem => h (List.mem_cons_of_mem _ hmem))]
    rfl

theorem foldl_see (s : List Char) (b : Brackets) :
    (s.foldl Brackets.see b).bracket_diff_counter =
        b.bracket_diff_counter + s.count kLeftBracket - s.count kRightBracket ∧
      (s.foldl Brackets.see b).bracket_pair_counter =
        b.bracket_pair_counter + s.count kLeftBracket := by
  induction s generalizing b with
  | nil => simp
  | cons c s ih =>
    have hne : kRightBracket ≠ kLeftBracket := by decide
    simp only [List.foldl_cons, ih]
    by_cases hleft : c = kLeftBracket
    · subst hleft
      simp [Brackets.see, hne.symm]
      omega
    · by_cases hright : c = kRightBracket
      · subst hright
        simp [Brackets.see, hne]
        omega
      · simp [Brackets.see, hleft, hright]

theorem count_eq_zero_of_plain {s : List Char} (h : ∀ c ∈ s, Plain c) {b : Char}
    (hb : b ∈ kStructureElements) : s.count b = 0 := by
  refine List.count_eq_zero.mpr fun hmem => h b hmem ?_
  simp only [kStructureElements, List.mem_cons, List.not_mem_nil, or_false] at hb
  rcases hb with rfl | rfl <;> simp [kLeftBracket, kRightBracket]

/-- A printed tree has one bracket of each kind for a node. -/
theorem count_output {b : Char} (hb : b ∈ kStructureElements) {t : TreeNode} (h : PlainLabels t) :
    (output_bracket_notation_helper t).count b = t.values.length := by
  refine plain_induction
    (p := fun t => (output_bracket_notation_helper t).count b = t.values.length)
    (q := fun ts => (output_children ts).count b = (forestValues ts).length)
    (fun label cs hlabel ih => ?_) rfl (fun t ts iht ihts => ?_) t h
  · have hbracket : (if '\x7b' = b then 1 else 0) + (if '\x7d' = b then 1 else 0) = 1 := by
      simp only [kStructureElements, List.mem_cons, List.not_mem_nil, or_false] at hb
      rcases hb with rfl | rfl <;> simp [kLeftBracket, kRightBracket]
    simp only [output_bracket_notation_helper, values, List.count_cons, List.count_append, ih,
      count_eq_zero_of_plain hlabel hb, List.count_nil, List.length_cons, beq_iff_eq]
    omega
  · simp [output_children, forestValues, iht, ihts]

theorem mem_output {t : TreeNode} (h : PlainLabels t) {c : Char}
    (hc : c ∈ output_bracket_notation_helper t) : c ∈ kStructureElements ∨ Plain c := by
  revert hc
  refine plain_induction
    (p := fun t => c ∈ output_bracket_notation_helper t → c ∈ kStructureElements ∨ Plain c)
    (q := fun ts => c ∈ output_children ts → c ∈ kStructureElements ∨ Plain c)
    (fun label cs hlabel ih hc => ?_) (by simp [output_children]) (fun t ts iht ihts hc => ?_) t h
  · simp only [output_bracket_notation_helper, List.mem_cons, List.mem_append, List.not_mem_nil,
      or_false] at hc
    rcases hc with rfl | hc | hc | rfl
    · simp [kStructureElements, kLeftBracket]
    · exact .inr (hlabel c hc)
    · exact ih hc
    · simp [kStructureElements, kRightBracket]
  · rw [output_children, List.mem_append] at hc
    exact hc.elim iht ihts

theorem not_mem_output {t : TreeNode} (h : PlainLabels t) {c : Char}
    (hc : c ∈ [kEscapeChar, '\x00', '\n']) : c ∉ output_bracket_notation_helper t := by
  intro hmem
  simp only [List.mem_cons, List.not_mem_nil, or_false] at hc
  rcases hc with rfl | rfl | rfl <;>
    simpa [kStructureElements, kLeftBracket, kRightBracket, kEscapeChar, Plain]
      using mem_output h hmem

/-- `validate_input` accepts a printed tree. -/
theorem validate_input_output {t : TreeNode} (h : PlainLabels t) :
    ∃ cout, validate_input (output_bracket_notation_helper t) = some (true, cout) := by
  have hpos : t.values.length ≠ 0 := by
    obtain ⟨label, cs⟩ := t
    simp [values]
  have hcounts := foldl_see (output_bracket_notation_helper t) {}
  rw [count_output (by simp [kStructureElements]) h, count_output (by simp [kStructureElements]) h]
    at hcounts
  rw [validate_input, validate_chars_eq_foldl (not_mem_output h (by simp))]
  refine ⟨_, congrArg some (Prod.ext ?_ rfl)⟩
  simp only [hcounts.1, hcounts.2]
  simp [hpos]

/-! ## The tokens of a printed tree -/

/-- The tokens of a text character by character, behind a label that has begun. -/
def lex : List Char → List Char → List (List Char)
  | _, [] => []
  | label, c :: s =>
    if c ∈ kStructureElements then (if label = [] then [] else [label]) ++ [c] :: lex [] s
    else lex (label ++ [c]) s

theorem lex_append {s : List Char} (h : ∀ c ∈ s, c ∉ kStructureElements) (label t : List Char) :
    lex label (s ++ t) = lex (label ++ s) t := by
  induction s generalizing label with
  | nil => simp
  | cons c s ih =>
    rw [List.forall_mem_cons] at h
    rw [List.cons_append, lex, if_neg h.1, ih h.2]
    simp

theorem lex_of_forall {s : List Char} (h : ∀ c ∈ s, c ∉ kStructureElements)
    (label : List Char) : lex label s = [] := by
  simpa [lex] using lex_append h label []

/-- A text up to its first bracket. -/
theorem exists_split_at_bracket (s : List Char) :
    (∀ c ∈ s, c ∉ kStructureElements) ∨
      ∃ label b t, s = label ++ b :: t ∧ (∀ c ∈ label, c ∉ kStructureElements) ∧
        b ∈ kStructureElements := by
  induction s with
  | nil => simp
  | cons c s ih =>
    by_cases hc : c ∈ kStructureElements
    · exact .inr ⟨[], c, s, rfl, by simp, hc⟩
    · rcases ih with hs | ⟨label, b, t, rfl, hlabel, hb⟩
      · exact .inl (List.forall_mem_cons.mpr ⟨hc, hs⟩)
      · exact .inr ⟨c :: label, b, t, rfl, List.forall_mem_cons.mpr ⟨hc, hlabel⟩, hb⟩

/-- The distance of the pointers in `get_tokens` finds the labels. -/
theorem tokens_from_eq_lex {s : List Char} (hs : kEscapeChar ∉ s) (fuel i : ℕ)
    (hfuel : (s.drop (i + 1)).length < fuel) :
    tokens_from s fuel (i + 1) i = lex [] (s.drop (i + 1)) := by
  induction fuel generalizing i with
  | zero => cases hfuel
  | succ fuel ih =>
    rcases exists_split_at_bracket (s.drop (i + 1)) with hnone | ⟨label, b, t, hsplit, hlabel, hb⟩
    · rw [tokens_from, strpbrk_of_forall hnone, lex_of_forall hnone]
    · have hiter := strpbrk_of_split hsplit hlabel hb
      have hescape : s[i + 1 + label.length - 1]? ≠ some kEscapeChar := fun h =>
        hs (List.mem_of_getElem? h)
      have hbracket : s.drop (i + 1 + label.length) = b :: t := by
        rw [← List.drop_drop, hsplit, List.drop_left]
      have hrest : s.drop (i + 1 + label.length + 1) = t := by
        rw [← List.drop_drop, hbracket, List.drop_one, List.tail_cons]
      have hlex : lex [] (label ++ b :: t) =
          (if label = [] then [] else [label]) ++ [b] :: lex [] t := by
        rw [lex_append hlabel, List.nil_append, lex, if_pos hb]
      have hshort : t.length < fuel := by
        rw [hsplit] at hfuel
        simp at hfuel
        omega
      have htake : i + 1 + label.length - (i + 1) = label.length := by omega
      rw [tokens_from, hiter, hsplit, hlex]
      simp only [hescape, and_false, if_false, hbracket]
      rw [ih _ (by rwa [hrest]), hrest, htake, List.take_left]
      rcases label with _ | ⟨c, label⟩
      · simp
      · simp

theorem get_tokens_output {t : TreeNode} (h : PlainLabels t) :
    get_tokens (output_bracket_notation_helper t) = lex [] (output_bracket_notation_helper t) := by
  have hescape := not_mem_output h (c := kEscapeChar) (by simp)
  rw [get_tokens, c_str_eq_self (not_mem_output h (by simp))]
  obtain ⟨label, cs⟩ := t
  generalize hs : output_bracket_notation_helper (.node label cs) = s at hescape
  rw [output_bracket_notation_helper] at hs
  generalize label ++ (output_children cs ++ ['\x7d']) = rest at hs
  subst hs
  have hleft : '\x7b' ∈ kStructureElements := by simp [kStructureElements, kLeftBracket]
  have hiter : strpbrk kStructureElements ('\x7b' :: rest) 0 = some 0 :=
    strpbrk_of_split (t := []) rfl (by simp) hleft
  have hrest := tokens_from_eq_lex hescape (rest.length + 1) 0 (by simp)
  rw [List.length_cons, tokens_from, hiter, lex, if_pos hleft]
  simpa using hrest

mutual

/-- The tokens of a printed tree. -/
def node_tokens : TreeNode → List (List Char)
  | .node label children =>
    [kLeftBracket] :: label :: (children_tokens children ++ [[kRightBracket]])

/-- The tokens of printed trees, one behind another. -/
def children_tokens : List TreeNode → List (List Char)
  | [] => []
  | t :: ts => node_tokens t ++ children_tokens ts

end

theorem not_bracket_of_plain {c : Char} (h : Plain c) : c ∉ kStructureElements := by
  intro hc
  simp only [kStructureElements, List.mem_cons, List.not_mem_nil, or_false] at hc
  rcases hc with rfl | rfl <;> exact h (by simp [kLeftBracket, kRightBracket])

/-- A label is one token, and the bracket behind it is the next one. -/
theorem lex_label {label : List Char} (hlabel : label ≠ []) {s : List Char}
    (hs : ∃ b ∈ kStructureElements, s.head? = some b) : lex label s = label :: lex [] s := by
  obtain ⟨b, hb, hhead⟩ := hs
  rcases s with _ | ⟨c, s⟩
  · cases hhead
  · obtain rfl : c = b := by simpa using hhead
    simp [lex, hb, hlabel]

/-- The printed children of a node and its right bracket start with a bracket. -/
theorem head?_output_children (cs : List TreeNode) (rest : List Char) :
    ∃ b ∈ kStructureElements, (output_children cs ++ '\x7d' :: rest).head? = some b := by
  rcases cs with _ | ⟨⟨label, ds⟩, cs⟩
  · exact ⟨kRightBracket, by simp [kStructureElements], rfl⟩
  · exact ⟨kLeftBracket, by simp [kStructureElements], rfl⟩

theorem lex_output {n : Node} (h : ∀ l ∈ n.values, Counted l) :
    lex [] (printed n) = node_tokens (n.map label_text) := by
  have hforest :
      (∀ n : Node, (∀ l ∈ n.values, Counted l) → ∀ rest,
        lex [] (output_bracket_notation_helper (n.map label_text) ++ rest) =
          node_tokens (n.map label_text) ++ lex [] rest) ∧
      ∀ ns : List Node, (∀ l ∈ forestValues ns, Counted l) → ∀ rest,
        lex [] (output_children (forestMap label_text ns) ++ rest) =
          children_tokens (forestMap label_text ns) ++ lex [] rest := by
    refine forest_induction (fun l ns ih h rest => ?_) (fun _ rest => rfl)
      (fun n ns ihn ihns h rest => ?_)
    · rw [forall_mem_values_node] at h
      have hlabel : ∀ c ∈ label_text l, c ∉ kStructureElements := fun c hc =>
        not_bracket_of_plain (plain_of_mem_label_text h.1 hc)
      have hleft : '\x7b' ∈ kStructureElements := by simp [kStructureElements, kLeftBracket]
      have hright : '\x7d' ∈ kStructureElements := by simp [kStructureElements, kRightBracket]
      simp only [map, output_bracket_notation_helper, node_tokens, List.cons_append,
        List.append_assoc, List.nil_append]
      rw [lex, if_pos hleft, lex_append hlabel, List.nil_append,
        lex_label (label_text_ne_nil l) (head?_output_children _ rest), ih h.2, lex, if_pos hright]
      rfl
    · rw [forall_mem_forestValues_cons] at h
      simp only [forestMap, output_children, children_tokens, List.append_assoc]
      rw [ihn h.1, ihns h.2]
  simpa [printed, lex] using hforest.1 n h []

/-! ## The loop of the parser -/

section Loop

variable {split_regex : List Char → List (List Char)}

theorem parse_tokens_of_nil {s : Parse} (hs : s.tokens = []) (fuel : ℕ) :
    parse_tokens split_regex fuel s = some s := by
  cases fuel with
  | zero => exact if_pos hs
  | succ fuel => exact if_pos hs

theorem parse_tokens_of_turn {s s' : Parse} (hs : s.tokens ≠ []) (h : turn split_regex s = some s')
    (fuel : ℕ) : parse_tokens split_regex (fuel + 1) s = parse_tokens split_regex fuel s' := by
  rw [parse_tokens, if_neg hs, h]
  rfl

theorem label_text_ne_bracket (l : StringLabel) {b : Char} (hb : b ∈ kStructureElements) :
    label_text l ≠ [b] := by
  intro h
  have hspace := space_mem_label_text l
  rw [h, List.mem_singleton] at hspace
  subst hspace
  simp [kStructureElements, kLeftBracket, kRightBracket] at hb

theorem take_label_label_text (l : StringLabel) (rest : List (List Char)) :
    take_label (label_text l :: rest) = some (label_text l, rest) := by
  have hleft := label_text_ne_bracket l (b := kLeftBracket) (by simp [kStructureElements])
  have hright := label_text_ne_bracket l (b := kRightBracket) (by simp [kStructureElements])
  simp [take_label, hleft, hright]

/-- The state in which the loop stands at some tokens, with a node at the top of the stack. -/
def Parse.at (tokens : List (List Char)) (root : Node) (path : Path) (node_stack : List NodeRef)
    (match_str : List Char) : Parse :=
  { tokens, match_str, root, node_stack := .node path :: node_stack }

/-- A turn at the left bracket of a node adds the node without its children. -/
theorem turn_left (hsplit : SplitRegex split_regex) {l : StringLabel} (hl : Counted l) {root : Node} {path : Path} {k : ℕ}
    (hk : root.childCount path = some k) (rest : List (List Char)) (node_stack : List NodeRef)
    (match_str : List Char) :
    turn split_regex (.at ([kLeftBracket] :: label_text l :: rest) root path node_stack match_str) =
      some (.at rest (root.appendAt path [.node l []]) (path ++ [k]) (.node path :: node_stack)
        (label_text l)) := by
  have hright := label_text_ne_bracket l (b := kRightBracket) (by simp [kStructureElements])
  simp [Parse.at, turn, enter, take_label_label_text, make_label_label_text hsplit hl, add_child, hk,
    hright]

/-- A turn at the right bracket of a node goes back to its parent. -/
theorem turn_right (root : Node) (path : Path) (rest : List (List Char))
    (node_stack : List NodeRef) (match_str : List Char) :
    turn split_regex (.at ([kRightBracket] :: rest) root path node_stack match_str) =
      some { tokens := rest, match_str := [kRightBracket], root, node_stack } := by
  have hne : [kRightBracket] ≠ [kLeftBracket] := by decide
  simp [Parse.at, turn, leave, hne]

/-- The loop adds the trees whose tokens come next to the node at the top of the stack. There
are two turns for a node, one for each of its brackets. -/
theorem parse_tokens_children (hsplit : SplitRegex split_regex) :
    (∀ n : Node, (∀ l ∈ n.values, Counted l) →
      ∀ root path k node_stack rest match_str fuel, root.childCount path = some k →
        ∃ match_str',
          parse_tokens split_regex (fuel + 2 * n.values.length)
              (.at (node_tokens (n.map label_text) ++ rest) root path node_stack match_str) =
            parse_tokens split_regex fuel
              (.at rest (root.appendAt path [n]) path node_stack match_str')) ∧
    ∀ ns : List Node, (∀ l ∈ forestValues ns, Counted l) →
      ∀ root path k node_stack rest match_str fuel, root.childCount path = some k →
        ∃ match_str',
          parse_tokens split_regex (fuel + 2 * (forestValues ns).length)
              (.at (children_tokens (forestMap label_text ns) ++ rest) root path node_stack
                match_str) =
            parse_tokens split_regex fuel
              (.at rest (root.appendAt path ns) path node_stack match_str') := by
  refine forest_induction ?_ ?_ ?_
  · intro l ns ih h root path k node_stack rest match_str fuel hk
    rw [forall_mem_values_node] at h
    -- The new node is a leaf at first, and its children are added at its own path.
    have hchild := childCount_child hk (.node l [])
    obtain ⟨match_str', hloop⟩ := ih h.2 (root.appendAt path [.node l []]) (path ++ [k]) 0
      (.node path :: node_stack) ([kRightBracket] :: rest) (label_text l) (fuel + 1) hchild
    refine ⟨[kRightBracket], ?_⟩
    have hfuel : fuel + 2 * (node l ns).values.length =
        fuel + 1 + 2 * (forestValues ns).length + 1 := by
      simp only [values, List.length_cons]
      omega
    have htokens : node_tokens ((node l ns).map label_text) ++ rest =
        [kLeftBracket] :: label_text l ::
          (children_tokens (forestMap label_text ns) ++ [kRightBracket] :: rest) := by
      simp [map, node_tokens]
    rw [hfuel, htokens, parse_tokens_of_turn (List.cons_ne_nil _ _) (turn_left hsplit h.1 hk _ _ _)]
    refine hloop.trans ?_
    rw [parse_tokens_of_turn (List.cons_ne_nil _ _) (turn_right _ _ _ _ _), appendAt_child hk]
    rfl
  · intro _ root path k node_stack rest match_str fuel _
    exact ⟨match_str, by simp [forestMap, children_tokens, forestValues]⟩
  · intro n ns ihn ihns h root path k node_stack rest match_str fuel hk
    rw [forall_mem_forestValues_cons] at h
    obtain ⟨match_str₁, hn⟩ := ihn h.1 root path k node_stack
      (children_tokens (forestMap label_text ns) ++ rest) match_str
      (fuel + 2 * (forestValues ns).length) hk
    obtain ⟨match_str₂, hns⟩ := ihns h.2 (root.appendAt path [n]) path _ node_stack rest
      match_str₁ fuel (childCount_appendAt hk [n])
    refine ⟨match_str₂, ?_⟩
    have hfuel : fuel + 2 * (forestValues (n :: ns)).length =
        fuel + 2 * (forestValues ns).length + 2 * n.values.length := by
      simp only [forestValues, List.length_append]
      omega
    rw [hfuel, forestMap, children_tokens, List.append_assoc, hn, hns, appendAt_appendAt]
    rfl

theorem length_children_tokens :
    (∀ t : TreeNode, (node_tokens t).length = 3 * t.values.length) ∧
      ∀ ts : List TreeNode, (children_tokens ts).length = 3 * (forestValues ts).length := by
  refine forest_induction (fun label cs ih => ?_) rfl (fun t ts iht ihts => ?_)
  · simp only [node_tokens, values, List.length_cons, List.length_append, ih, List.length_nil]
    omega
  · simp only [children_tokens, forestValues, List.length_append, iht, ihts]
    omega

/-- `parse_single` gives back the tree that was printed, and `node_stack` is as deep as it was. -/
theorem parse_single_printed (hsplit : SplitRegex split_regex) {n : Node}
    (h : ∀ l ∈ n.values, Counted l) (node_stack : List NodeRef) :
    parse_single split_regex node_stack (printed n) = some (n, node_stack.map fun _ => .dangling) := by
  have hgetTokens : get_tokens (printed n) = node_tokens (n.map label_text) := by
    rw [printed, get_tokens_output (plainLabels_map h), ← printed, lex_output h]
  obtain ⟨l, ns⟩ := n
  rw [forall_mem_values_node] at h
  set tokens := children_tokens (forestMap label_text ns) ++ [[kRightBracket]] with htokens
  have hfuel : tokens.length =
      (forestValues ns).length + 1 + 2 * (forestValues ns).length := by
    simp only [htokens, List.length_append, length_children_tokens.2, (values_map _).2,
      List.length_map, List.length_cons, List.length_nil]
    omega
  obtain ⟨match_str, hloop⟩ := (parse_tokens_children hsplit).2 ns h.2 (.node l []) [] 0 node_stack
    [[kRightBracket]] (label_text l) ((forestValues ns).length + 1) rfl
  have hrun : parse_tokens split_regex tokens.length
      (.at tokens (.node l []) [] node_stack (label_text l)) =
      some ⟨[], [kRightBracket], .node l ns, node_stack⟩ := by
    rw [hfuel, hloop, parse_tokens_of_turn (List.cons_ne_nil _ _) (turn_right _ _ _ _ _),
      parse_tokens_of_nil rfl]
    rfl
  simp only [parse_single, hgetTokens, map, node_tokens, List.tail_cons, take_label_label_text,
    Option.bind_eq_bind, Option.bind_some, make_label_label_text hsplit h.1, ← htokens]
  rw [← Parse.at, hrun]
  rfl

/-- Calls on a parser with an empty `node_stack` read the trees of their texts. -/
theorem parse_each_printed (hsplit : SplitRegex split_regex) {ns : List Node}
    (h : ∀ n ∈ ns, ∀ l ∈ n.values, Counted l) :
    parse_each split_regex [] (ns.map printed) = some (ns, []) := by
  induction ns with
  | nil => rfl
  | cons n ns ih =>
    rw [List.forall_mem_cons] at h
    simp only [List.map_cons, parse_each, parse_single_printed hsplit h.1, ih h.2, List.map_nil,
      Option.bind_eq_bind, Option.bind_some]
    rfl

end Loop

/-! ## The laws -/

/-- Call trees survive the bracket notation. The text of a tree is accepted, its parse gives
the tree back and leaves `node_stack` empty, and so do any number of parses on one parser. -/
theorem call_trees_survive_the_brackets {split_regex : List Char → List (List Char)}
    (hsplit : SplitRegex split_regex) (ns : List Node) (h : ∀ n ∈ ns, ∀ l ∈ n.values, Counted l) :
    (∀ n ∈ ns, (∃ cout, validate_input (printed n) = some (true, cout)) ∧
      parse_single split_regex [] (printed n) = some (n, [])) ∧
    parse_each split_regex [] (ns.map printed) = some (ns, []) := by
  refine ⟨fun n hn => ⟨?_, ?_⟩, parse_each_printed hsplit h⟩
  · exact validate_input_output (plainLabels_map (h n hn))
  · exact parse_single_printed hsplit (h n hn) []

/-- Python's split of a text does what is used of the one of Boost. -/
theorem splitRegex_split : SplitRegex (PyText.split " %%% ".toList) where
  split_once _ _ hname hcount := PyText.split_append hname hcount

/-- The tree of an empty graph, and a tree of three functions. -/
theorem two_call_trees_survive_the_brackets :
    let empty : Node := .node ⟨[], 0⟩ []
    let calls : Node := .node ⟨"9f".toList, 7⟩ [.node ⟨"0a".toList, 3⟩ [], .node ⟨"c4".toList, 4⟩ []]
    printed calls = "\x7b9f %%% 7\x7b0a %%% 3\x7d\x7bc4 %%% 4\x7d\x7d".toList ∧
      parse_each (PyText.split " %%% ".toList) [] [printed empty, printed calls] = some ([empty, calls], []) := by
  intro empty calls
  refine ⟨by decide +kernel, 
    (call_trees_survive_the_brackets splitRegex_split [empty, calls] ?_).2⟩
  have hcounted : ∀ l : StringLabel, (∀ c ∈ l.label, isHexDigit c = true) →
      0 ≤ l.weight ∧ l.weight < 2 ^ 31 → Counted l := fun l => Counted.mk
  simp only [empty, calls, values, forestValues, List.cons_append, List.nil_append,
    List.forall_mem_cons, List.not_mem_nil, false_imp_iff, implies_true, and_true]
  refine ⟨hcounted _ ?_ ?_, hcounted _ ?_ ?_, hcounted _ ?_ ?_, hcounted _ ?_ ?_⟩ <;>
    simp [isHexDigit]

end ditto.bracket_notation
