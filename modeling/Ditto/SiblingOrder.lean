-- The order of siblings in the call trees. The lines of a file come sorted as
-- whole texts, and the order of two siblings is that of their first lines. The
-- lines of a process may have several first words, and a sibling that is
-- called from an earlier one comes first. Behind the same first word the names
-- decide, unless one is the start of the other: then the longer name may be
-- before the separator of the stacks below the shorter one.
import Ditto.CallTrees
import Ditto.Lib.WordOrder
import Mathlib.Data.Char

open PyText CountTrie WordOrder

namespace ditto.call_trees

/-! ## The text of a stack -/

theorem not_mem_of_mem_splitOn {c : Char} {s w : List Char} (h : w ∈ s.splitOn c) : c ∉ w := by
  induction s generalizing w with
  | nil =>
    rw [List.splitOn_nil, List.mem_singleton] at h
    simp [h]
  | cons d s ih =>
    rw [List.splitOn, List.splitOnP_cons_eq_if_modifyHead, ← List.splitOn] at h
    split at h
    · rcases List.mem_cons.mp h with rfl | h
      · simp
      · exact ih h
    · rename_i hd
      cases hs : s.splitOn c with
      | nil => exact absurd hs (List.splitOn_ne_nil _ _)
      | cons v vs =>
        rw [hs] at h ih
        rcases List.mem_cons.mp h with rfl | h
        · have hv := ih List.mem_cons_self
          simp only [List.mem_cons, not_or]
          exact ⟨fun hc => hd (by simp [hc]), hv⟩
        · exact ih (List.mem_cons_of_mem _ h)

theorem intercalate_cons (w : List Char) (ws : List (List Char)) :
    [';'].intercalate (w :: ws) = w ++ ws.flatMap fun x => ';' :: x := by
  induction ws generalizing w with
  | nil => simp
  | cons x ws ih =>
    rw [List.intercalate_cons_cons, ih]
    simp

/-- The name of the command and the number of the process, in front of the frames. -/
def first_word (line : List Char) : List Char := (words line).headD []

theorem words_eq (line : List Char) : words line = first_word line :: frames line := by
  cases h : words line with
  | nil => exact absurd h (List.splitOn_ne_nil _ _)
  | cons w ws => simp [first_word, frames, h]

/-- The text of a stack is its first word, and its frames with a separator in front of each. -/
theorem func_part_eq (line : List Char) :
    func_part line = first_word line ++ (frames line).flatMap fun w => ';' :: w := by
  rw [← intercalate_cons, ← words_eq, words, List.intercalate_splitOn]

/-! ## The frame behind a path -/

/-- A line of a process or thread that has frames. -/
def HasKey (key : List ℕ) (line : List Char) : Prop := 1 < (words line).length ∧ key_of line = key

instance (key : List ℕ) (line : List Char) : Decidable (HasKey key line) :=
  inferInstanceAs (Decidable (_ ∧ _))

/-- The frame behind a path, in a line of a process or thread. -/
def next_frame (key : List ℕ) (path : List (List Char)) (line : List Char) : Option (List Char) :=
  if HasKey key line ∧ path <+: frames line then ((frames line).drop path.length).head? else none

theorem next_frame_eq_some {key : List ℕ} {path : List (List Char)} {line f : List Char} :
    next_frame key path line = some f ↔ HasKey key line ∧ path ++ [f] <+: frames line := by
  unfold next_frame
  constructor
  · intro h
    split at h
    · rename_i hkey
      obtain ⟨more, hmore⟩ := hkey.2
      rw [← hmore, List.drop_left] at h
      obtain ⟨rest, rfl⟩ := List.head?_eq_some_iff.mp h
      exact ⟨hkey.1, rest, by rw [← hmore, List.append_assoc]; rfl⟩
    · cases h
  · rintro ⟨hkey, rest, hrest⟩
    rw [List.append_assoc] at hrest
    rw [if_pos ⟨hkey, _, hrest⟩, ← hrest, List.drop_left]
    rfl

/-- The text behind the frame behind a path. -/
def rest_text (path : List (List Char)) (line : List Char) : List Char :=
  ((frames line).drop (path.length + 1)).flatMap fun w => ';' :: w

/-- The text between the first word and the frame behind a path, without the separator that it
starts with. -/
def path_text (path : List (List Char)) : List Char := (path.flatMap (fun w => ';' :: w) ++ [';']).tail

theorem cons_path_text (path : List (List Char)) :
    ';' :: path_text path = path.flatMap (fun w => ';' :: w) ++ [';'] := by
  cases path <;> rfl

theorem text_of_next_frame {key : List ℕ} {path : List (List Char)} {line f : List Char}
    (h : next_frame key path line = some f) :
    func_part line = first_word line ++ (';' :: path_text path ++ (f ++ rest_text path line)) ∧
      ';' ∉ first_word line ∧ ';' ∉ f ∧ IsRest ';' (rest_text path line) := by
  obtain ⟨-, rest, hrest⟩ := next_frame_eq_some.mp h
  have hdrop : (frames line).drop (path.length + 1) = rest := by
    rw [← hrest]
    exact List.drop_left' (by simp)
  have hmem : first_word line ∈ words line ∧ f ∈ words line := by
    rw [words_eq, ← hrest]
    simp
  refine ⟨?_, not_mem_of_mem_splitOn hmem.1, not_mem_of_mem_splitOn hmem.2, ?_⟩
  · rw [func_part_eq, rest_text, hdrop, ← hrest, cons_path_text]
    simp
  · rw [rest_text, hdrop]
    cases rest with
    | nil => exact .inl rfl
    | cons w rest => exact .inr ⟨_, rfl⟩

theorem rest_text_eq_nil {key : List ℕ} {path : List (List Char)} {line f : List Char} :
    next_frame key path line = some f ∧ rest_text path line = [] ↔
      HasKey key line ∧ frames line = path ++ [f] := by
  rw [next_frame_eq_some]
  constructor
  · rintro ⟨⟨hkey, rest, hrest⟩, hnil⟩
    have hdrop : (frames line).drop (path.length + 1) = rest := by
      rw [← hrest]
      exact List.drop_left' (by simp)
    rw [rest_text, hdrop] at hnil
    cases rest with
    | nil => exact ⟨hkey, by rw [← hrest, List.append_nil]⟩
    | cons w rest => cases hnil
  · rintro ⟨hkey, hframes⟩
    refine ⟨⟨hkey, hframes ▸ List.prefix_rfl⟩, ?_⟩
    have hdrop : (frames line).drop (path.length + 1) = [] := by
      rw [hframes]
      exact List.drop_of_length_le (by simp)
    rw [rest_text, hdrop]
    rfl

/-! ## The children of a node -/

theorem map_prefix_map_iff {sha1 : List Char → HexName} {p l : List (List Char)}
    (h : ∀ w ∈ l, ∀ x ∈ p, sha1 w = sha1 x → w = x) :
    p.map sha1 <+: l.map sha1 ↔ p <+: l := by
  induction p generalizing l with
  | nil => simp
  | cons x p ih =>
    cases l with
    | nil => simp
    | cons w l =>
      simp only [List.forall_mem_cons] at h
      simp only [List.map_cons, List.cons_prefix_cons]
      rw [ih fun w hw x hx => (h.2 w hw).2 x hx]
      apply and_congr_left
      intro _
      exact ⟨fun heq => (h.1.1 heq.symm).symm, fun heq => by rw [heq]⟩

/-- The first letters behind a path of the trie of a process or thread are the hashed frames
behind the path. -/
theorem heads_stacksOf {sha1 : List Char → HexName} {lines : List (List Char)} {key : List ℕ}
    {path : List (List Char)}
    (hpath : ∀ line ∈ lines, ∀ w ∈ frames line, ∀ x ∈ path, sha1 w = sha1 x → w = x) :
    heads ((stacksOf sha1 lines key).filterMap (CountTrie.strip (path.map sha1))) =
      (lines.filterMap (next_frame key path)).map sha1 := by
  unfold heads stacksOf
  rw [List.filterMap_filterMap, List.filterMap_filterMap, List.map_filterMap]
  apply List.filterMap_congr
  intro line hline
  have hprefix := map_prefix_map_iff (hpath line hline)
  by_cases hkey : HasKey key line
  · by_cases hp : path <+: frames line
    · simp [stack_of, next_frame, show 1 < (words line).length ∧ key_of line = key from hkey, hkey,
        CountTrie.strip, hprefix, hp, ← List.map_drop]
    · simp [stack_of, next_frame, show 1 < (words line).length ∧ key_of line = key from hkey, hkey,
        CountTrie.strip, hprefix, hp]
  · have hnone : stack_of sha1 key line = none := if_neg hkey
    simp [hnone, next_frame, hkey]

/-- The names of the children of the node at a path, in order. -/
def ChildNames (sha1 : List Char → HexName) (app : List Char) (lines : List (List Char)) (pid : ℕ)
    (thread : Bool) (key : List ℕ) (path : List HexName) (names : List HexName) : Prop :=
  ∃ graphs t n, build_call_graph_helper sha1 app lines pid thread = .ok graphs ∧
    graphs.get? key = some (shown t) ∧ nodesAt path t = [n] ∧ names = (children n).map name

/-- A function is called behind a path. -/
def CalledBehind (lines : List (List Char)) (key : List ℕ) (path : List (List Char))
    (f : List Char) : Prop := ∃ line ∈ lines, HasKey key line ∧ path ++ [f] <+: frames line

/-- A function is called behind a path in a line with the given first word. -/
def CalledFrom (lines : List (List Char)) (key : List ℕ) (word : List Char)
    (path : List (List Char)) (f : List Char) : Prop :=
  ∃ line ∈ lines, HasKey key line ∧ first_word line = word ∧ path ++ [f] <+: frames line

/-- A line with the given first word ends with the given frames. -/
def EndsFrom (lines : List (List Char)) (key : List ℕ) (word : List Char)
    (stack : List (List Char)) : Prop :=
  ∃ line ∈ lines, HasKey key line ∧ first_word line = word ∧ frames line = stack

/-- Some line with `f` behind the path has no line with `g` before it: a line with `g` has a later
first word, or the same one, and then the names are in order. -/
def LeadsIn (lines : List (List Char)) (key : List ℕ) (path : List (List Char))
    (f g : List Char) : Prop :=
  ∃ line ∈ lines, HasKey key line ∧ path ++ [f] <+: frames line ∧
    (∀ line' ∈ lines, HasKey key line' → path ++ [g] <+: frames line' →
      first_word line' ≠ first_word line →
        Before ';' False False (first_word line) (first_word line')) ∧
    (CalledFrom lines key (first_word line) path g →
      Before ';' (EndsFrom lines key (first_word line) (path ++ [f]))
        (EndsFrom lines key (first_word line) (path ++ [g])) f g)

/-- The earliest first word from which one of two functions is called, when both are called from
there. -/
structure SharedWord (lines : List (List Char)) (key : List ℕ) (path : List (List Char))
    (f g word : List Char) : Prop where
  first : CalledFrom lines key word path f
  second : CalledFrom lines key word path g
  least : ∀ line ∈ lines, HasKey key line →
    path ++ [f] <+: frames line ∨ path ++ [g] <+: frames line → first_word line ≠ word →
      Before ';' False False word (first_word line)

instance (lines : List (List Char)) (key : List ℕ) (word : List Char) (path : List (List Char))
    (f : List Char) : Decidable (CalledFrom lines key word path f) := List.decidableBEx _ _

instance (lines : List (List Char)) (key : List ℕ) (word : List Char) (stack : List (List Char)) :
    Decidable (EndsFrom lines key word stack) := List.decidableBEx _ _

instance (lines : List (List Char)) (key : List ℕ) (path : List (List Char)) (f g : List Char) :
    Decidable (LeadsIn lines key path f g) :=
  have (line : List Char) : Decidable (∀ line' ∈ lines, HasKey key line' →
      path ++ [g] <+: frames line' → first_word line' ≠ first_word line →
        Before ';' False False (first_word line) (first_word line')) := List.decidableBAll _ _
  List.decidableBEx _ _

/-- A file as stackcollapse-perf.pl prints it. -/
structure SortedFile (lines : List (List Char)) : Prop where
  collapsed : ∀ line ∈ lines, CollapsedStack line
  sorted : lines.Pairwise fun a b => ¬ func_part b < func_part a

section Order

variable {sha1 : List Char → HexName} {app : List Char} {lines : List (List Char)} {key : List ℕ}
  {path : List (List Char)} {f g word : List Char}

theorem calledFrom_iff : CalledFrom lines key word path f ↔
    ∃ line, line ∈ lines ∧ first_word line = word ∧ next_frame key path line = some f := by
  apply exists_congr
  intro line
  rw [next_frame_eq_some]
  tauto

theorem endsFrom_iff : EndsFrom lines key word (path ++ [f]) ↔
    ∃ line, (line ∈ lines ∧ first_word line = word ∧ next_frame key path line = some f) ∧
      rest_text path line = [] := by
  apply exists_congr
  intro line
  rw [and_assoc, and_assoc, rest_text_eq_nil]
  tauto

theorem leadsIn_iff : LeadsIn lines key path f g ↔
    Leads ';' first_word (rest_text path) (next_frame key path) lines f g := by
  unfold LeadsIn Leads
  simp only [calledFrom_iff, endsFrom_iff, next_frame_eq_some, and_assoc, and_imp]

/-- Which of two functions comes first in a sorted file. -/
theorem comesFirst_next_frame (hfile : SortedFile lines) (hfg : f ≠ g) :
    ComesFirst f g (lines.filterMap (next_frame key path)) ↔ LeadsIn lines key path f g := by
  rw [leadsIn_iff]
  exact comesFirst_iff_leads (fun line _ f hnext => text_of_next_frame hnext) hfile.sorted hfg

theorem SharedWord.leadsIn_iff_before (h : SharedWord lines key path f g word) :
    LeadsIn lines key path f g ↔ Before ';' (EndsFrom lines key word (path ++ [f]))
      (EndsFrom lines key word (path ++ [g])) f g := by
  rw [leadsIn_iff, endsFrom_iff, endsFrom_iff]
  apply leads_iff_before (calledFrom_iff.mp h.first) (calledFrom_iff.mp h.second)
  intro line hline hnext hne
  rw [next_frame_eq_some, next_frame_eq_some] at hnext
  exact h.least line hline (hnext.elim And.left And.left) (hnext.imp And.right And.right) hne

theorem stacksOf_ne_nil (sha1 : List Char → HexName) (hf : CalledBehind lines key path f) :
    ∃ s ∈ stacksOf sha1 lines key, path.map sha1 <+: s.1 := by
  obtain ⟨line, hline, hkey, hprefix⟩ := hf
  refine ⟨_, List.mem_filterMap.mpr ⟨line, hline, if_pos hkey⟩, ?_⟩
  exact ((List.prefix_append _ _).trans hprefix).map sha1

/-- The children of a node are in the order in which they come first in the file. -/
theorem childNames_firsts (sha1 : List Char → HexName) (happ : isAscii app = true)
    (hlines : ∀ line ∈ lines, CollapsedStack line) (pid : ℕ) (thread : Bool)
    (hf : CalledBehind lines key path f) :
    ChildNames sha1 app lines pid thread key (path.map sha1)
      (firsts (heads ((stacksOf sha1 lines key).filterMap (CountTrie.strip (path.map sha1))))) := by
  obtain ⟨graphs, hrun, hget⟩ := build_call_graph_helper_spec sha1 happ hlines pid thread
  obtain ⟨s, hs, hprefix⟩ := stacksOf_ne_nil sha1 hf
  have hsome := hget key
  rw [tree_of, if_pos (List.ne_nil_of_mem hs), Option.map_some] at hsome
  rcases nodesAt_build (path.map sha1) (sha1 app) (stacksOf sha1 lines key) with
    ⟨-, hnil, -⟩ | ⟨-, x, hnodes⟩
  · exact absurd hnil (strip_ne_nil_iff.mpr ⟨s, hs, hprefix⟩)
  · exact ⟨graphs, _, _, hrun, hsome, hnodes, (map_name_children_build _ _).symm⟩

/-- The names of the frames of some lines have different hashes. -/
def NoCollision (sha1 : List Char → HexName) (lines : List (List Char)) : Prop :=
  ∀ line ∈ lines, ∀ line' ∈ lines, ∀ w ∈ frames line, ∀ w' ∈ frames line',
    sha1 w = sha1 w' → w = w'

/-- The order of two siblings in the tree of a sorted file. -/
theorem siblings_order (happ : isAscii app = true) (hfile : SortedFile lines)
    (hsha1 : NoCollision sha1 lines) (hfg : f ≠ g) (hf : CalledBehind lines key path f)
    (hg : CalledBehind lines key path g) (pid : ℕ) (thread : Bool) :
    ∃ names, ChildNames sha1 app lines pid thread key (path.map sha1) names ∧
      sha1 f ∈ names ∧ sha1 g ∈ names ∧
      (names.idxOf (sha1 f) < names.idxOf (sha1 g) ↔ LeadsIn lines key path f g) := by
  refine ⟨_, childNames_firsts sha1 happ hfile.collapsed pid thread hf, ?_⟩
  obtain ⟨line, hline, hkey, hprefix⟩ := hf
  obtain ⟨line', hline', hkey', hprefix'⟩ := hg
  have hmem : ∀ x ∈ path ++ [f], x ∈ frames line := fun x hx => hprefix.subset hx
  have hmem' : g ∈ frames line' := hprefix'.subset (by simp)
  have hnext : ∀ z ∈ lines.filterMap (next_frame key path), ∃ l ∈ lines, z ∈ frames l := by
    intro z hz
    obtain ⟨l, hl, hz⟩ := List.mem_filterMap.mp hz
    exact ⟨l, hl, (next_frame_eq_some.mp hz).2.subset (by simp)⟩
  have hne : sha1 f ≠ sha1 g := fun heq =>
    hfg (hsha1 line hline line' hline' f (hmem f (by simp)) g hmem' heq)
  rw [heads_stacksOf fun l hl w hw x hx =>
    hsha1 l hl line hline w hw x (hmem x (List.mem_append_left _ hx))]
  refine ⟨?_, ?_, ?_⟩
  · rw [mem_firsts]
    apply List.mem_map_of_mem
    exact List.mem_filterMap.mpr ⟨line, hline, next_frame_eq_some.mpr ⟨hkey, hprefix⟩⟩
  · rw [mem_firsts]
    apply List.mem_map_of_mem
    exact List.mem_filterMap.mpr ⟨line', hline', next_frame_eq_some.mpr ⟨hkey', hprefix'⟩⟩
  · rw [idxOf_lt_iff hne, comesFirst_firsts, comesFirst_map, comesFirst_next_frame hfile hfg]
    · intro z hz heq
      obtain ⟨l, hl, hz⟩ := hnext z hz
      exact hsha1 l hl line hline z hz f (hmem f (by simp)) heq
    · intro z hz heq
      obtain ⟨l, hl, hz⟩ := hnext z hz
      exact hsha1 l hl line' hline' z hz g hmem' heq

end Order

/-! ## The law -/

/-- Two siblings are in the same order in the trees of two sorted files just if the one leads the
other in both files or in none. Where the earliest first word of each file has both siblings, they
are so unless the name of one is the name of the other with a character below the separator behind
it, and only one of the files has a stack with the shorter name at its end. -/
theorem siblings_in_the_same_order_iff (sha1 : List Char → HexName) (app : List Char)
    (happ : isAscii app = true) (lines₁ lines₂ : List (List Char)) (key₁ key₂ : List ℕ)
    (hfile₁ : SortedFile lines₁) (hfile₂ : SortedFile lines₂)
    (hsha1 : NoCollision sha1 lines₁) (hsha1' : NoCollision sha1 lines₂)
    (path : List (List Char)) (f g : List Char) (hfg : f ≠ g)
    (hf₁ : CalledBehind lines₁ key₁ path f) (hg₁ : CalledBehind lines₁ key₁ path g)
    (hf₂ : CalledBehind lines₂ key₂ path f) (hg₂ : CalledBehind lines₂ key₂ path g)
    (pid₁ pid₂ : ℕ) (thread₁ thread₂ : Bool) :
    ∃ names₁ names₂,
      ChildNames sha1 app lines₁ pid₁ thread₁ key₁ (path.map sha1) names₁ ∧
      ChildNames sha1 app lines₂ pid₂ thread₂ key₂ (path.map sha1) names₂ ∧
      (sha1 f ∈ names₁ ∧ sha1 g ∈ names₁ ∧ sha1 f ∈ names₂ ∧ sha1 g ∈ names₂) ∧
      ((names₁.idxOf (sha1 f) < names₁.idxOf (sha1 g) ↔
          names₂.idxOf (sha1 f) < names₂.idxOf (sha1 g)) ↔
        (LeadsIn lines₁ key₁ path f g ↔ LeadsIn lines₂ key₂ path f g)) ∧
      ∀ word₁ word₂, SharedWord lines₁ key₁ path f g word₁ →
        SharedWord lines₂ key₂ path f g word₂ →
        ((LeadsIn lines₁ key₁ path f g ↔ LeadsIn lines₂ key₂ path f g) ↔
          (∀ c t, g = f ++ c :: t → c < ';' →
            (EndsFrom lines₁ key₁ word₁ (path ++ [f]) ↔
              EndsFrom lines₂ key₂ word₂ (path ++ [f]))) ∧
          ∀ c t, f = g ++ c :: t → c < ';' →
            (EndsFrom lines₁ key₁ word₁ (path ++ [g]) ↔
              EndsFrom lines₂ key₂ word₂ (path ++ [g]))) := by
  obtain ⟨names₁, hnames₁, hmemf₁, hmemg₁, horder₁⟩ :=
    siblings_order happ hfile₁ hsha1 hfg hf₁ hg₁ pid₁ thread₁
  obtain ⟨names₂, hnames₂, hmemf₂, hmemg₂, horder₂⟩ :=
    siblings_order happ hfile₂ hsha1' hfg hf₂ hg₂ pid₂ thread₂
  have hsep : ∀ f, CalledBehind lines₁ key₁ path f → ';' ∉ f := by
    rintro f ⟨line, -, hkey, hprefix⟩
    exact (text_of_next_frame (next_frame_eq_some.mpr ⟨hkey, hprefix⟩)).2.2.1
  refine ⟨names₁, names₂, hnames₁, hnames₂, ⟨hmemf₁, hmemg₁, hmemf₂, hmemg₂⟩, ?_, ?_⟩
  · rw [horder₁, horder₂]
  · intro word₁ word₂ hshared₁ hshared₂
    rw [hshared₁.leadsIn_iff_before, hshared₂.leadsIn_iff_before]
    exact before_congr_iff (hsep f hf₁) (hsep g hg₁)

/-- A line of a file, with the count one. -/
def lineOf (stack : String) : List Char := (stack ++ " %%% 1\n").toList

/-- The conditions on a file of a few lines, as they are decided. -/
theorem sortedFile_of_lines {lines : List (List Char)}
    (hcount : ∀ line ∈ lines, (count_part line).toOption.isSome = true)
    (hascii : ∀ line ∈ lines, ∀ w ∈ frames line, isAscii w = true)
    (hsorted : lines.Pairwise fun a b => ¬ func_part b < func_part a) : SortedFile lines where
  collapsed line hline := collapsedStack_of_isSome (hcount line hline) (hascii line hline)
  sorted := hsorted

/-- A process with two commands, of which the first calls `a` and `b`. -/
def twoCommands : List (List Char) :=
  [lineOf "main-1;a", lineOf "main-1;b", lineOf "worker-1;a"]

/-- A process with one command that calls `a` and `b`. -/
def oneCommand : List (List Char) := [lineOf "main-2;a;c", lineOf "main-2;b"]

theorem siblings_in_the_same_order_in_two_files :
    LeadsIn twoCommands [1] [] "a".toList "b".toList ∧
      LeadsIn oneCommand [2] [] "a".toList "b".toList ∧ ∃ names₁ names₂,
      ChildNames hexOnly "app".toList twoCommands 1 false [1] [] names₁ ∧
      ChildNames hexOnly "app".toList oneCommand 2 false [2] [] names₂ ∧
      (names₁.idxOf (hexOnly "a".toList) < names₁.idxOf (hexOnly "b".toList) ↔
        names₂.idxOf (hexOnly "a".toList) < names₂.idxOf (hexOnly "b".toList)) := by
  have hleads₁ : LeadsIn twoCommands [1] [] "a".toList "b".toList := by decide +kernel
  have hleads₂ : LeadsIn oneCommand [2] [] "a".toList "b".toList := by decide +kernel
  obtain ⟨names₁, names₂, hnames₁, hnames₂, -, hiff, -⟩ :=
    siblings_in_the_same_order_iff hexOnly "app".toList (by decide) twoCommands oneCommand [1] [2]
      (by apply sortedFile_of_lines <;> decide +kernel)
      (by apply sortedFile_of_lines <;> decide +kernel)
      (by unfold NoCollision; decide +kernel) (by unfold NoCollision; decide +kernel)
      [] "a".toList "b".toList (by decide)
      ⟨lineOf "main-1;a", by decide +kernel, by decide +kernel, by decide +kernel⟩
      ⟨lineOf "main-1;b", by decide +kernel, by decide +kernel, by decide +kernel⟩
      ⟨lineOf "main-2;a;c", by decide +kernel, by decide +kernel, by decide +kernel⟩
      ⟨lineOf "main-2;b", by decide +kernel, by decide +kernel, by decide +kernel⟩
      1 2 false false
  exact ⟨hleads₁, hleads₂, names₁, names₂, hnames₁, hnames₂,
    hiff.mpr (iff_of_true hleads₁ hleads₂)⟩

/-- The children of the root in a file of two lines. -/
theorem childNames_pair (sha1 : List Char → HexName) {lines : List (List Char)}
    (hfile : SortedFile lines) {f : List Char} (hf : CalledBehind lines [1] [] f) {x y : HexName}
    {p q : List HexName} {m n : ℤ}
    (hstacks : stacksOf sha1 lines [1] = [(x :: p, m), (y :: q, n)]) (hxy : x ≠ y) :
    ChildNames sha1 "app".toList lines 1 false [1] [] [x, y] := by
  have h := childNames_firsts sha1 (by decide : isAscii "app".toList = true) hfile.collapsed 1
    false hf
  rw [List.map_nil, hstacks] at h
  simpa [CountTrie.strip, heads, firsts, hxy.symm] using h

/-- No stack of the second file ends with `f`, so `f1` comes before it there. -/
def firstFile : List (List Char) := [lineOf "app-1;f", lineOf "app-1;f1"]

def secondFile : List (List Char) := [lineOf "app-1;f1", lineOf "app-1;f;a"]

/-- The two commands of a process have changed the functions that they call. -/
def mainCallsB : List (List Char) := [lineOf "main-1;b", lineOf "worker-1;a"]

def mainCallsA : List (List Char) := [lineOf "main-1;a", lineOf "worker-1;b"]

theorem sortedFiles : ∀ lines ∈ [firstFile, secondFile, mainCallsB, mainCallsA],
    SortedFile lines := by
  simp only [List.forall_mem_cons]
  refine ⟨?_, ?_, ?_, ?_, List.forall_mem_nil _⟩ <;> apply sortedFile_of_lines <;> decide +kernel

/-- The siblings change places whatever the hash is, if it tells them apart. -/
theorem childNames_of_files (sha1 : List Char → HexName)
    (hf : sha1 "f".toList ≠ sha1 "f1".toList) (ha : sha1 "a".toList ≠ sha1 "b".toList) :
    (ChildNames sha1 "app".toList firstFile 1 false [1] [] [sha1 "f".toList, sha1 "f1".toList] ∧
      ChildNames sha1 "app".toList secondFile 1 false [1] []
        [sha1 "f1".toList, sha1 "f".toList]) ∧
    ChildNames sha1 "app".toList mainCallsB 1 false [1] [] [sha1 "b".toList, sha1 "a".toList] ∧
      ChildNames sha1 "app".toList mainCallsA 1 false [1] []
        [sha1 "a".toList, sha1 "b".toList] := by
  have hcalled : CalledBehind firstFile [1] [] "f".toList ∧
      CalledBehind secondFile [1] [] "f".toList ∧ CalledBehind mainCallsB [1] [] "a".toList ∧
      CalledBehind mainCallsA [1] [] "a".toList := by
    refine ⟨⟨lineOf "app-1;f", ?_⟩, ⟨lineOf "app-1;f;a", ?_⟩, ⟨lineOf "worker-1;a", ?_⟩,
      lineOf "main-1;a", ?_⟩ <;> decide +kernel
  refine ⟨⟨?_, ?_⟩, ?_, ?_⟩
  · exact childNames_pair sha1 (sortedFiles _ (by simp)) hcalled.1 rfl hf
  · exact childNames_pair sha1 (sortedFiles _ (by simp)) hcalled.2.1 rfl hf.symm
  · exact childNames_pair sha1 (sortedFiles _ (by simp)) hcalled.2.2.1 rfl ha.symm
  · exact childNames_pair sha1 (sortedFiles _ (by simp)) hcalled.2.2.2 rfl ha

theorem siblings_change_places :
    (∀ lines ∈ [firstFile, secondFile, mainCallsB, mainCallsA], SortedFile lines) ∧
      NoCollision hexOnly (firstFile ++ secondFile ++ mainCallsB ++ mainCallsA) ∧
      (ChildNames hexOnly "app".toList firstFile 1 false [1] []
          [hexOnly "f".toList, hexOnly "f1".toList] ∧
        ChildNames hexOnly "app".toList secondFile 1 false [1] []
          [hexOnly "f1".toList, hexOnly "f".toList]) ∧
      ChildNames hexOnly "app".toList mainCallsB 1 false [1] []
          [hexOnly "b".toList, hexOnly "a".toList] ∧
        ChildNames hexOnly "app".toList mainCallsA 1 false [1] []
          [hexOnly "a".toList, hexOnly "b".toList] := by
  refine ⟨sortedFiles, ?_, childNames_of_files hexOnly (by decide) (by decide)⟩
  unfold NoCollision
  decide +kernel

end ditto.call_trees
