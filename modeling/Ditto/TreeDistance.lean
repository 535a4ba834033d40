-- The laws of the call stack distance (the program tree_distance of
-- tree-similarity): the distance of two call trees is scaled by the edits that
-- delete one of them and insert the other, so it is between 0 and 1. An `int`
-- is too small for the sum of two large weights, and then it is undefined. The
-- program prints more than the distance, so its caller never reads a number.
import Ditto.BracketNotation
import Ditto.Lib.PyFloat
import Ditto.Lib.TreeEdit
import Mathlib.Algebra.Order.Field.Rat
import Mathlib.Tactic.Linarith

namespace ditto.tree_distance

open Rose TreeEdit bracket_notation

/-! ## Labels as numbers -/

/-- The ids of the names that were inserted. Different names have different ids. -/
structure LabelDictionary where
  dictionary : List (List Char × ℕ) := []
  labels_count : ℕ := 0
  lt_count : ∀ e ∈ dictionary, e.2 < labels_count := by simp
  names_eq : ∀ e ∈ dictionary, ∀ f ∈ dictionary, e.2 = f.2 → e.1 = f.1 := by simp

/-- The id and the weight of a label. -/
abbrev LabelId := ℕ × ℤ

namespace LabelDictionary

/-- The model of `insert` for a name that is not in the dictionary. -/
def insertNew (ld : LabelDictionary) (name : List Char) : LabelDictionary where
  dictionary := ld.dictionary ++ [(name, ld.labels_count)]
  labels_count := ld.labels_count + 1
  lt_count := by
    intro e he
    rcases List.mem_append.mp he with he | he
    · exact Nat.lt_succ_of_lt (ld.lt_count e he)
    · rw [List.mem_singleton.mp he]
      exact Nat.lt_succ_self _
  names_eq := by
    intro e he f hf heq
    rw [List.mem_append, List.mem_singleton] at he hf
    rcases he with he | rfl <;> rcases hf with hf | rfl
    · exact ld.names_eq e he f hf heq
    · exact absurd heq (ld.lt_count e he).ne
    · exact absurd heq (ld.lt_count f hf).ne'
    · rfl

/-- The model of `LabelDictionary::insert`: labels are equal if their names are, so a name
that is in the dictionary keeps its id. -/
def insert (ld : LabelDictionary) (l : StringLabel) : LabelId × LabelDictionary :=
  match ld.dictionary.lookup l.label with
  | some id => ((id, l.weight), ld)
  | none => ((ld.labels_count, l.weight), ld.insertNew l.label)

end LabelDictionary

mutual

/-- The model of `index_tree`. Of a tree index only the ids and the shape are kept. -/
def index_tree : Node → LabelDictionary → Rose LabelId × LabelDictionary
  | .node l cs, ld =>
    let (label_id, ld) := ld.insert l
    let (indexes, ld) := index_children cs ld
    (.node label_id indexes, ld)

/-- The loop of `index_tree_recursion` over the children. -/
def index_children : List Node → LabelDictionary → List (Rose LabelId) × LabelDictionary
  | [], ld => ([], ld)
  | t :: ts, ld =>
    let (ti, ld) := index_tree t ld
    let (tis, ld) := index_children ts ld
    (ti :: tis, ld)

end

/-! ## Costs -/

/-- The sum of two numbers of type `int`, which is undefined where it is no `int`. -/
def int_add (a b : ℤ) : Option ℤ :=
  if -2 ^ 31 ≤ a + b ∧ a + b < 2 ^ 31 then some (a + b) else none

/-- The model of `UnitCostModelLD::ren`. -/
def ren (label_id_1 label_id_2 : LabelId) : Option ℚ :=
  if label_id_1.1 = label_id_2.1 then some 0
  else (int_add label_id_1.2 label_id_2.2).map fun (sum : ℤ) => 1 * (sum : ℚ)

/-- The model of `UnitCostModelLD::del`. -/
def del (label_id_1 : LabelId) : ℚ := 1 * (label_id_1.2 : ℚ)

/-- The model of `UnitCostModelLD::ins`. -/
def ins (label_id_1 : LabelId) : ℚ := 1 * (label_id_1.2 : ℚ)

/-- The costs of the edits, where they are defined. -/
def UnitCostModelLD : CostModel LabelId ℚ where
  ren a b := (ren a b).getD 0
  del := del
  ins := ins

/-- All renames between the nodes of two trees have a cost. -/
def RenDefined (s t : Rose LabelId) : Prop :=
  ∀ a ∈ s.values, ∀ b ∈ t.values, (ren a b).isSome = true

/-- What the program assumes of `ted`: the least cost of an ordered edit mapping. To find it,
`ted` looks at the rename of each pair of nodes. -/
structure IsTed (ted : Rose LabelId → Rose LabelId → Option ℚ) : Prop where
  least : ∀ s t, RenDefined s t → ∃ d, ted s t = some d ∧ UnitCostModelLD.IsDistance s t d
  undefined : ∀ s t, ¬ RenDefined s t → ted s t = none

/-! ## The program -/

/-- The results of the calls of `ted` in `main`, and the number that it prints. -/
structure Distances where
  n1 : ℚ
  n2 : ℚ
  computed_results : ℚ

/-- The part of `main` behind the parser. -/
def distances (ted : Rose LabelId → Rose LabelId → Option ℚ) (t0 t1 t2 : Node) :
    Option Distances := do
  let (ti0, ld) := index_tree t0 {}
  let (ti1, ld) := index_tree t1 ld
  let (ti2, _) := index_tree t2 ld
  let n1 ← ted ti0 ti1
  let n2 ← ted ti0 ti2
  let computed_results ← ted ti1 ti2
  return {
    n1, n2
    computed_results :=
      if n1 + n2 > 0 then computed_results / (n1 + n2) else computed_results }

/-- The end of a run: its exit code and what it printed. -/
structure Exit where
  code : ℤ
  cout : List Char := []
  cerr : List Char := []

/-- The model of `getline` at the start of a file. -/
def getline (file : List Char) : List Char := file.takeWhile (· ≠ '\n')

/-- The model of `main`. The files are given by their names, and `show_double` is how a stream
prints a number. -/
def main (split_regex : List Char → List (List Char))
    (ted : Rose LabelId → Rose LabelId → Option ℚ) (show_double : ℚ → List Char)
    (files : List Char → List Char) : List (List Char) → Option Exit
  | [_, argv1, argv2] => do
    let tree_string := getline (files argv1)
    let cout := tree_string ++ argv1 ++ ['\n']
    let (valid, found) ← validate_input tree_string
    let cout := cout ++ found
    if valid = false then
      return {
        code := -1, cout
        cerr := ("Incorrect format of source tree. " ++
          "Is the number of opening and closing brackets equal?\n").toList }
    let (t1, node_stack) ← parse_single split_regex [] tree_string
    let tree_string := getline (files argv2)
    let (valid, found) ← validate_input tree_string
    let cout := cout ++ found
    if valid = false then
      return {
        code := -1, cout
        cerr := ("Incorrect format of destnation tree. " ++
          "Is the number of opening and closing brackets equal?\n").toList }
    let (t2, node_stack) ← parse_single split_regex node_stack tree_string
    let (t0, _) ← parse_single split_regex node_stack "\x7b0 %%% 0\x7d".toList
    let r ← distances ted t0 t1 t2
    return { code := 0, cout := cout ++ show_double r.computed_results ++ ['\n'] }
  | _ => some { code := -1, cerr := "Incorrect number of parameters.\n".toList }

/-- The caller of the program: `float(stdout.decode('ascii'))`. -/
def read_distance (stdout : List Char) : Except PyError PyFloat :=
  if stdout.all (·.toNat < 128) then PyFloat.float stdout else .error .valueError

/-- The reference tree of `main`. -/
def t0 : Node := .node ⟨['0'], 0⟩ []

/-! ## The ids stand for the names -/

namespace LabelDictionary

/-- The id of a name. -/
def idOf (ld : LabelDictionary) (name : List Char) : Option ℕ := ld.dictionary.lookup name

/-- A dictionary with all names of another one under the same ids. -/
def Extends (ld' ld : LabelDictionary) : Prop :=
  ∀ name id, ld.idOf name = some id → ld'.idOf name = some id

/-- What `insert` returns for a label whose name is in the dictionary. -/
def key (ld : LabelDictionary) (l : StringLabel) : LabelId := ((ld.idOf l.label).getD 0, l.weight)

variable {ld : LabelDictionary}

theorem mem_of_idOf {name : List Char} {id : ℕ} (h : ld.idOf name = some id) :
    (name, id) ∈ ld.dictionary := by
  obtain ⟨pre, rest, heq, -⟩ := List.lookup_eq_some_iff.mp h
  rw [heq]
  simp

theorem idOf_insertNew {name : List Char} (h : ld.idOf name = none) (other : List Char) :
    (ld.insertNew name).idOf other =
      if other = name then some ld.labels_count else ld.idOf other := by
  have hlookup : (ld.insertNew name).idOf other =
      (ld.idOf other).or (List.lookup other [(name, ld.labels_count)]) := List.lookup_append
  rw [hlookup]
  by_cases heq : other = name
  · subst heq
    simp [h]
  · have hnone : List.lookup other [(name, ld.labels_count)] = none := by simp [heq]
    simp [heq, hnone]

/-- `insert` keeps the ids, and the name of the label has one afterwards. -/
theorem insert_spec (ld : LabelDictionary) (l : StringLabel) :
    (ld.insert l).2.Extends ld ∧ (ld.insert l).2.idOf l.label = some (ld.insert l).1.1 ∧
      (ld.insert l).1.2 = l.weight := by
  unfold insert
  cases h : ld.dictionary.lookup l.label with
  | some id => exact ⟨fun _ _ h => h, h, rfl⟩
  | none =>
    refine ⟨fun name id hname => ?_, ?_, rfl⟩
    · have hne : name ≠ l.label := by
        rintro rfl
        exact absurd (hname.symm.trans h) (by simp)
      simp only [idOf_insertNew h, hne, if_false, hname]
    · simp [idOf_insertNew h]

theorem key_eq {l : StringLabel} {id : ℕ} (h : ld.idOf l.label = some id) :
    ld.key l = (id, l.weight) := by simp [key, h]

/-- The dictionary has the names of a list of labels. -/
def Knows (ld : LabelDictionary) (ls : List StringLabel) : Prop :=
  ∀ l ∈ ls, ∃ id, ld.idOf l.label = some id

theorem Knows.of_extends {ld' : LabelDictionary} {ls : List StringLabel} (h : ld.Knows ls)
    (hext : ld'.Extends ld) : ld'.Knows ls := by
  intro l hl
  obtain ⟨id, hid⟩ := h l hl
  exact ⟨id, hext _ _ hid⟩

theorem fst_key_eq_iff {l m : StringLabel} {ls ms : List StringLabel} (hls : ld.Knows ls)
    (hms : ld.Knows ms) (hl : l ∈ ls) (hm : m ∈ ms) :
    (ld.key l).1 = (ld.key m).1 ↔ l.label = m.label := by
  obtain ⟨i, hi⟩ := hls l hl
  obtain ⟨j, hj⟩ := hms m hm
  rw [key_eq hi, key_eq hj]
  constructor
  · rintro rfl
    exact ld.names_eq _ (mem_of_idOf hi) _ (mem_of_idOf hj) rfl
  · intro hlabel
    rw [hlabel, hj] at hi
    exact (Option.some.inj hi).symm

end LabelDictionary

open LabelDictionary

/-- An index has the shape of its tree and the ids of all names in it, in its own dictionary
and in each one after it. -/
theorem index_tree_spec :
    (∀ (t : Node) (ld : LabelDictionary),
      (index_tree t ld).2.Extends ld ∧ (index_tree t ld).2.Knows t.values ∧
        ∀ ld' : LabelDictionary, ld'.Extends (index_tree t ld).2 →
          (index_tree t ld).1 = t.map ld'.key) ∧
    ∀ (ts : List Node) (ld : LabelDictionary),
      (index_children ts ld).2.Extends ld ∧ (index_children ts ld).2.Knows (forestValues ts) ∧
        ∀ ld' : LabelDictionary, ld'.Extends (index_children ts ld).2 →
          (index_children ts ld).1 = forestMap ld'.key ts := by
  refine forest_induction ?_ ?_ ?_
  · intro l cs ih ld
    obtain ⟨hinsert, hid, hweight⟩ := ld.insert_spec l
    obtain ⟨hext, hknows, hindex⟩ := ih (ld.insert l).2
    refine ⟨fun name id h => hext _ _ (hinsert _ _ h), ?_, fun ld' hld' => ?_⟩
    · exact forall_mem_values_node.mpr ⟨⟨_, hext _ _ hid⟩, hknows⟩
    · have hkey : ld'.key l = (ld.insert l).1 := by
        rw [key_eq (hld' _ _ (hext _ _ hid)), ← hweight]
      rw [map, hkey]
      exact congrArg (Rose.node (ld.insert l).1) (hindex ld' hld')
  · exact fun ld => ⟨fun _ _ h => h, by simp [Knows, forestValues], fun _ _ => rfl⟩
  · intro t ts iht ihts ld
    obtain ⟨hextT, hknowsT, hindexT⟩ := iht ld
    obtain ⟨hext, hknows, hindex⟩ := ihts (index_tree t ld).2
    refine ⟨fun name id h => hext _ _ (hextT _ _ h), ?_, fun ld' hld' => ?_⟩
    · exact forall_mem_forestValues_cons.mpr ⟨hknowsT.of_extends hext, hknows⟩
    · have hld : ld'.Extends (index_tree t ld).2 := fun name id h => hld' _ _ (hext _ _ h)
      exact congrArg₂ List.cons (hindexT ld' hld) (hindex ld' hld')

/-- The three trees of `main` are indexed with one dictionary. -/
theorem exists_dictionary (ted : Rose LabelId → Rose LabelId → Option ℚ) (t0 t1 t2 : Node) :
    ∃ ld : LabelDictionary, ld.Knows t0.values ∧ ld.Knows t1.values ∧ ld.Knows t2.values ∧
      distances ted t0 t1 t2 = do
        let n1 ← ted (t0.map ld.key) (t1.map ld.key)
        let n2 ← ted (t0.map ld.key) (t2.map ld.key)
        let computed_results ← ted (t1.map ld.key) (t2.map ld.key)
        return {
          n1, n2
          computed_results :=
            if n1 + n2 > 0 then computed_results / (n1 + n2) else computed_results } := by
  obtain ⟨-, hknows0, hindex0⟩ := index_tree_spec.1 t0 {}
  set ld0 := (index_tree t0 {}).2 with hld0
  obtain ⟨hext1, hknows1, hindex1⟩ := index_tree_spec.1 t1 ld0
  set ld1 := (index_tree t1 ld0).2 with hld1
  obtain ⟨hext2, hknows2, hindex2⟩ := index_tree_spec.1 t2 ld1
  have hext0 : (index_tree t2 ld1).2.Extends ld0 := fun name id h => hext2 _ _ (hext1 _ _ h)
  refine ⟨(index_tree t2 ld1).2, hknows0.of_extends hext0, hknows1.of_extends hext2, hknows2, ?_⟩
  rw [← hindex0 _ hext0, ← hindex1 _ hext2, ← hindex2 _ fun _ _ h => h]
  rfl

/-! ## The distance by names -/

/-- The costs of the edits, by the names of the nodes. -/
def nameCosts : CostModel StringLabel ℚ where
  ren l m := if l.label = m.label then 0 else (l.weight : ℚ) + m.weight
  del l := l.weight
  ins l := l.weight

/-- The weight of all nodes of a tree. -/
def totalWeight (t : Node) : ℚ := (t.values.map fun l => (l.weight : ℚ)).sum

/-- The weights of a tree as the parser reads them, but for the negative ones. -/
def IntWeights (t : Node) : Prop := ∀ l ∈ t.values, 0 ≤ l.weight ∧ l.weight < 2 ^ 31

/-- The weights of two nodes with different names have a sum that is an `int`. -/
def Fits (s t : Node) : Prop :=
  ∀ l ∈ s.values, ∀ m ∈ t.values, l.label ≠ m.label → l.weight + m.weight < 2 ^ 31

section Ted

variable {ted : Rose LabelId → Rose LabelId → Option ℚ} {s t : Node} {ld : LabelDictionary}

theorem Fits.swap (h : Fits s t) : Fits t s := by
  intro l hl m hm hne
  rw [add_comm]
  exact h m hm l hl hne.symm

/-- The cost of a rename, by the names of the nodes. -/
theorem ren_key (hs : ld.Knows s.values) (ht : ld.Knows t.values) (hws : IntWeights s)
    (hwt : IntWeights t) {l m : StringLabel} (hl : l ∈ s.values) (hm : m ∈ t.values) :
    ren (ld.key l) (ld.key m) =
      if l.label = m.label then some 0
      else if l.weight + m.weight < 2 ^ 31 then some ((l.weight : ℚ) + m.weight) else none := by
  have hlow : -2 ^ 31 ≤ l.weight + m.weight := by
    have hl0 := (hws l hl).1
    have hm0 := (hwt m hm).1
    omega
  have hadd : int_add l.weight m.weight =
      if l.weight + m.weight < 2 ^ 31 then some (l.weight + m.weight) else none := by
    rw [int_add]
    simp only [hlow, true_and]
  have hkey : ∀ l, (ld.key l).2 = l.weight := fun l => rfl
  simp only [ren, fst_key_eq_iff hs ht hl hm, hkey, hadd]
  by_cases hname : l.label = m.label
  · simp [hname]
  · by_cases hsum : l.weight + m.weight < 2 ^ 31
    · simp only [hname, hsum, if_true, if_false, Option.map_some, one_mul, Int.cast_add]
    · simp only [hname, hsum, if_false, Option.map_none]

theorem renDefined_iff (hs : ld.Knows s.values) (ht : ld.Knows t.values)
    (hws : IntWeights s) (hwt : IntWeights t) :
    RenDefined (s.map ld.key) (t.map ld.key) ↔ Fits s t := by
  simp only [RenDefined, (values_map _).1, List.forall_mem_map]
  refine forall₂_congr fun l hl => forall₂_congr fun m hm => ?_
  rw [ren_key hs ht hws hwt hl hm]
  by_cases hname : l.label = m.label
  · simp [hname]
  · simp [hname]

/-- `ted` finds the distance by names where the sums of the weights fit. -/
theorem IsTed.distance (hted : IsTed ted) (hs : ld.Knows s.values) (ht : ld.Knows t.values)
    (hws : IntWeights s) (hwt : IntWeights t) (hfits : Fits s t) :
    ∃ d, ted (s.map ld.key) (t.map ld.key) = some d ∧ nameCosts.IsDistance s t d := by
  obtain ⟨d, hd, hdist⟩ := hted.least _ _ ((renDefined_iff hs ht hws hwt).mpr hfits)
  refine ⟨d, hd, ((CostModel.isDistance_map _ _).mp hdist).congr (fun l hl m hm => ?_) ?_ ?_⟩
  · simp only [CostModel.comap, UnitCostModelLD, nameCosts, ren_key hs ht hws hwt hl hm]
    by_cases hname : l.label = m.label
    · simp [hname]
    · simp only [hname, hfits l hl m hm hname, if_true, if_false, Option.getD_some]
  · funext l
    simp [CostModel.comap, UnitCostModelLD, del, key, nameCosts]
  · funext l
    simp [CostModel.comap, UnitCostModelLD, ins, key, nameCosts]

theorem IsTed.fits_of_some (hted : IsTed ted) (hs : ld.Knows s.values) (ht : ld.Knows t.values)
    (hws : IntWeights s) (hwt : IntWeights t) {d : ℚ}
    (h : ted (s.map ld.key) (t.map ld.key) = some d) : Fits s t := by
  by_contra hfits
  have hundefined := mt (renDefined_iff hs ht hws hwt).mp hfits
  rw [hted.undefined _ _ hundefined] at h
  cases h

end Ted

section Distance

variable {s t : Node} {d : ℚ}

theorem nameCosts_swap (h : nameCosts.IsDistance s t d) : nameCosts.IsDistance t s d := by
  refine h.swap (fun l m => ?_) fun l => rfl
  simp [nameCosts, eq_comm, add_comm]

theorem nameCosts_nonneg (hs : IntWeights s) (ht : IntWeights t)
    (h : nameCosts.IsDistance s t d) : 0 ≤ d := by
  have hweight {t : Node} (ht : IntWeights t) {l : StringLabel} (hl : l ∈ t.values) :
      (0 : ℚ) ≤ l.weight := by exact_mod_cast (ht l hl).1
  refine h.nonneg (fun l hl m hm => ?_) (fun l hl => ?_) fun m hm => ?_
  · simp only [nameCosts]
    split
    · exact le_rfl
    · exact add_nonneg (hweight hs hl) (hweight ht hm)
  · simp only [nameCosts]
    exact hweight hs hl
  · simp only [nameCosts]
    exact hweight ht hm

theorem nameCosts_le (h : nameCosts.IsDistance s t d) : d ≤ totalWeight s + totalWeight t :=
  h.le_total

/-- The distance to a tree with other names is the weight of both. -/
theorem nameCosts_of_ne (hne : ∀ l ∈ s.values, ∀ m ∈ t.values, l.label ≠ m.label)
    (h : nameCosts.IsDistance s t d) : d = totalWeight s + totalWeight t :=
  h.eq_total fun l hl m hm => if_neg (hne l hl m hm)

/-- Trees with the same shape and names have no distance. -/
theorem nameCosts_of_same (hsame : s.map StringLabel.label = t.map StringLabel.label)
    (h : nameCosts.IsDistance s t d) : d ≤ 0 := by
  have hpaths : s.paths = t.paths := by
    simpa using congrArg Rose.paths hsame
  rw [← nameCosts.cost_diagonal hpaths fun p hp => ?_]
  · exact h.le_cost (IsMapping.diagonal hpaths)
  · have hname : (s.valueAt p).map StringLabel.label = (t.valueAt p).map StringLabel.label := by
      simpa using congrArg (Rose.valueAt p) hsame
    simp only [CostModel.renAt]
    cases hl : s.valueAt p with
    | none => simp
    | some l =>
      cases hm : t.valueAt p with
      | none => simp
      | some m =>
        have heq : l.label = m.label := by simpa [hl, hm] using hname
        simp [nameCosts, heq]

end Distance

/-! ## The numbers of the program -/

/-- No function has the name of the reference tree. -/
def NoReference (t : Node) : Prop := ∀ l ∈ t.values, l.label ≠ ['0']

theorem fits_t0 {t : Node} (ht : IntWeights t) : Fits t0 t := by
  intro l hl m hm _
  obtain rfl : l = ⟨['0'], 0⟩ := by simpa [t0, values, forestValues] using hl
  simpa using (ht m hm).2

theorem intWeights_t0 : IntWeights t0 := by
  simp [IntWeights, t0, values, forestValues]

theorem distance_t0 {t : Node} (ht : NoReference t) {d : ℚ} (h : nameCosts.IsDistance t0 t d) :
    d = totalWeight t := by
  have hne : ∀ l ∈ t0.values, ∀ m ∈ t.values, l.label ≠ m.label := by
    intro l hl m hm
    obtain rfl : l = ⟨['0'], 0⟩ := by simpa [t0, values, forestValues] using hl
    exact (ht m hm).symm
  have hzero : totalWeight t0 = 0 := by simp [totalWeight, t0, values, forestValues]
  rw [nameCosts_of_ne hne h, hzero, zero_add]

section Program

variable {ted : Rose LabelId → Rose LabelId → Option ℚ} {t1 t2 : Node}

/-- What the program computes where the sums of the weights fit. -/
theorem distances_of_fits (hted : IsTed ted) (h1 : IntWeights t1) (h2 : IntWeights t2)
    (hn1 : NoReference t1) (hn2 : NoReference t2) (hfits : Fits t1 t2) :
    ∃ d, nameCosts.IsDistance t1 t2 d ∧
      distances ted t0 t1 t2 = some {
        n1 := totalWeight t1
        n2 := totalWeight t2
        computed_results :=
          if totalWeight t1 + totalWeight t2 > 0 then d / (totalWeight t1 + totalWeight t2)
          else d } := by
  obtain ⟨ld, hk0, hk1, hk2, hrun⟩ := exists_dictionary ted t0 t1 t2
  obtain ⟨n1, hted1, hdist1⟩ := hted.distance hk0 hk1 intWeights_t0 h1 (fits_t0 h1)
  obtain ⟨n2, hted2, hdist2⟩ := hted.distance hk0 hk2 intWeights_t0 h2 (fits_t0 h2)
  obtain ⟨d, hd, hdist⟩ := hted.distance hk1 hk2 h1 h2 hfits
  obtain rfl := distance_t0 hn1 hdist1
  obtain rfl := distance_t0 hn2 hdist2
  refine ⟨d, hdist, ?_⟩
  rw [hrun, hted1, hted2, hd]
  rfl

theorem fits_of_distances (hted : IsTed ted) (h1 : IntWeights t1) (h2 : IntWeights t2)
    {r : Distances} (h : distances ted t0 t1 t2 = some r) : Fits t1 t2 := by
  obtain ⟨ld, -, hk1, hk2, hrun⟩ := exists_dictionary ted t0 t1 t2
  rw [hrun] at h
  simp only [Option.bind_eq_bind, Option.bind_eq_some_iff] at h
  obtain ⟨n1, -, n2, -, d, hd, -⟩ := h
  exact hted.fits_of_some hk1 hk2 h1 h2 hd

/-- The distance of two trees is a number from 0 to 1, the same the other way round, and 0 for
trees with the same shape and names, and it is scaled by the weight of both trees. -/
def Normalised (ted : Rose LabelId → Rose LabelId → Option ℚ) (t1 t2 : Node) : Prop :=
  ∃ r, distances ted t0 t1 t2 = some r ∧
    0 ≤ r.computed_results ∧ r.computed_results ≤ 1 ∧
    (∃ r', distances ted t0 t2 t1 = some r' ∧ r'.computed_results = r.computed_results) ∧
    (t1.map StringLabel.label = t2.map StringLabel.label → r.computed_results = 0) ∧
    r.n1 + r.n2 = totalWeight t1 + totalWeight t2

theorem normalised_of_fits (hted : IsTed ted) (h1 : IntWeights t1) (h2 : IntWeights t2)
    (hn1 : NoReference t1) (hn2 : NoReference t2) (hfits : Fits t1 t2) :
    Normalised ted t1 t2 := by
  obtain ⟨d, hdist, hrun⟩ := distances_of_fits hted h1 h2 hn1 hn2 hfits
  obtain ⟨d', hdist', hrun'⟩ := distances_of_fits hted h2 h1 hn2 hn1 hfits.swap
  obtain rfl : d' = d := (nameCosts_swap hdist').unique hdist
  have hnonneg := nameCosts_nonneg h1 h2 hdist
  have hle := nameCosts_le hdist
  rw [add_comm (totalWeight t2)] at hrun'
  refine ⟨_, hrun, ?_, ?_, ⟨_, hrun', rfl⟩, fun hsame => ?_, rfl⟩
  · dsimp only
    split
    · exact div_nonneg hnonneg (by linarith)
    · exact hnonneg
  · dsimp only
    split
    · exact div_le_one_of_le₀ hle (by linarith)
    · linarith
  · have hzero : d' = 0 := le_antisymm (nameCosts_of_same hsame hdist) hnonneg
    simp [hzero]

end Program

/-- A function with the least cost of a mapping. -/
noncomputable def leastTed (s t : Rose LabelId) : Option ℚ :=
  open Classical in
  if RenDefined s t then some (UnitCostModelLD.exists_isDistance s t).choose else none

theorem isTed_leastTed : IsTed leastTed where
  least s t h := ⟨_, if_pos h, (UnitCostModelLD.exists_isDistance s t).choose_spec⟩
  undefined _ _ h := if_neg h

/-! ## What the program prints -/

theorem counted_t0 : ∀ l ∈ t0.values, Counted l := by
  intro l hl
  obtain rfl : l = ⟨['0'], 0⟩ := by simpa [t0, values, forestValues] using hl
  exact ⟨by simp [isHexDigit], by simp⟩

theorem printed_t0 : printed t0 = "\x7b0 %%% 0\x7d".toList := by decide

theorem getline_printed {n : Node} (h : ∀ l ∈ n.values, Counted l) :
    getline (printed n) = printed n := by
  have hline : '\n' ∉ printed n := not_mem_output (plainLabels_map h) (by simp)
  refine List.takeWhile_eq_self_iff.mpr fun c hc => ?_
  simpa using ne_of_mem_of_not_mem hc hline

section Output

variable {split_regex : List Char → List (List Char)}
variable {ted : Rose LabelId → Rose LabelId → Option ℚ} {show_double : ℚ → List Char}
variable {files : List Char → List Char} {argv0 argv1 argv2 : List Char} {n1 n2 : Node}

/-- A run on the files of two call trees prints the first of them, its name, a line for each
bracket of both and, last, their distance. -/
theorem main_printed (hsplit : SplitRegex split_regex) (h1 : ∀ l ∈ n1.values, Counted l)
    (h2 : ∀ l ∈ n2.values, Counted l) (hfile1 : files argv1 = printed n1)
    (hfile2 : files argv2 = printed n2) :
    ∃ found, main split_regex ted show_double files [argv0, argv1, argv2] =
      (distances ted t0 n1 n2).map fun r => {
        code := 0
        cout := printed n1 ++ argv1 ++ ['\n'] ++ found ++ show_double r.computed_results ++
          ['\n'] } := by
  obtain ⟨found1, hvalid1⟩ := validate_input_output (plainLabels_map h1)
  obtain ⟨found2, hvalid2⟩ := validate_input_output (plainLabels_map h2)
  refine ⟨found1 ++ found2, ?_⟩
  rw [← printed] at hvalid1 hvalid2
  simp only [main, hfile1, hfile2, getline_printed h1, getline_printed h2, hvalid1, hvalid2,
    parse_single_printed hsplit h1, parse_single_printed hsplit h2, ← printed_t0,
    parse_single_printed hsplit counted_t0, Option.bind_eq_bind, Option.bind_some]
  cases distances ted t0 n1 n2 with
  | none => simp
  | some r => simp

/-- The caller gets the distance that the program computed for the trees of two files. -/
def Agrees (split_regex : List Char → List (List Char))
    (ted : Rose LabelId → Rose LabelId → Option ℚ) (show_double : ℚ → List Char)
    (files : List Char → List Char) (argv : List (List Char)) (n1 n2 : Node) : Prop :=
  ∃ e r, main split_regex ted show_double files argv = some e ∧ distances ted t0 n1 n2 = some r ∧
    read_distance e.cout = .ok (.finite r.computed_results)

theorem read_distance_printed (n : Node) (rest : List Char) :
    read_distance (printed n ++ rest) = .error .valueError := by
  obtain ⟨l, ns⟩ := n
  have hfloat : PyFloat.float (printed (.node l ns) ++ rest) = .error .valueError := by
    rw [printed, map, output_bracket_notation_helper, List.cons_append]
    refine PyFloat.float_cons_eq_error ?_ ?_ ?_ ?_ ?_ _ <;> decide
  rw [read_distance, hfloat]
  split <;> rfl

end Output

/-! ## The laws -/

/-- The program and its caller never agree. The first character that the program prints is the
bracket of a tree, and no number starts with it. -/
theorem no_output_is_the_distance {split_regex : List Char → List (List Char)}
    (hsplit : SplitRegex split_regex) (ted : Rose LabelId → Rose LabelId → Option ℚ)
    (show_double : ℚ → List Char) (files : List Char → List Char) (argv0 argv1 argv2 : List Char)
    (n1 n2 : Node) (h1 : ∀ l ∈ n1.values, Counted l) (h2 : ∀ l ∈ n2.values, Counted l)
    (hfile1 : files argv1 = printed n1) (hfile2 : files argv2 = printed n2) :
    ¬ Agrees split_regex ted show_double files [argv0, argv1, argv2] n1 n2 := by
  rintro ⟨e, r, hmain, hr, hread⟩
  obtain ⟨found, hrun⟩ :=
    @main_printed split_regex ted show_double files argv0 argv1 argv2 n1 n2 hsplit h1 h2 hfile1
      hfile2
  rw [hr, Option.map_some, hmain, Option.some.injEq] at hrun
  rw [hrun] at hread
  simp only [List.append_assoc, read_distance_printed] at hread
  cases hread

/-- The trees of two empty graphs. -/
theorem no_output_for_empty_graphs :
    ¬ Agrees (PyText.split " %%% ".toList) leastTed (fun _ => ['0']) (fun _ => printed (.node ⟨[], 0⟩ []))
      [['d'], ['a'], ['b']] (.node ⟨[], 0⟩ []) (.node ⟨[], 0⟩ []) := by
  have hcounted : ∀ l ∈ (.node ⟨[], 0⟩ [] : Node).values, Counted l := by
    intro l hl
    obtain rfl : l = ⟨[], 0⟩ := by simpa [values, forestValues] using hl
    exact ⟨by simp, by simp⟩
  exact no_output_is_the_distance splitRegex_split _ _ _ _ _ _ _ _ hcounted hcounted rfl rfl

/-- The output for the trees of two empty graphs is no number, though their distance is 0. -/
theorem output_for_empty_graphs_is_no_number :
    let cout := ("\x7b %%% 0\x7da\nFound left bracket.\nFound right bracket.\n" ++
      "Found left bracket.\nFound right bracket.\n0\n").toList
    (main (PyText.split " %%% ".toList) (fun _ _ => some 0) (fun _ => ['0'])
        (fun _ => "\x7b %%% 0\x7d".toList) [['d'], ['a'], ['b']]).map Exit.cout = some cout ∧
      (read_distance cout).isOk = false := by
  decide +kernel

end ditto.tree_distance
