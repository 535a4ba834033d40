-- The laws of the clusters of processes and threads
-- (backbone_analysis/analyze_cluster.py): the clusters of the runs, the
-- clusters across the runs and the equal ids give a partition of the keys,
-- unless there is one cluster of one run only. That one gets lost.
import Ditto.Lib.Grouping
import Ditto.Lib.SortedDict
import Ditto.Lib.UnionFind
import Mathlib.Data.Rat.Defs

namespace ditto.thread_clusters

open Grouping UnionFind

/-! ## The source -/

/-- A process or a thread in a run: the arguments of the run, and its ids. -/
structure Key where
  conns : ℕ
  reqs : ℕ
  duration : ℕ
  ids : List ℕ
  deriving DecidableEq

/-- The arguments of a run. -/
abbrev RunArg := ℕ × ℕ × ℕ

def Key.run_arg (k : Key) : RunArg := (k.conns, k.reqs, k.duration)

/-- The place of a cluster in `intra_clusters`: its run and its label. -/
abbrev Addr := RunArg × ℤ

/-- The model of `build_dist_matrix`. -/
def build_dist_matrix (call_stack_dists : Key → Key → ℚ) (keys : List Key) : List (List ℚ) :=
  keys.map fun key0 => keys.map fun key1 => if key0 = key1 then 0 else call_stack_dists key0 key1

/-- The model of `itertools.combinations(l, 2)`. -/
def combinations {α : Type} : List α → List (α × α)
  | [] => []
  | a :: l => l.map (a, ·) ++ combinations l

section Source

-- The distances and the labels that a fit gives for them, for each run and, as `none`, for
-- the fit across the runs.
variable (call_stack_dists : Option RunArg → Key → Key → ℚ)
variable (fit : Option RunArg → List (List ℚ) → List ℤ)
-- The order of `set` for the arguments of the runs, and the sets of `DisjointSet`.
variable (run_args : List RunArg) (itersets : List (Call Key) → List (List Key))
variable (keys : List Key)

/-- The keys of a run with their labels. A key that is alone in its run has the label 0. -/
def intra_labels (run_arg : RunArg) : List (ℤ × Key) :=
  let intra_keys := keys.filter (·.run_arg = run_arg)
  if intra_keys.length > 1 then
    (fit run_arg (build_dist_matrix (call_stack_dists run_arg) intra_keys)).zip intra_keys
  else intra_keys.map (0, ·)

/-- The clusters of a run, as phase 1 leaves them. -/
def intra_clusters (run_arg : RunArg) : PyDict ℤ (List Key) :=
  let intra_keys := keys.filter (·.run_arg = run_arg)
  if intra_keys.length > 1 then group (intra_labels call_stack_dists fit keys run_arg)
  else PyDict.empty.set 0 intra_keys

/-- All clusters of the runs, in the order in which phase 2 finds them. -/
def all_clusters : List (Addr × List Key) :=
  run_args.flatMap fun run_arg =>
    (intra_clusters call_stack_dists fit keys run_arg).entries.map fun e => ((run_arg, e.1), e.2)

/-- The first key of a cluster, which stands for it. -/
def first_key (c : Addr × List Key) : Except PyError (Key × Addr) :=
  match c.2 with
  | [] => .error .indexError
  | k :: _ => .ok (k, c.1)

/-- The keys of `inter_keys` with their clusters. -/
def inter_keys : Except PyError (List (Key × Addr)) :=
  (all_clusters call_stack_dists fit run_args keys).mapM first_key

/-- The place of the cluster that a key stands for, from `intra_cluster_labals`. -/
def cluster_of (reps : List (Key × Addr)) (k : Key) : Except PyError Addr :=
  match (PyDict.ofList (reps.map fun e => (e.1, e.2.2))).get? k with
  | none => .error .keyError
  | some label => .ok (k.run_arg, label)

/-- The labels of the fit across the runs, with the places of the clusters. -/
def inter_labels (reps : List (Key × Addr)) : Except PyError (List (ℤ × Addr)) :=
  let keys := reps.map Prod.fst
  let labels := fit none (build_dist_matrix (call_stack_dists none) keys)
  (labels.zip keys).mapM fun e => do return (e.1, ← cluster_of reps e.2)

/-- The lists of `inter_clusters` behind phase 2. The list of a label is the list of a run,
which is extended in place. Where there is one cluster, it goes to `intra_clusters[0]`, and
`inter_clusters` stays empty. -/
def inter_clusters (reps : List (Key × Addr)) : Except PyError (List (List Key)) :=
  if reps.length > 1 then do
    let labels ← inter_labels call_stack_dists fit reps
    let lists (addr : Addr) :=
      ((intra_clusters call_stack_dists fit keys addr.1).get? addr.2).getD []
    let shared := share lists labels
    return shared.heads.values.map shared.lists
  else
    match reps with
    | [] => .error .unboundLocalError
    | _ => .ok []

/-- The calls of phase 3. -/
def disjoint_set_calls (clusters : List (List Key)) : List (Call Key) :=
  (clusters.flatMap fun c =>
    (if c.length = 1 then c.map .find else []) ++ (combinations c).map fun p => .union p.1 p.2) ++
  ((combinations keys).filter fun p => p.1.ids = p.2.ids).map fun p => .union p.1 p.2

/-- The model of `__call_stack_cluster`. The clusters that it returns are numbered. -/
def call_stack_cluster : Except PyError (List (List Key)) := do
  let reps ← inter_keys call_stack_dists fit run_args keys
  let clusters ← inter_clusters call_stack_dists fit keys reps
  return itersets (disjoint_set_calls keys clusters)

end Source

/-! ## Pairs -/

variable {α : Type}

theorem mem_of_mem_combinations {l : List α} {p : α × α} (h : p ∈ combinations l) :
    p.1 ∈ l ∧ p.2 ∈ l := by
  induction l with
  | nil => cases h
  | cons a l ih =>
    rw [combinations, List.mem_append, List.mem_map] at h
    rcases h with ⟨b, hb, rfl⟩ | h
    · simp [hb]
    · simp [ih h]

theorem mem_combinations_or {l : List α} {a b : α} (ha : a ∈ l) (hb : b ∈ l) (hne : a ≠ b) :
    (a, b) ∈ combinations l ∨ (b, a) ∈ combinations l := by
  induction l with
  | nil => cases ha
  | cons c l ih =>
    simp only [combinations, List.mem_append, List.mem_map, Prod.mk.injEq]
    rcases List.mem_cons.mp ha with rfl | hal
    · rcases List.mem_cons.mp hb with rfl | hbl
      · exact absurd rfl hne
      · exact .inl (.inl ⟨b, hbl, rfl, rfl⟩)
    · rcases List.mem_cons.mp hb with rfl | hbl
      · exact .inr (.inl ⟨a, hal, rfl, rfl⟩)
      · exact (ih hal hbl).imp .inr .inr

theorem exists_mem_combinations {l : List α} {a : α} (ha : a ∈ l) (hl : l.length ≠ 1) :
    ∃ p ∈ combinations l, a = p.1 ∨ a = p.2 := by
  rcases l with _ | ⟨b, _ | ⟨c, l⟩⟩
  · cases ha
  · exact absurd rfl hl
  · rcases List.mem_cons.mp ha with rfl | ha
    · exact ⟨(a, c), by simp [combinations], .inl rfl⟩
    · refine ⟨(b, a), ?_, .inr rfl⟩
      rw [combinations]
      exact List.mem_append_left _ (List.mem_map.mpr ⟨a, ha, rfl⟩)

theorem ne_of_mem_combinations {l : List α} (hl : l.Nodup) {p : α × α} (h : p ∈ combinations l) :
    p.1 ≠ p.2 := by
  induction l with
  | nil => cases h
  | cons a l ih =>
    rw [List.nodup_cons] at hl
    rw [combinations, List.mem_append, List.mem_map] at h
    rcases h with ⟨b, hb, rfl⟩ | h
    · intro (heq : a = b)
      subst heq
      exact hl.1 hb
    · exact ih hl.2 h

/-! ## The last phase -/

/-- The clusters are a partition of the keys. Two keys are in one cluster exactly if equal ids
and clusters across the runs connect them. -/
structure Partitions (keys : List Key) (same : Key → Key → Prop) (clusters : List (List Key)) :
    Prop where
  nodup : clusters.flatten.Nodup
  mem_flatten : ∀ k, k ∈ clusters.flatten ↔ k ∈ keys
  together : ∀ a ∈ keys, ∀ b ∈ keys, Together clusters a b ↔
    Relation.EqvGen (fun x y => x ∈ keys ∧ y ∈ keys ∧ (x.ids = y.ids ∨ same x y)) a b

theorem Partitions.congr {keys : List Key} {same same' : Key → Key → Prop}
    {clusters : List (List Key)} (h : Partitions keys same clusters)
    (hsame : ∀ a ∈ keys, ∀ b ∈ keys, same a b ↔ same' a b) : Partitions keys same' clusters := by
  refine ⟨h.nodup, h.mem_flatten, fun a ha b hb => (h.together a ha b hb).trans ?_⟩
  have hrel : (fun x y => x ∈ keys ∧ y ∈ keys ∧ (x.ids = y.ids ∨ same x y)) =
      fun x y => x ∈ keys ∧ y ∈ keys ∧ (x.ids = y.ids ∨ same' x y) := by
    funext x y
    refine propext (and_congr_right fun hx => and_congr_right fun hy => ?_)
    rw [hsame x hx y hy]
  rw [hrel]

section Calls

variable {keys : List Key} {clusters : List (List Key)}

theorem joined_iff {a b : Key} :
    Joined (disjoint_set_calls keys clusters) a b ↔
      (∃ c ∈ clusters, (a, b) ∈ combinations c) ∨ (a, b) ∈ combinations keys ∧ a.ids = b.ids := by
  have hfind : ∀ c : List Key, Call.union a b ∉ (if c.length = 1 then c.map .find else []) := by
    intro c
    split <;> simp
  simp [UnionFind.Joined, disjoint_set_calls, hfind]

/-- The calls are about the keys, and about each of them. -/
theorem mentioned_iff (hsub : ∀ c ∈ clusters, ∀ k ∈ c, k ∈ keys)
    (hcover : ∀ k ∈ keys, ∃ c ∈ clusters, k ∈ c) (k : Key) :
    Mentioned (disjoint_set_calls keys clusters) k ↔ k ∈ keys := by
  constructor
  · rintro ⟨call, hcall, hk⟩
    cases call with
    | find a =>
      obtain rfl : k = a := by simpa [Call.items] using hk
      have hmem : ∃ c ∈ clusters, Call.find k ∈ (if c.length = 1 then c.map .find else []) := by
        simpa [disjoint_set_calls] using hcall
      obtain ⟨c, hc, hmem⟩ := hmem
      split at hmem
      · exact hsub c hc k (by simpa using hmem)
      · cases hmem
    | union a b =>
      have hab : a ∈ keys ∧ b ∈ keys := by
        rcases joined_iff.mp hcall with ⟨c, hc, hp⟩ | ⟨hp, -⟩
        · have hmem := mem_of_mem_combinations hp
          exact ⟨hsub c hc a hmem.1, hsub c hc b hmem.2⟩
        · exact mem_of_mem_combinations hp
      have hk' : k = a ∨ k = b := by simpa [Call.items] using hk
      rcases hk' with rfl | rfl
      · exact hab.1
      · exact hab.2
  · intro hk
    obtain ⟨c, hc, hkc⟩ := hcover k hk
    by_cases hlen : c.length = 1
    · refine ⟨.find k, ?_, by simp [Call.items]⟩
      refine List.mem_append_left _ (List.mem_flatMap.mpr ⟨c, hc, List.mem_append_left _ ?_⟩)
      simpa [hlen] using hkc
    · obtain ⟨p, hp, hkp⟩ := exists_mem_combinations hkc hlen
      exact ⟨.union p.1 p.2, joined_iff.mpr (.inl ⟨c, hc, hp⟩), by simpa [Call.items] using hkp⟩

/-- If each key is in a list, phase 3 gives a partition. -/
theorem partitions_of_cover {itersets : List (Call Key) → List (List Key)}
    (huf : IsUnionFind itersets) (hsub : ∀ c ∈ clusters, ∀ k ∈ c, k ∈ keys)
    (hcover : ∀ k ∈ keys, ∃ c ∈ clusters, k ∈ c) :
    Partitions keys (Together clusters) (itersets (disjoint_set_calls keys clusters)) := by
  have hmentioned := mentioned_iff hsub hcover
  refine ⟨huf.nodup _, fun k => (huf.mem_flatten _ k).trans (hmentioned k), fun a ha b hb => ?_⟩
  rw [huf.together _ a b ((hmentioned a).mpr ha) ((hmentioned b).mpr hb)]
  constructor
  · refine fun h => h.mono fun x y hxy => ?_
    rcases joined_iff.mp hxy with ⟨c, hc, hp⟩ | ⟨hp, hids⟩
    · have hmem := mem_of_mem_combinations hp
      exact ⟨hsub c hc x hmem.1, hsub c hc y hmem.2, .inr ⟨c, hc, hmem⟩⟩
    · have hmem := mem_of_mem_combinations hp
      exact ⟨hmem.1, hmem.2, .inl hids⟩
  · intro h
    -- A pair is joined in the order in which the keys come.
    have hpair : ∀ {l : List Key} {x y : Key}, x ∈ l → y ∈ l →
        (∀ p ∈ combinations l, p = (x, y) ∨ p = (y, x) →
          Joined (disjoint_set_calls keys clusters) p.1 p.2) →
        Relation.EqvGen (Joined (disjoint_set_calls keys clusters)) x y := by
      intro l x y hx hy hjoined
      by_cases hne : x = y
      · subst hne
        exact .refl _
      · rcases mem_combinations_or hx hy hne with hp | hp
        · exact .rel _ _ (hjoined _ hp (.inl rfl))
        · exact (Relation.EqvGen.rel _ _ (hjoined _ hp (.inr rfl))).symm
    refine Relation.EqvGen.rec (fun x y hxy => ?_) (fun x => .refl x) (fun x y _ ih => ih.symm)
      (fun x y z _ _ ihxy ihyz => ihxy.trans _ _ _ ihyz) h
    obtain ⟨hx, hy, hids | ⟨c, hc, hxc, hyc⟩⟩ := hxy
    · refine hpair hx hy fun p hp heq => joined_iff.mpr (.inr ⟨hp, ?_⟩)
      rcases heq with rfl | rfl
      · exact hids
      · exact hids.symm
    · exact hpair hxc hyc fun p hp _ => joined_iff.mpr (.inl ⟨c, hc, hp⟩)

end Calls

/-! ## The clusters of the runs -/

section Intra

variable (call_stack_dists : Option RunArg → Key → Key → ℚ)
variable (fit : Option RunArg → List (List ℚ) → List ℤ)
variable (run_args : List RunArg) (keys : List Key)

/-- What the function may rely on: the keys are distinct, `set` gives the arguments of their
runs in some order, and a fit gives a label for each row. -/
structure Setting : Prop where
  keys_nodup : keys.Nodup
  run_args_nodup : run_args.Nodup
  mem_run_args : ∀ r, r ∈ run_args ↔ ∃ k ∈ keys, k.run_arg = r
  length_fit : ∀ run m, (fit run m).length = m.length

/-- The label of a key in its run. -/
def intra_label (k : Key) : ℤ :=
  ((intra_labels call_stack_dists fit keys k.run_arg).find? (·.2 = k)).elim 0 Prod.fst

/-- The place of the cluster that phase 1 puts a key into. -/
def intra_addr (k : Key) : Addr := (k.run_arg, intra_label call_stack_dists fit keys k)

variable {call_stack_dists fit run_args keys}

theorem Setting.map_snd_intra_labels (h : Setting fit run_args keys) (r : RunArg) :
    (intra_labels call_stack_dists fit keys r).map Prod.snd = keys.filter (·.run_arg = r) := by
  unfold intra_labels
  dsimp only
  split
  · refine List.map_snd_zip ?_
    rw [h.length_fit]
    simp [build_dist_matrix]
  · simp [Function.comp_def]

theorem Setting.mem_intra_labels (h : Setting fit run_args keys) {r : RunArg} {l : ℤ} {k : Key} :
    (l, k) ∈ intra_labels call_stack_dists fit keys r ↔
      k ∈ keys ∧ intra_addr call_stack_dists fit keys k = (r, l) := by
  have hmap := @Setting.map_snd_intra_labels call_stack_dists fit run_args keys h
  have hkey : ∀ {r l k}, (l, k) ∈ intra_labels call_stack_dists fit keys r →
      k ∈ keys ∧ k.run_arg = r := by
    intro r l k hmem
    have hk : k ∈ (intra_labels call_stack_dists fit keys r).map Prod.snd :=
      List.mem_map.mpr ⟨_, hmem, rfl⟩
    simpa [hmap] using hk
  -- The keys of the labels are distinct, so the search finds the one label of a key.
  have hlabel : ∀ {l k}, (l, k) ∈ intra_labels call_stack_dists fit keys k.run_arg →
      intra_label call_stack_dists fit keys k = l := by
    intro l k hmem
    have hnodup : ((intra_labels call_stack_dists fit keys k.run_arg).map Prod.snd).Nodup := by
      rw [hmap]
      exact h.keys_nodup.filter _
    unfold intra_label
    cases hfind : (intra_labels call_stack_dists fit keys k.run_arg).find? (·.2 = k) with
    | none => exact absurd (List.find?_eq_none.mp hfind _ hmem) (by simp)
    | some e =>
      have hek : e.2 = k := by simpa using List.find?_some hfind
      have heq := List.inj_on_of_nodup_map hnodup (List.mem_of_find?_eq_some hfind) hmem hek
      simp [heq]
  constructor
  · intro hmem
    obtain ⟨hk, rfl⟩ := hkey hmem
    exact ⟨hk, by rw [intra_addr, hlabel hmem]⟩
  · rintro ⟨hk, haddr⟩
    obtain ⟨rfl, rfl⟩ : k.run_arg = r ∧ intra_label call_stack_dists fit keys k = l := by
      simpa [intra_addr] using haddr
    have hmem : k ∈ (intra_labels call_stack_dists fit keys k.run_arg).map Prod.snd := by
      simp [hmap, hk]
    obtain ⟨⟨l', k'⟩, hmem, rfl⟩ := List.mem_map.mp hmem
    rwa [hlabel hmem]

theorem Setting.get?_intra_clusters (h : Setting fit run_args keys) {r : RunArg}
    (hr : r ∈ run_args) (l : ℤ) :
    (intra_clusters call_stack_dists fit keys r).get? l =
      if members (intra_labels call_stack_dists fit keys r) l = [] then none
      else some (members (intra_labels call_stack_dists fit keys r) l) := by
  unfold intra_clusters
  dsimp only
  split
  · exact get?_group _ _
  · rename_i hlen
    obtain ⟨k, hk, hkr⟩ := (h.mem_run_args r).mp hr
    have hmem : k ∈ keys.filter (·.run_arg = r) := by simp [hk, hkr]
    obtain ⟨k', hone⟩ : ∃ k', keys.filter (·.run_arg = r) = [k'] := by
      refine List.length_eq_one_iff.mp ?_
      have hpos := List.length_pos_of_mem hmem
      omega
    have hlabels : intra_labels call_stack_dists fit keys r = [(0, k')] := by
      simp [intra_labels, hone]
    rw [hlabels, hone]
    by_cases hl : l = 0
    · subst hl
      simp [members]
    · rw [PyDict.get?_set_of_ne _ _ hl]
      simp [members, Ne.symm hl, PyDict.get?, PyDict.empty]

variable {addr : Addr}

/-- The clusters of phase 1 are the sets of the keys with one place. -/
theorem Setting.mem_all_clusters (h : Setting fit run_args keys) {c : List Key} :
    (addr, c) ∈ all_clusters call_stack_dists fit run_args keys ↔
      addr.1 ∈ run_args ∧ c ≠ [] ∧
        c = members (intra_labels call_stack_dists fit keys addr.1) addr.2 := by
  obtain ⟨r, l⟩ := addr
  have hentries : (∃ r' ∈ run_args, ∃ e ∈ (intra_clusters call_stack_dists fit keys r').entries,
      ((r', e.1), e.2) = ((r, l), c)) ↔
        r ∈ run_args ∧ (l, c) ∈ (intra_clusters call_stack_dists fit keys r).entries := by
    constructor
    · rintro ⟨r', hr, ⟨l', c'⟩, he, heq⟩
      cases heq
      exact ⟨hr, he⟩
    · rintro ⟨hr, he⟩
      exact ⟨r, hr, (l, c), he, rfl⟩
  rw [all_clusters, List.mem_flatMap]
  simp only [List.mem_map]
  rw [hentries]
  refine and_congr_right fun hr => ?_
  rw [← PyDict.get?_eq_some_iff, h.get?_intra_clusters hr]
  split
  · rename_i hnil
    simp [hnil]
  · rename_i hne
    constructor
    · intro heq
      cases heq
      exact ⟨hne, rfl⟩
    · rintro ⟨-, rfl⟩
      rfl

theorem Setting.mem_cluster (h : Setting fit run_args keys) {c : List Key}
    (hc : (addr, c) ∈ all_clusters call_stack_dists fit run_args keys) (k : Key) :
    k ∈ c ↔ k ∈ keys ∧ intra_addr call_stack_dists fit keys k = addr := by
  obtain ⟨-, -, rfl⟩ := h.mem_all_clusters.mp hc
  exact mem_members.trans h.mem_intra_labels

theorem Setting.exists_cluster (h : Setting fit run_args keys) {k : Key} (hk : k ∈ keys) :
    ∃ c, (intra_addr call_stack_dists fit keys k, c) ∈
      all_clusters call_stack_dists fit run_args keys := by
  have hmem : k ∈ members (intra_labels call_stack_dists fit keys k.run_arg)
      (intra_label call_stack_dists fit keys k) :=
    mem_members.mpr (h.mem_intra_labels.mpr ⟨hk, rfl⟩)
  exact ⟨_, h.mem_all_clusters.mpr
    ⟨(h.mem_run_args _).mpr ⟨k, hk, rfl⟩, List.ne_nil_of_mem hmem, rfl⟩⟩

theorem Setting.nodup_addrs (h : Setting fit run_args keys) :
    ((all_clusters call_stack_dists fit run_args keys).map Prod.fst).Nodup := by
  rw [all_clusters, List.map_flatMap]
  refine List.nodup_flatMap.mpr ⟨fun r _ => ?_, h.run_args_nodup.imp fun {r r'} hne => ?_⟩
  · have hentries : ((intra_clusters call_stack_dists fit keys r).entries.map
        fun e => ((r, e.1), e.2)).map Prod.fst =
          (intra_clusters call_stack_dists fit keys r).keys.map (r, ·) := by
      simp [PyDict.keys, Function.comp_def]
    rw [hentries]
    exact (PyDict.nodup _).map (Prod.mk_right_injective r)
  · intro addr haddr haddr'
    simp only [List.mem_map] at haddr haddr'
    obtain ⟨_, ⟨e, -, rfl⟩, rfl⟩ := haddr
    obtain ⟨_, ⟨e', -, rfl⟩, heq⟩ := haddr'
    exact hne (congrArg Prod.fst heq).symm

/-! ## The clusters across the runs -/

/-- The keys that stand for the clusters: a key for each place. -/
theorem Setting.exists_inter_keys (h : Setting fit run_args keys) :
    ∃ reps, inter_keys call_stack_dists fit run_args keys = .ok reps ∧
      reps.map Prod.snd = (all_clusters call_stack_dists fit run_args keys).map Prod.fst ∧
      ∀ e ∈ reps, e.1 ∈ keys ∧ intra_addr call_stack_dists fit keys e.1 = e.2 := by
  have hfirst : ∀ c ∈ all_clusters call_stack_dists fit run_args keys,
      ∃ e, first_key c = .ok e := by
    rintro ⟨addr, _ | ⟨k, c⟩⟩ hc
    · exact absurd rfl (h.mem_all_clusters.mp hc).2.1
    · exact ⟨(k, addr), rfl⟩
  obtain ⟨reps, hreps⟩ := PyError.exists_mapM hfirst
  have hall := PyError.forall₂_of_mapM hreps
  have hspec : ∀ {c e}, first_key c = .ok e → e.1 ∈ c.2 ∧ e.2 = c.1 := by
    rintro ⟨addr, _ | ⟨k, c⟩⟩ e he
    · cases he
    · cases he
      exact ⟨by simp, rfl⟩
  refine ⟨reps, hreps, ?_, fun e he => ?_⟩
  · exact (map_eq_of_forall₂ (R := fun c e => first_key c = .ok e)
      (fun c e hce => (hspec hce).2.symm) hall).symm
  · obtain ⟨c, hc, hce⟩ := exists_of_forall₂ hall he
    obtain ⟨hmem, hplace⟩ := hspec hce
    rw [hplace]
    exact (h.mem_cluster hc e.1).mp hmem

section Reps

variable {reps : List (Key × Addr)}

theorem nodup_reps (hnodup : (reps.map Prod.snd).Nodup)
    (hreps : ∀ e ∈ reps, e.1 ∈ keys ∧ intra_addr call_stack_dists fit keys e.1 = e.2) :
    (reps.map Prod.fst).Nodup := by
  refine List.Nodup.of_map (intra_addr call_stack_dists fit keys) ?_
  have hmap : (reps.map Prod.fst).map (intra_addr call_stack_dists fit keys) =
      reps.map Prod.snd := by
    rw [List.map_map]
    exact List.map_congr_left fun e he => (hreps e he).2
  rwa [hmap]

theorem cluster_of_rep (hnodup : (reps.map Prod.snd).Nodup)
    (hreps : ∀ e ∈ reps, e.1 ∈ keys ∧ intra_addr call_stack_dists fit keys e.1 = e.2)
    {e : Key × Addr} (he : e ∈ reps) : cluster_of reps e.1 = .ok e.2 := by
  have hkeys : ((reps.map fun e => (e.1, e.2.2)).map Prod.fst).Nodup := by
    simpa [Function.comp_def] using nodup_reps hnodup hreps
  have hget : (PyDict.ofList (reps.map fun e => (e.1, e.2.2))).get? e.1 = some e.2.2 :=
    PyDict.get?_ofList hkeys (List.mem_map.mpr ⟨e, he, rfl⟩)
  have hrun : e.1.run_arg = e.2.1 := congrArg Prod.fst (hreps e he).2
  simp only [cluster_of, hget, hrun]

/-- The labels of the fit across the runs go to the places of the clusters, in order. -/
theorem inter_labels_eq (hnodup : (reps.map Prod.snd).Nodup)
    (hreps : ∀ e ∈ reps, e.1 ∈ keys ∧ intra_addr call_stack_dists fit keys e.1 = e.2) :
    inter_labels call_stack_dists fit reps =
      .ok ((fit none (build_dist_matrix (call_stack_dists none) (reps.map Prod.fst))).zip
        (reps.map Prod.snd)) := by
  unfold inter_labels
  have hplaces : reps.map Prod.snd =
      (reps.map Prod.fst).map (intra_addr call_stack_dists fit keys) := by
    rw [List.map_map]
    exact List.map_congr_left fun e he => (hreps e he).2.symm
  rw [hplaces, List.zip_map_right]
  refine PyError.mapM_eq_ok fun x hx => ?_
  obtain ⟨e, he, hex⟩ := List.mem_map.mp (List.of_mem_zip hx).2
  rw [← hex, cluster_of_rep hnodup hreps he, ← (hreps e he).2, hex]
  rfl

end Reps

/-- The labels across the runs and the places of the clusters. Where there is one cluster,
its label is 0. -/
def inter_places (call_stack_dists : Option RunArg → Key → Key → ℚ)
    (fit : Option RunArg → List (List ℚ) → List ℤ) (reps : List (Key × Addr)) :
    List (ℤ × Addr) :=
  (if reps.length > 1 then
    fit none (build_dist_matrix (call_stack_dists none) (reps.map Prod.fst)) else [0]).zip
    (reps.map Prod.snd)

/-- Two keys are in one cluster across the runs if the keys that stand for their clusters have
the same label. -/
def SameInterRun (call_stack_dists : Option RunArg → Key → Key → ℚ)
    (fit : Option RunArg → List (List ℚ) → List ℤ) (run_args : List RunArg) (keys : List Key)
    (a b : Key) : Prop :=
  ∃ reps, inter_keys call_stack_dists fit run_args keys = .ok reps ∧
    ∃ l, (l, intra_addr call_stack_dists fit keys a) ∈ inter_places call_stack_dists fit reps ∧
      (l, intra_addr call_stack_dists fit keys b) ∈ inter_places call_stack_dists fit reps

/-- The lists of phase 1, by their places. -/
theorem Setting.mem_list (h : Setting fit run_args keys)
    (haddr : addr ∈ (all_clusters call_stack_dists fit run_args keys).map Prod.fst) (k : Key) :
    k ∈ ((intra_clusters call_stack_dists fit keys addr.1).get? addr.2).getD [] ↔
      k ∈ keys ∧ intra_addr call_stack_dists fit keys k = addr := by
  obtain ⟨⟨_, c⟩, hc, rfl⟩ := List.mem_map.mp haddr
  rw [← h.mem_cluster hc k]
  obtain ⟨hrun, hne, rfl⟩ := h.mem_all_clusters.mp hc
  rw [h.get?_intra_clusters hrun, if_neg hne, Option.getD_some]

/-- The keys of all clusters with a label across the runs. -/
theorem Setting.mem_members_lists (h : Setting fit run_args keys) {zs : List (ℤ × Addr)}
    (hzs : zs.map Prod.snd = (all_clusters call_stack_dists fit run_args keys).map Prod.fst)
    (l : ℤ) (k : Key) :
    (k ∈ (members zs l).flatMap fun addr =>
      ((intra_clusters call_stack_dists fit keys addr.1).get? addr.2).getD []) ↔
      k ∈ keys ∧ (l, intra_addr call_stack_dists fit keys k) ∈ zs := by
  have hlist : ∀ {addr}, (l, addr) ∈ zs →
      (k ∈ ((intra_clusters call_stack_dists fit keys addr.1).get? addr.2).getD [] ↔
        k ∈ keys ∧ intra_addr call_stack_dists fit keys k = addr) := by
    intro addr hz
    refine h.mem_list ?_ k
    rw [← hzs]
    exact List.mem_map.mpr ⟨_, hz, rfl⟩
  rw [List.mem_flatMap]
  constructor
  · rintro ⟨addr, haddr, hk⟩
    have hz := mem_members.mp haddr
    obtain ⟨hkeys, rfl⟩ := (hlist hz).mp hk
    exact ⟨hkeys, hz⟩
  · rintro ⟨hkeys, hz⟩
    exact ⟨_, mem_members.mpr hz, (hlist hz).mpr ⟨hkeys, rfl⟩⟩

variable {reps : List (Key × Addr)}

theorem inter_places_eq (hlen : reps.length > 1) :
    inter_places call_stack_dists fit reps =
      (fit none (build_dist_matrix (call_stack_dists none) (reps.map Prod.fst))).zip
        (reps.map Prod.snd) := by
  rw [inter_places, if_pos hlen]

/-- Each place gets a label. -/
theorem Setting.map_snd_inter_places (h : Setting fit run_args keys) (hlen : reps.length > 1) :
    (inter_places call_stack_dists fit reps).map Prod.snd = reps.map Prod.snd := by
  rw [inter_places_eq hlen]
  refine List.map_snd_zip ?_
  rw [h.length_fit]
  simp [build_dist_matrix]

/-- Behind phase 2 each key is in a list, and two keys are in one list exactly if they are in
one cluster across the runs. -/
theorem Setting.exists_inter_clusters (h : Setting fit run_args keys)
    (hreps : inter_keys call_stack_dists fit run_args keys = .ok reps) (hlen : reps.length > 1) :
    ∃ clusters, inter_clusters call_stack_dists fit keys reps = .ok clusters ∧
      (∀ c ∈ clusters, ∀ k ∈ c, k ∈ keys) ∧ (∀ k ∈ keys, ∃ c ∈ clusters, k ∈ c) ∧
      ∀ a ∈ keys, ∀ b ∈ keys,
        Together clusters a b ↔ SameInterRun call_stack_dists fit run_args keys a b := by
  obtain ⟨_, heq, hplaces, hstand⟩ :=
    @Setting.exists_inter_keys call_stack_dists fit run_args keys h
  obtain rfl := Except.ok.inj (hreps.symm.trans heq)
  have hnodup : (reps.map Prod.snd).Nodup := by
    rw [hplaces]
    exact h.nodup_addrs
  have hlabels := inter_labels_eq hnodup hstand
  rw [← inter_places_eq hlen] at hlabels
  have hsnd := @Setting.map_snd_inter_places call_stack_dists fit run_args keys reps h hlen
  set zs := inter_places call_stack_dists fit reps
  have hmem := h.mem_members_lists (hsnd.trans hplaces)
  set lists : Addr → List Key := fun addr =>
    ((intra_clusters call_stack_dists fit keys addr.1).get? addr.2).getD []
  have hnodupPlaces : (zs.map Prod.snd).Nodup := by rwa [hsnd]
  have hclusters := mem_map_heads_share lists hnodupPlaces
  have hcluster : ∀ {l addr}, (l, addr) ∈ zs →
      (members zs l).flatMap lists ∈ (share lists zs).heads.values.map (share lists zs).lists :=
    fun {l addr} hz => (hclusters _).mpr ⟨l, List.ne_nil_of_mem (mem_members.mpr hz), rfl⟩
  refine ⟨(share lists zs).heads.values.map (share lists zs).lists, ?_, fun c hc k hk => ?_,
    fun k hk => ?_, fun a ha b hb => ?_⟩
  · unfold inter_clusters
    rw [if_pos hlen, hlabels]
    rfl
  · obtain ⟨l, -, rfl⟩ := (hclusters c).mp hc
    exact ((hmem l k).mp hk).1
  · obtain ⟨c, hc⟩ := @Setting.exists_cluster call_stack_dists fit run_args keys h k hk
    have hplace : intra_addr call_stack_dists fit keys k ∈ zs.map Prod.snd := by
      rw [hsnd, hplaces]
      exact List.mem_map.mpr ⟨_, hc, rfl⟩
    obtain ⟨⟨l, addr⟩, hz, rfl⟩ := List.mem_map.mp hplace
    exact ⟨_, hcluster hz, (hmem l k).mpr ⟨hk, hz⟩⟩
  · constructor
    · rintro ⟨c, hc, hac, hbc⟩
      obtain ⟨l, -, rfl⟩ := (hclusters c).mp hc
      exact ⟨reps, hreps, l, ((hmem l a).mp hac).2, ((hmem l b).mp hbc).2⟩
    · rintro ⟨reps', hreps', l, hza, hzb⟩
      obtain rfl := Except.ok.inj (hreps.symm.trans hreps')
      exact ⟨_, hcluster hza, (hmem l a).mpr ⟨ha, hza⟩, (hmem l b).mpr ⟨hb, hzb⟩⟩

/-- There are two keys in `inter_keys` if two keys are in different clusters. -/
theorem Setting.one_lt_length_iff (h : Setting fit run_args keys)
    (hreps : inter_keys call_stack_dists fit run_args keys = .ok reps) :
    reps.length > 1 ↔ ∃ a ∈ keys, ∃ b ∈ keys,
      intra_addr call_stack_dists fit keys a ≠ intra_addr call_stack_dists fit keys b := by
  obtain ⟨_, heq, hplaces, hstand⟩ :=
    @Setting.exists_inter_keys call_stack_dists fit run_args keys h
  obtain rfl := Except.ok.inj (hreps.symm.trans heq)
  have hnodup : (reps.map Prod.snd).Nodup := by
    rw [hplaces]
    exact h.nodup_addrs
  constructor
  · intro hlen
    rcases reps with _ | ⟨e, _ | ⟨e', reps⟩⟩
    · cases hlen
    · simp at hlen
    · have hne : e.2 ≠ e'.2 := by
        simp only [List.map_cons, List.nodup_cons, List.mem_cons, not_or] at hnodup
        exact hnodup.1.1
      refine ⟨e.1, (hstand e (by simp)).1, e'.1, (hstand e' (by simp)).1, ?_⟩
      rwa [(hstand e (by simp)).2, (hstand e' (by simp)).2]
  · rintro ⟨a, ha, b, hb, hne⟩
    have hplace : ∀ k ∈ keys, intra_addr call_stack_dists fit keys k ∈ reps.map Prod.snd := by
      intro k hk
      obtain ⟨c, hc⟩ := @Setting.exists_cluster call_stack_dists fit run_args keys h k hk
      rw [hplaces]
      exact List.mem_map.mpr ⟨_, hc, rfl⟩
    have hplaceA := hplace a ha
    have hplaceB := hplace b hb
    rcases reps with _ | ⟨e, _ | ⟨e', reps⟩⟩
    · cases hplaceA
    · simp only [List.map_cons, List.map_nil, List.mem_singleton] at hplaceA hplaceB
      exact absurd (hplaceA.trans hplaceB.symm) hne
    · simp

/-- The keys of one run have different ids, so phase 3 has nothing to do for them alone. -/
theorem disjoint_set_calls_nil (hnodup : keys.Nodup)
    (hrun : ∀ a ∈ keys, ∀ b ∈ keys, a.run_arg = b.run_arg) : disjoint_set_calls keys [] = [] := by
  have hids : ∀ p ∈ combinations keys, ¬ p.1.ids = p.2.ids := by
    intro p hp hids
    have hmem := mem_of_mem_combinations hp
    have hargs := hrun p.1 hmem.1 p.2 hmem.2
    simp only [Key.run_arg, Prod.mk.injEq] at hargs
    refine ne_of_mem_combinations hnodup hp ?_
    obtain ⟨⟨conns, reqs, duration, ids⟩, ⟨conns', reqs', duration', ids'⟩⟩ := p
    simp_all
  simpa [disjoint_set_calls] using hids

/-- The only cluster of the only run gets lost, and with it all keys. -/
theorem Setting.call_stack_cluster_of_one (h : Setting fit run_args keys) (hkeys : keys ≠ [])
    (itersets : List (Call Key) → List (List Key))
    (hone : ∀ a ∈ keys, ∀ b ∈ keys,
      intra_addr call_stack_dists fit keys a = intra_addr call_stack_dists fit keys b) :
    call_stack_cluster call_stack_dists fit run_args itersets keys = .ok (itersets []) := by
  obtain ⟨reps, hreps, hplaces, -⟩ :=
    @Setting.exists_inter_keys call_stack_dists fit run_args keys h
  have hlen : ¬ reps.length > 1 := by
    rw [h.one_lt_length_iff hreps]
    rintro ⟨a, ha, b, hb, hne⟩
    exact hne (hone a ha b hb)
  have hinter : inter_clusters call_stack_dists fit keys reps = .ok [] := by
    obtain ⟨k, hk⟩ := List.exists_mem_of_ne_nil keys hkeys
    obtain ⟨c, hc⟩ := @Setting.exists_cluster call_stack_dists fit run_args keys h k hk
    have hmem := List.mem_map_of_mem (f := Prod.fst) hc
    rw [← hplaces] at hmem
    unfold inter_clusters
    rw [if_neg hlen]
    rcases reps with _ | ⟨e, reps⟩
    · cases hmem
    · rfl
  have hcalls := disjoint_set_calls_nil h.keys_nodup fun a ha b hb =>
    congrArg Prod.fst (hone a ha b hb)
  rw [call_stack_cluster, hreps]
  simp only [bind, Except.bind, hinter, hcalls]
  rfl

end Intra

/-! ## The laws -/

/-- The clusters are a partition of the keys, by equal ids and by the clusters across the runs,
exactly if phase 1 puts two keys into different clusters. -/
theorem clusters_are_a_partition_iff_two_at_first
    (call_stack_dists : Option RunArg → Key → Key → ℚ)
    (fit : Option RunArg → List (List ℚ) → List ℤ) (run_args : List RunArg)
    (itersets : List (Call Key) → List (List Key)) (keys : List Key)
    (h : Setting fit run_args keys) (huf : IsUnionFind itersets) (hkeys : keys ≠ []) :
    (∃ clusters, call_stack_cluster call_stack_dists fit run_args itersets keys = .ok clusters ∧
      Partitions keys (SameInterRun call_stack_dists fit run_args keys) clusters) ↔
    ∃ a ∈ keys, ∃ b ∈ keys,
      intra_addr call_stack_dists fit keys a ≠ intra_addr call_stack_dists fit keys b := by
  constructor
  · rintro ⟨clusters, hrun, hpart⟩
    by_contra hone
    push Not at hone
    rw [h.call_stack_cluster_of_one hkeys itersets hone, Except.ok.injEq] at hrun
    obtain ⟨k, hk⟩ := List.exists_mem_of_ne_nil keys hkeys
    have hmem := (hpart.mem_flatten k).mpr hk
    rw [← hrun, huf.mem_flatten] at hmem
    simp [Mentioned] at hmem
  · intro htwo
    obtain ⟨reps, hreps, -, -⟩ := @Setting.exists_inter_keys call_stack_dists fit run_args keys h
    have hlen := (h.one_lt_length_iff hreps).mpr htwo
    obtain ⟨lists, hlists, hsub, hcover, hsame⟩ := h.exists_inter_clusters hreps hlen
    refine ⟨itersets (disjoint_set_calls keys lists), ?_, ?_⟩
    · rw [call_stack_cluster, hreps]
      simp only [bind, Except.bind, hlists]
      rfl
    · exact (partitions_of_cover huf hsub hcover).congr hsame

/-- Two threads of one run with different labels are two clusters. -/
theorem clusters_of_two_threads_are_a_partition :
    let keys : List Key := [⟨1, 1, 1, [7, 7]⟩, ⟨1, 1, 1, [7, 8]⟩]
    let fit : Option RunArg → List (List ℚ) → List ℤ := fun _ m => (List.range m.length).map (↑)
    ∃ clusters, call_stack_cluster (fun _ _ _ => 1) fit [(1, 1, 1)] sets keys = .ok clusters ∧
      Partitions keys (SameInterRun (fun _ _ _ => 1) fit [(1, 1, 1)] keys) clusters := by
  intro keys fit
  have hsetting : Setting fit [(1, 1, 1)] keys := by
    refine ⟨by decide, by decide, fun r => ?_, fun run m => by simp [fit]⟩
    simp [keys, Key.run_arg, eq_comm]
  refine (clusters_are_a_partition_iff_two_at_first (fun _ _ _ => 1) fit _ sets keys hsetting
    isUnionFind_sets (by simp [keys])).mpr ?_
  exact ⟨_, List.mem_cons_self, _, List.mem_cons_of_mem _ List.mem_cons_self, by decide +kernel⟩

/-- A thread that is alone is in no cluster. -/
theorem one_thread_has_no_cluster :
    call_stack_cluster (fun _ _ _ => 1) (fun _ m => m.map fun _ => 0) [(1, 1, 1)] sets
        [⟨1, 1, 1, [7, 7]⟩] = .ok [] ∧
      ∀ same, ¬ Partitions [⟨1, 1, 1, [7, 7]⟩] same [] := by
  refine ⟨by decide +kernel, fun same h => ?_⟩
  simpa using h.mem_flatten ⟨1, 1, 1, [7, 7]⟩

end ditto.thread_clusters
