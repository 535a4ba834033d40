-- The edit distance of lists of trees, by recursion on the first trees: the
-- first root is deleted, or inserted, or the two first roots are a pair, and
-- then what is below them is mapped apart from what is right of them. Read
-- from the right it is the same distance.
import Ditto.Lib.Forest
import Ditto.Lib.TreeEdit
import Mathlib.Algebra.Order.Monoid.Unbundled.MinMax

namespace TreeEdit

open Rose

variable {α R : Type} {F F' G G' : List (Rose α)} {m : Finset (Path × Path)}

/-! ## Mappings between lists of trees -/

/-- The nodes of two pairs are related in the same way on both sides. -/
structure Compatible (e f : Path × Path) : Prop where
  eq_iff : e.1 = f.1 ↔ e.2 = f.2
  ancestor : e.1 <+: f.1 ↔ e.2 <+: f.2
  left_of : LeftOf e.1 f.1 ↔ LeftOf e.2 f.2

/-- The pairs of an ordered edit mapping between two lists of trees. -/
structure IsForestMapping (F G : List (Rose α)) (m : Finset (Path × Path)) : Prop where
  fst_mem : ∀ e ∈ m, IsNode F e.1
  snd_mem : ∀ e ∈ m, IsNode G e.2
  compatible : ∀ e ∈ m, ∀ f ∈ m, Compatible e f

theorem IsForestMapping.empty (F G : List (Rose α)) : IsForestMapping F G ∅ := by
  constructor <;> simp

theorem IsForestMapping.subset {m' : Finset (Path × Path)} (h : IsForestMapping F G m)
    (hsub : m' ⊆ m) : IsForestMapping F G m' where
  fst_mem e he := h.fst_mem e (hsub he)
  snd_mem e he := h.snd_mem e (hsub he)
  compatible e he f hf := h.compatible e (hsub he) f (hsub hf)

theorem IsForestMapping.eq_empty_of_nil_left (h : IsForestMapping [] G m) : m = ∅ :=
  Finset.eq_empty_of_forall_notMem fun e he => not_isNode_nil _ (h.fst_mem e he)

theorem leftOf_mirrorPath {p q : Path} (hp : IsNode F p) (hq : IsNode F q) :
    LeftOf (mirrorPath p F) (mirrorPath q F) ↔ LeftOf q p := by
  induction p generalizing F q with
  | nil => cases hp
  | cons i p ih =>
    cases q with
    | nil => cases hq
    | cons j q =>
      obtain ⟨t, ht, hp⟩ := hp.exists_tree
      obtain ⟨u, hu, hq⟩ := hq.exists_tree
      obtain ⟨hi, -⟩ := List.getElem?_eq_some_iff.mp ht
      obtain ⟨hj, -⟩ := List.getElem?_eq_some_iff.mp hu
      rw [mirrorPath_cons ht, mirrorPath_cons hu, LeftOf, LeftOf]
      rcases Nat.lt_trichotomy i j with hlt | rfl | hlt
      · simp only [show ¬ F.length - 1 - i < F.length - 1 - j by omega, show
          F.length - 1 - i ≠ F.length - 1 - j by omega, show ¬ j < i by omega,
          show j ≠ i by omega, false_and, or_self]
      · obtain rfl : t = u := Option.some.inj (ht.symm.trans hu)
        simp only [lt_self_iff_false, false_or, true_and]
        by_cases hp0 : p = []
        · subst hp0
          cases q <;> simp [mirrorPath, LeftOf]
        by_cases hq0 : q = []
        · subst hq0
          cases p <;> simp [mirrorPath, LeftOf]
        exact ih (hp hp0) (hq hq0)
      · simp only [show F.length - 1 - i < F.length - 1 - j by omega, hlt, true_or]

/-! ## Renamed nodes -/

/-- The nodes of one list under other paths in another one, with their values and their
relations, which are from right to left if `flipped`. -/
structure Embeds (flipped : Bool) (φ : Path → Path) (F' F : List (Rose α)) : Prop where
  value : ∀ p, IsNode F' p → forestValueAt (φ p) F = forestValueAt p F'
  ancestor : ∀ p q, IsNode F' p → IsNode F' q → (φ p <+: φ q ↔ p <+: q)
  left_of : ∀ p q, IsNode F' p → IsNode F' q →
    (LeftOf (φ p) (φ q) ↔ if flipped then LeftOf q p else LeftOf p q)

theorem Embeds.refl (F : List (Rose α)) : Embeds false id F F where
  value _ _ := rfl
  ancestor _ _ _ _ := Iff.rfl
  left_of _ _ _ _ := Iff.rfl

variable {flipped : Bool} {φ ψ : Path → Path}

theorem Embeds.isNode (h : Embeds flipped φ F' F) {p : Path} (hp : IsNode F' p) :
    IsNode F (φ p) := by
  rw [IsNode, h.value p hp]
  exact hp

theorem Embeds.injective (h : Embeds flipped φ F' F) {p q : Path} (hp : IsNode F' p)
    (hq : IsNode F' q) : φ p = φ q ↔ p = q := by
  constructor
  · intro heq
    have hpq : p <+: q := (h.ancestor p q hp hq).mp (heq ▸ List.prefix_rfl)
    have hqp : q <+: p := (h.ancestor q p hq hp).mp (heq ▸ List.prefix_rfl)
    exact hpq.eq_of_length (le_antisymm hpq.length_le hqp.length_le)
  · rintro rfl
    rfl

theorem Compatible.image (hφ : Embeds flipped φ F' F) (hψ : Embeds flipped ψ G' G)
    {e f : Path × Path} (he1 : IsNode F' e.1) (he2 : IsNode G' e.2) (hf1 : IsNode F' f.1)
    (hf2 : IsNode G' f.2) (hef : Compatible e f) (hfe : Compatible f e) :
    Compatible (Prod.map φ ψ e) (Prod.map φ ψ f) where
  eq_iff := by
    simp only [Prod.map_fst, Prod.map_snd, hφ.injective he1 hf1, hψ.injective he2 hf2, hef.eq_iff]
  ancestor := by
    simp only [Prod.map_fst, Prod.map_snd, hφ.ancestor _ _ he1 hf1, hψ.ancestor _ _ he2 hf2,
      hef.ancestor]
  left_of := by
    simp only [Prod.map_fst, Prod.map_snd, hφ.left_of _ _ he1 hf1, hψ.left_of _ _ he2 hf2]
    cases flipped
    · exact hef.left_of
    · exact hfe.left_of

theorem IsForestMapping.image (hφ : Embeds flipped φ F' F) (hψ : Embeds flipped ψ G' G)
    (h : IsForestMapping F' G' m) : IsForestMapping F G (m.image (Prod.map φ ψ)) where
  fst_mem := by
    simp only [Finset.forall_mem_image]
    exact fun e he => hφ.isNode (h.fst_mem e he)
  snd_mem := by
    simp only [Finset.forall_mem_image]
    exact fun e he => hψ.isNode (h.snd_mem e he)
  compatible := by
    simp only [Finset.forall_mem_image]
    exact fun e he f hf => (h.compatible e he f hf).image hφ hψ (h.fst_mem e he) (h.snd_mem e he)
      (h.fst_mem f hf) (h.snd_mem f hf) (h.compatible f hf e he)

theorem Compatible.of_image (hφ : Embeds false φ F' F) (hψ : Embeds false ψ G' G)
    {e f : Path × Path} (he1 : IsNode F' e.1) (he2 : IsNode G' e.2) (hf1 : IsNode F' f.1)
    (hf2 : IsNode G' f.2) (h : Compatible (Prod.map φ ψ e) (Prod.map φ ψ f)) :
    Compatible e f where
  eq_iff := by
    have := h.eq_iff
    simpa only [Prod.map_fst, Prod.map_snd, hφ.injective he1 hf1, hψ.injective he2 hf2] using this
  ancestor := by
    have := h.ancestor
    simpa only [Prod.map_fst, Prod.map_snd, hφ.ancestor _ _ he1 hf1, hψ.ancestor _ _ he2 hf2]
      using this
  left_of := by
    have := h.left_of
    simpa only [Prod.map_fst, Prod.map_snd, hφ.left_of _ _ he1 hf1, hψ.left_of _ _ he2 hf2,
      Bool.false_eq_true, if_false] using this

/-- A mapping that has only renamed nodes comes from one of the original nodes. -/
theorem IsForestMapping.exists_image (hφ : Embeds false φ F' F) (hψ : Embeds false ψ G' G)
    (h : IsForestMapping F G m)
    (hm : ∀ e ∈ m, ∃ p q, IsNode F' p ∧ IsNode G' q ∧ e = (φ p, ψ q)) :
    ∃ m', IsForestMapping F' G' m' ∧ m'.image (Prod.map φ ψ) = m := by
  have hsub : (m : Set (Path × Path)) ⊆
      Prod.map φ ψ '' {e | IsNode F' e.1 ∧ IsNode G' e.2} := by
    intro e he
    obtain ⟨p, q, hp, hq, rfl⟩ := hm e he
    exact ⟨(p, q), ⟨hp, hq⟩, rfl⟩
  obtain ⟨m', hnodes, rfl⟩ := Finset.subset_set_image_iff.mp hsub
  refine ⟨m', ⟨fun e he => (hnodes he).1, fun e he => (hnodes he).2, fun e he f hf => ?_⟩, rfl⟩
  exact (h.compatible _ (Finset.mem_image_of_mem _ he) _ (Finset.mem_image_of_mem _ hf)).of_image
    hφ hψ (hnodes he).1 (hnodes he).2 (hnodes hf).1 (hnodes hf).2

/-! ## The first root -/

/-- A path of the list without its first root, in the list with it. -/
def below (k : ℕ) : Path → Path
  | [] => []
  | i :: p => if i < k then 0 :: i :: p else (i - k + 1) :: p

/-- A path of the other trees. -/
def behind : Path → Path
  | [] => []
  | i :: p => (i + 1) :: p

variable {a b : α} {cs ds : List (Rose α)}

theorem embeds_below (a : α) (cs F : List (Rose α)) :
    Embeds false (below cs.length) (cs ++ F) (.node a cs :: F) := by
  have hcase : ∀ p, IsNode (cs ++ F) p → ∃ i q, p = i :: q := by
    intro p hp
    exact List.exists_cons_of_ne_nil hp.ne_nil
  refine ⟨fun p hp => ?_, fun p q hp hq => ?_, fun p q hp hq => ?_⟩
  · obtain ⟨i, q, rfl⟩ := hcase p hp
    by_cases hi : i < cs.length
    · rw [below, if_pos hi, isNode_append_left hi]
      rfl
    · rw [below, if_neg hi, isNode_append_right (not_lt.mp hi)]
      rfl
  · obtain ⟨i, p, rfl⟩ := hcase p hp
    obtain ⟨j, q, rfl⟩ := hcase q hq
    have hsub : ¬ i < cs.length → ¬ j < cs.length → (i - cs.length = j - cs.length ↔ i = j) := by
      omega
    by_cases hi : i < cs.length <;> by_cases hj : j < cs.length
    · simp [below, hi, hj, List.cons_prefix_cons]
    · simp [below, hi, hj, List.cons_prefix_cons, show i ≠ j by omega]
    · simp [below, hi, hj, List.cons_prefix_cons, show i ≠ j by omega]
    · simp [below, hi, hj, List.cons_prefix_cons, hsub hi hj]
  · obtain ⟨i, p, rfl⟩ := hcase p hp
    obtain ⟨j, q, rfl⟩ := hcase q hq
    have hsub : ¬ i < cs.length → ¬ j < cs.length →
        (i - cs.length < j - cs.length ↔ i < j) ∧ (i - cs.length = j - cs.length ↔ i = j) := by
      omega
    by_cases hi : i < cs.length <;> by_cases hj : j < cs.length
    · simp [below, hi, hj, LeftOf]
    · simp [below, hi, hj, LeftOf, show i < j by omega]
    · simp [below, hi, hj, LeftOf, show ¬ i < j by omega, show i ≠ j by omega]
    · simp [below, hi, hj, LeftOf, hsub hi hj]

theorem embeds_zero (a : α) (cs F : List (Rose α)) :
    Embeds false (0 :: ·) cs (.node a cs :: F) where
  value p hp := valueAt_of_ne_nil a cs hp.ne_nil
  ancestor p q _ _ := by simp [List.cons_prefix_cons]
  left_of p q _ _ := by simp [LeftOf]

theorem embeds_behind (a : α) (cs F : List (Rose α)) :
    Embeds false behind F (.node a cs :: F) := by
  have hcase : ∀ p, IsNode F p → ∃ i q, p = i :: q := fun p hp =>
    List.exists_cons_of_ne_nil hp.ne_nil
  refine ⟨fun p hp => ?_, fun p q hp hq => ?_, fun p q hp hq => ?_⟩
  · obtain ⟨i, q, rfl⟩ := hcase p hp
    rfl
  · obtain ⟨i, p, rfl⟩ := hcase p hp
    obtain ⟨j, q, rfl⟩ := hcase q hq
    simp [behind, List.cons_prefix_cons]
  · obtain ⟨i, p, rfl⟩ := hcase p hp
    obtain ⟨j, q, rfl⟩ := hcase q hq
    simp [behind, LeftOf]

/-- Every node but the first root is a node of the list without it. -/
theorem exists_below {p : Path} (h : IsNode (.node a cs :: F) p) (hp : p ≠ [0]) :
    ∃ q, IsNode (cs ++ F) q ∧ below cs.length q = p := by
  rcases h.cases_cons with rfl | ⟨q, rfl, hq⟩ | ⟨i, q, rfl, hq⟩
  · exact absurd rfl hp
  · obtain ⟨i, q, rfl⟩ := List.exists_cons_of_ne_nil hq.ne_nil
    refine ⟨i :: q, ?_, if_pos hq.lt_length⟩
    rw [IsNode, isNode_append_left hq.lt_length]
    exact hq
  · refine ⟨(i + cs.length) :: q, ?_, ?_⟩
    · rw [IsNode, isNode_append_right (Nat.le_add_left _ _), Nat.add_sub_cancel]
      exact hq
    · rw [below, if_neg (by omega), Nat.add_sub_cancel]

/-- The two first roots as a pair, with a mapping below them and one behind them. -/
def pairRoots (m₁ m₂ : Finset (Path × Path)) : Finset (Path × Path) :=
  insert ([0], [0])
    (m₁.image (Prod.map (0 :: ·) (0 :: ·)) ∪ m₂.image (Prod.map behind behind))

theorem mem_pairRoots {m₁ m₂ : Finset (Path × Path)} {e : Path × Path} :
    e ∈ pairRoots m₁ m₂ ↔ e = ([0], [0]) ∨ (∃ f ∈ m₁, e = (0 :: f.1, 0 :: f.2)) ∨
      ∃ f ∈ m₂, e = (behind f.1, behind f.2) := by
  simp only [pairRoots, Finset.mem_insert, Finset.mem_union, Finset.mem_image, Prod.map,
    eq_comm (b := e)]

theorem IsForestMapping.pairRoots {m₁ m₂ : Finset (Path × Path)}
    (h₁ : IsForestMapping cs ds m₁) (h₂ : IsForestMapping F G m₂) (a b : α) :
    IsForestMapping (.node a cs :: F) (.node b ds :: G) (pairRoots m₁ m₂) := by
  have hbelow := h₁.image (embeds_zero a cs F) (embeds_zero b ds G)
  have hbehind := h₂.image (embeds_behind a cs F) (embeds_behind b ds G)
  have hcons₁ : ∀ f ∈ m₁, ∃ i p j q, f = (i :: p, j :: q) := by
    intro f hf
    obtain ⟨i, p, hp⟩ := List.exists_cons_of_ne_nil (h₁.fst_mem f hf).ne_nil
    obtain ⟨j, q, hq⟩ := List.exists_cons_of_ne_nil (h₁.snd_mem f hf).ne_nil
    exact ⟨i, p, j, q, Prod.ext hp hq⟩
  have hcons₂ : ∀ f ∈ m₂, ∃ i p j q, f = (i :: p, j :: q) := by
    intro f hf
    obtain ⟨i, p, hp⟩ := List.exists_cons_of_ne_nil (h₂.fst_mem f hf).ne_nil
    obtain ⟨j, q, hq⟩ := List.exists_cons_of_ne_nil (h₂.snd_mem f hf).ne_nil
    exact ⟨i, p, j, q, Prod.ext hp hq⟩
  refine ⟨fun e he => ?_, fun e he => ?_, fun e he f hf => ?_⟩
  · rcases mem_pairRoots.mp he with rfl | ⟨f, hf, rfl⟩ | ⟨f, hf, rfl⟩
    · rfl
    · exact hbelow.fst_mem _ (Finset.mem_image_of_mem _ hf)
    · exact hbehind.fst_mem _ (Finset.mem_image_of_mem _ hf)
  · rcases mem_pairRoots.mp he with rfl | ⟨f, hf, rfl⟩ | ⟨f, hf, rfl⟩
    · rfl
    · exact hbelow.snd_mem _ (Finset.mem_image_of_mem _ hf)
    · exact hbehind.snd_mem _ (Finset.mem_image_of_mem _ hf)
  -- pairs of the same part are compatible there, and pairs of two parts by where the parts are
  · rcases mem_pairRoots.mp he with rfl | ⟨e, he', rfl⟩ | ⟨e, he', rfl⟩ <;>
      rcases mem_pairRoots.mp hf with rfl | ⟨f, hf', rfl⟩ | ⟨f, hf', rfl⟩
    · exact ⟨Iff.rfl, Iff.rfl, Iff.rfl⟩
    · obtain ⟨i, p, j, q, rfl⟩ := hcons₁ f hf'
      constructor <;> simp [LeftOf]
    · obtain ⟨i, p, j, q, rfl⟩ := hcons₂ f hf'
      constructor <;> simp [LeftOf, behind]
    · obtain ⟨i, p, j, q, rfl⟩ := hcons₁ e he'
      constructor <;> simp [LeftOf]
    · exact hbelow.compatible _ (Finset.mem_image_of_mem _ he') _ (Finset.mem_image_of_mem _ hf')
    · obtain ⟨i, p, j, q, rfl⟩ := hcons₁ e he'
      obtain ⟨i', p', j', q', rfl⟩ := hcons₂ f hf'
      constructor <;> simp [LeftOf, behind]
    · obtain ⟨i, p, j, q, rfl⟩ := hcons₂ e he'
      constructor <;> simp [LeftOf, behind]
    · obtain ⟨i, p, j, q, rfl⟩ := hcons₂ e he'
      obtain ⟨i', p', j', q', rfl⟩ := hcons₁ f hf'
      constructor <;> simp [LeftOf, behind]
    · exact hbehind.compatible _ (Finset.mem_image_of_mem _ he') _ (Finset.mem_image_of_mem _ hf')

/-- Where both first roots are in pairs, they are a pair. -/
theorem IsForestMapping.roots_mem (h : IsForestMapping (.node a cs :: F) (.node b ds :: G) m)
    {e f : Path × Path} (he : e ∈ m) (hroot : e.1 = [0]) (hf : f ∈ m) (hroot' : f.2 = [0]) :
    ([0], [0]) ∈ m := by
  have hcomp := h.compatible e he f hf
  suffices hsnd : e.2 = [0] by
    have heq : e = ([0], [0]) := Prod.ext hroot hsnd
    exact heq ▸ he
  rcases (h.fst_mem f hf).cases_cons with hp | ⟨q, hp, -⟩ | ⟨i, q, hp, -⟩
  · rw [← hroot', ← hcomp.eq_iff, hroot, hp]
  · have hpre : e.2 <+: [0] := by
      rw [← hroot', ← hcomp.ancestor, hroot, hp]
      simp
    rcases List.prefix_cons_iff.mp hpre with hnil | ⟨t, ht, hnil⟩
    · exact absurd hnil (h.snd_mem e he).ne_nil
    · rw [ht, List.prefix_nil.mp hnil]
  · have hleft : LeftOf e.2 [0] := by
      rw [← hroot', ← hcomp.left_of, hroot, hp]
      simp [LeftOf]
    obtain ⟨j, q', hq'⟩ := List.exists_cons_of_ne_nil (h.snd_mem e he).ne_nil
    rw [hq'] at hleft
    simp [LeftOf] at hleft

/-- A mapping with the two first roots as a pair has two parts. -/
theorem IsForestMapping.exists_pairRoots
    (h : IsForestMapping (.node a cs :: F) (.node b ds :: G) m) (hroots : ([0], [0]) ∈ m) :
    ∃ m₁ m₂, IsForestMapping cs ds m₁ ∧ IsForestMapping F G m₂ ∧ m = TreeEdit.pairRoots m₁ m₂ := by
  have hparts : ∀ e ∈ m, e = ([0], [0]) ∨
      (∃ p q, IsNode cs p ∧ IsNode ds q ∧ e = (0 :: p, 0 :: q)) ∨
      ∃ p q, IsNode F p ∧ IsNode G q ∧ e = (behind p, behind q) := by
    intro e he
    have hcomp := h.compatible _ hroots e he
    have heq : [0] = e.1 ↔ [0] = e.2 := hcomp.eq_iff
    have hanc : [0] <+: e.1 ↔ [0] <+: e.2 := hcomp.ancestor
    rcases (h.fst_mem e he).cases_cons with hp | ⟨p, hp, hcs⟩ | ⟨i, p, hp, hF⟩ <;>
      rcases (h.snd_mem e he).cases_cons with hq | ⟨q, hq, hds⟩ | ⟨j, q, hq, hG⟩
    · exact .inl (Prod.ext hp hq)
    · exact absurd (heq.mp hp.symm) (by simp [hq, hds.ne_nil])
    · exact absurd (heq.mp hp.symm) (by simp [hq])
    · exact absurd (heq.mpr hq.symm) (by simp [hp, hcs.ne_nil])
    · exact .inr (.inl ⟨p, q, hcs, hds, Prod.ext hp hq⟩)
    · exact absurd (hanc.mp (by simp [hp])) (by simp [hq])
    · exact absurd (heq.mpr hq.symm) (by simp [hp])
    · exact absurd (hanc.mpr (by simp [hq])) (by simp [hp])
    · exact .inr (.inr ⟨i :: p, j :: q, hF, hG, Prod.ext hp hq⟩)
  have hnot : ∀ p : Path, ¬ [0] <+: behind p := by
    intro p
    cases p <;> simp [behind]
  obtain ⟨m₁, hm₁, heq₁⟩ := (h.subset (Finset.filter_subset
    (fun e => e ≠ ([0], [0]) ∧ [0] <+: e.1) m)).exists_image (embeds_zero a cs F)
      (embeds_zero b ds G) fun e he => by
    obtain ⟨he, hne, hpre⟩ := Finset.mem_filter.mp he
    rcases hparts e he with rfl | hbelow | ⟨p, q, -, -, rfl⟩
    · exact absurd rfl hne
    · exact hbelow
    · exact absurd hpre (hnot p)
  obtain ⟨m₂, hm₂, heq₂⟩ := (h.subset (Finset.filter_subset
    (fun e => ¬ [0] <+: e.1) m)).exists_image (embeds_behind a cs F) (embeds_behind b ds G)
      fun e he => by
    obtain ⟨he, hpre⟩ := Finset.mem_filter.mp he
    rcases hparts e he with rfl | ⟨p, q, -, -, rfl⟩ | hbehind
    · simp at hpre
    · simp at hpre
    · exact hbehind
  refine ⟨m₁, m₂, hm₁, hm₂, ?_⟩
  rw [TreeEdit.pairRoots, heq₁, heq₂]
  ext e
  simp only [Finset.mem_insert, Finset.mem_union, Finset.mem_filter]
  constructor
  · intro he
    by_cases hpre : [0] <+: e.1
    · by_cases hne : e = ([0], [0])
      · exact .inl hne
      · exact .inr (.inl ⟨he, hne, hpre⟩)
    · exact .inr (.inr ⟨he, hpre⟩)
  · rintro (rfl | ⟨he, -⟩ | ⟨he, -⟩)
    · exact hroots
    · exact he
    · exact he

/-! ## Costs -/

namespace CostModel

variable [AddCommGroup R] (c : CostModel α R)

/-- The cost to delete all trees of a list. -/
def delAll (F : List (Rose α)) : R := ((forestValues F).map c.del).sum

/-- The cost to insert all trees of a list. -/
def insAll (G : List (Rose α)) : R := ((forestValues G).map c.ins).sum

/-- What it costs to rename a node instead of a delete and an insert. -/
def pairCost (F G : List (Rose α)) (e : Path × Path) : R :=
  ((forestValueAt e.1 F).bind fun a => (forestValueAt e.2 G).map fun b =>
    c.ren a b - c.del a - c.ins b).getD 0

/-- The cost of a mapping between two lists of trees. -/
def forestCost (F G : List (Rose α)) (m : Finset (Path × Path)) : R :=
  c.delAll F + c.insAll G + ∑ e ∈ m, c.pairCost F G e

@[simp] theorem delAll_nil : c.delAll [] = 0 := rfl

@[simp] theorem insAll_nil : c.insAll [] = 0 := rfl

@[simp] theorem delAll_append (F G : List (Rose α)) :
    c.delAll (F ++ G) = c.delAll F + c.delAll G := by
  simp [delAll]

@[simp] theorem insAll_append (F G : List (Rose α)) :
    c.insAll (F ++ G) = c.insAll F + c.insAll G := by
  simp [insAll]

@[simp] theorem delAll_cons (a : α) (cs F : List (Rose α)) :
    c.delAll (.node a cs :: F) = c.del a + c.delAll cs + c.delAll F := by
  simp [delAll, forestValues, values, add_assoc]

@[simp] theorem insAll_cons (a : α) (cs F : List (Rose α)) :
    c.insAll (.node a cs :: F) = c.ins a + c.insAll cs + c.insAll F := by
  simp [insAll, forestValues, values, add_assoc]

theorem sum_pairCost_image (hφ : Embeds flipped φ F' F) (hψ : Embeds flipped ψ G' G)
    (h : IsForestMapping F' G' m) :
    ∑ e ∈ m.image (Prod.map φ ψ), c.pairCost F G e = ∑ e ∈ m, c.pairCost F' G' e := by
  rw [Finset.sum_image]
  · refine Finset.sum_congr rfl fun e he => ?_
    simp only [pairCost, Prod.map_fst, Prod.map_snd, hφ.value _ (h.fst_mem e he),
      hψ.value _ (h.snd_mem e he)]
  · intro e he f hf heq
    simp only [Prod.map, Prod.mk.injEq] at heq
    exact Prod.ext ((hφ.injective (h.fst_mem e he) (h.fst_mem f hf)).mp heq.1)
      ((hψ.injective (h.snd_mem e he) (h.snd_mem f hf)).mp heq.2)

/-! ## A mapping and the first roots -/

/-- A mapping without the first root on the left deletes it. -/
theorem forestCost_delete (a : α) (h : IsForestMapping (cs ++ F) G m) :
    IsForestMapping (.node a cs :: F) G (m.image (Prod.map (below cs.length) id)) ∧
      c.forestCost (.node a cs :: F) G (m.image (Prod.map (below cs.length) id)) =
        c.del a + c.forestCost (cs ++ F) G m := by
  refine ⟨h.image (embeds_below a cs F) (.refl G), ?_⟩
  rw [forestCost, c.sum_pairCost_image (embeds_below a cs F) (.refl G) h, forestCost]
  simp only [delAll_cons, delAll_append]
  abel

theorem exists_of_notMem_left (h : IsForestMapping (.node a cs :: F) G m)
    (hroot : ∀ e ∈ m, e.1 ≠ [0]) :
    ∃ m', IsForestMapping (cs ++ F) G m' ∧
      c.forestCost (.node a cs :: F) G m = c.del a + c.forestCost (cs ++ F) G m' := by
  obtain ⟨m', hm', rfl⟩ := h.exists_image (embeds_below a cs F) (.refl G) fun e he => by
    obtain ⟨q, hq, heq⟩ := exists_below (h.fst_mem e he) (hroot e he)
    exact ⟨q, e.2, hq, h.snd_mem e he, by rw [heq]; rfl⟩
  exact ⟨m', hm', (c.forestCost_delete a hm').2⟩

/-- A mapping without the first root on the right inserts it. -/
theorem forestCost_insert (b : α) (h : IsForestMapping F (ds ++ G) m) :
    IsForestMapping F (.node b ds :: G) (m.image (Prod.map id (below ds.length))) ∧
      c.forestCost F (.node b ds :: G) (m.image (Prod.map id (below ds.length))) =
        c.ins b + c.forestCost F (ds ++ G) m := by
  refine ⟨h.image (.refl F) (embeds_below b ds G), ?_⟩
  rw [forestCost, c.sum_pairCost_image (.refl F) (embeds_below b ds G) h, forestCost]
  simp only [insAll_cons, insAll_append]
  abel

theorem exists_of_notMem_right (h : IsForestMapping F (.node b ds :: G) m)
    (hroot : ∀ e ∈ m, e.2 ≠ [0]) :
    ∃ m', IsForestMapping F (ds ++ G) m' ∧
      c.forestCost F (.node b ds :: G) m = c.ins b + c.forestCost F (ds ++ G) m' := by
  obtain ⟨m', hm', rfl⟩ := h.exists_image (.refl F) (embeds_below b ds G) fun e he => by
    obtain ⟨q, hq, heq⟩ := exists_below (h.snd_mem e he) (hroot e he)
    exact ⟨e.1, q, h.fst_mem e he, hq, by rw [heq]; rfl⟩
  exact ⟨m', hm', (c.forestCost_insert b hm').2⟩

/-- The two parts of a mapping with the first roots as a pair have their own costs. -/
theorem forestCost_pairRoots {m₁ m₂ : Finset (Path × Path)} (a b : α)
    (h₁ : IsForestMapping cs ds m₁) (h₂ : IsForestMapping F G m₂) :
    c.forestCost (.node a cs :: F) (.node b ds :: G) (pairRoots m₁ m₂) =
      c.ren a b + c.forestCost cs ds m₁ + c.forestCost F G m₂ := by
  have hroot : ([0], [0]) ∉ m₁.image (Prod.map (0 :: ·) (0 :: ·)) ∪
      m₂.image (Prod.map behind behind) := by
    simp only [Finset.mem_union, Finset.mem_image, not_or, not_exists, not_and]
    refine ⟨fun e he heq => ?_, fun e he heq => ?_⟩
    · exact (h₁.fst_mem e he).ne_nil (by simpa using congrArg Prod.fst heq)
    · obtain ⟨i, p, hp⟩ := List.exists_cons_of_ne_nil (h₂.fst_mem e he).ne_nil
      simpa [hp, behind] using congrArg Prod.fst heq
  have hdisj : Disjoint (m₁.image (Prod.map (0 :: ·) (0 :: ·)))
      (m₂.image (Prod.map behind behind)) := by
    refine Finset.disjoint_left.mpr fun e he₁ he₂ => ?_
    obtain ⟨f, -, rfl⟩ := Finset.mem_image.mp he₁
    obtain ⟨g, hg, heq⟩ := Finset.mem_image.mp he₂
    obtain ⟨i, p, hp⟩ := List.exists_cons_of_ne_nil (h₂.fst_mem g hg).ne_nil
    simpa [hp, behind] using congrArg Prod.fst heq
  rw [forestCost, pairRoots, Finset.sum_insert hroot, Finset.sum_union hdisj,
    c.sum_pairCost_image (embeds_zero a cs F) (embeds_zero b ds G) h₁,
    c.sum_pairCost_image (embeds_behind a cs F) (embeds_behind b ds G) h₂, forestCost, forestCost]
  simp only [pairCost, forestValueAt_zero_cons, valueAt_nil, Option.bind_some, Option.map_some,
    Option.getD_some, delAll_cons, insAll_cons]
  abel

/-! ## The distance -/

variable [LinearOrder R]

/-- The edit distance of two lists of trees. -/
def dist : List (Rose α) → List (Rose α) → R
  | [], [] => 0
  | .node a cs :: F, [] => c.del a + dist (cs ++ F) []
  | [], .node b ds :: G => c.ins b + dist [] (ds ++ G)
  | .node a cs :: F, .node b ds :: G =>
    min (c.del a + dist (cs ++ F) (.node b ds :: G))
      (min (c.ins b + dist (.node a cs :: F) (ds ++ G)) (c.ren a b + dist cs ds + dist F G))
termination_by F G => (forestValues F).length + (forestValues G).length
decreasing_by all_goals simp [forestValues, values] <;> omega

/-- A value is the distance of two lists of trees if it is the least cost of a mapping. -/
def IsForestDistance (F G : List (Rose α)) (d : R) : Prop :=
  IsLeast {x | ∃ m, IsForestMapping F G m ∧ c.forestCost F G m = x} d

variable {c} {d : R}

theorem IsForestDistance.le_cost (h : c.IsForestDistance F G d) (hm : IsForestMapping F G m) :
    d ≤ c.forestCost F G m := h.2 ⟨m, hm, rfl⟩

theorem IsForestDistance.exists_delete (h : c.IsForestDistance (cs ++ F) G d) (a : α) :
    ∃ m, IsForestMapping (.node a cs :: F) G m ∧
      c.forestCost (.node a cs :: F) G m = c.del a + d := by
  obtain ⟨⟨m, hm, rfl⟩, -⟩ := h
  exact ⟨_, c.forestCost_delete a hm⟩

theorem IsForestDistance.exists_insert (h : c.IsForestDistance F (ds ++ G) d) (b : α) :
    ∃ m, IsForestMapping F (.node b ds :: G) m ∧
      c.forestCost F (.node b ds :: G) m = c.ins b + d := by
  obtain ⟨⟨m, hm, rfl⟩, -⟩ := h
  exact ⟨_, c.forestCost_insert b hm⟩

theorem IsForestDistance.exists_pair {d' : R} (h : c.IsForestDistance cs ds d)
    (h' : c.IsForestDistance F G d') (a b : α) :
    ∃ m, IsForestMapping (.node a cs :: F) (.node b ds :: G) m ∧
      c.forestCost (.node a cs :: F) (.node b ds :: G) m = c.ren a b + d + d' := by
  obtain ⟨⟨m, hm, rfl⟩, -⟩ := h
  obtain ⟨⟨m', hm', rfl⟩, -⟩ := h'
  exact ⟨_, hm.pairRoots hm' a b, c.forestCost_pairRoots a b hm hm'⟩

variable [IsOrderedAddMonoid R]

theorem IsForestDistance.delete_le (h : c.IsForestDistance (cs ++ F) G d)
    (hm : IsForestMapping (.node a cs :: F) G m) (hroot : ∀ e ∈ m, e.1 ≠ [0]) :
    c.del a + d ≤ c.forestCost (.node a cs :: F) G m := by
  obtain ⟨m', hm', heq⟩ := c.exists_of_notMem_left hm hroot
  rw [heq]
  exact add_le_add_right (h.le_cost hm') _

theorem IsForestDistance.insert_le (h : c.IsForestDistance F (ds ++ G) d)
    (hm : IsForestMapping F (.node b ds :: G) m) (hroot : ∀ e ∈ m, e.2 ≠ [0]) :
    c.ins b + d ≤ c.forestCost F (.node b ds :: G) m := by
  obtain ⟨m', hm', heq⟩ := c.exists_of_notMem_right hm hroot
  rw [heq]
  exact add_le_add_right (h.le_cost hm') _

theorem IsForestDistance.pair_le {d' : R} (h : c.IsForestDistance cs ds d)
    (h' : c.IsForestDistance F G d')
    (hm : IsForestMapping (.node a cs :: F) (.node b ds :: G) m) (hroots : ([0], [0]) ∈ m) :
    c.ren a b + d + d' ≤ c.forestCost (.node a cs :: F) (.node b ds :: G) m := by
  obtain ⟨m₁, m₂, hm₁, hm₂, rfl⟩ := hm.exists_pairRoots hroots
  rw [c.forestCost_pairRoots a b hm₁ hm₂]
  exact add_le_add (add_le_add_right (h.le_cost hm₁) _) (h'.le_cost hm₂)

/-- The recursion finds the least cost of a mapping. -/
theorem isForestDistance_dist (c : CostModel α R) (F G : List (Rose α)) :
    c.IsForestDistance F G (c.dist F G) := by
  fun_induction dist c F G with
  | case1 =>
    refine ⟨⟨∅, .empty [] [], by simp [forestCost]⟩, ?_⟩
    rintro _ ⟨m, hm, rfl⟩
    simp [hm.eq_empty_of_nil_left, forestCost]
  | case2 a cs F ih =>
    refine ⟨ih.exists_delete a, ?_⟩
    rintro _ ⟨m, hm, rfl⟩
    exact ih.delete_le hm fun e he => absurd (hm.snd_mem e he) (not_isNode_nil _)
  | case3 b ds G ih =>
    refine ⟨ih.exists_insert b, ?_⟩
    rintro _ ⟨m, hm, rfl⟩
    exact ih.insert_le hm fun e he => absurd (hm.fst_mem e he) (not_isNode_nil _)
  | case4 a cs F b ds G ihdel ihins ihbelow ihbehind =>
    constructor
    -- the least of the three is the cost of a mapping
    · rcases min_choice (c.del a + c.dist (cs ++ F) (.node b ds :: G))
        (min (c.ins b + c.dist (.node a cs :: F) (ds ++ G))
          (c.ren a b + c.dist cs ds + c.dist F G)) with hmin | hmin
      · rw [hmin]
        exact ihdel.exists_delete a
      · rw [hmin]
        rcases min_choice (c.ins b + c.dist (.node a cs :: F) (ds ++ G))
          (c.ren a b + c.dist cs ds + c.dist F G) with hmin | hmin
        · rw [hmin]
          exact ihins.exists_insert b
        · rw [hmin]
          exact ihbelow.exists_pair ihbehind a b
    -- a mapping leaves out one of the first roots, or they are a pair
    · rintro _ ⟨m, hm, rfl⟩
      by_cases hleft : ∀ e ∈ m, e.1 ≠ [0]
      · exact (min_le_left _ _).trans (ihdel.delete_le hm hleft)
      by_cases hright : ∀ e ∈ m, e.2 ≠ [0]
      · exact (min_le_right _ _).trans ((min_le_left _ _).trans (ihins.insert_le hm hright))
      push Not at hleft hright
      obtain ⟨e, he, heq⟩ := hleft
      obtain ⟨f, hf, hfeq⟩ := hright
      exact (min_le_right _ _).trans ((min_le_right _ _).trans
        (ihbelow.pair_le ihbehind hm (hm.roots_mem he heq hf hfeq)))

theorem isForestDistance_iff : c.IsForestDistance F G d ↔ d = c.dist F G := by
  constructor
  · intro h
    exact h.unique (isForestDistance_dist c F G)
  · rintro rfl
    exact isForestDistance_dist c F G

/-! ## From the right -/

theorem embeds_mirror (F : List (Rose α)) :
    Embeds true (mirrorPath · F) F (forestMirror F) where
  value _ hp := forestValueAt_mirror hp
  ancestor _ _ hp hq := mirrorPath_prefix_iff (fun _ => hp) fun _ => hq
  left_of _ _ hp hq := leftOf_mirrorPath hp hq

theorem dist_mirror_le (c : CostModel α R) (F G : List (Rose α)) :
    c.dist (forestMirror F) (forestMirror G) ≤ c.dist F G := by
  obtain ⟨⟨m, hm, heq⟩, -⟩ := isForestDistance_dist c F G
  have hcost : c.forestCost (forestMirror F) (forestMirror G)
      (m.image (Prod.map (mirrorPath · F) (mirrorPath · G))) = c.forestCost F G m := by
    rw [forestCost, c.sum_pairCost_image (embeds_mirror F) (embeds_mirror G) hm, forestCost,
      delAll, insAll, ((perm_forestValues_mirror F).map c.del).sum_eq,
      ((perm_forestValues_mirror G).map c.ins).sum_eq, delAll, insAll]
  rw [← heq, ← hcost]
  exact (isForestDistance_dist c _ _).le_cost (hm.image (embeds_mirror F) (embeds_mirror G))

/-- Mirror images have the same distance. -/
theorem dist_mirror (c : CostModel α R) (F G : List (Rose α)) :
    c.dist (forestMirror F) (forestMirror G) = c.dist F G := by
  refine le_antisymm (dist_mirror_le c F G) ?_
  have hle := dist_mirror_le c (forestMirror F) (forestMirror G)
  rwa [forestMirror_forestMirror, forestMirror_forestMirror] at hle

theorem dist_concat_nil (c : CostModel α R) (F : List (Rose α)) (a : α) (cs : List (Rose α)) :
    c.dist (F ++ [.node a cs]) [] = c.dist (F ++ cs) [] + c.del a := by
  rw [← dist_mirror, ← dist_mirror c (F ++ cs)]
  simp only [forestMirror_append, forestMirror, mirror, List.nil_append, List.singleton_append]
  rw [dist, add_comm]

theorem dist_nil_concat (c : CostModel α R) (G : List (Rose α)) (b : α) (ds : List (Rose α)) :
    c.dist [] (G ++ [.node b ds]) = c.dist [] (G ++ ds) + c.ins b := by
  rw [← dist_mirror, ← dist_mirror c [] (G ++ ds)]
  simp only [forestMirror_append, forestMirror, mirror, List.nil_append, List.singleton_append]
  rw [dist, add_comm]

/-- The recursion on the last trees. -/
theorem dist_concat_concat (c : CostModel α R) (F G : List (Rose α)) (a b : α)
    (cs ds : List (Rose α)) :
    c.dist (F ++ [.node a cs]) (G ++ [.node b ds]) =
      min (c.dist (F ++ cs) (G ++ [.node b ds]) + c.del a)
        (min (c.dist (F ++ [.node a cs]) (G ++ ds) + c.ins b)
          (c.dist F G + c.dist cs ds + c.ren a b)) := by
  rw [← dist_mirror, ← dist_mirror c (F ++ cs), ← dist_mirror c (F ++ [Rose.node a cs]) (G ++ ds),
    ← dist_mirror c F, ← dist_mirror c cs]
  simp only [forestMirror_append, forestMirror, mirror, List.nil_append, List.singleton_append]
  rw [dist]
  congr 1
  · rw [add_comm]
  · congr 1
    · rw [add_comm]
    · abel

/-! ## Bounds -/

theorem dist_nil_right (c : CostModel α R) (F : List (Rose α)) : c.dist F [] = c.delAll F := by
  obtain ⟨⟨m, hm, heq⟩, -⟩ := isForestDistance_dist c F []
  have hempty : m = ∅ :=
    Finset.eq_empty_of_forall_notMem fun e he => not_isNode_nil _ (hm.snd_mem e he)
  rw [← heq, hempty]
  simp [forestCost]

theorem dist_nil_left (c : CostModel α R) (G : List (Rose α)) : c.dist [] G = c.insAll G := by
  obtain ⟨⟨m, hm, heq⟩, -⟩ := isForestDistance_dist c [] G
  rw [← heq, hm.eq_empty_of_nil_left]
  simp [forestCost]

/-- It never costs more than to delete one list and to insert the other. -/
theorem dist_le_total (c : CostModel α R) (F G : List (Rose α)) :
    c.dist F G ≤ c.delAll F + c.insAll G := by
  refine ((isForestDistance_dist c F G).le_cost (.empty F G)).trans_eq ?_
  simp [forestCost]

omit [IsOrderedAddMonoid R] in
/-- What holds of all costs and is kept by sums holds of the distance. -/
theorem dist_induction {p : R → Prop} (zero : p 0) (add : ∀ x y, p x → p y → p (x + y))
    (hdel : ∀ a ∈ forestValues F, p (c.del a)) (hins : ∀ b ∈ forestValues G, p (c.ins b))
    (hren : ∀ a ∈ forestValues F, ∀ b ∈ forestValues G, p (c.ren a b)) : p (c.dist F G) := by
  have hmin : ∀ x y, p x → p y → p (min x y) := fun x y hx hy => by
    rcases min_choice x y with h | h <;> rwa [h]
  fun_induction dist c F G with
  | case1 => exact zero
  | case2 a cs F ih =>
    simp only [forestValues, values, List.cons_append, List.forall_mem_cons] at hdel
    refine add _ _ hdel.1 (ih ?_ hins ?_)
    · simpa using hdel.2
    · simp [forestValues]
  | case3 b ds G ih =>
    simp only [forestValues, values, List.cons_append, List.forall_mem_cons] at hins
    refine add _ _ hins.1 (ih hdel ?_ ?_)
    · simpa using hins.2
    · simp [forestValues]
  | case4 a cs F b ds G ihdel ihins ihbelow ihbehind =>
    simp only [forestValues, values, List.cons_append, List.mem_cons, List.mem_append,
      forestValues_append] at *
    refine hmin _ _ (add _ _ (hdel a (.inl rfl)) (ihdel ?_ hins ?_)) (hmin _ _
      (add _ _ (hins b (.inl rfl)) (ihins hdel ?_ ?_))
      (add _ _ (add _ _ (hren a (.inl rfl) b (.inl rfl)) (ihbelow ?_ ?_ ?_)) (ihbehind ?_ ?_ ?_)))
    · exact fun x hx => hdel x (.inr hx)
    · exact fun x hx => hren x (.inr hx)
    · exact fun y hy => hins y (.inr hy)
    · exact fun x hx y hy => hren x hx y (.inr hy)
    · exact fun x hx => hdel x (.inr (.inl hx))
    · exact fun y hy => hins y (.inr (.inl hy))
    · exact fun x hx y hy => hren x (.inr (.inl hx)) y (.inr (.inl hy))
    · exact fun x hx => hdel x (.inr (.inr hx))
    · exact fun y hy => hins y (.inr (.inr hy))
    · exact fun x hx y hy => hren x (.inr (.inr hx)) y (.inr (.inr hy))

/-! ## The other way round -/

/-- The costs of the way back: a delete is an insert. -/
def flip (c : CostModel α R) : CostModel α R where
  ren a b := c.ren b a
  del := c.ins
  ins := c.del

omit [IsOrderedAddMonoid R] in
theorem dist_flip (c : CostModel α R) (F G : List (Rose α)) : c.flip.dist G F = c.dist F G := by
  fun_induction dist c F G with
  | case1 => rw [dist]
  | case2 a cs F ih => rw [dist, ih]; rfl
  | case3 b ds G ih => rw [dist, ih]; rfl
  | case4 a cs F b ds G ihdel ihins ihbelow ihbehind =>
    rw [dist, ihdel, ihins, ihbelow, ihbehind]
    exact min_left_comm _ _ _

/-! ## A single node -/

/-- One node is deleted, or it is renamed to the node where that saves most. -/
theorem dist_leaf (c : CostModel α R) (a : α) (G : List (Rose α)) : c.dist [.node a []] G =
    c.insAll G + ((forestValues G).map fun b => c.ren a b - c.ins b).foldr min (c.del a) := by
  induction hn : (forestValues G).length using Nat.strong_induction_on generalizing G with
  | _ n ih =>
    rcases G with _ | ⟨⟨b, ds⟩, G⟩
    · simp [dist_nil_right, delAll, insAll, forestValues, values]
    · have hrest := ih (forestValues (ds ++ G)).length
        (by simp only [← hn, forestValues_append, forestValues, values, List.length_append,
          List.length_cons]; omega) (ds ++ G) rfl
      have hle : ∀ bs : List R, bs.foldr min (c.del a) ≤ c.del a := by
        intro bs
        induction bs with
        | nil => exact le_rfl
        | cons x xs ihxs => exact (min_le_right _ _).trans ihxs
      rw [dist, hrest, List.nil_append, dist_nil_left, dist_nil_left, dist_nil_left]
      simp only [forestValues, values, forestValues_append, List.cons_append, List.map_cons,
        List.foldr_cons, insAll_cons, insAll_append]
      have hmin := hle ((forestValues ds ++ forestValues G).map fun b => c.ren a b - c.ins b)
      set x := ((forestValues ds ++ forestValues G).map fun b => c.ren a b - c.ins b).foldr min (c.del a)
      have hdel : c.ins b + (c.insAll ds + c.insAll G + x) ≤
          c.del a + (c.ins b + c.insAll ds + c.insAll G) := by
        have := add_le_add_left hmin (c.ins b + c.insAll ds + c.insAll G)
        calc c.ins b + (c.insAll ds + c.insAll G + x)
            = x + (c.ins b + c.insAll ds + c.insAll G) := by abel
          _ ≤ c.del a + (c.ins b + c.insAll ds + c.insAll G) := this
      rw [← min_assoc, min_eq_right hdel, min_comm, ← min_add_add_left]
      congr 1 <;> abel

end CostModel

/-! ## Trees -/

theorem isNode_singleton {s : Rose α} {p : Path} :
    IsNode [s] p ↔ ∃ q ∈ s.paths, p = 0 :: q := by
  constructor
  · intro h
    cases p with
    | nil => cases h
    | cons i p =>
      obtain rfl : i = 0 := by simpa using h.lt_length
      exact ⟨p, mem_paths_iff.mpr h, rfl⟩
  · rintro ⟨q, hq, rfl⟩
    exact mem_paths_iff.mp hq

variable {s t : Rose α}

theorem IsMapping.isForestMapping (h : IsMapping s t m) :
    IsForestMapping [s] [t] (m.image (Prod.map (0 :: ·) (0 :: ·))) where
  fst_mem := by
    simp only [Finset.forall_mem_image]
    exact fun e he => isNode_singleton.mpr ⟨e.1, h.fst_mem e he, rfl⟩
  snd_mem := by
    simp only [Finset.forall_mem_image]
    exact fun e he => isNode_singleton.mpr ⟨e.2, h.snd_mem e he, rfl⟩
  compatible := by
    simp only [Finset.forall_mem_image]
    intro e he f hf
    constructor
    · simpa using h.one_to_one e he f hf
    · simpa [List.cons_prefix_cons] using h.ancestor e he f hf
    · simpa [LeftOf] using h.left_of e he f hf

theorem IsForestMapping.exists_isMapping (h : IsForestMapping [s] [t] m) :
    ∃ m', IsMapping s t m' ∧ m'.image (Prod.map (0 :: ·) (0 :: ·)) = m := by
  have hsub : (m : Set (Path × Path)) ⊆
      Prod.map (0 :: ·) (0 :: ·) '' {e | e.1 ∈ s.paths ∧ e.2 ∈ t.paths} := by
    intro e he
    obtain ⟨p, hp, heq⟩ := isNode_singleton.mp (h.fst_mem e he)
    obtain ⟨q, hq, heq'⟩ := isNode_singleton.mp (h.snd_mem e he)
    exact ⟨(p, q), ⟨hp, hq⟩, Prod.ext heq.symm heq'.symm⟩
  obtain ⟨m', hnodes, rfl⟩ := Finset.subset_set_image_iff.mp hsub
  have hcomp : ∀ e ∈ m', ∀ f ∈ m', Compatible (0 :: e.1, 0 :: e.2) (0 :: f.1, 0 :: f.2) :=
    fun e he f hf => h.compatible _ (Finset.mem_image_of_mem _ he) _ (Finset.mem_image_of_mem _ hf)
  refine ⟨m', ⟨fun e he => (hnodes he).1, fun e he => (hnodes he).2, fun e he f hf => ?_,
    fun e he f hf => ?_, fun e he f hf => ?_⟩, rfl⟩
  · simpa using (hcomp e he f hf).eq_iff
  · simpa [List.cons_prefix_cons] using (hcomp e he f hf).ancestor
  · simpa [LeftOf] using (hcomp e he f hf).left_of

namespace CostModel

variable [AddCommGroup R] (c : CostModel α R)

theorem delAll_singleton (s : Rose α) : c.delAll [s] = ∑ p ∈ s.paths.toFinset, c.delAt s p := by
  rw [show c.delAt s = fun p => ((s.valueAt p).map c.del).getD 0 from rfl, sum_paths]
  simp [delAll, forestValues]

theorem insAll_singleton (t : Rose α) : c.insAll [t] = ∑ p ∈ t.paths.toFinset, c.insAt t p := by
  rw [show c.insAt t = fun p => ((t.valueAt p).map c.ins).getD 0 from rfl, sum_paths]
  simp [insAll, forestValues]

theorem pairCost_singleton {e : Path × Path} (hs : e.1 ∈ s.paths) (ht : e.2 ∈ t.paths) :
    c.pairCost [s] [t] (0 :: e.1, 0 :: e.2) = c.renAt s t e - c.delAt s e.1 - c.insAt t e.2 := by
  obtain ⟨a, -, ha⟩ := exists_valueAt_of_mem hs
  obtain ⟨b, -, hb⟩ := exists_valueAt_of_mem ht
  simp [pairCost, renAt, delAt, insAt, ha, hb]

/-- A mapping of two trees has the same cost as a mapping of lists. -/
theorem cost_eq_forestCost (h : IsMapping s t m) :
    c.cost s t m = c.forestCost [s] [t] (m.image (Prod.map (0 :: ·) (0 :: ·))) := by
  have hpairs : ∑ e ∈ m.image (Prod.map (0 :: ·) (0 :: ·)), c.pairCost [s] [t] e =
      ∑ e ∈ m, c.renAt s t e - ∑ e ∈ m, c.delAt s e.1 - ∑ e ∈ m, c.insAt t e.2 := by
    rw [Finset.sum_image, ← Finset.sum_sub_distrib, ← Finset.sum_sub_distrib]
    · exact Finset.sum_congr rfl fun e he =>
        c.pairCost_singleton (h.fst_mem e he) (h.snd_mem e he)
    · intro e _ f _ heq
      simpa [Prod.ext_iff] using heq
  have hdel := Finset.sum_sdiff (f := c.delAt s) h.image_fst_subset
  have hins := Finset.sum_sdiff (f := c.insAt t) h.image_snd_subset
  rw [Finset.sum_image h.injOn_fst] at hdel
  rw [Finset.sum_image h.injOn_snd] at hins
  rw [forestCost, hpairs, delAll_singleton, insAll_singleton, ← hdel, ← hins, cost]
  abel

variable [LinearOrder R] {c} {d : R}

theorem isDistance_iff_isForestDistance : c.IsDistance s t d ↔ c.IsForestDistance [s] [t] d := by
  suffices hset : {x | ∃ m, IsMapping s t m ∧ c.cost s t m = x} =
      {x | ∃ m, IsForestMapping [s] [t] m ∧ c.forestCost [s] [t] m = x} by
    rw [IsDistance, IsForestDistance, hset]
  ext x
  constructor
  · rintro ⟨m, hm, rfl⟩
    exact ⟨_, hm.isForestMapping, (c.cost_eq_forestCost hm).symm⟩
  · rintro ⟨m, hm, rfl⟩
    obtain ⟨m', hm', rfl⟩ := hm.exists_isMapping
    exact ⟨m', hm', c.cost_eq_forestCost hm'⟩

variable [IsOrderedAddMonoid R]

/-- The recursion finds the distance of two trees. -/
theorem isDistance_iff : c.IsDistance s t d ↔ d = c.dist [s] [t] :=
  isDistance_iff_isForestDistance.trans isForestDistance_iff

end CostModel

end TreeEdit
