-- The order in which names come first in a sorted list of texts. A text has
-- a first word in front of its name, and goes on with a separator behind the
-- name, or ends there. Names behind the same first word come in their order,
-- unless one is the start of the other one: there the separator is compared
-- with the next character of the longer name.
import Ditto.Lib.CountTrie
import Mathlib.Order.Lattice

namespace WordOrder

open CountTrie

/-! ## Which of two items comes first -/

section First

variable {κ σ : Type} [DecidableEq κ] {x y : κ}

/-- The first `x` of a list is before every `y`. -/
def ComesFirst (x y : κ) : List κ → Prop
  | [] => False
  | z :: l => z = x ∨ z ≠ y ∧ ComesFirst x y l

omit [DecidableEq κ] in
theorem idxOf_lt_iff [BEq κ] [LawfulBEq κ] (hxy : x ≠ y) (l : List κ) :
    l.idxOf x < l.idxOf y ↔ ComesFirst x y l := by
  induction l with
  | nil => simp [ComesFirst]
  | cons z l ih =>
    rw [ComesFirst]
    by_cases hx : z = x
    · subst hx
      simp [List.idxOf_cons_ne l hxy]
    · by_cases hy : z = y
      · subst hy
        simp [hx]
      · rw [List.idxOf_cons_ne l hx, List.idxOf_cons_ne l hy, Nat.succ_lt_succ_iff, ih]
        simp [hx, hy]

omit [DecidableEq κ] in
theorem comesFirst_of_mem {l : List κ} (hx : x ∈ l) (hy : y ∉ l) : ComesFirst x y l := by
  induction l with
  | nil => cases hx
  | cons z l ih =>
    rw [List.mem_cons, not_or] at hy
    rcases List.mem_cons.mp hx with rfl | hx
    · exact .inl rfl
    · exact .inr ⟨Ne.symm hy.1, ih hx hy.2⟩

omit [DecidableEq κ] in
theorem comesFirst_concat (l : List κ) (z : κ) :
    ComesFirst x y (l ++ [z]) ↔ ComesFirst x y l ∨ y ∉ l ∧ z = x := by
  induction l with
  | nil => simp [ComesFirst]
  | cons a l ih =>
    rw [List.cons_append, ComesFirst, ComesFirst, ih, List.mem_cons, not_or]
    have hne : a ≠ y ↔ y ≠ a := ne_comm
    tauto

/-- The first occurrences are in the order of the list. -/
theorem comesFirst_firsts (l : List κ) : ComesFirst x y (firsts l) ↔ ComesFirst x y l := by
  induction l using List.reverseRecOn with
  | nil => rfl
  | append_singleton l z ih =>
    rw [firsts_concat, comesFirst_concat]
    split
    · rename_i hz
      rw [ih]
      refine (or_iff_left_of_imp ?_).symm
      rintro ⟨hy, rfl⟩
      exact comesFirst_of_mem (mem_firsts.mp hz) hy
    · rw [comesFirst_concat, ih, mem_firsts]

omit [DecidableEq κ] in
theorem comesFirst_map {ν : Type} {f : κ → ν} {l : List κ}
    (hx : ∀ z ∈ l, f z = f x → z = x) (hy : ∀ z ∈ l, f z = f y → z = y) :
    ComesFirst (f x) (f y) (l.map f) ↔ ComesFirst x y l := by
  induction l with
  | nil => rfl
  | cons z l ih =>
    rw [List.forall_mem_cons] at hx hy
    have hzx : f z = f x ↔ z = x := ⟨hx.1, congrArg f⟩
    have hzy : f z = f y ↔ z = y := ⟨hy.1, congrArg f⟩
    rw [List.map_cons, ComesFirst, ComesFirst, ih hx.2 hy.2, hzx, Ne, hzy]

omit [DecidableEq κ] in
/-- In a sorted list the name with the smaller text comes first. -/
theorem comesFirst_filterMap {τ : Type} [LT τ] {text : σ → τ} {next : σ → Option κ} {l : List σ}
    (hsorted : l.Pairwise fun a b => ¬ text b < text a) (hxy : x ≠ y)
    (htotal : ∀ a ∈ l, ∀ b ∈ l, next a = some x → next b = some y →
      (text a < text b ↔ ¬ text b < text a)) :
    ComesFirst x y (l.filterMap next) ↔
      ∃ a ∈ l, next a = some x ∧ ∀ b ∈ l, next b = some y → text a < text b := by
  induction l with
  | nil => simp [ComesFirst]
  | cons z l ih =>
    rw [List.pairwise_cons] at hsorted
    have hrest := ih hsorted.2 fun a ha b hb =>
      htotal a (List.mem_cons_of_mem _ ha) b (List.mem_cons_of_mem _ hb)
    simp only [List.exists_mem_cons_iff, List.forall_mem_cons]
    cases hz : next z with
    | none =>
      rw [List.filterMap_cons_none hz, hrest]
      simp
    | some n =>
      rw [List.filterMap_cons_some hz, ComesFirst, hrest]
      by_cases hnx : n = x
      · subst hnx
        refine iff_of_true (.inl rfl) (.inl ⟨rfl, fun h => absurd (Option.some.inj h) hxy, ?_⟩)
        intro b hb hnext
        exact (htotal z List.mem_cons_self b (List.mem_cons_of_mem _ hb) hz hnext).mpr
          (hsorted.1 b hb)
      · by_cases hny : n = y
        · subst hny
          refine iff_of_false (by simp [hnx]) ?_
          rintro (⟨hx, -⟩ | ⟨a, ha, -, hlt, -⟩)
          · exact hnx (Option.some.inj hx)
          · exact hsorted.1 a ha (hlt rfl)
        · simp [hnx, hny]

end First

/-! ## Texts that start with a name -/

section Words

variable {α : Type} [LinearOrder α] (sep : α)

/-- The order of two names in front of their rests. The propositions say whether the texts end
behind the first and behind the second name. -/
def Before (end₁ end₂ : Prop) : List α → List α → Prop
  | [], [] => False
  | [], c :: _ => end₁ ∨ sep < c
  | c :: _, [] => ¬ (end₂ ∨ sep < c)
  | a :: f, b :: g => a < b ∨ a = b ∧ Before end₁ end₂ f g

/-- What may stand behind a name. -/
def IsRest (rest : List α) : Prop := rest = [] ∨ ∃ t, rest = sep :: t

variable {sep}

theorem lt_iff_before {f g rf rg : List α} (hf : sep ∉ f) (hg : sep ∉ g) (hrf : IsRest sep rf)
    (hrg : IsRest sep rg) (hfg : f ≠ g) :
    f ++ rf < g ++ rg ↔ Before sep (rf = []) (rg = []) f g := by
  induction f generalizing g with
  | nil =>
    cases g with
    | nil => exact absurd rfl hfg
    | cons c g =>
      rw [List.mem_cons, not_or] at hg
      rcases hrf with rfl | ⟨t, rfl⟩
      · simp [Before]
      · simp [Before, List.cons_lt_cons_iff, hg.1]
  | cons a f ih =>
    rw [List.mem_cons, not_or] at hf
    cases g with
    | nil =>
      rcases hrg with rfl | ⟨t, rfl⟩
      · simp [Before]
      · have hlt : a < sep ↔ ¬ sep < a := by
          rw [not_lt, le_iff_lt_or_eq]
          exact (or_iff_left (Ne.symm hf.1)).symm
        simp [Before, List.cons_lt_cons_iff, Ne.symm hf.1, hlt]
    | cons b g =>
      rw [List.mem_cons, not_or] at hg
      rw [List.cons_append, List.cons_append, List.cons_lt_cons_iff, Before]
      refine or_congr_right (and_congr_right fun hab => ih hf.2 hg.2 ?_)
      rintro rfl
      exact hfg (by rw [hab])

theorem before_iff_not_before {end₁ end₂ : Prop} {f g : List α} (hfg : f ≠ g) :
    Before sep end₁ end₂ f g ↔ ¬ Before sep end₂ end₁ g f := by
  induction f generalizing g with
  | nil =>
    cases g with
    | nil => exact absurd rfl hfg
    | cons c g => exact not_not.symm
  | cons a f ih =>
    cases g with
    | nil => rfl
    | cons b g =>
      rw [Before, Before]
      rcases lt_trichotomy a b with hab | rfl | hab
      · simp [hab, hab.ne', hab.not_gt]
      · have hrest := ih (g := g) fun h => hfg (by rw [h])
        simp [hrest]
      · simp [hab, hab.ne', hab.not_gt]

/-- The ends of the texts matter only if one name is the start of the other one, and goes on with
a character below the separator there. -/
theorem before_congr_iff {e₁ e₂ e₁' e₂' : Prop} {f g : List α} (hf : sep ∉ f) (hg : sep ∉ g) :
    (Before sep e₁ e₂ f g ↔ Before sep e₁' e₂' f g) ↔
      (∀ c t, g = f ++ c :: t → c < sep → (e₁ ↔ e₁')) ∧
        ∀ c t, f = g ++ c :: t → c < sep → (e₂ ↔ e₂') := by
  induction f generalizing g with
  | nil =>
    cases g with
    | nil => simp [Before]
    | cons c g =>
      rw [List.mem_cons, not_or] at hg
      rcases lt_or_gt_of_ne hg.1 with hlt | hlt
      · simp [Before, hlt, hlt.not_gt]
      · simp [Before, hlt, hlt.not_gt]
  | cons a f ih =>
    rw [List.mem_cons, not_or] at hf
    cases g with
    | nil =>
      rcases lt_or_gt_of_ne hf.1 with hlt | hlt
      · simp [Before, hlt, hlt.not_gt]
      · simp [Before, hlt, hlt.not_gt, not_iff_not]
    | cons b g =>
      rw [List.mem_cons, not_or] at hg
      simp only [Before, List.cons_append, List.cons.injEq, and_imp]
      by_cases hab : a = b
      · subst hab
        simp [ih hf.2 hg.2]
      · simp [hab, Ne.symm hab]

/-- The first of several texts with a name is before all texts with another one. -/
theorem exists_forall_before {σ : Type} {S T ends : σ → Prop} (hS : ∃ a, S a) (hT : ∃ b, T b)
    (f g : List α) :
    (∃ a, S a ∧ ∀ b, T b → Before sep (ends a) (ends b) f g) ↔
      Before sep (∃ a, S a ∧ ends a) (∃ b, T b ∧ ends b) f g := by
  obtain ⟨a₀, ha₀⟩ := hS
  obtain ⟨b₀, hb₀⟩ := hT
  induction f generalizing g with
  | nil =>
    cases g with
    | nil =>
      refine iff_of_false ?_ id
      rintro ⟨a, -, h⟩
      exact h b₀ hb₀
    | cons c g =>
      constructor
      · rintro ⟨a, ha, h⟩
        exact (h b₀ hb₀).imp_left fun hend => ⟨a, ha, hend⟩
      · rintro (⟨a, ha, hend⟩ | hlt)
        · exact ⟨a, ha, fun b _ => .inl hend⟩
        · exact ⟨a₀, ha₀, fun b _ => .inr hlt⟩
  | cons a f ih =>
    cases g with
    | nil =>
      constructor
      · rintro ⟨s, -, h⟩ (⟨b, hb, hend⟩ | hlt)
        · exact h b hb (.inl hend)
        · exact h b₀ hb₀ (.inr hlt)
      · intro h
        refine ⟨a₀, ha₀, fun b hb hor => h (hor.imp_left fun hend => ⟨b, hb, hend⟩)⟩
    | cons b g =>
      constructor
      · rintro ⟨s, hs, h⟩
        rcases h b₀ hb₀ with hlt | ⟨hab, -⟩
        · exact .inl hlt
        · refine .inr ⟨hab, (ih g).mp ⟨s, hs, fun t ht => ?_⟩⟩
          exact ((h t ht).resolve_left (by simp [hab])).2
      · rintro (hlt | ⟨hab, h⟩)
        · exact ⟨a₀, ha₀, fun t _ => .inl hlt⟩
        · obtain ⟨s, hs, h⟩ := (ih g).mpr h
          exact ⟨s, hs, fun t ht => .inr ⟨hab, h t ht⟩⟩

theorem append_lt_append_left_iff (p s t : List α) : p ++ s < p ++ t ↔ s < t := by
  induction p with
  | nil => rfl
  | cons a p ih => simp [ih]

instance decidableBefore (sep : α) (end₁ end₂ : Prop) [Decidable end₁] [Decidable end₂] :
    ∀ f g : List α, Decidable (Before sep end₁ end₂ f g)
  | [], [] => inferInstanceAs (Decidable False)
  | [], _ :: _ => inferInstanceAs (Decidable (_ ∨ _))
  | _ :: _, [] => inferInstanceAs (Decidable (¬ _))
  | _ :: f, _ :: g =>
    have := decidableBefore sep end₁ end₂ f g
    inferInstanceAs (Decidable (_ ∨ _ ∧ _))

section Leads

variable {σ : Type} {l : List σ} {text word rest : σ → List α} {next : σ → Option (List α)}
  {f g w : List α}

/-- Some text with the name `f` leads all texts with the name `g`: no text with `g` has an earlier
first word, and among those with the same first word the names are in order. -/
def Leads (sep : α) (word rest : σ → List α) (next : σ → Option (List α)) (l : List σ)
    (f g : List α) : Prop :=
  ∃ a ∈ l, next a = some f ∧
    (∀ b ∈ l, next b = some g → word b ≠ word a → Before sep False False (word a) (word b)) ∧
    ((∃ b, b ∈ l ∧ word b = word a ∧ next b = some g) →
      Before sep (∃ s, (s ∈ l ∧ word s = word a ∧ next s = some f) ∧ rest s = [])
        (∃ s, (s ∈ l ∧ word s = word a ∧ next s = some g) ∧ rest s = []) f g)

/-- Which of two names comes first in a sorted list of texts. -/
theorem comesFirst_iff_leads {p : List α}
    (htext : ∀ s ∈ l, ∀ f, next s = some f → text s = word s ++ (sep :: p ++ (f ++ rest s)) ∧
      sep ∉ word s ∧ sep ∉ f ∧ IsRest sep (rest s))
    (hsorted : l.Pairwise fun a b => ¬ text b < text a) (hfg : f ≠ g) :
    ComesFirst f g (l.filterMap next) ↔ Leads sep word rest next l f g := by
  -- The order of two texts with different first words, and with the same one.
  have hword : ∀ {f g : List α}, ∀ a ∈ l, ∀ b ∈ l, next a = some f → next b = some g →
      word b ≠ word a → (text a < text b ↔ Before sep False False (word a) (word b)) := by
    intro f g a ha b hb hnext hnext' hne
    obtain ⟨hta, hwa, -⟩ := htext a ha f hnext
    obtain ⟨htb, hwb, -⟩ := htext b hb g hnext'
    rw [hta, htb, List.cons_append, List.cons_append,
      lt_iff_before hwa hwb (.inr ⟨_, rfl⟩) (.inr ⟨_, rfl⟩) (Ne.symm hne)]
    simp
  have hsame : ∀ {f g : List α}, f ≠ g → ∀ a ∈ l, ∀ b ∈ l, next a = some f → next b = some g →
      word b = word a → (text a < text b ↔ Before sep (rest a = []) (rest b = []) f g) := by
    intro f g hfg a ha b hb hnext hnext' heq
    obtain ⟨hta, -, hfa, hra⟩ := htext a ha f hnext
    obtain ⟨htb, -, hgb, hrb⟩ := htext b hb g hnext'
    rw [hta, htb, heq, append_lt_append_left_iff, append_lt_append_left_iff,
      lt_iff_before hfa hgb hra hrb hfg]
  rw [comesFirst_filterMap hsorted hfg]
  · constructor
    · rintro ⟨a, ha, hnext, h⟩
      refine ⟨a, ha, hnext, fun b hb hg hne => (hword a ha b hb hnext hg hne).mp (h b hb hg), ?_⟩
      intro hg
      rw [← exists_forall_before (⟨a, ha, rfl, hnext⟩ : ∃ s, s ∈ l ∧ word s = word a ∧
        next s = some f) hg]
      refine ⟨a, ⟨ha, rfl, hnext⟩, ?_⟩
      rintro b ⟨hb, hw, hgb⟩
      exact (hsame hfg a ha b hb hnext hgb hw).mp (h b hb hgb)
    · rintro ⟨a, ha, hnext, hother, hnames⟩
      by_cases hg : ∃ b, b ∈ l ∧ word b = word a ∧ next b = some g
      · have hbefore := hnames hg
        rw [← exists_forall_before (⟨a, ha, rfl, hnext⟩ : ∃ s, s ∈ l ∧ word s = word a ∧
          next s = some f) hg] at hbefore
        obtain ⟨a', ⟨ha', hw', hnext'⟩, h⟩ := hbefore
        refine ⟨a', ha', hnext', fun b hb hgb => ?_⟩
        by_cases hwb : word b = word a
        · exact (hsame hfg a' ha' b hb hnext' hgb (hwb.trans hw'.symm)).mpr (h b ⟨hb, hwb, hgb⟩)
        · rw [hword a' ha' b hb hnext' hgb (by rwa [hw']), hw']
          exact hother b hb hgb hwb
      · refine ⟨a, ha, hnext, fun b hb hgb => ?_⟩
        have hwb : word b ≠ word a := fun hw => hg ⟨b, hb, hw, hgb⟩
        exact (hword a ha b hb hnext hgb hwb).mpr (hother b hb hgb hwb)
  · intro a ha b hb hnext hnext'
    by_cases hw : word b = word a
    · rw [hsame hfg a ha b hb hnext hnext' hw,
        hsame (Ne.symm hfg) b hb a ha hnext' hnext hw.symm]
      exact before_iff_not_before hfg
    · rw [hword a ha b hb hnext hnext' hw, hword b hb a ha hnext' hnext (Ne.symm hw)]
      exact before_iff_not_before (Ne.symm hw)

/-- If the earliest first word of both names has both, only its texts matter. -/
theorem leads_iff_before (hf : ∃ a, a ∈ l ∧ word a = w ∧ next a = some f)
    (hg : ∃ b, b ∈ l ∧ word b = w ∧ next b = some g)
    (hleast : ∀ s ∈ l, next s = some f ∨ next s = some g → word s ≠ w →
      Before sep False False w (word s)) :
    Leads sep word rest next l f g ↔
      Before sep (∃ s, (s ∈ l ∧ word s = w ∧ next s = some f) ∧ rest s = [])
        (∃ s, (s ∈ l ∧ word s = w ∧ next s = some g) ∧ rest s = []) f g := by
  constructor
  · rintro ⟨a, ha, hnext, hother, hnames⟩
    have hw : word a = w := by
      by_contra hne
      obtain ⟨b, hb, rfl, hgb⟩ := hg
      have hlast := (before_iff_not_before hne).mp (hother b hb hgb (Ne.symm hne))
      exact hlast (hleast a ha (.inl hnext) hne)
    subst hw
    exact hnames hg
  · intro h
    obtain ⟨a, ha, rfl, hnext⟩ := hf
    exact ⟨a, ha, hnext, fun b hb hgb hne => hleast b hb (.inr hgb) hne, fun _ => h⟩

end Leads

end Words

end WordOrder
