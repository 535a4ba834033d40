-- A machine for code with labels. Its code is a list of statements, and a
-- jump goes on behind the label it names. Code cut behind its jumps does the
-- same work in every order of the pieces. Assertions at the labels give what
-- holds along every run.
import Mathlib.Data.List.Infix
import Mathlib.Data.List.Nodup
import Mathlib.Data.List.Perm.Basic
import Mathlib.Logic.Relation
import Mathlib.Tactic.Common

namespace LabelMachine

variable {L C I σ : Type}

/-- A statement over labels `L`, conditions `C` and instructions `I`. -/
inductive Stmt (L C I : Type)
  | label (l : L)
  | jmp (l : L)
  | jcc (c : C) (l : L)
  | call (l : L)
  | inst (i : I)
deriving DecidableEq, Repr

variable {J : Type}

namespace Stmt

def defines? : Stmt L C I → Option L
  | .label l => some l
  | _ => none

def target? : Stmt L C I → Option L
  | .jmp l | .jcc _ l | .call l => some l
  | _ => none

/-- A statement does work when it is no label and no plain jump. -/
def works : Stmt L C I → Bool
  | .label _ | .jmp _ => false
  | _ => true

/-- The statement with another instruction in it. -/
def mapInst {J : Type} (f : I → J) : Stmt L C I → Stmt L C J
  | .label l => .label l
  | .jmp l => .jmp l
  | .jcc c l => .jcc c l
  | .call l => .call l
  | .inst i => .inst (f i)

@[simp] theorem defines?_mapInst (f : I → J) (s : Stmt L C I) :
    (s.mapInst f).defines? = s.defines? := by
  cases s <;> rfl

@[simp] theorem target?_mapInst (f : I → J) (s : Stmt L C I) :
    (s.mapInst f).target? = s.target? := by
  cases s <;> rfl

end Stmt

def labels (p : List (Stmt L C I)) : List L := p.filterMap Stmt.defines?

def targets (p : List (Stmt L C I)) : List L := p.filterMap Stmt.target?

/-- The work of code, in the order of its text. -/
def work (p : List (Stmt L C I)) : List (Stmt L C I) := p.filter Stmt.works

@[simp] theorem labels_append (p q : List (Stmt L C I)) :
    labels (p ++ q) = labels p ++ labels q := List.filterMap_append

@[simp] theorem targets_append (p q : List (Stmt L C I)) :
    targets (p ++ q) = targets p ++ targets q := List.filterMap_append

theorem mem_targets {p : List (Stmt L C I)} {l : L} :
    l ∈ targets p ↔ ∃ s ∈ p, s.target? = some l := List.mem_filterMap

theorem mem_labels {p : List (Stmt L C I)} {l : L} : l ∈ labels p ↔ .label l ∈ p := by
  unfold labels
  rw [List.mem_filterMap]
  constructor
  · rintro ⟨s, hs, hl⟩
    cases s with
    | label l' =>
      cases hl
      exact hs
    | _ => cases hl
  · intro h
    exact ⟨_, h, rfl⟩

theorem labels_mapInst (f : I → J) (p : List (Stmt L C I)) :
    labels (p.map (Stmt.mapInst f)) = labels p := by
  unfold labels
  rw [List.filterMap_map]
  exact List.filterMap_congr (fun s _ => s.defines?_mapInst f)

theorem targets_mapInst (f : I → J) (p : List (Stmt L C I)) :
    targets (p.map (Stmt.mapInst f)) = targets p := by
  unfold targets
  rw [List.filterMap_map]
  exact List.filterMap_congr (fun s _ => s.target?_mapInst f)

/-- The code behind the first definition of a label. -/
def after [DecidableEq L] (l : L) : List (Stmt L C I) → Option (List (Stmt L C I))
  | [] => none
  | s :: rest => if s.defines? = some l then some rest else after l rest

theorem after_append [DecidableEq L] {l : L} {a b : List (Stmt L C I)} (h : l ∉ labels a) :
    after l (a ++ .label l :: b) = some b := by
  induction a with
  | nil => exact if_pos rfl
  | cons s a ih =>
    have hs : s.defines? ≠ some l := by
      intro hs
      apply h
      simp [labels, hs]
    rw [List.cons_append, after, if_neg hs]
    apply ih
    intro hl
    apply h
    rw [← List.singleton_append, labels_append]
    exact List.mem_append_right _ hl

/-- In code that defines each label once, a label is where it stands. -/
theorem after_of_nodup [DecidableEq L] {l : L} {p a b : List (Stmt L C I)}
    (hp : (labels p).Nodup) (h : p = a ++ .label l :: b) : after l p = some b := by
  rw [h]
  apply after_append
  rw [h, labels_append] at hp
  intro hl
  exact List.disjoint_of_nodup_append hp hl (by simp [labels, Stmt.defines?])

/-! ## Runs -/

/-- What the work of a statement does to the state, and when a condition holds. -/
structure Machine (L C I σ : Type) where
  act : Stmt L C I → σ → σ
  holds : C → σ → Bool

variable [DecidableEq L]

/-- One step of the code `p`, from the rest of the code and a state. -/
def step (m : Machine L C I σ) (p : List (Stmt L C I)) :
    List (Stmt L C I) × σ → Option (List (Stmt L C I) × σ)
  | ([], _) => none
  | (.label _ :: c, s) => some (c, s)
  | (.jmp l :: _, s) => (after l p).map (·, s)
  | (.jcc k l :: c, s) =>
    if m.holds k s then (after l p).map (·, m.act (.jcc k l) s) else some (c, m.act (.jcc k l) s)
  | (.call l :: c, s) => some (c, m.act (.call l) s)
  | (.inst i :: c, s) => some (c, m.act (.inst i) s)

/-- A run until the rest of the code halts, in at most as many steps as the fuel. -/
def exec (m : Machine L C I σ) (p : List (Stmt L C I)) (halts : List (Stmt L C I) → Bool) :
    ℕ → List (Stmt L C I) → σ → Option σ
  | 0, _, _ => none
  | n + 1, c, s =>
    if halts c then some s else (step m p (c, s)).bind fun t => exec m p halts n t.1 t.2

/-- The code goes through the work `es` until it halts, whichever way its conditions go. -/
inductive Runs (p : List (Stmt L C I)) (halts : List (Stmt L C I) → Bool) :
    List (Stmt L C I) → List (Stmt L C I) → Prop
  | halt {c} : halts c = true → Runs p halts [] c
  | label {es l c} : halts (.label l :: c) = false → Runs p halts es c →
      Runs p halts es (.label l :: c)
  | jmp {es l c c'} : halts (.jmp l :: c) = false → after l p = some c' → Runs p halts es c' →
      Runs p halts es (.jmp l :: c)
  | jcc {es k l c c'} : halts (.jcc k l :: c) = false → after l p = some c' →
      Runs p halts es c' → Runs p halts es c → Runs p halts (.jcc k l :: es) (.jcc k l :: c)
  | call {es l c} : halts (.call l :: c) = false → Runs p halts es c →
      Runs p halts (.call l :: es) (.call l :: c)
  | inst {es i c} : halts (.inst i :: c) = false → Runs p halts es c →
      Runs p halts (.inst i :: es) (.inst i :: c)

variable {halts : List (Stmt L C I) → Bool} {es : List (Stmt L C I)}

theorem exec_succ {m : Machine L C I σ} {p : List (Stmt L C I)} {c c' : List (Stmt L C I)}
    {s s' : σ} (hc : halts c = false) (h : step m p (c, s) = some (c', s')) (n : ℕ) :
    exec m p halts (n + 1) c s = exec m p halts n c' s' := by
  simp [exec, hc, h]

/-- A run goes through instructions one by one. -/
theorem exec_insts {m : Machine L C I σ} {p : List (Stmt L C I)}
    (hgo : ∀ i c, halts (.inst i :: c) = false) (is : List I) (c : List (Stmt L C I)) (s : σ)
    (n : ℕ) :
    exec m p halts (is.length + n) (is.map .inst ++ c) s =
      exec m p halts n c (is.foldl (fun s i => m.act (.inst i) s) s) := by
  induction is generalizing s with
  | nil =>
    rw [List.length_nil, Nat.zero_add]
    rfl
  | cons i is ih =>
    rw [List.length_cons, Nat.succ_add, List.map_cons, List.cons_append,
      exec_succ (hgo _ _) rfl, ih]
    rfl

/-- Every machine takes such a run to its end, and does that work on its state. -/
theorem Runs.exec {p : List (Stmt L C I)} {c : List (Stmt L C I)} (h : Runs p halts es c)
    (m : Machine L C I σ) (s : σ) :
    ∃ n, exec m p halts n c s = some (es.foldl (fun s e => m.act e s) s) := by
  induction h generalizing s with
  | halt hc => exact ⟨1, if_pos hc⟩
  | label hc _ ih =>
    obtain ⟨n, hn⟩ := ih s
    exact ⟨n + 1, (exec_succ hc rfl n).trans hn⟩
  | @jmp es l c c' hc ha _ ih =>
    obtain ⟨n, hn⟩ := ih s
    have hstep : step m p (.jmp l :: c, s) = some (c', s) := by simp [step, ha]
    exact ⟨n + 1, (exec_succ hc hstep n).trans hn⟩
  | @jcc es k l c c' hc ha _ _ ihl ihc =>
    by_cases hk : m.holds k s = true
    · obtain ⟨n, hn⟩ := ihl (m.act (.jcc k l) s)
      have hstep : step m p (.jcc k l :: c, s) = some (c', m.act (.jcc k l) s) := by
        simp [step, ha, hk]
      exact ⟨n + 1, (exec_succ hc hstep n).trans hn⟩
    · obtain ⟨n, hn⟩ := ihc (m.act (.jcc k l) s)
      have hstep : step m p (.jcc k l :: c, s) = some (c, m.act (.jcc k l) s) := by
        simp [step, hk]
      exact ⟨n + 1, (exec_succ hc hstep n).trans hn⟩
  | @call es l c hc _ ih =>
    obtain ⟨n, hn⟩ := ih (m.act (.call l) s)
    exact ⟨n + 1, (exec_succ hc rfl n).trans hn⟩
  | @inst es i c hc _ ih =>
    obtain ⟨n, hn⟩ := ih (m.act (.inst i) s)
    exact ⟨n + 1, (exec_succ hc rfl n).trans hn⟩

/-- The machine that only writes down its work. Its conditions may look at all of it. -/
def recorder (takes : C → List (Stmt L C I) → Bool) : Machine L C I (List (Stmt L C I)) where
  act e done := done ++ [e]
  holds := takes

omit [DecidableEq L] in
theorem foldl_record (takes : C → List (Stmt L C I) → Bool) (es done : List (Stmt L C I)) :
    es.foldl (fun s e => (recorder takes).act e s) done = done ++ es := by
  induction es generalizing done with
  | nil => rw [List.foldl_nil, List.append_nil]
  | cons e es ih =>
    rw [List.foldl_cons, ih]
    simp [recorder]

theorem Runs.record {p : List (Stmt L C I)} {c : List (Stmt L C I)} (h : Runs p halts es c)
    (takes : C → List (Stmt L C I) → Bool) :
    ∃ n, LabelMachine.exec (recorder takes) p halts n c [] = some es := by
  obtain ⟨n, hn⟩ := h.exec (recorder takes) []
  exact ⟨n, by rw [hn, foldl_record, List.nil_append]⟩

/-! ## Assertions at labels -/

/-- The code goes from the first pair to the second in some steps. -/
def Reaches (m : Machine L C I σ) (p : List (Stmt L C I)) :
    List (Stmt L C I) × σ → List (Stmt L C I) × σ → Prop :=
  Relation.ReflTransGen fun a b => step m p a = some b

/-- A run reaches the code behind some instructions. -/
theorem reaches_insts (m : Machine L C I σ) (p : List (Stmt L C I)) (is : List I)
    (c : List (Stmt L C I)) (s : σ) :
    Reaches m p (is.map .inst ++ c, s) (c, is.foldl (fun s i => m.act (.inst i) s) s) := by
  induction is generalizing s with
  | nil => exact .refl
  | cons i is ih => exact (ih (m.act (.inst i) s)).head rfl

/-- The labels of the code, each with the code behind it. -/
def cells : List (Stmt L C I) → List (L × List (Stmt L C I))
  | [] => []
  | .label l :: c => (l, c) :: cells c
  | _ :: c => cells c

/-- What must hold in front of the code: `P` from here on, the assertion of the table `T` at
the next label or jump, and `Q` at the end. -/
def wlp (m : Machine L C I σ) (P : σ → Prop) (T : L → σ → Prop) (Q : σ → Prop) :
    List (Stmt L C I) → σ → Prop
  | [], s => P s ∧ Q s
  | .label l :: _, s => P s ∧ T l s
  | .jmp l :: _, s => P s ∧ T l s
  | .jcc k l :: c, s =>
    P s ∧ if m.holds k s then P (m.act (.jcc k l) s) ∧ T l (m.act (.jcc k l) s)
      else wlp m P T Q c (m.act (.jcc k l) s)
  | .call l :: c, s => P s ∧ wlp m P T Q c (m.act (.call l) s)
  | .inst i :: c, s => P s ∧ wlp m P T Q c (m.act (.inst i) s)

section assertions

variable {m : Machine L C I σ} {p : List (Stmt L C I)} {P Q : σ → Prop} {T : L → σ → Prop}

omit [DecidableEq L] in
theorem mem_cells_of_suffix {l : L} {c : List (Stmt L C I)} (h : .label l :: c <:+ p) :
    (l, c) ∈ cells p := by
  induction p with
  | nil => cases List.suffix_nil.mp h
  | cons s p ih =>
    rcases List.suffix_cons_iff.mp h with h | hp
    · rw [← h]
      exact List.mem_cons_self
    · cases s with
      | label l' => exact List.mem_cons_of_mem _ (ih hp)
      | _ => exact ih hp

theorem suffix_of_after {l : L} {c : List (Stmt L C I)} (h : after l p = some c) :
    .label l :: c <:+ p := by
  induction p with
  | nil => cases h
  | cons s p ih =>
    unfold after at h
    split at h
    · rename_i hs
      cases h
      cases s with
      | label l' =>
        cases hs
        exact List.suffix_rfl
      | _ => cases hs
    · exact (ih h).trans (List.suffix_cons s p)

omit [DecidableEq L] in
theorem holds_of_wlp {c : List (Stmt L C I)} {s : σ} (h : wlp m P T Q c s) : P s := by
  cases c with
  | nil => exact h.1
  | cons st c => cases st <;> exact h.1

/-- The table is right when each of its assertions leads to the next ones. -/
def TableHolds (m : Machine L C I σ) (p : List (Stmt L C I)) (P : σ → Prop) (T : L → σ → Prop)
    (Q : σ → Prop) : Prop :=
  ∀ x ∈ cells p, ∀ s, P s → T x.1 s → wlp m P T Q x.2 s

theorem wlp_step {c c' : List (Stmt L C I)} {s s' : σ} (hT : TableHolds m p P T Q)
    (hc : c <:+ p) (h : wlp m P T Q c s) (hstep : step m p (c, s) = some (c', s')) :
    c' <:+ p ∧ wlp m P T Q c' s' := by
  have hjump (l : L) (t : σ) (hP : P t) (ht : T l t)
      (hl : (after l p).map (·, t) = some (c', s')) : c' <:+ p ∧ wlp m P T Q c' s' := by
    obtain ⟨c'', hafter, heq⟩ := Option.map_eq_some_iff.mp hl
    have hsuffix := suffix_of_after hafter
    have hwlp := hT _ (mem_cells_of_suffix hsuffix) t hP ht
    cases heq
    exact ⟨(List.suffix_cons _ _).trans hsuffix, hwlp⟩
  rcases c with _ | ⟨st, c⟩
  · cases hstep
  · have hrest : c <:+ p := (List.suffix_cons st c).trans hc
    cases st with
    | label l =>
      cases hstep
      exact ⟨hrest, hT _ (mem_cells_of_suffix hc) s h.1 h.2⟩
    | jmp l => exact hjump l s h.1 h.2 hstep
    | jcc k l =>
      obtain ⟨-, h⟩ := h
      by_cases hk : m.holds k s = true
      · rw [if_pos hk] at h
        simp only [step, hk, if_true] at hstep
        exact hjump l _ h.1 h.2 hstep
      · rw [if_neg hk] at h
        simp only [step, hk, if_false, Bool.false_eq_true] at hstep
        cases hstep
        exact ⟨hrest, h⟩
    | call l =>
      cases hstep
      exact ⟨hrest, h.2⟩
    | inst i =>
      cases hstep
      exact ⟨hrest, h.2⟩

/-- A run keeps what its start promises. -/
theorem wlp_reaches {s : σ} {t : List (Stmt L C I) × σ} (hT : TableHolds m p P T Q)
    (h : wlp m P T Q p s) (hr : Reaches m p (p, s) t) : wlp m P T Q t.1 t.2 := by
  have hboth : t.1 <:+ p ∧ wlp m P T Q t.1 t.2 := by
    induction hr with
    | refl => exact ⟨List.suffix_rfl, h⟩
    | tail _ hstep ih => exact wlp_step hT ih.1 ih.2 hstep
  exact hboth.2

/-- The statement keeps the invariant, and the invariant gives the assertion of the label that
it names. -/
def Stmt.Keeps (m : Machine L C I σ) (T : L → σ → Prop) (inv : σ → Prop) : Stmt L C I → Prop
  | .label l | .jmp l => ∀ s, inv s → T l s
  | .jcc k l => ∀ s, inv s → inv (m.act (.jcc k l) s) ∧ T l (m.act (.jcc k l) s)
  | .call l => ∀ s, inv s → inv (m.act (.call l) s)
  | .inst i => ∀ s, inv s → inv (m.act (.inst i) s)

section invariant

variable {inv : σ → Prop} {c d : List (Stmt L C I)}

omit [DecidableEq L] in
theorem wlp_append_of_keeps (hP : ∀ s, inv s → P s) (hc : ∀ st ∈ c, st.Keeps m T inv)
    (hd : ∀ s, inv s → wlp m P T Q d s) {s : σ} (hs : inv s) : wlp m P T Q (c ++ d) s := by
  induction c generalizing s with
  | nil => exact hd s hs
  | cons st c ih =>
    have hst := hc st List.mem_cons_self
    have hrest : ∀ s, inv s → wlp m P T Q (c ++ d) s :=
      fun s hs => ih (fun st h => hc st (List.mem_cons_of_mem _ h)) hs
    cases st with
    | label l => exact ⟨hP s hs, hst s hs⟩
    | jmp l => exact ⟨hP s hs, hst s hs⟩
    | jcc k l =>
      obtain ⟨hinv, htable⟩ := hst s hs
      refine ⟨hP s hs, ?_⟩
      split
      · exact ⟨hP _ hinv, htable⟩
      · exact hrest _ hinv
    | call l => exact ⟨hP s hs, hrest _ (hst s hs)⟩
    | inst i => exact ⟨hP s hs, hrest _ (hst s hs)⟩

omit [DecidableEq L] in
theorem mem_cells_append {x : L × List (Stmt L C I)} (h : x ∈ cells (c ++ d)) :
    (∃ c', .label x.1 :: c' <:+ c ∧ x.2 = c' ++ d) ∨ x ∈ cells d := by
  induction c with
  | nil => exact .inr h
  | cons st c ih =>
    have hlater (h : x ∈ cells (c ++ d)) :
        (∃ c', .label x.1 :: c' <:+ st :: c ∧ x.2 = c' ++ d) ∨ x ∈ cells d := by
      rcases ih h with ⟨c', hsuffix, hx⟩ | hx
      · exact .inl ⟨c', hsuffix.trans (List.suffix_cons st c), hx⟩
      · exact .inr hx
    cases st with
    | label l =>
      rcases List.mem_cons.mp h with rfl | h
      · exact .inl ⟨c, List.suffix_rfl, rfl⟩
      · exact hlater h
    | _ => exact hlater h

omit [DecidableEq L] in
/-- Code that keeps an invariant needs no assertions but the invariant. -/
theorem tableHolds_append (hP : ∀ s, inv s → P s) (hc : ∀ st ∈ c, st.Keeps m T inv)
    (hinv : ∀ l, .label l ∈ c → ∀ s, P s → T l s → inv s)
    (hd : ∀ s, inv s → wlp m P T Q d s) (hT : TableHolds m d P T Q) :
    TableHolds m (c ++ d) P T Q := by
  intro x hx s hs ht
  rcases mem_cells_append hx with ⟨c', hsuffix, hx⟩ | hx
  · have hmem : .label x.1 ∈ c := hsuffix.subset List.mem_cons_self
    have hkeeps : ∀ st ∈ c', st.Keeps m T inv :=
      fun st h => hc st (hsuffix.subset (List.mem_cons_of_mem _ h))
    rw [hx]
    exact wlp_append_of_keeps hP hkeeps hd (hinv x.1 hmem s hs ht)
  · exact hT x hx s hs ht

end invariant

end assertions

/-! ## Straight code -/

/-- Code that runs through its own text: each jump names the label right behind it, and the
last statement jumps to `stop`. -/
inductive Straight (stop : L) : List (Stmt L C I) → Prop
  | stop : Straight stop [.jmp stop]
  | label {l c} : Straight stop c → Straight stop (.label l :: c)
  | jmp {l c} : l ≠ stop → Straight stop (.label l :: c) → Straight stop (.jmp l :: .label l :: c)
  | jcc {k l c} : Straight stop (.label l :: c) → Straight stop (.jcc k l :: .label l :: c)
  | call {l c} : Straight stop c → Straight stop (.call l :: c)
  | inst {i c} : Straight stop c → Straight stop (.inst i :: c)

omit [DecidableEq L] in
/-- The targets of straight code, but for its calls. -/
theorem Straight.mem_targets {stop : L} {c : List (Stmt L C I)} (h : Straight stop c) {l : L}
    (hl : l ∈ targets c) : l ∈ labels c ∨ l = stop ∨ .call l ∈ c := by
  rw [mem_labels]
  obtain ⟨s, hs, htarget⟩ := LabelMachine.mem_targets.mp hl
  clear hl
  have hlift {s' : Stmt L C I} {c' : List (Stmt L C I)}
      (h : .label l ∈ c' ∨ l = stop ∨ .call l ∈ c') :
      .label l ∈ s' :: c' ∨ l = stop ∨ .call l ∈ s' :: c' :=
    h.imp (List.mem_cons_of_mem _) (Or.imp_right (List.mem_cons_of_mem _))
  induction h with
  | stop =>
    rw [List.mem_singleton.mp hs] at htarget
    cases htarget
    exact .inr (.inl rfl)
  | label _ ih =>
    rcases List.mem_cons.mp hs with rfl | hs
    · cases htarget
    · exact hlift (ih hs)
  | jmp _ _ ih =>
    rcases List.mem_cons.mp hs with rfl | hs
    · cases htarget
      exact .inl (List.mem_cons_of_mem _ List.mem_cons_self)
    · exact hlift (ih hs)
  | jcc _ ih =>
    rcases List.mem_cons.mp hs with rfl | hs
    · cases htarget
      exact .inl (List.mem_cons_of_mem _ List.mem_cons_self)
    · exact hlift (ih hs)
  | call _ ih =>
    rcases List.mem_cons.mp hs with rfl | hs
    · cases htarget
      exact .inr (.inr List.mem_cons_self)
    · exact hlift (ih hs)
  | inst _ ih =>
    rcases List.mem_cons.mp hs with rfl | hs
    · cases htarget
    · exact hlift (ih hs)

/-- The next statement jumps to `stop`. -/
def atJmp (stop : L) : List (Stmt L C I) → Bool
  | .jmp l :: _ => l = stop
  | _ => false

def EndsInJmp (c : List (Stmt L C I)) : Prop := ∃ c' l, c = c' ++ [.jmp l]

omit [DecidableEq L] in
theorem EndsInJmp.ne_nil {c : List (Stmt L C I)} (h : EndsInJmp c) : c ≠ [] := by
  obtain ⟨c', l, rfl⟩ := h
  simp

omit [DecidableEq L] in
theorem EndsInJmp.of_cons {s : Stmt L C I} {c : List (Stmt L C I)} (h : EndsInJmp (s :: c))
    (hs : (∀ l, s ≠ .jmp l) ∨ c ≠ []) : EndsInJmp c := by
  obtain ⟨c', l, h⟩ := h
  rcases List.append_eq_cons_iff.mp h.symm with ⟨rfl, hl⟩ | ⟨c'', rfl, hl⟩
  · simp only [List.cons.injEq] at hl
    rcases hs with hs | hs
    · exact absurd hl.1.symm (hs l)
    · exact absurd hl.2.symm hs
  · exact ⟨c'', l, hl⟩

/-- The rest `r` of one piece stands in `p` in front of `b`, and the pieces `ps` stand
somewhere in `p`. -/
structure Placed (p r : List (Stmt L C I)) (ps : List (List (Stmt L C I)))
    (b : List (Stmt L C I)) : Prop where
  ends : EndsInJmp r
  here : r ++ b <:+ p
  others : ∀ q ∈ ps, EndsInJmp q ∧ q <:+: p

section pieces

variable {p b : List (Stmt L C I)} {ps : List (List (Stmt L C I))}
  {halts : List (Stmt L C I) → Bool} {stop : L}

omit [DecidableEq L] in
theorem Placed.of_cons {s : Stmt L C I} {r : List (Stmt L C I)} (h : Placed p (s :: r) ps b)
    (hs : (∀ l, s ≠ .jmp l) ∨ r ≠ []) : Placed p r ps b :=
  ⟨h.ends.of_cons hs, (List.suffix_cons s (r ++ b)).trans h.here, h.others⟩

omit [DecidableEq L] in
theorem Placed.next {r q : List (Stmt L C I)} (h : Placed p r (q :: ps) b) :
    ∃ b', Placed p q ps b' := by
  obtain ⟨hq, a, b', hp⟩ := h.others q List.mem_cons_self
  refine ⟨b', hq, ⟨a, ?_⟩, fun q' hq' => h.others q' (List.mem_cons_of_mem _ hq')⟩
  rw [← hp, List.append_assoc]

omit [DecidableEq L] in
theorem Placed.head {s : Stmt L C I} {c r : List (Stmt L C I)} (h : Placed p r ps b)
    (htext : s :: c = r ++ ps.flatten) : ∃ r', r = s :: r' ∧ c = r' ++ ps.flatten := by
  obtain ⟨s', r', rfl⟩ := List.exists_cons_of_ne_nil h.ends.ne_nil
  obtain ⟨rfl, hc⟩ := List.cons.inj htext
  exact ⟨r', rfl, hc⟩

omit [DecidableEq L] in
/-- The label behind a jump is in the same piece, or at the head of the next one. -/
theorem Placed.label_next {l : L} {c r : List (Stmt L C I)} (h : Placed p (.jmp l :: r) ps b)
    (htext : .label l :: c = r ++ ps.flatten) :
    ∃ r' ps' b', .label l :: c = (.label l :: r') ++ ps'.flatten ∧
      Placed p (.label l :: r') ps' b' := by
  rcases r with _ | ⟨s, r⟩
  · rcases ps with _ | ⟨q, ps⟩
    · cases htext
    · obtain ⟨b', hq⟩ := h.next
      rw [List.flatten_cons, List.nil_append] at htext
      obtain ⟨q, rfl, -⟩ := hq.head htext
      exact ⟨q, ps, b', htext, hq⟩
  · have hr : Placed p (s :: r) ps b := h.of_cons (.inr (by simp))
    obtain ⟨rfl, -⟩ := List.cons.inj htext
    exact ⟨r, ps, b, htext, hr⟩

theorem Placed.after {l : L} {r : List (Stmt L C I)} (h : Placed p (.label l :: r) ps b)
    (hp : (labels p).Nodup) : after l p = some (r ++ b) := by
  obtain ⟨a, ha⟩ := h.here
  exact after_of_nodup hp ha.symm

theorem Runs.behind_label {c : List (Stmt L C I)} {l : L} (h : Runs p halts es (.label l :: c))
    (hc : halts (.label l :: c) = false) : Runs p halts es c := by
  cases h with
  | halt ht =>
    rw [hc] at ht
    cases ht
  | label _ h => exact h

/-- Wherever the pieces of straight code stand in `p`, the run goes through them in the
order of the text. -/
theorem Straight.runs (hp : (labels p).Nodup)
    (hgo : ∀ s c, s ≠ .jmp stop → halts (s :: c) = false)
    (hend : ∀ c, Runs p halts [] (.jmp stop :: c))
    {text : List (Stmt L C I)} (hs : Straight stop text) (r : List (Stmt L C I))
    (ps : List (List (Stmt L C I))) (b : List (Stmt L C I)) (htext : text = r ++ ps.flatten)
    (hr : Placed p r ps b) : Runs p halts (work text) (r ++ b) := by
  induction hs generalizing r ps b with
  | stop =>
    obtain ⟨r, rfl, -⟩ := hr.head htext
    exact hend _
  | label _ ih =>
    obtain ⟨r, rfl, hrest⟩ := hr.head htext
    apply Runs.label (hgo _ _ (by simp))
    exact ih r ps b hrest (hr.of_cons (.inl (by simp)))
  | @jmp l c hl _ ih =>
    obtain ⟨r, rfl, hrest⟩ := hr.head htext
    obtain ⟨r', ps', b', htext', hr'⟩ := hr.label_next hrest
    have hrun := ih _ ps' b' htext' hr'
    exact Runs.jmp (hgo _ _ (by simp [hl])) (hr'.after hp)
      (hrun.behind_label (hgo _ _ (by simp)))
  | @jcc k l c _ ih =>
    obtain ⟨r, rfl, hrest⟩ := hr.head htext
    have hr' : Placed p r ps b := hr.of_cons (.inl (by simp))
    obtain ⟨r, rfl, -⟩ := hr'.head hrest
    have hrun := ih _ ps b hrest hr'
    exact Runs.jcc (hgo _ _ (by simp)) (hr'.after hp)
      (hrun.behind_label (hgo _ _ (by simp))) hrun
  | call _ ih =>
    obtain ⟨r, rfl, hrest⟩ := hr.head htext
    apply Runs.call (hgo _ _ (by simp))
    exact ih r ps b hrest (hr.of_cons (.inl (by simp)))
  | inst _ ih =>
    obtain ⟨r, rfl, hrest⟩ := hr.head htext
    apply Runs.inst (hgo _ _ (by simp))
    exact ih r ps b hrest (hr.of_cons (.inl (by simp)))

/-- Straight code runs through its own text. -/
theorem Straight.runs_text {text : List (Stmt L C I)} (hs : Straight stop text)
    (htext : (labels text).Nodup) (hends : EndsInJmp text) :
    Runs text (atJmp stop) (work text) text := by
  have hgo (s : Stmt L C I) (c : List (Stmt L C I)) (hsc : s ≠ .jmp stop) :
      atJmp stop (s :: c) = false := by
    cases s with
    | jmp l => simpa [atJmp] using hsc
    | _ => rfl
  have hend (c : List (Stmt L C I)) : Runs text (atJmp stop) [] (.jmp stop :: c) :=
    Runs.halt (by simp [atJmp])
  have hplaced : Placed text text [] [] := ⟨hends, by simp, by simp⟩
  simpa using hs.runs htext hgo hend text [] [] (by simp) hplaced

/-- The pieces of straight code, in any order between a jump to its start and the label of
its end, do the work of the text. -/
theorem Straight.runs_pieces {start : L} {c : List (Stmt L C I)}
    {pieces shuffled : List (List (Stmt L C I))} (hs : Straight stop (.label start :: c))
    (hc : (labels (.label start :: c)).Nodup) (hstop : stop ∉ labels (.label start :: c))
    (hpieces : pieces.flatten = .label start :: c) (hends : ∀ q ∈ pieces, EndsInJmp q)
    (hperm : shuffled.Perm pieces) :
    Runs (.jmp start :: (shuffled.flatten ++ [.label stop])) List.isEmpty
      (work (.label start :: c)) (.jmp start :: (shuffled.flatten ++ [.label stop])) := by
  generalize hp : (.jmp start :: (shuffled.flatten ++ [.label stop]) : List (Stmt L C I)) = p
  have hlabels : (labels shuffled.flatten).Perm (labels (.label start :: c)) := by
    rw [← hpieces]
    exact hperm.flatten.filterMap _
  have hnodup : (labels p).Nodup := by
    rw [← hp, ← List.singleton_append, labels_append, labels_append]
    apply List.Nodup.append (hlabels.nodup_iff.mpr hc) (by simp [labels, Stmt.defines?])
    intro l hl hl'
    obtain rfl : l = stop := by simpa [labels, Stmt.defines?] using hl'
    exact hstop (hlabels.subset hl)
  have hstops : after stop p = some [] :=
    after_of_nodup hnodup (hp.symm.trans (List.cons_append ..).symm)
  have hend (c : List (Stmt L C I)) : Runs p List.isEmpty [] (.jmp stop :: c) :=
    Runs.jmp rfl hstops (Runs.halt rfl)
  have hplaced (q : List (Stmt L C I)) (hq : q ∈ pieces) : EndsInJmp q ∧ q <:+: p := by
    refine ⟨hends q hq, (List.infix_of_mem_flatten (hperm.mem_iff.mpr hq)).trans ?_⟩
    exact ⟨[.jmp start], [.label stop], by rw [← hp]; rfl⟩
  have hfirst : Placed p [.jmp start] pieces (shuffled.flatten ++ [.label stop]) :=
    ⟨⟨[], start, rfl⟩, by rw [← hp]; exact List.suffix_rfl, hplaced⟩
  obtain ⟨r, ps, b, htext, hr⟩ := hfirst.label_next hpieces.symm
  have hrun := hs.runs hnodup (fun _ _ _ => rfl) hend _ ps b htext hr
  rw [← hp]
  exact Runs.jmp rfl (hp ▸ hr.after hnodup) (hp ▸ hrun.behind_label rfl)

end pieces
end LabelMachine
