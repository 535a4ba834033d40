-- Runs of a system whose parties take labelled steps in any order. A run is
-- the list of its labels, so that a statement about a schedule is one about
-- this list.
import Mathlib.Data.List.Basic

namespace Interleaving

variable {σ α : Type} {step : σ → α → σ → Prop} {s₀ s s' : σ} {acts acts' : List α} {a : α}

/-- The system takes the steps `acts` from `s₀` on and is then in the state. -/
inductive Runs (step : σ → α → σ → Prop) (s₀ : σ) : List α → σ → Prop
  | start : Runs step s₀ [] s₀
  | snoc {acts : List α} {s s' : σ} {a : α} (h : Runs step s₀ acts s) (hstep : step s a s') :
      Runs step s₀ (acts ++ [a]) s'

theorem Runs.append (h : Runs step s₀ acts s) (h' : Runs step s acts' s') :
    Runs step s₀ (acts ++ acts') s' := by
  induction h' with
  | start => rwa [List.append_nil]
  | snoc _ hlast ih =>
    rw [← List.append_assoc]
    exact .snoc ih hlast

/-- The rule for an invariant that the allowed steps keep. -/
theorem Runs.invariant {Inv : σ → Prop} {Allowed : α → Prop} (h : Runs step s₀ acts s)
    (hstart : Inv s₀) (hkeep : ∀ s a s', Inv s → Allowed a → step s a s' → Inv s')
    (hallowed : ∀ a ∈ acts, Allowed a) : Inv s := by
  induction h with
  | start => exact hstart
  | snoc _ hlast ih =>
    rw [List.forall_mem_append] at hallowed
    exact hkeep _ _ _ (ih hallowed.1) (hallowed.2 _ List.mem_cons_self) hlast

/-- Each step of the schedule has the property, with the steps before it. -/
def EachAfter (P : List α → α → Prop) (acts : List α) : Prop :=
  ∀ front a back, acts = front ++ a :: back → P front a

theorem eachAfter_nil {P : List α → α → Prop} : EachAfter P [] := by
  intro front a back h
  simp at h

theorem eachAfter_snoc {P : List α → α → Prop} :
    EachAfter P (acts ++ [a]) ↔ EachAfter P acts ∧ P acts a := by
  constructor
  · intro h
    refine ⟨fun front b back hsplit => ?_, h acts a [] rfl⟩
    exact h front b (back ++ [a]) (by rw [hsplit, List.append_assoc, List.cons_append])
  · rintro ⟨hfront, hlast⟩ front b back hsplit
    rcases List.eq_nil_or_concat back with rfl | ⟨back, c, rfl⟩
    · obtain ⟨rfl, hlabel⟩ := List.append_inj' hsplit rfl
      cases hlabel
      exact hlast
    · rw [List.concat_eq_append, ← List.cons_append, ← List.append_assoc] at hsplit
      exact hfront front b back (List.append_inj' hsplit rfl).1

end Interleaving
