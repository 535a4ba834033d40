-- Event loops. A loop handles one event after another, and it stops at an
-- event that its handler does not get done with.
import Mathlib.Init

/-- A loop over a state `σ`. An event gives an output, and the output has the next state, or
none when the handler hangs. -/
structure EventLoop (σ ε ο : Type) where
  handle : σ → ε → ο
  next : ο → Option σ

namespace EventLoop

variable {σ ε ο : Type} (l : EventLoop σ ε ο)

/-- The outputs of the events that the loop gets to. -/
def run (s : σ) : List ε → List ο
  | [] => []
  | e :: rest =>
    l.handle s e ::
      match l.next (l.handle s e) with
      | some s' => run s' rest
      | none => []

/-- Each event that the loop gets to has the property, with the state that it finds. -/
def Along (P : σ → ε → Prop) (s : σ) : List ε → Prop
  | [] => True
  | e :: rest => P s e ∧ ∀ s', l.next (l.handle s e) = some s' → Along P s' rest

variable {l} {P Fits : σ → ε → Prop} {s : σ} {es : List ε}

/-- An assumption that does not depend on the event goes to the front. -/
theorem along_imp_iff {A : Prop} :
    l.Along (fun s e => A → P s e) s es ↔ (A → l.Along P s es) := by
  induction es generalizing s with
  | nil => simp [Along]
  | cons e rest ih =>
    simp only [Along, ih]
    constructor
    · exact fun h hA => ⟨h.1 hA, fun s' hs' => h.2 s' hs' hA⟩
    · exact fun h => ⟨fun hA => (h hA).1, fun s' hs' hA => (h hA).2 s' hs'⟩

/-- The rule for a run. The invariant holds as long as the events have the property `P`, and
under the invariant an output is good exactly when its event has `P`. Then all outputs of a run
are good exactly when all its events have `P`. -/
theorem forall_run_iff (Inv : σ → Prop) {Good : ο → Prop}
    (hgood : ∀ s e, Inv s → Fits s e → (Good (l.handle s e) ↔ P s e))
    (hnext : ∀ s e s', Inv s → Fits s e → P s e → l.next (l.handle s e) = some s' → Inv s')
    (hinv : Inv s) (hfits : l.Along Fits s es) :
    (∀ out ∈ l.run s es, Good out) ↔ l.Along P s es := by
  induction es generalizing s with
  | nil => simp [run, Along]
  | cons e rest ih =>
    obtain ⟨hfit, hrest⟩ := hfits
    rw [run, List.forall_mem_cons, Along, hgood s e hinv hfit]
    apply and_congr_right
    intro hP
    split
    · rename_i s' hs'
      rw [ih (hnext s e s' hinv hfit hP hs') (hrest s' hs')]
      simp [hs']
    · rename_i hs'
      simp [hs']

end EventLoop
