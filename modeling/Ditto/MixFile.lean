-- The mix file (`__parse_imix_file`): a machine over its lines that counts the
-- instructions of the chosen threads. The runs for two sets of threads and for
-- their union differ only in the sections that they leave out.
import Ditto.InstMix
import Ditto.Lib.Mass
import Ditto.Lib.PyText
import Mathlib.Data.List.TakeWhile

open PyText

namespace ditto.inst_mix_analyzer

/-! ## The patterns -/

/-- The line up to where `$` matches. -/
def chomp (line : List Char) : List Char :=
  if line.getLast? = some '\n' then line.dropLast else line

/-- The white space of `\s`. -/
def isBlank (c : Char) : Bool := isSpace c || (0x1c ≤ c.toNat && c.toNat ≤ 0x1f)

/-- The value of a text that matches `\d+`. It is a list without a match that has no first item. -/
def digits_value (text : List Char) : Except PyError ℕ :=
  if text ≠ [] ∧ text.all (fun c => (decimal? c).isSome) then natural text
  else .error .indexError

/-- The model of `int(tid_line_pattern.findall(line)[0])`, for the pattern `^# TID (\d+)$`. -/
def tid_of (line : List Char) : Except PyError ℕ :=
  if "# TID ".toList.isPrefixOf line then digits_value ((chomp line).drop 6)
  else .error .indexError

/-- The characters `[a-zA-Z0-9-_]`. -/
def isNameChar (c : Char) : Bool := c.isAlphanum || c = '-' || c = '_'

/-- The match of `^(\*?[a-zA-Z0-9-_]+)`. -/
def imix_of (line : List Char) : Option String :=
  let star := if line.head? = some '*' then ['*'] else []
  let name := (line.drop star.length).takeWhile isNameChar
  if name = [] then none else some (String.ofList (star ++ name))

/-- The model of `int(imix_line_count_pattern.findall(line)[0])`, for `^\S*\s*(\d+)$`. Without
white space, `\S*` gives back the last character only. -/
def count_of (line : List Char) : Except PyError ℕ :=
  let text := chomp line
  let rest := text.dropWhile fun c => !isBlank c
  if rest = [] then digits_value text.getLast?.toList else digits_value (rest.dropWhile isBlank)

/-! ## The machine -/

inductive Phase
  | idle | get_tid | parse | omit
deriving DecidableEq

/-- One turn of the loop over the lines. The thread of a section is read where it is compared. -/
def parse_line (tids : List ℤ) : Phase × ImixHist → List Char → Except PyError (Phase × ImixHist)
  | (.idle, imix_hist), line =>
    .ok (if isIn "$dynamic-counts".toList line then .get_tid else .idle, imix_hist)
  | (.get_tid, imix_hist), line =>
    if isIn "# TID ".toList line then do
      let curr_tid ← tid_of line
      if tids ≠ [] ∧ (curr_tid : ℤ) ∉ tids then return (.omit, imix_hist)
      else return (.parse, imix_hist)
    else .ok (.get_tid, imix_hist)
  | (.parse, imix_hist), line =>
    match imix_of line with
    | some imix => do
      let count ← count_of line
      return (.parse, imix_hist.set imix ((imix_hist.get? imix).getD 0 + count))
    | none => .ok (if isIn "# END_DYNAMIC_STATS".toList line then .idle else .parse, imix_hist)
  | (.omit, imix_hist), line =>
    .ok (if isIn "# END_DYNAMIC_STATS".toList line then .idle else .omit, imix_hist)

def parse_lines (tids : List ℤ) (st : Phase × ImixHist) (lines : List (List Char)) :
    Except PyError (Phase × ImixHist) := lines.foldlM (parse_line tids) st

/-- The model of `__parse_imix_file`. -/
def parse_imix_file (imix_file_lines : List (List Char)) (tids : List ℤ) :
    Except PyError ImixHist := do
  let (_, imix_hist) ← parse_lines tids (.idle, .empty) imix_file_lines
  return imix_hist

/-! ## What a line does -/

/-- What a line does in a phase: the next phase, and what is added. -/
def effect (tids : List ℤ) : Phase → List Char → Except PyError (Phase × Option (String × ℕ))
  | .idle, line => .ok (if isIn "$dynamic-counts".toList line then .get_tid else .idle, none)
  | .get_tid, line =>
    if isIn "# TID ".toList line then do
      let curr_tid ← tid_of line
      return (if tids ≠ [] ∧ (curr_tid : ℤ) ∉ tids then .omit else .parse, none)
    else .ok (.get_tid, none)
  | .parse, line =>
    match imix_of line with
    | some imix => do
      let count ← count_of line
      return (.parse, some (imix, count))
    | none => .ok (if isIn "# END_DYNAMIC_STATS".toList line then .idle else .parse, none)
  | .omit, line => .ok (if isIn "# END_DYNAMIC_STATS".toList line then .idle else .omit, none)

/-- The histogram with what a line adds. -/
def record (imix_hist : ImixHist) : Option (String × ℕ) → ImixHist
  | none => imix_hist
  | some (imix, count) => imix_hist.add imix count

/-- A line does the same to every histogram. -/
theorem parse_line_eq (tids : List ℤ) (phase : Phase) (hist : ImixHist) (line : List Char) :
    parse_line tids (phase, hist) line =
      (effect tids phase line).map fun e => (e.1, record hist e.2) := by
  cases phase with
  | idle => rfl
  | get_tid =>
    simp only [parse_line, effect]
    split
    · cases tid_of line with
      | error err => rfl
      | ok curr_tid =>
        change (if _ then _ else _) = Except.ok (if _ then _ else _, hist)
        split
        · rfl
        · rfl
    · rfl
  | parse =>
    simp only [parse_line, effect]
    cases imix_of line with
    | none => rfl
    | some imix =>
      cases count_of line with
      | error err => rfl
      | ok count => rfl
  | «omit» => rfl

variable {added : Option (String × ℕ)} {d₁ : ImixHist}

section Lines

variable {tids : List ℤ} {phase phase' : Phase} {hist hist' : ImixHist} {line : List Char}

theorem parse_line_of_effect (h : effect tids phase line = .ok (phase', added)) (hist : ImixHist) :
    parse_line tids (phase, hist) line = .ok (phase', record hist added) := by
  rw [parse_line_eq, h]
  rfl

theorem effect_of_parse_line (h : parse_line tids (phase, hist) line = .ok (phase', hist')) :
    ∃ added, effect tids phase line = .ok (phase', added) ∧ hist' = record hist added := by
  rw [parse_line_eq] at h
  cases heffect : effect tids phase line with
  | error err =>
    rw [heffect] at h
    cases h
  | ok e =>
    rw [heffect] at h
    cases h
    exact ⟨e.2, rfl, rfl⟩

theorem record_isSum {d d₂ : ImixHist} (h : d.IsSum d₁ d₂) (added : Option (String × ℕ)) :
    (record d added).IsSum (record d₁ added) d₂ := by
  cases added with
  | none => exact h
  | some entry => exact h.add_left entry.1 entry.2

/-! ## The end of a section -/

/-- A line with a count has nothing but digits behind its white space. -/
theorem digit_of_count {n : ℕ} (h : count_of line = .ok n) :
    ∀ c ∈ (chomp line).dropWhile (fun c => !isBlank c),
      isBlank c = true ∨ (decimal? c).isSome = true := by
  intro c hc
  unfold count_of at h
  simp only at h
  generalize (chomp line).dropWhile (fun c => !isBlank c) = rest at h hc
  split at h
  · rename_i hnil
    rw [hnil] at hc
    cases hc
  · unfold digits_value at h
    split at h
    · rename_i hdigits
      rw [← List.takeWhile_append_dropWhile (p := isBlank) (l := rest), List.mem_append] at hc
      rcases hc with hblank | hdigit
      · exact .inl (List.mem_takeWhile_imp hblank)
      · exact .inr (List.all_eq_true.mp hdigits.2 c hdigit)
    · cases h

/-- The mark of the end of a section is in front of the line end. -/
theorem isIn_chomp (h : isIn "# END_DYNAMIC_STATS".toList line = true) :
    isIn "# END_DYNAMIC_STATS".toList (chomp line) = true := by
  unfold chomp
  split
  · rename_i hlast
    obtain ⟨before, behind, rfl⟩ := isIn_iff.mp h
    cases hbehind : behind.reverse with
    | nil =>
      rw [List.reverse_eq_nil_iff] at hbehind
      subst hbehind
      rw [List.append_nil, List.getLast?_append_of_ne_nil _ (by decide)] at hlast
      exact absurd hlast (by decide)
    | cons c behind' =>
      rw [List.reverse_eq_cons_iff] at hbehind
      subst hbehind
      rw [← List.append_assoc, List.dropLast_concat]
      exact isIn_iff.mpr ⟨before, behind'.reverse, rfl⟩
  · exact h

theorem mem_dropWhile_of_append {p : Char → Bool} {c x : Char} {s t : List Char}
    (hc : p c = false) (hx : x ∈ t) : x ∈ (s ++ c :: t).dropWhile p := by
  rw [List.dropWhile_append]
  split
  · rw [List.dropWhile_cons_of_neg (by simp [hc])]
    exact List.mem_cons_of_mem _ hx
  · exact List.mem_append_right _ (List.mem_cons_of_mem _ hx)

/-- The last line of a section has no count. -/
theorem not_end_of_count {n : ℕ} (h : count_of line = .ok n) :
    isIn "# END_DYNAMIC_STATS".toList line = false := by
  by_contra hend
  obtain ⟨before, behind, hline⟩ := isIn_iff.mp (isIn_chomp (Bool.not_eq_false _ ▸ hend))
  have hmem : 'E' ∈ (chomp line).dropWhile fun c => !isBlank c := by
    have hsplit : chomp line = before ++ ['#'] ++ ' ' :: ("END_DYNAMIC_STATS".toList ++ behind) := by
      rw [← hline]
      simp
    rw [hsplit]
    exact mem_dropWhile_of_append (by decide) (List.mem_append_left _ (by decide))
  rcases digit_of_count h 'E' hmem with hblank | hdigit
  · exact absurd hblank (by decide)
  · exact absurd hdigit (by decide)

end Lines

/-! ## Three runs at once -/

/-- The phases of the runs for the union of two sets of threads and for each of them: the same one
outside of a section that is counted, and in it one of the two counts. -/
inductive InStep : Phase → Phase → Phase → Prop
  | same (phase : Phase) (h : phase ≠ .parse) : InStep phase phase phase
  | left : InStep .parse .parse .omit
  | right : InStep .parse .omit .parse

variable {phase phase₁ phase₂ : Phase}

theorem InStep.symm (h : InStep phase phase₁ phase₂) : InStep phase phase₂ phase₁ := by
  cases h with
  | same phase h => exact .same phase h
  | left => exact .right
  | right => exact .left

section Runs

variable {tids tids₁ tids₂ : List ℤ}

variable {phase' : Phase}

/-- A line of a section that the first of the two sets counts. -/
theorem step_left (tids₁ tids₂ : List ℤ) {line : List Char}
    (h : effect tids .parse line = .ok (phase', added)) :
    ∃ phase₂, effect tids₁ .parse line = .ok (phase', added) ∧
      effect tids₂ .omit line = .ok (phase₂, none) ∧ InStep phase' phase' phase₂ := by
  simp only [effect] at h ⊢
  cases himix : imix_of line with
  | none =>
    rw [himix] at h
    cases h
    refine ⟨_, rfl, rfl, ?_⟩
    split
    · exact .same .idle (by decide)
    · exact .left
  | some imix =>
    rw [himix] at h
    obtain ⟨count, hcount, h⟩ := PyError.ok_of_bind h
    cases h
    -- A line that is counted does not end the section for the other set.
    rw [hcount, not_end_of_count hcount]
    exact ⟨_, rfl, rfl, .left⟩

/-- The first line with a thread decides which of the two sets counts the section. -/
theorem step_tid (hne₁ : tids₁ ≠ []) (hne₂ : tids₂ ≠ []) (hdisjoint : ∀ tid ∈ tids₁, tid ∉ tids₂)
    (hunion : ∀ tid, tid ∈ tids ↔ tid ∈ tids₁ ∨ tid ∈ tids₂) {line : List Char}
    (h : effect tids .get_tid line = .ok (phase', added)) :
    ∃ phase₁ phase₂, effect tids₁ .get_tid line = .ok (phase₁, none) ∧
      effect tids₂ .get_tid line = .ok (phase₂, none) ∧ added = none ∧
      InStep phase' phase₁ phase₂ := by
  have hne : tids ≠ [] := by
    obtain ⟨tid, htid⟩ := List.exists_mem_of_ne_nil _ hne₁
    exact List.ne_nil_of_mem ((hunion tid).mpr (.inl htid))
  simp only [effect] at h ⊢
  split at h
  · rename_i htid
    obtain ⟨curr_tid, hcurr, h⟩ := PyError.ok_of_bind h
    cases h
    rw [if_pos htid, if_pos htid, hcurr]
    refine ⟨_, _, rfl, rfl, rfl, ?_⟩
    simp only [hne, hne₁, hne₂, hunion, ne_eq, not_false_eq_true, true_and, not_or]
    by_cases h₁ : (curr_tid : ℤ) ∈ tids₁
    · have h₂ := hdisjoint _ h₁
      simp only [h₁, h₂, not_true_eq_false, false_and, if_false, not_false_eq_true, if_true]
      exact .left
    · by_cases h₂ : (curr_tid : ℤ) ∈ tids₂
      · simp only [h₁, h₂, not_true_eq_false, and_false, if_false, not_false_eq_true, if_true]
        exact .right
      · simp only [h₁, h₂, not_false_eq_true, and_self, if_true]
        exact .same .omit (by decide)
  · rename_i htid
    cases h
    rw [if_neg htid, if_neg htid]
    exact ⟨_, _, rfl, rfl, rfl, .same .get_tid (by decide)⟩

/-- One line keeps the three runs in step, and one of the two parts adds what the union adds. -/
theorem step_inStep (hne₁ : tids₁ ≠ []) (hne₂ : tids₂ ≠ []) (hdisjoint : ∀ tid ∈ tids₁, tid ∉ tids₂)
    (hunion : ∀ tid, tid ∈ tids ↔ tid ∈ tids₁ ∨ tid ∈ tids₂) (hstep : InStep phase phase₁ phase₂)
    {line : List Char} (h : effect tids phase line = .ok (phase', added)) :
    ∃ phase₁' phase₂' added₁ added₂, effect tids₁ phase₁ line = .ok (phase₁', added₁) ∧
      effect tids₂ phase₂ line = .ok (phase₂', added₂) ∧ InStep phase' phase₁' phase₂' ∧
      (added₁ = added ∧ added₂ = none ∨ added₁ = none ∧ added₂ = added) := by
  cases hstep with
  | same _ hphase =>
    cases phase with
    | idle =>
      simp only [effect] at h ⊢
      cases h
      refine ⟨_, _, _, _, rfl, rfl, .same _ ?_, .inl ⟨rfl, rfl⟩⟩
      split <;> decide
    | get_tid =>
      obtain ⟨phase₁', phase₂', h₁, h₂, rfl, hstep⟩ := step_tid hne₁ hne₂ hdisjoint hunion h
      exact ⟨_, _, _, _, h₁, h₂, hstep, .inl ⟨rfl, rfl⟩⟩
    | parse => exact absurd rfl hphase
    | «omit» =>
      simp only [effect] at h ⊢
      cases h
      refine ⟨_, _, _, _, rfl, rfl, .same _ ?_, .inl ⟨rfl, rfl⟩⟩
      split <;> decide
  | left =>
    obtain ⟨phase₂', h₁, h₂, hstep⟩ := step_left tids₁ tids₂ h
    exact ⟨_, _, _, _, h₁, h₂, hstep, .inl ⟨rfl, rfl⟩⟩
  | right =>
    obtain ⟨phase₁', h₂, h₁, hstep⟩ := step_left tids₂ tids₁ h
    exact ⟨_, _, _, _, h₁, h₂, hstep.symm, .inr ⟨rfl, rfl⟩⟩

/-- Whole runs stay in step, and the histogram of the union stays the sum of the two others. -/
theorem run_inStep (hne₁ : tids₁ ≠ []) (hne₂ : tids₂ ≠ []) (hdisjoint : ∀ tid ∈ tids₁, tid ∉ tids₂)
    (hunion : ∀ tid, tid ∈ tids ↔ tid ∈ tids₁ ∨ tid ∈ tids₂) {lines : List (List Char)}
    {d d₂ d' : ImixHist} (hstep : InStep phase phase₁ phase₂) (hsum : d.IsSum d₁ d₂)
    (h : parse_lines tids (phase, d) lines = .ok (phase', d')) :
    ∃ phase₁' phase₂' d₁' d₂', parse_lines tids₁ (phase₁, d₁) lines = .ok (phase₁', d₁') ∧
      parse_lines tids₂ (phase₂, d₂) lines = .ok (phase₂', d₂') ∧ d'.IsSum d₁' d₂' := by
  unfold parse_lines at h ⊢
  induction lines generalizing phase phase₁ phase₂ d d₁ d₂ with
  | nil =>
    cases h
    exact ⟨_, _, _, _, rfl, rfl, hsum⟩
  | cons line lines ih =>
    simp only [List.foldlM_cons] at h ⊢
    obtain ⟨⟨mid, dmid⟩, hmid, h⟩ := PyError.ok_of_bind h
    obtain ⟨added, heffect, rfl⟩ := effect_of_parse_line hmid
    obtain ⟨mid₁, mid₂, added₁, added₂, h₁, h₂, hstep', hadded⟩ :=
      step_inStep hne₁ hne₂ hdisjoint hunion hstep heffect
    rw [parse_line_of_effect h₁, parse_line_of_effect h₂]
    refine ih hstep' ?_ h
    rcases hadded with ⟨rfl, rfl⟩ | ⟨rfl, rfl⟩
    · exact record_isSum hsum _
    · exact (record_isSum hsum.symm _).symm

/-! ## Two sections in a row -/

/-- A run does not look at the histogram that it starts with, and adds to it. -/
theorem run_isSum {lines : List (List Char)} {d₁' : ImixHist}
    (h : parse_lines tids (phase, d₁) lines = .ok (phase', d₁')) (d₂ : ImixHist) :
    ∃ d₂', parse_lines tids (phase, d₂) lines = .ok (phase', d₂') ∧
      ∀ e, (d₁.IsSum d₂ e → d₁'.IsSum d₂' e) ∧ (d₂.IsSum d₁ e → d₂'.IsSum d₁' e) := by
  unfold parse_lines at h ⊢
  induction lines generalizing phase d₁ d₂ with
  | nil =>
    cases h
    exact ⟨d₂, rfl, fun e => ⟨id, id⟩⟩
  | cons line lines ih =>
    simp only [List.foldlM_cons] at h ⊢
    obtain ⟨⟨mid, dmid⟩, hmid, h⟩ := PyError.ok_of_bind h
    obtain ⟨added, heffect, rfl⟩ := effect_of_parse_line hmid
    rw [parse_line_of_effect heffect]
    obtain ⟨d₂', hrun, hsum⟩ := ih h (record d₂ added)
    refine ⟨d₂', hrun, fun e => ⟨fun hd => ?_, fun hd => ?_⟩⟩
    · exact (hsum e).1 (record_isSum hd added)
    · exact (hsum e).2 (record_isSum hd added)

theorem parse_imix_file_eq_ok {lines : List (List Char)} {hist : ImixHist} :
    parse_imix_file lines tids = .ok hist ↔
      ∃ phase, parse_lines tids (.idle, .empty) lines = .ok (phase, hist) := by
  unfold parse_imix_file
  constructor
  · intro h
    obtain ⟨⟨phase, hist'⟩, hrun, h⟩ := PyError.ok_of_bind h
    cases h
    exact ⟨phase, hrun⟩
  · rintro ⟨phase, hrun⟩
    rw [hrun]
    rfl

theorem parse_lines_append {st st' : Phase × ImixHist} {lines₁ : List (List Char)}
    (h : parse_lines tids st lines₁ = .ok st') (lines₂ : List (List Char)) :
    parse_lines tids st (lines₁ ++ lines₂) = parse_lines tids st' lines₂ := by
  unfold parse_lines at h ⊢
  rw [List.foldlM_append, h]
  rfl

end Runs

/-! ## The law -/

/-- The histogram for two disjoint sets of threads is the sum of the histograms for each of them.
The histogram of two texts, the first of which ends outside of a section, is the sum of theirs. -/
theorem parsing_is_additive :
    (∀ (lines : List (List Char)) (tids tids₁ tids₂ : List ℤ), tids₁ ≠ [] → tids₂ ≠ [] →
      (∀ tid ∈ tids₁, tid ∉ tids₂) → (∀ tid, tid ∈ tids ↔ tid ∈ tids₁ ∨ tid ∈ tids₂) →
      ∀ hist, parse_imix_file lines tids = .ok hist →
        ∃ hist₁ hist₂, parse_imix_file lines tids₁ = .ok hist₁ ∧
          parse_imix_file lines tids₂ = .ok hist₂ ∧ hist.IsSum hist₁ hist₂) ∧
    ∀ (lines₁ lines₂ : List (List Char)) (tids : List ℤ) (hist₁ : ImixHist),
      parse_lines tids (.idle, .empty) lines₁ = .ok (.idle, hist₁) →
      parse_imix_file lines₁ tids = .ok hist₁ ∧
      (∀ hist₂, parse_imix_file lines₂ tids = .ok hist₂ →
        ∃ hist, parse_imix_file (lines₁ ++ lines₂) tids = .ok hist ∧ hist.IsSum hist₁ hist₂) ∧
      ∀ hist, parse_imix_file (lines₁ ++ lines₂) tids = .ok hist →
        ∃ hist₂, parse_imix_file lines₂ tids = .ok hist₂ ∧ hist.IsSum hist₁ hist₂ := by
  refine ⟨fun lines tids tids₁ tids₂ hne₁ hne₂ hdisjoint hunion hist h => ?_,
    fun lines₁ lines₂ tids hist₁ h₁ => ⟨parse_imix_file_eq_ok.mpr ⟨_, h₁⟩, fun hist₂ h₂ => ?_,
      fun hist h => ?_⟩⟩
  · obtain ⟨phase, h⟩ := parse_imix_file_eq_ok.mp h
    obtain ⟨phase₁, phase₂, hist₁, hist₂, h₁, h₂, hsum⟩ := run_inStep hne₁ hne₂ hdisjoint hunion
      (.same .idle (by decide)) (PyDict.isSum_empty .empty) h
    exact ⟨hist₁, hist₂, parse_imix_file_eq_ok.mpr ⟨_, h₁⟩, parse_imix_file_eq_ok.mpr ⟨_, h₂⟩, hsum⟩
  · obtain ⟨phase, h₂⟩ := parse_imix_file_eq_ok.mp h₂
    obtain ⟨hist, h, hsum⟩ := run_isSum h₂ hist₁
    rw [← parse_lines_append h₁] at h
    exact ⟨hist, parse_imix_file_eq_ok.mpr ⟨_, h⟩,
      ((hsum hist₁).2 (PyDict.isSum_empty hist₁).symm).symm⟩
  · obtain ⟨phase, h⟩ := parse_imix_file_eq_ok.mp h
    rw [parse_lines_append h₁] at h
    obtain ⟨hist₂, h₂, hsum⟩ := run_isSum h .empty
    exact ⟨hist₂, parse_imix_file_eq_ok.mpr ⟨_, h₂⟩,
      ((hsum hist₁).1 (PyDict.isSum_empty hist₁).symm).symm⟩

/-- A section of a mix file with one instruction. -/
def sectionOf (tid imix : String) : List (List Char) :=
  ["$dynamic-counts\n".toList, ("# TID " ++ tid ++ "\n").toList, (imix ++ "\n").toList,
    "# END_DYNAMIC_STATS\n".toList]

theorem parsing_is_additive_for_two_threads : ∃ hist hist₁ hist₂,
    parse_imix_file (sectionOf "3" "ADD 5" ++ sectionOf "4" "ADD 7") [3, 4] = .ok hist ∧
      hist.val "ADD" = 12 ∧
      parse_imix_file (sectionOf "3" "ADD 5" ++ sectionOf "4" "ADD 7") [3] = .ok hist₁ ∧
      parse_imix_file (sectionOf "3" "ADD 5" ++ sectionOf "4" "ADD 7") [4] = .ok hist₂ ∧
      hist.IsSum hist₁ hist₂ := by
  have hrun : ∃ hist, parse_imix_file (sectionOf "3" "ADD 5" ++ sectionOf "4" "ADD 7") [3, 4] =
      .ok hist ∧ hist.val "ADD" = 12 := ⟨_, rfl, by decide +kernel⟩
  obtain ⟨hist, hrun, hval⟩ := hrun
  obtain ⟨hist₁, hist₂, h₁, h₂, hsum⟩ := parsing_is_additive.1 _ [3, 4] [3] [4] (by decide)
    (by decide) (by decide) (by simp) hist hrun
  exact ⟨hist, hist₁, hist₂, hrun, hval, h₁, h₂, hsum⟩

end ditto.inst_mix_analyzer
