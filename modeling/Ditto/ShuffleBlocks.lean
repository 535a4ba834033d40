-- The shuffle of a block. The text is cut behind the lines that are one
-- unconditional branch, and the pieces go back in any order. An instruction
-- without a line end can hide a branch from the cut, but the code does the
-- same work from its start to its end.
import Ditto.Templates

open LabelMachine

namespace ditto.assembly_generator

/-! ## The model -/

/-- The model of `random.shuffle`: any permutation. -/
structure Shuffle (α : Type) where
  run : List α → List α
  perm : ∀ l, (run l).Perm l

/-- The line is one jump to a `br_uncond` label, as in the pattern of the source. A line with
a second statement does not match. -/
def is_uncond_line : List Stmt → Bool
  | [.jmp ⟨.br_uncond _, _⟩] => true
  | _ => false

/-- One turn of the loop that splits the blocks. -/
def split_line (acc : List Asm × List (List Stmt)) (line : List Stmt) :
    List Asm × List (List Stmt) :=
  if is_uncond_line line then
    (acc.1 ++ [Text.join ((acc.2 ++ [line]).map Text.ofLine)], [])
  else (acc.1, acc.2 ++ [line])

def split_blocks (asm : Asm) : List Asm :=
  let acc := (Text.splitlines asm).foldl split_line ([], [])
  acc.1 ++ [Text.join (acc.2.map Text.ofLine)]

def shuffle_uncond_blocks (shuffle : Shuffle Asm) (asm : Asm) (b : BlockId) : Asm :=
  Text.line (.jmp (b.label .asm_start)) ++
    (Text.join (shuffle.run (split_blocks asm)) ++ [none]) ++
    Text.line (.label (b.label .asm_end))

/-! ## The pieces -/

theorem items_join_lines (ls : List (List Stmt)) :
    Text.items (Text.join (ls.map Text.ofLine)) = ls.flatten := by
  rw [Text.items_join, List.map_map]
  congr 1
  calc ls.map (Text.items ∘ Text.ofLine) = ls.map id := by
        apply List.map_congr_left
        intro l _
        exact Text.items_ofLine l
    _ = ls := List.map_id ls

/-- What the loop has split after some lines: all statements in their order, and every
piece ends in a jump to a `br_uncond` label. -/
structure SplitOf (lines : List (List Stmt)) (acc : List Asm × List (List Stmt)) : Prop where
  all : (acc.1.map Text.items).flatten ++ acc.2.flatten = lines.flatten
  ends : ∀ piece ∈ acc.1, ∃ c k b, Text.items piece = c ++ [.jmp ⟨.br_uncond k, b⟩]

theorem is_uncond_line_iff {line : List Stmt} :
    is_uncond_line line = true ↔ ∃ k b, line = [.jmp ⟨.br_uncond k, b⟩] := by
  unfold is_uncond_line
  split
  · rename_i k b
    exact ⟨fun _ => ⟨k, b, rfl⟩, fun _ => rfl⟩
  · rename_i hline
    constructor
    · intro h
      cases h
    · rintro ⟨k, b, rfl⟩
      exact absurd rfl (hline k b)

theorem SplitOf.split_line {lines : List (List Stmt)} {acc : List Asm × List (List Stmt)}
    (h : SplitOf lines acc) (line : List Stmt) :
    SplitOf (lines ++ [line]) (split_line acc line) := by
  unfold assembly_generator.split_line
  split
  · rename_i hline
    obtain ⟨k, b, rfl⟩ := is_uncond_line_iff.mp hline
    constructor
    · rw [List.map_append, List.flatten_append, List.map_singleton, List.flatten_singleton,
        items_join_lines, List.flatten_append, ← List.append_assoc, h.all]
      simp
    · intro piece hpiece
      rcases List.mem_append.mp hpiece with hpiece | hpiece
      · exact h.ends piece hpiece
      · rw [List.mem_singleton.mp hpiece, items_join_lines, List.flatten_append]
        exact ⟨acc.2.flatten, k, b, by simp⟩
  · constructor
    · rw [List.flatten_append, ← List.append_assoc, h.all, List.flatten_append]
    · exact h.ends

theorem splitOf_foldl (lines : List (List Stmt)) :
    SplitOf lines (lines.foldl split_line ([], [])) := by
  induction lines using List.reverseRecOn with
  | nil => exact ⟨rfl, by simp⟩
  | append_singleton lines line ih =>
    rw [List.foldl_append]
    exact ih.split_line line

theorem flatten_split_blocks (asm : Asm) :
    ((split_blocks asm).map Text.items).flatten = Text.items asm := by
  have h := (splitOf_foldl (Text.splitlines asm)).all
  unfold split_blocks
  rw [List.map_append, List.flatten_append, List.map_singleton, List.flatten_singleton,
    items_join_lines, h, Text.flatten_splitlines]

/-- Every piece of a text that ends in the jump to `asm_end` ends in a jump. -/
theorem split_blocks_ends {asm : Asm} {b : BlockId} {c : List Stmt}
    (h : Text.items asm = c ++ [.jmp (b.label .asm_end)]) :
    ∀ piece ∈ split_blocks asm, EndsInJmp (Text.items piece) := by
  have hsplit := splitOf_foldl (Text.splitlines asm)
  unfold split_blocks
  generalize (Text.splitlines asm).foldl split_line ([], []) = acc at hsplit
  have hall : (acc.1.map Text.items).flatten ++ acc.2.flatten = c ++ [.jmp (b.label .asm_end)] := by
    rw [hsplit.all, Text.flatten_splitlines, h]
  intro piece hpiece
  rcases List.mem_append.mp hpiece with hpiece | hpiece
  · obtain ⟨c', k, b', hc'⟩ := hsplit.ends piece hpiece
    exact ⟨c', _, hc'⟩
  · rw [List.mem_singleton.mp hpiece, items_join_lines]
    rcases List.eq_nil_or_concat acc.2.flatten with hnil | ⟨c', s, hcons⟩
    · -- The pieces in front of it end in another jump, so this one is not empty.
      rcases List.eq_nil_or_concat acc.1 with hnone | ⟨front, last, hlast⟩
      · rw [hnone, hnil] at hall
        simp at hall
      · obtain ⟨c', k, b', hc'⟩ := hsplit.ends last (by simp [hlast])
        rw [hnil, hlast] at hall
        simp only [List.concat_eq_append, List.map_append, List.map_cons, List.map_nil,
          List.flatten_append, List.flatten_cons, List.flatten_nil, List.append_nil, hc',
          ← List.append_assoc] at hall
        have := List.append_inj_right' hall rfl
        simp [BlockId.label] at this
    · rw [hcons, List.concat_eq_append, ← List.append_assoc] at hall
      refine ⟨c', b.label .asm_end, ?_⟩
      rw [hcons, List.concat_eq_append, List.append_inj_right' hall rfl]

/-! ## The laws -/

theorem items_shuffle (shuffle : Shuffle Asm) (asm : Asm) (b : BlockId) :
    Text.items (shuffle_uncond_blocks shuffle asm b) = .jmp (b.label .asm_start) ::
      (((shuffle.run (split_blocks asm)).map Text.items).flatten ++
        [.label (b.label .asm_end)]) := by
  unfold shuffle_uncond_blocks
  simp only [Text.items_append, Text.items_line, Text.items_join, List.append_assoc]
  rfl

/-- The work that the shuffled text does, from its first line until it has passed `asm_end`,
is the work of the text before the shuffle, from `asm_start` straight to its last jump. The
conditional jumps may go either way, and they may go another way in the two runs. -/
theorem shuffling_keeps_the_work {b : BlockId} {ds : List Draw} {asm : Asm}
    (h : unshuffled b ds = .ok asm) (shuffle : Shuffle Asm) (takes takes' : Cond → List Stmt → Bool) :
    (∃ n, exec (recorder takes) (Text.items asm) (atJmp (b.label .asm_end)) n
      (Text.items asm) [] = some (work (Text.items asm))) ∧
    ∃ n, exec (recorder takes') (Text.items (shuffle_uncond_blocks shuffle asm b)) List.isEmpty n
      (Text.items (shuffle_uncond_blocks shuffle asm b)) [] = some (work (Text.items asm)) := by
  have hcode := unshuffled_spec h
  obtain ⟨c, hc⟩ := hcode.starts
  obtain ⟨c', hends⟩ := hcode.ends
  constructor
  · apply Runs.record
    exact hcode.straight.runs_text hcode.nodup ⟨c', _, hends⟩
  · apply Runs.record
    rw [items_shuffle]
    have hstraight := hcode.straight
    have hnodup := hcode.nodup
    have hstop := hcode.asm_end_not_mem
    have hflatten := flatten_split_blocks asm
    rw [hc] at hstraight hnodup hstop hflatten ⊢
    apply hstraight.runs_pieces hnodup hstop hflatten
    · intro piece hpiece
      obtain ⟨t, ht, rfl⟩ := List.mem_map.mp hpiece
      exact split_blocks_ends hends t ht
    · exact (shuffle.perm _).map _

/-- A branch on the line of an `fmul`, a branch on its own line, and a conditional branch. -/
def gluedDraws : List Draw :=
  [.op .base .mul_fp .no_mem, .op .base .branch_uncond .no_mem, .op .base .mov_uncond .mem_r,
    .op .base .branch_cond .no_mem, .op .base .branch_uncond .mem_r, .func_call].map
    fun op_type => ⟨op_type, 0, 1, false, 3, false⟩

theorem shuffling_keeps_the_work_of_glued_lines :
    ∃ asm, unshuffled ⟨0, 0, 0⟩ gluedDraws = .ok asm ∧
      (∃ n, exec (recorder fun _ _ => false) (Text.items asm)
        (atJmp (BlockId.label ⟨0, 0, 0⟩ .asm_end)) n (Text.items asm) [] =
          some (work (Text.items asm))) ∧
      ∃ n, exec (recorder fun _ _ => true)
        (Text.items (shuffle_uncond_blocks ⟨List.reverse, List.reverse_perm⟩ asm ⟨0, 0, 0⟩))
        List.isEmpty n
        (Text.items (shuffle_uncond_blocks ⟨List.reverse, List.reverse_perm⟩ asm ⟨0, 0, 0⟩)) [] =
          some (work (Text.items asm)) := by
  have h : ∃ asm, unshuffled ⟨0, 0, 0⟩ gluedDraws = .ok asm := ⟨_, rfl⟩
  obtain ⟨asm, hasm⟩ := h
  exact ⟨asm, hasm, shuffling_keeps_the_work hasm _ _ _⟩

end ditto.assembly_generator
