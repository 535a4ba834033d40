-- The whole generated file, and its labels. Every label is defined at most
-- once in the file, and every jump and call goes to a label of its own block.
-- A block without a data access leaves no text, and so no label.
import Ditto.WorkingSet

open LabelMachine

namespace ditto.assembly_generator

/-! ## The file -/

/-- The copy at the start of the first function. -/
def rep_statement (num_reps : ℕ) : AsmStatement where
  lines :=
    [[.inst ⟨.lea, [gp .di, .argMem 0 0]⟩],
     [.inst ⟨.lea, [gp .si, .argMem 0 (num_reps * 8)]⟩],
     [.inst ⟨.mov, [gp .c, .imm num_reps]⟩],
     [.inst ⟨.rep_movsb, [.mem .di 0, .mem .si 0]⟩]]
  outputs := []
  inputs := [.mem_data]
  clobbers := [.di, .si, .c]

/-- A function `runAssembly` of the file. A block that is the empty text is `none`. -/
structure AsmFunction where
  function_id : ℕ
  setup : List AsmStatement
  blocks : List (Option AsmBlock)

def generate_function (g : Generator) (draws : BlockId → BlockDraws) (rows : List Row)
    (function_id : ℕ) : Except PyError AsmFunction := do
  let blocks ← (submit_blocks function_id 0 0 rows).mapM fun s =>
    generate_asm_block g s (draws s.id)
  return ⟨function_id, if function_id = 0 then [rep_statement g.num_reps] else [], blocks⟩

def generate_asm (g : Generator) (draws : BlockId → BlockDraws) :
    Except PyError (List AsmFunction) := do
  let merged ← dcache_icache_req_range g.num_reqs_per_iteration g.dcache_stats g.icache_stats
  let rows ← plan_rows g.num_dynamic_insts g.num_block_replicas merged
  (List.range g.num_asm_functions).mapM (generate_function g draws rows)

def AsmBlock.stmts (blk : AsmBlock) : List Stmt :=
  (blk.head ++ blk.body ++ blk.tail).flatMap AsmStatement.stmts

def textOf : Option AsmBlock → List Stmt
  | none => []
  | some blk => blk.stmts

def AsmFunction.stmts (fn : AsmFunction) : List Stmt :=
  fn.setup.flatMap AsmStatement.stmts ++ fn.blocks.flatMap textOf

/-! ## The labels of a body -/

/-- The lines of two texts have the same statements but for their operands. -/
def SameShape (line line' : List Stmt) : Prop := line'.map shape = line.map shape

theorem shape_flatten {lines lines' : List (List Stmt)} (h : List.Forall₂ SameShape lines lines') :
    SameShape lines.flatten lines'.flatten := by
  unfold SameShape
  induction h with
  | nil => rfl
  | cons hline _ ih => rw [List.flatten_cons, List.flatten_cons, List.map_append, List.map_append,
      hline, ih]

theorem SameShape.labels_eq {l l' : List Stmt} (h : SameShape l l') : labels l' = labels l := by
  rw [← labels_mapInst Inst.op l', ← labels_mapInst Inst.op l]
  exact congrArg labels h

theorem SameShape.targets_eq {l l' : List Stmt} (h : SameShape l l') : targets l' = targets l := by
  rw [← targets_mapInst Inst.op l', ← targets_mapInst Inst.op l]
  exact congrArg targets h

/-- The statements of a body are those of the shuffled text, but for their operands. -/
theorem body_shape {s : Submission} {d : BlockDraws} {page_multiplier mem_size n : ℕ}
    {lines lines' : List (List Stmt)} (h : body_lines s d = .ok lines)
    (h' : allocate_mem_addrs page_multiplier d.indices lines mem_size n = .ok lines') :
    ∃ asm, BlockCode s.id (Text.items asm) ∧
      SameShape (Text.items (shuffle_uncond_blocks d.pieces asm s.id)) lines'.flatten := by
  unfold body_lines at h
  obtain ⟨asm, hasm, h⟩ := PyError.ok_of_bind h
  refine ⟨asm, unshuffled_spec hasm, ?_⟩
  have hregs := shape_flatten ((allocate_regs_keeps h).imp fun _ _ hl => hl.shape_eq)
  have haddrs := shape_flatten ((place_lines_placed h').imp fun _ _ hl => hl.shape_eq)
  rw [Text.flatten_split] at hregs
  exact haddrs.trans hregs

theorem perm_pieces (shuffle : Shuffle Asm) (asm : Asm) :
    ((shuffle.run (split_blocks asm)).map Text.items).flatten.Perm (Text.items asm) := by
  rw [← flatten_split_blocks]
  exact ((shuffle.perm _).map _).flatten

/-- The shuffled body defines the labels of the body and `asm_end`. -/
theorem labels_shuffle (shuffle : Shuffle Asm) (asm : Asm) (b : BlockId) :
    (labels (Text.items (shuffle_uncond_blocks shuffle asm b))).Perm
      (labels (Text.items asm) ++ [b.label .asm_end]) := by
  rw [items_shuffle, ← List.singleton_append, labels_append, labels_append]
  exact ((perm_pieces shuffle asm).filterMap _).append_right _

theorem mem_targets_shuffle {shuffle : Shuffle Asm} {asm : Asm} {b : BlockId} {l : Label}
    (h : l ∈ targets (Text.items (shuffle_uncond_blocks shuffle asm b))) :
    l = b.label .asm_start ∨ l ∈ targets (Text.items asm) := by
  rw [items_shuffle, ← List.singleton_append, targets_append, targets_append] at h
  rcases List.mem_append.mp h with h | h
  · exact .inl (List.mem_singleton.mp h)
  · rcases List.mem_append.mp h with h | h
    · exact .inr (((perm_pieces shuffle asm).filterMap _).mem_iff.mp h)
    · cases h

/-- The labels of a body: its start, its end and its branches. -/
theorem labels_body {b : BlockId} {asm : Asm} (h : BlockCode b (Text.items asm))
    (shuffle : Shuffle Asm) :
    ∃ ks : List LabelKind,
      (labels (Text.items (shuffle_uncond_blocks shuffle asm b))).Perm
        ((.asm_start :: .asm_end :: ks).map b.label) ∧ ks.Nodup ∧ ∀ k ∈ ks, k.Behind ⟨0, 0⟩ := by
  obtain ⟨ks, hks, hnodup, hbehind⟩ := h.labels_eq
  refine ⟨ks, ?_, hnodup, hbehind⟩
  refine (labels_shuffle shuffle asm b).trans ?_
  rw [hks, List.map_cons, List.map_cons, List.map_cons, List.cons_append]
  exact (List.perm_append_singleton _ _).cons _

theorem targets_body {b : BlockId} {asm : Asm} (h : BlockCode b (Text.items asm))
    {shuffle : Shuffle Asm} {l : Label}
    (hl : l ∈ targets (Text.items (shuffle_uncond_blocks shuffle asm b))) :
    l ∈ labels (Text.items (shuffle_uncond_blocks shuffle asm b)) ∨ l = b.label .dummy_call := by
  rw [(labels_shuffle shuffle asm b).mem_iff, List.mem_append, List.mem_singleton]
  rcases mem_targets_shuffle hl with rfl | hl
  · obtain ⟨ks, hks, -⟩ := h.labels_eq
    rw [hks]
    exact .inl (.inl List.mem_cons_self)
  · rcases h.straight.mem_targets hl with hl | rfl | hl
    · exact .inl (.inl hl)
    · exact .inl (.inr rfl)
    · exact .inr (h.calls l hl)

/-! ## The labels of a block -/

/-- The labels of a text are distinct labels of the block, and its jumps and calls go to them. -/
structure LabelsOk (b : BlockId) (code : List Stmt) : Prop where
  nodup : (labels code).Nodup
  own : ∀ l ∈ labels code, l.block = b
  closed : ∀ l ∈ targets code, l ∈ labels code

theorem stmts_block_text (g : Generator) (s : Submission) (n : ℕ) (lines : List (List Stmt)) :
    (block_text g s n lines).stmts =
      (init_stmts ++ rand_stmts ++
        loop_stmts s.id s.mem_size (shift_size g.page_multiplier s.mem_size n)) ++
        (lines.flatten ++ tail_stmts s.id (shift_size g.page_multiplier s.mem_size n)
          (num_turns g.num_dynamic_insts s.num_static_insts).toNat) := by
  unfold AsmBlock.stmts block_text
  rw [List.flatMap_append, List.flatMap_append, stmts_body_statements, List.append_assoc]
  rfl

theorem labels_block_text (g : Generator) (s : Submission) (n : ℕ) (lines : List (List Stmt)) :
    labels (block_text g s n lines).stmts =
      [LabelKind.loop_start, .bypass_reset].map s.id.label ++
        (labels lines.flatten ++ [LabelKind.dummy_call, .end_func].map s.id.label) := by
  rw [stmts_block_text]
  generalize hhead : init_stmts ++ rand_stmts ++ loop_stmts s.id s.mem_size _ = head
  rw [labels_append, labels_append, ← hhead]
  rfl

theorem targets_block_text (g : Generator) (s : Submission) (n : ℕ) (lines : List (List Stmt)) :
    targets (block_text g s n lines).stmts =
      [s.id.label .bypass_reset] ++
        (targets lines.flatten ++ [LabelKind.loop_start, .end_func].map s.id.label) := by
  rw [stmts_block_text]
  generalize hhead : init_stmts ++ rand_stmts ++ loop_stmts s.id s.mem_size _ = head
  rw [targets_append, targets_append, ← hhead]
  rfl

/-- The kinds of the labels of a block whose branches are `ks`. -/
def blockKinds (ks : List LabelKind) : List LabelKind :=
  [.loop_start, .bypass_reset] ++ (.asm_start :: .asm_end :: ks ++ [.dummy_call, .end_func])

theorem nodup_blockKinds {ks : List LabelKind} (hnodup : ks.Nodup)
    (hbehind : ∀ k ∈ ks, k.Behind ⟨0, 0⟩) : (blockKinds ks).Nodup := by
  have hout (k : LabelKind) (hk : ¬ k.Behind ⟨0, 0⟩) : k ∉ ks := fun hmem => hk (hbehind k hmem)
  have hloop := hout .loop_start not_false
  have hreset := hout .bypass_reset not_false
  have hstart := hout .asm_start not_false
  have hend := hout .asm_end not_false
  have hlast : ∀ k ∈ ks, k ≠ .dummy_call ∧ k ≠ .end_func := by
    intro k hk
    constructor
    · rintro rfl
      exact hbehind _ hk
    · rintro rfl
      exact hbehind _ hk
  simpa [blockKinds, List.nodup_append, hloop, hreset, hstart, hend, hnodup] using hlast

theorem labels_block {g : Generator} {s : Submission} {d : BlockDraws} {blk : AsmBlock}
    (h : BlockFrom g s d blk) :
    ∃ ks : List LabelKind, ks.Nodup ∧ (labels blk.stmts).Perm (ks.map s.id.label) := by
  obtain ⟨lines, lines', hlines, -, haddrs, rfl⟩ := h.lines
  obtain ⟨asm, hcode, hshape⟩ := body_shape hlines haddrs
  obtain ⟨ks, hks, hnodup, hbehind⟩ := labels_body hcode d.pieces
  refine ⟨blockKinds ks, nodup_blockKinds hnodup hbehind, ?_⟩
  rw [labels_block_text, hshape.labels_eq, blockKinds, List.map_append, List.map_append]
  exact (hks.append_right _).append_left _

theorem closed_block {g : Generator} {s : Submission} {d : BlockDraws} {blk : AsmBlock}
    (h : BlockFrom g s d blk) {l : Label} (hl : l ∈ targets blk.stmts) : l ∈ labels blk.stmts := by
  obtain ⟨lines, lines', hlines, -, haddrs, rfl⟩ := h.lines
  obtain ⟨asm, hcode, hshape⟩ := body_shape hlines haddrs
  rw [targets_block_text, hshape.targets_eq, List.mem_append, List.mem_append] at hl
  rw [labels_block_text, hshape.labels_eq, List.mem_append, List.mem_append]
  rcases hl with hl | hl | hl
  · exact .inl (List.mem_cons_of_mem _ hl)
  · rcases targets_body hcode hl with hl | rfl
    · exact .inr (.inl hl)
    · exact .inr (.inr List.mem_cons_self)
  · rcases List.mem_cons.mp hl with rfl | hl
    · exact .inl List.mem_cons_self
    · exact .inr (.inr (List.mem_cons_of_mem _ hl))

theorem labelsOk_block {g : Generator} {s : Submission} {d : BlockDraws} {blk : AsmBlock}
    (h : BlockFrom g s d blk) : LabelsOk s.id blk.stmts := by
  obtain ⟨ks, hnodup, hks⟩ := labels_block h
  refine ⟨?_, ?_, fun l => closed_block h⟩
  · rw [hks.nodup_iff]
    exact hnodup.map s.id.label_injective
  · intro l hl
    obtain ⟨k, -, rfl⟩ := List.mem_map.mp (hks.mem_iff.mp hl)
    rfl

/-! ## The labels of the file -/

/-- Lists that belong to distinct keys have no entry twice. -/
theorem nodup_flatMap_of_keys {α β γ κ : Type} (key : α → κ) (keyOf : γ → κ) {f : β → List γ}
    {xs : List α} {ys : List β}
    (h : List.Forall₂ (fun x y => (f y).Nodup ∧ ∀ l ∈ f y, keyOf l = key x) xs ys)
    (hkeys : (xs.map key).Nodup) : (ys.flatMap f).Nodup := by
  induction h with
  | nil => exact List.nodup_nil
  | @cons x y xs ys hxy hrest ih =>
    rw [List.map_cons, List.nodup_cons] at hkeys
    rw [List.flatMap_cons]
    apply hxy.1.append (ih hkeys.2)
    intro l hl hl'
    apply hkeys.1
    obtain ⟨y', hy', hly'⟩ := List.mem_flatMap.mp hl'
    obtain ⟨x', hx', hR⟩ := exists_of_forall₂ hrest hy'
    rw [← hxy.2 l hl, hR.2 l hly']
    exact List.mem_map_of_mem hx'

theorem submit_blocks_ids (f b : ℕ) (lower : ℤ) (rows : List Row) :
    ((submit_blocks f b lower rows).map Submission.id).Nodup ∧
      ∀ s ∈ submit_blocks f b lower rows, s.function_id = f ∧ b ≤ s.block_id := by
  induction rows generalizing b lower with
  | nil => exact ⟨List.nodup_nil, by simp [submit_blocks]⟩
  | cons row rest ih =>
    obtain ⟨hnodup, hids⟩ := ih (b + 1) row.reqid_upper_bound
    have hrow : ∀ s ∈ submit_row f b lower row, s.function_id = f ∧ s.block_id = b := by
      intro s hs
      obtain ⟨replica_id, -, rfl⟩ := List.mem_map.mp hs
      exact ⟨rfl, rfl⟩
    unfold submit_blocks
    constructor
    · rw [List.map_append]
      refine List.Nodup.append ?_ hnodup ?_
      · unfold submit_row
        rw [List.map_map]
        apply List.nodup_range.map
        intro r r' h
        exact congrArg BlockId.replica_id h
      · intro id hid hid'
        obtain ⟨s, hs, rfl⟩ := List.mem_map.mp hid
        obtain ⟨s', hs', heq⟩ := List.mem_map.mp hid'
        have hblock : s'.block_id = s.block_id := congrArg BlockId.block_id heq
        have hlater := (hids s' hs').2
        rw [hblock, (hrow s hs).2] at hlater
        omega
    · intro s hs
      rcases List.mem_append.mp hs with hs | hs
      · obtain ⟨hf, hb⟩ := hrow s hs
        exact ⟨hf, hb.ge⟩
      · obtain ⟨hf, hb⟩ := hids s hs
        exact ⟨hf, by omega⟩

theorem labelsOk_textOf {g : Generator} {s : Submission} {d : BlockDraws} {o : Option AsmBlock}
    (h : generate_asm_block g s d = .ok o) : LabelsOk s.id (textOf o) := by
  cases o with
  | none => exact ⟨List.nodup_nil, by simp [textOf, labels], by simp [textOf, targets]⟩
  | some blk => exact labelsOk_block (generate_asm_block_spec h)

theorem labels_flatMap {α : Type} (f : α → List Stmt) (xs : List α) :
    labels (xs.flatMap f) = xs.flatMap fun x => labels (f x) := by
  unfold labels
  rw [List.filterMap_flatMap]

/-- What the file needs of one function. -/
structure FunctionOk (f : ℕ) (fn : AsmFunction) : Prop where
  nodup : (labels fn.stmts).Nodup
  own : ∀ l ∈ labels fn.stmts, l.block.function_id = f
  setup : targets (fn.setup.flatMap AsmStatement.stmts) = []
  blocks : ∀ o ∈ fn.blocks, ∃ b, LabelsOk b (textOf o)

theorem generate_function_ok {g : Generator} {draws : BlockId → BlockDraws} {rows : List Row}
    {f : ℕ} {fn : AsmFunction} (h : generate_function g draws rows f = .ok fn) :
    FunctionOk f fn := by
  unfold generate_function at h
  obtain ⟨blocks, hblocks, h⟩ := PyError.ok_of_bind h
  cases h
  have hall := PyError.forall₂_of_mapM hblocks
  obtain ⟨hids, hfirst⟩ := submit_blocks_ids f 0 0 rows
  have hsetup : labels ((if f = 0 then [rep_statement g.num_reps] else []).flatMap
      AsmStatement.stmts) = [] := by
    split <;> rfl
  have hlabels : labels (AsmFunction.stmts ⟨f, if f = 0 then [rep_statement g.num_reps] else [],
      blocks⟩) = blocks.flatMap fun o => labels (textOf o) := by
    unfold AsmFunction.stmts
    rw [labels_append, hsetup, labels_flatMap, List.nil_append]
  constructor
  · rw [hlabels]
    apply nodup_flatMap_of_keys Submission.id Label.block _ hids
    exact hall.imp fun s o ho => ⟨(labelsOk_textOf ho).nodup, (labelsOk_textOf ho).own⟩
  · intro l hl
    rw [hlabels] at hl
    obtain ⟨o, ho, hl⟩ := List.mem_flatMap.mp hl
    obtain ⟨s, hs, hok⟩ := exists_of_forall₂ hall ho
    rw [(labelsOk_textOf hok).own l hl]
    exact (hfirst s hs).1
  · simp only
    split <;> rfl
  · intro o ho
    obtain ⟨s, -, hok⟩ := exists_of_forall₂ hall ho
    exact ⟨s.id, labelsOk_textOf hok⟩

/-! ## The laws -/

/-- No two labels of the file have the same text. Every jump, conditional jump and call is in
a block, and its target is defined in that block, exactly once. -/
theorem labels_are_well_formed {g : Generator} {draws : BlockId → BlockDraws}
    {file : List AsmFunction} (h : generate_asm g draws = .ok file) :
    ((labels (file.flatMap AsmFunction.stmts)).map Label.text).Nodup ∧
      ∀ fn ∈ file, targets (fn.setup.flatMap AsmStatement.stmts) = [] ∧
        ∀ blk, some blk ∈ fn.blocks → ∀ l ∈ targets blk.stmts,
          ((labels blk.stmts).map Label.text).count l.text = 1 := by
  unfold generate_asm at h
  obtain ⟨merged, -, h⟩ := PyError.ok_of_bind h
  obtain ⟨rows, -, h⟩ := PyError.ok_of_bind h
  have hall := PyError.forall₂_of_mapM h
  constructor
  · apply List.Nodup.map Label.text_injective
    rw [labels_flatMap]
    apply nodup_flatMap_of_keys id (fun l : Label => l.block.function_id)
    · exact hall.imp fun f fn hfn =>
        ⟨(generate_function_ok hfn).nodup, (generate_function_ok hfn).own⟩
    · rw [List.map_id]
      exact List.nodup_range
  · intro fn hfn
    obtain ⟨f, -, hok⟩ := exists_of_forall₂ hall hfn
    have hfn' := generate_function_ok hok
    refine ⟨hfn'.setup, ?_⟩
    intro blk hblk l hl
    obtain ⟨b, hb⟩ := hfn'.blocks _ hblk
    rw [List.count_map_of_injective _ _ Label.text_injective]
    exact List.count_eq_one_of_mem hb.nodup (hb.closed l hl)

/-- Two functions with one block each. The block of the second one has no data access. -/
def twoFunctions : Generator := { oneLine with num_asm_functions := 2 }

def branchDraws : BlockDraws :=
  { loadDraws with insts := fun _ => ⟨.op .base .branch_uncond .no_mem, 0, 0, false, 0, false⟩ }

def firstLoads (b : BlockId) : BlockDraws := if b.function_id = 0 then loadDraws else branchDraws

theorem labels_are_well_formed_in_two_functions :
    ∃ file, generate_asm twoFunctions firstLoads = .ok file ∧
      ((labels (file.flatMap AsmFunction.stmts)).map Label.text).Nodup ∧
        ∀ fn ∈ file, targets (fn.setup.flatMap AsmStatement.stmts) = [] ∧
          ∀ blk, some blk ∈ fn.blocks → ∀ l ∈ targets blk.stmts,
            ((labels blk.stmts).map Label.text).count l.text = 1 := by
  have hok : (generate_asm twoFunctions firstLoads).toOption.isSome = true := by
    decide +kernel
  rcases hfile : generate_asm twoFunctions firstLoads with err | file
  · rw [hfile] at hok
    cases hok
  · exact ⟨file, rfl, labels_are_well_formed hfile⟩

end ditto.assembly_generator
