-- The counters of callgrind. Every access goes through the two levels of
-- simulated caches and is charged to the block that runs it. A dump moves what
-- the blocks hold to the total, and leaves out each block that no thread has
-- left since the dump before. No order of threads, blocks, signal handlers and
-- dumps makes or loses a count. What the call stack decides is open: the block
-- that pays for a skipped function, the callers that are returned to, and the
-- handlers that a jump leaves.
import Ditto.CacheSim
import Mathlib.Algebra.BigOperators.Pi
import Mathlib.Algebra.BigOperators.Group.Finset.Piecewise

namespace ditto.callgrind

/-! ## The two levels -/

inductive CacheModelResult
  | L1_Hit | LL_Hit | MemAccess
deriving DecidableEq

/-- A reference to a first level, which goes on to the last level after a miss. -/
def level_ref (L1 LL : cache_t2) (a : BitVec 64) (size : BitVec 8) :
    Option (CacheModelResult × cache_t2 × cache_t2) := do
  let (res, L1) ← cachesim_ref L1 a size
  if res = .Hit then return (.L1_Hit, L1, LL)
  let (res, LL) ← cachesim_ref LL a size
  return (if res = .Hit then .LL_Hit else .MemAccess, L1, LL)

structure Caches where
  I1 : cache_t2
  D1 : cache_t2
  LL : cache_t2

def cachesim_I1_ref (caches : Caches) (a : BitVec 64) (size : BitVec 8) :
    Option (CacheModelResult × Caches) :=
  (level_ref caches.I1 caches.LL a size).map fun (r, I1, LL) => (r, { caches with I1, LL })

def cachesim_D1_ref (caches : Caches) (a : BitVec 64) (size : BitVec 8) :
    Option (CacheModelResult × Caches) :=
  (level_ref caches.D1 caches.LL a size).map fun (r, D1, LL) => (r, { caches with D1, LL })

def cachesim_clearcache (c : cache_t2) : cache_t2 := { c with tags := fun _ => 0 }

def cachesim_clear (caches : Caches) : Caches where
  I1 := cachesim_clearcache caches.I1
  D1 := cachesim_clearcache caches.D1
  LL := cachesim_clearcache caches.LL

/-! ## The counters -/

inductive EventGroup
  | EG_IR | EG_DR | EG_DW
deriving DecidableEq

/-- For each group its references, its misses in the first level and those in the last level. -/
abbrev FullCost := EventGroup → Fin 3 → ℕ

/-- The three counters of a group after one access. -/
def inc_costs (r : CacheModelResult) (c1 : Fin 3 → ℕ) : Fin 3 → ℕ :=
  match r with
  | .MemAccess => ![c1 0 + 1, c1 1 + 1, c1 2 + 1]
  | .LL_Hit => ![c1 0 + 1, c1 1 + 1, c1 2]
  | .L1_Hit => ![c1 0 + 1, c1 1, c1 2]

structure Access where
  group : EventGroup
  addr : BitVec 64
  size : BitVec 8
deriving DecidableEq

/-- The simulator without write back and without prefetch: a write goes the way of a read. -/
def Access.simulate (caches : Caches) (x : Access) : Option (CacheModelResult × Caches) :=
  match x.group with
  | .EG_IR => cachesim_I1_ref caches x.addr x.size
  | .EG_DR => cachesim_D1_ref caches x.addr x.size
  | .EG_DW => cachesim_D1_ref caches x.addr x.size

/-- An address and a size. -/
abbrev Place := BitVec 64 × BitVec 8

def Ir (ii : Place) : Access := ⟨.EG_IR, ii.1, ii.2⟩

def Dr (data : Place) : Access := ⟨.EG_DR, data.1, data.2⟩

def Dw (data : Place) : Access := ⟨.EG_DW, data.1, data.2⟩

/-- The helpers that the instrumented code calls. -/
inductive Helper
  | log_1I0D (ii : Place)
  | log_2I0D (ii1 ii2 : Place)
  | log_3I0D (ii1 ii2 ii3 : Place)
  | log_1I1Dr (ii data : Place)
  | log_0I1Dr (data : Place)
  | log_1I1Dw (ii data : Place)
  | log_0I1Dw (data : Place)

/-- The accesses of a helper, in the order of the simulation. -/
def Helper.accesses : Helper → List Access
  | log_1I0D ii => [Ir ii]
  | log_2I0D ii1 ii2 => [Ir ii1, Ir ii2]
  | log_3I0D ii1 ii2 ii3 => [Ir ii1, Ir ii2, Ir ii3]
  | log_1I1Dr ii data => [Ir ii, Dr data]
  | log_0I1Dr data => [Dr data]
  | log_1I1Dw ii data => [Ir ii, Dw data]
  | log_0I1Dw data => [Dw data]

/-- What the simulation says of an access of a group. -/
abbrev Outcome := EventGroup × CacheModelResult

/-- The accesses of a helper, all of them before the first one is counted. -/
def simulate_all (caches : Caches) : List Access → Option (List Outcome × Caches)
  | [] => some ([], caches)
  | x :: xs => do
    let (r, caches) ← x.simulate caches
    let (rs, caches) ← simulate_all caches xs
    return ((x.group, r) :: rs, caches)

/-! ## The blocks and the threads -/

/-- The costs of a block in its context: those of its instructions, added up, and those of the
functions that are skipped under it. -/
structure BBCC where
  ecounter_sum : ℕ
  ret_counter : ℕ
  cost : FullCost
  skipped : FullCost

/-- Where a thread or a signal handler is: its block, and the block that pays for it in a skipped
function. -/
structure ExecState (κ : Type) where
  bbcc : Option κ
  nonskipped : Option κ
deriving DecidableEq

/-- The state of a thread that runs, and those that signal handlers have interrupted, the last one
in front. -/
structure ThreadInfo (κ : Type) where
  state : ExecState κ
  states : List (ExecState κ)

def init_exec_state (κ : Type) : ExecState κ := ⟨none, none⟩

structure Tool (τ κ : Type) where
  caches : Caches
  bbccs : κ → BBCC
  threads : τ → ThreadInfo κ
  instrument_state : Bool
  total_cost : FullCost

section Model

variable {τ κ : Type} [DecidableEq τ] [DecidableEq κ]

/-- What the start of a block is given by the call stack: the block, the block that pays, the call
that an underflow makes up, the callers that are returned to, and the number of signal handlers
that the thread has jumped out of. -/
structure Arrival (κ : Type) where
  bbcc : κ
  nonskipped : Option κ
  underflow : Option κ
  returned : List κ
  ended : ℕ

/-- The callers in `returned` have one more return for each time they stand there. -/
def count_returns (bbccs : κ → BBCC) (returned : List κ) (b : κ) : BBCC :=
  { bbccs b with ret_counter := (bbccs b).ret_counter + returned.count b }

/-- The start of a block. The block before it has passed once, and so has the call of an
underflow. -/
def setup_bbcc (collect : Bool) (st : Tool τ κ) (tid : τ) (x : Arrival κ) : Tool τ κ :=
  let last := (st.threads tid).state
  let passed b :=
    (if collect ∧ last.nonskipped = none ∧ last.bbcc = some b then 1 else 0) +
      (if collect ∧ x.underflow = some b then 1 else 0)
  { st with
    bbccs := fun b =>
      { count_returns st.bbccs x.returned b with
        ecounter_sum := (st.bbccs b).ecounter_sum + passed b }
    threads := Function.update st.threads tid
      ⟨⟨some x.bbcc, x.nonskipped⟩, (st.threads tid).states.drop x.ended⟩ }

/-- A signal handler starts in no block. -/
def pre_signal (st : Tool τ κ) (tid : τ) : Tool τ κ :=
  { st with
    threads := Function.update st.threads tid
      ⟨init_exec_state κ, (st.threads tid).state :: (st.threads tid).states⟩ }

/-- The interrupted state goes on. The block that the handler was in does not pass. -/
def post_signal (st : Tool τ κ) (tid : τ) (returned : List κ) : Option (Tool τ κ) :=
  match (st.threads tid).states with
  | [] => none
  | state :: states => some { st with
      bbccs := count_returns st.bbccs returned
      threads := Function.update st.threads tid ⟨state, states⟩ }

def add_to (cost : FullCost) (o : Outcome) : FullCost :=
  Function.update cost o.1 (inc_costs o.2 (cost o.1))

/-- The costs go to the skipped costs of the block that pays, or else to the block itself. A
helper never runs outside of a block. -/
def charge (st : Tool τ κ) (tid : τ) (o : Outcome) : Option (Tool τ κ) :=
  match (st.threads tid).state.nonskipped, (st.threads tid).state.bbcc with
  | some b, _ => some { st with
      bbccs := Function.update st.bbccs b
        { st.bbccs b with skipped := add_to (st.bbccs b).skipped o } }
  | none, some b => some { st with
      bbccs := Function.update st.bbccs b { st.bbccs b with cost := add_to (st.bbccs b).cost o } }
  | none, none => none

def log (collect : Bool) (st : Tool τ κ) (tid : τ) (helper : Helper) : Option (Tool τ κ) := do
  let (outcomes, caches) ← simulate_all st.caches helper.accesses
  let st := { st with caches }
  if collect then outcomes.foldlM (fun st o => charge st tid o) st else return st

/-- A block has costs to dump when it has passed or was returned to. -/
def BBCC.Dumped (bbcc : BBCC) : Prop := 0 < bbcc.ecounter_sum ∨ 0 < bbcc.ret_counter

instance (bbcc : BBCC) : Decidable bbcc.Dumped := inferInstanceAs (Decidable (_ ∨ _))

/-- The costs that wait in a block. -/
def BBCC.pending (bbcc : BBCC) : FullCost := bbcc.cost + bbcc.skipped

/-- The callers on the call stacks, `active`, are dumped with the blocks that have passed. -/
def dump_profile [Fintype κ] (st : Tool τ κ) (active : List κ) : Tool τ κ :=
  let dumped b := (st.bbccs b).Dumped ∨ b ∈ active
  { st with
    bbccs := fun b => if dumped b then ⟨0, 0, 0, 0⟩ else st.bbccs b
    total_cost := st.total_cost + ∑ b, if dumped b then (st.bbccs b).pending else 0 }

/-- All threads leave their handlers, their call stacks and their blocks. -/
def unwind_threads (st : Tool τ κ) (returned : List κ) : Tool τ κ :=
  { st with
    bbccs := count_returns st.bbccs returned
    threads := fun _ => ⟨init_exec_state κ, []⟩ }

def set_instrument_state (st : Tool τ κ) (state : Bool) (returned : List κ) : Tool τ κ :=
  if st.instrument_state = state then st
  else
    let st := unwind_threads st returned
    { st with instrument_state := state, caches := cachesim_clear st.caches }

/-- The end of the process, up to the total that it prints. -/
def finish [Fintype κ] (st : Tool τ κ) (returned : List κ) : Tool τ κ :=
  dump_profile (unwind_threads st returned) []

inductive Event (τ κ : Type)
  | setup_bbcc (tid : τ) (x : Arrival κ)
  | log (tid : τ) (helper : Helper)
  | pre_signal (tid : τ)
  | post_signal (tid : τ) (returned : List κ)
  | dump_profile (active : List κ)
  | set_instrument_state (state : Bool) (returned : List κ)

/-- One event. Code that is not instrumented calls neither the start of a block nor a helper. -/
def step [Fintype κ] (collect : Bool) (st : Tool τ κ) : Event τ κ → Option (Tool τ κ)
  | .setup_bbcc tid x => if st.instrument_state then some (setup_bbcc collect st tid x) else none
  | .log tid helper => if st.instrument_state then log collect st tid helper else none
  | .pre_signal tid => some (pre_signal st tid)
  | .post_signal tid returned => post_signal st tid returned
  | .dump_profile active => some (dump_profile st active)
  | .set_instrument_state state returned => some (set_instrument_state st state returned)

def run [Fintype κ] (collect : Bool) (st : Tool τ κ) : List (Event τ κ) → Option (Tool τ κ)
  | [] => some st
  | e :: events => do run collect (← step collect st e) events

/-- What the simulation says of the accesses of an event. -/
def outcomes (st : Tool τ κ) : Event τ κ → List Outcome
  | .log _ helper => ((simulate_all st.caches helper.accesses).map Prod.fst).getD []
  | .setup_bbcc .. => []
  | .pre_signal _ => []
  | .post_signal .. => []
  | .dump_profile _ => []
  | .set_instrument_state .. => []

/-- What the simulation says of all accesses of a run. -/
def run_outcomes [Fintype κ] (collect : Bool) (st : Tool τ κ) : List (Event τ κ) → List Outcome
  | [] => []
  | e :: events => outcomes st e ++
    ((step collect st e).map fun st' => run_outcomes collect st' events).getD []

end Model

/-- The tool before the first block. -/
def post_clo_init (τ κ : Type) (I1c D1c LLc : cache_t) (instrument_atstart : Bool) : Tool τ κ where
  caches := ⟨cachesim_initcache I1c, cachesim_initcache D1c, cachesim_initcache LLc⟩
  bbccs := fun _ => ⟨0, 0, 0, 0⟩
  threads := fun _ => ⟨init_exec_state κ, []⟩
  instrument_state := instrument_atstart
  total_cost := 0

/-! ## Counts are neither made nor lost -/

/-- The counters of one access. -/
def Outcome.cost (o : Outcome) : FullCost := add_to 0 o

theorem inc_costs_eq (r : CacheModelResult) (c : Fin 3 → ℕ) :
    inc_costs r c = c + inc_costs r 0 := by
  funext i
  fin_cases i <;> cases r <;> simp [inc_costs]

theorem add_to_eq (cost : FullCost) (o : Outcome) : add_to cost o = cost + o.cost := by
  funext g
  unfold Outcome.cost add_to
  by_cases hg : g = o.1
  · subst hg
    simp only [Function.update_self, Pi.add_apply]
    exact inc_costs_eq o.2 (cost o.1)
  · simp [Function.update_of_ne hg]

/-- The counters that an access raises: it is a reference, and a miss of each level that does not
have it. -/
def CacheModelResult.raises (r : CacheModelResult) : Fin 3 → Bool :=
  ![true, r ≠ .L1_Hit, r = .MemAccess]

theorem Outcome.cost_apply (o : Outcome) (g : EventGroup) (i : Fin 3) :
    o.cost g i = if o.1 = g ∧ o.2.raises i = true then 1 else 0 := by
  unfold Outcome.cost add_to
  by_cases hg : o.1 = g
  · subst hg
    rw [Function.update_self]
    obtain ⟨g, r⟩ := o
    fin_cases i <;> cases r <;> simp [inc_costs, CacheModelResult.raises]
  · rw [Function.update_of_ne (Ne.symm hg), if_neg (by simp [hg])]
    rfl

/-- The accesses of a group that raise a counter. -/
def tally (os : List Outcome) (g : EventGroup) (i : Fin 3) : ℕ :=
  os.countP fun o => o.1 = g ∧ o.2.raises i = true

theorem sum_cost_apply (os : List Outcome) (g : EventGroup) (i : Fin 3) :
    (os.map Outcome.cost).sum g i = tally os g i := by
  induction os with
  | nil => rfl
  | cons o os ih =>
    rw [List.map_cons, List.sum_cons, Pi.add_apply, Pi.add_apply, ih, o.cost_apply]
    unfold tally
    rw [List.countP_cons, add_comm]
    simp

section Laws

variable {τ κ : Type} [Fintype κ] {collect : Bool} {st st' : Tool τ κ} {tid : τ} {e : Event τ κ}
  {events : List (Event τ κ)} {o : Outcome} {os : List Outcome}

/-- All that is counted, in the total or still in a block. -/
def counted (st : Tool τ κ) : FullCost := st.total_cost + ∑ b, (st.bbccs b).pending

theorem counted_congr (htotal : st'.total_cost = st.total_cost)
    (hpending : ∀ b, (st'.bbccs b).pending = (st.bbccs b).pending) : counted st' = counted st := by
  unfold counted
  rw [htotal]
  simp only [hpending]

theorem counted_apply (st : Tool τ κ) (g : EventGroup) (i : Fin 3) :
    counted st g i = st.total_cost g i + ∑ b, (st.bbccs b).pending g i := by
  unfold counted
  simp only [Pi.add_apply, Finset.sum_apply]

theorem counted_post_clo_init (I1c D1c LLc : cache_t) (instrument_atstart : Bool) :
    counted (post_clo_init τ κ I1c D1c LLc instrument_atstart) = 0 := by
  simp [counted, post_clo_init, BBCC.pending]

variable [DecidableEq κ]

/-- A block that takes the counters of an access. -/
theorem counted_update {b : κ} {bbcc : BBCC} {c : FullCost}
    (h : bbcc.pending = (st.bbccs b).pending + c) :
    counted { st with bbccs := Function.update st.bbccs b bbcc } = counted st + c := by
  have hpending : ∀ b', (Function.update st.bbccs b bbcc b').pending =
      (st.bbccs b').pending + if b' = b then c else 0 := by
    intro b'
    by_cases hb : b' = b
    · subst hb
      rw [Function.update_self, if_pos rfl, h]
    · rw [Function.update_of_ne hb, if_neg hb, add_zero]
  unfold counted
  simp only [hpending, Finset.sum_add_distrib, Finset.sum_ite_eq', Finset.mem_univ, if_true]
  exact (add_assoc _ _ _).symm

omit [Fintype κ] in
/-- A charge adds to one block, which is the one that pays or the one that the thread is in. -/
theorem charge_cases (h : charge st tid o = some st') :
    ∃ b bbcc, st' = { st with bbccs := Function.update st.bbccs b bbcc } ∧
      bbcc.ecounter_sum = (st.bbccs b).ecounter_sum ∧
      bbcc.pending = (st.bbccs b).pending + o.cost ∧
      ((st.threads tid).state.nonskipped = some b ∨ (st.threads tid).state = ⟨some b, none⟩) := by
  unfold charge at h
  split at h
  · rename_i b hnonskipped
    cases h
    refine ⟨b, _, rfl, rfl, ?_, .inl hnonskipped⟩
    unfold BBCC.pending
    rw [add_to_eq, add_assoc]
  · rename_i b hnonskipped hbbcc
    cases h
    refine ⟨b, _, rfl, rfl, ?_, .inr ?_⟩
    · unfold BBCC.pending
      rw [add_to_eq, add_right_comm]
    · rw [← hnonskipped, ← hbbcc]
  · cases h

theorem counted_charge (h : charge st tid o = some st') : counted st' = counted st + o.cost := by
  obtain ⟨b, bbcc, rfl, -, hpending, -⟩ := charge_cases h
  exact counted_update hpending

theorem counted_charges (h : os.foldlM (fun st o => charge st tid o) st = some st') :
    counted st' = counted st + (os.map Outcome.cost).sum := by
  induction os generalizing st with
  | nil =>
    cases h
    simp
  | cons o os ih =>
    rw [List.foldlM_cons] at h
    obtain ⟨mid, hmid, h⟩ := Option.bind_eq_some_iff.mp h
    rw [ih h, counted_charge hmid, List.map_cons, List.sum_cons, add_assoc]

/-- A dump moves costs, and makes none. -/
theorem counted_dump_profile (st : Tool τ κ) (active : List κ) :
    counted (dump_profile st active) = counted st := by
  have hsplit : ∀ b, (if (st.bbccs b).Dumped ∨ b ∈ active then (st.bbccs b).pending else 0) +
      ((dump_profile st active).bbccs b).pending = (st.bbccs b).pending := by
    intro b
    by_cases hb : (st.bbccs b).Dumped ∨ b ∈ active
    · simp [dump_profile, hb, BBCC.pending]
    · simp [dump_profile, hb]
  unfold counted
  calc (dump_profile st active).total_cost + ∑ b, ((dump_profile st active).bbccs b).pending
      = st.total_cost + ∑ b, ((if (st.bbccs b).Dumped ∨ b ∈ active then (st.bbccs b).pending
          else 0) + ((dump_profile st active).bbccs b).pending) := by
        rw [Finset.sum_add_distrib, ← add_assoc]
        rfl
    _ = st.total_cost + ∑ b, (st.bbccs b).pending := by simp only [hsplit]

theorem counted_set_instrument_state (st : Tool τ κ) (state : Bool) (returned : List κ) :
    counted (set_instrument_state st state returned) = counted st := by
  unfold set_instrument_state
  split
  · rfl
  · exact counted_congr rfl fun b => rfl

theorem counted_finish (st : Tool τ κ) (off returned : List κ) :
    counted (finish (set_instrument_state st false off) returned) = counted st := by
  unfold finish
  rw [counted_dump_profile, ← counted_set_instrument_state st false off]
  exact counted_congr rfl fun b => rfl

/-- What an event counts. -/
def gain (collect : Bool) (os : List Outcome) : FullCost :=
  if collect then (os.map Outcome.cost).sum else 0

theorem gain_append (collect : Bool) (os os' : List Outcome) :
    gain collect (os ++ os') = gain collect os + gain collect os' := by
  cases collect <;> simp [gain]

theorem counted_log {helper : Helper} (h : log collect st tid helper = some st') :
    counted st' = counted st + gain collect (outcomes st (.log tid helper)) := by
  unfold log at h
  obtain ⟨⟨os, caches⟩, hos, h⟩ := Option.bind_eq_some_iff.mp h
  have houtcomes : outcomes st (.log tid helper) = os := by simp [outcomes, hos]
  rw [houtcomes]
  cases collect with
  | false =>
    cases h
    exact counted_congr rfl fun b => rfl
  | true =>
    dsimp only at h
    rw [if_pos rfl] at h
    rw [counted_charges h]
    rfl

variable [DecidableEq τ]

omit [Fintype κ] in
theorem post_signal_cases {returned : List κ} (h : post_signal st tid returned = some st') :
    ∃ state states, (st.threads tid).states = state :: states ∧ st' = { st with
      bbccs := count_returns st.bbccs returned
      threads := Function.update st.threads tid ⟨state, states⟩ } := by
  unfold post_signal at h
  split at h
  · cases h
  · rename_i state states hstates
    cases h
    exact ⟨state, states, hstates, rfl⟩

theorem counted_step (h : step collect st e = some st') :
    counted st' = counted st + gain collect (outcomes st e) := by
  have hquiet : counted st' = counted st → counted st' = counted st + gain collect [] := by
    intro hsame
    cases collect <;> exact hsame
  unfold step at h
  cases e with
  | setup_bbcc tid x =>
    simp only [Option.ite_none_right_eq_some, Option.some.injEq] at h
    obtain ⟨-, rfl⟩ := h
    exact hquiet (counted_congr rfl fun b => rfl)
  | log tid helper =>
    simp only [Option.ite_none_right_eq_some] at h
    exact counted_log h.2
  | pre_signal tid =>
    cases h
    exact hquiet (counted_congr rfl fun b => rfl)
  | post_signal tid returned =>
    obtain ⟨state, states, -, rfl⟩ := post_signal_cases h
    exact hquiet (counted_congr rfl fun b => rfl)
  | dump_profile active =>
    cases h
    exact hquiet (counted_dump_profile st active)
  | set_instrument_state state returned =>
    cases h
    exact hquiet (counted_set_instrument_state st state returned)

theorem run_outcomes_cons {mid : Tool τ κ}
    (h : step collect st e = some mid) (events : List (Event τ κ)) :
    run_outcomes collect st (e :: events) = outcomes st e ++ run_outcomes collect mid events := by
  simp [run_outcomes, h]

theorem counted_run (h : run collect st events = some st') :
    counted st' = counted st + gain collect (run_outcomes collect st events) := by
  induction events generalizing st with
  | nil =>
    cases h
    cases collect <;> simp [run_outcomes, gain]
  | cons e events ih =>
    obtain ⟨mid, hmid, h⟩ := Option.bind_eq_some_iff.mp h
    rw [ih h, counted_step hmid, run_outcomes_cons hmid, gain_append, add_assoc]

end Laws

/-! ## What the last dump leaves out -/

section Last

variable {τ κ : Type} {st st' : Tool τ κ} {tid : τ} {e : Event τ κ} {events : List (Event τ κ)}
  {o : Outcome} {os : List Outcome}

/-- All states of a thread. -/
def ThreadInfo.all (t : ThreadInfo κ) : List (ExecState κ) := t.state :: t.states

/-- A thread or a handler is in the block, and no other block pays for it. -/
def Open (st : Tool τ κ) (b : κ) : Prop := ∃ tid, ⟨some b, none⟩ ∈ (st.threads tid).all

/-- Costs wait in blocks that have passed, in lost ones and in open ones. -/
structure Held (lost : κ → Prop) (st : Tool τ κ) : Prop where
  pending : ∀ b, (st.bbccs b).pending ≠ 0 → 0 < (st.bbccs b).ecounter_sum ∨ lost b ∨ Open st b
  paying : ∀ tid, ∀ s ∈ (st.threads tid).all, ∀ n, s.nonskipped = some n →
    0 < (st.bbccs n).ecounter_sum

/-- The open blocks of the states that an event ends: the end of a handler, and a jump out of
handlers, which does not go back to what they have interrupted. -/
def abandons (st : Tool τ κ) : Event τ κ → κ → Prop
  | .setup_bbcc tid x, b => ⟨some b, none⟩ ∈ (st.threads tid).states.take x.ended
  | .post_signal tid _, b => (st.threads tid).state = ⟨some b, none⟩
  | _, _ => False

variable {lost : κ → Prop}

/-- What an event has to keep that adds no costs and changes one thread. -/
theorem Held.of_update [DecidableEq τ] {lost' : κ → Prop} (h : Held lost st)
    {t : ThreadInfo κ} (hthreads : st'.threads = Function.update st.threads tid t)
    (hpending : ∀ b, (st'.bbccs b).pending = (st.bbccs b).pending)
    (hgrows : ∀ b, (st.bbccs b).ecounter_sum ≤ (st'.bbccs b).ecounter_sum)
    (hlost : ∀ b, lost b → lost' b)
    (hopen : ∀ b, ⟨some b, none⟩ ∈ (st.threads tid).all →
      0 < (st'.bbccs b).ecounter_sum ∨ lost' b ∨ ⟨some b, none⟩ ∈ t.all)
    (hpays : ∀ s ∈ t.all, s ∈ (st.threads tid).all ∨ ∀ n, s.nonskipped = some n →
      0 < (st'.bbccs n).ecounter_sum) : Held lost' st' := by
  constructor
  · intro b hb
    rw [hpending] at hb
    rcases h.pending b hb with hpassed | hb | ⟨tid', hin⟩
    · exact .inl (hpassed.trans_le (hgrows b))
    · exact .inr (.inl (hlost b hb))
    · by_cases htid : tid' = tid
      · subst htid
        refine (hopen b hin).imp_right (Or.imp_right fun hin => ⟨tid', ?_⟩)
        rwa [hthreads, Function.update_self]
      · refine .inr (.inr ⟨tid', ?_⟩)
        rwa [hthreads, Function.update_of_ne htid]
  · intro tid' s hs n hn
    rw [hthreads] at hs
    by_cases htid : tid' = tid
    · subst htid
      rw [Function.update_self] at hs
      rcases hpays s hs with hold | hnew
      · exact (h.paying tid' s hold n hn).trans_le (hgrows n)
      · exact hnew n hn
    · rw [Function.update_of_ne htid] at hs
      exact (h.paying tid' s hs n hn).trans_le (hgrows n)

variable [DecidableEq κ]

theorem held_switch_on (I1c D1c LLc : cache_t) (on : List κ) :
    Held lost (set_instrument_state (post_clo_init τ κ I1c D1c LLc false) true on) := by
  constructor
  · intro b hb
    exact absurd (add_zero _) hb
  · intro tid s hs n hn
    rw [List.mem_singleton.mp hs] at hn
    cases hn

theorem Held.charge (h : Held lost st) (hcharge : charge st tid o = some st') : Held lost st' := by
  obtain ⟨b, bbcc, rfl, hecounter, -, hpays⟩ := charge_cases hcharge
  have hsame : ∀ n, (Function.update st.bbccs b bbcc n).ecounter_sum =
      (st.bbccs n).ecounter_sum := by
    intro n
    by_cases hn : n = b
    · subst hn
      rw [Function.update_self, hecounter]
    · rw [Function.update_of_ne hn]
  constructor
  · intro n hn
    dsimp only at hn ⊢
    rw [hsame]
    by_cases hb : n = b
    · subst hb
      rcases hpays with hpays | hin
      · exact .inl (h.paying tid _ List.mem_cons_self n hpays)
      · exact .inr (.inr ⟨tid, hin ▸ List.mem_cons_self⟩)
    · rw [Function.update_of_ne hb] at hn
      exact h.pending n hn
  · intro tid' s hs n hn
    dsimp only
    rw [hsame]
    exact h.paying tid' s hs n hn

theorem Held.charges (h : Held lost st)
    (hcharges : os.foldlM (fun st o => callgrind.charge st tid o) st = some st') :
    Held lost st' := by
  induction os generalizing st with
  | nil =>
    cases hcharges
    exact h
  | cons o os ih =>
    rw [List.foldlM_cons] at hcharges
    obtain ⟨mid, hmid, hcharges⟩ := Option.bind_eq_some_iff.mp hcharges
    exact ih (h.charge hmid) hcharges

variable [Fintype κ]

/-- The dump at the end leaves out a block only if it has never passed. -/
theorem Held.finish (h : Held lost st) (off returned : List κ) {b : κ}
    (hb : ((finish (set_instrument_state st false off) returned).bbccs b).pending ≠ 0) :
    (st.bbccs b).ecounter_sum = 0 ∧ (lost b ∨ Open st b) := by
  have hsame : ((set_instrument_state st false off).bbccs b).ecounter_sum =
      (st.bbccs b).ecounter_sum ∧
      ((set_instrument_state st false off).bbccs b).pending = (st.bbccs b).pending := by
    unfold set_instrument_state
    split <;> exact ⟨rfl, rfl⟩
  unfold callgrind.finish dump_profile at hb
  dsimp only at hb
  split at hb
  · exact absurd (add_zero _) hb
  · rename_i hdumped
    have hecounter : ¬ 0 < (st.bbccs b).ecounter_sum := fun hpos =>
      hdumped (.inl (.inl (hsame.1 ▸ hpos)))
    have hpending : (st.bbccs b).pending ≠ 0 := hsame.2 ▸ hb
    exact ⟨Nat.eq_zero_of_not_pos hecounter, (h.pending b hpending).resolve_left hecounter⟩

variable [DecidableEq τ]

/-- The blocks that the events of a run abandon. -/
def run_abandons (collect : Bool) (st : Tool τ κ) : List (Event τ κ) → κ → Prop
  | [], _ => False
  | e :: events, b => abandons st e b ∨
    ∃ st', step collect st e = some st' ∧ run_abandons collect st' events b

/-- The events between switching the instrumentation on and off: no dump and no other switch, and
a block that pays for a skipped function has passed, as it has called the function. -/
def inside (st : Tool τ κ) : List (Event τ κ) → Bool
  | [] => true
  | e :: events =>
    (match e, step true st e with
      | .setup_bbcc _ x, some st' => decide (∀ n ∈ x.nonskipped, 0 < (st'.bbccs n).ecounter_sum)
      | .setup_bbcc .., none => true
      | .log .., _ => true
      | .pre_signal _, _ => true
      | .post_signal .., _ => true
      | .dump_profile _, _ => false
      | .set_instrument_state .., _ => false) &&
    ((step true st e).map fun st' => inside st' events).getD true

omit [Fintype κ] in
theorem Held.setup_bbcc (h : Held lost st) {x : Arrival κ}
    (hpays : ∀ n, x.nonskipped = some n → 0 < ((setup_bbcc true st tid x).bbccs n).ecounter_sum) :
    Held (fun b => lost b ∨ abandons st (.setup_bbcc tid x) b) (setup_bbcc true st tid x) := by
  refine h.of_update rfl (fun b => rfl) (fun b => Nat.le_add_right _ _) (fun b => .inl) ?_ ?_
  · intro b hb
    rcases List.mem_cons.mp hb with hb | hb
    · -- the thread leaves `b` now
      left
      simp [callgrind.setup_bbcc, ← hb]
    · rw [← List.take_append_drop x.ended (st.threads tid).states] at hb
      rcases List.mem_append.mp hb with hb | hb
      · exact .inr (.inl (.inr hb))
      · exact .inr (.inr (List.mem_cons_of_mem _ hb))
  · intro s hs
    rcases List.mem_cons.mp hs with rfl | hs
    · exact .inr hpays
    · exact .inl (List.mem_cons_of_mem _ (List.mem_of_mem_drop hs))

theorem Held.step (h : Held lost st)
    (hinside : inside st (e :: events) = true) (hstep : step true st e = some st') :
    Held (fun b => lost b ∨ abandons st e b) st' := by
  have hmono : ∀ {st' : Tool τ κ}, Held lost st' → Held (fun b => lost b ∨ abandons st e b) st' :=
    fun h => ⟨fun b hb => (h.pending b hb).imp_right (Or.imp_left .inl), h.paying⟩
  unfold inside at hinside
  rw [hstep, Bool.and_eq_true] at hinside
  obtain ⟨he, -⟩ := hinside
  unfold callgrind.step at hstep
  cases e with
  | setup_bbcc tid x =>
    simp only [Option.ite_none_right_eq_some, Option.some.injEq] at hstep
    obtain ⟨-, rfl⟩ := hstep
    exact h.setup_bbcc (of_decide_eq_true he)
  | log tid helper =>
    simp only [Option.ite_none_right_eq_some] at hstep
    obtain ⟨-, hlog⟩ := hstep
    unfold callgrind.log at hlog
    obtain ⟨⟨os, caches⟩, -, hlog⟩ := Option.bind_eq_some_iff.mp hlog
    have hcaches : Held lost { st with caches } := ⟨h.pending, h.paying⟩
    exact hmono (hcaches.charges hlog)
  | pre_signal tid =>
    cases hstep
    refine h.of_update rfl (fun b => rfl) (fun b => le_rfl) (fun b => .inl)
      (fun b hb => .inr (.inr (by exact List.mem_cons_of_mem _ hb))) fun s hs => ?_
    rcases List.mem_cons.mp hs with rfl | hs
    · exact .inr (by rintro n ⟨⟩)
    · exact .inl hs
  | post_signal tid returned =>
    obtain ⟨state, states, hstates, rfl⟩ := post_signal_cases hstep
    have hall : (st.threads tid).all = (st.threads tid).state :: state :: states := by
      rw [← hstates]
      rfl
    refine h.of_update rfl (fun b => rfl) (fun b => le_rfl) (fun b => .inl) (fun b hb => ?_) ?_
    · rw [hall] at hb
      rcases List.mem_cons.mp hb with hb | hb
      · exact .inr (.inl (.inr hb.symm))
      · exact .inr (.inr hb)
    · intro s hs
      rw [hall]
      exact .inl (List.mem_cons_of_mem _ hs)
  | dump_profile active => cases he
  | set_instrument_state state returned => cases he

theorem Held.run (h : Held lost st)
    (hinside : inside st events = true) (hrun : run true st events = some st') :
    Held (fun b => lost b ∨ run_abandons true st events b) st' := by
  induction events generalizing st lost with
  | nil =>
    cases hrun
    simpa only [run_abandons, or_false] using h
  | cons e events ih =>
    obtain ⟨mid, hmid, hrun⟩ := Option.bind_eq_some_iff.mp hrun
    have hmid' := h.step hinside hmid
    unfold inside at hinside
    rw [hmid, Bool.and_eq_true] at hinside
    have hlast := ih hmid' hinside.2 hrun
    simpa only [run_abandons, hmid, Option.some.injEq, exists_eq_left', or_assoc] using hlast

/-- In every run, with its threads, handlers, dumps and switches in any order, a counter of the
total and what the blocks still hold of it add up to the accesses that raise it. When the
instrumentation was on once, the total at the end misses a count only in a block that has not
passed, and that a thread or handler was in when it went off, or when an event has ended it. -/
theorem only_open_blocks_miss_the_total (I1c D1c LLc : cache_t) (events : List (Event τ κ))
    (st : Tool τ κ) (hrun : run true (post_clo_init τ κ I1c D1c LLc false) events = some st) :
    (∀ g i, st.total_cost g i + ∑ b, (st.bbccs b).pending g i =
      tally (run_outcomes true (post_clo_init τ κ I1c D1c LLc false) events) g i) ∧
    ∀ on body off returned, events = .set_instrument_state true on :: body →
      let first := set_instrument_state (post_clo_init τ κ I1c D1c LLc false) true on
      inside first body = true →
      let last := finish (set_instrument_state st false off) returned
      (∀ g i, last.total_cost g i + ∑ b, (last.bbccs b).pending g i =
        tally (run_outcomes true (post_clo_init τ κ I1c D1c LLc false) events) g i) ∧
      ∀ b, (last.bbccs b).pending ≠ 0 →
        (st.bbccs b).ecounter_sum = 0 ∧ (run_abandons true first body b ∨ Open st b) := by
  have hcounted : ∀ g i, counted st g i =
      tally (run_outcomes true (post_clo_init τ κ I1c D1c LLc false) events) g i := by
    intro g i
    rw [counted_run hrun, counted_post_clo_init, zero_add, gain, if_pos rfl, sum_cost_apply]
  constructor
  · intro g i
    rw [← counted_apply, hcounted]
  · rintro on body off returned rfl first hinside
    refine ⟨?_, ?_⟩
    · intro g i
      rw [← counted_apply, counted_finish, hcounted]
    · intro b hb
      have hfirst : Held (fun _ => False) first := held_switch_on I1c D1c LLc on
      simpa only [false_or] using (hfirst.run hinside hrun).finish off returned hb

end Last

/-- Two threads in three blocks: the first thread leaves block `0` for block `1`, which the other
thread is in, and a signal handler runs block `2` in it. -/
def twoThreads : List (Event Bool (Fin 3)) :=
  [.setup_bbcc false ⟨0, none, none, [], 0⟩, .log false (.log_1I1Dr (0, 4) (4096, 8)),
   .setup_bbcc true ⟨1, none, none, [], 0⟩, .log true (.log_1I1Dw (64, 4) (4096, 8)),
   .setup_bbcc false ⟨1, none, none, [], 0⟩, .log false (.log_1I0D (4, 4)), .pre_signal false,
   .setup_bbcc false ⟨2, none, none, [], 0⟩, .log false (.log_1I0D (128, 4)),
   .post_signal false []]

/-- Caches of one line. -/
def oneLine : cache_t := ⟨64, 1, 64⟩

/-- Of the four instructions, one is in a block that has passed. That of the handler is in a block
that no thread is in at the end. -/
theorem open_blocks_miss_three_instructions :
    let start := post_clo_init Bool (Fin 3) oneLine oneLine oneLine false
    ∃ st, run true start (.set_instrument_state true [] :: twoThreads) = some st ∧
      let last := finish (set_instrument_state st false []) []
      last.total_cost .EG_IR 0 = 1 ∧
      last.total_cost .EG_IR 0 + ∑ b, (last.bbccs b).pending .EG_IR 0 = 4 ∧
      run_abandons true (set_instrument_state start true []) twoThreads 2 ∧ ¬ Open st 2 := by
  intro start
  have hone : (run true start (.set_instrument_state true [] :: twoThreads)).map (fun st =>
      (finish (set_instrument_state st false []) []).total_cost .EG_IR 0) = some 1 := by
    decide +kernel
  have hhandler : (run true start (.set_instrument_state true [] :: twoThreads)).map (fun st =>
      (((finish (set_instrument_state st false []) []).bbccs 2).pending .EG_IR 0,
        decide (∃ tid, ⟨some 2, none⟩ ∈ (st.threads tid).all))) = some (1, false) := by
    decide +kernel
  have hfour : tally (run_outcomes true start (.set_instrument_state true [] :: twoThreads))
      .EG_IR 0 = 4 := by decide +kernel
  obtain ⟨st, hrun, hone⟩ := Option.map_eq_some_iff.mp hone
  rw [hrun, Option.map_some, Option.some.injEq, Prod.mk.injEq, decide_eq_false_iff_not] at hhandler
  obtain ⟨hcounts, hblocks⟩ := (only_open_blocks_miss_the_total oneLine oneLine oneLine _ st
    hrun).2 [] twoThreads [] [] rfl (by decide +kernel)
  have hpending : ((finish (set_instrument_state st false []) []).bbccs 2).pending ≠ 0 := by
    intro hzero
    rw [hzero] at hhandler
    cases hhandler.1
  exact ⟨st, hrun, hone, (hcounts .EG_IR 0).trans hfour,
    (hblocks 2 hpending).2.resolve_right hhandler.2, hhandler.2⟩

end ditto.callgrind
