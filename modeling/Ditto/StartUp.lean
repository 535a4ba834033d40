-- The start of the network threads against the first connections. Nothing
-- holds an acceptor back until the thread of its turn has stored its epoll
-- instance.
import Ditto.EpollServer

open Function (update)
open Interleaving

namespace ditto.epoll_server

/-! ## Stores and turns -/

/-- How often an acceptor has taken a turn. -/
def dispatches (a : ℕ) (acts : List Action) : ℕ :=
  acts.countP fun
    | .accept b _ => b = a
    | _ => false

/-- A connection is accepted behind the store of the thread of its turn. The k-th turn of an
acceptor goes to the thread k modulo the number of threads. -/
def StoredInTime (cfg : Config) (front : List Action) : Action → Prop
  | .accept a (some _) => .store (dispatches a front % cfg.network_thread_number) ∈ front
  | _ => True

/-- The step is neither a store nor a turn of an acceptor. -/
def Action.quiet : Action → Bool
  | .store _ => false
  | .accept _ _ => false
  | _ => true

/-- What the schedule says about the state of the start-up. -/
structure Started (cfg : Config) (acts : List Action) (s : Server) : Prop where
  entry : ∀ i, s.network_epoll_fds_ i = (s.threads i).stored
  stored : ∀ i, (s.threads i).stored.isSome ↔ .store i ∈ acts
  turn : ∀ a, s.network_turn a = dispatches a acts % cfg.network_thread_number
  kept : ∀ r ∈ s.registrations, ∀ e, r.network_epoll_fd = some e →
    (s.threads r.network_turn).stored = some e
  ready : (∀ r ∈ s.registrations, r.network_epoll_fd.isSome) ↔ EachAfter (StoredInTime cfg) acts

variable {cfg : Config} {acts : List Action} {s s' : Server} {act : Action}

theorem dispatches_snoc_of_quiet (hquiet : act.quiet = true) (a : ℕ) :
    dispatches a (acts ++ [act]) = dispatches a acts := by
  unfold dispatches
  rw [List.countP_append]
  cases act <;> simp_all [Action.quiet]

theorem dispatches_snoc_accept (a b : ℕ) (connfd : Option ℕ) :
    dispatches a (acts ++ [.accept b connfd]) =
      if b = a then dispatches a acts + 1 else dispatches a acts := by
  unfold dispatches
  by_cases hb : b = a
  · subst hb
    simp [List.countP_append]
  · simp [List.countP_append, hb]

/-- The turn goes back to 0 behind the last thread. -/
theorem wrap_eq_mod {n : ℕ} (hn : 0 < n) (k : ℕ) :
    (if k % n + 1 = n then 0 else k % n + 1) = (k + 1) % n := by
  have hlt := Nat.mod_lt k hn
  rw [Nat.add_mod]
  by_cases hone : n = 1
  · subst hone
    simp [Nat.mod_one]
  · rw [Nat.mod_eq_of_lt (show 1 < n by omega)]
    split
    · rename_i hwrap
      rw [hwrap, Nat.mod_self]
    · exact (Nat.mod_eq_of_lt (by omega)).symm

theorem started_start : Started cfg [] .start where
  entry _ := rfl
  stored i := by simp [Server.start, Phase.stored]
  turn a := by simp [Server.start, dispatches]
  kept r hr := by cases hr
  ready := ⟨fun _ => eachAfter_nil, fun _ r hr => by cases hr⟩

theorem stored_update {threads : ℕ → Phase} {i : ℕ} {phase : Phase}
    (hsame : phase.stored = (threads i).stored) (j : ℕ) :
    (update threads i phase j).stored = (threads j).stored := by
  by_cases hj : j = i
  · subst hj
    simpa using hsame
  · simp [hj]

/-- A step that is neither a store nor a turn keeps what the schedule says. -/
theorem Started.frame (h : Started cfg acts s) (hquiet : act.quiet = true)
    (hthreads : ∀ i, (s'.threads i).stored = (s.threads i).stored)
    (hentries : s'.network_epoll_fds_ = s.network_epoll_fds_)
    (hturn : s'.network_turn = s.network_turn) (hregs : s'.registrations = s.registrations) :
    Started cfg (acts ++ [act]) s' where
  entry i := by rw [hentries, hthreads, h.entry]
  stored i := by
    rw [hthreads, h.stored, List.mem_append, List.mem_singleton]
    constructor
    · exact .inl
    · rintro (hmem | rfl)
      · exact hmem
      · cases hquiet
  turn a := by rw [hturn, h.turn, dispatches_snoc_of_quiet hquiet]
  kept r hr e he := by
    rw [hregs] at hr
    rw [hthreads]
    exact h.kept r hr e he
  ready := by
    rw [hregs, h.ready, eachAfter_snoc]
    refine (and_iff_left ?_).symm
    cases act <;> simp_all [StoredInTime, Action.quiet]

theorem Started.store {i epoll_fd : ℕ} (h : Started cfg acts s)
    (hphase : s.threads i = .created epoll_fd) :
    Started cfg (acts ++ [.store i]) (s.store i epoll_fd) := by
  have hself : ((s.store i epoll_fd).threads i).stored = some epoll_fd := by
    simp [Server.store, Server.become, Phase.stored]
  have hother : ∀ j, j ≠ i → (s.store i epoll_fd).threads j = s.threads j := by
    intro j hj
    simp [Server.store, Server.become, hj]
  refine ⟨?_, ?_, ?_, ?_, ?_⟩
  · intro j
    by_cases hj : j = i
    · subst hj
      rw [hself]
      simp [Server.store]
    · rw [hother j hj, ← h.entry]
      simp [Server.store, Server.become, hj]
  · intro j
    by_cases hj : j = i
    · subst hj
      simp [hself]
    · rw [hother j hj, h.stored]
      simp [hj]
  · intro a
    have hcount : dispatches a (acts ++ [.store i]) = dispatches a acts := by
      simp [dispatches, List.countP_append]
    rw [hcount]
    exact h.turn a
  · intro r hr e he
    have hstored := h.kept r hr e he
    have hne : r.network_turn ≠ i := by
      intro heq
      rw [heq, hphase] at hstored
      cases hstored
    rw [hother _ hne]
    exact hstored
  · rw [eachAfter_snoc, ← h.ready]
    exact (and_iff_left trivial).symm

/-- The turn of an acceptor goes to the next thread. -/
theorem Started.network_turn_turn {a : ℕ} (h : Started cfg acts s) (connfd : Option ℕ)
    (hturn : s'.network_turn = s.network_turn) (b : ℕ) :
    (s'.turn cfg a).network_turn b =
      dispatches b (acts ++ [.accept a connfd]) % cfg.network_thread_number := by
  rw [dispatches_snoc_accept]
  unfold Server.turn
  simp only [hturn, h.turn, wrap_eq_mod cfg.network_pos]
  by_cases hb : b = a
  · subst hb
    simp
  · simp [hb, Ne.symm hb, h.turn]

theorem mem_snoc_accept {i a : ℕ} {connfd : Option ℕ} :
    Action.store i ∈ acts ++ [.accept a connfd] ↔ .store i ∈ acts := by
  simp

theorem Started.refuse {a : ℕ} (h : Started cfg acts s) :
    Started cfg (acts ++ [.accept a none]) (s.turn cfg a) where
  entry := h.entry
  stored i := (h.stored i).trans mem_snoc_accept.symm
  turn := h.network_turn_turn none rfl
  kept := h.kept
  ready := by
    rw [eachAfter_snoc, ← h.ready]
    exact (and_iff_left trivial).symm

theorem Started.accept {a connfd : ℕ} (h : Started cfg acts s) :
    Started cfg (acts ++ [.accept a (some connfd)]) ((s.handleNewConn a connfd).turn cfg a) where
  entry := h.entry
  stored i := (h.stored i).trans mem_snoc_accept.symm
  turn := h.network_turn_turn (some connfd) rfl
  kept r hr e he := by
    rcases List.mem_append.mp hr with hr | hr
    · exact h.kept r hr e he
    · rw [List.mem_singleton.mp hr] at he ⊢
      exact (h.entry _).symm.trans he
  ready := by
    -- The entry of the turn is there when its thread has stored it.
    have hentry : (s.network_epoll_fds_ (s.network_turn a)).isSome ↔
        .store (dispatches a acts % cfg.network_thread_number) ∈ acts := by
      rw [h.entry, h.stored, h.turn]
    rw [eachAfter_snoc, ← h.ready]
    have hregs : ((s.handleNewConn a connfd).turn cfg a).registrations = s.registrations ++
        [⟨s.network_turn a, s.network_epoll_fds_ (s.network_turn a), connfd⟩] := rfl
    rw [hregs, List.forall_mem_append, List.forall_mem_singleton]
    exact and_congr_right fun _ => hentry

theorem Started.step (h : Started cfg acts s) (hstep : Step cfg s act s') :
    Started cfg (acts ++ [act]) s' := by
  cases hstep with
  | create _ hphase _ => exact h.frame rfl (stored_update (congrArg Phase.stored hphase).symm) rfl rfl rfl
  | store hphase => exact h.store hphase
  | refuse _ => exact h.refuse
  | accept _ _ => exact h.accept
  | hangup _ _ => exact h.frame rfl (fun _ => rfl) rfl rfl rfl
  | read hphase _ _ _ _ => exact h.frame rfl (stored_update (congrArg Phase.stored hphase).symm) rfl rfl rfl
  | send hphase _ _ => exact h.frame rfl (stored_update (congrArg Phase.stored hphase).symm) rfl rfl rfl
  | fail hphase => exact h.frame rfl (stored_update (congrArg Phase.stored hphase).symm) rfl rfl rfl
  | close hphase =>
    refine h.frame rfl ?_ (Server.network_epoll_fds_closeConn s _)
      (Server.network_turn_closeConn s _) (Server.registrations_closeConn s _)
    simp only [Server.become, Server.threads_closeConn]
    exact stored_update (congrArg Phase.stored hphase).symm
  | done hphase => exact h.frame rfl (stored_update (congrArg Phase.stored hphase).symm) rfl rfl rfl

theorem started (h : Reaches cfg acts s) : Started cfg acts s := by
  induction h with
  | start => exact started_start
  | snoc _ hstep ih => exact ih.step hstep

/-! ## The laws -/

/-- Every connection is registered with an instance that its thread has stored exactly when each
accept comes behind the store of the thread of its turn. -/
theorem registrations_are_stored_iff_accepts_come_later (cfg : Config) (acts : List Action)
    (s : Server) (h : Reaches cfg acts s) :
    (∀ r ∈ s.registrations, ∃ e, r.network_epoll_fd = some e ∧
      (s.threads r.network_turn).stored = some e) ↔ EachAfter (StoredInTime cfg) acts := by
  have hs := started h
  rw [← hs.ready]
  constructor
  · intro hall r hr
    obtain ⟨e, he, -⟩ := hall r hr
    simp [he]
  · intro hall r hr
    obtain ⟨e, he⟩ := Option.isSome_iff_exists.mp (hall r hr)
    exact ⟨e, he, hs.kept r hr e he⟩

/-- The first connection comes in before the thread has created its epoll instance. -/
theorem an_early_connection_has_no_instance :
    ¬ ∀ (cfg : Config) (acts : List Action) (s : Server), Reaches cfg acts s →
      ∀ r ∈ s.registrations, ∃ e, r.network_epoll_fd = some e ∧
        (s.threads r.network_turn).stored = some e := by
  intro h
  have hrun : Reaches oneThread [.accept 0 (some 4)]
      ((Server.start.handleNewConn 0 4).turn oneThread 0) :=
    .snoc .start (.accept (by decide) rfl)
  obtain ⟨e, he, -⟩ := h _ _ _ hrun ⟨0, none, 4⟩ List.mem_cons_self
  cases he

/-- The thread creates and stores its instance, and then a connection comes in. -/
def inOrder : List Action := [.create 0 3, .store 0, .accept 0 (some 4)]

/-- The law on a connection that comes in behind the store. -/
theorem a_later_connection_has_an_instance :
    ∃ s, Reaches oneThread inOrder s ∧ s.registrations = [⟨0, some 3, 4⟩] ∧
      ∀ r ∈ s.registrations, ∃ e, r.network_epoll_fd = some e ∧
        (s.threads r.network_turn).stored = some e := by
  have hrun : Reaches oneThread inOrder
      ((((Server.start.create 0 3).store 0 3).handleNewConn 0 4).turn oneThread 0) :=
    .snoc (.snoc (.snoc .start (.create (by decide) rfl rfl)) (.store rfl))
      (.accept (by decide) rfl)
  refine ⟨_, hrun, rfl, ?_⟩
  apply (registrations_are_stored_iff_accepts_come_later oneThread inOrder _ hrun).mpr
  have hbefore : EachAfter (StoredInTime oneThread) [.create 0 3, .store 0] :=
    eachAfter_snoc.mpr ⟨eachAfter_snoc.mpr ⟨eachAfter_nil, trivial⟩, trivial⟩
  have hstored : StoredInTime oneThread [.create 0 3, .store 0] (.accept 0 (some 4)) := by
    show Action.store 0 ∈ [Action.create 0 3, Action.store 0]
    decide
  exact eachAfter_snoc.mpr ⟨hbefore, hstored⟩

end ditto.epoll_server
