-- Where the replies of the epoll server go. A thread that answers a read keeps
-- the index of its connection, and the slot behind this index belongs to a new
-- client once the descriptor is closed and given out again.
import Ditto.EpollServer

open Function (update)
open Interleaving

namespace ditto.epoll_server

/-! ## The owner of a connection -/

/-- Every reply went to the connection that its request came from. -/
def Server.RepliesReturn (s : Server) : Prop := ∀ d ∈ s.delivered, d.receiver = d.client

/-- The step is no send that fails with replies left. -/
def Action.LastFails : Action → Prop
  | .fail _ left => left = 0
  | _ => True

/-- The thread that a connection is registered with is the only one that works on it. -/
structure Owned (s : Server) : Prop where
  epoll : ∀ i e, (s.threads i).epoll_fd = some e → s.files e = some (.epoll i)
  slot : ∀ i fd, s.socket_fd_ i = some fd → fd = i
  socket : ∀ fd client, s.files fd = some (.socket client) →
    s.socket_fd_ fd = some fd ∧ client < s.accepted
  watch : ∀ fd e, s.watched fd = some e → ∃ client, s.files fd = some (.socket client)
  busy : ∀ i slot client, (s.threads i).busy = some (slot, client) →
    s.files slot = some (.socket client) ∧ s.watched slot = (s.threads i).epoll_fd
  last : ∀ i e slot client left, s.threads i = .running e (.closing slot client left) → left = 0
  returns : s.RepliesReturn

variable {cfg : Config} {acts : List Action} {s s' : Server} {act : Action}

theorem owned_start : Owned .start where
  epoll i e h := by cases h
  slot i fd h := by cases h
  socket fd client h := by cases h
  watch fd e h := by cases h
  busy i slot client h := by cases h
  last i e slot client left h := by cases h
  returns d hd := by cases hd

/-- Nobody but the thread that a connection is registered with works on it. -/
theorem Owned.eq_of_watched (h : Owned s) {i j e slot client : ℕ}
    (hi : (s.threads i).epoll_fd = some e) (hwatched : s.watched slot = some e)
    (hj : (s.threads j).busy = some (slot, client)) : j = i := by
  obtain ⟨-, hslot⟩ := h.busy j slot client hj
  rw [hwatched] at hslot
  have hfile := h.epoll i e hi
  rw [h.epoll j e hslot.symm] at hfile
  cases hfile
  rfl

/-! ## The steps of one thread -/

/-- A thread goes on with an epoll instance of its own. It may take up a connection that is open
and registered with it. -/
theorem Owned.become (h : Owned s) {i : ℕ} {phase : Phase}
    (hepoll : ∀ e, phase.epoll_fd = some e → s.files e = some (.epoll i))
    (hbusy : ∀ slot client, phase.busy = some (slot, client) →
      s.files slot = some (.socket client) ∧ s.watched slot = phase.epoll_fd)
    (hlast : ∀ e slot client left, phase = .running e (.closing slot client left) → left = 0) :
    Owned (s.become i phase) := by
  refine ⟨?_, h.slot, h.socket, h.watch, ?_, ?_, h.returns⟩
  · exact (Function.forall_update_iff s.threads (p := fun j phase => ∀ e,
      phase.epoll_fd = some e → s.files e = some (.epoll j))).mpr ⟨hepoll, fun j _ => h.epoll j⟩
  · exact (Function.forall_update_iff s.threads (p := fun _ phase => ∀ slot client,
      phase.busy = some (slot, client) → s.files slot = some (.socket client) ∧
        s.watched slot = phase.epoll_fd)).mpr ⟨hbusy, fun j _ => h.busy j⟩
  · exact (Function.forall_update_iff s.threads (p := fun _ phase => ∀ e slot client left,
      phase = .running e (.closing slot client left) → left = 0)).mpr ⟨hlast, fun j _ => h.last j⟩

/-- A running thread goes on with its next task. -/
theorem Owned.task (h : Owned s) {i e : ℕ} {task task' : Task}
    (hphase : s.threads i = .running e task)
    (hbusy : ∀ slot client, (Phase.running e task').busy = some (slot, client) →
      s.files slot = some (.socket client) ∧ s.watched slot = some e)
    (hlast : ∀ slot client left, task' = .closing slot client left → left = 0) :
    Owned (s.become i (.running e task')) := by
  refine h.become ?_ hbusy ?_
  · intro e' he'
    cases he'
    exact h.epoll i e (by rw [hphase]; rfl)
  · intro e' slot client left heq
    cases heq
    exact hlast slot client left rfl

/-- A thread that has nothing left to send is not busy. -/
theorem Owned.rest (h : Owned s) {i e : ℕ} {task task' : Task}
    (hphase : s.threads i = .running e task) (hidle : (Phase.running e task').busy = none) :
    Owned (s.become i (.running e task')) := by
  refine h.task hphase ?_ ?_
  · intro slot client hbusy
    rw [hidle] at hbusy
    cases hbusy
  · rintro slot client left rfl
    cases hidle

/-- The connection of a reply is the one that its request came from. -/
theorem Owned.receiver_eq (h : Owned s) {i slot client fd receiver : ℕ}
    (hbusy : (s.threads i).busy = some (slot, client)) (hslot : s.socket_fd_ slot = some fd)
    (hopen : s.files fd = some (.socket receiver)) : receiver = client := by
  obtain ⟨hfile, -⟩ := h.busy i slot client hbusy
  rw [h.slot slot fd hslot, hfile] at hopen
  cases hopen
  rfl

theorem Owned.deliver (h : Owned s) {client receiver : ℕ} (heq : receiver = client) :
    Owned (s.deliver client receiver) := by
  refine ⟨h.epoll, h.slot, h.socket, h.watch, h.busy, h.last, ?_⟩
  intro d hd
  rcases List.mem_append.mp hd with hd | hd
  · exact h.returns d hd
  · rw [List.mem_singleton.mp hd]
    exact heq

/-! ## The steps that open and close files -/

/-- A file that is opened gets a free descriptor, so the open files stay as they are. -/
theorem update_of_free {files : ℕ → Option File} {fd x : ℕ} {file file' : File}
    (hfree : files fd = none) (hx : files x = some file) :
    update files fd (some file') x = some file := by
  have hne : x ≠ fd := by
    rintro rfl
    rw [hfree] at hx
    cases hx
  rw [Function.update_of_ne hne, hx]

theorem Owned.create (h : Owned s) {i e : ℕ} (hfree : s.files e = none) : Owned (s.create i e) := by
  let opened : Server := { s with files := update s.files e (some (.epoll i)) }
  have hopened : Owned opened := by
    refine ⟨?_, h.slot, ?_, ?_, ?_, h.last, h.returns⟩
    · intro j e' hj
      exact update_of_free hfree (h.epoll j e' hj)
    · exact (Function.forall_update_iff s.files (p := fun fd file => ∀ client,
        file = some (.socket client) → s.socket_fd_ fd = some fd ∧ client < s.accepted)).mpr
          ⟨by simp, fun fd _ => h.socket fd⟩
    · intro fd e' hwatch
      obtain ⟨client, hfile⟩ := h.watch fd e' hwatch
      exact ⟨client, update_of_free hfree hfile⟩
    · intro j slot client hj
      obtain ⟨hfile, hwatch⟩ := h.busy j slot client hj
      exact ⟨update_of_free hfree hfile, hwatch⟩
  show Owned (opened.become i (.created e))
  refine hopened.become ?_ ?_ ?_
  · intro e' he'
    cases he'
    exact Function.update_self ..
  · intro slot client hbusy
    cases hbusy
  · intro e' slot client left heq
    cases heq

theorem Owned.store (h : Owned s) {i e : ℕ} (hphase : s.threads i = .created e) :
    Owned (s.store i e) := by
  have hrunning : Owned (s.become i (.running e .idle)) := by
    refine h.become ?_ ?_ ?_
    · intro e' he'
      cases he'
      exact h.epoll i e (by rw [hphase]; rfl)
    · intro slot client hbusy
      cases hbusy
    · intro e' slot client left heq
      cases heq
  exact ⟨hrunning.epoll, hrunning.slot, hrunning.socket, hrunning.watch, hrunning.busy,
    hrunning.last, hrunning.returns⟩

theorem Owned.turn (h : Owned s) (a : ℕ) : Owned (s.turn cfg a) :=
  ⟨h.epoll, h.slot, h.socket, h.watch, h.busy, h.last, h.returns⟩

theorem Owned.handleNewConn (h : Owned s) {a connfd : ℕ} (hfree : s.files connfd = none) :
    Owned (s.handleNewConn a connfd) := by
  refine ⟨?_, ?_, ?_, ?_, ?_, h.last, h.returns⟩
  · intro i e hi
    exact update_of_free hfree (h.epoll i e hi)
  · exact (Function.forall_update_iff s.socket_fd_ (p := fun i field => ∀ fd,
      field = some fd → fd = i)).mpr ⟨by simp, fun i _ => h.slot i⟩
  · intro fd client hfile
    by_cases hfd : fd = connfd
    · subst hfd
      rw [Server.files_handleNewConn, Function.update_self] at hfile
      cases hfile
      exact ⟨Function.update_self .., Nat.lt_succ_self _⟩
    · rw [Server.files_handleNewConn, Function.update_of_ne hfd] at hfile
      obtain ⟨hslot, hlt⟩ := h.socket fd client hfile
      exact ⟨(Function.update_of_ne hfd ..).trans hslot, Nat.lt_succ_of_lt hlt⟩
  · intro fd e hwatch
    by_cases hfd : fd = connfd
    · subst hfd
      exact ⟨_, Function.update_self ..⟩
    · rw [Server.watched_handleNewConn, Function.update_of_ne hfd] at hwatch
      obtain ⟨client, hfile⟩ := h.watch fd e hwatch
      exact ⟨client, update_of_free hfree hfile⟩
  · intro i slot client hi
    obtain ⟨hfile, hwatch⟩ := h.busy i slot client hi
    have hne : slot ≠ connfd := by
      rintro rfl
      rw [hfree] at hfile
      cases hfile
    exact ⟨update_of_free hfree hfile, (Function.update_of_ne hne ..).trans hwatch⟩

/-- A connection is closed that nobody works on. The field of its slot may stay. -/
theorem Owned.closed (h : Owned s) {fd e : ℕ} {v : Option ℕ} (hwatched : s.watched fd = some e)
    (hnobody : ∀ i client, (s.threads i).busy ≠ some (fd, client))
    (hslot : ∀ x, v = some x → x = fd) :
    Owned { s.close fd with socket_fd_ := update s.socket_fd_ fd v } := by
  obtain ⟨closed, hclosed⟩ := h.watch fd e hwatched
  have hfiles : ∀ x file, (s.close fd).files x = some file ↔ x ≠ fd ∧ s.files x = some file := by
    intro x file
    by_cases hx : x = fd
    · subst hx
      simp [Server.close]
    · simp [Server.close, hx]
  refine ⟨?_, ?_, ?_, ?_, ?_, h.last, h.returns⟩
  · intro i e' hi
    have hfile := h.epoll i e' hi
    refine (hfiles e' _).mpr ⟨?_, hfile⟩
    rintro rfl
    rw [hclosed] at hfile
    cases hfile
  · exact (Function.forall_update_iff s.socket_fd_ (p := fun i field => ∀ x,
      field = some x → x = i)).mpr ⟨hslot, fun i _ => h.slot i⟩
  · intro x client hfile
    obtain ⟨hne, hfile⟩ := (hfiles x _).mp hfile
    obtain ⟨hsocket, hlt⟩ := h.socket x client hfile
    exact ⟨(Function.update_of_ne hne ..).trans hsocket, hlt⟩
  · intro x e' hwatch
    have hne : x ≠ fd := by
      rintro rfl
      simp [Server.close] at hwatch
    simp only [Server.close, Function.update_of_ne hne] at hwatch
    obtain ⟨client, hfile⟩ := h.watch x e' hwatch
    exact ⟨client, (hfiles x _).mpr ⟨hne, hfile⟩⟩
  · intro i slot client hi
    obtain ⟨hfile, hwatch⟩ := h.busy i slot client hi
    have hne : slot ≠ fd := by
      rintro rfl
      exact hnobody i client hi
    exact ⟨(hfiles slot _).mpr ⟨hne, hfile⟩, (Function.update_of_ne hne ..).trans hwatch⟩

theorem Owned.hangup (h : Owned s) {i e fd : ℕ} (hphase : s.threads i = .running e .idle)
    (hwatched : s.watched fd = some e) : Owned (s.close fd) := by
  have hnobody : ∀ j client, (s.threads j).busy ≠ some (fd, client) := by
    intro j client hj
    have hji := h.eq_of_watched (by rw [hphase]; rfl) hwatched hj
    rw [hji, hphase] at hj
    cases hj
  have hclosed := h.closed hwatched hnobody (h.slot fd)
  rw [Function.update_eq_self] at hclosed
  exact hclosed

theorem Owned.closeConn (h : Owned s) {i e slot client : ℕ}
    (hphase : s.threads i = .running e (.closing slot client 0)) :
    Owned ((s.CloseConn slot).become i (.running e (.sending slot client 0))) := by
  have hbusy : (s.threads i).busy = some (slot, client) := by rw [hphase]; rfl
  obtain ⟨hfile, hwatched⟩ := h.busy i slot client hbusy
  obtain ⟨hsocket, -⟩ := h.socket slot client hfile
  rw [hphase] at hwatched
  -- The thread is done with the connection before it is closed.
  have hdone : Owned (s.become i (.running e (.sending slot client 0))) := h.rest hphase rfl
  have hnobody : ∀ j client', ((s.become i (.running e (.sending slot client 0))).threads j).busy ≠
      some (slot, client') := by
    refine (Function.forall_update_iff s.threads (p := fun _ phase => ∀ client',
      phase.busy ≠ some (slot, client'))).mpr ⟨by simp [Phase.busy], ?_⟩
    intro j hji client' hj
    exact hji (h.eq_of_watched (by rw [hphase]; rfl) hwatched hj)
  have hclosed := hdone.closed (v := none) hwatched hnobody (by simp)
  simp only [Server.CloseConn, hsocket]
  exact hclosed

/-! ## The steps of all threads -/

theorem Owned.step (h : Owned s) (hact : act.LastFails) (hstep : Step cfg s act s') : Owned s' := by
  cases hstep with
  | create _ _ hfree => exact h.create hfree
  | store hphase => exact h.store hphase
  | @refuse a _ => exact h.turn a
  | @accept a _ _ hfree => exact (h.handleNewConn hfree).turn a
  | hangup hphase hwatched => exact h.hangup hphase hwatched
  | @read i e slot fd client requests hphase hwatched hslot hopen _ =>
    rw [h.slot slot fd hslot] at hopen
    cases requests with
    | zero => exact h.rest hphase rfl
    | succ left =>
      refine h.task hphase ?_ (by simp)
      intro slot' client' hbusy
      cases hbusy
      exact ⟨hopen, hwatched⟩
  | @send i e slot client left fd receiver hphase hslot hopen =>
    have hbusy : (s.threads i).busy = some (slot, client) := by rw [hphase]; rfl
    have hsent := h.deliver (h.receiver_eq hbusy hslot hopen)
    cases left with
    | zero => exact hsent.rest hphase rfl
    | succ left =>
      refine hsent.task hphase ?_ (by simp)
      intro slot' client' hnext
      cases hnext
      have hkept := h.busy i slot client hbusy
      rw [hphase] at hkept
      exact hkept
  | @fail i e slot client left hphase =>
    refine h.task hphase ?_ ?_
    · intro slot' client' hnext
      cases hnext
      have hkept := h.busy i slot client (by rw [hphase]; rfl)
      rw [hphase] at hkept
      exact hkept
    · intro slot' client' left' heq
      cases heq
      exact hact
  | @close i e slot client left hphase =>
    have hlast := h.last i e slot client left hphase
    subst hlast
    exact h.closeConn hphase
  | done hphase => exact h.rest hphase rfl

theorem owned (h : Reaches cfg acts s) (hacts : ∀ a ∈ acts, a.LastFails) : Owned s :=
  h.invariant owned_start (fun _ _ _ hs hact hstep => hs.step hact hstep) hacts

/-- A thread that has replies left behind a send that failed closes the connection, a new client
gets its descriptor and its slot, and the next reply goes to this client. -/
theorem Owned.exists_misdirected (h : Owned s) {i e slot client left : ℕ}
    (hphase : s.threads i = .running e (.sending slot client (left + 2))) :
    ∃ t, Runs (Step cfg) (s.become i (.running e (.closing slot client (left + 1))))
      [.close i, .accept 0 (some slot), .send i] t ∧ ¬ t.RepliesReturn := by
  obtain ⟨hfile, -⟩ := h.busy i slot client (by rw [hphase]; rfl)
  obtain ⟨hsocket, hlt⟩ := h.socket slot client hfile
  let s₁ := s.become i (.running e (.closing slot client (left + 1)))
  let s₂ := (s₁.CloseConn slot).become i (.running e (.sending slot client (left + 1)))
  let s₃ := (s₂.handleNewConn 0 slot).turn cfg 0
  have hsocket₁ : s₁.socket_fd_ slot = some slot := hsocket
  have hclose : Step cfg s₁ (.close i) s₂ := .close (Function.update_self ..)
  have hfree : s₂.files slot = none := by
    simp [s₂, Server.become, Server.CloseConn, hsocket₁, Server.close]
  have haccepted : s₂.accepted = s.accepted := s₁.accepted_closeConn slot
  have haccept : Step cfg s₂ (.accept 0 (some slot)) s₃ := .accept cfg.acceptors_pos hfree
  have hphase₃ : s₃.threads i = .running e (.sending slot client (left + 1)) :=
    Function.update_self ..
  have hsend : Step cfg s₃ (.send i) _ :=
    .send hphase₃ (Function.update_self ..) (Function.update_self ..)
  refine ⟨_, .snoc (.snoc (.snoc .start hclose) haccept) hsend, ?_⟩
  intro hreturns
  have heq : s₂.accepted = client :=
    hreturns ⟨client, s₂.accepted⟩ (List.mem_append_right _ List.mem_cons_self)
  omega

/-! ## The laws -/

/-- As long as every send that fails is the last one of its call of `Process`, every reply goes
back to the client of its request. The next step keeps this for every schedule behind it exactly
when it is no send that fails with replies left: behind such a send there is a schedule in which
a new client gets the next reply. -/
theorem replies_return_iff_no_send_fails_early (cfg : Config) (acts : List Action) (s : Server)
    (act : Action) (s' : Server) (h : Reaches cfg acts s) (hacts : ∀ a ∈ acts, a.LastFails)
    (hstep : Step cfg s act s') :
    s.RepliesReturn ∧
      ((∀ more t, Runs (Step cfg) s' more t → (∀ a ∈ more, a.LastFails) → t.RepliesReturn) ↔
        act.LastFails) := by
  have hs := owned h hacts
  refine ⟨hs.returns, ?_, ?_⟩
  · intro hall
    cases hstep with
    | @fail i e slot client left hphase =>
      by_contra hleft
      obtain ⟨left, rfl⟩ := Nat.exists_eq_succ_of_ne_zero hleft
      obtain ⟨t, hrun, hwrong⟩ := @Owned.exists_misdirected cfg s hs i e slot client left hphase
      refine hwrong (hall _ t hrun ?_)
      intro a ha
      simp only [List.mem_cons, List.not_mem_nil, or_false] at ha
      rcases ha with rfl | rfl | rfl <;> trivial
    | _ => trivial
  · intro hact more t hrun hmore
    have hnext := hs.step hact hstep
    exact (hrun.invariant hnext (fun _ _ _ hs hact hstep => hs.step hact hstep) hmore).returns

/-- One thread reads requests on the first connection. -/
def firstRead (requests : ℕ) : List Action :=
  [.create 0 3, .store 0, .accept 0 (some 4), .read 0 4 requests]

/-- The service when the thread has these requests to answer. -/
def answering (requests : ℕ) : Server :=
  ((((Server.start.create 0 3).store 0 3).handleNewConn 0 4).turn oneThread 0).become 0
    (.running 3 (.sending 4 0 requests))

theorem reaches_answering {requests : ℕ} (hfit : 54 * requests ≤ tcp_conn.READ_BUFFER_SIZE) :
    Reaches oneThread (firstRead requests) (answering requests) :=
  .snoc (.snoc (.snoc (.snoc .start (.create (by decide) rfl rfl)) (.store rfl))
    (.accept (by decide) rfl)) (.read rfl rfl rfl rfl hfit)

theorem lastFails_firstRead (requests : ℕ) : ∀ a ∈ firstRead requests, a.LastFails := by
  intro a ha
  simp only [firstRead, List.mem_cons, List.not_mem_nil, or_false] at ha
  rcases ha with rfl | rfl | rfl | rfl <;> trivial

/-- The first of two replies fails, the connection is closed, and the second reply goes to a new
client with the same descriptor. -/
theorem a_new_client_gets_the_second_reply :
    ¬ ∀ (cfg : Config) (acts : List Action) (s : Server), Reaches cfg acts s → s.RepliesReturn := by
  intro h
  have hread : Reaches oneThread (firstRead 2) (answering 2) := reaches_answering (by decide)
  have hfail : Step oneThread (answering 2) (.fail 0 1) _ := .fail rfl
  obtain ⟨t, hmore, hwrong⟩ := @Owned.exists_misdirected oneThread (answering 2)
    (owned hread (lastFails_firstRead 2)) 0 3 4 0 0 rfl
  exact hwrong (h _ _ t ((hread.snoc hfail).append hmore))

/-- The law on a read of one request whose reply fails. -/
theorem replies_return_behind_one_reply_that_fails :
    ∃ s', Step oneThread (answering 1) (.fail 0 0) s' ∧
      ∀ more t, Runs (Step oneThread) s' more t → (∀ a ∈ more, a.LastFails) → t.RepliesReturn := by
  have hread : Reaches oneThread (firstRead 1) (answering 1) := reaches_answering (by decide)
  have hfail : Step oneThread (answering 1) (.fail 0 0) _ := .fail rfl
  refine ⟨_, hfail, ?_⟩
  exact (replies_return_iff_no_send_fails_early oneThread _ _ _ _ hread (lastFails_firstRead 1)
    hfail).2.mpr rfl

end ditto.epoll_server
