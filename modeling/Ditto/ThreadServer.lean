-- The server with a thread for each connection, in its blocking and its
-- nonblocking build. A send that fails only marks the connection, and the
-- descriptor is closed by its own thread when the thread stops to read. So
-- the reuse of descriptors does no harm here, but each thread leaves two of
-- its three arrays behind, with no pointer to them.
import Ditto.Lib.Interleaving
import Mathlib.Algebra.BigOperators.Ring.Finset
import Mathlib.Algebra.Order.BigOperators.Group.Finset
import Mathlib.Algebra.Order.Group.Nat
import Mathlib.Logic.Function.Basic

open Function (update)
open Interleaving

namespace ditto.thread_server

/-! ## The state -/

/-- What happens with a connection, from `accept` in `handleNewConn` to the end of
`handleNetwork`. `connfd` is its descriptor, and the index of its object in `conns`. -/
inductive Handler
  | waiting
  | accepted (connfd : ℕ)
  | ready (connfd : ℕ)
  | spawned (connfd : ℕ)
  | reading (connfd : ℕ)
  | sending (connfd client left : ℕ)
  | leaving (connfd : ℕ)
  | closed
  | finished
deriving DecidableEq

/-- The descriptor that is open for a connection. -/
@[simp]
def Handler.connfd : Handler → Option ℕ
  | accepted connfd | ready connfd | spawned connfd | reading connfd | leaving connfd => some connfd
  | sending connfd _ _ => some connfd
  | waiting | closed | finished => none

/-- The descriptor has been closed. -/
def Handler.Left : Handler → Prop
  | closed | finished => True
  | _ => False

/-- The local pointers of `handleNetwork` to the arrays that it allocates. -/
structure Pointers where
  mem_data : ℕ
  curr_mem_addrs : ℕ
  curr_pointer_chasing_mem_addrs : ℕ
deriving DecidableEq

def Pointers.arrays (p : Pointers) : Finset ℕ :=
  {p.mem_data, p.curr_mem_addrs, p.curr_pointer_chasing_mem_addrs}

/-- Bytes of a reply that were sent: the connection that the request came from, and the one
that got them. -/
structure Delivery where
  client : ℕ
  receiver : ℕ
deriving DecidableEq

/-- A call of `close` by the thread of a connection, and the connection that was open under the
descriptor. -/
structure Close where
  client : ℕ
  owner : Option ℕ
deriving DecidableEq

/-- The state of the service and of the kernel. The connections are numbered in the order of
their accepts. `socket_fd_ i` is the field of `conns[i]`, none for -1. `heap` has the addresses of
the arrays that are allocated, and `pointers k` are those of the thread of the connection `k`, as
long as it runs. -/
structure Server where
  acceptor : ℕ → Option ℕ
  handlers : ℕ → Handler
  socket_fd_ : ℕ → Option ℕ
  files : ℕ → Option ℕ
  accepted : ℕ
  delivered : List Delivery
  closes : List Close
  heap : Finset ℕ
  pointers : ℕ → Option Pointers

def Server.start : Server where
  acceptor _ := none
  handlers _ := .waiting
  socket_fd_ _ := none
  files _ := none
  accepted := 0
  delivered := []
  closes := []
  heap := ∅
  pointers _ := none

/-! ## The steps -/

namespace Server

variable (s : Server)

def become (k : ℕ) (handler : Handler) : Server :=
  { s with handlers := update s.handlers k handler }

/-- The system call `accept` of `handleNewConn`. -/
def accept (a connfd : ℕ) : Server :=
  { s.become s.accepted (.accepted connfd) with
    acceptor := update s.acceptor a (some s.accepted)
    files := update s.files connfd (some s.accepted)
    accepted := s.accepted + 1 }

/-- The model of `Init` without epoll. -/
def Init (k connfd : ℕ) : Server :=
  { s.become k (.ready connfd) with socket_fd_ := update s.socket_fd_ connfd (some connfd) }

/-- The acceptor starts the thread and returns. -/
def spawn (a k connfd : ℕ) : Server :=
  { s.become k (.spawned connfd) with acceptor := update s.acceptor a none }

/-- The three lines of `handleNetwork` with `new`. -/
def allocate (k connfd : ℕ) (p : Pointers) : Server :=
  { s.become k (.reading connfd) with
    heap := s.heap ∪ p.arrays
    pointers := update s.pointers k (some p) }

/-- The model of `CloseConn` without epoll: the descriptor stays open. -/
def CloseConn (slot : ℕ) : Server := { s with socket_fd_ := update s.socket_fd_ slot none }

def deliver (client receiver : ℕ) : Server :=
  { s with delivered := s.delivered ++ [⟨client, receiver⟩] }

/-- The system call `close` at the end of `handleNetwork`. -/
def close (k connfd : ℕ) : Server :=
  { s.become k .closed with
    files := update s.files connfd none
    closes := s.closes ++ [⟨k, s.files connfd⟩] }

/-- The line `delete[] mem_data`. The thread ends behind it, and its local pointers are gone. -/
def free (k : ℕ) (p : Pointers) : Server :=
  { s.become k .finished with
    heap := s.heap.erase p.mem_data
    pointers := update s.pointers k none }

end Server

/-- The steps of the acceptors `a` and of the threads of the connections `k`. A `stop` is a read
that returns no data. When a send accepts a part of the reply, the nonblocking build sends on
(`part`) and the blocking build marks the connection (`cut`). -/
inductive Action
  | accept (a connfd : ℕ)
  | init (a : ℕ)
  | spawn (a : ℕ)
  | allocate (k : ℕ) (p : Pointers)
  | read (k requests : ℕ)
  | stop (k : ℕ)
  | part (k : ℕ)
  | send (k : ℕ)
  | cut (k : ℕ)
  | fail (k : ℕ)
  | next (k : ℕ)
  | close (k : ℕ)
  | free (k : ℕ)
deriving DecidableEq

/-- The kernel gives out any descriptor that is not open, and `new` any address that is not
allocated. A read or a send reaches the connection that is open under the field of the object. -/
inductive Step (acceptors : ℕ) : Server → Action → Server → Prop
  | accept {s : Server} {a connfd : ℕ} (ha : a < acceptors) (hidle : s.acceptor a = none)
      (hfree : s.files connfd = none) : Step acceptors s (.accept a connfd) (s.accept a connfd)
  | init {s : Server} {a k connfd : ℕ} (ha : s.acceptor a = some k)
      (hk : s.handlers k = .accepted connfd) : Step acceptors s (.init a) (s.Init k connfd)
  | spawn {s : Server} {a k connfd : ℕ} (ha : s.acceptor a = some k)
      (hk : s.handlers k = .ready connfd) : Step acceptors s (.spawn a) (s.spawn a k connfd)
  | allocate {s : Server} {k connfd : ℕ} {p : Pointers} (hk : s.handlers k = .spawned connfd)
      (hnew : p.arrays.card = 3) (hfresh : Disjoint s.heap p.arrays) :
      Step acceptors s (.allocate k p) (s.allocate k connfd p)
  | read {s : Server} {k connfd fd client requests : ℕ} (hk : s.handlers k = .reading connfd)
      (hslot : s.socket_fd_ connfd = some fd) (hopen : s.files fd = some client) :
      Step acceptors s (.read k requests) (s.become k (.sending connfd client requests))
  | stop {s : Server} {k connfd : ℕ} (hk : s.handlers k = .reading connfd) :
      Step acceptors s (.stop k) (s.become k (.leaving connfd))
  | part {s : Server} {k connfd client left fd receiver : ℕ}
      (hk : s.handlers k = .sending connfd client (left + 1))
      (hslot : s.socket_fd_ connfd = some fd) (hopen : s.files fd = some receiver) :
      Step acceptors s (.part k) (s.deliver client receiver)
  | send {s : Server} {k connfd client left fd receiver : ℕ}
      (hk : s.handlers k = .sending connfd client (left + 1))
      (hslot : s.socket_fd_ connfd = some fd) (hopen : s.files fd = some receiver) :
      Step acceptors s (.send k) ((s.deliver client receiver).become k (.sending connfd client left))
  | cut {s : Server} {k connfd client left fd receiver : ℕ}
      (hk : s.handlers k = .sending connfd client (left + 1))
      (hslot : s.socket_fd_ connfd = some fd) (hopen : s.files fd = some receiver) :
      Step acceptors s (.cut k)
        (((s.deliver client receiver).CloseConn connfd).become k (.sending connfd client left))
  | fail {s : Server} {k connfd client left : ℕ}
      (hk : s.handlers k = .sending connfd client (left + 1)) :
      Step acceptors s (.fail k) ((s.CloseConn connfd).become k (.sending connfd client left))
  | next {s : Server} {k connfd client : ℕ} (hk : s.handlers k = .sending connfd client 0) :
      Step acceptors s (.next k) (s.become k (.reading connfd))
  | close {s : Server} {k connfd : ℕ} (hk : s.handlers k = .leaving connfd) :
      Step acceptors s (.close k) (s.close k connfd)
  | free {s : Server} {k : ℕ} {p : Pointers} (hk : s.handlers k = .closed)
      (hp : s.pointers k = some p) : Step acceptors s (.free k) (s.free k p)

/-- The service takes the steps `acts` from its start on. -/
abbrev Reaches (acceptors : ℕ) (acts : List Action) (s : Server) : Prop :=
  Runs (Step acceptors) .start acts s

/-! ## The owner of a descriptor -/

/-- Every byte of a reply went to the connection that its request came from. -/
def Server.RepliesReturn (s : Server) : Prop := ∀ d ∈ s.delivered, d.receiver = d.client

/-- A descriptor is open for one connection, and only the thread of this connection closes it. -/
structure Owned (s : Server) : Prop where
  files : ∀ k fd, (s.handlers k).connfd = some fd ↔ s.files fd = some k
  slot : ∀ i fd, s.socket_fd_ i = some fd → fd = i
  client : ∀ k fd client left, s.handlers k = .sending fd client left → client = k
  waiting : ∀ k, s.accepted ≤ k ↔ s.handlers k = .waiting
  returns : s.RepliesReturn
  closes : ∀ c ∈ s.closes, c.owner = some c.client
  nodup : (s.closes.map Close.client).Nodup
  left : ∀ k, k ∈ s.closes.map Close.client ↔ (s.handlers k).Left

variable {acceptors k connfd receiver : ℕ} {acts : List Action} {s s' : Server} {act : Action}
  {handler : Handler}

theorem owned_start : Owned .start where
  files k fd := by simp [Server.start, Handler.connfd]
  slot i fd h := by cases h
  client k fd client left h := by cases h
  waiting k := by simp [Server.start]
  returns d hd := by cases hd
  closes c hc := by cases hc
  nodup := List.nodup_nil
  left k := by simp [Server.start, Handler.Left]

/-- The acceptors and the memory do not matter. -/
theorem Owned.congr (h : Owned s) (hhandlers : s'.handlers = s.handlers)
    (hslots : s'.socket_fd_ = s.socket_fd_) (hfiles : s'.files = s.files)
    (haccepted : s'.accepted = s.accepted) (hdelivered : s'.delivered = s.delivered)
    (hcloses : s'.closes = s.closes) : Owned s' := by
  cases s
  cases s'
  simp only at hhandlers hslots hfiles haccepted hdelivered hcloses
  subst hhandlers hslots hfiles haccepted hdelivered hcloses
  exact ⟨h.files, h.slot, h.client, h.waiting, h.returns, h.closes, h.nodup, h.left⟩

/-- A connection goes on with the descriptor that it has, or with none. -/
theorem Owned.move (h : Owned s) (hconnfd : handler.connfd = (s.handlers k).connfd)
    (hclient : ∀ fd client left, handler = .sending fd client left → client = k)
    (hwaiting : s.handlers k = .waiting ↔ handler = .waiting)
    (hleft : (s.handlers k).Left ↔ handler.Left) : Owned (s.become k handler) where
  files := (Function.forall_update_iff s.handlers fun j handler => ∀ fd, handler.connfd = some fd ↔
    s.files fd = some j).mpr ⟨fun fd => hconnfd ▸ h.files k fd, fun j _ => h.files j⟩
  slot := h.slot
  client := (Function.forall_update_iff s.handlers fun j handler => ∀ fd client left,
    handler = .sending fd client left → client = j).mpr ⟨hclient, fun j _ => h.client j⟩
  waiting := (Function.forall_update_iff s.handlers fun j handler => s.accepted ≤ j ↔
    handler = .waiting).mpr ⟨(h.waiting k).trans hwaiting, fun j _ => h.waiting j⟩
  returns := h.returns
  closes := h.closes
  nodup := h.nodup
  left := (Function.forall_update_iff s.handlers fun j handler => j ∈ s.closes.map Close.client ↔
    handler.Left).mpr ⟨(h.left k).trans hleft, fun j _ => h.left j⟩

theorem Owned.become (h : Owned s) (hconnfd : handler.connfd = (s.handlers k).connfd)
    (hopen : handler.connfd.isSome)
    (hclient : ∀ fd client left, handler = .sending fd client left → client = k) :
    Owned (s.become k handler) := by
  have hnotleft : ∀ handler : Handler, handler.connfd.isSome →
      handler ≠ .waiting ∧ ¬ handler.Left := by
    intro handler hsome
    cases handler <;> simp [Handler.Left] at hsome ⊢
  obtain ⟨hwaiting, hleft⟩ := hnotleft handler hopen
  obtain ⟨hwaiting', hleft'⟩ := hnotleft (s.handlers k) (hconnfd ▸ hopen)
  exact h.move hconnfd hclient (iff_of_false hwaiting' hwaiting) (iff_of_false hleft' hleft)

/-- The connection that is open under the field of an object is the one of its thread. -/
theorem Owned.receiver_eq (h : Owned s) {fd : ℕ} (hk : (s.handlers k).connfd = some connfd)
    (hslot : s.socket_fd_ connfd = some fd) (hopen : s.files fd = some receiver) :
    receiver = k := by
  rw [h.slot connfd fd hslot, (h.files k connfd).mp hk] at hopen
  cases hopen
  rfl

theorem Owned.receiver_client (h : Owned s) {client left fd : ℕ}
    (hk : s.handlers k = .sending connfd client left) (hslot : s.socket_fd_ connfd = some fd)
    (hopen : s.files fd = some receiver) : receiver = client := by
  rw [h.client _ _ _ _ hk]
  exact h.receiver_eq (by simp [hk]) hslot hopen

theorem Owned.deliver (h : Owned s) {client : ℕ} (heq : receiver = client) :
    Owned (s.deliver client receiver) := by
  refine ⟨h.files, h.slot, h.client, h.waiting, ?_, h.closes, h.nodup, h.left⟩
  intro d hd
  rcases List.mem_append.mp hd with hd | hd
  · exact h.returns d hd
  · rw [List.mem_singleton.mp hd]
    exact heq

/-- The field of an object is its index or -1. -/
theorem Owned.setSlot (h : Owned s) {slot : ℕ} {v : Option ℕ} (hv : ∀ fd, v = some fd → fd = slot) :
    Owned { s with socket_fd_ := update s.socket_fd_ slot v } := by
  refine ⟨h.files, ?_, h.client, h.waiting, h.returns, h.closes, h.nodup, h.left⟩
  intro i fd hi
  by_cases hslot : i = slot
  · subst hslot
    simp only [Function.update_self] at hi
    exact hv fd hi
  · simp only [Function.update_of_ne hslot] at hi
    exact h.slot i fd hi

theorem Owned.closeConn (h : Owned s) (slot : ℕ) : Owned (s.CloseConn slot) :=
  h.setSlot (by simp)

theorem Owned.accept (h : Owned s) {a : ℕ} (hfree : s.files connfd = none) :
    Owned (s.accept a connfd) := by
  have hnew : s.handlers s.accepted = .waiting := (h.waiting s.accepted).mp le_rfl
  refine ⟨?_, h.slot, ?_, ?_, h.returns, h.closes, h.nodup, ?_⟩
  · refine (Function.forall_update_iff s.handlers fun j handler => ∀ fd, handler.connfd = some fd ↔
      update s.files connfd (some s.accepted) fd = some j).mpr ⟨fun fd => ?_, fun j hj fd => ?_⟩
    · by_cases hfd : fd = connfd
      · simp [hfd]
      · have hold := h.files s.accepted fd
        rw [hnew] at hold
        simpa [Function.update_of_ne hfd, Ne.symm hfd] using hold
    · by_cases hfd : fd = connfd
      · rw [h.files j fd, hfd, hfree, Function.update_self, Option.some.injEq]
        exact iff_of_false (by simp) (Ne.symm hj)
      · rw [Function.update_of_ne hfd]
        exact h.files j fd
  · exact (Function.forall_update_iff s.handlers fun j handler => ∀ fd client left,
      handler = .sending fd client left → client = j).mpr ⟨by simp, fun j _ => h.client j⟩
  · refine (Function.forall_update_iff s.handlers fun j handler => s.accepted + 1 ≤ j ↔
      handler = .waiting).mpr ⟨by simp, fun j hj => ?_⟩
    rw [← h.waiting j]
    omega
  · refine (Function.forall_update_iff s.handlers fun j handler => j ∈ s.closes.map Close.client ↔
      handler.Left).mpr ⟨?_, fun j _ => h.left j⟩
    rw [h.left, hnew]
    exact Iff.rfl

theorem Owned.close (h : Owned s) (hk : s.handlers k = .leaving connfd) :
    Owned (s.close k connfd) := by
  have hown : (s.handlers k).connfd = some connfd := by rw [hk]; rfl
  have hfile : s.files connfd = some k := (h.files k connfd).mp hown
  have hnotleft : k ∉ s.closes.map Close.client := by
    rw [h.left, hk]
    exact id
  refine ⟨?_, h.slot, ?_, ?_, h.returns, ?_, ?_, ?_⟩
  · refine (Function.forall_update_iff s.handlers fun j handler => ∀ fd, handler.connfd = some fd ↔
      update s.files connfd none fd = some j).mpr ⟨fun fd => ?_, fun j hj fd => ?_⟩
    · by_cases hfd : fd = connfd
      · simp [hfd]
      · rw [Function.update_of_ne hfd, ← h.files k fd, hown, Option.some.injEq]
        exact iff_of_false (by simp) (Ne.symm hfd)
    · by_cases hfd : fd = connfd
      · rw [h.files j fd, hfd, hfile, Function.update_self, Option.some.injEq]
        exact iff_of_false (Ne.symm hj) (by simp)
      · rw [Function.update_of_ne hfd]
        exact h.files j fd
  · exact (Function.forall_update_iff s.handlers fun j handler => ∀ fd client left,
      handler = .sending fd client left → client = j).mpr ⟨by simp, fun j _ => h.client j⟩
  · refine (Function.forall_update_iff s.handlers fun j handler => s.accepted ≤ j ↔
      handler = .waiting).mpr ⟨?_, fun j _ => h.waiting j⟩
    rw [h.waiting, hk]
    simp
  · intro c hc
    rcases List.mem_append.mp hc with hc | hc
    · exact h.closes c hc
    · rw [List.mem_singleton.mp hc]
      exact hfile
  · simp only [Server.close, Server.become, List.map_append, List.map_cons, List.map_nil]
    exact List.nodup_append.mpr ⟨h.nodup, List.nodup_singleton _, by
      intro x hx y hy
      rw [List.mem_singleton.mp hy]
      rintro rfl
      exact hnotleft hx⟩
  · refine (Function.forall_update_iff s.handlers fun j handler =>
      j ∈ (s.closes ++ [Close.mk k (s.files connfd)]).map Close.client ↔ handler.Left).mpr
      ⟨by simp [Handler.Left], fun j hj => ?_⟩
    rw [← h.left j]
    simp [hj]

theorem Owned.free (h : Owned s) (hk : s.handlers k = .closed) (p : Pointers) :
    Owned (s.free k p) := by
  have hfinished : Owned (s.become k .finished) :=
    h.move (by simp [hk]) (by simp) (by simp [hk]) (by simp [hk, Handler.Left])
  exact hfinished.congr rfl rfl rfl rfl rfl rfl

theorem Owned.step (h : Owned s) (hstep : Step acceptors s act s') : Owned s' := by
  cases hstep with
  | accept _ _ hfree => exact h.accept hfree
  | @init a k connfd _ hk =>
    have hready : Owned (s.become k (.ready connfd)) := h.become (by simp [hk]) rfl (by simp)
    exact hready.setSlot (by simp)
  | @spawn a k connfd _ hk =>
    have hspawned : Owned (s.become k (.spawned connfd)) := h.become (by simp [hk]) rfl (by simp)
    exact hspawned.congr rfl rfl rfl rfl rfl rfl
  | @allocate k connfd p hk =>
    have hreading : Owned (s.become k (.reading connfd)) := h.become (by simp [hk]) rfl (by simp)
    exact hreading.congr rfl rfl rfl rfl rfl rfl
  | @read k connfd fd client requests hk hslot hopen =>
    have hclient : client = k := h.receiver_eq (by simp [hk]) hslot hopen
    exact h.become (by simp [hk]) rfl (by simp [hclient])
  | stop hk => exact h.become (by simp [hk]) rfl (by simp)
  | part hk hslot hopen => exact h.deliver (h.receiver_client hk hslot hopen)
  | send hk hslot hopen =>
    have hsent := h.deliver (h.receiver_client hk hslot hopen)
    exact hsent.become (by simp [Server.deliver, hk]) rfl (by simp [h.client _ _ _ _ hk])
  | cut hk hslot hopen =>
    have hsent := h.deliver (h.receiver_client hk hslot hopen)
    exact (hsent.closeConn _).become (by simp [Server.deliver, Server.CloseConn, hk]) rfl (by simp [h.client _ _ _ _ hk])
  | fail hk =>
    exact (h.closeConn _).become (by simp [Server.CloseConn, hk]) rfl (by simp [h.client _ _ _ _ hk])
  | next hk => exact h.become (by simp [hk]) rfl (by simp)
  | close hk => exact h.close hk
  | free hk => exact h.free hk _

theorem Reaches.owned (h : Reaches acceptors acts s) : Owned s := by
  have hkeep : ∀ s act s', Owned s → True → Step acceptors s act s' → Owned s' :=
    fun _ _ _ howned _ hstep => howned.step hstep
  exact h.invariant owned_start hkeep fun _ _ => trivial

/-- In every schedule of the acceptors and the threads, the bytes of a reply go to the connection
that its request came from, no two connections have one descriptor, and a descriptor is closed by
the thread of its connection, once. -/
theorem each_thread_keeps_to_its_connection (h : Reaches acceptors acts s) :
    s.RepliesReturn ∧
    (∀ i j fd, (s.handlers i).connfd = some fd → (s.handlers j).connfd = some fd → i = j) ∧
    (∀ c ∈ s.closes, c.owner = some c.client) ∧ (s.closes.map Close.client).Nodup ∧
    ∀ k, s.handlers k = .finished → k ∈ s.closes.map Close.client := by
  have howned := h.owned
  refine ⟨howned.returns, ?_, howned.closes, howned.nodup, ?_⟩
  · intro i j fd hi hj
    have hfile := (howned.files i fd).mp hi
    rw [(howned.files j fd).mp hj] at hfile
    cases hfile
    rfl
  · intro k hk
    rw [howned.left, hk]
    trivial

/-- The lives of two connections. Of the two replies on the first one the second is cut. The second
connection gets the descriptor of the first one and, for one of its arrays, the address that the
thread of the first one has freed. -/
def reuseSchedule : List Action :=
  [.accept 0 5, .init 0, .spawn 0, .allocate 0 ⟨10, 11, 12⟩, .read 0 2, .send 0, .cut 0, .next 0,
    .stop 0, .close 0, .accept 0 5, .init 0, .spawn 0, .free 0, .allocate 1 ⟨13, 10, 14⟩, .read 1 1,
    .send 1, .next 1, .stop 1, .close 1, .free 1]

/-- The service when the first descriptor is closed. -/
def firstClosed : Server :=
  let reading := (((Server.start.accept 0 5).Init 0 5).spawn 0 0 5).allocate 0 5 ⟨10, 11, 12⟩
  let sent := ((reading.become 0 (.sending 5 0 2)).deliver 0 0).become 0 (.sending 5 0 1)
  let cut := ((sent.deliver 0 0).CloseConn 5).become 0 (.sending 5 0 0)
  ((cut.become 0 (.reading 5)).become 0 (.leaving 5)).close 0 5

/-- The service after both lives. -/
def reuseServer : Server :=
  let spawned := ((firstClosed.accept 0 5).Init 1 5).spawn 0 1 5
  let reading := (spawned.free 0 ⟨10, 11, 12⟩).allocate 1 5 ⟨13, 10, 14⟩
  let sent := ((reading.become 1 (.sending 5 1 1)).deliver 1 1).become 1 (.sending 5 1 0)
  (((sent.become 1 (.reading 5)).become 1 (.leaving 5)).close 1 5).free 1 ⟨13, 10, 14⟩

theorem reaches_reuseServer : Reaches 1 reuseSchedule reuseServer := by
  have hfirst : Reaches 1 (reuseSchedule.take 10) firstClosed :=
    .snoc (.snoc (.snoc (.snoc (.snoc (.snoc (.snoc (.snoc (.snoc (.snoc .start
      (.accept (by decide) rfl rfl)) (.init rfl rfl)) (.spawn rfl rfl))
      (.allocate rfl (by decide) (by decide))) (.read rfl rfl rfl)) (.send rfl rfl rfl))
      (.cut rfl rfl rfl)) (.next rfl)) (.stop rfl)) (.close rfl)
  exact .snoc (.snoc (.snoc (.snoc (.snoc (.snoc (.snoc (.snoc (.snoc (.snoc (.snoc hfirst
    (.accept (by decide) rfl rfl)) (.init rfl rfl)) (.spawn rfl rfl)) (.free rfl rfl))
    (.allocate rfl (by decide) (by decide))) (.read rfl rfl rfl)) (.send rfl rfl rfl))
    (.next rfl)) (.stop rfl)) (.close rfl)) (.free rfl rfl)

theorem reused_descriptor_is_closed_by_its_threads :
    reuseServer.closes = [⟨0, some 0⟩, ⟨1, some 1⟩] ∧
      reuseServer.delivered = [⟨0, 0⟩, ⟨0, 0⟩, ⟨1, 1⟩] ∧ reuseServer.RepliesReturn ∧
      (reuseServer.closes.map Close.client).Nodup := by
  obtain ⟨hreturns, -, -, hnodup, -⟩ := each_thread_keeps_to_its_connection reaches_reuseServer
  exact ⟨rfl, rfl, hreturns, hnodup⟩

/-! ## After a send that fails -/

/-- The object of the connection is marked, or its thread does not read any more. -/
def Handler.Marked (socket_fd_ : ℕ → Option ℕ) : Handler → Prop
  | reading connfd | sending connfd _ _ => socket_fd_ connfd = none
  | leaving _ | closed | finished => True
  | _ => False

/-- The thread of the connection moves bytes in this step. -/
def Action.Moves (k : ℕ) (act : Action) : Prop :=
  (∃ requests, act = .read k requests) ∨ act = .part k ∨ act = .send k ∨ act = .cut k

/-- A send of the thread fails in this step. -/
def Action.Fails (k : ℕ) (act : Action) : Prop := act = .cut k ∨ act = .fail k

theorem Handler.Marked.congr {slots slots' : ℕ → Option ℕ} (h : handler.Marked slots)
    (hslots : ∀ fd, handler.connfd = some fd → slots fd = none → slots' fd = none) :
    handler.Marked slots' := by
  cases handler with
  | reading connfd => exact hslots connfd rfl h
  | sending connfd client left => exact hslots connfd rfl h
  | _ => exact h

theorem Handler.Marked.become {slots : ℕ → Option ℕ} {j : ℕ} (h : (s.handlers k).Marked slots)
    (hmoved : (s.handlers j).Marked slots → handler.Marked slots) :
    (update s.handlers j handler k).Marked slots := by
  by_cases hkj : k = j
  · subst hkj
    rw [Function.update_self]
    exact hmoved h
  · rwa [Function.update_of_ne hkj]

theorem Handler.Marked.closeConn {slots : ℕ → Option ℕ} (h : handler.Marked slots) (slot : ℕ) :
    handler.Marked (update slots slot none) := by
  refine h.congr fun fd _ hnone => ?_
  by_cases hfd : fd = slot
  · rw [hfd, Function.update_self]
  · rw [Function.update_of_ne hfd, hnone]

/-- The object is marked as long as its thread runs: no other connection has its descriptor, so no
`Init` reaches it. -/
theorem Step.marked (howned : Owned s) (hmarked : (s.handlers k).Marked s.socket_fd_)
    (hstep : Step acceptors s act s') : (s'.handlers k).Marked s'.socket_fd_ := by
  cases hstep with
  | accept =>
    apply hmarked.become
    rw [(howned.waiting _).mp le_rfl]
    exact False.elim
  | @init a j connfd _ hj =>
    have hkeep : (s.handlers k).Marked (update s.socket_fd_ connfd (some connfd)) := by
      refine hmarked.congr fun fd hfd hnone => ?_
      have hother : fd ≠ connfd := by
        rintro rfl
        have hfile := (howned.files j fd).mp (by simp [hj])
        rw [(howned.files k fd).mp hfd] at hfile
        cases hfile
        rw [hj] at hmarked
        exact hmarked
      rw [Function.update_of_ne hother, hnone]
    exact hkeep.become (by simp [hj, Handler.Marked])
  | spawn _ hj => exact hmarked.become (by simp [hj, Handler.Marked])
  | allocate hj => exact hmarked.become (by simp [hj, Handler.Marked])
  | read hj => exact hmarked.become (by simp [hj, Handler.Marked])
  | stop => exact hmarked.become (by simp [Handler.Marked])
  | part => exact hmarked
  | send hj => exact hmarked.become (by simp [hj, Handler.Marked])
  | cut hj => exact (hmarked.closeConn _).become (by simp [hj, Handler.Marked])
  | fail hj => exact (hmarked.closeConn _).become (by simp [hj, Handler.Marked])
  | next hj => exact hmarked.become (by simp [hj, Handler.Marked])
  | close => exact hmarked.become (by simp [Handler.Marked])
  | free => exact hmarked.become (by simp [Handler.Marked])

theorem Step.fails_marks (hfails : act.Fails k) (hstep : Step acceptors s act s') :
    (s'.handlers k).Marked s'.socket_fd_ := by
  rcases hfails with rfl | rfl
  · cases hstep
    simp [Server.become, Server.CloseConn, Handler.Marked]
  · cases hstep
    simp [Server.become, Server.CloseConn, Handler.Marked]

theorem Step.not_moves (hmarked : (s.handlers k).Marked s.socket_fd_)
    (hstep : Step acceptors s act s') : ¬ act.Moves k := by
  rintro (⟨requests, rfl⟩ | rfl | rfl | rfl)
  · cases hstep with
    | read hk hslot => simp [hk, Handler.Marked, hslot] at hmarked
  · cases hstep with
    | part hk hslot => simp [hk, Handler.Marked, hslot] at hmarked
  · cases hstep with
    | send hk hslot => simp [hk, Handler.Marked, hslot] at hmarked
  · cases hstep with
    | cut hk hslot => simp [hk, Handler.Marked, hslot] at hmarked

theorem Reaches.marked (h : Reaches acceptors acts s) (hfailed : ∃ a ∈ acts, a.Fails k) :
    (s.handlers k).Marked s.socket_fd_ := by
  induction h with
  | start => simp at hfailed
  | snoc hrun hstep ih =>
    obtain ⟨a, ha, hfails⟩ := hfailed
    rcases List.mem_append.mp ha with ha | ha
    · exact hstep.marked (Reaches.owned hrun) (ih ⟨a, ha, hfails⟩)
    · rw [List.mem_singleton.mp ha] at hfails
      exact hstep.fails_marks hfails

/-- After the first send that fails, or is cut, the thread of a connection reads and sends
nothing, up to the end of the run. -/
theorem nothing_moves_after_failed_send (h : Reaches acceptors acts s) (k : ℕ) :
    EachAfter (fun front act => (∃ a ∈ front, a.Fails k) → ¬ act.Moves k) acts := by
  induction h with
  | start => exact eachAfter_nil
  | snoc hrun hstep ih =>
    exact eachAfter_snoc.mpr ⟨ih, fun hfailed => hstep.not_moves (Reaches.marked hrun hfailed)⟩

theorem nothing_moves_after_cut :
    .cut 0 ∈ reuseSchedule ∧
      EachAfter (fun front act => (∃ a ∈ front, a.Fails 0) → ¬ act.Moves 0) reuseSchedule :=
  ⟨by decide, nothing_moves_after_failed_send reaches_reuseServer 0⟩

/-! ## The memory of the threads -/

/-- The thread of the connection has its arrays. -/
def Handler.Running : Handler → Prop
  | reading _ | sending _ _ _ | leaving _ | closed => True
  | _ => False

/-- How many arrays of a connection are on the heap. -/
def Handler.arrays : Handler → ℕ
  | waiting | accepted _ | ready _ | spawned _ => 0
  | reading _ | sending _ _ _ | leaving _ | closed => 3
  | finished => 2

/-- The thread that runs has three arrays on the heap that no other thread has. -/
structure HeapOk (s : Server) : Prop where
  running : ∀ k, (s.pointers k).isSome ↔ (s.handlers k).Running
  held : ∀ k p, s.pointers k = some p → p.arrays ⊆ s.heap ∧ p.arrays.card = 3
  apart : ∀ i j p q, i ≠ j → s.pointers i = some p → s.pointers j = some q →
    Disjoint p.arrays q.arrays
  count : s.heap.card = ∑ k ∈ Finset.range s.accepted, (s.handlers k).arrays

theorem heapOk_start : HeapOk .start where
  running k := by simp [Server.start, Handler.Running]
  held k p hp := by cases hp
  apart i j p q _ hp := by cases hp
  count := rfl

theorem sum_become (handlers : ℕ → Handler) (handler : Handler) {n : ℕ} (hk : k < n) :
    ∑ j ∈ Finset.range n, (update handlers k handler j).arrays + (handlers k).arrays =
      ∑ j ∈ Finset.range n, (handlers j).arrays + handler.arrays := by
  have hmem : k ∈ Finset.range n := Finset.mem_range.mpr hk
  rw [← Finset.add_sum_erase _ _ hmem, ← Finset.add_sum_erase _ (fun j => (handlers j).arrays) hmem,
    Function.update_self]
  have hrest : ∑ j ∈ (Finset.range n).erase k, (update handlers k handler j).arrays =
      ∑ j ∈ (Finset.range n).erase k, (handlers j).arrays := by
    refine Finset.sum_congr rfl fun j hj => ?_
    rw [Function.update_of_ne (Finset.ne_of_mem_erase hj)]
  omega

theorem Owned.lt_accepted (h : Owned s) (hk : s.handlers k ≠ .waiting) : k < s.accepted := by
  by_contra hle
  exact hk ((h.waiting k).mp (not_lt.mp hle))

/-- A thread moves on without a change of the memory. -/
theorem HeapOk.move (h : HeapOk s) (howned : Owned s) {old : Handler} (hk : s.handlers k = old)
    (hold : old ≠ .waiting) (hhandlers : s'.handlers = update s.handlers k handler)
    (haccepted : s'.accepted = s.accepted) (hheap : s'.heap = s.heap)
    (hpointers : s'.pointers = s.pointers) (hrunning : handler.Running ↔ old.Running)
    (harrays : handler.arrays = old.arrays) : HeapOk s' := by
  refine ⟨?_, ?_, ?_, ?_⟩
  · intro j
    rw [hpointers, hhandlers, h.running j]
    by_cases hj : j = k
    · subst hj
      rw [Function.update_self, hk, hrunning]
    · rw [Function.update_of_ne hj]
  · rw [hpointers, hheap]
    exact h.held
  · rw [hpointers]
    exact h.apart
  · have hsum := sum_become s.handlers handler (howned.lt_accepted (hk ▸ hold))
    have hcount := h.count
    rw [hhandlers, haccepted, hheap]
    rw [hk] at hsum
    omega

theorem HeapOk.accept (h : HeapOk s) (howned : Owned s) (a : ℕ) : HeapOk (s.accept a connfd) := by
  have hnew : s.handlers s.accepted = .waiting := (howned.waiting s.accepted).mp le_rfl
  refine ⟨?_, h.held, h.apart, ?_⟩
  · intro j
    refine (h.running j).trans ?_
    by_cases hj : j = s.accepted
    · subst hj
      simp [Server.accept, Server.become, hnew, Handler.Running]
    · simp only [Server.accept, Server.become, Function.update_of_ne hj]
  · refine h.count.trans ?_
    simp only [Server.accept, Server.become, Finset.sum_range_succ, Function.update_self,
      Handler.arrays, Nat.add_zero]
    refine Finset.sum_congr rfl fun j hj => ?_
    rw [Function.update_of_ne (Finset.mem_range.mp hj).ne]

theorem HeapOk.allocate (h : HeapOk s) (howned : Owned s) {p : Pointers}
    (hk : s.handlers k = .spawned connfd) (hnew : p.arrays.card = 3)
    (hfresh : Disjoint s.heap p.arrays) : HeapOk (s.allocate k connfd p) := by
  refine ⟨?_, ?_, ?_, ?_⟩
  · intro j
    by_cases hj : j = k
    · subst hj
      simp [Server.allocate, Server.become, Handler.Running]
    · simp only [Server.allocate, Server.become, Function.update_of_ne hj]
      exact h.running j
  · intro j q hq
    by_cases hj : j = k
    · subst hj
      simp only [Server.allocate, Function.update_self, Option.some.injEq] at hq
      subst hq
      exact ⟨Finset.subset_union_right, hnew⟩
    · simp only [Server.allocate, Function.update_of_ne hj] at hq
      exact ⟨(h.held j q hq).1.trans Finset.subset_union_left, (h.held j q hq).2⟩
  · intro i j q r hij hq hr
    by_cases hi : i = k <;> by_cases hj : j = k
    · exact absurd (hi.trans hj.symm) hij
    · subst hi
      simp only [Server.allocate, Function.update_self, Function.update_of_ne hj,
        Option.some.injEq] at hq hr
      subst hq
      exact (hfresh.mono_left (h.held j r hr).1).symm
    · subst hj
      simp only [Server.allocate, Function.update_self, Function.update_of_ne hi,
        Option.some.injEq] at hq hr
      subst hr
      exact hfresh.mono_left (h.held i q hq).1
    · simp only [Server.allocate, Function.update_of_ne hi, Function.update_of_ne hj] at hq hr
      exact h.apart i j q r hij hq hr
  · have hsum := sum_become s.handlers (.reading connfd) (howned.lt_accepted (k := k) (by simp [hk]))
    have hcount := h.count
    have hthree : (Handler.reading connfd).arrays = 3 := rfl
    have hnone : (Handler.spawned connfd).arrays = 0 := rfl
    rw [hk] at hsum
    simp only [Server.allocate, Server.become, Finset.card_union_of_disjoint hfresh]
    omega

theorem Pointers.mem_data_mem (p : Pointers) : p.mem_data ∈ p.arrays := by simp [Pointers.arrays]

theorem HeapOk.free (h : HeapOk s) (howned : Owned s) {p : Pointers}
    (hk : s.handlers k = .closed) (hp : s.pointers k = some p) : HeapOk (s.free k p) := by
  have hmem : p.mem_data ∈ s.heap := (h.held k p hp).1 p.mem_data_mem
  have hold : ∀ j q, (s.free k p).pointers j = some q → j ≠ k ∧ s.pointers j = some q := by
    intro j q hq
    by_cases hj : j = k
    · subst hj
      simp [Server.free] at hq
    · exact ⟨hj, by simpa only [Server.free, Function.update_of_ne hj] using hq⟩
  refine ⟨?_, ?_, ?_, ?_⟩
  · intro j
    by_cases hj : j = k
    · subst hj
      simp [Server.free, Server.become, Handler.Running]
    · simp only [Server.free, Server.become, Function.update_of_ne hj]
      exact h.running j
  · intro j q hq
    obtain ⟨hj, hq⟩ := hold j q hq
    refine ⟨fun a ha => Finset.mem_erase.mpr ⟨?_, (h.held j q hq).1 ha⟩, (h.held j q hq).2⟩
    rintro rfl
    exact Finset.disjoint_left.mp (h.apart j k q p hj hq hp) ha p.mem_data_mem
  · intro i j q r hij hq hr
    exact h.apart i j q r hij (hold i q hq).2 (hold j r hr).2
  · have hsum := sum_become s.handlers .finished (howned.lt_accepted (k := k) (by simp [hk]))
    have hcount := h.count
    have hpos := Finset.card_pos.mpr ⟨_, hmem⟩
    have htwo : Handler.finished.arrays = 2 := rfl
    have hthree : Handler.closed.arrays = 3 := rfl
    rw [hk] at hsum
    simp only [Server.free, Server.become, Finset.card_erase_of_mem hmem]
    omega

theorem HeapOk.step (h : HeapOk s) (howned : Owned s) (hstep : Step acceptors s act s') :
    HeapOk s' := by
  cases hstep with
  | accept => exact h.accept howned _
  | init _ hk => exact h.move howned hk (by simp) rfl rfl rfl rfl Iff.rfl rfl
  | spawn _ hk => exact h.move howned hk (by simp) rfl rfl rfl rfl Iff.rfl rfl
  | allocate hk hnew hfresh => exact h.allocate howned hk hnew hfresh
  | read hk => exact h.move howned hk (by simp) rfl rfl rfl rfl Iff.rfl rfl
  | stop hk => exact h.move howned hk (by simp) rfl rfl rfl rfl Iff.rfl rfl
  | part => exact ⟨h.running, h.held, h.apart, h.count⟩
  | send hk => exact h.move howned hk (by simp) rfl rfl rfl rfl Iff.rfl rfl
  | cut hk => exact h.move howned hk (by simp) rfl rfl rfl rfl Iff.rfl rfl
  | fail hk => exact h.move howned hk (by simp) rfl rfl rfl rfl Iff.rfl rfl
  | next hk => exact h.move howned hk (by simp) rfl rfl rfl rfl Iff.rfl rfl
  | close hk => exact h.move howned hk (by simp) rfl rfl rfl rfl Iff.rfl rfl
  | free hk hp => exact h.free howned hk hp

theorem Reaches.heapOk (h : Reaches acceptors acts s) : HeapOk s := by
  induction h with
  | start => exact heapOk_start
  | snoc hrun hstep ih => exact ih.step (Reaches.owned hrun) hstep

/-- The arrays that the thread of a connection has pointers to. -/
def Server.reachable (s : Server) (k : ℕ) : Finset ℕ :=
  ((s.pointers k).map Pointers.arrays).getD ∅

/-- The arrays on the heap that no thread has a pointer to. -/
def Server.lost (s : Server) : Finset ℕ := s.heap \ (Finset.range s.accepted).biUnion s.reachable

theorem HeapOk.arrays_eq (h : HeapOk s) (k : ℕ) : (s.handlers k).arrays =
    (s.reachable k).card + if s.handlers k = .finished then 2 else 0 := by
  have hrunning := h.running k
  unfold Server.reachable
  cases hp : s.pointers k with
  | none =>
    rw [hp] at hrunning
    cases hk : s.handlers k <;> simp [hk, Handler.Running, Handler.arrays] at hrunning ⊢
  | some p =>
    rw [hp] at hrunning
    have hcard := (h.held k p hp).2
    cases hk : s.handlers k <;>
      simp [hk, Handler.Running, Handler.arrays, hcard] at hrunning ⊢

theorem HeapOk.card_lost (h : HeapOk s) : s.lost.card =
    2 * ((Finset.range s.accepted).filter fun k => s.handlers k = .finished).card := by
  have hsub : (Finset.range s.accepted).biUnion s.reachable ⊆ s.heap := by
    rw [Finset.biUnion_subset]
    intro k _
    unfold Server.reachable
    cases hp : s.pointers k with
    | none => simp
    | some p => exact (h.held k p hp).1
  have hcard : ((Finset.range s.accepted).biUnion s.reachable).card =
      ∑ k ∈ Finset.range s.accepted, (s.reachable k).card := by
    apply Finset.card_biUnion
    intro i _ j _ hij
    change Disjoint (s.reachable i) (s.reachable j)
    unfold Server.reachable
    cases hp : s.pointers i with
    | none => simp
    | some p =>
      cases hq : s.pointers j with
      | none => simp
      | some q => exact h.apart i j p q hij hp hq
  have hcount := h.count
  rw [Finset.sum_congr rfl fun k _ => h.arrays_eq k, Finset.sum_add_distrib, ← hcard,
    ← Finset.sum_filter, Finset.sum_const_nat fun _ _ => rfl] at hcount
  rw [Server.lost, Finset.card_sdiff_of_subset hsub, hcount]
  omega

/-- Each thread that runs has three arrays of its own, so `delete[]` frees an array that is
allocated, and no other thread uses it. Besides them the heap has two arrays for each connection
that has ended, and no thread has a pointer to these. -/
theorem threads_lose_two_arrays (h : Reaches acceptors acts s) :
    (∀ k p, s.pointers k = some p → p.arrays ⊆ s.heap ∧ p.arrays.card = 3) ∧
    (∀ i j p q, i ≠ j → s.pointers i = some p → s.pointers j = some q →
      Disjoint p.arrays q.arrays) ∧
    (∀ k, s.handlers k = .closed → ∃ p, s.pointers k = some p ∧ p.mem_data ∈ s.heap) ∧
    s.lost.card =
      2 * ((Finset.range s.accepted).filter fun k => s.handlers k = .finished).card := by
  have hheap := h.heapOk
  refine ⟨hheap.held, hheap.apart, ?_, hheap.card_lost⟩
  intro k hk
  obtain ⟨p, hp⟩ := Option.isSome_iff_exists.mp ((hheap.running k).mpr (by rw [hk]; trivial))
  exact ⟨p, hp, (hheap.held k p hp).1 p.mem_data_mem⟩

theorem two_connections_lose_four_arrays :
    reuseServer.lost = {10, 11, 12, 14} ∧ reuseServer.lost.card = 2 *
      ((Finset.range reuseServer.accepted).filter fun k => reuseServer.handlers k = .finished).card :=
  ⟨by decide, (threads_lose_two_arrays reaches_reuseServer).2.2.2⟩

end ditto.thread_server
