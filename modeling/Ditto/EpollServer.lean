-- The server that dispatches its connections to network threads with an epoll
-- instance each. The threads start on their own, the acceptors hand out the
-- connections in turn, and a thread that cannot send a reply closes the
-- connection. The steps of all of them interleave.
import Ditto.Lib.Interleaving
import Ditto.TcpConn
import Mathlib.Logic.Function.Basic

open Function (update)
open Interleaving

namespace ditto.epoll_server

/-! ## The state -/

/-- The numbers of threads. The thread pools throw when one of them is 0. Without a pool of
accept threads the main thread is the only acceptor. -/
structure Config where
  network_thread_number : ℕ
  acceptors : ℕ
  network_pos : 0 < network_thread_number
  acceptors_pos : 0 < acceptors

/-- One network thread and the main thread. -/
def oneThread : Config := ⟨1, 1, by decide, by decide⟩

/-- What a network thread does: it waits for an event, or it answers the requests that it read
on a connection. `slot` is the index of the connection in `conns_`, `client` the connection
that the requests came from, and `left` the replies that are left. -/
inductive Task
  | idle
  | sending (slot client left : ℕ)
  | closing (slot client left : ℕ)
deriving DecidableEq

/-- Where a network thread is in `Run`. -/
inductive Phase
  | starting
  | created (epoll_fd_ : ℕ)
  | running (epoll_fd_ : ℕ) (task : Task)
deriving DecidableEq

/-- The epoll instance of a thread. -/
def Phase.epoll_fd : Phase → Option ℕ
  | .starting => none
  | .created epoll_fd_ => some epoll_fd_
  | .running epoll_fd_ _ => some epoll_fd_

/-- The instance that a thread has put into `network_epoll_fds_`. -/
def Phase.stored : Phase → Option ℕ
  | .running epoll_fd_ _ => some epoll_fd_
  | _ => none

/-- The connection that a thread has replies for, or has to close. -/
def Phase.busy : Phase → Option (ℕ × ℕ)
  | .running _ (.sending slot client (_ + 1)) => some (slot, client)
  | .running _ (.closing slot client _) => some (slot, client)
  | _ => none

/-- An open file of the process. The connections are numbered in the order of their accepts. -/
inductive File
  | epoll (thread : ℕ)
  | socket (client : ℕ)
deriving DecidableEq

/-- A call of `Init` for a new connection: the turn of its acceptor, and the entry of
`network_epoll_fds_` that it got, or none when nothing was stored there. -/
structure Registration where
  network_turn : ℕ
  network_epoll_fd : Option ℕ
  connfd : ℕ
deriving DecidableEq

/-- A reply that was sent: the connection that its request came from, and the one that got it. -/
structure Delivery where
  client : ℕ
  receiver : ℕ
deriving DecidableEq

/-- The state of the service and of the kernel. `socket_fd_ i` is the field of `conns_[i]`, none
for -1. `watched fd` is the epoll instance that `fd` is registered with. -/
structure Server where
  network_epoll_fds_ : ℕ → Option ℕ
  network_turn : ℕ → ℕ
  threads : ℕ → Phase
  socket_fd_ : ℕ → Option ℕ
  files : ℕ → Option File
  watched : ℕ → Option ℕ
  accepted : ℕ
  registrations : List Registration
  delivered : List Delivery

/-- The service once `EventListen` has spawned the threads. -/
def Server.start : Server where
  network_epoll_fds_ _ := none
  network_turn _ := 0
  threads _ := .starting
  socket_fd_ _ := none
  files _ := none
  watched _ := none
  accepted := 0
  registrations := []
  delivered := []

/-! ## The steps -/

namespace Server

variable (s : Server)

def become (i : ℕ) (phase : Phase) : Server := { s with threads := update s.threads i phase }

/-- The first line of `Run` of a network thread. -/
def create (i epoll_fd : ℕ) : Server :=
  { s.become i (.created epoll_fd) with files := update s.files epoll_fd (some (.epoll i)) }

/-- The thread stores its epoll instance. -/
def store (i epoll_fd : ℕ) : Server :=
  { s.become i (.running epoll_fd .idle) with
    network_epoll_fds_ := update s.network_epoll_fds_ i (some epoll_fd) }

/-- The round-robin of an acceptor. -/
def turn (cfg : Config) (a : ℕ) : Server :=
  let next := s.network_turn a + 1
  { s with network_turn :=
      update s.network_turn a (if next = cfg.network_thread_number then 0 else next) }

/-- A new connection: `accept` gives it the descriptor `connfd`, and `Init` registers it with
the entry of the acceptor's turn. -/
def handleNewConn (a connfd : ℕ) : Server :=
  let network_epoll_fd := s.network_epoll_fds_ (s.network_turn a)
  { s with
    files := update s.files connfd (some (.socket s.accepted))
    socket_fd_ := update s.socket_fd_ connfd (some connfd)
    watched := update s.watched connfd network_epoll_fd
    accepted := s.accepted + 1
    registrations := s.registrations ++ [⟨s.network_turn a, network_epoll_fd, connfd⟩] }

/-- The system call `close`, which also takes the descriptor out of its epoll instance. -/
def close (fd : ℕ) : Server :=
  { s with files := update s.files fd none, watched := update s.watched fd none }

def CloseConn (slot : ℕ) : Server :=
  match s.socket_fd_ slot with
  | some fd => { s.close fd with socket_fd_ := update s.socket_fd_ slot none }
  | none => s

def deliver (client receiver : ℕ) : Server :=
  { s with delivered := s.delivered ++ [⟨client, receiver⟩] }

@[simp] theorem files_handleNewConn (a connfd : ℕ) :
    (s.handleNewConn a connfd).files = update s.files connfd (some (.socket s.accepted)) := rfl

@[simp] theorem watched_handleNewConn (a connfd : ℕ) :
    (s.handleNewConn a connfd).watched =
      update s.watched connfd (s.network_epoll_fds_ (s.network_turn a)) := rfl

@[simp] theorem threads_closeConn (slot : ℕ) : (s.CloseConn slot).threads = s.threads := by
  unfold CloseConn
  split <;> rfl

@[simp] theorem network_epoll_fds_closeConn (slot : ℕ) :
    (s.CloseConn slot).network_epoll_fds_ = s.network_epoll_fds_ := by
  unfold CloseConn
  split <;> rfl

@[simp] theorem network_turn_closeConn (slot : ℕ) :
    (s.CloseConn slot).network_turn = s.network_turn := by
  unfold CloseConn
  split <;> rfl

@[simp] theorem accepted_closeConn (slot : ℕ) : (s.CloseConn slot).accepted = s.accepted := by
  unfold CloseConn
  split <;> rfl

@[simp] theorem registrations_closeConn (slot : ℕ) :
    (s.CloseConn slot).registrations = s.registrations := by
  unfold CloseConn
  split <;> rfl

end Server

/-- The steps of the network threads `i` and the acceptors `a`. An `accept` without a descriptor
is one that fails. A `fail` is a reply that could not be sent, with the number of replies of the
same call of `Process` that are left. -/
inductive Action
  | create (i epoll_fd : ℕ)
  | store (i : ℕ)
  | accept (a : ℕ) (connfd : Option ℕ)
  | hangup (i fd : ℕ)
  | read (i fd requests : ℕ)
  | send (i : ℕ)
  | fail (i left : ℕ)
  | close (i : ℕ)
  | done (i : ℕ)
deriving DecidableEq

/-- The kernel gives out any descriptor that is not open. -/
inductive Step (cfg : Config) : Server → Action → Server → Prop
  | create {s : Server} {i epoll_fd : ℕ} (hi : i < cfg.network_thread_number)
      (hphase : s.threads i = .starting) (hfree : s.files epoll_fd = none) :
      Step cfg s (.create i epoll_fd) (s.create i epoll_fd)
  | store {s : Server} {i epoll_fd : ℕ} (hphase : s.threads i = .created epoll_fd) :
      Step cfg s (.store i) (s.store i epoll_fd)
  | refuse {s : Server} {a : ℕ} (ha : a < cfg.acceptors) :
      Step cfg s (.accept a none) (s.turn cfg a)
  | accept {s : Server} {a connfd : ℕ} (ha : a < cfg.acceptors) (hfree : s.files connfd = none) :
      Step cfg s (.accept a (some connfd)) ((s.handleNewConn a connfd).turn cfg a)
  | hangup {s : Server} {i epoll_fd fd : ℕ} (hphase : s.threads i = .running epoll_fd .idle)
      (hwatched : s.watched fd = some epoll_fd) :
      Step cfg s (.hangup i fd) (s.close fd)
  | read {s : Server} {i epoll_fd slot fd client requests : ℕ}
      (hphase : s.threads i = .running epoll_fd .idle) (hwatched : s.watched slot = some epoll_fd)
      (hslot : s.socket_fd_ slot = some fd) (hopen : s.files fd = some (.socket client))
      (hfit : 54 * requests ≤ tcp_conn.READ_BUFFER_SIZE) :
      Step cfg s (.read i slot requests)
        (s.become i (.running epoll_fd (.sending slot client requests)))
  | send {s : Server} {i epoll_fd slot client left fd receiver : ℕ}
      (hphase : s.threads i = .running epoll_fd (.sending slot client (left + 1)))
      (hslot : s.socket_fd_ slot = some fd) (hopen : s.files fd = some (.socket receiver)) :
      Step cfg s (.send i)
        ((s.deliver client receiver).become i (.running epoll_fd (.sending slot client left)))
  | fail {s : Server} {i epoll_fd slot client left : ℕ}
      (hphase : s.threads i = .running epoll_fd (.sending slot client (left + 1))) :
      Step cfg s (.fail i left) (s.become i (.running epoll_fd (.closing slot client left)))
  | close {s : Server} {i epoll_fd slot client left : ℕ}
      (hphase : s.threads i = .running epoll_fd (.closing slot client left)) :
      Step cfg s (.close i)
        ((s.CloseConn slot).become i (.running epoll_fd (.sending slot client left)))
  | done {s : Server} {i epoll_fd slot client : ℕ}
      (hphase : s.threads i = .running epoll_fd (.sending slot client 0)) :
      Step cfg s (.done i) (s.become i (.running epoll_fd .idle))

/-- The service takes the steps `acts` from its start on. -/
abbrev Reaches (cfg : Config) (acts : List Action) (s : Server) : Prop :=
  Runs (Step cfg) .start acts s

end ditto.epoll_server
