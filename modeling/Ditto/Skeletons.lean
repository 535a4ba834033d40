-- The four skeletons in their epoll build, behind one interface: a network
-- thread reads what comes in on a connection and hands the replies to the
-- kernel, event after event. The branches of `ReadOnce` and `WriteOnce` for a
-- BLOCKING or NONBLOCKING build are left out.
import Ditto.Lib.EventLoop
import Ditto.NetworkThread
import Ditto.RedisConn
import Ditto.WritevConn

open ditto.tcp_conn (Outcome)

namespace ditto.skeletons

/-! ## The interface -/

inductive Descriptor
  | socket_fd_
  | log_fd_
deriving DecidableEq

inductive Buffer
  | write_buf_
  | tmp_read_buf
deriving DecidableEq

/-- A segment that `write`, `writev` or `sendmsg` gets. The base is an offset from the start of
the buffer. -/
structure Handed where
  fd : Descriptor
  buffer : Buffer
  iov_base : ℤ
  iov_len : ℕ
deriving DecidableEq

/-- A segment of a reply. -/
def reply_segment (seg : Segment) : Handed := ⟨.socket_fd_, .write_buf_, seg.base, seg.len⟩

/-- A segment of the log. -/
def log_segment (seg : Segment) : Handed := ⟨.log_fd_, .tmp_read_buf, seg.base, seg.len⟩

/-- What `Process` leaves: the connection, the segments it handed over, and whether it
returned. It does not return when a reply waits for its sends. -/
structure Processed (Conn : Type) where
  conn : Conn
  handed : List Handed
  returned : Bool

/-- The connections of one skeleton, and what the kernel does with the sends of one call of
`Process`. The request id only goes to the generated code, so it is left out. -/
structure Server where
  Conn : Type
  Sends : Type
  READ_BUFFER_SIZE : ℕ
  WRITE_BUFFER_SIZE : ℕ
  Init : Conn → ℤ → Conn
  read_idx_ : Conn → ℤ
  ReadOnce : Conn → Option (List UInt8) → Conn × Bool
  ParseMultiRequest : Conn → ℕ
  Process : Conn → Sends → Processed Conn
  SendFails : Sends → Prop

/-! ## The four skeletons -/

namespace writev

open writev_conn

def handed (run : ProcessRun) : List Handed :=
  run.logged.map log_segment ++
    (run.runs.flatMap fun reply => reply.heads).flatMap fun c => c.iv_.map reply_segment

def server (k : Skeleton) : Server where
  Conn := TCPConn
  Sends := ℕ → List Outcome
  READ_BUFFER_SIZE := k.READ_BUFFER_SIZE
  WRITE_BUFFER_SIZE := k.WRITE_BUFFER_SIZE
  Init c socket_fd := TCPConn.Reset k { c with socket_fd_ := socket_fd }
  read_idx_ := TCPConn.read_idx_
  ReadOnce := TCPConn.ReadOnce
  ParseMultiRequest := k.ParseMultiRequest
  Process c sends :=
    let run := k.Process c sends
    ⟨run.conn, handed run, run.returned⟩
  SendFails sends := ∃ i, .failed ∈ sends i

end writev

namespace memcached

open tcp_conn

/-- The loop looks at the counter before it calls `sendmsg`. -/
def handed (run : ProcessRun) : List Handed :=
  ((run.served.flatMap fun reply => reply.run.heads).filter fun c => c.bytes_to_send_ ≠ 0).flatMap
    fun c => c.iv_.map reply_segment

def server : Server where
  Conn := TCPConn
  Sends := ℕ → List Outcome
  READ_BUFFER_SIZE := READ_BUFFER_SIZE
  WRITE_BUFFER_SIZE := WRITE_BUFFER_SIZE
  Init c socket_fd := TCPConn.Reset { c with socket_fd_ := socket_fd }
  read_idx_ := TCPConn.read_idx_
  ReadOnce := TCPConn.ReadOnce
  ParseMultiRequest c := c.ParseMultiRequest.toNat
  Process c sends :=
    let run := c.Process c.socket_fd_.toNat sends 0
    ⟨run.conn, handed run, run.returned⟩
  SendFails sends := ∃ i, .failed ∈ sends i

end memcached

namespace redis

open redis_conn

/-- What `write` gets. -/
def write_args (c : TCPConn) : Handed :=
  ⟨.socket_fd_, .write_buf_, c.bytes_have_send_, c.bytes_to_send_.toNat⟩

/-- The writes of `WriteOnce`, turn by turn. -/
def written (c : TCPConn) : List Outcome → List Handed
  | [] => [write_args c]
  | .again :: outcomes => write_args c :: written c outcomes
  | .failed :: _ => [write_args c]
  | .accepted temp :: outcomes =>
    let c' := c.take_off (min temp c.bytes_to_send_.toNat)
    write_args c :: if c'.bytes_to_send_ ≤ 0 then [] else written c' outcomes

/-- The writes of the loop of `Process`, with `left` requests left. -/
def handed : ℕ → TCPConn → List Outcome → List Handed
  | 0, _, _ => []
  | left + 1, c, outcomes =>
    let run := c.fill_reply.WriteOnce outcomes
    written c.fill_reply outcomes ++ if run.returned then handed left run.conn run.outcomes else []

def server : Server where
  Conn := TCPConn
  Sends := List Outcome
  READ_BUFFER_SIZE := READ_BUFFER_SIZE
  WRITE_BUFFER_SIZE := WRITE_BUFFER_SIZE
  Init c socket_fd := TCPConn.Reset { c with socket_fd_ := socket_fd }
  read_idx_ := TCPConn.read_idx_
  ReadOnce := TCPConn.ReadOnce
  ParseMultiRequest := TCPConn.ParseMultiRequest
  Process c outcomes :=
    let run := c.Process 0 outcomes
    ⟨run.conn, handed c.ParseMultiRequest c outcomes, run.returned⟩
  SendFails outcomes := .failed ∈ outcomes

end redis

inductive Variant
  | network_skeleton
  | synthetic_memcached_skeleton
  | synthetic_nginx
  | synthetic_redis
deriving DecidableEq

def Variant.server : Variant → Server
  | .network_skeleton => writev.server .network_skeleton
  | .synthetic_memcached_skeleton => memcached.server
  | .synthetic_nginx => writev.server .synthetic_nginx
  | .synthetic_redis => redis.server

/-! ## The events of a connection -/

/-- An epoll event of a connection. A hang-up closes the socket and leaves the connection. -/
inductive Event (Sends : Type)
  | hangup
  | input (result : Option (List UInt8)) (sends : Sends)

/-- What one event does: the base and the length of its read, the connection after each call of
`ReadOnce` and `Process`, and the segments that it hands over. -/
structure Handling (Conn : Type) where
  conn : Conn
  reads : List (ℤ × ℤ)
  visited : List Conn
  handed : List Handed
  returned : Bool

namespace Server

variable (s : Server)

def handle (c : s.Conn) : Event s.Sends → Handling s.Conn
  | .hangup => ⟨c, [], [], [], true⟩
  | .input result sends =>
    let read := (s.read_idx_ c, s.READ_BUFFER_SIZE - s.read_idx_ c)
    let c₁ := (s.ReadOnce c result).1
    if (s.ReadOnce c result).2 then
      let run := s.Process c₁ sends
      let visited := if run.returned then [c₁, run.conn] else [c₁]
      ⟨run.conn, [read], visited, run.handed, run.returned⟩
    else ⟨c₁, [read], [c₁], [], true⟩

/-- The event loop of a network thread, for the events of one connection. -/
def loop : EventLoop s.Conn (Event s.Sends) (Handling s.Conn) where
  handle := s.handle
  next h := if h.returned then some h.conn else none

variable {s}

theorem conn_of_next {c c' : s.Conn} {e : Event s.Sends}
    (h : s.loop.next (s.loop.handle c e) = some c') : (s.handle c e).conn = c' := by
  simp only [loop] at h
  split at h
  · exact Option.some.inj h
  · cases h

end Server

end ditto.skeletons
