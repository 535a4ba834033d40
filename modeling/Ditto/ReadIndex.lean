-- The read index of a connection, in each of the four skeletons. A read that
-- fails moves the index before it is looked at.
import Ditto.Skeletons

open ditto.tcp_conn (Outcome)

namespace ditto.skeletons

/-! ## Reads inside the buffer -/

namespace Server

variable (s : Server)

/-- A read returns no more bytes than it asks for. -/
def ReadFits (c : s.Conn) : Event s.Sends → Prop
  | .input (some chunk) _ => chunk.length ≤ s.READ_BUFFER_SIZE - s.read_idx_ c
  | _ => True

def InReadBuf (i : ℤ) : Prop := 0 ≤ i ∧ i ≤ s.READ_BUFFER_SIZE

/-- The event keeps the read index in the buffer, and its read goes into the buffer. -/
structure ReadsInside (h : Handling s.Conn) : Prop where
  index : ∀ c ∈ h.visited, s.InReadBuf (s.read_idx_ c)
  region : ∀ r ∈ h.reads, 0 ≤ r.1 ∧ 0 ≤ r.2 ∧ r.1 + r.2 ≤ s.READ_BUFFER_SIZE

/-- No read fails while the read buffer is empty. -/
def NoFailureOnEmpty (c : s.Conn) : Event s.Sends → Prop
  | .input none _ => s.read_idx_ c ≠ 0
  | _ => True

end Server

/-! ## The read index -/

/-- The read index stays as it is or goes back to 0. -/
def KeptOrCleared (i j : ℤ) : Prop := j = i ∨ j = 0

theorem KeptOrCleared.trans {i j k : ℤ} (h : KeptOrCleared i j) (h' : KeptOrCleared j k) :
    KeptOrCleared i k := by
  rcases h' with rfl | rfl
  · exact h
  · exact .inr rfl

/-- What the functions of a skeleton do to the read index. -/
structure Server.Indexed (s : Server) : Prop where
  init : ∀ c fd, s.read_idx_ (s.Init c fd) = 0
  failed : ∀ c, s.ReadOnce c none = ((s.ReadOnce c none).1, false) ∧
    s.read_idx_ (s.ReadOnce c none).1 = s.read_idx_ c - 1
  read : ∀ c chunk, s.read_idx_ (s.ReadOnce c (some chunk)).1 = s.read_idx_ c + chunk.length
  process : ∀ c sends, KeptOrCleared (s.read_idx_ c) (s.read_idx_ (s.Process c sends).conn)

namespace writev

open writev_conn

theorem read_idx_closeConn (c : TCPConn) (real_close : Bool) :
    (c.CloseConn real_close).read_idx_ = c.read_idx_ := by
  rw [TCPConn.CloseConn]
  split <;> rfl

theorem read_idx_writeOnce (k : Skeleton) (c : TCPConn) (outcomes : List Outcome) :
    KeptOrCleared c.read_idx_ (c.WriteOnce k outcomes).conn.read_idx_ := by
  induction outcomes generalizing c with
  | nil => exact .inl rfl
  | cons outcome rest ih =>
    cases outcome with
    | again => exact ih c
    | failed => exact .inl (read_idx_closeConn c true)
    | accepted temp =>
      rw [TCPConn.WriteOnce]
      split
      · exact .inr rfl
      · exact ih (c.take_off temp)

theorem read_idx_fill_reply (k : Skeleton) (c : TCPConn) :
    (k.fill_reply c).read_idx_ = c.read_idx_ := by
  cases k <;> rfl

theorem read_idx_process_loop (k : Skeleton) (sends : ℕ → List Outcome) (left i : ℕ) (c : TCPConn) :
    KeptOrCleared c.read_idx_ (process_loop k sends left i c).conn.read_idx_ := by
  induction left generalizing i c with
  | zero => exact .inl rfl
  | succ left ih =>
    have hrun := read_idx_writeOnce k (k.fill_reply c) (sends i)
    rw [read_idx_fill_reply] at hrun
    rw [process_loop]
    split
    · exact hrun.trans (ih (i + 1) _)
    · exact hrun

theorem indexed (k : Skeleton) : (server k).Indexed where
  init _ _ := rfl
  failed _ := ⟨rfl, rfl⟩
  read _ _ := rfl
  process c sends := read_idx_process_loop k sends (k.ParseMultiRequest c) 0 c

end writev

namespace memcached

open tcp_conn

theorem read_idx_take_off (c : TCPConn) (temp : ℕ) : (c.take_off temp).read_idx_ = c.read_idx_ := by
  unfold TCPConn.take_off
  simp only
  split
  · rfl
  · split <;> rfl

theorem read_idx_closeConn (c : TCPConn) (real_close : Bool) :
    (c.CloseConn real_close).read_idx_ = c.read_idx_ := by
  rw [TCPConn.CloseConn]
  split <;> rfl

theorem read_idx_writeOnce (c : TCPConn) (outcomes : List Outcome) :
    KeptOrCleared c.read_idx_ (c.WriteOnce outcomes).conn.read_idx_ := by
  induction outcomes generalizing c with
  | nil =>
    rw [TCPConn.WriteOnce]
    split
    · exact .inr rfl
    · exact .inl rfl
  | cons outcome rest ih =>
    unfold TCPConn.WriteOnce
    split
    · exact .inr rfl
    · cases outcome with
      | again => exact ih c
      | failed => exact .inl (read_idx_closeConn c true)
      | accepted temp =>
        have hrest := ih (c.take_off temp)
        rw [read_idx_take_off] at hrest
        simp only
        split
        · exact .inr rfl
        · exact hrest

theorem read_idx_process_loop (fd : ℕ) (sends : ℕ → List Outcome) (left i : ℕ) (c : TCPConn)
    (id : BitVec 64) :
    KeptOrCleared c.read_idx_ (process_loop fd sends left i c id).conn.read_idx_ := by
  induction left generalizing i c id with
  | zero => exact .inl rfl
  | succ left ih =>
    have hrun : KeptOrCleared c.read_idx_ (c.fill_reply.WriteOnce (sends i)).conn.read_idx_ :=
      read_idx_writeOnce c.fill_reply (sends i)
    rw [process_loop]
    simp only
    split
    · exact hrun.trans (ih (i + 1) _ (id + 1))
    · exact hrun

theorem indexed : server.Indexed where
  init _ _ := rfl
  failed _ := ⟨rfl, rfl⟩
  read _ _ := rfl
  process c sends := read_idx_process_loop _ sends c.ParseMultiRequest.toNat 0 c 0

end memcached

namespace redis

open redis_conn

theorem read_idx_closeConn (c : TCPConn) (real_close : Bool) :
    (c.CloseConn real_close).read_idx_ = c.read_idx_ := by
  rw [TCPConn.CloseConn]
  split <;> rfl

theorem read_idx_writeOnce (c : TCPConn) (outcomes : List Outcome) :
    KeptOrCleared c.read_idx_ (c.WriteOnce outcomes).conn.read_idx_ := by
  induction outcomes generalizing c with
  | nil => exact .inl rfl
  | cons outcome rest ih =>
    cases outcome with
    | again => exact ih c
    | failed => exact .inl (read_idx_closeConn c true)
    | accepted temp =>
      rw [TCPConn.WriteOnce]
      simp only
      split
      · exact .inr rfl
      · exact ih (c.take_off (min temp c.bytes_to_send_.toNat))

theorem read_idx_process_loop (left : ℕ) (c : TCPConn) (id : BitVec 64) (outcomes : List Outcome) :
    KeptOrCleared c.read_idx_ (TCPConn.process_loop left c id outcomes).conn.read_idx_ := by
  induction left generalizing c id outcomes with
  | zero => exact .inl rfl
  | succ left ih =>
    have hrun : KeptOrCleared c.read_idx_ (c.fill_reply.WriteOnce outcomes).conn.read_idx_ :=
      read_idx_writeOnce c.fill_reply outcomes
    rw [TCPConn.process_loop]
    simp only
    split
    · exact hrun.trans (ih _ (id + 1) _)
    · exact hrun

theorem indexed : server.Indexed where
  init _ _ := rfl
  failed _ := ⟨rfl, rfl⟩
  read _ _ := rfl
  process c outcomes := read_idx_process_loop c.ParseMultiRequest c 0 outcomes

end redis

theorem Variant.indexed (v : Variant) : v.server.Indexed :=
  match v with
  | .network_skeleton => writev.indexed .network_skeleton
  | .synthetic_memcached_skeleton => memcached.indexed
  | .synthetic_nginx => writev.indexed .synthetic_nginx
  | .synthetic_redis => redis.indexed

section index

variable {s : Server} {c c' : s.Conn} {e : Event s.Sends}

theorem KeptOrCleared.inReadBuf {i j : ℤ} (h : KeptOrCleared i j) (hi : s.InReadBuf i) :
    s.InReadBuf j := by
  rcases h with rfl | rfl
  · exact hi
  · exact ⟨Int.le_refl _, Int.natCast_nonneg _⟩

/-- A connection that an event leaves or visits has its index in the buffer, as long as the
read does not fail on an empty buffer. -/
theorem Server.Indexed.kept (hs : s.Indexed) (hc : s.InReadBuf (s.read_idx_ c)) (hfit : s.ReadFits c e)
    (he : s.NoFailureOnEmpty c e) :
    (∀ c' ∈ (s.handle c e).visited, s.InReadBuf (s.read_idx_ c')) ∧
      s.InReadBuf (s.read_idx_ (s.handle c e).conn) := by
  match e with
  | .hangup => exact ⟨by simp [handle], hc⟩
  | .input none sends =>
    obtain ⟨hread, hidx⟩ := hs.failed c
    have hne : s.read_idx_ c ≠ 0 := he
    have hin : s.InReadBuf (s.read_idx_ (s.ReadOnce c none).1) := by
      rw [hidx]
      obtain ⟨hlo, hhi⟩ := hc
      exact ⟨by omega, by omega⟩
    have hok : (s.ReadOnce c none).2 = false := by rw [hread]
    simp only [handle, hok]
    exact ⟨by simpa using hin, hin⟩
  | .input (some chunk) sends =>
    have hroom : (chunk.length : ℤ) ≤ s.READ_BUFFER_SIZE - s.read_idx_ c := hfit
    have hin : s.InReadBuf (s.read_idx_ (s.ReadOnce c (some chunk)).1) := by
      rw [hs.read]
      obtain ⟨hlo, hhi⟩ := hc
      exact ⟨by omega, by omega⟩
    have hrun := (hs.process (s.ReadOnce c (some chunk)).1 sends).inReadBuf hin
    rw [handle]
    split
    · refine ⟨?_, hrun⟩
      simp only
      split
      · simpa using ⟨hin, hrun⟩
      · simpa using hin
    · exact ⟨by simpa using hin, hin⟩

/-- A read that fails on an empty buffer leaves the index at -1. -/
theorem Server.Indexed.readsInside_iff (hs : s.Indexed) (hc : s.InReadBuf (s.read_idx_ c))
    (hfit : s.ReadFits c e) : s.ReadsInside (s.handle c e) ↔ s.NoFailureOnEmpty c e := by
  constructor
  · intro h
    match e with
    | .hangup => trivial
    | .input (some chunk) sends => trivial
    | .input none sends =>
      intro hzero
      obtain ⟨hread, hidx⟩ := hs.failed c
      have hok : (s.ReadOnce c none).2 = false := by rw [hread]
      have hmem : (s.ReadOnce c none).1 ∈ (s.handle c (.input none sends)).visited := by
        simp [handle, hok]
      have hlo := (h.index _ hmem).1
      omega
  · intro he
    refine ⟨(hs.kept hc hfit he).1, ?_⟩
    intro r hr
    match e with
    | .hangup => simp [handle] at hr
    | .input result sends =>
      have hreads : (s.handle c (.input result sends)).reads =
          [(s.read_idx_ c, s.READ_BUFFER_SIZE - s.read_idx_ c)] := by
        rw [handle]
        split <;> rfl
      rw [hreads, List.mem_singleton] at hr
      obtain ⟨hlo, hhi⟩ := hc
      rw [hr]
      exact ⟨hlo, by simp only; omega, by simp only; omega⟩

end index

/-! ## The laws -/

/-- In every skeleton the read index stays in the read buffer, and every read goes into the
buffer, exactly when no read fails while the buffer is empty. A read that fails takes 1 off the
index. -/
theorem reads_stay_inside_iff_none_fails_on_empty (v : Variant) (c : v.server.Conn) (socket_fd : ℤ)
    (events : List (Event v.server.Sends))
    (hfits : v.server.loop.Along v.server.ReadFits (v.server.Init c socket_fd) events) :
    (∀ h ∈ v.server.loop.run (v.server.Init c socket_fd) events, v.server.ReadsInside h) ↔
      v.server.loop.Along v.server.NoFailureOnEmpty (v.server.Init c socket_fd) events := by
  have hs := v.indexed
  have hinit : v.server.InReadBuf (v.server.read_idx_ (v.server.Init c socket_fd)) := by
    rw [hs.init]
    exact ⟨Int.le_refl _, Int.natCast_nonneg _⟩
  refine EventLoop.forall_run_iff (fun c => v.server.InReadBuf (v.server.read_idx_ c))
    (fun _ _ hc hfit => hs.readsInside_iff hc hfit) ?_ hinit hfits
  intro c e c' hc hfit he hnext
  rw [← Server.conn_of_next hnext]
  exact (hs.kept hc hfit he).2

/-- The first read of a connection fails. -/
def firstReadFails : List (Event (ℕ → List Outcome)) := [.input none fun _ => []]

/-- A read that fails on a new connection leaves the index at -1, so the next read starts one
byte before the buffer. -/
theorem a_first_read_that_fails_leaves_the_buffer :
    ¬ ∀ (v : Variant) (c : v.server.Conn) (socket_fd : ℤ) (events : List (Event v.server.Sends)),
      v.server.loop.Along v.server.ReadFits (v.server.Init c socket_fd) events →
      ∀ h ∈ v.server.loop.run (v.server.Init c socket_fd) events, v.server.ReadsInside h := by
  intro h
  have hinside := h .network_skeleton (writev_conn.idle .network_skeleton) 5 firstReadFails
    ⟨trivial, fun _ _ => trivial⟩ _ List.mem_cons_self
  have hlow := (hinside.index _ List.mem_cons_self).1
  exact absurd hlow (by decide)

/-- One byte comes in, and then a read fails. -/
def secondReadFails : List (Event (List Outcome)) := [.input (some [97]) [], .input none []]

/-- The law on a read that fails behind a byte that waits. -/
theorem a_second_read_that_fails_stays_in_the_buffer :
    let run := redis.server.loop.run (redis.server.Init redis_conn.newConn 5) secondReadFails
    run.length = 2 ∧ ∀ h ∈ run, redis.server.ReadsInside h := by
  refine ⟨by decide +kernel, ?_⟩
  apply (reads_stay_inside_iff_none_fails_on_empty .synthetic_redis redis_conn.newConn 5
    secondReadFails _).mpr
  · refine ⟨trivial, fun c' hc' => ⟨?_, fun _ _ => trivial⟩⟩
    rw [← Server.conn_of_next hc']
    show redis_conn.TCPConn.read_idx_ (redis.server.handle
      (redis.server.Init redis_conn.newConn 5) (.input (some [97]) [])).conn ≠ 0
    decide +kernel
  · have hroom : (([97] : List UInt8).length : ℤ) ≤ redis_conn.READ_BUFFER_SIZE - 0 := by decide
    exact ⟨hroom, fun _ _ => ⟨trivial, fun _ _ => trivial⟩⟩

end ditto.skeletons
