-- The network threads of the synthetic memcached server: a thread reads what
-- comes in on its connections, and answers the requests that are complete.
import Ditto.TcpConn

open Segment

namespace ditto.tcp_conn

/-! ## The event loop -/

def TCPConn.ParseMultiRequest (c : TCPConn) : ℤ := c.read_idx_.tdiv 54

/-- A request that `Process` ran: the connection, the id that `runAssembly` got, and the run
that sent the reply. -/
structure Served where
  socket_fd : ℕ
  request_id : BitVec 64
  run : WriteRun

/-- What a run of `Process` leaves. It does not return when a reply waits for its sends. -/
structure ProcessRun where
  conn : TCPConn
  request_id : BitVec 64
  served : List Served
  returned : Bool

/-- The loop of `Process`: `left` requests are left to run, and the next one has the index
`i`. The sends of the reply `i` are `sends i`. -/
def process_loop (socket_fd : ℕ) (sends : ℕ → List Outcome) :
    ℕ → ℕ → TCPConn → BitVec 64 → ProcessRun
  | 0, _, c, request_id => ⟨c, request_id, [], true⟩
  | left + 1, i, c, request_id =>
    let run := c.fill_reply.WriteOnce (sends i)
    let here : Served := ⟨socket_fd, request_id, run⟩
    if run.returned then
      let rest := process_loop socket_fd sends left (i + 1) run.conn (request_id + 1)
      { rest with served := here :: rest.served }
    else ⟨run.conn, request_id + 1, [here], false⟩

def TCPConn.Process (c : TCPConn) (socket_fd : ℕ) (sends : ℕ → List Outcome)
    (request_id : BitVec 64) : ProcessRun :=
  process_loop socket_fd sends c.ParseMultiRequest.toNat 0 c request_id

/-- A network thread: its connections, the next request id, and what it has served. -/
structure Thread where
  conns : ℕ → TCPConn
  request_id : BitVec 64
  served : List Served

/-- Data came in on a connection: what `read` returns, and the sends of the replies. -/
structure Event where
  socket_fd : ℕ
  result : Option (List UInt8)
  sends : ℕ → List Outcome

/-- The thread handles one event. It is false when a reply still waits for its sends. -/
def Thread.handle (t : Thread) (e : Event) : Thread × Bool :=
  let (conn, ok) := (t.conns e.socket_fd).ReadOnce e.result
  if ok then
    let run := conn.Process e.socket_fd e.sends t.request_id
    (⟨Function.update t.conns e.socket_fd run.conn, run.request_id, t.served ++ run.served⟩,
      run.returned)
  else ({ t with conns := Function.update t.conns e.socket_fd conn }, true)

def Thread.Run (t : Thread) : List Event → Thread
  | [] => t
  | e :: rest => if (t.handle e).2 then (t.handle e).1.Run rest else (t.handle e).1

/-- The thread at its start: each connection is reset, and the request ids start at 0. -/
def Thread.start (conns : ℕ → TCPConn) : Thread := ⟨fun fd => (conns fd).Reset, 0, []⟩

/-! ## The request ids -/

/-- The ids of the requests of a run of `Process` count up by one. -/
theorem process_loop_ids (socket_fd : ℕ) (sends : ℕ → List Outcome) (left i : ℕ) (c : TCPConn)
    (request_id : BitVec 64) :
    let run := process_loop socket_fd sends left i c request_id
    run.served.map Served.request_id =
        (List.range run.served.length).map (fun j => request_id + BitVec.ofNat 64 j) ∧
      run.request_id = request_id + BitVec.ofNat 64 run.served.length := by
  induction left generalizing i c request_id with
  | zero => simp [process_loop]
  | succ left ih =>
    unfold process_loop
    simp only
    split
    · obtain ⟨hids, hnext⟩ := ih (i + 1) (c.fill_reply.WriteOnce (sends i)).conn (request_id + 1)
      have hshift : ∀ j : ℕ, request_id + 1 + BitVec.ofNat 64 j =
          request_id + BitVec.ofNat 64 (j + 1) := by
        intro j
        rw [BitVec.ofNat_add, BitVec.add_assoc, BitVec.add_comm (BitVec.ofNat 64 j)]
        rfl
      simp only [List.map_cons, hids, hnext, List.length_cons, List.range_succ_eq_map,
        List.map_map]
      refine ⟨?_, hshift _⟩
      rw [BitVec.ofNat_eq_ofNat, BitVec.add_zero]
      congr 1
      apply List.map_congr_left
      intro j _
      exact hshift j
    · simp

/-- A thread gives its requests the ids that follow each other, over all its connections. -/
def IdsInOrder (first : BitVec 64) (t : Thread) : Prop :=
  t.served.map Served.request_id =
      (List.range t.served.length).map (fun j => first + BitVec.ofNat 64 j) ∧
    t.request_id = first + BitVec.ofNat 64 t.served.length

theorem idsInOrder_handle {first : BitVec 64} {t : Thread} (e : Event) (h : IdsInOrder first t) :
    IdsInOrder first (t.handle e).1 := by
  unfold Thread.handle
  simp only
  split
  · obtain ⟨hids, hnext⟩ := h
    obtain ⟨hids', hnext'⟩ := process_loop_ids e.socket_fd e.sends
      (((t.conns e.socket_fd).ReadOnce e.result).1.ParseMultiRequest.toNat) 0
      ((t.conns e.socket_fd).ReadOnce e.result).1 t.request_id
    have hsum : ∀ j : ℕ, t.request_id + BitVec.ofNat 64 j =
        first + BitVec.ofNat 64 (t.served.length + j) := by
      intro j
      rw [hnext, BitVec.ofNat_add, BitVec.add_assoc]
    unfold IdsInOrder TCPConn.Process
    refine ⟨?_, ?_⟩
    · rw [List.map_append, hids, hids', List.length_append, List.range_add, List.map_append,
        List.map_map]
      congr 1
      apply List.map_congr_left
      intro j _
      exact hsum j
    · rw [hnext', List.length_append]
      exact hsum _
  · exact h

theorem idsInOrder_run {first : BitVec 64} {t : Thread} (events : List Event)
    (h : IdsInOrder first t) : IdsInOrder first (t.Run events) := by
  induction events generalizing t with
  | nil => exact h
  | cons e rest ih =>
    unfold Thread.Run
    split
    · exact ih (idsInOrder_handle e h)
    · exact idsInOrder_handle e h

/-! ## The replies of a connection -/

/-- The reply went out whole. -/
def Served.whole (s : Served) : Bool := s.run.returned && decide (s.run.sent = List.range 4124)

/-- The replies that a connection got. -/
def Thread.replies (t : Thread) (fd : ℕ) : ℕ :=
  t.served.countP fun s => decide (s.socket_fd = fd) && s.whole

/-- Every send of the event takes a whole reply. -/
def SendsInFull (e : Event) : Prop := ∀ i, e.sends i = [.accepted 4124]

/-- Each event of the connection reads at least one byte and no more than its buffer holds. -/
def ReadsFit (fd : ℕ) : Thread → List Event → Prop
  | _, [] => True
  | t, e :: rest =>
    (e.socket_fd = fd → ∃ chunk, e.result = some chunk ∧ 1 ≤ chunk.length ∧
      chunk.length ≤ READ_BUFFER_SIZE - (t.conns fd).read_idx_) ∧
    ReadsFit fd (t.handle e).1 rest

/-- The sizes of the reads of a connection. -/
def readSizes (fd : ℕ) (events : List Event) : List ℕ :=
  (events.filter fun e => e.socket_fd = fd).map fun e => (e.result.getD []).length

/-- The requests that the server answers, when the buffer holds `held` bytes before the
reads. A read that completes a request empties the buffer. -/
def answered : ℕ → List ℕ → ℕ
  | _, [] => 0
  | held, n :: rest =>
    if held + n < 54 then answered (held + n) rest else (held + n) / 54 + answered 0 rest

/-- The bytes that are no part of an answered request: the ones behind the last complete
request of a read that completes one, and the ones that wait at the end. -/
def unanswered : ℕ → List ℕ → ℕ
  | held, [] => held
  | held, n :: rest =>
    if held + n < 54 then unanswered (held + n) rest else (held + n) % 54 + unanswered 0 rest

theorem answered_add_unanswered (held : ℕ) (sizes : List ℕ) :
    54 * answered held sizes + unanswered held sizes = held + sizes.sum := by
  induction sizes generalizing held with
  | nil => simp [answered, unanswered]
  | cons n rest ih =>
    unfold answered unanswered
    rw [List.sum_cons]
    split
    · rw [ih]
      omega
    · have := ih 0
      have := Nat.div_add_mod (held + n) 54
      omega

theorem answered_eq_iff (sizes : List ℕ) :
    answered 0 sizes = sizes.sum / 54 ↔ unanswered 0 sizes < 54 := by
  have := answered_add_unanswered 0 sizes
  omega

theorem writeOnce_in_full (c : TCPConn) :
    (c.fill_reply.WriteOnce [.accepted 4124]).returned = true ∧
      (c.fill_reply.WriteOnce [.accepted 4124]).sent = List.range 4124 ∧
      (c.fill_reply.WriteOnce [.accepted 4124]).conn.read_idx_ = 0 := by
  have hfresh := fresh_fill_reply c
  rw [hfresh.writeOnce_accepted, if_pos (by omega), hfresh.gather_iv (by omega)]
  exact ⟨rfl, List.range_eq_range'.symm, rfl⟩

theorem process_loop_in_full (fd : ℕ) (sends : ℕ → List Outcome)
    (hsends : ∀ i, sends i = [.accepted 4124]) (left i : ℕ) (c : TCPConn) (id : BitVec 64) :
    let run := process_loop fd sends left i c id
    run.returned = true ∧ run.served.length = left ∧
      (∀ s ∈ run.served, s.socket_fd = fd ∧ s.whole = true) ∧
      run.conn.read_idx_ = if left = 0 then c.read_idx_ else 0 := by
  induction left generalizing i c id with
  | zero => simp [process_loop]
  | succ left ih =>
    obtain ⟨hret, hsent, hidx⟩ := writeOnce_in_full c
    unfold process_loop
    simp only [hsends i, hret, ↓reduceIte]
    obtain ⟨hret', hlen, hall, hidx'⟩ :=
      ih (i + 1) (c.fill_reply.WriteOnce [.accepted 4124]).conn (id + 1)
    refine ⟨hret', by rw [List.length_cons, hlen], ?_, ?_⟩
    · rw [List.forall_mem_cons]
      refine ⟨⟨rfl, ?_⟩, hall⟩
      simp [Served.whole, hret, hsent]
    · rw [hidx', hidx]
      simp

/-- An event on a connection that holds `held` bytes of an open request. -/
theorem handle_own {fd held : ℕ} {t : Thread} {e : Event} {chunk : List UInt8}
    (hfd : e.socket_fd = fd) (hres : e.result = some chunk) (hpos : 1 ≤ chunk.length)
    (hsends : SendsInFull e) (hheld : (t.conns fd).read_idx_ = held) :
    (t.handle e).2 = true ∧
      (t.handle e).1.replies fd = t.replies fd + (held + chunk.length) / 54 ∧
      ((t.handle e).1.conns fd).read_idx_ =
        if held + chunk.length < 54 then ((held + chunk.length : ℕ) : ℤ) else 0 := by
  subst hfd
  obtain ⟨hret, hlen, hall, hidx⟩ := process_loop_in_full e.socket_fd e.sends hsends
    (((t.conns e.socket_fd).ReadOnce e.result).1.ParseMultiRequest.toNat) 0
    ((t.conns e.socket_fd).ReadOnce e.result).1 t.request_id
  have hread : ((t.conns e.socket_fd).ReadOnce e.result).1.read_idx_ =
      ((held + chunk.length : ℕ) : ℤ) := by
    simp [TCPConn.ReadOnce, hres, hheld]
  have hok : ((t.conns e.socket_fd).ReadOnce e.result).2 = true := by
    simp [TCPConn.ReadOnce, hres]
    omega
  have hcount : ((t.conns e.socket_fd).ReadOnce e.result).1.ParseMultiRequest.toNat =
      (held + chunk.length) / 54 := by
    unfold TCPConn.ParseMultiRequest
    rw [hread, Int.tdiv_eq_ediv_of_nonneg (by omega)]
    omega
  unfold Thread.handle
  simp only [hok, ↓reduceIte]
  refine ⟨hret, ?_, ?_⟩
  · unfold Thread.replies
    rw [List.countP_append]
    congr 1
    rw [← hcount, ← hlen]
    apply List.countP_eq_length.mpr
    intro s hs
    obtain ⟨h1, h2⟩ := hall s hs
    simp [h1, h2]
  · rw [Function.update_self]
    unfold TCPConn.Process
    rw [hidx, hread, hcount]
    congr 1
    rw [eq_iff_iff, Nat.div_eq_zero_iff]
    omega

/-- An event on another connection leaves this one alone. -/
theorem handle_other {fd : ℕ} {t : Thread} {e : Event} (hfd : e.socket_fd ≠ fd)
    (hsends : SendsInFull e) :
    (t.handle e).2 = true ∧ (t.handle e).1.replies fd = t.replies fd ∧
      (t.handle e).1.conns fd = t.conns fd := by
  unfold Thread.handle
  simp only
  split
  · obtain ⟨hret, _, hall, _⟩ := process_loop_in_full e.socket_fd e.sends hsends
      (((t.conns e.socket_fd).ReadOnce e.result).1.ParseMultiRequest.toNat) 0
      ((t.conns e.socket_fd).ReadOnce e.result).1 t.request_id
    refine ⟨hret, ?_, Function.update_of_ne (Ne.symm hfd) _ _⟩
    unfold Thread.replies
    rw [List.countP_append, Nat.add_eq_left, List.countP_eq_zero]
    intro s hs
    simp [(hall s hs).1, hfd]
  · exact ⟨rfl, rfl, Function.update_of_ne (Ne.symm hfd) _ _⟩

theorem replies_run {fd held : ℕ} {t : Thread} (events : List Event)
    (hsends : ∀ e ∈ events, SendsInFull e) (hfit : ReadsFit fd t events)
    (hheld : (t.conns fd).read_idx_ = held) :
    (t.Run events).replies fd = t.replies fd + answered held (readSizes fd events) := by
  induction events generalizing t held with
  | nil => simp [Thread.Run, readSizes, answered]
  | cons e rest ih =>
    rw [List.forall_mem_cons] at hsends
    obtain ⟨hread, hfit⟩ := hfit
    unfold Thread.Run
    by_cases hfd : e.socket_fd = fd
    · obtain ⟨chunk, hres, hpos, _⟩ := hread hfd
      obtain ⟨hret, hrep, hidx⟩ := handle_own hfd hres hpos hsends.1 hheld
      have hsizes : readSizes fd (e :: rest) = chunk.length :: readSizes fd rest := by
        simp [readSizes, hfd, hres]
      rw [if_pos hret, hsizes, answered]
      split at hidx
      · rename_i hlt
        rw [if_pos hlt, ih hsends.2 hfit hidx, hrep, Nat.div_eq_of_lt hlt, Nat.add_zero]
      · rename_i hge
        have hempty : ((t.handle e).1.conns fd).read_idx_ = (0 : ℕ) := hidx
        rw [if_neg hge, ih hsends.2 hfit hempty, hrep, Nat.add_assoc]
    · obtain ⟨hret, hrep, hconn⟩ := handle_other hfd hsends.1
      have hsizes : readSizes fd (e :: rest) = readSizes fd rest := by
        simp [readSizes, hfd]
      rw [if_pos hret, hsizes, ih hsends.2 hfit (by rw [hconn, hheld]), hrep]

theorem replies_start {fd : ℕ} {conns : ℕ → TCPConn} {events : List Event}
    (hsends : ∀ e ∈ events, SendsInFull e) (hfit : ReadsFit fd (Thread.start conns) events) :
    ((Thread.start conns).Run events).replies fd = answered 0 (readSizes fd events) := by
  rw [replies_run events hsends hfit rfl]
  simp [Thread.start, Thread.replies]

/-! ## The laws -/

/-- Whatever comes in, a thread gives its requests the ids 0, 1, 2 and so on. -/
theorem request_ids_count_up (conns : ℕ → TCPConn) (events : List Event) :
    ((Thread.start conns).Run events).served.map Served.request_id =
      (List.range ((Thread.start conns).Run events).served.length).map (BitVec.ofNat 64) := by
  have hstart : IdsInOrder 0 (Thread.start conns) := ⟨rfl, rfl⟩
  have hrun := (idsInOrder_run events hstart).1
  rw [hrun]
  apply List.map_congr_left
  intro j _
  exact BitVec.zero_add _

/-- Every complete request of a connection gets its reply exactly when fewer than 54 bytes
are no part of an answered request. -/
theorem requests_are_answered_iff_few_bytes_are_lost (conns : ℕ → TCPConn) (fd : ℕ)
    (events : List Event) (hsends : ∀ e ∈ events, SendsInFull e)
    (hfit : ReadsFit fd (Thread.start conns) events) :
    ((Thread.start conns).Run events).replies fd = (readSizes fd events).sum / 54 ↔
      unanswered 0 (readSizes fd events) < 54 := by
  rw [replies_start hsends hfit]
  exact answered_eq_iff _

/-- A read of `n` bytes on the connection 5, with every send in full. -/
def readOf (n : ℕ) : Event := ⟨5, some (List.replicate n 0), fun _ => [.accepted 4124]⟩

/-- A request that is cut by the reads and one behind it. -/
theorem requests_in_two_reads_are_answered :
    unanswered 0 (readSizes 5 [readOf 30, readOf 78]) < 54 ∧
      ((Thread.start fun _ => idle).Run [readOf 30, readOf 78]).replies 5 = 2 := by
  have hfew : unanswered 0 (readSizes 5 [readOf 30, readOf 78]) < 54 := by decide +kernel
  have htwo : (readSizes 5 [readOf 30, readOf 78]).sum / 54 = 2 := by decide +kernel
  refine ⟨hfew, htwo ▸ (requests_are_answered_iff_few_bytes_are_lost (fun _ => idle) 5 _ ?_ ?_).mpr
    hfew⟩
  · simp [SendsInFull, readOf]
  · exact ⟨fun _ => ⟨_, rfl, by decide, by decide +kernel⟩,
      fun _ => ⟨_, rfl, by decide, by decide +kernel⟩, trivial⟩

/-- A read of 60 bytes and one of 48 bytes hold two requests. The first reply empties the
buffer, so the six bytes behind the first request are lost and the second gets no reply. -/
theorem a_request_split_behind_another_gets_no_reply :
    ¬ ∀ (conns : ℕ → TCPConn) (fd : ℕ) (events : List Event), (∀ e ∈ events, SendsInFull e) →
      ReadsFit fd (Thread.start conns) events →
      ((Thread.start conns).Run events).replies fd = (readSizes fd events).sum / 54 := by
  intro h
  have hsends : ∀ e ∈ [readOf 60, readOf 48], SendsInFull e := by simp [SendsInFull, readOf]
  have hfit : ReadsFit 5 (Thread.start fun _ => idle) [readOf 60, readOf 48] :=
    ⟨fun _ => ⟨_, rfl, by decide, by decide +kernel⟩,
      fun _ => ⟨_, rfl, by decide, by decide +kernel⟩, trivial⟩
  have hall := h (fun _ => idle) 5 _ hsends hfit
  rw [replies_start hsends hfit] at hall
  exact absurd hall (by decide)

end ditto.tcp_conn
