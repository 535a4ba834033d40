-- The connections of the synthetic redis server, in its epoll build. A line
-- end in the read buffer is a request. The first reply of a read throws the
-- whole read buffer away, and what it throws away holds no request that is
-- not counted yet.
import Ditto.TcpConn

open ditto.tcp_conn (Outcome)

namespace ditto.redis_conn

/-! ## The connection -/

def READ_BUFFER_SIZE : ℕ := 20480

def WRITE_BUFFER_SIZE : ℕ := 20480

structure TCPConn where
  socket_fd_ : ℤ
  read_buf_ : List UInt8
  read_idx_ : ℤ
  write_buf_ : List UInt8
  write_idx_ : ℤ
  bytes_to_send_ : ℤ
  bytes_have_send_ : ℤ
deriving DecidableEq

namespace TCPConn

def CloseConn (c : TCPConn) (real_close : Bool) : TCPConn :=
  if real_close && c.socket_fd_ != -1 then { c with socket_fd_ := -1 } else c

def Reset (c : TCPConn) : TCPConn :=
  { c with bytes_to_send_ := 0, bytes_have_send_ := 0, read_idx_ := 0, write_idx_ := 0 }

/-- One `read` of the socket: the bytes it returns, or none for an error, which returns -1. -/
def ReadOnce (c : TCPConn) (result : Option (List UInt8)) : TCPConn × Bool :=
  match result with
  | none => ({ c with read_idx_ := c.read_idx_ - 1 }, false)
  | some chunk =>
    let start := c.read_idx_.toNat
    let read_buf := c.read_buf_.take start ++ chunk ++ c.read_buf_.drop (start + chunk.length)
    ({ c with read_buf_ := read_buf, read_idx_ := c.read_idx_ + chunk.length },
      decide (0 < chunk.length))

/-- A run of `WriteOnce`: the connection it leaves, the bytes it sent, the outcomes it did not
use, and whether it returned. -/
structure WriteRun where
  conn : TCPConn
  sent : List UInt8
  outcomes : List Outcome
  returned : Bool
deriving DecidableEq

/-- The counters once a write has accepted `temp` bytes. -/
def take_off (c : TCPConn) (temp : ℕ) : TCPConn :=
  { c with
    bytes_have_send_ := c.bytes_have_send_ + temp
    bytes_to_send_ := c.bytes_to_send_ - temp }

/-- The loop of `WriteOnce` over the outcomes of its writes. A write takes no more bytes than
it is given. With no outcome left the loop waits for the next write. -/
def WriteOnce (c : TCPConn) : List Outcome → WriteRun
  | [] => ⟨c, [], [], false⟩
  | .again :: outcomes => c.WriteOnce outcomes
  | .failed :: outcomes => ⟨c.CloseConn true, [], outcomes, true⟩
  | .accepted temp :: outcomes =>
    let taken := min temp c.bytes_to_send_.toNat
    let sent := (c.write_buf_.drop c.bytes_have_send_.toNat).take taken
    let c' := c.take_off taken
    if c'.bytes_to_send_ ≤ 0 then ⟨c'.Reset, sent, outcomes, true⟩
    else
      let run := c'.WriteOnce outcomes
      { run with sent := sent ++ run.sent }

/-- The byte `'\n'`. -/
def NEWLINE : UInt8 := 10

def ParseMultiRequest (c : TCPConn) : ℕ := (c.read_buf_.take c.read_idx_.toNat).count NEWLINE

def REPLY_SIZE : ℕ := 1205

/-- The write buffer with a reply in it. -/
def fill_buf (write_buf : List UInt8) : List UInt8 :=
  (((((write_buf.set 0 114).set 1 101).set 2 112).set 3 108).set 4 121).set (REPLY_SIZE - 1) NEWLINE

def fill_reply (c : TCPConn) : TCPConn :=
  { c with write_idx_ := REPLY_SIZE, write_buf_ := fill_buf c.write_buf_, bytes_to_send_ := REPLY_SIZE }

/-- What a run of `Process` leaves. It does not return when a reply waits for its writes. -/
structure ProcessRun where
  conn : TCPConn
  request_id : BitVec 64
  sent : List UInt8
  outcomes : List Outcome
  returned : Bool

/-- The loop of `Process` with `left` requests left. -/
def process_loop : ℕ → TCPConn → BitVec 64 → List Outcome → ProcessRun
  | 0, c, request_id, outcomes => ⟨c, request_id, [], outcomes, true⟩
  | left + 1, c, request_id, outcomes =>
    let run := c.fill_reply.WriteOnce outcomes
    if run.returned then
      let rest := process_loop left run.conn (request_id + 1) run.outcomes
      { rest with sent := run.sent ++ rest.sent }
    else ⟨run.conn, request_id + 1, run.sent, run.outcomes, false⟩

def Process (c : TCPConn) (request_id : BitVec 64) (outcomes : List Outcome) : ProcessRun :=
  process_loop c.ParseMultiRequest c request_id outcomes

end TCPConn

open TCPConn

/-! ## The loop over the reads -/

/-- A connection with what it has sent, the outcomes of the writes to come, and the connections
that the calls of `Process` with a reply left. -/
structure Session where
  conn : TCPConn
  request_id : BitVec 64
  outcomes : List Outcome
  sent : List UInt8
  replied : List TCPConn
  returned : Bool

/-- One event: a read of `chunk`, and the replies to it. -/
def Session.handle (t : Session) (chunk : List UInt8) : Session :=
  let (conn, ok) := t.conn.ReadOnce (some chunk)
  if ok then
    let run := conn.Process t.request_id t.outcomes
    { conn := run.conn
      request_id := run.request_id
      outcomes := run.outcomes
      sent := t.sent ++ run.sent
      replied := if 0 < conn.ParseMultiRequest ∧ run.returned then t.replied ++ [run.conn]
        else t.replied
      returned := run.returned }
  else { t with conn := conn }

def Session.run (t : Session) : List (List UInt8) → Session
  | [] => t
  | chunk :: chunks => if (t.handle chunk).returned then (t.handle chunk).run chunks
    else t.handle chunk

/-- The connection after `Init`. -/
def Session.start (c : TCPConn) (request_id : BitVec 64) (outcomes : List Outcome) : Session :=
  ⟨c.Reset, request_id, outcomes, [], [], true⟩

/-- Each read returns some bytes, and no more than it has room for. -/
def ReadsFit (t : Session) : List (List UInt8) → Prop
  | [] => True
  | chunk :: chunks =>
    0 < chunk.length ∧ t.conn.read_idx_ + chunk.length ≤ READ_BUFFER_SIZE ∧
      ((t.handle chunk).returned = true → ReadsFit (t.handle chunk) chunks)

/-- Every run of bytes as long as the read buffer has a line end in it. -/
def LinesFit (stream : List UInt8) : Prop :=
  ∀ bytes, bytes <:+: stream → READ_BUFFER_SIZE ≤ bytes.length → NEWLINE ∈ bytes

/-- The write would block or accepts some bytes. -/
def Writes (outcomes : List Outcome) : Prop :=
  ∀ o ∈ outcomes, o = .again ∨ ∃ temp, 0 < temp ∧ o = .accepted temp

/-- How many writes accept something. -/
def accepts (outcomes : List Outcome) : ℕ := outcomes.countP (· ≠ .again)

/-- The bytes of a reply. -/
def TCPConn.reply (c : TCPConn) : List UInt8 := (fill_buf c.write_buf_).take REPLY_SIZE

/-! ## One reply -/

/-- What a run sends of the bytes `want`: a first part of them, and all of them once it returns.
It returns when enough writes accept something. -/
structure Sends (want : List UInt8) (outcomes : List Outcome) (sent : List UInt8)
    (outcomes' : List Outcome) (returned : Bool) : Prop where
  front : sent <+: want
  all : returned = true → sent = want
  later : outcomes' <:+ outcomes
  returns : want.length ≤ accepts outcomes → returned = true
  accepts_le : accepts outcomes ≤ accepts outcomes' + want.length

theorem Writes.of_suffix {outcomes outcomes' : List Outcome} (h : Writes outcomes)
    (hs : outcomes' <:+ outcomes) : Writes outcomes' := fun o ho => h o (hs.subset ho)

variable {want sent : List UInt8} {os os' : List Outcome}

/-- One run after another, when the first one returns. -/
theorem Sends.trans {want' sent' : List UInt8} {os'' : List Outcome} {returned : Bool}
    (h : Sends want os sent os' true) (h' : Sends want' os' sent' os'' returned) :
    Sends (want ++ want') os (sent ++ sent') os'' returned where
  front := by
    rw [h.all rfl]
    exact (List.prefix_append_right_inj want).mpr h'.front
  all hret := by rw [h.all rfl, h'.all hret]
  later := h'.later.trans h.later
  returns hlen := by
    have := h.accepts_le
    rw [List.length_append] at hlen
    exact h'.returns (by omega)
  accepts_le := by
    have h1 := h.accepts_le
    have h2 := h'.accepts_le
    rw [List.length_append]
    omega

/-- A run that does not return hides what comes behind it. -/
theorem Sends.append (want' : List UInt8) (h : Sends want os sent os' false) :
    Sends (want ++ want') os sent os' false where
  front := h.front.trans (List.prefix_append _ _)
  all := by simp
  later := h.later
  returns hlen := by
    rw [List.length_append] at hlen
    exact h.returns (by omega)
  accepts_le := by
    have := h.accepts_le
    rw [List.length_append]
    omega

@[simp] theorem accepts_again (os : List Outcome) : accepts (.again :: os) = accepts os := by
  simp [accepts]

@[simp] theorem accepts_accepted (temp : ℕ) (os : List Outcome) :
    accepts (.accepted temp :: os) = accepts os + 1 := by
  simp [accepts]

/-- A write that accepts the bytes `want`. -/
theorem sends_accepted (temp : ℕ) (os : List Outcome) (h : 0 < want.length) :
    Sends want (.accepted temp :: os) want os true where
  front := List.prefix_rfl
  all _ := rfl
  later := List.suffix_cons _ _
  returns _ := rfl
  accepts_le := by
    rw [accepts_accepted]
    omega

/-- A write that would block changes nothing. -/
theorem Sends.again {returned : Bool} (h : Sends want os sent os' returned) :
    Sends want (.again :: os) sent os' returned where
  front := h.front
  all := h.all
  later := h.later.trans (List.suffix_cons _ _)
  returns := by
    rw [accepts_again]
    exact h.returns
  accepts_le := by
    rw [accepts_again]
    exact h.accepts_le

theorem take_drop_split {bytes : List UInt8} {start n left : ℕ} (h : n ≤ left) :
    (bytes.drop start).take left =
      (bytes.drop start).take n ++ (bytes.drop (start + n)).take (left - n) := by
  rw [← List.drop_drop, ← List.take_add, Nat.add_sub_cancel' h]

/-- The loop of `WriteOnce` sends the bytes from `bytes_have_send_` on, and ends in `Reset`. -/
theorem TCPConn.WriteOnce_sends {c : TCPConn} (hos : Writes os) {start left : ℕ}
    (hstart : c.bytes_have_send_ = start) (hleft : c.bytes_to_send_ = left) (hpos : 0 < left)
    (hlen : start + left ≤ c.write_buf_.length) :
    Sends ((c.write_buf_.drop start).take left) os (c.WriteOnce os).sent (c.WriteOnce os).outcomes
        (c.WriteOnce os).returned ∧
      ((c.WriteOnce os).returned = true → (c.WriteOnce os).conn = c.Reset) := by
  induction os generalizing c start left with
  | nil =>
    refine ⟨⟨List.nil_prefix, by simp [WriteOnce], List.suffix_rfl, ?_, by simp [accepts]⟩,
      by simp [WriteOnce]⟩
    intro hwant
    rw [List.length_take, List.length_drop] at hwant
    simp only [accepts, List.countP_nil] at hwant
    omega
  | cons o os ih =>
    have hrest : Writes os := hos.of_suffix (List.suffix_cons _ _)
    rcases hos o List.mem_cons_self with rfl | ⟨temp, htemp, rfl⟩
    · obtain ⟨hsends, hconn⟩ := ih hrest hstart hleft hpos hlen
      exact ⟨hsends.again, hconn⟩
    · -- The bytes that this write accepts.
      have hone : 0 < ((c.write_buf_.drop start).take (min temp left)).length := by
        rw [List.length_take, List.length_drop]
        omega
      have hsent := sends_accepted temp os hone
      unfold WriteOnce
      simp only [hstart, hleft, Int.toNat_natCast]
      split
      · rename_i hdone
        rw [take_off, hleft] at hdone
        have heq : min temp left = left := by simp only at hdone; omega
        rw [heq] at hsent ⊢
        exact ⟨hsent, fun _ => rfl⟩
      · rename_i hmore
        rw [take_off, hleft] at hmore
        have hlt : min temp left < left := by simp only at hmore; omega
        obtain ⟨hsends, hconn⟩ := @ih (c.take_off (min temp left)) hrest (start + min temp left)
          (left - min temp left) (by simp [take_off, hstart]) (by simp only [take_off, hleft]; omega)
          (by omega) (by simp only [take_off]; omega)
        rw [take_drop_split (le_of_lt hlt)]
        exact ⟨hsent.trans hsends, hconn⟩

/-! ## The replies to one read -/

theorem length_fill_buf (w : List UInt8) : (fill_buf w).length = w.length := by simp [fill_buf]

/-- The next reply has the same bytes. -/
theorem fill_buf_fill_buf (w : List UInt8) : fill_buf (fill_buf w) = fill_buf w := by
  apply List.ext_getElem?
  intro i
  simp only [fill_buf, List.getElem?_set, List.length_set]
  grind

theorem TCPConn.length_reply {c : TCPConn} (h : c.write_buf_.length = WRITE_BUFFER_SIZE) :
    c.reply.length = REPLY_SIZE := by
  rw [reply, List.length_take, length_fill_buf, h]
  rfl

/-- The connection after a call of `Process` with a reply. -/
def TCPConn.answered (c : TCPConn) : TCPConn := c.fill_reply.Reset

theorem process_loop_sends {c : TCPConn} (hos : Writes os)
    (hlen : c.write_buf_.length = WRITE_BUFFER_SIZE) (hhave : c.bytes_have_send_ = 0) (left : ℕ)
    (request_id : BitVec 64) : let run := process_loop left c request_id os
    Sends (List.replicate left c.reply).flatten os run.sent run.outcomes run.returned ∧
      (run.returned = true → run.conn = if left = 0 then c else c.answered) := by
  induction left generalizing c request_id os with
  | zero =>
    exact ⟨⟨List.prefix_rfl, fun _ => rfl, List.suffix_rfl, fun _ => rfl, Nat.le_add_right _ _⟩,
      fun _ => rfl⟩
  | succ left ih =>
    have hfill : c.fill_reply.write_buf_.length = WRITE_BUFFER_SIZE :=
      (length_fill_buf _).trans hlen
    obtain ⟨hsends, hconn⟩ := @WriteOnce_sends os c.fill_reply hos 0 REPLY_SIZE
      (by simp [fill_reply, hhave]) rfl (by decide) (by rw [hfill]; decide)
    rw [List.drop_zero] at hsends
    unfold process_loop
    simp only [List.replicate_succ, List.flatten_cons]
    split
    · rename_i hret
      rw [hret] at hsends
      have hnext := hconn hret
      have hreply : c.answered.reply = c.reply := by
        simp only [reply, answered, Reset, fill_reply, fill_buf_fill_buf]
      obtain ⟨hrest, hend⟩ := @ih (c.fill_reply.WriteOnce os).outcomes c.answered
        (hos.of_suffix hsends.later) hfill rfl (request_id + 1)
      rw [hnext, ← answered]
      rw [hreply] at hrest
      refine ⟨hsends.trans hrest, fun hret => ?_⟩
      rw [if_neg (Nat.succ_ne_zero left), hend hret]
      split
      · rfl
      · simp only [answered, Reset, fill_reply, fill_buf_fill_buf]
    · rename_i hret
      rw [Bool.eq_false_iff.mpr hret] at hsends
      exact ⟨hsends.append _, fun h => by cases h⟩

/-! ## The replies to all reads -/

/-- A connection between two events. The read buffer starts with the bytes `pending`, which are
the last ones of `past` and hold no line end, and the next reply is the one of the buffer `w`. -/
structure Waits (w past pending : List UInt8) (c : TCPConn) : Prop where
  last : pending <:+ past
  no_line : NEWLINE ∉ pending
  front : pending <+: c.read_buf_
  idx_eq : c.read_idx_ = pending.length
  read_length : c.read_buf_.length = READ_BUFFER_SIZE
  write_length : c.write_buf_.length = WRITE_BUFFER_SIZE
  fill : fill_buf c.write_buf_ = fill_buf w
  to_send : c.bytes_to_send_ = 0
  have_send : c.bytes_have_send_ = 0

variable {past : List UInt8}

theorem Waits.reply_eq {w pending : List UInt8} {c : TCPConn} (h : Waits w past pending c) :
    c.reply = (fill_buf w).take REPLY_SIZE := by rw [reply, h.fill]

/-- A read puts its bytes behind the pending ones. -/
theorem Waits.read {w pending : List UInt8} {c : TCPConn} (h : Waits w past pending c)
    {chunk : List UInt8} (hfit : c.read_idx_ + chunk.length ≤ READ_BUFFER_SIZE) :
    (c.ReadOnce (some chunk)).1.read_buf_.take (pending ++ chunk).length = pending ++ chunk ∧
      (c.ReadOnce (some chunk)).1.read_buf_.length = READ_BUFFER_SIZE ∧
      (c.ReadOnce (some chunk)).1.read_idx_ = (pending ++ chunk).length := by
  have hidx : c.read_idx_.toNat = pending.length := by rw [h.idx_eq, Int.toNat_natCast]
  have htake : c.read_buf_.take pending.length = pending := (List.prefix_iff_eq_take.mp h.front).symm
  have hlen := h.front.length_le
  have hroom : pending.length + chunk.length ≤ READ_BUFFER_SIZE := by
    have := h.idx_eq
    omega
  simp only [ReadOnce, hidx, htake]
  refine ⟨List.take_left' rfl, ?_, ?_⟩
  · rw [List.length_append, List.length_append, List.length_drop, h.read_length]
    omega
  · rw [h.idx_eq, List.length_append]
    push_cast
    rfl

/-- Each line end of a read is a request, and no line end is thrown away. -/
theorem Waits.parse {w pending : List UInt8} {c : TCPConn} (h : Waits w past pending c)
    {chunk : List UInt8} (hfit : c.read_idx_ + chunk.length ≤ READ_BUFFER_SIZE) :
    (c.ReadOnce (some chunk)).1.ParseMultiRequest = chunk.count NEWLINE := by
  obtain ⟨htake, -, hidx⟩ := h.read hfit
  rw [ParseMultiRequest, hidx, Int.toNat_natCast, htake, List.count_append,
    List.count_eq_zero.mpr h.no_line, Nat.zero_add]

/-- The connection that an event leaves: without a request it keeps the bytes of the read. -/
theorem Waits.next {w pending : List UInt8} {c : TCPConn} (h : Waits w past pending c)
    {chunk : List UInt8} (hfit : c.read_idx_ + chunk.length ≤ READ_BUFFER_SIZE) :
    ∃ pending', Waits w (past ++ chunk) pending'
      (if chunk.count NEWLINE = 0 then (c.ReadOnce (some chunk)).1
        else (c.ReadOnce (some chunk)).1.answered) := by
  obtain ⟨htake, hlen, hidx⟩ := h.read hfit
  split
  · rename_i hcount
    refine ⟨pending ++ chunk, ?_, ?_, ?_, hidx, hlen, h.write_length, h.fill, h.to_send, h.have_send⟩
    · obtain ⟨front, rfl⟩ := h.last
      exact ⟨front, by rw [List.append_assoc]⟩
    · rw [List.mem_append, not_or]
      exact ⟨h.no_line, List.count_eq_zero.mp hcount⟩
    · rw [← htake]
      exact List.take_prefix _ _
  · exact ⟨[], List.nil_suffix, List.not_mem_nil, List.nil_prefix, rfl, hlen,
      (length_fill_buf _).trans h.write_length,
      (fill_buf_fill_buf _).trans h.fill, rfl, rfl⟩

/-- The counters that a call of `Process` with a reply leaves. -/
def TCPConn.Cleared (c : TCPConn) : Prop :=
  c.read_idx_ = 0 ∧ c.bytes_to_send_ = 0 ∧ c.bytes_have_send_ = 0

/-- The replies to `n` requests. -/
def replies (w : List UInt8) (n : ℕ) : List UInt8 :=
  (List.replicate n ((fill_buf w).take REPLY_SIZE)).flatten

theorem replies_add (w : List UInt8) (n m : ℕ) : replies w (n + m) = replies w n ++ replies w m := by
  rw [replies, List.replicate_add, List.flatten_append]
  rfl

theorem Session.handle_spec {w pending : List UInt8} {t : Session} (h : Waits w past pending t.conn)
    (hos : Writes t.outcomes) {chunk : List UInt8} (hpos : 0 < chunk.length)
    (hfit : t.conn.read_idx_ + chunk.length ≤ READ_BUFFER_SIZE) :
    (∃ sent, (t.handle chunk).sent = t.sent ++ sent ∧
      Sends (replies w (chunk.count NEWLINE)) t.outcomes sent (t.handle chunk).outcomes
        (t.handle chunk).returned) ∧
    ((t.handle chunk).returned = true →
      ∃ pending', Waits w (past ++ chunk) pending' (t.handle chunk).conn) ∧
    ∀ c ∈ (t.handle chunk).replied, c ∈ t.replied ∨ c.Cleared := by
  have hparse := h.parse hfit
  have hreply : (t.conn.ReadOnce (some chunk)).1.reply = (fill_buf w).take REPLY_SIZE := h.reply_eq
  obtain ⟨hsends, hconn⟩ := @process_loop_sends t.outcomes (t.conn.ReadOnce (some chunk)).1 hos
    h.write_length h.have_send (chunk.count NEWLINE) t.request_id
  rw [hreply, ← replies] at hsends
  have hok : (t.conn.ReadOnce (some chunk)).2 = true := decide_eq_true hpos
  unfold Session.handle
  simp only [hok, if_true, Process, hparse]
  refine ⟨⟨_, rfl, hsends⟩, ?_, ?_⟩
  · intro hret
    rw [hconn hret]
    exact h.next hfit
  · intro c hc
    split at hc
    · rename_i hrun
      rcases List.mem_append.mp hc with hc | hc
      · exact .inl hc
      · rw [List.mem_singleton.mp hc, hconn hrun.2, if_neg (Nat.ne_of_gt hrun.1)]
        exact .inr ⟨rfl, rfl, rfl⟩
    · exact .inl hc

theorem Session.run_spec {w pending : List UInt8} {t : Session} {chunks : List (List UInt8)}
    (h : Waits w past pending t.conn) (hos : Writes t.outcomes) (hret : t.returned = true)
    (hfit : ReadsFit t chunks) :
    (∃ sent, (t.run chunks).sent = t.sent ++ sent ∧
      Sends (replies w (chunks.flatten.count NEWLINE)) t.outcomes sent (t.run chunks).outcomes
        (t.run chunks).returned) ∧
    ((t.run chunks).returned = true →
      ∃ pending', Waits w (past ++ chunks.flatten) pending' (t.run chunks).conn) ∧
    ∀ c ∈ (t.run chunks).replied, c ∈ t.replied ∨ c.Cleared := by
  induction chunks generalizing t past pending with
  | nil =>
    refine ⟨⟨[], by simp [run], ?_⟩, ?_, ?_⟩
    · rw [run, hret]
      exact ⟨List.prefix_rfl, fun _ => rfl, List.suffix_rfl, fun _ => rfl, Nat.le_add_right _ _⟩
    · intro _
      exact ⟨pending, by simpa [run] using h⟩
    · exact fun c hc => .inl hc
  | cons chunk chunks ih =>
    obtain ⟨hpos, hroom, hrest⟩ := hfit
    obtain ⟨⟨sent, hsent, hsends⟩, hwaits, hcleared⟩ := handle_spec h hos hpos hroom
    rw [List.flatten_cons, List.count_append, replies_add]
    unfold run
    split
    · rename_i hhandled
      rw [hhandled] at hsends
      obtain ⟨pending', hwaits'⟩ := hwaits hhandled
      obtain ⟨⟨sent', hsent', hsends'⟩, hwaits'', hcleared'⟩ :=
        ih hwaits' (hos.of_suffix hsends.later) hhandled (hrest hhandled)
      refine ⟨⟨sent ++ sent', ?_, hsends.trans hsends'⟩, ?_, ?_⟩
      · rw [hsent', hsent, List.append_assoc]
      · rw [← List.append_assoc]
        exact hwaits''
      · intro c hc
        rcases hcleared' c hc with hc | hc
        · exact hcleared c hc
        · exact .inr hc
    · rename_i hhandled
      rw [Bool.eq_false_iff.mpr hhandled] at hsends ⊢
      exact ⟨⟨sent, hsent, hsends.append _⟩, nofun, hcleared⟩

/-! ## The laws -/

theorem waits_start {c : TCPConn} (hread : c.read_buf_.length = READ_BUFFER_SIZE)
    (hwrite : c.write_buf_.length = WRITE_BUFFER_SIZE) : Waits c.write_buf_ [] [] c.Reset :=
  ⟨List.suffix_rfl, List.not_mem_nil, List.nil_prefix, rfl, hread, hwrite, rfl, rfl, rfl⟩

/-- Pending bytes hold no line end, so there is room behind them. -/
theorem Waits.room {w pending : List UInt8} {c : TCPConn} (h : Waits w past pending c)
    (hlines : LinesFit past) : 0 ≤ c.read_idx_ ∧ c.read_idx_ < READ_BUFFER_SIZE := by
  have hlt : pending.length < READ_BUFFER_SIZE := by
    by_contra hle
    exact h.no_line (hlines pending h.last.isInfix (Nat.not_lt.mp hle))
  have := h.idx_eq
  omega

/-- Every line gets one reply, however the input is split into reads and the replies into
writes. What is sent is always the front of these replies, it is all of them when no reply waits
for its writes, and none waits once enough writes accept something. Every call of `Process` with
a reply leaves the counters at 0, and there is always room for the next read. -/
theorem every_line_gets_one_reply (c : TCPConn) (hread : c.read_buf_.length = READ_BUFFER_SIZE)
    (hwrite : c.write_buf_.length = WRITE_BUFFER_SIZE) (request_id : BitVec 64)
    (outcomes : List Outcome) (hos : Writes outcomes) (chunks : List (List UInt8))
    (hlines : LinesFit chunks.flatten)
    (hfit : ReadsFit (Session.start c request_id outcomes) chunks) :
    let t := (Session.start c request_id outcomes).run chunks
    let expected := (List.replicate (chunks.flatten.count NEWLINE) c.reply).flatten
    c.reply.length = 1205 ∧ t.sent <+: expected ∧ (t.returned = true → t.sent = expected) ∧
      (expected.length ≤ accepts outcomes → t.returned = true) ∧
      (∀ c' ∈ t.replied, c'.read_idx_ = 0 ∧ c'.bytes_to_send_ = 0 ∧ c'.bytes_have_send_ = 0) ∧
      (t.returned = true → 0 ≤ t.conn.read_idx_ ∧ t.conn.read_idx_ < READ_BUFFER_SIZE) := by
  obtain ⟨⟨sent, hsent, hsends⟩, hwaits, hcleared⟩ :=
    Session.run_spec (waits_start hread hwrite) hos rfl hfit
  rw [show (Session.start c request_id outcomes).sent = [] from rfl, List.nil_append] at hsent
  refine ⟨c.length_reply hwrite, ?_, ?_, hsends.returns, ?_, ?_⟩
  · rw [hsent]
    exact hsends.front
  · rw [hsent]
    exact hsends.all
  · intro c' hc'
    rcases hcleared c' hc' with hc' | hc'
    · cases hc'
    · exact hc'
  · intro hret
    obtain ⟨pending, hpending⟩ := hwaits hret
    exact hpending.room hlines

def newConn : TCPConn :=
  ⟨5, List.replicate READ_BUFFER_SIZE 0, 0, List.replicate WRITE_BUFFER_SIZE 0, 0, 0, 0⟩

/-- The line `a`, the start of a second line, and then its end. -/
def twoReads : List (List UInt8) := [[97, 10, 98], [10]]

/-- The first reply goes out in two parts. -/
def threeWrites : List Outcome := [.again, .accepted 1000, .accepted 205, .again, .accepted 1205]

theorem every_line_gets_one_reply_over_two_reads :
    let t := (Session.start newConn 0 threeWrites).run twoReads
    t.returned = true ∧ t.sent = newConn.reply ++ newConn.reply := by
  have hos : Writes threeWrites := by
    intro o ho
    simp only [threeWrites, List.mem_cons, List.not_mem_nil, or_false] at ho
    rcases ho with rfl | rfl | rfl | rfl | rfl <;> simp
  have hlines : LinesFit twoReads.flatten := by
    intro bytes hbytes hlen
    have h4 : bytes.length ≤ 4 := hbytes.length_le
    rw [READ_BUFFER_SIZE] at hlen
    omega
  have hfit : ReadsFit (Session.start newConn 0 threeWrites) twoReads :=
    ⟨by decide, by decide, fun _ => ⟨by decide, by decide +kernel, fun _ => trivial⟩⟩
  have hret : ((Session.start newConn 0 threeWrites).run twoReads).returned = true := by
    decide +kernel
  have hlaw := every_line_gets_one_reply newConn List.length_replicate List.length_replicate 0
    threeWrites hos twoReads hlines hfit
  refine ⟨hret, (hlaw.2.2.1 hret).trans ?_⟩
  rw [show twoReads.flatten.count NEWLINE = 2 by decide]
  simp [List.replicate_succ]

end ditto.redis_conn
