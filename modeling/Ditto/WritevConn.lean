-- The connections of the network skeleton and of the synthetic nginx server.
-- Both send a reply with `writev` and hand it the same segments again after
-- a call that takes a part of them.
import Ditto.TcpConn

open Segment
open ditto.tcp_conn (Outcome)

namespace ditto.writev_conn

/-! ## The connection -/

/-- The skeletons whose `WriteOnce` calls `writev`. -/
inductive Skeleton
  | network_skeleton
  | synthetic_nginx
deriving DecidableEq

def Skeleton.READ_BUFFER_SIZE : Skeleton → ℕ
  | .network_skeleton => 540
  | .synthetic_nginx => 2048

def Skeleton.WRITE_BUFFER_SIZE : Skeleton → ℕ
  | .network_skeleton => 540
  | .synthetic_nginx => 2048

/-- The bases of the segments are offsets from the start of `write_buf_`. The network skeleton
has one segment. -/
structure TCPConn where
  socket_fd_ : ℤ
  read_buf_ : List UInt8
  read_idx_ : ℤ
  write_buf_ : List UInt8
  write_idx_ : ℤ
  iv_0 : Segment
  iv_1 : Segment
  iv_count_ : ℕ
  bytes_to_send_ : ℤ
  bytes_have_send_ : ℤ
deriving DecidableEq

namespace TCPConn

/-- The segments that `writev` gets. -/
def iv_ (c : TCPConn) : List Segment := [c.iv_0, c.iv_1].take c.iv_count_

def CloseConn (c : TCPConn) (real_close : Bool) : TCPConn :=
  if real_close && c.socket_fd_ != -1 then { c with socket_fd_ := -1 } else c

def Reset (k : Skeleton) (c : TCPConn) : TCPConn :=
  { c with
    bytes_to_send_ := 0
    bytes_have_send_ := 0
    read_idx_ := 0
    write_idx_ := 0
    read_buf_ := List.replicate k.READ_BUFFER_SIZE 0
    write_buf_ := List.replicate k.WRITE_BUFFER_SIZE 0 }

/-- One `read` of the socket: the bytes it returns, or none for an error, which returns -1. -/
def ReadOnce (c : TCPConn) (result : Option (List UInt8)) : TCPConn × Bool :=
  match result with
  | none => ({ c with read_idx_ := c.read_idx_ - 1 }, false)
  | some chunk =>
    let start := c.read_idx_.toNat
    let read_buf := c.read_buf_.take start ++ chunk ++ c.read_buf_.drop (start + chunk.length)
    ({ c with read_buf_ := read_buf, read_idx_ := c.read_idx_ + chunk.length },
      decide (0 < chunk.length))

/-- The counters once a call has accepted `temp` bytes. The segments stay as they are. -/
def take_off (c : TCPConn) (temp : ℕ) : TCPConn :=
  { c with
    bytes_have_send_ := c.bytes_have_send_ + temp
    bytes_to_send_ := c.bytes_to_send_ - temp }

/-- A run of `WriteOnce`: the connection it leaves, the addresses it sent, the connection at
each call of `writev`, and whether it returned. -/
structure WriteRun where
  conn : TCPConn
  sent : List ℕ
  heads : List TCPConn
  returned : Bool
deriving DecidableEq

/-- A turn of the loop goes before the rest of the run. -/
def WriteRun.after (run : WriteRun) (head : TCPConn) (sent : List ℕ) : WriteRun :=
  { run with sent := sent ++ run.sent, heads := head :: run.heads }

/-- The loop of `WriteOnce` over the outcomes of its calls. With no outcome left it waits for
the next call. -/
def WriteOnce (k : Skeleton) (c : TCPConn) : List Outcome → WriteRun
  | [] => ⟨c, [], [c], false⟩
  | .again :: rest => (c.WriteOnce k rest).after c []
  | .failed :: _ => ⟨c.CloseConn true, [], [c], true⟩
  | .accepted temp :: rest =>
    let c' := c.take_off temp
    if c'.bytes_to_send_ ≤ 0 then ⟨c'.Reset k, gather temp c.iv_, [c], true⟩
    else (c'.WriteOnce k rest).after c (gather temp c.iv_)

end TCPConn

/-! ## The requests and the replies of each skeleton -/

namespace network_skeleton

def ParseMultiRequest (_ : TCPConn) : ℕ := 1

def response : List UInt8 :=
  "reply!Helloworld!Helloworld!Helloworld!\n".toList.map Char.toUInt8

/-- The part of `Process` that fills in a reply before `WriteOnce` sends it. -/
def fill_reply (c : TCPConn) : TCPConn :=
  { c with
    write_buf_ := response ++ c.write_buf_.drop response.length
    write_idx_ := response.length
    iv_0 := ⟨0, response.length⟩
    iv_count_ := 1
    bytes_to_send_ := response.length }

end network_skeleton

namespace synthetic_nginx

/-- The byte `'\n'`. -/
def NEWLINE : UInt8 := 10

def ParseMultiRequest (c : TCPConn) : ℕ := (c.read_buf_.take c.read_idx_.toNat).count NEWLINE

/-- The bytes of `tmp_read_buf` that each request writes to the log file. -/
def log_write : Segment := ⟨0, 82⟩

def fill_reply (c : TCPConn) : TCPConn :=
  { c with
    write_idx_ := 238
    write_buf_ := ['r', 'e', 'p', 'l', 'y'].map Char.toUInt8 ++ c.write_buf_.drop 5
    iv_0 := ⟨0, 238⟩
    iv_1 := ⟨238, 612⟩
    iv_count_ := 2
    bytes_to_send_ := 238 + 612 }

end synthetic_nginx

def Skeleton.ParseMultiRequest : Skeleton → TCPConn → ℕ
  | .network_skeleton => network_skeleton.ParseMultiRequest
  | .synthetic_nginx => synthetic_nginx.ParseMultiRequest

def Skeleton.fill_reply : Skeleton → TCPConn → TCPConn
  | .network_skeleton => network_skeleton.fill_reply
  | .synthetic_nginx => synthetic_nginx.fill_reply

def Skeleton.log_writes : Skeleton → List Segment
  | .network_skeleton => []
  | .synthetic_nginx => [synthetic_nginx.log_write]

/-- What a run of `Process` leaves: the connection, the runs of `WriteOnce`, and what it wrote
to the log file. It does not return when a reply waits for its calls. -/
structure ProcessRun where
  conn : TCPConn
  runs : List TCPConn.WriteRun
  logged : List Segment
  returned : Bool

/-- The loop of `Process`: `left` requests are left to run, and the next one has the index `i`.
The calls of the reply `i` have the outcomes `sends i`. -/
def process_loop (k : Skeleton) (sends : ℕ → List Outcome) : ℕ → ℕ → TCPConn → ProcessRun
  | 0, _, c => ⟨c, [], [], true⟩
  | left + 1, i, c =>
    let run := (k.fill_reply c).WriteOnce k (sends i)
    if run.returned then
      let rest := process_loop k sends left (i + 1) run.conn
      { rest with runs := run :: rest.runs, logged := k.log_writes ++ rest.logged }
    else ⟨run.conn, [run], k.log_writes, false⟩

def Skeleton.Process (k : Skeleton) (c : TCPConn) (sends : ℕ → List Outcome) : ProcessRun :=
  process_loop k sends (k.ParseMultiRequest c) 0 c

/-! ## What the calls of a reply may do -/

/-- The outcomes of the calls of one reply: each would block or accepts from one byte up to the
bytes it is given, and there is no call after the reset. -/
def Sends : TCPConn → List Outcome → Prop
  | _, [] => True
  | c, .again :: rest => Sends c rest
  | _, .failed :: _ => False
  | c, .accepted temp :: rest => 1 ≤ temp ∧ temp ≤ total c.iv_ ∧
    if (c.take_off temp).bytes_to_send_ ≤ 0 then rest = [] else Sends (c.take_off temp) rest

/-- The run sends each byte of the segments once and in order, and it resets the connection
when it has sent all of them. -/
structure SentOnce (k : Skeleton) (c : TCPConn) (outcomes : List Outcome) : Prop where
  in_order : (c.WriteOnce k outcomes).sent <+: addrs c.iv_
  whole : (c.WriteOnce k outcomes).returned = true → (c.WriteOnce k outcomes).sent = addrs c.iv_
  returns : tcp_conn.accepted outcomes = total c.iv_ → (c.WriteOnce k outcomes).returned = true

/-- The bytes that each accepting call takes. -/
def takes (outcomes : List Outcome) : List ℕ :=
  outcomes.filterMap fun
    | .accepted temp => some temp
    | _ => none

/-! ## The run of a reply -/

section run

variable {k : Skeleton} {c : TCPConn} {outcomes : List Outcome}

@[simp] theorem takes_nil : takes [] = [] := rfl

@[simp] theorem takes_again (rest : List Outcome) : takes (.again :: rest) = takes rest := rfl

@[simp] theorem takes_accepted (temp : ℕ) (rest : List Outcome) :
    takes (.accepted temp :: rest) = temp :: takes rest := rfl

theorem iv_take_off (c : TCPConn) (temp : ℕ) : (c.take_off temp).iv_ = c.iv_ := rfl

/-- Every accepting call sends from the first byte on. -/
theorem sent_eq (hs : Sends c outcomes) :
    (c.WriteOnce k outcomes).sent = (takes outcomes).flatMap fun n => (addrs c.iv_).take n := by
  induction outcomes generalizing c with
  | nil => rfl
  | cons outcome rest ih =>
    cases outcome with
    | failed => exact absurd hs id
    | again => simpa [TCPConn.WriteOnce, TCPConn.WriteRun.after] using ih hs
    | accepted temp =>
      obtain ⟨_, _, hrest⟩ := hs
      rw [TCPConn.WriteOnce, takes_accepted, List.flatMap_cons, gather_eq_take]
      split
      · rename_i hdone
        rw [if_pos hdone] at hrest
        rw [hrest]
        simp
      · rename_i hmore
        rw [if_neg hmore] at hrest
        simp only [TCPConn.WriteRun.after, ih hrest, iv_take_off]

/-- The run resets the connection when its calls have taken as many bytes as there were. -/
theorem returned_iff (hs : Sends c outcomes) (hleft : 0 < c.bytes_to_send_) :
    (c.WriteOnce k outcomes).returned = true ↔ c.bytes_to_send_ ≤ (takes outcomes).sum := by
  induction outcomes generalizing c with
  | nil =>
    simp only [TCPConn.WriteOnce, takes_nil, List.sum_nil]
    simpa using hleft
  | cons outcome rest ih =>
    cases outcome with
    | failed => exact absurd hs id
    | again => simpa [TCPConn.WriteOnce, TCPConn.WriteRun.after] using ih hs hleft
    | accepted temp =>
      obtain ⟨_, _, hrest⟩ := hs
      rw [TCPConn.WriteOnce, takes_accepted, List.sum_cons]
      have hoff : (c.take_off temp).bytes_to_send_ = c.bytes_to_send_ - temp := rfl
      split
      · rename_i hdone
        simp only [true_iff]
        omega
      · rename_i hmore
        rw [if_neg hmore] at hrest
        simp only [TCPConn.WriteRun.after, ih hrest (by omega), hoff]
        omega

theorem accepted_eq_sum (outcomes : List Outcome) :
    tcp_conn.accepted outcomes = (takes outcomes).sum := by
  induction outcomes with
  | nil => rfl
  | cons outcome rest ih =>
    rw [tcp_conn.accepted_cons, ih]
    cases outcome with
    | accepted temp => rfl
    | again => exact Nat.zero_add _
    | failed => exact Nat.zero_add _

theorem takes_pos (hs : Sends c outcomes) : ∀ n ∈ takes outcomes, 1 ≤ n := by
  induction outcomes generalizing c with
  | nil => simp
  | cons outcome rest ih =>
    cases outcome with
    | failed => exact absurd hs id
    | again => exact ih hs
    | accepted temp =>
      obtain ⟨hpos, _, hrest⟩ := hs
      rw [takes_accepted, List.forall_mem_cons]
      refine ⟨hpos, ?_⟩
      split at hrest
      · rw [hrest]
        simp
      · exact ih hrest

/-- A list without repeats does not start again behind its first bytes. -/
theorem not_prefix_again {l rest : List ℕ} {n m : ℕ} (hnodup : l.Nodup) (hl : l ≠ []) (hn : 1 ≤ n)
    (hm : 1 ≤ m) : ¬ l.take n ++ (l.take m ++ rest) <+: l := by
  rintro ⟨tail, htail⟩
  obtain ⟨a, l', rfl⟩ := List.exists_cons_of_ne_nil hl
  obtain ⟨n, rfl⟩ := Nat.exists_eq_add_of_le' hn
  obtain ⟨m, rfl⟩ := Nat.exists_eq_add_of_le' hm
  rw [List.take_succ_cons, List.take_succ_cons] at htail
  have hmem : a ∈ l' := by
    rw [← (List.cons.inj htail).2]
    simp
  exact (List.nodup_cons.mp hnodup).1 hmem

/-- A run that sends the bytes in order has one call that accepts bytes. -/
theorem length_takes_le (hne : addrs c.iv_ ≠ []) (hnodup : (addrs c.iv_).Nodup)
    (hs : Sends c outcomes) (horder : (c.WriteOnce k outcomes).sent <+: addrs c.iv_) :
    (takes outcomes).length ≤ 1 := by
  have hpos := takes_pos hs
  rw [sent_eq hs] at horder
  match htakes : takes outcomes with
  | [] | [_] => simp
  | n :: m :: ns =>
    rw [htakes, List.flatMap_cons, List.flatMap_cons] at horder
    exact absurd horder
      (not_prefix_again hnodup hne (hpos n (by simp [htakes])) (hpos m (by simp [htakes])))

/-- A reply is sent once exactly when at most one call accepts bytes. -/
theorem sentOnce_iff (hcount : c.bytes_to_send_ = total c.iv_) (hpos : 0 < total c.iv_)
    (hnodup : (addrs c.iv_).Nodup) (hs : Sends c outcomes) :
    SentOnce k c outcomes ↔ (takes outcomes).length ≤ 1 := by
  have hsent := @sent_eq k c outcomes hs
  have hreturned := @returned_iff k c outcomes hs (by omega)
  rw [hcount] at hreturned
  have hne : addrs c.iv_ ≠ [] := by
    intro hnil
    rw [← length_addrs, hnil] at hpos
    exact absurd hpos (by simp)
  refine ⟨fun h => length_takes_le hne hnodup hs h.in_order, fun hone => ⟨?_, ?_, ?_⟩⟩
  · rw [hsent]
    match htakes : takes outcomes with
    | [] => simp
    | [n] => simpa using List.take_prefix n _
    | _ :: _ :: _ => simp [htakes] at hone
  · rw [hreturned, hsent]
    match htakes : takes outcomes with
    | [] =>
      intro hall
      simp only [List.sum_nil] at hall
      omega
    | [n] =>
      intro hall
      simp only [List.sum_cons, List.sum_nil] at hall
      rw [List.flatMap_cons, List.flatMap_nil, List.append_nil]
      exact List.take_of_length_le (by rw [length_addrs]; omega)
    | _ :: _ :: _ => simp [htakes] at hone
  · intro hall
    have hsum : (takes outcomes).sum = total c.iv_ := (accepted_eq_sum outcomes).symm.trans hall
    exact hreturned.mpr (Int.le_of_eq (by rw [hsum]))

end run

/-! ## The laws -/

/-- The segments of a reply. -/
def Skeleton.reply_iv : Skeleton → List Segment
  | .network_skeleton => [⟨0, 40⟩]
  | .synthetic_nginx => [⟨0, 238⟩, ⟨238, 612⟩]

theorem iv_fill_reply (k : Skeleton) (c : TCPConn) : (k.fill_reply c).iv_ = k.reply_iv := by
  cases k <;> rfl

theorem bytes_to_send_fill_reply (k : Skeleton) (c : TCPConn) :
    (k.fill_reply c).bytes_to_send_ = total (k.fill_reply c).iv_ := by
  cases k <;> rfl

theorem total_iv_fill_reply_pos (k : Skeleton) (c : TCPConn) : 0 < total (k.fill_reply c).iv_ := by
  rw [iv_fill_reply]
  cases k <;> decide

theorem nodup_iv_fill_reply (k : Skeleton) (c : TCPConn) : (addrs (k.fill_reply c).iv_).Nodup := by
  rw [iv_fill_reply]
  cases k with
  | network_skeleton => simpa [Skeleton.reply_iv, addrs] using List.nodup_range'
  | synthetic_nginx =>
    -- The second segment starts where the first one ends.
    have hrange : addrs Skeleton.synthetic_nginx.reply_iv = List.range' 0 850 := by
      simp only [Skeleton.reply_iv, addrs, List.flatMap_cons, List.flatMap_nil, List.append_nil]
      exact List.range'_append_1
    rw [hrange]
    exact List.nodup_range'

/-- A reply of the network skeleton or of nginx goes out once and in order exactly when at most
one of its calls accepts bytes. So a reply that is sent whole is taken by one call: a second
call starts again at the first byte. -/
theorem a_reply_is_sent_once_iff_one_call_accepts (k : Skeleton) (c : TCPConn)
    (outcomes : List Outcome) (hs : Sends (k.fill_reply c) outcomes) :
    SentOnce k (k.fill_reply c) outcomes ↔ (takes outcomes).length ≤ 1 :=
  sentOnce_iff (bytes_to_send_fill_reply k c) (total_iv_fill_reply_pos k c)
    (nodup_iv_fill_reply k c) hs

/-- A connection that is ready for its first request. -/
def idle (k : Skeleton) : TCPConn :=
  TCPConn.Reset k ⟨5, [], 0, [], 0, ⟨0, 0⟩, ⟨0, 0⟩, 0, 0, 0⟩

/-- The first call takes 10 of the bytes, and the second call takes the first 30 of them again,
so the last 10 of the 40 bytes of the network skeleton are never sent. -/
theorem a_second_call_starts_again :
    ¬ ∀ (k : Skeleton) (c : TCPConn) (outcomes : List Outcome), Sends (k.fill_reply c) outcomes →
      SentOnce k (k.fill_reply c) outcomes := by
  intro h
  have hs : Sends (Skeleton.network_skeleton.fill_reply (idle .network_skeleton))
      [.accepted 10, .accepted 30] := by
    refine ⟨by decide, by decide +kernel, ?_⟩
    rw [if_neg (by decide +kernel)]
    refine ⟨by decide, by decide +kernel, ?_⟩
    rw [if_pos (by decide +kernel)]
  have hone := (sentOnce_iff (bytes_to_send_fill_reply _ _) (total_iv_fill_reply_pos _ _)
    (nodup_iv_fill_reply _ _) hs).mp (h _ _ _ hs)
  exact absurd hone (by decide)

/-- The law on a reply of nginx that would block once and is then taken by one call. -/
theorem a_reply_of_nginx_in_one_call_is_sent_once :
    SentOnce .synthetic_nginx (Skeleton.synthetic_nginx.fill_reply (idle .synthetic_nginx))
      [.again, .accepted 850] := by
  apply (a_reply_is_sent_once_iff_one_call_accepts _ _ _ _).mpr
  · decide
  · refine ⟨by decide, by decide +kernel, ?_⟩
    rw [if_pos (by decide +kernel)]

end ditto.writev_conn
