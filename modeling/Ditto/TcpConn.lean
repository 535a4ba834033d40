-- The connections of the synthetic memcached server, in its epoll build:
-- the reads, the replies and the sends that accept a part of a reply.
import Ditto.Lib.Segments
import Mathlib.Data.List.Infix

open Segment

namespace ditto.tcp_conn

/-! ## The connection -/

def READ_BUFFER_SIZE : ℕ := 540

def WRITE_BUFFER_SIZE : ℕ := 540

/-- A segment of a send. The base is an offset from the start of `write_buf_`. The length
is a `size_t`, so it wraps. -/
structure iovec where
  iov_base : ℕ
  iov_len : BitVec 64
deriving DecidableEq

def iovec.segment (v : iovec) : Segment := ⟨v.iov_base, v.iov_len.toNat⟩

structure TCPConn where
  socket_fd_ : ℤ
  read_buf_ : List UInt8
  read_idx_ : ℤ
  write_buf_ : List UInt8
  write_idx_ : ℤ
  iv_0 : iovec
  iv_1 : iovec
  iv_2 : iovec
  iv_count_ : ℕ
  bytes_to_send_ : ℤ
  bytes_have_send_ : ℤ
deriving DecidableEq

/-- The segments that `sendmsg` gets. -/
def TCPConn.iv_ (c : TCPConn) : List Segment :=
  [c.iv_0.segment, c.iv_1.segment, c.iv_2.segment].take c.iv_count_

def TCPConn.CloseConn (c : TCPConn) (real_close : Bool) : TCPConn :=
  if real_close && c.socket_fd_ != -1 then { c with socket_fd_ := -1 } else c

def TCPConn.Reset (c : TCPConn) : TCPConn :=
  { c with
    bytes_to_send_ := 0
    bytes_have_send_ := 0
    read_idx_ := 0
    write_idx_ := 0
    read_buf_ := List.replicate READ_BUFFER_SIZE 0
    write_buf_ := List.replicate WRITE_BUFFER_SIZE 0 }

/-- One `read` of the socket: the bytes it returns, or none for an error, which returns -1. -/
def TCPConn.ReadOnce (c : TCPConn) (result : Option (List UInt8)) : TCPConn × Bool :=
  match result with
  | none => ({ c with read_idx_ := c.read_idx_ - 1 }, false)
  | some chunk =>
    let start := c.read_idx_.toNat
    let read_buf := c.read_buf_.take start ++ chunk ++ c.read_buf_.drop (start + chunk.length)
    ({ c with read_buf_ := read_buf, read_idx_ := c.read_idx_ + chunk.length },
      decide (0 < chunk.length))

/-! ## One reply -/

/-- What one `sendmsg` does: it would block, it accepts some bytes, or it fails. -/
inductive Outcome where
  | again
  | accepted (temp : ℕ)
  | failed
deriving DecidableEq

/-- What `WriteOnce` does to the counters and the segments once a send accepts `temp` bytes.
The writes stand in the order of the source: the second and the third branch read lengths
that they have already set to 0. -/
def TCPConn.take_off (c : TCPConn) (temp : ℕ) : TCPConn :=
  let c := { c with bytes_have_send_ := c.bytes_have_send_ + temp }
  let c := { c with bytes_to_send_ := c.bytes_to_send_ - temp }
  let t := BitVec.ofNat 64 temp
  if t < c.iv_0.iov_len then
    let c := { c with iv_0.iov_base := c.iv_0.iov_base + temp }
    { c with iv_0.iov_len := c.iv_0.iov_len - t }
  else if c.iv_0.iov_len ≤ t ∧ t ≤ c.iv_0.iov_len + c.iv_1.iov_len then
    let c := { c with iv_1.iov_base := c.iv_1.iov_base + (t - c.iv_0.iov_len).toNat }
    let c := { c with iv_0.iov_len := 0 }
    { c with iv_1.iov_len := c.iv_1.iov_len - (t - c.iv_0.iov_len) }
  else
    let c := { c with iv_0.iov_len := 0 }
    let c := { c with iv_1.iov_len := 0 }
    let c := { c with iv_2.iov_base :=
      c.iv_2.iov_base + (t - c.iv_0.iov_len - c.iv_1.iov_len).toNat }
    { c with iv_2.iov_len := c.iv_2.iov_len - (t - c.iv_0.iov_len - c.iv_1.iov_len) }

/-- A run of `WriteOnce`: the connection it leaves, the addresses it sent, the connection at
each loop head, and whether it returned. -/
structure WriteRun where
  conn : TCPConn
  sent : List ℕ
  heads : List TCPConn
  returned : Bool
deriving DecidableEq

/-- A turn of the loop goes before the rest of the run. -/
def WriteRun.after (run : WriteRun) (head : TCPConn) (sent : List ℕ) : WriteRun :=
  { run with sent := sent ++ run.sent, heads := head :: run.heads }

/-- The loop of `WriteOnce` over the outcomes of its sends. With no outcome left it waits
for the next send. -/
def TCPConn.WriteOnce (c : TCPConn) : List Outcome → WriteRun
  | [] =>
    if c.bytes_to_send_ = 0 then ⟨c.Reset, [], [c], true⟩ else ⟨c, [], [c], false⟩
  | outcome :: rest =>
    if c.bytes_to_send_ = 0 then ⟨c.Reset, [], [c], true⟩
    else
      match outcome with
      | .again => (c.WriteOnce rest).after c []
      | .failed => ⟨c.CloseConn true, [], [c], true⟩
      | .accepted temp =>
        let c' := c.take_off temp
        if c'.bytes_to_send_ ≤ 0 then ⟨c'.Reset, gather temp c.iv_, [c], true⟩
        else (c'.WriteOnce rest).after c (gather temp c.iv_)

/-- The part of `Process` that fills in a reply before `WriteOnce` sends it. -/
def TCPConn.fill_reply (c : TCPConn) : TCPConn :=
  let c := { c with iv_0.iov_len := 24 }
  let c := { c with iv_1.iov_len := 4 }
  let c := { c with iv_2.iov_len := 4096 }
  let c := { c with write_buf_ := ['r', 'e', 'p', 'l', 'y'].map Char.toUInt8 ++ c.write_buf_.drop 5 }
  let c := { c with iv_0.iov_base := 0 }
  let c := { c with iv_1.iov_base := c.iv_0.iov_len.toNat }
  let c := { c with iv_2.iov_base := (c.iv_0.iov_len + c.iv_1.iov_len).toNat }
  let c := { c with iv_count_ := 3 }
  { c with bytes_to_send_ := (c.iv_0.iov_len + c.iv_1.iov_len + c.iv_2.iov_len).toNat }

/-! ## What a send may do -/

/-- The outcomes of the sends of one reply: each would block or accepts from one byte up to
the bytes that the segments hold, and there is no send after the last byte. -/
def Sends : TCPConn → List Outcome → Prop
  | _, [] => True
  | c, outcome :: rest =>
    c.bytes_to_send_ ≠ 0 ∧
      match outcome with
      | .again => Sends c rest
      | .failed => False
      | .accepted temp => 1 ≤ temp ∧ temp ≤ total c.iv_ ∧
        if (c.take_off temp).bytes_to_send_ ≤ 0 then rest = [] else Sends (c.take_off temp) rest

def Sends.decide : (c : TCPConn) → (outcomes : List Outcome) → Decidable (Sends c outcomes)
  | _, [] => .isTrue trivial
  | c, .again :: rest =>
    have := Sends.decide c rest
    inferInstanceAs (Decidable (_ ∧ _))
  | _, .failed :: _ => inferInstanceAs (Decidable (_ ∧ False))
  | c, .accepted temp :: rest =>
    have := Sends.decide (c.take_off temp) rest
    inferInstanceAs (Decidable (c.bytes_to_send_ ≠ 0 ∧ 1 ≤ temp ∧ temp ≤ total c.iv_ ∧
      if (c.take_off temp).bytes_to_send_ ≤ 0 then rest = [] else Sends (c.take_off temp) rest))

instance (c : TCPConn) (outcomes : List Outcome) : Decidable (Sends c outcomes) :=
  Sends.decide c outcomes

def Outcome.bytes : Outcome → ℕ
  | .accepted temp => temp
  | _ => 0

/-- The bytes that the sends accept. -/
def accepted (outcomes : List Outcome) : ℕ := (outcomes.map Outcome.bytes).sum

/-- The counter agrees with the segments. -/
def Counted (c : TCPConn) : Prop :=
  c.bytes_to_send_ = c.iv_0.iov_len.toNat + c.iv_1.iov_len.toNat + c.iv_2.iov_len.toNat

/-- The run sends each byte of the segments once and in order, keeps the counter right at
each loop head, and returns once the sends have accepted every byte. -/
structure SentOnce (c : TCPConn) (outcomes : List Outcome) : Prop where
  in_order : (c.WriteOnce outcomes).sent <+: addrs c.iv_
  whole : (c.WriteOnce outcomes).returned = true → (c.WriteOnce outcomes).sent = addrs c.iv_
  counted : ∀ head ∈ (c.WriteOnce outcomes).heads, Counted head
  returns : accepted outcomes = total c.iv_ → (c.WriteOnce outcomes).returned = true

/-- No send stops at the end of the first segment or behind it, unless it is the last. -/
def StopsEarly (done : ℕ) (outcomes : List Outcome) : Prop :=
  ∀ front, front <+: outcomes → done + accepted front < 24 ∨ done + accepted front = 4124

/-- A reply of which the sends have accepted `done` bytes, all in the first segment. -/
structure Fresh (done : ℕ) (c : TCPConn) : Prop where
  first : c.iv_0 = ⟨done, BitVec.ofNat 64 (24 - done)⟩
  second : c.iv_1 = ⟨24, 4⟩
  third : c.iv_2 = ⟨28, 4096⟩
  count : c.iv_count_ = 3
  left : c.bytes_to_send_ = 4124 - done
  small : done < 24

theorem fresh_fill_reply (c : TCPConn) : Fresh 0 c.fill_reply :=
  ⟨rfl, rfl, rfl, rfl, by simp [TCPConn.fill_reply], by decide⟩

theorem Fresh.iv {done : ℕ} {c : TCPConn} (h : Fresh done c) :
    c.iv_ = [⟨done, 24 - done⟩, ⟨24, 4⟩, ⟨28, 4096⟩] := by
  obtain ⟨h0, h1, h2, hn, _, hs⟩ := h
  unfold TCPConn.iv_ iovec.segment
  rw [h0, h1, h2, hn, BitVec.toNat_ofNat, Nat.mod_eq_of_lt (by omega)]
  rfl

theorem Fresh.addrs_iv {done : ℕ} {c : TCPConn} (h : Fresh done c) :
    addrs c.iv_ = List.range' done (4124 - done) := by
  have hs := h.small
  have hback : List.range' 24 4 ++ List.range' 28 4096 = List.range' 24 4100 :=
    List.range'_append_1
  have hwhole : List.range' done (24 - done) ++ List.range' (done + (24 - done)) 4100 =
      List.range' done (24 - done + 4100) := List.range'_append_1
  rw [show done + (24 - done) = 24 by omega, show 24 - done + 4100 = 4124 - done by omega] at hwhole
  rw [h.iv, ← hwhole, ← hback]
  simp [Segment.addrs]

theorem Fresh.total_iv {done : ℕ} {c : TCPConn} (h : Fresh done c) : total c.iv_ = 4124 - done := by
  have hs := h.small
  rw [h.iv]
  simp only [Segment.total, List.map_cons, List.map_nil, List.sum_cons, List.sum_nil]
  omega

theorem Fresh.gather_iv {done temp : ℕ} {c : TCPConn} (h : Fresh done c) (ht : temp ≤ 4124 - done) :
    gather temp c.iv_ = List.range' done temp := by
  rw [gather_eq_take, h.addrs_iv, take_range', Nat.min_eq_left ht]

/-! ## One turn of the loop -/

theorem take_off_left (c : TCPConn) (temp : ℕ) :
    (c.take_off temp).bytes_to_send_ = c.bytes_to_send_ - temp := by
  unfold TCPConn.take_off
  simp only
  split
  · rfl
  · split <;> rfl

/-- A send that stops in the first segment leaves the reply fresh. -/
theorem Fresh.take_off {done temp : ℕ} {c : TCPConn} (h : Fresh done c) (ht : done + temp < 24) :
    Fresh (done + temp) (c.take_off temp) := by
  obtain ⟨h0, h1, h2, hn, hl, hs⟩ := h
  have hlt : BitVec.ofNat 64 temp < BitVec.ofNat 64 (24 - done) := by
    rw [BitVec.lt_def, BitVec.toNat_ofNat, BitVec.toNat_ofNat]
    omega
  have hsub : BitVec.ofNat 64 (24 - done) - BitVec.ofNat 64 temp =
      BitVec.ofNat 64 (24 - (done + temp)) := by
    apply BitVec.eq_of_toNat_eq
    rw [BitVec.toNat_sub, BitVec.toNat_ofNat, BitVec.toNat_ofNat, BitVec.toNat_ofNat]
    omega
  unfold TCPConn.take_off
  simp only [h0, hlt, ↓reduceIte]
  refine ⟨?_, h1, h2, hn, ?_, ht⟩
  · rw [hsub]
  · simp only [hl]
    omega

/-- A send that stops behind the first segment breaks the counter. -/
theorem Fresh.not_counted {done temp : ℕ} {c : TCPConn} (h : Fresh done c)
    (hlo : 24 ≤ done + temp) (hhi : done + temp < 4124) : ¬ Counted (c.take_off temp) := by
  obtain ⟨h0, h1, h2, hn, hl, hs⟩ := h
  unfold Counted
  rw [take_off_left, hl]
  have ht : (BitVec.ofNat 64 temp).toNat = temp := by
    rw [BitVec.toNat_ofNat]
    omega
  have hd : (BitVec.ofNat 64 (24 - done)).toNat = 24 - done := by
    rw [BitVec.toNat_ofNat]
    omega
  have hlt : ¬ BitVec.ofNat 64 temp < BitVec.ofNat 64 (24 - done) := by
    rw [BitVec.lt_def, ht, hd]
    omega
  have hnum : (0 : BitVec 64).toNat = 0 ∧ (4 : BitVec 64).toNat = 4 ∧
      (4096 : BitVec 64).toNat = 4096 := ⟨rfl, rfl, rfl⟩
  unfold TCPConn.take_off
  simp only [h0, h1, h2, hlt, ↓reduceIte]
  split
  · -- The second length lost `temp` and not what `temp` had over the first length.
    simp only [BitVec.toNat_sub, ht, hnum]
    omega
  · simp only [BitVec.toNat_sub, ht, hnum]
    omega

/-! ## The run of a reply -/

theorem accepted_cons (outcome : Outcome) (rest : List Outcome) :
    accepted (outcome :: rest) = outcome.bytes + accepted rest := by
  simp [accepted]

theorem stopsEarly_nil {done : ℕ} (h : done < 24) : StopsEarly done [] := by
  intro front hfront
  rw [List.prefix_nil.mp hfront]
  exact Or.inl h

theorem stopsEarly_cons {done : ℕ} {outcome : Outcome} {rest : List Outcome} (h : done < 24) :
    StopsEarly done (outcome :: rest) ↔ StopsEarly (done + outcome.bytes) rest := by
  unfold StopsEarly
  constructor
  · intro hs front hfront
    have := hs (outcome :: front) (List.cons_prefix_cons.mpr ⟨rfl, hfront⟩)
    rwa [accepted_cons, ← Nat.add_assoc] at this
  · intro hs front hfront
    rcases List.prefix_cons_iff.mp hfront with rfl | ⟨t, rfl, ht⟩
    · exact Or.inl h
    · rw [accepted_cons, ← Nat.add_assoc]
      exact hs t ht

theorem stopsEarly_done (done : ℕ) (h : done = 4124) : StopsEarly done [] := by
  intro front hfront
  rw [List.prefix_nil.mp hfront]
  exact Or.inr h

theorem head_mem_heads (c : TCPConn) (outcomes : List Outcome) :
    c ∈ (c.WriteOnce outcomes).heads := by
  unfold TCPConn.WriteOnce
  split
  · split <;> exact List.mem_singleton_self c
  · split
    · exact List.mem_singleton_self c
    · split
      · exact List.mem_cons_self
      · exact List.mem_singleton_self c
      · simp only
        split
        · exact List.mem_singleton_self c
        · exact List.mem_cons_self

theorem Fresh.counted {done : ℕ} {c : TCPConn} (h : Fresh done c) : Counted c := by
  obtain ⟨h0, h1, h2, _, hl, hs⟩ := h
  unfold Counted
  have hd : (BitVec.ofNat 64 (24 - done)).toNat = 24 - done := by
    rw [BitVec.toNat_ofNat]
    omega
  have hnum : (4 : BitVec 64).toNat = 4 ∧ (4096 : BitVec 64).toNat = 4096 := ⟨rfl, rfl⟩
  rw [hl, h0, h1, h2, hd, hnum.1, hnum.2]
  omega

theorem Fresh.busy {done : ℕ} {c : TCPConn} (h : Fresh done c) : c.bytes_to_send_ ≠ 0 := by
  have hs := h.small
  rw [h.left]
  omega

theorem Fresh.last_send_iff {done temp : ℕ} {c : TCPConn} (h : Fresh done c) :
    (c.take_off temp).bytes_to_send_ ≤ 0 ↔ 4124 ≤ done + temp := by
  rw [take_off_left, h.left]
  omega

/-- One accepted send of a fresh reply, as the loop sees it. -/
theorem Fresh.writeOnce_accepted {done temp : ℕ} {c : TCPConn} {rest : List Outcome}
    (h : Fresh done c) :
    c.WriteOnce (.accepted temp :: rest) =
      if 4124 ≤ done + temp then ⟨(c.take_off temp).Reset, gather temp c.iv_, [c], true⟩
      else ((c.take_off temp).WriteOnce rest).after c (gather temp c.iv_) := by
  rw [TCPConn.WriteOnce, if_neg h.busy]
  simp only [h.last_send_iff]

theorem Fresh.writeOnce_again {done : ℕ} {c : TCPConn} {rest : List Outcome} (h : Fresh done c) :
    c.WriteOnce (.again :: rest) = (c.WriteOnce rest).after c [] := by
  rw [TCPConn.WriteOnce, if_neg h.busy]

theorem Fresh.writeOnce_nil {done : ℕ} {c : TCPConn} (h : Fresh done c) :
    c.WriteOnce [] = ⟨c, [], [c], false⟩ := by
  rw [TCPConn.WriteOnce, if_neg h.busy]

theorem Fresh.sends_accepted {done temp : ℕ} {c : TCPConn} {rest : List Outcome}
    (h : Fresh done c) (hs : Sends c (.accepted temp :: rest)) :
    done + temp ≤ 4124 ∧ if done + temp = 4124 then rest = [] else Sends (c.take_off temp) rest := by
  have hsmall := h.small
  unfold Sends at hs
  obtain ⟨_, _, hle, hrest⟩ := hs
  rw [h.total_iv] at hle
  simp only [h.last_send_iff] at hrest
  refine ⟨by omega, ?_⟩
  split
  · rwa [if_pos (by omega)] at hrest
  · rwa [if_neg (by omega)] at hrest

/-- A reply whose sends stop early goes out in order, and the run returns with its last
byte. -/
theorem Fresh.run_spec {done : ℕ} {c : TCPConn} (outcomes : List Outcome) (h : Fresh done c)
    (hs : Sends c outcomes) (hearly : StopsEarly done outcomes) :
    (c.WriteOnce outcomes).sent = List.range' done (accepted outcomes) ∧
      (∀ head ∈ (c.WriteOnce outcomes).heads, Counted head) ∧
      ((c.WriteOnce outcomes).returned = true ↔ done + accepted outcomes = 4124) := by
  have hsmall := h.small
  induction outcomes generalizing done c with
  | nil =>
    rw [h.writeOnce_nil]
    refine ⟨rfl, by simpa using h.counted, ?_⟩
    simp only [accepted, List.map_nil, List.sum_nil, Bool.false_eq_true, false_iff]
    omega
  | cons outcome rest ih =>
    rw [stopsEarly_cons hsmall] at hearly
    rw [accepted_cons]
    cases outcome with
    | failed => exact absurd hs.2 id
    | again =>
      obtain ⟨hsent, hheads, hret⟩ := ih h hs.2 hearly hsmall
      rw [h.writeOnce_again]
      refine ⟨by simpa [WriteRun.after, Outcome.bytes] using hsent, ?_,
        by simpa [WriteRun.after, Outcome.bytes] using hret⟩
      exact List.forall_mem_cons.mpr ⟨h.counted, hheads⟩
    | accepted temp =>
      obtain ⟨hle, hrest⟩ := h.sends_accepted hs
      simp only [Outcome.bytes] at hearly ⊢
      rw [h.writeOnce_accepted, h.gather_iv (by omega)]
      by_cases hlast : done + temp = 4124
      · rw [if_pos hlast] at hrest
        subst hrest
        rw [if_pos (by omega)]
        refine ⟨by simp [accepted], by simpa using h.counted, ?_⟩
        simpa [accepted] using hlast
      · rw [if_neg hlast] at hrest
        rw [if_neg (by omega)]
        have hnext : done + temp < 24 := by
          have := hearly [] List.nil_prefix
          simp only [accepted, List.map_nil, List.sum_nil] at this
          omega
        obtain ⟨hsent, hheads, hret⟩ := ih (h.take_off hnext) hrest hearly hnext
        refine ⟨?_, List.forall_mem_cons.mpr ⟨h.counted, hheads⟩, ?_⟩
        · simp only [WriteRun.after, hsent]
          exact List.range'_append_1
        · rw [← Nat.add_assoc]
          exact hret

/-- The counter is right at each loop head only when the sends stop early. -/
theorem Fresh.stopsEarly_of_counted {done : ℕ} {c : TCPConn} (outcomes : List Outcome)
    (h : Fresh done c) (hs : Sends c outcomes)
    (hheads : ∀ head ∈ (c.WriteOnce outcomes).heads, Counted head) : StopsEarly done outcomes := by
  have hsmall := h.small
  induction outcomes generalizing done c with
  | nil => exact stopsEarly_nil hsmall
  | cons outcome rest ih =>
    rw [stopsEarly_cons hsmall]
    cases outcome with
    | failed => exact absurd hs.2 id
    | again =>
      rw [h.writeOnce_again] at hheads
      exact ih h hs.2 (List.forall_mem_cons.mp hheads).2 hsmall
    | accepted temp =>
      obtain ⟨hle, hrest⟩ := h.sends_accepted hs
      by_cases hlast : done + temp = 4124
      · rw [if_pos hlast] at hrest
        subst hrest
        exact stopsEarly_done _ hlast
      · rw [if_neg hlast] at hrest
        rw [h.writeOnce_accepted, if_neg (by omega)] at hheads
        have htail := (List.forall_mem_cons.mp hheads).2
        have hnext : done + temp < 24 := by
          by_contra hge
          exact h.not_counted (by omega) (by omega) (htail _ (head_mem_heads _ _))
        exact ih (h.take_off hnext) hrest htail hnext

/-- A reply is sent once exactly when its sends stop early. -/
theorem sentOnce_iff (c : TCPConn) (outcomes : List Outcome) (hs : Sends c.fill_reply outcomes) :
    SentOnce c.fill_reply outcomes ↔ StopsEarly 0 outcomes := by
  have hfresh := fresh_fill_reply c
  refine ⟨fun h => hfresh.stopsEarly_of_counted outcomes hs h.counted, fun h => ?_⟩
  obtain ⟨hsent, hheads, hret⟩ := hfresh.run_spec outcomes hs h
  have hbound : accepted outcomes ≤ 4124 := by
    rcases h outcomes (List.prefix_refl _) with h | h <;> omega
  refine ⟨?_, ?_, hheads, ?_⟩
  · rw [hsent, hfresh.addrs_iv, ← Nat.min_eq_left hbound, ← take_range']
    exact List.take_prefix _ _
  · intro hr
    rw [hsent, hfresh.addrs_iv, show accepted outcomes = 4124 - 0 by have := hret.mp hr; omega]
  · intro ha
    rw [hfresh.total_iv] at ha
    exact hret.mpr (by omega)

/-! ## The laws -/

/-- A connection that is ready for its first request. -/
def idle : TCPConn :=
  TCPConn.Reset ⟨5, [], 0, [], 0, ⟨0, 0⟩, ⟨0, 0⟩, ⟨0, 0⟩, 0, 0, 0⟩

/-- A reply goes out once, in order and with a right counter exactly when no send but the
last one stops at the end of the first segment or behind it. -/
theorem a_reply_is_sent_once_iff_its_sends_stop_early (c : TCPConn) (outcomes : List Outcome)
    (hs : Sends c.fill_reply outcomes) :
    SentOnce c.fill_reply outcomes ↔
      ∀ front, front <+: outcomes → accepted front < 24 ∨ accepted front = 4124 := by
  rw [sentOnce_iff c outcomes hs]
  unfold StopsEarly
  simp only [Nat.zero_add]

/-- A send of 10 bytes, one that would block, and one of the rest. -/
theorem a_reply_in_three_sends_is_sent_once :
    Sends idle.fill_reply [.accepted 10, .again, .accepted 4114] ∧
      SentOnce idle.fill_reply [.accepted 10, .again, .accepted 4114] := by
  have hsends : Sends idle.fill_reply [.accepted 10, .again, .accepted 4114] := by decide +kernel
  refine ⟨hsends, (a_reply_is_sent_once_iff_its_sends_stop_early idle _ hsends).mpr ?_⟩
  have hfronts : ∀ front ∈ [.accepted 10, .again, .accepted 4114].inits,
      accepted front < 24 ∨ accepted front = 4124 := by decide
  exact fun front hfront => hfronts front ((List.mem_inits _ _).mpr hfront)

/-- The first send accepts 100 bytes. The third segment then starts 28 bytes too far and is
28 bytes too short, so the counter is wrong at the next loop head. -/
theorem a_send_that_stops_in_the_third_segment_breaks_the_reply :
    ¬ ∀ (c : TCPConn) (outcomes : List Outcome), Sends c.fill_reply outcomes →
      SentOnce c.fill_reply outcomes := by
  intro h
  have hs : Sends idle.fill_reply [.accepted 100, .accepted 3996] := by decide +kernel
  have hearly := (sentOnce_iff idle _ hs).mp (h idle _ hs)
  rcases hearly [.accepted 100] (by simp) with hlt | heq
  · exact absurd hlt (by decide)
  · exact absurd heq (by decide)

end ditto.tcp_conn
