-- The segments that the four skeletons hand to `write`, `writev` and `sendmsg`.
-- The replies of memcached are longer than its write buffer, and nginx also
-- writes to a log file. This is the epoll build; in a BLOCKING one `WriteOnce`
-- of synthetic_redis gives `writev` an `iv_` that nothing has set.
import Ditto.Skeletons

open ditto.tcp_conn (Outcome)

namespace ditto.skeletons

/-! ## Segments inside the buffer -/

namespace Server

variable (s : Server)

/-- The sends of the event are full or partial. -/
def NoSendFails (_ : s.Conn) : Event s.Sends → Prop
  | .input _ sends => ¬ s.SendFails sends
  | .hangup => True

/-- The event does not complete a request. -/
def NoRequest (c : s.Conn) : Event s.Sends → Prop
  | .input result _ =>
    (s.ReadOnce c result).2 = true → s.ParseMultiRequest (s.ReadOnce c result).1 = 0
  | .hangup => True

def InWriteBuf (h : Handed) : Prop :=
  h.buffer = .write_buf_ ∧ 0 ≤ h.iov_base ∧ h.iov_base + h.iov_len ≤ s.WRITE_BUFFER_SIZE

end Server

/-- The segments for the descriptors that count stand in the write buffer. -/
def Server.HandsInside (s : Server) (counts : Descriptor → Prop) (handed : List Handed) : Prop :=
  ∀ x ∈ handed, counts x.fd → s.InWriteBuf x

/-- When the segments of a call of `Process` are in the write buffer: always, or only without a
request when `leaks` holds. -/
structure Server.Hands (s : Server) (counts : Descriptor → Prop) (Ready : s.Conn → Prop)
    (leaks : Prop) : Prop where
  init : ∀ c fd, Ready (s.Init c fd)
  read : ∀ c result, Ready c → Ready (s.ReadOnce c result).1
  process : ∀ c sends, Ready c → ¬ s.SendFails sends → (s.Process c sends).returned = true →
    Ready (s.Process c sends).conn
  handed : ∀ c sends, Ready c → ¬ s.SendFails sends →
    (s.HandsInside counts (s.Process c sends).handed ↔ (leaks → s.ParseMultiRequest c = 0))

theorem Server.Hands.congr {s : Server} {counts : Descriptor → Prop} {Ready : s.Conn → Prop}
    {leaks leaks' : Prop} (h : s.Hands counts Ready leaks) (hiff : leaks ↔ leaks') :
    s.Hands counts Ready leaks' :=
  propext hiff ▸ h

namespace writev

open writev_conn

theorem reply_iv_inside (k : Skeleton) :
    ∀ seg ∈ k.reply_iv, (server k).InWriteBuf (reply_segment seg) := by
  cases k with
  | network_skeleton =>
    simp only [Skeleton.reply_iv, List.mem_singleton, forall_eq]
    exact ⟨rfl, by decide, by decide⟩
  | synthetic_nginx =>
    simp only [Skeleton.reply_iv, List.mem_cons, List.not_mem_nil, or_false,
      forall_eq_or_imp, forall_eq]
    exact ⟨⟨rfl, by decide, by decide⟩, ⟨rfl, by decide, by decide⟩⟩

/-- Every call of `writev` for a reply gets the same segments. -/
theorem iv_of_mem_heads (k : Skeleton) (c : TCPConn) (outcomes : List Outcome) :
    ∀ head ∈ (c.WriteOnce k outcomes).heads, head.iv_ = c.iv_ := by
  induction outcomes generalizing c with
  | nil => simp [TCPConn.WriteOnce]
  | cons outcome rest ih =>
    cases outcome with
    | again => exact List.forall_mem_cons.mpr ⟨rfl, ih c⟩
    | failed => simp [TCPConn.WriteOnce]
    | accepted temp =>
      rw [TCPConn.WriteOnce]
      split
      · simp
      · exact List.forall_mem_cons.mpr ⟨rfl, ih (c.take_off temp)⟩

theorem iv_of_mem_runs (k : Skeleton) (sends : ℕ → List Outcome) (left i : ℕ) (c : TCPConn) :
    ∀ run ∈ (process_loop k sends left i c).runs, ∀ head ∈ run.heads, head.iv_ = k.reply_iv := by
  induction left generalizing i c with
  | zero => simp [process_loop]
  | succ left ih =>
    have hhere := iv_of_mem_heads k (k.fill_reply c) (sends i)
    rw [iv_fill_reply] at hhere
    rw [process_loop]
    split
    · exact List.forall_mem_cons.mpr ⟨hhere, ih (i + 1) _⟩
    · exact List.forall_mem_cons.mpr ⟨hhere, by simp⟩

/-- A call of `Process` with a request writes to the log what one request writes. -/
theorem mem_logged_iff (k : Skeleton) (sends : ℕ → List Outcome) (left i : ℕ) (c : TCPConn)
    (seg : Segment) :
    seg ∈ (process_loop k sends left i c).logged ↔ left ≠ 0 ∧ seg ∈ k.log_writes := by
  induction left generalizing i c with
  | zero => simp [process_loop]
  | succ left ih =>
    rw [process_loop]
    split
    · simp only [List.mem_append, ih]
      tauto
    · simp

theorem handed_inside (k : Skeleton) {counts : Descriptor → Prop} (c : TCPConn)
    (sends : ℕ → List Outcome) :
    (server k).HandsInside counts ((server k).Process c sends).handed ↔
      (k = .synthetic_nginx ∧ counts .log_fd_ → k.ParseMultiRequest c = 0) := by
  have hlogged := mem_logged_iff k sends (k.ParseMultiRequest c) 0 c
  constructor
  · rintro h ⟨rfl, hcounts⟩
    by_contra hrequest
    have hmem := (hlogged synthetic_nginx.log_write).mpr ⟨hrequest, List.mem_singleton_self _⟩
    have hin := h (log_segment synthetic_nginx.log_write)
      (List.mem_append_left _ (List.mem_map_of_mem hmem)) hcounts
    exact absurd hin.1 (by decide)
  · intro hquiet x hx hcounts
    rcases List.mem_append.mp hx with hx | hx
    · obtain ⟨seg, hseg, rfl⟩ := List.mem_map.mp hx
      obtain ⟨hrequest, hseg⟩ := (hlogged seg).mp hseg
      cases k with
      | network_skeleton => cases hseg
      | synthetic_nginx => exact absurd (hquiet ⟨rfl, hcounts⟩) hrequest
    · obtain ⟨head, hhead, hx⟩ := List.mem_flatMap.mp hx
      obtain ⟨run, hrun, hhead⟩ := List.mem_flatMap.mp hhead
      obtain ⟨seg, hseg, rfl⟩ := List.mem_map.mp hx
      rw [iv_of_mem_runs k sends (k.ParseMultiRequest c) 0 c run hrun head hhead] at hseg
      exact reply_iv_inside k seg hseg

theorem hands (k : Skeleton) (counts : Descriptor → Prop) :
    (server k).Hands counts (fun _ => True) (k = .synthetic_nginx ∧ counts .log_fd_) where
  init _ _ := trivial
  read _ _ _ := trivial
  process _ _ _ _ _ := trivial
  handed c sends _ _ := handed_inside k c sends

end writev

namespace memcached

open tcp_conn

/-- The third segment of a reply ends behind the write buffer. -/
theorem not_inWriteBuf : ¬ server.InWriteBuf (reply_segment ⟨28, 4096⟩) := by
  rintro ⟨-, -, hend⟩
  exact absurd hend (by decide)

theorem mem_handed (fd : ℕ) (sends : ℕ → List Outcome) (left i : ℕ) (c : TCPConn) (id : BitVec 64) :
    reply_segment ⟨28, 4096⟩ ∈ handed (process_loop fd sends (left + 1) i c id) := by
  have hfresh := fresh_fill_reply c
  have hserved : ⟨fd, id, c.fill_reply.WriteOnce (sends i)⟩ ∈
      (process_loop fd sends (left + 1) i c id).served := by
    rw [process_loop]
    simp only
    split <;> simp
  refine List.mem_flatMap.mpr ⟨c.fill_reply, ?_, ?_⟩
  · refine List.mem_filter.mpr ⟨?_, by simpa using hfresh.busy⟩
    exact List.mem_flatMap.mpr ⟨_, hserved, head_mem_heads c.fill_reply (sends i)⟩
  · rw [hfresh.iv]
    simp

theorem handed_inside {counts : Descriptor → Prop} (hcounts : counts .socket_fd_) (c : TCPConn)
    (sends : ℕ → List Outcome) :
    server.HandsInside counts (server.Process c sends).handed ↔ c.ParseMultiRequest.toNat = 0 := by
  constructor
  · intro h
    by_contra hrequest
    obtain ⟨left, hleft⟩ := Nat.exists_eq_succ_of_ne_zero hrequest
    have hmem := mem_handed c.socket_fd_.toNat sends left 0 c 0
    rw [← Nat.succ_eq_add_one, ← hleft] at hmem
    exact not_inWriteBuf (h _ hmem hcounts)
  · intro hnone x hx
    have hrun : server.Process c sends = ⟨c, [], true⟩ := by
      simp only [server, TCPConn.Process, hnone, process_loop]
      rfl
    rw [hrun] at hx
    cases hx

theorem hands {counts : Descriptor → Prop} (hcounts : counts .socket_fd_) :
    server.Hands counts (fun _ => True) True where
  init _ _ := trivial
  read _ _ _ := trivial
  process _ _ _ _ _ := trivial
  handed c sends _ _ := (handed_inside hcounts c sends).trans (true_imp_iff).symm

end memcached

namespace redis

open redis_conn

/-- The bytes of a reply that are not sent yet end at its last byte. -/
structure InReply (c : TCPConn) : Prop where
  have_send : 0 ≤ c.bytes_have_send_
  to_send : 0 ≤ c.bytes_to_send_
  sum : c.bytes_have_send_ + c.bytes_to_send_ = TCPConn.REPLY_SIZE

theorem InReply.inside {c : TCPConn} (h : InReply c) : server.InWriteBuf (write_args c) := by
  obtain ⟨hhave, hto, hsum⟩ := h
  have hsize : (TCPConn.REPLY_SIZE : ℤ) ≤ WRITE_BUFFER_SIZE := by decide
  refine ⟨rfl, hhave, ?_⟩
  simp only [write_args, server, Int.toNat_of_nonneg hto, hsum]
  exact hsize

theorem InReply.take_off {c : TCPConn} (h : InReply c) (temp : ℕ) :
    InReply (c.take_off (min temp c.bytes_to_send_.toNat)) := by
  obtain ⟨hhave, hto, hsum⟩ := h
  refine ⟨?_, ?_, ?_⟩ <;> simp only [TCPConn.take_off] <;> omega

theorem InReply.written_inside {c : TCPConn} (h : InReply c) (outcomes : List Outcome) :
    ∀ x ∈ written c outcomes, server.InWriteBuf x := by
  induction outcomes generalizing c with
  | nil => simpa [written] using h.inside
  | cons outcome rest ih =>
    cases outcome with
    | again => exact List.forall_mem_cons.mpr ⟨h.inside, ih h⟩
    | failed => simpa [written] using h.inside
    | accepted temp =>
      refine List.forall_mem_cons.mpr ⟨h.inside, ?_⟩
      split
      · simp
      · exact ih (h.take_off temp)

theorem inReply_fill_reply {c : TCPConn} (h : c.bytes_have_send_ = 0) : InReply c.fill_reply :=
  ⟨Int.le_of_eq h.symm, Int.natCast_nonneg _, by simp [TCPConn.fill_reply, h]⟩

/-- A run without a failure ends in `Reset`. -/
theorem writeOnce_cleared (c : TCPConn) {outcomes : List Outcome} (hno : .failed ∉ outcomes)
    (hret : (c.WriteOnce outcomes).returned = true) :
    (c.WriteOnce outcomes).conn.bytes_have_send_ = 0 ∧
      .failed ∉ (c.WriteOnce outcomes).outcomes := by
  induction outcomes generalizing c with
  | nil => cases hret
  | cons outcome rest ih =>
    have hrest : Outcome.failed ∉ rest := fun hmem => hno (List.mem_cons_of_mem _ hmem)
    cases outcome with
    | again => exact ih c hrest hret
    | failed => exact absurd List.mem_cons_self hno
    | accepted temp =>
      rw [TCPConn.WriteOnce] at hret ⊢
      simp only at hret ⊢
      split at hret
      · rename_i hdone
        rw [if_pos hdone]
        exact ⟨rfl, hrest⟩
      · rename_i hmore
        rw [if_neg hmore]
        exact ih _ hrest hret

theorem process_loop_cleared {left : ℕ} {c : TCPConn} {id : BitVec 64} {outcomes : List Outcome}
    (h : c.bytes_have_send_ = 0) (hno : .failed ∉ outcomes)
    (hret : (TCPConn.process_loop left c id outcomes).returned = true) :
    (TCPConn.process_loop left c id outcomes).conn.bytes_have_send_ = 0 := by
  induction left generalizing c id outcomes with
  | zero => exact h
  | succ left ih =>
    rw [TCPConn.process_loop] at hret ⊢
    simp only at hret ⊢
    split at hret
    · rename_i hreply
      obtain ⟨hclear, hno'⟩ := writeOnce_cleared c.fill_reply hno hreply
      rw [if_pos hreply]
      exact ih hclear hno' hret
    · cases hret

theorem handed_inside {left : ℕ} {c : TCPConn} {outcomes : List Outcome}
    (h : c.bytes_have_send_ = 0) (hno : .failed ∉ outcomes) :
    ∀ x ∈ handed left c outcomes, server.InWriteBuf x := by
  induction left generalizing c outcomes with
  | zero => simp [handed]
  | succ left ih =>
    intro x hx
    rcases List.mem_append.mp hx with hx | hx
    · exact (inReply_fill_reply h).written_inside outcomes x hx
    · split at hx
      · rename_i hreply
        obtain ⟨hclear, hno'⟩ := writeOnce_cleared c.fill_reply hno hreply
        exact ih hclear hno' x hx
      · cases hx

theorem hands (counts : Descriptor → Prop) :
    server.Hands counts (fun c => TCPConn.bytes_have_send_ c = 0) False where
  init _ _ := rfl
  read _ result h := by
    cases result <;> exact h
  process _ _ h hno hret := process_loop_cleared h hno hret
  handed _ _ h hno := ⟨fun _ hleak => hleak.elim, fun _ x hx _ => handed_inside h hno x hx⟩

end redis

section segments

variable {s : Server} {counts : Descriptor → Prop} {Ready : s.Conn → Prop} {leaks : Prop}
  {c c' : s.Conn} {e : Event s.Sends}

theorem Server.Hands.handle_iff (h : s.Hands counts Ready leaks) (hc : Ready c)
    (he : s.NoSendFails c e) :
    s.HandsInside counts (s.handle c e).handed ↔ (leaks → s.NoRequest c e) := by
  cases e with
  | hangup => exact ⟨fun _ _ => trivial, fun _ x hx => by cases hx⟩
  | input result sends =>
    rw [handle, NoRequest]
    split
    · rename_i hok
      simp only [hok, true_imp_iff]
      exact h.handed _ _ (h.read c result hc) he
    · rename_i hok
      exact ⟨fun _ _ hread => absurd hread hok, fun _ x hx => by cases hx⟩

theorem Server.Hands.next (h : s.Hands counts Ready leaks) (hc : Ready c) (he : s.NoSendFails c e)
    (hnext : s.loop.next (s.loop.handle c e) = some c') : Ready c' := by
  have hret : (s.handle c e).returned = true := by
    by_contra hno
    simp [loop, hno] at hnext
  rw [← conn_of_next hnext]
  cases e with
  | hangup => exact hc
  | input result sends =>
    have hread := h.read c result hc
    rw [handle] at hret ⊢
    split
    · rename_i hok
      rw [if_pos hok] at hret
      exact h.process _ _ hread he hret
    · exact hread

theorem Server.Hands.run_iff (h : s.Hands counts Ready leaks) (c : s.Conn) (socket_fd : ℤ)
    {events : List (Event s.Sends)}
    (hsends : s.loop.Along s.NoSendFails (s.Init c socket_fd) events) :
    (∀ out ∈ s.loop.run (s.Init c socket_fd) events, s.HandsInside counts out.handed) ↔
      (leaks → s.loop.Along s.NoRequest (s.Init c socket_fd) events) := by
  rw [← EventLoop.along_imp_iff]
  refine EventLoop.forall_run_iff Ready (fun c e hc he => h.handle_iff hc he) ?_ (h.init c socket_fd)
    hsends
  intro c e c' hc he _ hnext
  exact h.next hc he hnext

end segments

/-- The skeletons that hand over bytes outside the write buffer with each request. -/
def Variant.Leaks (v : Variant) (counts : Descriptor → Prop) : Prop :=
  v = .synthetic_memcached_skeleton ∨ v = .synthetic_nginx ∧ counts .log_fd_

theorem Variant.hands (v : Variant) {counts : Descriptor → Prop} (hcounts : counts .socket_fd_) :
    ∃ Ready, v.server.Hands counts Ready (v.Leaks counts) := by
  cases v with
  | network_skeleton => exact ⟨_, (writev.hands .network_skeleton counts).congr (by simp [Leaks])⟩
  | synthetic_memcached_skeleton => exact ⟨_, (memcached.hands hcounts).congr (by simp [Leaks])⟩
  | synthetic_nginx => exact ⟨_, (writev.hands .synthetic_nginx counts).congr (by simp [Leaks])⟩
  | synthetic_redis => exact ⟨_, (redis.hands counts).congr (by simp [Leaks])⟩

/-! ## The laws -/

/-- With full and partial sends, the segments of the replies are always in the write buffer,
except in memcached, where they are exactly when no request is complete. With the segments of
the log file this holds for memcached and nginx, which hand over other bytes with each
request. -/
theorem sends_stay_in_the_write_buffer_iff_no_request (v : Variant) (c : v.server.Conn)
    (socket_fd : ℤ) (events : List (Event v.server.Sends))
    (hsends : v.server.loop.Along v.server.NoSendFails (v.server.Init c socket_fd) events) :
    ((∀ out ∈ v.server.loop.run (v.server.Init c socket_fd) events, ∀ x ∈ out.handed,
        x.fd = .socket_fd_ → v.server.InWriteBuf x) ↔
      (v = .synthetic_memcached_skeleton →
        v.server.loop.Along v.server.NoRequest (v.server.Init c socket_fd) events)) ∧
    ((∀ out ∈ v.server.loop.run (v.server.Init c socket_fd) events, ∀ x ∈ out.handed,
        v.server.InWriteBuf x) ↔
      (v = .synthetic_memcached_skeleton ∨ v = .synthetic_nginx →
        v.server.loop.Along v.server.NoRequest (v.server.Init c socket_fd) events)) := by
  obtain ⟨_, hsocket⟩ := @Variant.hands v (· = .socket_fd_) rfl
  obtain ⟨_, hall⟩ := @Variant.hands v (fun _ => True) trivial
  have hsocket := hsocket.run_iff c socket_fd hsends
  have hall := hall.run_iff c socket_fd hsends
  simp only [Server.HandsInside, Variant.Leaks, reduceCtorEq, and_false, or_false] at hsocket
  simp only [Server.HandsInside, Variant.Leaks, and_true, true_imp_iff] at hall
  exact ⟨hsocket, hall⟩

/-- A read of 54 line ends, with every reply sent in full. -/
def inFull (reply : ℕ) : Event (ℕ → List Outcome) :=
  .input (some (List.replicate 54 10)) fun _ => [.accepted reply]

theorem not_failed_inFull (reply : ℕ) :
    ¬ ∃ i : ℕ, Outcome.failed ∈ (fun _ => [Outcome.accepted reply] : ℕ → List Outcome) i := by
  simp

/-- The 54 bytes are one request of memcached, and its reply ends 3584 bytes behind the write
buffer. -/
theorem a_reply_of_memcached_leaves_the_write_buffer :
    ¬ ∀ (v : Variant) (c : v.server.Conn) (socket_fd : ℤ) (events : List (Event v.server.Sends)),
      v.server.loop.Along v.server.NoSendFails (v.server.Init c socket_fd) events →
      ∀ out ∈ v.server.loop.run (v.server.Init c socket_fd) events, ∀ x ∈ out.handed,
        x.fd = .socket_fd_ → v.server.InWriteBuf x := by
  intro h
  have hsends : memcached.server.loop.Along memcached.server.NoSendFails
      (memcached.server.Init tcp_conn.idle 5) [inFull 4124] :=
    ⟨not_failed_inFull 4124, fun _ _ => trivial⟩
  have hinside := h .synthetic_memcached_skeleton tcp_conn.idle 5 [inFull 4124] hsends
  have hhands := @memcached.hands (· = .socket_fd_) rfl
  have hnone := (hhands.run_iff tcp_conn.idle 5 hsends).mp hinside trivial
  exact absurd (hnone.1 (by decide +kernel)) (by decide +kernel)

/-- The law on the requests of one read of nginx: the replies are in the write buffer, and what
goes to the log file is not. -/
theorem requests_of_nginx_stay_in_the_write_buffer_without_the_log :
    let run := (writev.server .synthetic_nginx).loop.run
      ((writev.server .synthetic_nginx).Init (writev_conn.idle .synthetic_nginx) 5) [inFull 850]
    (∀ out ∈ run, ∀ x ∈ out.handed, x.fd = .socket_fd_ →
      (writev.server .synthetic_nginx).InWriteBuf x) ∧
    ¬ ∀ out ∈ run, ∀ x ∈ out.handed, (writev.server .synthetic_nginx).InWriteBuf x := by
  have hlaw := sends_stay_in_the_write_buffer_iff_no_request .synthetic_nginx
    (writev_conn.idle .synthetic_nginx) 5 [inFull 850]
    ⟨not_failed_inFull 850, fun _ _ => trivial⟩
  refine ⟨hlaw.1.mpr (by simp), fun hall => ?_⟩
  have hnone := hlaw.2.mp hall (.inr rfl)
  exact absurd (hnone.1 (by decide +kernel)) (by decide +kernel)

end ditto.skeletons
