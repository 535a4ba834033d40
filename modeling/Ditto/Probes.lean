-- The probes that watch an application (backbone_analysis/threads.stp). A
-- probe runs at each hit and adds to tables by process, by thread and by
-- descriptor. Each table is compared with what the hits alone say of it.
import Ditto.SyscallStats
import Mathlib.Algebra.BigOperators.Group.Finset.Piecewise

open ditto.analyze_syscall

namespace ditto.threads_stp

/-! ## The hits -/

def T_APP : ℕ := 1
def T_NETIO_LISTEN : ℕ := 2
def T_NETIO_TCP_SEND : ℕ := 4
def T_NETIO_TCP_RECV : ℕ := 8
def T_DISKIO_WRITE : ℕ := 16
def T_DISKIO_READ : ℕ := 32
def T_POLL : ℕ := 64
def T_EPOLL : ℕ := 128
def T_SELECT : ℕ := 256
def T_CLONED : ℕ := 512
def T_CLONE : ℕ := 1024
def T_MASTER : ℕ := 2048

def EPOLL_CTL_ADD : ℕ := 1
def CLONE_VM : ℕ := 256

/-- The thread that makes a call. -/
structure Task where
  pid : ℤ
  tid : ℤ
  ppid : ℤ
deriving DecidableEq

/-- The results of `i_mode2str`, with `none` for the empty text. -/
inductive Mode
  | lnk | reg | dir | chr | blk | fifo | sock | none
deriving DecidableEq

/-- What the kernel knows of a descriptor when a call is made. -/
structure File where
  mode : Mode
  flags : List Char
  socket_opt : List Char
  socket_fam : ℤ
deriving DecidableEq

/-- A point at which a probe runs, with what it reads there. A call with several buffers has their
lengths in `iov`, and one with a single buffer has its length in `count`. -/
inductive Hit
  | accept (retval : ℤ)
  | epoll_wait
  | select
  | poll
  | epoll_ctl (op : ℕ) (epfd fd : ℤ) (events : ℕ)
  | io (s : Syscall) (fd offset count : ℤ) (iov : List ℤ) (file : File)
  | clone (clone_flags : ℕ)
  | clone_return (ret : ℤ)
  | ctxswitch (prev_pid prev_tid : ℤ)
  | syscall (ppfunc : List Char)
deriving DecidableEq

/-! ## The tables -/

/-- What is counted for processes and threads. -/
inductive Work
  | conn_accept | tcp_recv | tcp_send | diskio_read | diskio_write | epolls | polls | selects
  | switched_off
deriving DecidableEq

/-- The bit of the type that is set with a counter. -/
def Work.bit : Work → ℕ
  | conn_accept => T_NETIO_LISTEN
  | tcp_recv => T_NETIO_TCP_RECV
  | tcp_send => T_NETIO_TCP_SEND
  | diskio_read => T_DISKIO_READ
  | diskio_write => T_DISKIO_WRITE
  | epolls => T_EPOLL
  | polls => T_POLL
  | selects => T_SELECT
  | switched_off => T_APP

/-- A descriptor of a thread. -/
abbrev FdKey := ℤ × ℤ × ℤ

/-- The global tables. `process_num` holds the tables `process_num_*` one beside the other, and
`process_fds` the tables `process_*_fds`; those of the threads are alike. A record of
`sys_events` is made of the entries of the tables `sys_*` of a call with the same key. -/
structure State where
  pids : PyDict ℤ ℕ := .empty
  tids : PyDict ℤ ℕ := .empty
  process_num : PyDict (Work × ℤ) ℕ := .empty
  thread_num : PyDict (Work × ℤ) ℕ := .empty
  process_fds : PyDict (Work × ℤ × ℤ) ℕ := .empty
  thread_fds : PyDict (Work × ℤ × ℤ) ℕ := .empty
  fds : PyDict FdKey ℕ := .empty
  fds_mode : PyDict FdKey Mode := .empty
  fds_flag : PyDict FdKey (List Char) := .empty
  fds_socket_opt : PyDict FdKey (List Char) := .empty
  fds_socket_fam : PyDict FdKey ℤ := .empty
  epfds : PyDict (ℤ × ℤ × ℤ × ℤ) (List Char) := .empty
  tmp_clone_flags : PyDict ℤ ℕ := .empty
  cloned_thread_edges : PyDict (ℤ × ℤ) ℕ := .empty
  cloned_process_thread_edges : PyDict (ℤ × ℤ) ℕ := .empty
  process_thread_edges : PyDict (ℤ × ℤ) ℕ := .empty
  syscall_cnt : PyDict (ℤ × ℤ × List Char) ℕ := .empty
  sys_index : Syscall → ℕ := fun _ => 0
  sys_events : Syscall → PyDict (ℤ × ℤ × ℕ) Event := fun _ => .empty
  sys_accept_index : ℕ := 0
  sys_accept_fd : PyDict (ℤ × ℤ × ℕ) ℤ := .empty

/-- The line `d[k] |= bits`. -/
def orIn (d : PyDict ℤ ℕ) (k : ℤ) (bits : ℕ) : PyDict ℤ ℕ := d.set k (d.val k ||| bits)

/-- The lines `if (!([k] in d)) d[k] = v`. -/
def setFirst {κ ν : Type} [DecidableEq κ] (d : PyDict κ ν) (k : κ) (v : ν) : PyDict κ ν :=
  if k ∈ d.keys then d else d.set k v

/-- Data goes into the process or out of it. -/
inductive Direction
  | input | output
deriving DecidableEq

namespace State

variable (st : State)

def mark (pid tid : ℤ) (bits : ℕ) : State :=
  { st with pids := orIn st.pids pid bits, tids := orIn st.tids tid bits }

def count (w : Work) (pid tid : ℤ) : State :=
  { st with
    process_num := st.process_num.add (w, pid) 1
    thread_num := st.thread_num.add (w, tid) 1 }

/-- The lines that the probes of a kind of work have in common. -/
def work (w : Work) (task : Task) : State :=
  (st.mark task.pid task.tid w.bit).count w task.pid task.tid

/-- Work on a descriptor. -/
def access (w : Work) (task : Task) (fd : ℤ) : State :=
  let st := st.work w task
  { st with
    process_fds := st.process_fds.add (w, task.pid, fd) 1
    thread_fds := st.thread_fds.add (w, task.tid, fd) 1 }

def flag (task : Task) (fd : ℤ) (file : File) : State :=
  { st with fds_flag := setFirst st.fds_flag (task.pid, task.tid, fd) file.flags }

def handle_file_fd (task : Task) (fd : ℤ) (file : File) (type : Direction) : State :=
  let st := match type with
    | .input => st.access .diskio_read task fd
    | .output => st.access .diskio_write task fd
  st.flag task fd file

def handle_socket_fd (task : Task) (fd : ℤ) (file : File) (type : Direction) : State :=
  let key := (task.pid, task.tid, fd)
  let st := st.flag task fd file
  let st := { st with
    fds_socket_opt := setFirst st.fds_socket_opt key file.socket_opt
    fds_socket_fam := setFirst st.fds_socket_fam key file.socket_fam }
  match type with
  | .input => st.access .tcp_recv task fd
  | .output => st.access .tcp_send task fd

end State

/-! ## The probes -/

def Syscall.direction : Syscall → Direction
  | .read | .readv | .pread | .preadv | .recv | .recvfrom | .recvmsg => .input
  | .write | .writev | .pwrite | .pwritev | .send | .sendto | .sendmsg => .output

/-- The calls with several buffers. -/
def Syscall.vector : Syscall → Bool
  | .readv | .preadv | .recvmsg | .writev | .pwritev | .sendmsg => true
  | .read | .pread | .recv | .recvfrom | .write | .pwrite | .send | .sendto => false

def Mode.type : Mode → FdType
  | .reg => .file
  | .sock => .socket
  | _ => .other

/-- What is kept of a call. -/
def eventOf (task : Task) (s : Syscall) (fd offset count : ℤ) (iov : List ℤ) (file : File) :
    Event where
  pid := task.pid
  tid := task.tid
  fd := fd
  offset := offset
  count := if Syscall.vector s then iov.sum else count
  iov_count := if Syscall.vector s then iov.length else 0
  iov_each_count i := if Syscall.vector s then iov.getD i 0 else 0
  type := file.mode.type

def State.record (st : State) (s : Syscall) (event : Event) : State :=
  let index := st.sys_index s + 1
  { st with
    sys_index := Function.update st.sys_index s index
    sys_events := Function.update st.sys_events s
      ((st.sys_events s).set (event.pid, event.tid, index) event) }

def State.see (st : State) (task : Task) (fd : ℤ) (file : File) : State :=
  let key := (task.pid, task.tid, fd)
  { st with fds := st.fds.set key 1, fds_mode := st.fds_mode.set key file.mode }

/-- The probes of the calls that move data. The calls of the first family can be on any
descriptor, and those of the other two are taken to be on a file and on a socket. -/
def probe_io (st : State) (task : Task) (s : Syscall) (fd offset count : ℤ) (iov : List ℤ)
    (file : File) : State :=
  let st := (st.record s (eventOf task s fd offset count iov file)).see task fd file
  match s.family with
  | .typed =>
    match file.mode with
    | .reg => st.handle_file_fd task fd file (Syscall.direction s)
    | .sock => st.handle_socket_fd task fd file (Syscall.direction s)
    | _ => st
  | .offset => st.handle_file_fd task fd file (Syscall.direction s)
  | .plain => st.handle_socket_fd task fd file (Syscall.direction s)

def probe_accept (st : State) (task : Task) (retval : ℤ) : State :=
  if retval ≤ 0 then st
  else
    let st := st.work .conn_accept task
    let index := st.sys_accept_index + 1
    { st with
      sys_accept_index := index
      sys_accept_fd := st.sys_accept_fd.set (task.pid, task.tid, index) retval }

/-- The names of the events, in the order of the tests. -/
def EPOLL_EVENTS : List (ℕ × String) :=
  [(0x001, "EPOLLIN"), (0x002, "EPOLLPRI"), (0x004, "EPOLLOUT"), (0x040, "EPOLLRDNORM"),
    (0x100, "EPOLLWRNORM"), (0x200, "EPOLLWRBAND"), (0x008, "EPOLLERR"), (0x010, "EPOLLHUP"),
    (0x2000, "EPOLLRDHUP"), (0x40000000, "EPOLLONESHOT"), (0x80000000, "EPOLLET")]

def events_str (events : ℕ) : List Char :=
  EPOLL_EVENTS.foldl (fun text e =>
    if events &&& e.1 = 0 then text
    else if text = [] then e.2.toList
    else text ++ '|' :: e.2.toList) []

def probe_epoll_ctl (st : State) (task : Task) (op : ℕ) (epfd fd : ℤ) (events : ℕ) : State :=
  if op ≠ EPOLL_CTL_ADD then st
  else { st with epfds := st.epfds.set (task.pid, task.tid, epfd, fd) (events_str events) }

/-- The flags are those of the last call of the thread. A call that fails has a negative
result, which is taken for a thread. -/
def probe_clone_return (st : State) (task : Task) (ret : ℤ) : State :=
  if st.tmp_clone_flags.val task.tid &&& CLONE_VM = 0 then st
  else { st with
    cloned_process_thread_edges := st.cloned_process_thread_edges.add (task.pid, ret) 1
    cloned_thread_edges := st.cloned_thread_edges.add (task.tid, ret) 1
    tids := orIn (orIn st.tids task.tid T_CLONED) ret T_CLONE }

def probe_ctxswitch (target : ℤ) (st : State) (task : Task) (prev_pid prev_tid : ℤ) : State :=
  let st := st.mark prev_pid prev_tid T_APP
  if task.tid = prev_tid then
    let st := if task.pid = target then { st with pids := orIn st.pids prev_pid T_MASTER } else st
    let st := if task.tid = prev_pid then { st with tids := orIn st.tids prev_tid T_MASTER } else st
    { st.count .switched_off prev_pid prev_tid with
      process_thread_edges := st.process_thread_edges.set (prev_pid, prev_tid) 1 }
  else st

/-- The process is the target or a child of it. -/
def Task.watched (target : ℤ) (task : Task) : Bool := task.pid = target || task.ppid = target

/-- The probe at a hit. -/
def probe (target : ℤ) (st : State) (h : Task × Hit) : State :=
  if h.1.watched target then
    match h.2 with
    | .accept retval => probe_accept st h.1 retval
    | .epoll_wait => st.work .epolls h.1
    | .select => st.work .selects h.1
    | .poll => st.work .polls h.1
    | .epoll_ctl op epfd fd events => probe_epoll_ctl st h.1 op epfd fd events
    | .io s fd offset count iov file => probe_io st h.1 s fd offset count iov file
    | .clone clone_flags =>
      { st with tmp_clone_flags := st.tmp_clone_flags.set h.1.tid clone_flags }
    | .clone_return ret => probe_clone_return st h.1 ret
    | .ctxswitch prev_pid prev_tid => probe_ctxswitch target st h.1 prev_pid prev_tid
    | .syscall ppfunc =>
      { st with syscall_cnt := st.syscall_cnt.add (h.1.pid, h.1.tid, ppfunc) 1 }
  else st

/-- The tables after all hits. -/
def run (target : ℤ) (hits : List (Task × Hit)) : State := hits.foldl (probe target) {}

/-! ## What the probes print -/

/-- The loop over a table by descriptor in `compute_num_fds`. -/
def num_fds (fds : PyDict (Work × ℤ × ℤ) ℕ) : PyDict (Work × ℤ) ℕ :=
  fds.keys.foldl (fun d k => d.add (k.1, k.2.1) 1) .empty

/-- What is printed of a process or of a thread. -/
structure Report where
  type : ℕ
  num : Work → ℕ
  num_fds : Work → ℕ

def print_processes (st : State) : PyDict ℤ Report :=
  st.pids.mapVal fun pid type => {
    type
    num := fun w => st.process_num.val (w, pid)
    num_fds := fun w => (num_fds st.process_fds).val (w, pid) }

def print_threads (st : State) : PyDict ℤ Report :=
  st.tids.mapVal fun tid type => {
    type
    num := fun w => st.thread_num.val (w, tid)
    num_fds := fun w => (num_fds st.thread_fds).val (w, tid) }

/-! ## What the hits say -/

def diskWork : Direction → Work
  | .input => .diskio_read
  | .output => .diskio_write

def tcpWork : Direction → Work
  | .input => .tcp_recv
  | .output => .tcp_send

/-- The work that a call on a descriptor is taken for. -/
def ioWork (s : Syscall) (mode : Mode) : Option Work :=
  match s.family, mode.type with
  | .typed, .file => some (diskWork (Syscall.direction s))
  | .typed, .socket => some (tcpWork (Syscall.direction s))
  | .typed, .other => none
  | .offset, _ => some (diskWork (Syscall.direction s))
  | .plain, _ => some (tcpWork (Syscall.direction s))

/-- The work at a hit, with the process and the thread that it is counted for. -/
def worked (target : ℤ) (h : Task × Hit) : Option (Work × ℤ × ℤ) :=
  if h.1.watched target then
    match h.2 with
    | .accept retval => if retval ≤ 0 then none else some (.conn_accept, h.1.pid, h.1.tid)
    | .epoll_wait => some (.epolls, h.1.pid, h.1.tid)
    | .select => some (.selects, h.1.pid, h.1.tid)
    | .poll => some (.polls, h.1.pid, h.1.tid)
    | .io s _ _ _ _ file => (ioWork s file.mode).map (·, h.1.pid, h.1.tid)
    | .ctxswitch prev_pid prev_tid =>
      if h.1.tid = prev_tid then some (.switched_off, prev_pid, prev_tid) else none
    | _ => none
  else none

/-- The descriptor that is worked on at a hit. -/
def accessed (target : ℤ) (h : Task × Hit) : Option (Work × ℤ × ℤ × ℤ) :=
  if h.1.watched target then
    match h.2 with
    | .io s fd _ _ _ file => (ioWork s file.mode).map (·, h.1.pid, h.1.tid, fd)
    | _ => none
  else none

/-! ## One step -/

/-- A table of types has the same bits of work as before. A switch has no bit of its own. -/
structure SameBits (d d' : PyDict ℤ ℕ) : Prop where
  bits : ∀ k, ∀ w : Work, w ≠ .switched_off → d'.val k &&& w.bit = d.val k &&& w.bit
  keys : ∀ k ∈ d.keys, k ∈ d'.keys

/-- Two states say the same of the work of processes and threads. -/
structure SameWork (st st' : State) : Prop where
  pids : SameBits st.pids st'.pids
  tids : SameBits st.tids st'.tids
  process_num : st'.process_num = st.process_num
  thread_num : st'.thread_num = st.thread_num
  process_fds : st'.process_fds = st.process_fds
  thread_fds : st'.thread_fds = st.thread_fds

/-- What the probe at a hit does to the tables by process and thread. -/
inductive TableStep (target : ℤ) (st : State) (h : Task × Hit) (st' : State) : Prop
  | idle (hworked : worked target h = none) (haccessed : accessed target h = none)
      (same : SameWork st st')
  | work {w : Work} (hw : w ≠ .switched_off) (hworked : worked target h = some (w, h.1.pid, h.1.tid))
      (haccessed : accessed target h = none) (same : SameWork (st.work w h.1) st')
  | access {w : Work} {fd : ℤ} (hw : w ≠ .switched_off)
      (hworked : worked target h = some (w, h.1.pid, h.1.tid))
      (haccessed : accessed target h = some (w, h.1.pid, h.1.tid, fd))
      (same : SameWork (st.access w h.1 fd) st')
  | switch {prev_pid prev_tid : ℤ} (hworked : worked target h = some (.switched_off, prev_pid, prev_tid))
      (haccessed : accessed target h = none)
      (same : SameWork (st.count .switched_off prev_pid prev_tid) st')
      (hpid : prev_pid ∈ st'.pids.keys) (htid : prev_tid ∈ st'.tids.keys)

section Steps

variable {target : ℤ} {st st' : State} {task : Task} {h : Task × Hit} {s : Syscall} {file : File}
  {fd : ℤ}

theorem SameBits.refl (d : PyDict ℤ ℕ) : SameBits d d := ⟨fun _ _ _ => rfl, fun _ => id⟩

variable {bits : ℕ}

theorem mem_keys_orIn {d : PyDict ℤ ℕ} {k x : ℤ} :
    x ∈ (orIn d k bits).keys ↔ x = k ∨ x ∈ d.keys := PyDict.mem_keys_set

theorem val_orIn (d : PyDict ℤ ℕ) (k x : ℤ) (bits : ℕ) :
    (orIn d k bits).val x = if x = k then d.val x ||| bits else d.val x := by
  unfold orIn
  rw [PyDict.val_set]
  split
  · rename_i hx
    rw [hx]
  · rfl

theorem SameBits.orIn {d d' : PyDict ℤ ℕ} (h : SameBits d d') (k : ℤ)
    (hbits : ∀ w : Work, w ≠ .switched_off → bits &&& w.bit = 0) : SameBits d (orIn d' k bits) := by
  refine ⟨fun x w hw => ?_, fun x hx => mem_keys_orIn.mpr (.inr (h.keys x hx))⟩
  rw [val_orIn]
  split
  · rw [Nat.and_or_distrib_right, hbits w hw, Nat.or_zero]
    exact h.bits x w hw
  · exact h.bits x w hw

theorem app_and_bit (w : Work) (hw : w ≠ .switched_off) : T_APP &&& w.bit = 0 := by
  cases w <;> first | rfl | exact absurd rfl hw

theorem master_and_bit (w : Work) (_ : w ≠ .switched_off) : T_MASTER &&& w.bit = 0 := by
  cases w <;> rfl

theorem cloned_and_bit (w : Work) (_ : w ≠ .switched_off) : T_CLONED &&& w.bit = 0 := by
  cases w <;> rfl

theorem clone_and_bit (w : Work) (_ : w ≠ .switched_off) : T_CLONE &&& w.bit = 0 := by
  cases w <;> rfl

/-- The tables are equal. -/
theorem SameWork.of_eq (hpids : st'.pids = st.pids) (htids : st'.tids = st.tids)
    (hprocess : st'.process_num = st.process_num) (hthread : st'.thread_num = st.thread_num)
    (hprocess_fds : st'.process_fds = st.process_fds)
    (hthread_fds : st'.thread_fds = st.thread_fds) : SameWork st st' := by
  refine ⟨?_, ?_, hprocess, hthread, hprocess_fds, hthread_fds⟩
  · rw [hpids]
    exact .refl _
  · rw [htids]
    exact .refl _

theorem same_handle_file_fd (type : Direction) :
    SameWork (st.access (diskWork type) task fd) (st.handle_file_fd task fd file type) := by
  cases type <;> exact .of_eq rfl rfl rfl rfl rfl rfl

theorem same_handle_socket_fd (type : Direction) :
    SameWork (st.access (tcpWork type) task fd) (st.handle_socket_fd task fd file type) := by
  cases type <;> exact .of_eq rfl rfl rfl rfl rfl rfl

theorem ioWork_ne_switched_off {w : Work} {mode : Mode} (h : ioWork s mode = some w) :
    w ≠ .switched_off := by
  rintro rfl
  cases s <;> cases mode <;> cases h

theorem tableStep_io {offset count : ℤ} {iov : List ℤ} (hwatched : task.watched target) :
    TableStep target st (task, .io s fd offset count iov file)
      (probe_io st task s fd offset count iov file) := by
  let seen := (st.record s (eventOf task s fd offset count iov file)).see task fd file
  have hwork : ∀ {w : Work} {st' : State}, ioWork s file.mode = some w →
      SameWork (seen.access w task fd) st' →
      TableStep target st (task, .io s fd offset count iov file) st' := fun hwork same =>
    .access (ioWork_ne_switched_off hwork) (by simp [worked, hwatched, hwork])
      (by simp [accessed, hwatched, hwork])
      ⟨same.pids, same.tids, same.process_num, same.thread_num, same.process_fds, same.thread_fds⟩
  unfold probe_io
  cases hfamily : s.family with
  | typed =>
    cases hmode : file.mode with
    | reg => exact hwork (by simp [ioWork, hfamily, hmode, Mode.type]) (same_handle_file_fd _)
    | sock => exact hwork (by simp [ioWork, hfamily, hmode, Mode.type]) (same_handle_socket_fd _)
    | _ =>
      have hnone : ioWork s file.mode = none := by simp [ioWork, hfamily, hmode, Mode.type]
      exact .idle (by simp [worked, hnone]) (by simp [accessed, hnone])
        (.of_eq rfl rfl rfl rfl rfl rfl)
  | offset => exact hwork (by simp [ioWork, hfamily]) (same_handle_file_fd _)
  | plain => exact hwork (by simp [ioWork, hfamily]) (same_handle_socket_fd _)

theorem SameBits.trans {d d' d'' : PyDict ℤ ℕ} (h : SameBits d d') (h' : SameBits d' d'') :
    SameBits d d'' :=
  ⟨fun k w hw => (h'.bits k w hw).trans (h.bits k w hw), fun k hk => h'.keys k (h.keys k hk)⟩

theorem SameWork.trans {st'' : State} (h : SameWork st st') (h' : SameWork st' st'') :
    SameWork st st'' :=
  ⟨h.pids.trans h'.pids, h.tids.trans h'.tids, h'.process_num.trans h.process_num,
    h'.thread_num.trans h.thread_num, h'.process_fds.trans h.process_fds,
    h'.thread_fds.trans h.thread_fds⟩

theorem SameWork.markPids (h : SameWork st st') (k : ℤ)
    (hbits : ∀ w : Work, w ≠ .switched_off → bits &&& w.bit = 0) :
    SameWork st { st' with pids := orIn st'.pids k bits } :=
  ⟨h.pids.orIn k hbits, h.tids, h.process_num, h.thread_num, h.process_fds, h.thread_fds⟩

theorem SameWork.markTids (h : SameWork st st') (k : ℤ)
    (hbits : ∀ w : Work, w ≠ .switched_off → bits &&& w.bit = 0) :
    SameWork st { st' with tids := orIn st'.tids k bits } :=
  ⟨h.pids, h.tids.orIn k hbits, h.process_num, h.thread_num, h.process_fds, h.thread_fds⟩

theorem SameWork.count (h : SameWork st st') (w : Work) (pid tid : ℤ) :
    SameWork (st.count w pid tid) (st'.count w pid tid) := by
  refine ⟨h.pids, h.tids, ?_, ?_, h.process_fds, h.thread_fds⟩
  · simp only [State.count, h.process_num]
  · simp only [State.count, h.thread_num]

theorem tableStep_ctxswitch {prev_pid prev_tid : ℤ} (hwatched : task.watched target) :
    TableStep target st (task, .ctxswitch prev_pid prev_tid)
      (probe_ctxswitch target st task prev_pid prev_tid) := by
  have hrefl : SameWork st st := .of_eq rfl rfl rfl rfl rfl rfl
  let app := st.mark prev_pid prev_tid T_APP
  have happ : SameWork st app :=
    (hrefl.markPids prev_pid app_and_bit).markTids prev_tid app_and_bit
  by_cases htid : task.tid = prev_tid
  · -- the marks of a master do not matter for the work
    let pids := if task.pid = target then { app with pids := orIn app.pids prev_pid T_MASTER } else app
    have hpids : SameWork app pids := by
      by_cases hmaster : task.pid = target
      · simp only [pids, if_pos hmaster]
        exact SameWork.markPids (.of_eq rfl rfl rfl rfl rfl rfl) prev_pid master_and_bit
      · simp only [pids, if_neg hmaster]
        exact .of_eq rfl rfl rfl rfl rfl rfl
    let tids :=
      if task.tid = prev_pid then { pids with tids := orIn pids.tids prev_tid T_MASTER } else pids
    have htids : SameWork app tids := by
      by_cases hmaster : task.tid = prev_pid
      · simp only [tids, if_pos hmaster]
        exact hpids.markTids prev_tid master_and_bit
      · simp only [tids, if_neg hmaster]
        exact hpids
    have hcount := (happ.trans htids).count .switched_off prev_pid prev_tid
    unfold probe_ctxswitch
    rw [if_pos htid]
    refine .switch (by simp [worked, hwatched, htid]; exact ⟨rfl, rfl⟩) (by simp [accessed]) ?_ ?_ ?_
    · exact ⟨hcount.pids, hcount.tids, hcount.process_num, hcount.thread_num, hcount.process_fds,
        hcount.thread_fds⟩
    · exact htids.pids.keys prev_pid (mem_keys_orIn.mpr (.inl rfl))
    · exact htids.tids.keys prev_tid (mem_keys_orIn.mpr (.inl rfl))
  · unfold probe_ctxswitch
    rw [if_neg htid]
    exact .idle (by simp [worked, htid]) (by simp [accessed]) happ

theorem tableStep_probe (target : ℤ) (st : State) (h : Task × Hit) :
    TableStep target st h (probe target st h) := by
  obtain ⟨task, hit⟩ := h
  by_cases hwatched : task.watched target
  · simp only [probe, hwatched, if_true]
    cases hit with
    | accept retval =>
      simp only [probe_accept]
      by_cases hretval : retval ≤ 0
      · rw [if_pos hretval]
        exact .idle (by simp [worked, hretval]) (by simp [accessed]) (.of_eq rfl rfl rfl rfl rfl rfl)
      · rw [if_neg hretval]
        exact .work (by simp) (by simp [worked, hwatched, hretval]) (by simp [accessed])
          (.of_eq rfl rfl rfl rfl rfl rfl)
    | epoll_wait =>
      exact .work (by simp) (by simp [worked, hwatched]) (by simp [accessed])
        (.of_eq rfl rfl rfl rfl rfl rfl)
    | select =>
      exact .work (by simp) (by simp [worked, hwatched]) (by simp [accessed])
        (.of_eq rfl rfl rfl rfl rfl rfl)
    | poll =>
      exact .work (by simp) (by simp [worked, hwatched]) (by simp [accessed])
        (.of_eq rfl rfl rfl rfl rfl rfl)
    | epoll_ctl op epfd fd events =>
      refine .idle (by simp [worked]) (by simp [accessed]) ?_
      simp only [probe_epoll_ctl]
      split <;> exact .of_eq rfl rfl rfl rfl rfl rfl
    | io s fd offset count iov file => exact tableStep_io hwatched
    | clone clone_flags =>
      exact .idle (by simp [worked]) (by simp [accessed]) (.of_eq rfl rfl rfl rfl rfl rfl)
    | clone_return ret =>
      refine .idle (by simp [worked]) (by simp [accessed]) ?_
      simp only [probe_clone_return]
      split
      · exact .of_eq rfl rfl rfl rfl rfl rfl
      · have hcloned : SameBits st.tids (orIn st.tids task.tid T_CLONED) :=
          (SameBits.refl st.tids).orIn task.tid cloned_and_bit
        exact ⟨.refl _, hcloned.orIn ret clone_and_bit, rfl, rfl, rfl, rfl⟩
    | ctxswitch prev_pid prev_tid => exact tableStep_ctxswitch hwatched
    | syscall ppfunc =>
      exact .idle (by simp [worked]) (by simp [accessed]) (.of_eq rfl rfl rfl rfl rfl rfl)
  · simp only [probe, hwatched]
    exact .idle (by simp [worked, hwatched]) (by simp [accessed, hwatched])
      (.of_eq rfl rfl rfl rfl rfl rfl)

/-! ## The counters -/

theorem num_probe :
    (probe target st h).process_num =
      (worked target h).elim st.process_num (fun x => st.process_num.add (x.1, x.2.1) 1) ∧
    (probe target st h).thread_num =
      (worked target h).elim st.thread_num (fun x => st.thread_num.add (x.1, x.2.2) 1) := by
  cases tableStep_probe target st h with
  | idle hworked haccessed same | work hw hworked haccessed same
  | access hw hworked haccessed same | switch hworked haccessed same =>
    rw [hworked, same.process_num, same.thread_num]
    exact ⟨rfl, rfl⟩

theorem fds_probe :
    (probe target st h).process_fds =
      (accessed target h).elim st.process_fds
        (fun x => st.process_fds.add (x.1, x.2.1, x.2.2.2) 1) ∧
    (probe target st h).thread_fds =
      (accessed target h).elim st.thread_fds
        (fun x => st.thread_fds.add (x.1, x.2.2.1, x.2.2.2) 1) := by
  cases tableStep_probe target st h with
  | idle hworked haccessed same | work hw hworked haccessed same
  | access hw hworked haccessed same | switch hworked haccessed same =>
    rw [haccessed, same.process_fds, same.thread_fds]
    exact ⟨rfl, rfl⟩

/-! ## The types -/

theorem bit_and_bit {w w' : Work} (h : w ≠ w') : w.bit &&& w'.bit = 0 := by
  cases w <;> cases w' <;> first | rfl | exact absurd rfl h

theorem bit_ne_zero (w : Work) : w.bit ≠ 0 := by
  cases w <;> decide

theorem val_orIn_bit {d : PyDict ℤ ℕ} {k x : ℤ} {w w' : Work} :
    (orIn d k w'.bit).val x &&& w.bit ≠ 0 ↔ d.val x &&& w.bit ≠ 0 ∨ (w' = w ∧ k = x) := by
  rw [val_orIn]
  by_cases hx : x = k
  · rw [if_pos hx, Nat.and_or_distrib_right]
    by_cases hw : w' = w
    · simp [hw, hx, bit_ne_zero]
    · simp [bit_and_bit hw, hw]
  · simp [hx, Ne.symm hx]

/-- A bit of work is set by the work and by nothing else. -/
theorem types_probe {w : Work} (hw : w ≠ .switched_off) (k : ℤ) :
    ((probe target st h).pids.val k &&& w.bit ≠ 0 ↔
      st.pids.val k &&& w.bit ≠ 0 ∨ ∃ tid, worked target h = some (w, k, tid)) ∧
    ((probe target st h).tids.val k &&& w.bit ≠ 0 ↔
      st.tids.val k &&& w.bit ≠ 0 ∨ ∃ pid, worked target h = some (w, pid, k)) := by
  cases tableStep_probe target st h with
  | idle hworked haccessed same =>
    rw [hworked, same.pids.bits k w hw, same.tids.bits k w hw]
    simp
  | switch hworked haccessed same =>
    rw [hworked, same.pids.bits k w hw, same.tids.bits k w hw]
    simp [State.count, Ne.symm hw]
  | work _ hworked haccessed same | access _ hworked haccessed same =>
    rw [hworked, same.pids.bits k w hw, same.tids.bits k w hw]
    simp only [State.access, State.work, State.count, State.mark, val_orIn_bit]
    simp

/-- The processes and threads that worked are in the tables of types. -/
theorem keys_probe :
    ((∀ k ∈ st.pids.keys, k ∈ (probe target st h).pids.keys) ∧
      ∀ k ∈ st.tids.keys, k ∈ (probe target st h).tids.keys) ∧
    ∀ x, worked target h = some x →
      x.2.1 ∈ (probe target st h).pids.keys ∧ x.2.2 ∈ (probe target st h).tids.keys := by
  cases tableStep_probe target st h with
  | idle hworked haccessed same =>
    rw [hworked]
    exact ⟨⟨same.pids.keys, same.tids.keys⟩, fun x hx => nomatch hx⟩
  | switch hworked haccessed same hpid htid =>
    refine ⟨⟨same.pids.keys, same.tids.keys⟩, fun x hx => ?_⟩
    rw [hworked] at hx
    cases hx
    exact ⟨hpid, htid⟩
  | work _ hworked haccessed same | access _ hworked haccessed same =>
    refine ⟨⟨fun k hk => same.pids.keys k (mem_keys_orIn.mpr (.inr hk)),
      fun k hk => same.tids.keys k (mem_keys_orIn.mpr (.inr hk))⟩, fun x hx => ?_⟩
    rw [hworked] at hx
    cases hx
    exact ⟨same.pids.keys _ (mem_keys_orIn.mpr (.inl rfl)),
      same.tids.keys _ (mem_keys_orIn.mpr (.inl rfl))⟩

end Steps

/-- A table to which each step adds the key of its hit is the tally of the keys. -/
theorem table_run {α κ : Type} [DecidableEq κ] {target : ℤ} (table : State → PyDict κ ℕ)
    (keyed : Task × Hit → Option α) (key : α → κ) (hstart : table {} = .empty)
    (hstep : ∀ st h, table (probe target st h) =
      (keyed h).elim (table st) (fun x => (table st).add (key x) 1)) (hits : List (Task × Hit)) :
    table (run target hits) = PyDict.tally ((hits.filterMap keyed).map key) := by
  unfold run
  induction hits using List.reverseRecOn with
  | nil => exact hstart
  | append_singleton hits h ih =>
    rw [List.foldl_append, List.foldl_cons, List.foldl_nil, hstep, ih, List.filterMap_append,
      List.map_append]
    cases hkey : keyed h with
    | none => simp [hkey]
    | some x => simp [hkey, PyDict.tally_concat]

section Runs

variable (target : ℤ) (hits : List (Task × Hit))

theorem process_num_run : (run target hits).process_num =
    PyDict.tally ((hits.filterMap (worked target)).map fun x => (x.1, x.2.1)) :=
  table_run State.process_num _ _ rfl (fun _ _ => num_probe.1) hits

theorem thread_num_run : (run target hits).thread_num =
    PyDict.tally ((hits.filterMap (worked target)).map fun x => (x.1, x.2.2)) :=
  table_run State.thread_num _ _ rfl (fun _ _ => num_probe.2) hits

theorem process_fds_run : (run target hits).process_fds =
    PyDict.tally ((hits.filterMap (accessed target)).map fun x => (x.1, x.2.1, x.2.2.2)) :=
  table_run State.process_fds _ _ rfl (fun _ _ => fds_probe.1) hits

theorem thread_fds_run : (run target hits).thread_fds =
    PyDict.tally ((hits.filterMap (accessed target)).map fun x => (x.1, x.2.2.1, x.2.2.2)) :=
  table_run State.thread_fds _ _ rfl (fun _ _ => fds_probe.2) hits

/-- The type of a process or a thread has the bit of a work exactly if it did this work. -/
theorem types_run {w : Work} (hw : w ≠ .switched_off) (k : ℤ) :
    ((run target hits).pids.val k &&& w.bit ≠ 0 ↔
      ∃ tid, (w, k, tid) ∈ hits.filterMap (worked target)) ∧
    ((run target hits).tids.val k &&& w.bit ≠ 0 ↔
      ∃ pid, (w, pid, k) ∈ hits.filterMap (worked target)) := by
  unfold run
  induction hits using List.reverseRecOn with
  | nil => simp
  | append_singleton hits h ih =>
    rw [List.foldl_append, List.foldl_cons, List.foldl_nil, (types_probe hw k).1,
      (types_probe hw k).2, ih.1, ih.2]
    simp only [List.mem_filterMap, List.mem_append, List.mem_singleton]
    grind

theorem keys_run : ∀ x ∈ hits.filterMap (worked target),
    x.2.1 ∈ (run target hits).pids.keys ∧ x.2.2 ∈ (run target hits).tids.keys := by
  unfold run
  induction hits using List.reverseRecOn with
  | nil => simp
  | append_singleton hits h ih =>
    obtain ⟨⟨hpids, htids⟩, hnew⟩ := @keys_probe target (hits.foldl (probe target) {}) h
    intro x hx
    rw [List.foldl_append, List.foldl_cons, List.foldl_nil]
    simp only [List.filterMap_append, List.mem_append, List.mem_filterMap, List.mem_singleton] at hx
    rcases hx with hx | ⟨a, ha, hx⟩
    · obtain ⟨hpid, htid⟩ := ih x (List.mem_filterMap.mpr hx)
      exact ⟨hpids _ hpid, htids _ htid⟩
    · rw [ha] at hx
      exact hnew x hx

/-! ## The reports -/

/-- How often a work was done, by the process or the thread that `who` gives. -/
def timesDone (who : ℤ × ℤ → ℤ) (w : Work) (k : ℤ) : ℕ :=
  (hits.filterMap (worked target)).countP fun x => x.1 = w ∧ who x.2 = k

/-- The descriptors on which a work was done, each one once. -/
def fdsUsed (who : ℤ × ℤ → ℤ) (w : Work) (k : ℤ) : List ℤ :=
  (((hits.filterMap (accessed target)).filter fun x => x.1 = w ∧ who (x.2.1, x.2.2.1) = k).map
    fun x => x.2.2.2).dedup

theorem val_tally {κ : Type} [DecidableEq κ] (l : List κ) (k : κ) :
    (PyDict.tally l).val k = l.countP (· = k) := by
  have hcount : l.count k = l.countP (· = k) := by
    unfold List.count
    refine List.countP_congr fun x _ => ?_
    simp
  unfold PyDict.val
  rw [PyDict.get?_tally, ← hcount]
  split
  · rfl
  · rename_i hk
    rw [List.count_eq_zero.mpr hk]
    rfl

theorem num_eq (who : ℤ × ℤ → ℤ) (w : Work) (k : ℤ) :
    (PyDict.tally ((hits.filterMap (worked target)).map fun x => (x.1, who x.2))).val (w, k) =
      timesDone target hits who w k := by
  rw [val_tally, List.countP_map]
  refine List.countP_congr fun x _ => ?_
  simp

theorem num_fds_eq_tally (fds : PyDict (Work × ℤ × ℤ) ℕ) :
    num_fds fds = PyDict.tally (fds.keys.map fun x => (x.1, x.2.1)) := by
  unfold num_fds PyDict.tally
  rw [List.foldl_map]

/-- The loop over a table by descriptor finds each one that was used, once. -/
theorem val_num_fds_tally (l : List (Work × ℤ × ℤ)) (w : Work) (k : ℤ) :
    (num_fds (PyDict.tally l)).val (w, k) =
      ((l.filter fun x => x.1 = w ∧ x.2.1 = k).map fun x => x.2.2).dedup.length := by
  have hkeys : (PyDict.tally l).keys.Nodup := (PyDict.tally l).nodup
  rw [num_fds_eq_tally, val_tally, List.countP_map, List.countP_eq_length_filter,
    ← List.length_map fun x : Work × ℤ × ℤ => x.2.2]
  refine List.Perm.length_eq ((List.perm_ext_iff_of_nodup ?_ (List.nodup_dedup _)).mpr ?_)
  · refine (hkeys.filter _).map_on ?_
    rintro ⟨w₁, k₁, fd₁⟩ h₁ ⟨w₂, k₂, fd₂⟩ h₂ rfl
    simp only [List.mem_filter, Function.comp_apply, decide_eq_true_eq, Prod.mk.injEq] at h₁ h₂
    obtain ⟨rfl, rfl⟩ := h₁.2
    obtain ⟨rfl, rfl⟩ := h₂.2
    rfl
  · intro fd
    simp [PyDict.mem_keys_tally]

theorem num_fds_eq (who : ℤ × ℤ → ℤ) (w : Work) (k : ℤ) :
    (num_fds (PyDict.tally ((hits.filterMap (accessed target)).map fun x =>
      (x.1, who (x.2.1, x.2.2.1), x.2.2.2)))).val (w, k) =
      (fdsUsed target hits who w k).length := by
  rw [val_num_fds_tally, List.filter_map, List.map_map]
  rfl

theorem timesDone_pos_iff {who : ℤ × ℤ → ℤ} {w : Work} {k : ℤ} :
    0 < timesDone target hits who w k ↔
      ∃ x ∈ hits.filterMap (worked target), x.1 = w ∧ who x.2 = k := by
  unfold timesDone
  simp only [List.countP_pos_iff, decide_eq_true_eq]

/-- The report of a process or a thread counts its work and the descriptors of the work, and its
type has the bits of the work that was done. -/
def Report.Right (r : Report) (who : ℤ × ℤ → ℤ) (k : ℤ) : Prop :=
  ∀ w, r.num w = timesDone target hits who w k ∧
    r.num_fds w = (fdsUsed target hits who w k).length ∧
    (w ≠ .switched_off → (r.type &&& w.bit ≠ 0 ↔ 0 < r.num w))

theorem get?_mapVal_eq_some {μ : Type} {d : PyDict ℤ ℕ} {f : ℤ → ℕ → μ} {k : ℤ} {r : μ}
    (h : (d.mapVal f).get? k = some r) : r = f k (d.val k) := by
  rw [PyDict.get?_mapVal, Option.map_eq_some_iff] at h
  obtain ⟨v, hv, rfl⟩ := h
  unfold PyDict.val
  rw [hv]
  rfl

/-- After any hits, the report of each process and of each thread is right, and every process and
thread that did some work has one. -/
theorem reports_are_right :
    (∀ pid r, (print_processes (run target hits)).get? pid = some r →
      r.Right target hits Prod.fst pid) ∧
    (∀ tid r, (print_threads (run target hits)).get? tid = some r →
      r.Right target hits Prod.snd tid) ∧
    ∀ x ∈ hits.filterMap (worked target),
      x.2.1 ∈ (print_processes (run target hits)).keys ∧
        x.2.2 ∈ (print_threads (run target hits)).keys := by
  refine ⟨fun pid r hr w => ?_, fun tid r hr w => ?_, fun x hx => ?_⟩
  · have hnum : r.num w = timesDone target hits Prod.fst w pid := by
      rw [get?_mapVal_eq_some hr, ← num_eq, ← process_num_run]
    refine ⟨hnum, ?_, fun hw => ?_⟩
    · rw [get?_mapVal_eq_some hr, ← num_fds_eq, ← process_fds_run]
    · rw [hnum, timesDone_pos_iff, get?_mapVal_eq_some hr, (types_run target hits hw pid).1]
      simp
  · have hnum : r.num w = timesDone target hits Prod.snd w tid := by
      rw [get?_mapVal_eq_some hr, ← num_eq, ← thread_num_run]
    refine ⟨hnum, ?_, fun hw => ?_⟩
    · rw [get?_mapVal_eq_some hr, ← num_fds_eq, ← thread_fds_run]
    · rw [hnum, timesDone_pos_iff, get?_mapVal_eq_some hr, (types_run target hits hw tid).2]
      simp
  · obtain ⟨hpid, htid⟩ := keys_run target hits x hx
    unfold print_processes print_threads
    rw [PyDict.keys_mapVal, PyDict.keys_mapVal]
    exact ⟨hpid, htid⟩

/-- Pairs are counted by their second part, over the second parts that belong to a first one. -/
theorem sum_countP_snd (owner : ℤ → ℤ) {keys : List ℤ} (hkeys : keys.Nodup) (p : ℤ)
    (l : List (ℤ × ℤ)) (hl : ∀ x ∈ l, owner x.2 = x.1 ∧ x.2 ∈ keys) :
    ((keys.filter (owner · = p)).map fun k => l.countP (·.2 = k)).sum = l.countP (·.1 = p) := by
  induction l with
  | nil => simp
  | cons x l ih =>
    rw [List.forall_mem_cons] at hl
    obtain ⟨⟨howner, hmem⟩, hl⟩ := hl
    have hone : ((keys.filter (owner · = p)).map fun k => if x.2 = k then 1 else 0).sum =
        if x.1 = p then 1 else 0 := by
      rw [← List.sum_toFinset _ (hkeys.filter _), Finset.sum_ite_eq]
      simp [hmem, howner]
    simp only [List.countP_cons, decide_eq_true_eq, List.sum_map_add, ih hl, hone]

theorem worked_of_accessed {h : Task × Hit} {w : Work} {pid tid fd : ℤ}
    (hh : accessed target h = some (w, pid, tid, fd)) : worked target h = some (w, pid, tid) := by
  obtain ⟨task, hit⟩ := h
  unfold accessed at hh
  unfold worked
  split_ifs at hh ⊢ with hwatched
  cases hit with
  | io s fd' size offset flags file =>
    simp only [Option.map_eq_some_iff, Prod.mk.injEq] at hh ⊢
    obtain ⟨w', hw', rfl, rfl, rfl, rfl⟩ := hh
    exact ⟨w', hw', rfl, rfl, rfl⟩
  | _ => cases hh

theorem mem_fdsUsed {who : ℤ × ℤ → ℤ} {w : Work} {k fd : ℤ} :
    fd ∈ fdsUsed target hits who w k ↔ ∃ pid tid,
      (w, pid, tid, fd) ∈ hits.filterMap (accessed target) ∧ who (pid, tid) = k := by
  unfold fdsUsed
  simp only [List.mem_dedup, List.mem_map, List.mem_filter, decide_eq_true_eq]
  constructor
  · rintro ⟨⟨w', pid, tid, fd'⟩, ⟨hmem, rfl, hwho⟩, rfl⟩
    exact ⟨pid, tid, hmem, hwho⟩
  · rintro ⟨pid, tid, hmem, hwho⟩
    exact ⟨_, ⟨hmem, rfl, hwho⟩, rfl⟩

variable {owner : ℤ → ℤ}

theorem process_num_adds_up (howner : ∀ x ∈ hits.filterMap (worked target), owner x.2.2 = x.2.1)
    (pid : ℤ) (w : Work) :
    (run target hits).process_num.val (w, pid) =
      (((print_threads (run target hits)).entries.filter fun e => owner e.1 = pid).map
        fun e => e.2.num w).sum := by
  let st := run target hits
  let did := ((hits.filterMap (worked target)).filter fun x => x.1 = w).map fun x => x.2
  have hdone : ∀ who : ℤ × ℤ → ℤ, ∀ k,
      timesDone target hits who w k = did.countP fun x => who x = k := by
    intro who k
    rw [List.countP_map, List.countP_filter]
    refine List.countP_congr fun x _ => ?_
    simp [and_comm]
  have hthreads : ((print_threads st).entries.filter fun e => owner e.1 = pid).map
      (fun e => e.2.num w) =
      (st.tids.keys.filter (owner · = pid)).map fun tid => did.countP (·.2 = tid) := by
    have hnum : ∀ tid, st.thread_num.val (w, tid) = did.countP (·.2 = tid) := by
      intro tid
      rw [thread_num_run, num_eq, hdone]
    simp only [print_threads, PyDict.mapVal, PyDict.keys, List.filter_map, List.map_map,
      Function.comp_def, hnum]
  have hdid : ∀ x ∈ did, owner x.2 = x.1 ∧ x.2 ∈ st.tids.keys := by
    intro x hx
    obtain ⟨y, hy, rfl⟩ := List.mem_map.mp hx
    have hy := (List.mem_filter.mp hy).1
    exact ⟨howner y hy, (keys_run target hits y hy).2⟩
  have hkeys : st.tids.keys.Nodup := st.tids.nodup
  rw [hthreads, sum_countP_snd owner hkeys pid did hdid, process_num_run, num_eq, hdone]

/-- The descriptors of a thread that is printed. -/
theorem num_fds_thread {e : ℤ × Report} (he : e ∈ (print_threads (run target hits)).entries)
    (w : Work) : e.2.num_fds w = (fdsUsed target hits Prod.snd w e.1).length := by
  obtain ⟨x, -, rfl⟩ := List.mem_map.mp he
  change (num_fds (run target hits).thread_fds).val (w, x.1) = _
  rw [thread_fds_run, ← num_fds_eq]

theorem num_fds_process (pid : ℤ) (w : Work) :
    (num_fds (run target hits).process_fds).val (w, pid) =
      (fdsUsed target hits Prod.fst w pid).length := by
  rw [process_fds_run, ← num_fds_eq]

/-- A descriptor of a process is one of a thread of the process. -/
theorem fdsUsed_process_subset (howner : ∀ x ∈ hits.filterMap (worked target), owner x.2.2 = x.2.1)
    (pid : ℤ) (w : Work) :
    fdsUsed target hits Prod.fst w pid ⊆
      ((print_threads (run target hits)).entries.filter fun e => owner e.1 = pid).flatMap
        fun e => fdsUsed target hits Prod.snd w e.1 := by
  intro fd hfd
  obtain ⟨pid', tid, hmem, rfl⟩ := (mem_fdsUsed target hits).mp hfd
  obtain ⟨h, hh, haccessed⟩ := List.mem_filterMap.mp hmem
  have hworked : (w, pid', tid) ∈ hits.filterMap (worked target) :=
    List.mem_filterMap.mpr ⟨h, hh, worked_of_accessed target haccessed⟩
  have hkey : tid ∈ (print_threads (run target hits)).keys := by
    rw [print_threads, PyDict.keys_mapVal]
    exact (keys_run target hits _ hworked).2
  obtain ⟨e, he, rfl⟩ := List.mem_map.mp hkey
  refine List.mem_flatMap.mpr ⟨e, List.mem_filter.mpr ⟨he, ?_⟩, (mem_fdsUsed target hits).mpr ⟨pid', _, hmem, rfl⟩⟩
  exact decide_eq_true (howner _ hworked)

theorem fdsUsed_thread_subset (howner : ∀ x ∈ hits.filterMap (worked target), owner x.2.2 = x.2.1)
    (tid : ℤ) (w : Work) :
    fdsUsed target hits Prod.snd w tid ⊆ fdsUsed target hits Prod.fst w (owner tid) := by
  intro fd hfd
  obtain ⟨pid, tid', hmem, rfl⟩ := (mem_fdsUsed target hits).mp hfd
  obtain ⟨h, hh, haccessed⟩ := List.mem_filterMap.mp hmem
  have howns := howner _ (List.mem_filterMap.mpr ⟨h, hh, worked_of_accessed target haccessed⟩)
  exact (mem_fdsUsed target hits).mpr ⟨pid, tid', hmem, howns.symm⟩

/-- A count of a process is the sum of that of its threads, as far as each thread belongs to one
process. The threads may share descriptors, so a process has as many of these as each thread at
least, and as all its threads together at most. -/
theorem process_counters_add_up (owner : ℤ → ℤ)
    (howner : ∀ x ∈ hits.filterMap (worked target), owner x.2.2 = x.2.1) (pid : ℤ) (w : Work) :
    let threads := (print_threads (run target hits)).entries.filter fun e => owner e.1 = pid
    (run target hits).process_num.val (w, pid) = (threads.map fun e => e.2.num w).sum ∧
      (num_fds (run target hits).process_fds).val (w, pid) ≤
        (threads.map fun e => e.2.num_fds w).sum ∧
      ∀ e ∈ threads, e.2.num_fds w ≤ (num_fds (run target hits).process_fds).val (w, pid) := by
  intro threads
  have hfds : ∀ e ∈ threads, e.2.num_fds w = (fdsUsed target hits Prod.snd w e.1).length :=
    fun e he => num_fds_thread target hits (List.mem_of_mem_filter he) w
  rw [num_fds_process]
  refine ⟨process_num_adds_up target hits howner pid w, ?_, ?_⟩
  · rw [List.map_congr_left hfds, ← List.length_flatMap]
    exact ((List.nodup_dedup _).subperm (fdsUsed_process_subset target hits howner pid w)).length_le
  · intro e he
    obtain rfl : owner e.1 = pid := of_decide_eq_true (List.mem_filter.mp he).2
    rw [hfds e he]
    exact ((List.nodup_dedup _).subperm (fdsUsed_thread_subset target hits howner e.1 w)).length_le

end Runs

/-- Two threads of a process read from one client, and the second one from another client too. A
third thread is in a process that is not watched. -/
def sampleHits : List (Task × Hit) :=
  let socket : File := ⟨.sock, "O_NONBLOCK".toList, [], 2⟩
  [(⟨1, 8, 0⟩, .epoll_wait), (⟨1, 8, 0⟩, .io .recv 5 0 64 [] socket),
    (⟨1, 9, 0⟩, .io .read 5 0 64 [] socket), (⟨1, 9, 0⟩, .io .read 7 0 64 [] socket),
    (⟨3, 3, 2⟩, .io .recv 5 0 64 [] socket), (⟨1, 9, 0⟩, .ctxswitch 1 9)]

/-- The process has three reads on two descriptors, and its threads have one and two of each. -/
theorem process_of_two_threads_adds_up :
    let threads := (print_threads (run 1 sampleHits)).entries.filter fun _ => (1 : ℤ) = 1
    threads.map (fun e => (e.2.num .tcp_recv, e.2.num_fds .tcp_recv)) = [(1, 1), (2, 2)] ∧
      (num_fds (run 1 sampleHits).process_fds).val (.tcp_recv, 1) = 2 ∧
      (run 1 sampleHits).process_num.val (.tcp_recv, 1) =
        (threads.map fun e => e.2.num .tcp_recv).sum :=
  ⟨by decide, by decide,
    (process_counters_add_up 1 sampleHits (fun _ => 1) (by decide) 1 .tcp_recv).1⟩

end ditto.threads_stp
