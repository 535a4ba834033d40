-- What the probes report of descriptors and of system calls. A descriptor is
-- known by its number, and its entry is put together from the first and the
-- last call on this number. The trace of the calls has each call once, so the
-- statistics that are made from its text are those of the calls.
import Ditto.Probes

open ditto.analyze_syscall PyText

namespace ditto.threads_stp

/-! ## One step -/

/-- The call at a hit, when it is on this descriptor. -/
def callOn (target : ℤ) (key : FdKey) (h : Task × Hit) : Option (Syscall × File) :=
  if h.1.watched target then
    match h.2 with
    | .io s fd _ _ _ file => if (h.1.pid, h.1.tid, fd) = key then some (s, file) else none
    | _ => none
  else none

/-- The kernel function that is called at a hit. -/
def callAt (target : ℤ) (h : Task × Hit) : Option (ℤ × ℤ × List Char) :=
  if h.1.watched target then
    match h.2 with
    | .syscall ppfunc => some (h.1.pid, h.1.tid, ppfunc)
    | _ => none
  else none

/-- The event of a call at a hit. -/
def eventAt (target : ℤ) (s : Syscall) (h : Task × Hit) : Option Event :=
  if h.1.watched target then
    match h.2 with
    | .io s' fd offset count iov file =>
      if s' = s then some (eventOf h.1 s fd offset count iov file) else none
    | _ => none
  else none

/-- The tables by descriptor and those of the calls are the same. -/
structure SameCalls (st st' : State) : Prop where
  fds : st'.fds = st.fds
  mode : st'.fds_mode = st.fds_mode
  flag : st'.fds_flag = st.fds_flag
  socket_opt : st'.fds_socket_opt = st.fds_socket_opt
  socket_fam : st'.fds_socket_fam = st.fds_socket_fam
  sys_index : st'.sys_index = st.sys_index
  sys_events : st'.sys_events = st.sys_events
  syscall_cnt : st'.syscall_cnt = st.syscall_cnt

/-- What the probe at a hit does to the tables by descriptor and to those of the calls. -/
inductive CallStep (target : ℤ) (st : State) (h : Task × Hit) (st' : State) : Prop
  | none (hon : ∀ key, callOn target key h = none) (hcall : callAt target h = none)
      (hevent : ∀ s, eventAt target s h = none) (same : SameCalls st st')
  | io {s : Syscall} {fd offset count : ℤ} {iov : List ℤ} {file : File}
      (hon : ∀ key, callOn target key h =
        if (h.1.pid, h.1.tid, fd) = key then some (s, file) else none)
      (hcall : callAt target h = none)
      (hevent : ∀ s', eventAt target s' h =
        if s = s' then some (eventOf h.1 s fd offset count iov file) else none)
      (hst : st' = probe_io st h.1 s fd offset count iov file)
  | call {x : ℤ × ℤ × List Char} (hon : ∀ key, callOn target key h = none)
      (hcall : callAt target h = some x) (hevent : ∀ s, eventAt target s h = none)
      (hst : st' = { st with syscall_cnt := st.syscall_cnt.add x 1 })

theorem callStep_probe (target : ℤ) (st : State) (h : Task × Hit) :
    CallStep target st h (probe target st h) := by
  obtain ⟨task, hit⟩ := h
  by_cases hwatched : task.watched target = true
  · simp only [probe, hwatched, if_true]
    cases hit with
    | io s fd offset count iov file =>
      refine .io (by simp [callOn, hwatched]) (by simp [callAt]) (fun s' => ?_) rfl
      simp only [eventAt, hwatched, if_true]
      split
      · rename_i hs
        rw [hs]
      · rfl
    | syscall ppfunc =>
      exact .call (by simp [callOn]) (by simp [callAt, hwatched]) (by simp [eventAt]) rfl
    | accept retval =>
      refine .none (by simp [callOn]) (by simp [callAt]) (by simp [eventAt]) ?_
      simp only [probe_accept]
      split <;> exact ⟨rfl, rfl, rfl, rfl, rfl, rfl, rfl, rfl⟩
    | epoll_ctl op epfd fd events =>
      refine .none (by simp [callOn]) (by simp [callAt]) (by simp [eventAt]) ?_
      simp only [probe_epoll_ctl]
      split <;> exact ⟨rfl, rfl, rfl, rfl, rfl, rfl, rfl, rfl⟩
    | clone_return ret =>
      refine .none (by simp [callOn]) (by simp [callAt]) (by simp [eventAt]) ?_
      simp only [probe_clone_return]
      split <;> exact ⟨rfl, rfl, rfl, rfl, rfl, rfl, rfl, rfl⟩
    | ctxswitch prev_pid prev_tid =>
      refine .none (by simp [callOn]) (by simp [callAt]) (by simp [eventAt]) ?_
      simp only [probe_ctxswitch]
      split
      · split <;> split <;> exact ⟨rfl, rfl, rfl, rfl, rfl, rfl, rfl, rfl⟩
      · exact ⟨rfl, rfl, rfl, rfl, rfl, rfl, rfl, rfl⟩
    | _ =>
      exact .none (by simp [callOn]) (by simp [callAt]) (by simp [eventAt])
        ⟨rfl, rfl, rfl, rfl, rfl, rfl, rfl, rfl⟩
  · simp only [probe, hwatched]
    exact .none (by simp [callOn, hwatched]) (by simp [callAt, hwatched])
      (by simp [eventAt, hwatched]) ⟨rfl, rfl, rfl, rfl, rfl, rfl, rfl, rfl⟩

/-- A list of what each hit gives is one longer or the same after a hit. -/
theorem filterMap_concat {α β : Type} (f : α → Option β) (l : List α) (a : α) :
    (l ++ [a]).filterMap f = l.filterMap f ++ (f a).toList := by
  rw [List.filterMap_append]
  cases hfa : f a <;> simp [hfa]

/-! ## Descriptors -/

inductive SocketFamily
  | unix | inet | inet6
deriving DecidableEq

/-- The families that `print_fds` has names for. -/
def SocketFamily.ofNumber (fam : ℤ) : Option SocketFamily :=
  if fam = 1 then some .unix else if fam = 2 then some .inet else if fam = 10 then some .inet6
  else none

/-- The entry of a descriptor. Only a socket has options and a family. -/
structure FdReport where
  mode : Mode
  flag : List Char
  socket : Option (List Char × Option SocketFamily)
deriving DecidableEq

def print_fds (st : State) : PyDict FdKey FdReport :=
  st.fds.mapVal fun key _ =>
    let mode := (st.fds_mode.get? key).getD .none
    { mode
      flag := (st.fds_flag.get? key).getD []
      socket :=
        if mode = .sock then
          some ((st.fds_socket_opt.get? key).getD [],
            SocketFamily.ofNumber ((st.fds_socket_fam.get? key).getD 0))
        else none }

def calls (target : ℤ) (key : FdKey) (hits : List (Task × Hit)) : List (Syscall × File) :=
  hits.filterMap (callOn target key)

/-- The call is taken for one on a file or a socket. -/
def handled (c : Syscall × File) : Bool := (ioWork c.1 c.2.mode).isSome

/-- The call is taken for one on a socket. -/
def onSocket (c : Syscall × File) : Bool :=
  match c.1.family with
  | .typed => c.2.mode = .sock
  | .offset => false
  | .plain => true

/-- The entry that the calls on a descriptor give: the mode of the last call, the flags of the
first call on a file or a socket, and the options and family of the first call on a socket. -/
def entryOf (cs : List (Syscall × File)) (last : Syscall × File) : FdReport where
  mode := last.2.mode
  flag := ((cs.find? handled).map (·.2.flags)).getD []
  socket :=
    if last.2.mode = .sock then
      some (((cs.find? onSocket).map (·.2.socket_opt)).getD [],
        SocketFamily.ofNumber (((cs.find? onSocket).map (·.2.socket_fam)).getD 0))
    else none

theorem get?_setFirst {κ ν : Type} [DecidableEq κ] (d : PyDict κ ν) (k x : κ) (v : ν) :
    (setFirst d k v).get? x = (d.get? x).or (if k = x then some v else none) := by
  unfold setFirst
  by_cases hx : k = x
  · subst hx
    by_cases hk : k ∈ d.keys
    · obtain ⟨u, hu⟩ := PyDict.exists_get?_of_mem_keys hk
      simp [hk, hu]
    · simp [hk, PyDict.get?_eq_none_iff.mpr hk]
  · rw [if_neg hx, Option.or_none]
    split
    · rfl
    · exact PyDict.get?_set_of_ne d v (Ne.symm hx)

/-- What is known of a descriptor. -/
structure Known (st : State) (key : FdKey) (cs : List (Syscall × File)) : Prop where
  fds : st.fds.get? key = cs.getLast?.map fun _ => 1
  mode : st.fds_mode.get? key = cs.getLast?.map (·.2.mode)
  flag : st.fds_flag.get? key = (cs.find? handled).map (·.2.flags)
  socket_opt : st.fds_socket_opt.get? key = (cs.find? onSocket).map (·.2.socket_opt)
  socket_fam : st.fds_socket_fam.get? key = (cs.find? onSocket).map (·.2.socket_fam)

section Descriptors

variable {target : ℤ} {st st' : State} {key : FdKey} {cs : List (Syscall × File)}

theorem known_start : Known {} key [] := ⟨rfl, rfl, rfl, rfl, rfl⟩

theorem Known.same (h : Known st key cs) (same : SameCalls st st') : Known st' key cs :=
  ⟨same.fds ▸ h.fds, same.mode ▸ h.mode, same.flag ▸ h.flag, same.socket_opt ▸ h.socket_opt,
    same.socket_fam ▸ h.socket_fam⟩

/-- What a call does to the tables by descriptor. -/
structure DescriptorStep (st : State) (key : FdKey) (c : Syscall × File) (st' : State) : Prop where
  fds : st'.fds = st.fds.set key 1
  mode : st'.fds_mode = st.fds_mode.set key c.2.mode
  flag : st'.fds_flag = if handled c then setFirst st.fds_flag key c.2.flags else st.fds_flag
  socket_opt : st'.fds_socket_opt =
    if onSocket c then setFirst st.fds_socket_opt key c.2.socket_opt else st.fds_socket_opt
  socket_fam : st'.fds_socket_fam =
    if onSocket c then setFirst st.fds_socket_fam key c.2.socket_fam else st.fds_socket_fam

theorem descriptorStep_file {task : Task} {s : Syscall} {fd : ℤ} {file : File} (e : Event)
    (hhandled : handled (s, file) = true) (hsocket : onSocket (s, file) = false) (d : Direction) :
    DescriptorStep st (task.pid, task.tid, fd) (s, file)
      (((st.record s e).see task fd file).handle_file_fd task fd file d) := by
  cases d <;>
    exact ⟨rfl, rfl, by rw [hhandled]; rfl, by rw [hsocket]; rfl, by rw [hsocket]; rfl⟩

theorem descriptorStep_socket {task : Task} {s : Syscall} {fd : ℤ} {file : File} (e : Event)
    (hhandled : handled (s, file) = true) (hsocket : onSocket (s, file) = true) (d : Direction) :
    DescriptorStep st (task.pid, task.tid, fd) (s, file)
      (((st.record s e).see task fd file).handle_socket_fd task fd file d) := by
  cases d <;>
    exact ⟨rfl, rfl, by rw [hhandled]; rfl, by rw [hsocket]; rfl, by rw [hsocket]; rfl⟩

theorem descriptorStep_probe_io (st : State) (task : Task) (s : Syscall) (fd offset count : ℤ)
    (iov : List ℤ) (file : File) :
    DescriptorStep st (task.pid, task.tid, fd) (s, file)
      (probe_io st task s fd offset count iov file) := by
  unfold probe_io
  cases hfamily : s.family with
  | typed =>
    cases hmode : file.mode with
    | reg =>
      exact descriptorStep_file _ (by simp [handled, ioWork, hfamily, hmode, Mode.type])
        (by simp [onSocket, hfamily, hmode]) _
    | sock =>
      exact descriptorStep_socket _ (by simp [handled, ioWork, hfamily, hmode, Mode.type])
        (by simp [onSocket, hfamily, hmode]) _
    | _ =>
      have hhandled : handled (s, file) = false := by simp [handled, ioWork, hfamily, hmode, Mode.type]
      have hsocket : onSocket (s, file) = false := by simp [onSocket, hfamily, hmode]
      exact ⟨rfl, rfl, by rw [hhandled]; rfl, by rw [hsocket]; rfl, by rw [hsocket]; rfl⟩
  | offset =>
    exact descriptorStep_file _ (by simp [handled, ioWork, hfamily]) (by simp [onSocket, hfamily]) _
  | plain =>
    exact descriptorStep_socket _ (by simp [handled, ioWork, hfamily]) (by simp [onSocket, hfamily]) _

/-- A call on the descriptor. -/
theorem Known.call (h : Known st key cs) {c : Syscall × File} (hstep : DescriptorStep st key c st') :
    Known st' key (cs ++ [c]) := by
  refine ⟨?_, ?_, ?_, ?_, ?_⟩
  · rw [hstep.fds]
    simp
  · rw [hstep.mode]
    simp
  · rw [hstep.flag, List.find?_append, Option.map_or, ← h.flag]
    by_cases hc : handled c = true
    · simp [hc, get?_setFirst]
    · simp [hc]
  · rw [hstep.socket_opt, List.find?_append, Option.map_or, ← h.socket_opt]
    by_cases hc : onSocket c = true
    · simp [hc, get?_setFirst]
    · simp [hc]
  · rw [hstep.socket_fam, List.find?_append, Option.map_or, ← h.socket_fam]
    by_cases hc : onSocket c = true
    · simp [hc, get?_setFirst]
    · simp [hc]

/-- A call on another descriptor. -/
theorem Known.other (h : Known st key cs) {key' : FdKey} (hkey : key' ≠ key) {c : Syscall × File}
    (hstep : DescriptorStep st key' c st') : Known st' key cs := by
  refine ⟨?_, ?_, ?_, ?_, ?_⟩
  · rw [hstep.fds, PyDict.get?_set_of_ne _ _ (Ne.symm hkey), h.fds]
  · rw [hstep.mode, PyDict.get?_set_of_ne _ _ (Ne.symm hkey), h.mode]
  · rw [hstep.flag, ← h.flag]
    split <;> simp [get?_setFirst, hkey]
  · rw [hstep.socket_opt, ← h.socket_opt]
    split <;> simp [get?_setFirst, hkey]
  · rw [hstep.socket_fam, ← h.socket_fam]
    split <;> simp [get?_setFirst, hkey]

theorem Known.probe (h : Known st key cs) (hit : Task × Hit) :
    Known (probe target st hit) key (cs ++ (callOn target key hit).toList) := by
  cases callStep_probe target st hit with
  | none hon hcall hevent same =>
    rw [hon, Option.toList_none, List.append_nil]
    exact h.same same
  | call hon hcall hevent hst =>
    rw [hon, hst, Option.toList_none, List.append_nil]
    exact ⟨h.fds, h.mode, h.flag, h.socket_opt, h.socket_fam⟩
  | @io s fd offset count iov file hon hcall hevent hst =>
    have hstep := descriptorStep_probe_io st hit.1 s fd offset count iov file
    rw [hon, hst]
    by_cases hkey : (hit.1.pid, hit.1.tid, fd) = key
    · rw [if_pos hkey]
      rw [hkey] at hstep
      exact h.call hstep
    · rw [if_neg hkey, Option.toList_none, List.append_nil]
      exact h.other hkey hstep

theorem known_run (target : ℤ) (key : FdKey) (hits : List (Task × Hit)) :
    Known (run target hits) key (calls target key hits) := by
  unfold run calls
  induction hits using List.reverseRecOn with
  | nil => exact known_start
  | append_singleton hits h ih =>
    rw [List.foldl_append, filterMap_concat]
    exact ih.probe h

/-- After any hits, the entry of a descriptor has its mode from the last call on the number and
its flags, its options and its family from the first one. -/
theorem fds_mix_first_and_last (target : ℤ) (hits : List (Task × Hit)) (key : FdKey) :
    (print_fds (run target hits)).get? key =
      (calls target key hits).getLast?.map (entryOf (calls target key hits)) := by
  have hknown := known_run target key hits
  unfold print_fds entryOf
  rw [PyDict.get?_mapVal, hknown.fds, hknown.mode, hknown.flag, hknown.socket_opt, hknown.socket_fam]
  cases (calls target key hits).getLast? with
  | none => rfl
  | some last => rfl

-- a number that is used for a file first and then for a socket keeps the flags of the file
example : (print_fds (run 1
    [(⟨1, 8, 0⟩, .io .read 5 0 16 [] ⟨.reg, "O_RDONLY".toList, [], 0⟩),
      (⟨1, 8, 0⟩, .io .read 5 0 64 [] ⟨.sock, "O_NONBLOCK".toList, [], 2⟩)])).get? (1, 8, 5) =
    some ⟨.sock, "O_RDONLY".toList, some ([], some .inet)⟩ := by decide

end Descriptors

/-! ## The trace of the calls -/

section Calls

variable {target : ℤ} {st : State} {h : Task × Hit}

/-- A call is recorded, whatever its descriptor is. -/
theorem sys_probe_io (st : State) (task : Task) (s : Syscall) (fd offset count : ℤ)
    (iov : List ℤ) (file : File) :
    let recorded := st.record s (eventOf task s fd offset count iov file)
    let after := probe_io st task s fd offset count iov file
    after.sys_index = recorded.sys_index ∧ after.sys_events = recorded.sys_events ∧
      after.syscall_cnt = st.syscall_cnt := by
  dsimp only
  unfold probe_io
  cases s.family with
  | typed =>
    cases file.mode with
    | reg | sock => cases Syscall.direction s <;> exact ⟨rfl, rfl, rfl⟩
    | _ => exact ⟨rfl, rfl, rfl⟩
  | offset | plain => cases Syscall.direction s <;> exact ⟨rfl, rfl, rfl⟩

theorem syscall_cnt_probe : (probe target st h).syscall_cnt =
    (callAt target h).elim st.syscall_cnt (fun x => st.syscall_cnt.add x 1) := by
  cases callStep_probe target st h with
  | none hon hcall hevent same =>
    rw [hcall]
    exact same.syscall_cnt
  | io hon hcall hevent hst =>
    rw [hcall, hst]
    exact (sys_probe_io _ _ _ _ _ _ _ _).2.2
  | call hon hcall hevent hst =>
    rw [hcall, hst]
    rfl

theorem syscall_cnt_run (target : ℤ) (hits : List (Task × Hit)) :
    (run target hits).syscall_cnt = PyDict.tally (hits.filterMap (callAt target)) := by
  have htable := table_run State.syscall_cnt (callAt target) id rfl
    (fun _ _ => syscall_cnt_probe) hits
  rwa [List.map_id] at htable

/-- The events of a call so far, each under a number of its own. -/
structure Numbered (st : State) (s : Syscall) (events : List Event) : Prop where
  values : (st.sys_events s).values = events
  number : ∀ k ∈ (st.sys_events s).keys, k.2.2 ≤ st.sys_index s

variable {events : List Event}

theorem Numbered.record {s s' : Syscall} (hs : Numbered st s events) (e : Event) :
    Numbered (st.record s' e) s (events ++ (if s' = s then some e else none).toList) := by
  by_cases hcall : s' = s
  · subst hcall
    have hnew : (e.pid, e.tid, st.sys_index s' + 1) ∉ (st.sys_events s').keys := by
      intro hmem
      have hle := hs.number _ hmem
      simp at hle
    refine ⟨?_, fun k hk => ?_⟩
    · simp only [State.record, Function.update_self, PyDict.values, PyDict.entries_set_new e hnew,
        List.map_append]
      rw [← hs.values]
      simp [PyDict.values]
    · simp only [State.record, Function.update_self, PyDict.mem_keys_set] at hk ⊢
      rcases hk with rfl | hk
      · exact le_rfl
      · exact (hs.number k hk).trans (Nat.le_succ _)
  · simp only [if_neg hcall, Option.toList_none, List.append_nil]
    refine ⟨?_, ?_⟩
    · simpa only [State.record, Function.update_of_ne (Ne.symm hcall)] using hs.values
    · simpa only [State.record, Function.update_of_ne (Ne.symm hcall)] using hs.number

theorem Numbered.congr {st' : State} {s : Syscall} (hs : Numbered st s events)
    (hindex : st'.sys_index = st.sys_index) (hevents : st'.sys_events = st.sys_events) :
    Numbered st' s events :=
  ⟨hevents ▸ hs.values, hevents ▸ hindex ▸ hs.number⟩

theorem Numbered.probe {s : Syscall} (hs : Numbered st s events) (h : Task × Hit) :
    Numbered (probe target st h) s (events ++ (eventAt target s h).toList) := by
  cases callStep_probe target st h with
  | none hon hcall hevent same =>
    rw [hevent, Option.toList_none, List.append_nil]
    exact hs.congr same.sys_index same.sys_events
  | call hon hcall hevent hst =>
    rw [hevent, hst, Option.toList_none, List.append_nil]
    exact hs.congr rfl rfl
  | @io s' fd offset count iov file hon hcall hevent hst =>
    obtain ⟨hindex, hevents, -⟩ := sys_probe_io st h.1 s' fd offset count iov file
    rw [hevent, hst]
    exact (hs.record _).congr hindex hevents

theorem sys_events_run (target : ℤ) (s : Syscall) (hits : List (Task × Hit)) :
    ((run target hits).sys_events s).values = hits.filterMap (eventAt target s) := by
  suffices hnumbered : Numbered (run target hits) s (hits.filterMap (eventAt target s)) from
    hnumbered.values
  unfold run
  induction hits using List.reverseRecOn with
  | nil => exact ⟨rfl, fun k hk => nomatch hk⟩
  | append_singleton hits h ih =>
    rw [List.foldl_append, filterMap_concat]
    exact ih.probe h

end Calls

/-! ## The statistics of the calls -/

/-- The key that `print_syscall` prints. -/
def printKey (x : ℤ × ℤ × List Char) : List Char := ofInt x.1 ++ ',' :: ofInt x.2.1 ++ ',' :: x.2.2

def print_syscall (st : State) : PyDict (List Char) ℤ :=
  .setAll .empty (st.syscall_cnt.entries.map fun e => (printKey e.1, (e.2 : ℤ)))

/-- The calls with a list in the output. -/
def traced_syscalls : List Syscall :=
  [.read, .readv, .pread, .preadv, .recv, .recvfrom, .recvmsg, .write, .writev, .pwrite, .pwritev,
    .send, .sendto, .sendmsg]

/-- The output of the probes as it is read for the analysis, with the requests of the run. -/
def trace (st : State) (reqs : ℤ) : Trace where
  syscall := print_syscall st
  reqs := reqs
  events := .setAll .empty (traced_syscalls.map fun s => (s, (st.sys_events s).values.map s.print))

/-- How often related threads call a system call, by the names of the kernel functions. -/
def timesCalled (target : ℤ) (hits : List (Task × Hit)) (related_tids : List ℤ) (s : Candidate) :
    ℕ :=
  (hits.filterMap (callAt target)).countP fun x =>
    x.2.1 ∈ related_tids ∧ syscall_name x.2.2 = s.name.toList

/-- The events of a call by related threads. -/
def eventsOf (target : ℤ) (hits : List (Task × Hit)) (related_tids : List ℤ) :
    Candidate → List Event
  | .traced s => (hits.filterMap (eventAt target s)).filter fun e => e.tid ∈ related_tids
  | _ => []

def eventsOfType (target : ℤ) (hits : List (Task × Hit)) (related_tids : List ℤ) (s : Candidate)
    (type : FdType) : List Event :=
  (eventsOf target hits related_tids s).filter fun e => e.type = type

/-- What stands in the place of the offset: with several buffers it is the last length. -/
def offsetField (s : Candidate) (e : Event) : ℤ :=
  match s with
  | .traced s => if Syscall.vector s then e.last_length else e.offset
  | _ => 0

/-- The statistics of a call say what its hits say. -/
def Statistics (target : ℤ) (hits : List (Task × Hit)) (related_tids : List ℤ) (reqs : ℤ)
    (s : Candidate) : Info → Prop
  | .typed file socket =>
    let files := eventsOfType target hits related_tids s .file
    let sockets := eventsOfType target hits related_tids s .socket
    s.family = .typed ∧
      (file.freq * reqs = files.length ∧ Holds file.count (files.map Event.count)) ∧
      socket.freq * reqs = sockets.length ∧ Holds socket.count (sockets.map Event.count)
  | .plain stats => s.family = .plain ∧
    stats.freq * reqs = timesCalled target hits related_tids s ∧
    Holds stats.count ((eventsOf target hits related_tids s).map Event.count)
  | .offset stats offset => s.family = .offset ∧
    stats.freq * reqs = timesCalled target hits related_tids s ∧
    Holds stats.count ((eventsOf target hits related_tids s).map Event.count) ∧
    Holds offset ((eventsOf target hits related_tids s).map (offsetField s))

section Text

/-- A key is split at its two commas. -/
theorem splitOn_printKey {x : ℤ × ℤ × List Char} (h : ',' ∉ x.2.2) :
    (printKey x).splitOn ',' = [ofInt x.1, ofInt x.2.1, x.2.2] := by
  unfold printKey
  rw [List.append_assoc, List.cons_append, splitOn_append (plain_ofInt x.1).1,
    splitOn_append (plain_ofInt x.2.1).1, splitOn_of_not_mem h]

theorem thread_of_printKey {x : ℤ × ℤ × List Char} (h : ',' ∉ x.2.2) :
    thread_of (printKey x) = .ok x.2.1 := by
  unfold thread_of
  rw [splitOn_printKey h]
  exact int_ofInt x.2.1

theorem func_of_printKey {x : ℤ × ℤ × List Char} (h : ',' ∉ x.2.2) :
    func_of (printKey x) = x.2.2 := by
  unfold func_of
  rw [splitOn_printKey h]
  rfl

theorem ofInt_injective {m n : ℤ} (h : ofInt m = ofInt n) : m = n := by
  have hint := int_ofInt m
  rw [h, int_ofInt] at hint
  cases hint
  rfl

theorem printKey_injective {x y : ℤ × ℤ × List Char} (hx : ',' ∉ x.2.2) (hy : ',' ∉ y.2.2)
    (h : printKey x = printKey y) : x = y := by
  have hsplit := splitOn_printKey hx
  rw [h, splitOn_printKey hy] at hsplit
  simp only [List.cons.injEq, and_true] at hsplit
  obtain ⟨hpid, htid, hfunc⟩ := hsplit
  exact Prod.ext (ofInt_injective hpid).symm (Prod.ext (ofInt_injective htid).symm hfunc.symm)

variable {related_tids : List ℤ}

theorem typed_event_print {s : Syscall} (h : s.family = .typed) (e : Event) :
    typed_event related_tids (s.print e) = .ok (if e.type = .other then none
      else if e.tid ∈ related_tids then some (e.type.text, e.count) else none) := by
  have hfields := typed_fields_print h e
  obtain ⟨tid_text, htid_text, hfields⟩ := PyError.ok_of_bind hfields
  obtain ⟨tid, htid, hfields⟩ := PyError.ok_of_bind hfields
  obtain ⟨last, hlast, hfields⟩ := PyError.ok_of_bind hfields
  obtain ⟨type_text, htype_text, hfields⟩ := PyError.ok_of_bind hfields
  obtain ⟨count_text, hcount_text, hfields⟩ := PyError.ok_of_bind hfields
  obtain ⟨count, hcount, hfields⟩ := PyError.ok_of_bind hfields
  cases hfields
  simp only [typed_event, htid_text, htid, hlast, htype_text, hcount_text, hcount, bind, Except.bind]
  cases e.type <;> rfl

theorem plain_event_print {s : Syscall} (h : s.family = .plain) (e : Event) :
    plain_event related_tids (s.print e) =
      .ok (if e.tid ∈ related_tids then some e.count else none) := by
  unfold plain_event
  rw [count_fields_print h]
  rfl

theorem offset_event_print {s : Syscall} (h : s.family = .offset) (e : Event) :
    offset_event related_tids (s.print e) =
      .ok (if e.tid ∈ related_tids then some (e.count, offsetField (.traced s) e) else none) := by
  have hfields : offset_fields (s.print e) =
      .ok ⟨e.tid, e.count, none, some (offsetField (.traced s) e)⟩ := by
    cases s with
    | pread | pwrite => exact offset_fields_offset e
    | preadv | pwritev => exact offset_fields_offset_vector e
    | _ => cases h
  obtain ⟨tid_text, htid_text, hfields⟩ := PyError.ok_of_bind hfields
  obtain ⟨tid, htid, hfields⟩ := PyError.ok_of_bind hfields
  obtain ⟨offset_text, hoffset_text, hfields⟩ := PyError.ok_of_bind hfields
  obtain ⟨offset, hoffset, hfields⟩ := PyError.ok_of_bind hfields
  obtain ⟨count_text, hcount_text, hfields⟩ := PyError.ok_of_bind hfields
  obtain ⟨count, hcount, hfields⟩ := PyError.ok_of_bind hfields
  cases hfields
  simp only [offset_event, htid_text, htid, hoffset_text, hoffset, hcount_text, hcount, bind,
    Except.bind]
  rfl

/-- The events that a reader finds in the printed lines. -/
theorem occurrences_print {α : Type} {event : List Char → Except PyError (Option α)}
    {print : Event → List Char} {f : Event → Option α} (h : ∀ e, event (print e) = .ok (f e))
    (events : List Event) : occurrences event (events.map print) = events.filterMap f := by
  unfold occurrences
  rw [List.filterMap_map]
  refine List.filterMap_congr fun e _ => ?_
  simp only [Function.comp_apply, h]
  cases f e <;> rfl

end Text

section Law

variable (target : ℤ) (hits : List (Task × Hit)) (related_tids : List ℤ) (reqs : ℤ)

/-- The sum of the entries of a tally with a property is the number of things with it. -/
theorem sum_tally_entries {κ : Type} [DecidableEq κ] (l : List κ) (p : κ → Prop) [DecidablePred p] :
    ((PyDict.tally l).entries.filterMap fun e => if p e.1 then some (e.2 : ℤ) else none).sum =
      l.countP (p ·) := by
  have htotal : ((PyDict.tally l).filter fun k _ => decide (p k)).total = l.countP (p ·) := by
    have hval : ∀ k, ((PyDict.tally l).filter fun k _ => decide (p k)).val k =
        (PyDict.tally (l.filter (p ·))).val k := by
      intro k
      rw [PyDict.val_filter, val_tally, val_tally, List.countP_filter]
      by_cases hk : p k
      · rw [if_pos (by simpa using hk)]
        refine List.countP_congr fun x _ => ?_
        simp only [decide_eq_true_eq, Bool.and_eq_true]
        constructor
        · rintro rfl
          exact ⟨rfl, hk⟩
        · exact And.left
      · rw [if_neg (by simpa using hk), eq_comm, List.countP_eq_zero]
        intro x _
        simp only [decide_eq_true_eq, Bool.and_eq_true, not_and]
        rintro rfl
        exact hk
    rw [PyDict.total_congr hval, PyDict.total_tally, List.countP_eq_length_filter]
  rw [← htotal]
  unfold PyDict.total PyDict.values PyDict.filter
  dsimp only
  induction (PyDict.tally l).entries with
  | nil => rfl
  | cons e es ih => by_cases he : p e.1 <;> simp [he, ih]

theorem entries_print_syscall (hfunc : ∀ x ∈ hits.filterMap (callAt target), ',' ∉ x.2.2) :
    (print_syscall (run target hits)).entries =
      (PyDict.tally (hits.filterMap (callAt target))).entries.map
        fun e => (printKey e.1, (e.2 : ℤ)) := by
  set tally := PyDict.tally (hits.filterMap (callAt target)) with htally
  have hnodup : ((tally.entries.map fun e => (printKey e.1, (e.2 : ℤ))).map Prod.fst).Nodup := by
    have hkeys : (tally.keys.map printKey).Nodup := by
      refine List.Nodup.map_on ?_ tally.nodup
      intro x hx y hy hxy
      exact printKey_injective (hfunc x (PyDict.mem_keys_tally.mp hx))
        (hfunc y (PyDict.mem_keys_tally.mp hy)) hxy
    simpa only [PyDict.keys, List.map_map, Function.comp_def] using hkeys
  unfold print_syscall
  rw [syscall_cnt_run, ← htally, PyDict.entries_setAll (by simpa using hnodup)]
  rfl

/-- The entries of related threads for a call. -/
theorem calls_of_trace (hfunc : ∀ x ∈ hits.filterMap (callAt target), ',' ∉ x.2.2)
    (s : Candidate) :
    calls_of related_tids (trace (run target hits) reqs).syscall.entries s =
      (PyDict.tally (hits.filterMap (callAt target))).entries.filterMap fun e =>
        if e.1.2.1 ∈ related_tids ∧ syscall_name e.1.2.2 = s.name.toList then some (e.2 : ℤ)
        else none := by
  unfold calls_of
  rw [trace, entries_print_syscall target hits hfunc, List.filterMap_map]
  refine List.filterMap_congr fun e he => ?_
  have hcomma : ',' ∉ e.1.2.2 :=
    hfunc e.1 (PyDict.mem_keys_tally.mp (List.mem_map_of_mem he))
  simp only [Function.comp_apply, related_name, thread_of_printKey hcomma, func_of_printKey hcomma]
  by_cases htid : e.1.2.1 ∈ related_tids <;> simp [htid]

theorem get?_events_trace (s : Syscall) : (trace (run target hits) reqs).events.get? s =
    some ((hits.filterMap (eventAt target s)).map s.print) := by
  rw [← sys_events_run]
  unfold trace
  have hnodup : traced_syscalls.Nodup := by decide
  have hmem : s ∈ traced_syscalls := by cases s <;> decide
  rw [PyDict.get?_eq_some_iff, PyDict.entries_setAll (by simpa [Function.comp_def] using hnodup)]
  simpa using hmem

theorem traced_trace (hreqs : reqs ≠ 0)
    (hfunc : ∀ x ∈ hits.filterMap (callAt target), ',' ∉ x.2.2) :
    Traced (trace (run target hits) reqs) := by
  refine ⟨hreqs, fun entry hentry => ?_, fun s => ⟨_, get?_events_trace target hits reqs s⟩⟩
  have hentries := entries_print_syscall target hits hfunc
  have hentry : entry ∈ (print_syscall (run target hits)).entries := hentry
  rw [hentries] at hentry
  obtain ⟨e, he, rfl⟩ := List.mem_map.mp hentry
  exact ⟨_, thread_of_printKey (hfunc e.1 (PyDict.mem_keys_tally.mp (List.mem_map_of_mem he)))⟩

theorem sum_calls_of_trace (hfunc : ∀ x ∈ hits.filterMap (callAt target), ',' ∉ x.2.2)
    (s : Candidate) :
    (calls_of related_tids (trace (run target hits) reqs).syscall.entries s).sum =
      timesCalled target hits related_tids s := by
  rw [calls_of_trace target hits related_tids reqs hfunc]
  exact sum_tally_entries _ fun x : ℤ × ℤ × List Char =>
    x.2.1 ∈ related_tids ∧ syscall_name x.2.2 = s.name.toList

theorem calls_of_trace_ne_nil (hfunc : ∀ x ∈ hits.filterMap (callAt target), ',' ∉ x.2.2)
    (s : Candidate) :
    calls_of related_tids (trace (run target hits) reqs).syscall.entries s ≠ [] ↔
      0 < timesCalled target hits related_tids s := by
  rw [calls_of_trace target hits related_tids reqs hfunc, timesCalled, List.countP_pos_iff,
    ne_eq, List.filterMap_eq_nil_iff]
  constructor
  · intro hsome
    by_contra hnone
    refine hsome fun e he => if_neg fun hp => hnone ?_
    exact ⟨e.1, PyDict.mem_keys_tally.mp (List.mem_map_of_mem he), decide_eq_true hp⟩
  · rintro ⟨x, hx, hp⟩ hnil
    obtain ⟨e, he, rfl⟩ := List.mem_map.mp (PyDict.mem_keys_tally.mpr hx)
    have hnone := hnil e he
    rw [if_pos (of_decide_eq_true hp)] at hnone
    cases hnone

theorem lines_of_trace (s : Syscall) : lines_of (trace (run target hits) reqs) (.traced s) =
    (hits.filterMap (eventAt target s)).map s.print := by
  simp only [lines_of, get?_events_trace, Option.getD_some]

theorem typed_counts_trace {s : Syscall} (h : s.family = .typed) {type : FdType}
    (htype : type ≠ .other) {name : String} (hname : name.toList = type.text) :
    typed_counts related_tids name (lines_of (trace (run target hits) reqs) (.traced s)) =
      (eventsOfType target hits related_tids (.traced s) type).map Event.count := by
  have htext : ∀ a b : FdType, a.text = b.text ↔ a = b := by
    intro a b
    cases a <;> cases b <;> decide
  rw [typed_counts, lines_of_trace, occurrences_print (typed_event_print h), hname, eventsOfType,
    eventsOf, List.filterMap_filterMap, ← List.filterMap_eq_map, List.filterMap_filter,
    List.filterMap_filter]
  refine List.filterMap_congr fun e _ => ?_
  by_cases hother : e.type = .other
  · simp [hother, Ne.symm htype]
  · by_cases hrelated : e.tid ∈ related_tids <;> simp [hother, hrelated, htext]

theorem plain_events_trace {s : Syscall} (h : s.family = .plain) :
    occurrences (plain_event related_tids) (lines_of (trace (run target hits) reqs) (.traced s)) =
      (eventsOf target hits related_tids (.traced s)).map Event.count := by
  rw [lines_of_trace, occurrences_print (plain_event_print h), eventsOf, ← List.filterMap_eq_map,
    List.filterMap_filter]
  refine List.filterMap_congr fun e _ => ?_
  simp

theorem offset_events_trace {s : Syscall} (h : s.family = .offset) :
    occurrences (offset_event related_tids) (lines_of (trace (run target hits) reqs) (.traced s)) =
      (eventsOf target hits related_tids (.traced s)).map
        fun e => (e.count, offsetField (.traced s) e) := by
  rw [lines_of_trace, occurrences_print (offset_event_print h), eventsOf, ← List.filterMap_eq_map,
    List.filterMap_filter]
  refine List.filterMap_congr fun e _ => ?_
  simp

theorem statistics_of_correct {s : Candidate} {i : Info} {calls : ℤ}
    (hcalls : calls = timesCalled target hits related_tids s)
    (h : Correct (trace (run target hits) reqs) related_tids s calls i) :
    Statistics target hits related_tids reqs s i := by
  cases i with
  | typed file socket =>
    obtain ⟨hfamily, ⟨hfile, hfiles⟩, hsocket, hsockets⟩ := h
    cases s with
    | traced s =>
      have hfamily' : s.family = .typed := hfamily
      rw [typed_counts_trace target hits related_tids reqs hfamily' (by decide : FdType.file ≠ .other) rfl]
        at hfile hfiles
      rw [typed_counts_trace target hits related_tids reqs hfamily' (by decide : FdType.socket ≠ .other) rfl]
        at hsocket hsockets
      rw [List.length_map] at hfile hsocket
      exact ⟨hfamily, ⟨hfile, hfiles⟩, hsocket, hsockets⟩
    | _ => cases hfamily
  | plain stats =>
    obtain ⟨hfamily, hfreq, hcount⟩ := h
    refine ⟨hfamily, ?_, ?_⟩
    · rw [hcalls] at hfreq
      exact_mod_cast hfreq
    · cases s with
      | traced s =>
        rwa [plain_events_trace target hits related_tids reqs hfamily] at hcount
      | _ => exact hcount
  | offset stats offset =>
    obtain ⟨hfamily, hfreq, hcount, hoffset⟩ := h
    cases s with
    | traced s =>
      rw [offset_events_trace target hits related_tids reqs hfamily, List.map_map] at hcount hoffset
      rw [hcalls] at hfreq
      exact ⟨hfamily, by exact_mod_cast hfreq, hcount, hoffset⟩
    | _ => cases hfamily

/-- After any hits, the analysis of the output of the probes gives statistics of exactly the calls
that related threads made, and they are those of the hits. -/
theorem statistics_are_those_of_the_hits (hreqs : reqs ≠ 0)
    (hfunc : ∀ x ∈ hits.filterMap (callAt target), ',' ∉ x.2.2) :
    ∃ info cout, analyze_syscalls (trace (run target hits) reqs) related_tids = .ok (info, cout) ∧
      (∀ s, s ∈ info.keys ↔ 0 < timesCalled target hits related_tids s) ∧
      ∀ s i, info.get? s = some i → Statistics target hits related_tids reqs s i := by
  have hreturns : ∃ info cout,
      analyze_syscalls (trace (run target hits) reqs) related_tids = .ok (info, cout) :=
    exists_analyze_syscalls (traced_trace target hits reqs hreqs hfunc)
  obtain ⟨info, cout, hinfo⟩ := hreturns
  refine ⟨info, cout, hinfo, fun s => ?_, fun s i hi => ?_⟩
  · rw [mem_keys_analyze_syscalls hinfo, calls_of_trace_ne_nil target hits related_tids reqs hfunc]
  · exact statistics_of_correct target hits related_tids reqs
      (sum_calls_of_trace target hits related_tids reqs hfunc s) (correct_of_analyze_syscalls hinfo hi)

end Law

/-- A related thread and another one read from a socket. -/
def readHits : List (Task × Hit) :=
  let socket : File := ⟨.sock, "O_NONBLOCK".toList, [], 2⟩
  [(⟨1, 8, 0⟩, .syscall "__x64_sys_read".toList), (⟨1, 8, 0⟩, .io .read 5 0 64 [] socket),
    (⟨1, 9, 0⟩, .syscall "__x64_sys_read".toList), (⟨1, 9, 0⟩, .io .read 6 0 32 [] socket),
    (⟨1, 8, 0⟩, .syscall "__x64_sys_read".toList), (⟨1, 8, 0⟩, .io .read 5 0 16 [] socket)]

theorem statistics_of_two_reads :
    ∃ info cout, analyze_syscalls (trace (run 1 readHits) 2) [8] = .ok (info, cout) ∧
      ∃ file socket, info.get? (.traced .read) = some (.typed file socket) ∧
        socket.freq * 2 = 2 ∧ Holds socket.count [64, 16] := by
  obtain ⟨info, cout, hinfo, hkeys, hstatistics⟩ :=
    statistics_are_those_of_the_hits 1 readHits [8] 2 (by decide) (by decide)
  refine ⟨info, cout, hinfo, ?_⟩
  have hcalled : 0 < timesCalled 1 readHits [8] (.traced .read) := by decide +kernel
  obtain ⟨i, hi⟩ := PyDict.exists_get?_of_mem_keys ((hkeys _).mpr hcalled)
  have hright := hstatistics _ i hi
  cases i with
  | typed file socket =>
    obtain ⟨-, -, hfreq, hcount⟩ := hright
    have hcounts : (eventsOfType 1 readHits [8] (.traced .read) .socket).map Event.count =
        [64, 16] := by decide
    rw [← List.length_map Event.count, hcounts] at hfreq
    rw [hcounts] at hcount
    exact ⟨file, socket, hi, by exact_mod_cast hfreq, hcount⟩
  | plain stats => cases hright.1
  | offset stats offset => cases hright.1

end ditto.threads_stp
