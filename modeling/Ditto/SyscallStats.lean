-- The statistics of system calls (`analyze_syscalls` of
-- backbone_analysis/analyze_syscall.py): how often the related threads make each
-- call, and with which counts. The first entry of a call reads all its events,
-- and each later one only adds to its frequency.
import Ditto.Lib.Mass
import Ditto.Lib.Rounding
import Ditto.SyscallTrace

open PyText

namespace ditto.analyze_syscall

/-! ## The names -/

/-- The calls that are looked at: those with events in the trace, and some that are only
counted. -/
inductive Candidate
  | traced (s : Syscall)
  | stat | fstat | open' | openat | close
deriving DecidableEq

def Syscall.name : Syscall → String
  | .read => "read"
  | .readv => "readv"
  | .pread => "pread"
  | .preadv => "preadv"
  | .recv => "recv"
  | .recvfrom => "recvfrom"
  | .recvmsg => "recvmsg"
  | .write => "write"
  | .writev => "writev"
  | .pwrite => "pwrite"
  | .pwritev => "pwritev"
  | .send => "send"
  | .sendto => "sendto"
  | .sendmsg => "sendmsg"

def Candidate.name : Candidate → String
  | .traced s => s.name
  | .stat => "stat"
  | .fstat => "fstat"
  | .open' => "open"
  | .openat => "openat"
  | .close => "close"

def candidate_syscalls : List Candidate :=
  [.traced .read, .traced .readv, .traced .pread, .traced .preadv, .traced .recv,
    .traced .recvfrom, .traced .recvmsg, .traced .write, .traced .writev, .traced .pwrite,
    .traced .pwritev, .traced .send, .traced .sendto, .traced .sendmsg, .stat, .fstat, .open',
    .openat, .close]

def ignored_syscalls : List String := ["epoll_wait", "futex", "epoll_ctl", "getpid"]

/-- The model of `s.find(text)`, where `none` stands for -1. -/
def find (text : String) (s : List Char) : Option ℕ := s.tails.findIdx? text.toList.isPrefixOf

/-- The name of a call from that of its kernel function. -/
def syscall_name (func : List Char) : List Char :=
  let start := match find "sys" func with
    | some pos => pos + 4
    | none => 3
  let name := func.drop start
  let name := if "new".toList.isPrefixOf name then name.drop 3 else name
  if "64".toList.isSuffixOf name then name.take (name.length - 2) else name

def candidate? (name : List Char) : Option Candidate :=
  candidate_syscalls.find? fun s => s.name.toList = name

/-! ## The trace and the statistics -/

/-- The result of the probes. -/
structure Trace where
  syscall : PyDict (List Char) ℤ
  reqs : ℤ
  events : PyDict Syscall (List (List Char))

/-- A frequency, and how often each count occurs. -/
structure Stats where
  freq : ℚ
  count : PyDict ℤ ℕ

/-- What is known of a call: by the type of the descriptor, at once, or with offsets. -/
inductive Info
  | typed (file socket : Stats)
  | plain (stats : Stats)
  | offset (stats : Stats) (offset : PyDict ℤ ℕ)

structure State where
  syscall_info : PyDict Candidate Info := .empty
  cout : List (List Char) := []

/-- One more occurrence of a count. -/
def count_in (d : PyDict ℤ ℕ) (count : ℤ) : PyDict ℤ ℕ :=
  match d.get? count with
  | none => d.set count 1
  | some n => d.set count (n + 1)

section Analyzer

variable (r : Trace) (related_tids : List ℤ)

/-! ## The events of a call -/

/-- The type and the count of an event of a related thread. -/
def typed_event (line : List Char) : Except PyError (Option (List Char × ℤ)) := do
  let tid ← int (← nth (line.splitOn ',') 1)
  let type ← fromEnd ((← fromEnd (line.splitOn ',') 1).splitOn ' ') 1
  if type = "other".toList then return none
  let count ← int (← fromEnd (line.splitOn ',') 2)
  return if tid ∈ related_tids then some (type, count) else none

def typed_turn (counts : PyDict ℤ ℕ × PyDict ℤ ℕ) (line : List Char) :
    Except PyError (PyDict ℤ ℕ × PyDict ℤ ℕ) := do
  match ← typed_event related_tids line with
  | none => return counts
  | some (type, count) =>
    if type = "file".toList then return (count_in counts.1 count, counts.2)
    else if type = "socket".toList then return (counts.1, count_in counts.2 count)
    else .error .keyError

/-- The count of an event of a related thread. -/
def plain_event (line : List Char) : Except PyError (Option ℤ) := do
  let fields ← count_fields line
  return if fields.tid ∈ related_tids then some fields.count else none

def plain_turn (counts : PyDict ℤ ℕ) (line : List Char) : Except PyError (PyDict ℤ ℕ) := do
  match ← plain_event related_tids line with
  | none => return counts
  | some count => return count_in counts count

/-- The count and the offset of an event of a related thread. -/
def offset_event (line : List Char) : Except PyError (Option (ℤ × ℤ)) := do
  let tid ← int (← nth (line.splitOn ',') 1)
  let offset ← int (← fromEnd (line.splitOn ',') 2)
  let count ← int (← fromEnd (line.splitOn ',') 1)
  return if tid ∈ related_tids then some (count, offset) else none

def offset_turn (counts : PyDict ℤ ℕ × PyDict ℤ ℕ) (line : List Char) :
    Except PyError (PyDict ℤ ℕ × PyDict ℤ ℕ) := do
  match ← offset_event related_tids line with
  | none => return counts
  | some (count, offset) => return (count_in counts.1 count, count_in counts.2 offset)

/-- The event lines of a call. -/
def event_lines (s : Syscall) : Except PyError (List (List Char)) :=
  match r.events.get? s with
  | none => .error .keyError
  | some lines => .ok lines

/-- How the events of a call are read. -/
inductive Family
  | typed | plain | offset
deriving DecidableEq

def Syscall.family : Syscall → Family
  | .read | .write | .readv | .writev => .typed
  | .recv | .send | .recvfrom | .sendto | .recvmsg | .sendmsg => .plain
  | .pread | .pwrite | .preadv | .pwritev => .offset

/-! ## The loop over the entries -/

/-- The first entry of a call. The frequencies by type are known only at the end. -/
def first_info (calls : ℤ) : Candidate → Except PyError Info
  | .traced s =>
    match s.family with
    | .typed => do
      let lines ← event_lines r s
      let (file, socket) ← lines.foldlM (typed_turn related_tids) (.empty, .empty)
      return .typed ⟨0, file⟩ ⟨0, socket⟩
    | .plain => do
      let freq ← PyError.div calls r.reqs
      let lines ← event_lines r s
      let count ← lines.foldlM (plain_turn related_tids) .empty
      return .plain ⟨freq, count⟩
    | .offset => do
      let freq ← PyError.div calls r.reqs
      let lines ← event_lines r s
      let (count, offset) ← lines.foldlM (offset_turn related_tids) (.empty, .empty)
      return .offset ⟨freq, count⟩ offset
  | .stat | .fstat | .open' | .openat | .close => do
    let freq ← PyError.div calls r.reqs
    return .plain ⟨freq, .empty⟩

/-- A later entry of a call. -/
def later_info (calls : ℤ) : Info → Except PyError Info
  | .typed file socket => .ok (.typed file socket)
  | .plain stats => do
    let freq ← PyError.div calls r.reqs
    return .plain { stats with freq := stats.freq + freq }
  | .offset stats offset => do
    let freq ← PyError.div calls r.reqs
    return .offset { stats with freq := stats.freq + freq } offset

def update_info (calls : ℤ) (s : Candidate) : Option Info → Except PyError Info
  | some info => later_info r calls info
  | none => first_info r related_tids calls s

/-- What is printed for a call that is no candidate. -/
def warning (name : List Char) (calls : ℤ) : Except PyError (List (List Char)) :=
  if ignored_syscalls.any (·.toList = name) then .ok []
  else do
    let freq ← PyError.div calls r.reqs
    return if 1 / 100 < freq then
      ["Error: ".toList ++ name ++ " not in candidate syscalls list, please check!".toList]
    else []

/-- The model of `int(line.split(",")[1])`. -/
def thread_of (line : List Char) : Except PyError ℤ := do
  let text ← nth (line.splitOn ',') 1
  int text

/-- The model of `line.split(",")[-1]`. -/
def func_of (line : List Char) : List Char := (line.splitOn ',').getLastD []

/-- The candidate that an entry of a related thread is about, and what is printed. -/
def read_entry (entry : List Char × ℤ) : Except PyError (Option Candidate × List (List Char)) := do
  let tid ← thread_of entry.1
  if tid ∈ related_tids then
    let name := syscall_name (func_of entry.1)
    match candidate? name with
    | some s => return (some s, [])
    | none => return (none, ← warning r name entry.2)
  else return (none, [])

/-- One turn of the loop over the entries. -/
def turn (st : State) (entry : List Char × ℤ) : Except PyError State := do
  let (called, out) ← read_entry r related_tids entry
  match called with
  | none => return { st with cout := st.cout ++ out }
  | some s =>
    let info ← update_info r related_tids entry.2 s (st.syscall_info.get? s)
    return { syscall_info := st.syscall_info.set s info, cout := st.cout ++ out }

/-- One turn of the last loop. -/
def final_info : Info → Except PyError Info
  | .typed file socket => do
    let file_freq ← PyError.div file.count.total r.reqs
    let socket_freq ← PyError.div socket.count.total r.reqs
    return .typed ⟨file_freq, file.count⟩ ⟨socket_freq, socket.count⟩
  | info => .ok info

/-- The model of `analyze_syscalls`: the statistics, and what is printed. -/
def analyze_syscalls : Except PyError (PyDict Candidate Info × List (List Char)) := do
  let st ← r.syscall.entries.foldlM (turn r related_tids) {}
  let info ← st.syscall_info.mapM fun _ info => final_info r info
  return (info, st.cout)

end Analyzer

/-! ## What the statistics should be -/

section Spec

variable (r : Trace) (related_tids : List ℤ)

/-- The events that a reader finds in some lines. -/
def occurrences {α : Type} (event : List Char → Except PyError (Option α))
    (lines : List (List Char)) : List α := lines.filterMap fun line => (event line).toOption.join

/-- The counts of the events of a type. -/
def typed_counts (type : String) (lines : List (List Char)) : List ℤ :=
  (occurrences (typed_event related_tids) lines).filterMap fun e =>
    if e.1 = type.toList then some e.2 else none

/-- The events of a candidate. -/
def lines_of : Candidate → List (List Char)
  | .traced s => (r.events.get? s).getD []
  | _ => []

/-- A table holds how often each count occurs, and nothing else. -/
def Holds (d : PyDict ℤ ℕ) (l : List ℤ) : Prop :=
  ∀ n, d.get? n = if n ∈ l then some (l.count n) else none

/-- The name of the call of an entry of a related thread. -/
def related_name (line : List Char) : Option (List Char) :=
  match thread_of line with
  | .ok tid => if tid ∈ related_tids then some (syscall_name (func_of line)) else none
  | .error _ => none

/-- The counts of the entries of related threads for a call. -/
def calls_of (entries : List (List Char × ℤ)) (s : Candidate) : List ℤ :=
  entries.filterMap fun entry =>
    if related_name related_tids entry.1 = some s.name.toList then some entry.2 else none

/-- A call without events has the statistics of one on a socket. -/
def Candidate.family : Candidate → Family
  | .traced s => s.family
  | _ => .plain

/-- The statistics of a call that has been made some number of times. -/
def Correct (s : Candidate) (calls : ℤ) : Info → Prop
  | .typed file socket => s.family = .typed ∧
    (file.freq * r.reqs = (typed_counts related_tids "file" (lines_of r s)).length ∧
      Holds file.count (typed_counts related_tids "file" (lines_of r s))) ∧
    socket.freq * r.reqs = (typed_counts related_tids "socket" (lines_of r s)).length ∧
      Holds socket.count (typed_counts related_tids "socket" (lines_of r s))
  | .plain stats => s.family = .plain ∧ stats.freq * r.reqs = calls ∧
    Holds stats.count (occurrences (plain_event related_tids) (lines_of r s))
  | .offset stats offset => s.family = .offset ∧ stats.freq * r.reqs = calls ∧
    Holds stats.count ((occurrences (offset_event related_tids) (lines_of r s)).map Prod.fst) ∧
    Holds offset ((occurrences (offset_event related_tids) (lines_of r s)).map Prod.snd)

end Spec

/-! ## The tables -/

theorem count_in_eq (d : PyDict ℤ ℕ) (count : ℤ) : count_in d count = d.add count 1 := by
  unfold count_in PyDict.add PyDict.val
  cases d.get? count with
  | none => rfl
  | some n => rfl

theorem holds_foldl (l : List ℤ) : Holds (l.foldl count_in .empty) l := by
  have htally : l.foldl count_in .empty = PyDict.tally l := by
    unfold PyDict.tally
    congr 1
    funext d count
    exact count_in_eq d count
  rw [htally]
  exact PyDict.get?_tally l

theorem total_of_holds {d : PyDict ℤ ℕ} {l : List ℤ} (h : Holds d l) : d.total = l.length := by
  have hval : ∀ n, d.val n = (PyDict.tally l).val n := by
    intro n
    unfold PyDict.val
    rw [h n, PyDict.get?_tally]
  rw [PyDict.total_congr hval, PyDict.total_tally]

/-- A loop over lines that changes its state for each event is a loop over the events. -/
theorem foldlM_events {σ α : Type} {event : List Char → Except PyError (Option α)}
    {turn : σ → List Char → Except PyError σ} {step : σ → α → σ}
    (hturn : ∀ s line s', turn s line = .ok s' →
      ∃ o, event line = .ok o ∧ s' = o.toList.foldl step s)
    {lines : List (List Char)} {s s' : σ} (h : lines.foldlM turn s = .ok s') :
    s' = (occurrences event lines).foldl step s := by
  induction lines generalizing s with
  | nil =>
    cases h
    rfl
  | cons line lines ih =>
    rw [List.foldlM_cons] at h
    obtain ⟨mid, hmid, h⟩ := PyError.ok_of_bind h
    obtain ⟨o, ho, rfl⟩ := hturn s line mid hmid
    have hevents : occurrences event (line :: lines) = o.toList ++ occurrences event lines := by
      cases o <;> simp [occurrences, ho, Except.toOption]
    rw [hevents, List.foldl_append]
    exact ih h

section Tables

variable {related_tids : List ℤ} {lines : List (List Char)}

/-- What one event does to the tables by type. -/
def typed_step (counts : PyDict ℤ ℕ × PyDict ℤ ℕ) (e : List Char × ℤ) : PyDict ℤ ℕ × PyDict ℤ ℕ :=
  (if e.1 = "file".toList then count_in counts.1 e.2 else counts.1,
    if e.1 = "socket".toList then count_in counts.2 e.2 else counts.2)

theorem typed_turn_ok {counts counts' : PyDict ℤ ℕ × PyDict ℤ ℕ} {line : List Char}
    (h : typed_turn related_tids counts line = .ok counts') :
    ∃ o, typed_event related_tids line = .ok o ∧ counts' = o.toList.foldl typed_step counts := by
  obtain ⟨o, ho, h⟩ := PyError.ok_of_bind h
  refine ⟨o, ho, ?_⟩
  cases o with
  | none =>
    cases h
    rfl
  | some e =>
    obtain ⟨type, count⟩ := e
    simp only at h
    split at h
    · rename_i hfile
      cases h
      subst hfile
      rfl
    · rename_i hfile
      split at h
      · rename_i hsocket
        cases h
        subst hsocket
        rfl
      · cases h

theorem foldl_typed_step (l : List (List Char × ℤ)) (counts : PyDict ℤ ℕ × PyDict ℤ ℕ) :
    l.foldl typed_step counts =
      ((l.filterMap fun e => if e.1 = "file".toList then some e.2 else none).foldl count_in counts.1,
        (l.filterMap fun e => if e.1 = "socket".toList then some e.2 else none).foldl count_in
          counts.2) := by
  induction l generalizing counts with
  | nil => rfl
  | cons e l ih =>
    rw [List.foldl_cons, ih]
    by_cases hfile : e.1 = "file".toList
    · have hsocket : e.1 ≠ "socket".toList := by
        rw [hfile]
        decide
      simp only [typed_step, List.filterMap_cons, if_pos hfile, if_neg hsocket, List.foldl_cons]
    · by_cases hsocket : e.1 = "socket".toList
      · simp only [typed_step, List.filterMap_cons, if_neg hfile, if_pos hsocket, List.foldl_cons]
      · simp only [typed_step, List.filterMap_cons, if_neg hfile, if_neg hsocket]

theorem typed_scan {file socket : PyDict ℤ ℕ}
    (h : lines.foldlM (typed_turn related_tids) (.empty, .empty) = .ok (file, socket)) :
    Holds file (typed_counts related_tids "file" lines) ∧
      Holds socket (typed_counts related_tids "socket" lines) := by
  have hevents : (file, socket) = (occurrences (typed_event related_tids) lines).foldl typed_step
      (.empty, .empty) := by
    refine foldlM_events (fun counts line counts' hturn => ?_) h
    exact typed_turn_ok hturn
  rw [foldl_typed_step] at hevents
  cases hevents
  exact ⟨holds_foldl _, holds_foldl _⟩

theorem plain_scan {count : PyDict ℤ ℕ}
    (h : lines.foldlM (plain_turn related_tids) .empty = .ok count) :
    Holds count (occurrences (plain_event related_tids) lines) := by
  have hevents : count = (occurrences (plain_event related_tids) lines).foldl count_in .empty := by
    refine foldlM_events (fun counts line counts' hturn => ?_) h
    obtain ⟨o, ho, hturn⟩ := PyError.ok_of_bind hturn
    cases o <;> cases hturn <;> exact ⟨_, ho, rfl⟩
  rw [hevents]
  exact holds_foldl _

theorem offset_scan {count offset : PyDict ℤ ℕ}
    (h : lines.foldlM (offset_turn related_tids) (.empty, .empty) = .ok (count, offset)) :
    Holds count ((occurrences (offset_event related_tids) lines).map Prod.fst) ∧
      Holds offset ((occurrences (offset_event related_tids) lines).map Prod.snd) := by
  have hevents : (count, offset) = (occurrences (offset_event related_tids) lines).foldl
      (fun counts e => (count_in counts.1 e.1, count_in counts.2 e.2)) (.empty, .empty) := by
    refine foldlM_events (fun counts line counts' hturn => ?_) h
    obtain ⟨o, ho, hturn⟩ := PyError.ok_of_bind hturn
    cases o <;> cases hturn <;> exact ⟨_, ho, rfl⟩
  have hpair : ∀ (l : List (ℤ × ℤ)) (counts : PyDict ℤ ℕ × PyDict ℤ ℕ),
      l.foldl (fun counts e => (count_in counts.1 e.1, count_in counts.2 e.2)) counts =
        ((l.map Prod.fst).foldl count_in counts.1, (l.map Prod.snd).foldl count_in counts.2) := by
    intro l
    induction l with
    | nil => exact fun _ => rfl
    | cons e l ih => exact fun counts => ih _
  rw [hpair] at hevents
  cases hevents
  exact ⟨holds_foldl _, holds_foldl _⟩

end Tables

/-! ## One call -/

section Call

variable {r : Trace} {related_tids : List ℤ}

theorem lines_of_traced {s : Syscall} {lines : List (List Char)}
    (h : event_lines r s = .ok lines) : lines_of r (.traced s) = lines := by
  unfold event_lines at h
  cases hget : r.events.get? s with
  | none =>
    rw [hget] at h
    cases h
  | some lines' =>
    rw [hget] at h
    cases h
    simp [lines_of, hget]

theorem untraced_parts (r : Trace) {s : Candidate} (h : ∀ c, s ≠ .traced c) :
    s.family = .plain ∧ lines_of r s = [] := by
  cases s with
  | traced c => exact absurd rfl (h c)
  | stat | fstat | open' | openat | close => exact ⟨rfl, rfl⟩

theorem div_ok (h : r.reqs ≠ 0) (n : ℤ) :
    PyError.div (n : ℚ) r.reqs = .ok ((n : ℚ) / r.reqs) :=
  PyError.div_eq_ok.mpr ⟨Int.cast_ne_zero.mpr h, rfl⟩

theorem reqs_ne_zero {n : ℤ} {q : ℚ} (h : PyError.div (n : ℚ) r.reqs = .ok q) :
    r.reqs ≠ 0 ∧ q = (n : ℚ) / r.reqs := by
  obtain ⟨hne, hq⟩ := PyError.div_eq_ok.mp h
  exact ⟨Int.cast_ne_zero.mp hne, hq⟩

/-- The parts of the first entry of a call. -/
inductive FirstInfo (r : Trace) (related_tids : List ℤ) : Candidate → ℤ → Info → Prop
  | typed {s : Syscall} {n : ℤ} {lines : List (List Char)} {file socket : PyDict ℤ ℕ}
      (family : s.family = .typed) (events : event_lines r s = .ok lines)
      (scan : lines.foldlM (typed_turn related_tids) (.empty, .empty) = .ok (file, socket)) :
      FirstInfo r related_tids (.traced s) n (.typed ⟨0, file⟩ ⟨0, socket⟩)
  | plain {s : Syscall} {n : ℤ} {lines : List (List Char)} {count : PyDict ℤ ℕ}
      (reqs : r.reqs ≠ 0) (family : s.family = .plain) (events : event_lines r s = .ok lines)
      (scan : lines.foldlM (plain_turn related_tids) .empty = .ok count) :
      FirstInfo r related_tids (.traced s) n (.plain ⟨n / r.reqs, count⟩)
  | offset {s : Syscall} {n : ℤ} {lines : List (List Char)} {count offset : PyDict ℤ ℕ}
      (reqs : r.reqs ≠ 0) (family : s.family = .offset) (events : event_lines r s = .ok lines)
      (scan : lines.foldlM (offset_turn related_tids) (.empty, .empty) = .ok (count, offset)) :
      FirstInfo r related_tids (.traced s) n (.offset ⟨n / r.reqs, count⟩ offset)
  | untraced {s : Candidate} {n : ℤ} (reqs : r.reqs ≠ 0) (untraced : ∀ c, s ≠ .traced c) :
      FirstInfo r related_tids s n (.plain ⟨n / r.reqs, .empty⟩)

theorem firstInfo_of_ok {s : Candidate} {n : ℤ} {info : Info}
    (h : first_info r related_tids n s = .ok info) : FirstInfo r related_tids s n info := by
  cases s with
  | traced s =>
    cases hfamily : s.family with
    | typed =>
      simp only [first_info, hfamily] at h
      obtain ⟨lines, hlines, h⟩ := PyError.ok_of_bind h
      obtain ⟨⟨file, socket⟩, hscan, h⟩ := PyError.ok_of_bind h
      cases h
      exact .typed hfamily hlines hscan
    | plain =>
      simp only [first_info, hfamily] at h
      obtain ⟨freq, hfreq, h⟩ := PyError.ok_of_bind h
      obtain ⟨lines, hlines, h⟩ := PyError.ok_of_bind h
      obtain ⟨count, hscan, h⟩ := PyError.ok_of_bind h
      obtain ⟨hreqs, rfl⟩ := reqs_ne_zero hfreq
      cases h
      exact .plain hreqs hfamily hlines hscan
    | offset =>
      simp only [first_info, hfamily] at h
      obtain ⟨freq, hfreq, h⟩ := PyError.ok_of_bind h
      obtain ⟨lines, hlines, h⟩ := PyError.ok_of_bind h
      obtain ⟨⟨count, offset⟩, hscan, h⟩ := PyError.ok_of_bind h
      obtain ⟨hreqs, rfl⟩ := reqs_ne_zero hfreq
      cases h
      exact .offset hreqs hfamily hlines hscan
  | stat | fstat | open' | openat | close =>
    obtain ⟨freq, hfreq, h⟩ := PyError.ok_of_bind h
    obtain ⟨hreqs, rfl⟩ := reqs_ne_zero hfreq
    cases h
    exact .untraced hreqs (by simp)

theorem FirstInfo.ok {s : Candidate} {n : ℤ} {info : Info} (h : FirstInfo r related_tids s n info) :
    first_info r related_tids n s = .ok info := by
  cases h with
  | typed hfamily hlines hscan =>
    simp only [first_info, hfamily, hlines, bind, Except.bind, hscan]
    rfl
  | plain hreqs hfamily hlines hscan =>
    simp only [first_info, hfamily, div_ok hreqs, hlines, bind, Except.bind, hscan]
    rfl
  | offset hreqs hfamily hlines hscan =>
    simp only [first_info, hfamily, div_ok hreqs, hlines, bind, Except.bind, hscan]
    rfl
  | untraced hreqs huntraced =>
    cases s with
    | traced c => exact absurd rfl (huntraced c)
    | stat | fstat | open' | openat | close =>
      simp only [first_info, div_ok hreqs]
      rfl

/-- The first entry of a call may have any count, and a later one adds its count. -/
theorem later_info_eq {s : Candidate} {n : ℤ} {info : Info}
    (h : first_info r related_tids n s = .ok info) (m : ℤ) :
    (∃ info', first_info r related_tids m s = .ok info') ∧
      later_info r m info = first_info r related_tids (n + m) s := by
  cases firstInfo_of_ok h with
  | typed hfamily hlines hscan =>
    have hfirst := fun n => (FirstInfo.typed (n := n) hfamily hlines hscan).ok
    exact ⟨⟨_, hfirst m⟩, (hfirst (n + m)).symm⟩
  | plain hreqs hfamily hlines hscan =>
    have hfirst := fun n => (FirstInfo.plain (n := n) hreqs hfamily hlines hscan).ok
    refine ⟨⟨_, hfirst m⟩, ?_⟩
    rw [hfirst (n + m), later_info, div_ok hreqs]
    simp [add_div]
  | offset hreqs hfamily hlines hscan =>
    have hfirst := fun n => (FirstInfo.offset (n := n) hreqs hfamily hlines hscan).ok
    refine ⟨⟨_, hfirst m⟩, ?_⟩
    rw [hfirst (n + m), later_info, div_ok hreqs]
    simp [add_div]
  | untraced hreqs huntraced =>
    have hfirst : ∀ n : ℤ, first_info r related_tids n s = .ok (.plain ⟨n / r.reqs, .empty⟩) :=
      fun n => (FirstInfo.untraced hreqs huntraced).ok
    refine ⟨⟨_, hfirst m⟩, ?_⟩
    rw [hfirst (n + m), later_info, div_ok hreqs]
    simp [add_div]

/-- The statistics of a call, from its first entry with the count of all of them. -/
theorem correct_of_first_info {s : Candidate} {n : ℤ} {info info' : Info}
    (h : first_info r related_tids n s = .ok info) (hfinal : final_info r info = .ok info') :
    Correct r related_tids s n info' := by
  have hfreq : ∀ n : ℤ, r.reqs ≠ 0 → (n : ℚ) / r.reqs * r.reqs = n := fun n hreqs =>
    div_mul_cancel₀ _ (Int.cast_ne_zero.mpr hreqs)
  cases firstInfo_of_ok h with
  | typed hfamily hlines hscan =>
    obtain ⟨file_freq, hfile, hfinal⟩ := PyError.ok_of_bind hfinal
    obtain ⟨socket_freq, hsocket, hfinal⟩ := PyError.ok_of_bind hfinal
    cases hfinal
    obtain ⟨hfile_table, hsocket_table⟩ := typed_scan hscan
    obtain ⟨hreqs, rfl⟩ := PyError.div_eq_ok.mp hfile
    obtain ⟨-, rfl⟩ := PyError.div_eq_ok.mp hsocket
    refine ⟨hfamily, ⟨?_, ?_⟩, ?_, ?_⟩
    · rw [div_mul_cancel₀ _ hreqs, lines_of_traced hlines, total_of_holds hfile_table]
    · rw [lines_of_traced hlines]
      exact hfile_table
    · rw [div_mul_cancel₀ _ hreqs, lines_of_traced hlines, total_of_holds hsocket_table]
    · rw [lines_of_traced hlines]
      exact hsocket_table
  | plain hreqs hfamily hlines hscan =>
    cases hfinal
    refine ⟨hfamily, hfreq n hreqs, ?_⟩
    rw [lines_of_traced hlines]
    exact plain_scan hscan
  | offset hreqs hfamily hlines hscan =>
    cases hfinal
    refine ⟨hfamily, hfreq n hreqs, ?_⟩
    rw [lines_of_traced hlines]
    exact offset_scan hscan
  | untraced hreqs huntraced =>
    obtain ⟨hfamily, hlines⟩ := untraced_parts r huntraced
    cases hfinal
    refine ⟨hfamily, hfreq n hreqs, ?_⟩
    rw [hlines]
    exact fun _ => rfl

end Call

/-! ## The run over the entries -/

section Run

variable {r : Trace} {related_tids : List ℤ}

/-- The names of the candidates are different. -/
theorem candidate?_eq_some {name : List Char} {s : Candidate} :
    candidate? name = some s ↔ name = s.name.toList := by
  constructor
  · intro h
    have hname := List.find?_some h
    exact (of_decide_eq_true hname).symm
  · rintro rfl
    cases s with
    | traced c => cases c <;> decide
    | stat | fstat | open' | openat | close => decide

theorem read_entry_called {entry : List Char × ℤ} {called : Option Candidate}
    {out : List (List Char)} (h : read_entry r related_tids entry = .ok (called, out))
    (s : Candidate) :
    called = some s ↔ related_name related_tids entry.1 = some s.name.toList := by
  unfold read_entry at h
  obtain ⟨tid, htid, h⟩ := PyError.ok_of_bind h
  simp only [related_name, htid]
  split at h
  · rename_i hrelated
    rw [if_pos hrelated, Option.some.injEq, ← candidate?_eq_some]
    cases hname : candidate? (syscall_name (func_of entry.1)) with
    | none =>
      simp only [hname] at h
      obtain ⟨_, -, h⟩ := PyError.ok_of_bind h
      cases h
      rfl
    | some c =>
      simp only [hname] at h
      cases h
      rfl
  · rename_i hrelated
    cases h
    simp [hrelated]

theorem calls_of_concat (entries : List (List Char × ℤ)) (entry : List Char × ℤ) (s : Candidate) :
    calls_of related_tids (entries ++ [entry]) s =
      if related_name related_tids entry.1 = some s.name.toList then
        calls_of related_tids entries s ++ [entry.2]
      else calls_of related_tids entries s := by
  unfold calls_of
  rw [List.filterMap_append]
  split
  · rename_i h
    simp [h]
  · rename_i h
    simp [h]

/-- What the loop knows after some entries: each call that was made has the statistics of one
entry with the count of all of them. -/
def After (r : Trace) (related_tids : List ℤ) (entries : List (List Char × ℤ)) (st : State) :
    Prop :=
  ∀ s, (calls_of related_tids entries s = [] ∧ st.syscall_info.get? s = none) ∨
    (calls_of related_tids entries s ≠ [] ∧
      ∃ info, first_info r related_tids (calls_of related_tids entries s).sum s = .ok info ∧
        st.syscall_info.get? s = some info)

/-- An entry that the loop can read, whatever it knows. -/
def Readable (r : Trace) (related_tids : List ℤ) (entry : List Char × ℤ) : Prop :=
  ∃ called out, read_entry r related_tids entry = .ok (called, out) ∧
    ∀ s, called = some s → ∃ info, first_info r related_tids entry.2 s = .ok info

/-- The next statistics of a call. -/
theorem update_info_after {entries : List (List Char × ℤ)} {st : State}
    (h : After r related_tids entries st) (s : Candidate) (m : ℤ) :
    update_info r related_tids m s (st.syscall_info.get? s) =
      first_info r related_tids ((calls_of related_tids entries s).sum + m) s := by
  rcases h s with ⟨hnil, hget⟩ | ⟨-, info, hinfo, hget⟩
  · rw [hget, hnil, List.sum_nil, zero_add]
    rfl
  · rw [hget]
    exact (later_info_eq hinfo m).2

theorem first_info_isOk {s : Candidate} {n : ℤ} {info : Info}
    (h : first_info r related_tids n s = .ok info) (m : ℤ) :
    ∃ info', first_info r related_tids m s = .ok info' := (later_info_eq h m).1

theorem turn_after {entries : List (List Char × ℤ)} {st st' : State} {entry : List Char × ℤ}
    (h : After r related_tids entries st) (hturn : turn r related_tids st entry = .ok st') :
    Readable r related_tids entry ∧ After r related_tids (entries ++ [entry]) st' := by
  obtain ⟨⟨called, out⟩, hread, hturn⟩ := PyError.ok_of_bind hturn
  have hcalled := read_entry_called hread
  cases called with
  | none =>
    cases hturn
    refine ⟨⟨none, out, hread, by simp⟩, fun s => ?_⟩
    rw [calls_of_concat, if_neg (mt (hcalled s).mpr (by simp))]
    exact h s
  | some c =>
    obtain ⟨info, hinfo, hturn⟩ := PyError.ok_of_bind hturn
    cases hturn
    rw [update_info_after h] at hinfo
    refine ⟨⟨some c, out, hread, ?_⟩, fun s => ?_⟩
    · rintro s ⟨⟩
      exact first_info_isOk hinfo entry.2
    · rw [calls_of_concat]
      by_cases hs : s = c
      · subst hs
        rw [if_pos ((hcalled s).mp rfl)]
        refine .inr ⟨by simp, info, ?_, PyDict.get?_set_self _ _ _⟩
        simpa using hinfo
      · have hne : ¬ related_name related_tids entry.1 = some s.name.toList := fun hname =>
          hs (Option.some.inj ((hcalled s).mpr hname)).symm
        rw [if_neg hne]
        simp only [PyDict.get?_set_of_ne _ _ hs]
        exact h s

theorem exists_turn {entries : List (List Char × ℤ)} {st : State} {entry : List Char × ℤ}
    (h : After r related_tids entries st) (hentry : Readable r related_tids entry) :
    ∃ st', turn r related_tids st entry = .ok st' := by
  obtain ⟨called, out, hread, hinfo⟩ := hentry
  unfold turn
  rw [hread]
  cases called with
  | none => exact ⟨_, rfl⟩
  | some s =>
    obtain ⟨info, hinfo⟩ := hinfo s rfl
    obtain ⟨info', hinfo'⟩ := first_info_isOk hinfo ((calls_of related_tids entries s).sum + entry.2)
    rw [← update_info_after h] at hinfo'
    simp only [bind, Except.bind, hinfo']
    exact ⟨_, rfl⟩

theorem after_nil : After r related_tids [] {} := fun _ => .inl ⟨rfl, rfl⟩

theorem run_after {entries : List (List Char × ℤ)} {st : State}
    (h : entries.foldlM (turn r related_tids) {} = .ok st) :
    (∀ entry ∈ entries, Readable r related_tids entry) ∧ After r related_tids entries st := by
  refine PyError.foldlM_along (P := fun entries st =>
    (∀ entry ∈ entries, Readable r related_tids entry) ∧ After r related_tids entries st)
    ⟨by simp, after_nil⟩ ?_ h
  rintro done entry mid last ⟨hreadable, hafter⟩ hturn
  obtain ⟨hentry, hafter'⟩ := turn_after hafter hturn
  exact ⟨List.forall_mem_append.mpr ⟨hreadable, by simpa using hentry⟩, hafter'⟩

theorem exists_run {entries : List (List Char × ℤ)}
    (h : ∀ entry ∈ entries, Readable r related_tids entry) :
    ∃ st, entries.foldlM (turn r related_tids) {} = .ok st := by
  have hrun : ∃ st, entries.foldlM (turn r related_tids) {} = .ok st ∧
      After r related_tids entries st := by
    refine PyError.exists_foldlM_along after_nil fun done entry hentry st hafter => ?_
    obtain ⟨st', hst'⟩ := exists_turn hafter (h entry hentry)
    exact ⟨st', hst', (turn_after hafter hst').2⟩
  obtain ⟨st, hst, -⟩ := hrun
  exact ⟨st, hst⟩

end Run

/-! ## A trace of the probes -/

/-- A trace with requests, with a thread in each entry and with the printed events of each call. -/
structure Traced (r : Trace) : Prop where
  reqs : r.reqs ≠ 0
  threads : ∀ entry ∈ r.syscall.entries, ∃ tid, thread_of entry.1 = .ok tid
  events : ∀ s, ∃ events : List Event, r.events.get? s = some (events.map s.print)

section Probes

variable {related_tids : List ℤ} {line : List Char} {f : Fields}

theorem exists_typed_turn (h : typed_fields line = .ok f) {type : FdType}
    (htype : f.type = some type.text) (counts : PyDict ℤ ℕ × PyDict ℤ ℕ) :
    ∃ counts', typed_turn related_tids counts line = .ok counts' := by
  obtain ⟨tid_text, htid_text, h⟩ := PyError.ok_of_bind h
  obtain ⟨tid, htid, h⟩ := PyError.ok_of_bind h
  obtain ⟨last, hlast, h⟩ := PyError.ok_of_bind h
  obtain ⟨type_text, htype_text, h⟩ := PyError.ok_of_bind h
  obtain ⟨count_text, hcount_text, h⟩ := PyError.ok_of_bind h
  obtain ⟨count, hcount, h⟩ := PyError.ok_of_bind h
  cases h
  cases htype
  have hevent : typed_event related_tids line = .ok (if type.text = "other".toList then none
      else if tid ∈ related_tids then some (type.text, count) else none) := by
    simp only [typed_event, htid_text, htid, hlast, htype_text, hcount_text, hcount, bind,
      Except.bind]
    split <;> rfl
  unfold typed_turn
  rw [hevent]
  cases type with
  | other => exact ⟨counts, rfl⟩
  | file | socket =>
    by_cases hrelated : tid ∈ related_tids
    · rw [if_neg (by decide), if_pos hrelated]
      exact ⟨_, rfl⟩
    · rw [if_neg (by decide), if_neg hrelated]
      exact ⟨counts, rfl⟩

theorem exists_plain_turn (h : count_fields line = .ok f) (counts : PyDict ℤ ℕ) :
    ∃ counts', plain_turn related_tids counts line = .ok counts' := by
  by_cases hrelated : f.tid ∈ related_tids
  · simp only [plain_turn, plain_event, h, bind, Except.bind, if_pos hrelated]
    exact ⟨_, rfl⟩
  · simp only [plain_turn, plain_event, h, bind, Except.bind, if_neg hrelated]
    exact ⟨_, rfl⟩

theorem exists_offset_turn (h : offset_fields line = .ok f) (counts : PyDict ℤ ℕ × PyDict ℤ ℕ) :
    ∃ counts', offset_turn related_tids counts line = .ok counts' := by
  obtain ⟨tid_text, htid_text, h⟩ := PyError.ok_of_bind h
  obtain ⟨tid, htid, h⟩ := PyError.ok_of_bind h
  obtain ⟨offset_text, hoffset_text, h⟩ := PyError.ok_of_bind h
  obtain ⟨offset, hoffset, h⟩ := PyError.ok_of_bind h
  obtain ⟨count_text, hcount_text, h⟩ := PyError.ok_of_bind h
  obtain ⟨count, hcount, h⟩ := PyError.ok_of_bind h
  have hevent : offset_event related_tids line =
      .ok (if tid ∈ related_tids then some (count, offset) else none) := by
    simp only [offset_event, htid_text, htid, hoffset_text, hoffset, hcount_text, hcount, bind,
      Except.bind]
    rfl
  unfold offset_turn
  rw [hevent]
  by_cases hrelated : tid ∈ related_tids
  · rw [if_pos hrelated]
    exact ⟨_, rfl⟩
  · rw [if_neg hrelated]
    exact ⟨counts, rfl⟩

theorem typed_fields_print {s : Syscall} (h : s.family = .typed) (e : Event) :
    typed_fields (s.print e) = .ok ⟨e.tid, e.count, some e.type.text, none⟩ := by
  cases s with
  | read | write => exact typed_fields_typed e
  | readv | writev => exact typed_fields_typed_vector e
  | _ => cases h

theorem count_fields_print {s : Syscall} (h : s.family = .plain) (e : Event) :
    count_fields (s.print e) = .ok ⟨e.tid, e.count, none, none⟩ := by
  cases s with
  | recv | recvfrom | send | sendto => exact count_fields_count e
  | recvmsg | sendmsg => exact count_fields_count_vector e
  | _ => cases h

theorem offset_fields_print {s : Syscall} (h : s.family = .offset) (e : Event) :
    ∃ f, offset_fields (s.print e) = .ok f := by
  cases s with
  | pread | pwrite => exact ⟨_, offset_fields_offset e⟩
  | preadv | pwritev => exact ⟨_, offset_fields_offset_vector e⟩
  | _ => cases h

end Probes

section Returns

variable {r : Trace} {related_tids : List ℤ}

theorem exists_first_info (h : Traced r) (n : ℤ) (s : Candidate) :
    ∃ info, first_info r related_tids n s = .ok info := by
  cases s with
  | traced s =>
    obtain ⟨events, hevents⟩ := h.events s
    have hlines : event_lines r s = .ok (events.map s.print) := by
      simp only [event_lines, hevents]
    cases hfamily : s.family with
    | typed =>
      have hturn : ∀ line ∈ events.map s.print, ∀ counts,
          ∃ counts', typed_turn related_tids counts line = .ok counts' := by
        rw [List.forall_mem_map]
        exact fun e _ => exists_typed_turn (typed_fields_print hfamily e) rfl
      obtain ⟨⟨file, socket⟩, hscan⟩ := PyError.exists_foldlM hturn (.empty, .empty)
      exact ⟨_, (FirstInfo.typed hfamily hlines hscan).ok⟩
    | plain =>
      have hturn : ∀ line ∈ events.map s.print, ∀ counts,
          ∃ counts', plain_turn related_tids counts line = .ok counts' := by
        rw [List.forall_mem_map]
        exact fun e _ => exists_plain_turn (count_fields_print hfamily e)
      obtain ⟨count, hscan⟩ := PyError.exists_foldlM hturn .empty
      exact ⟨_, (FirstInfo.plain h.reqs hfamily hlines hscan).ok⟩
    | offset =>
      have hturn : ∀ line ∈ events.map s.print, ∀ counts,
          ∃ counts', offset_turn related_tids counts line = .ok counts' := by
        rw [List.forall_mem_map]
        intro e _
        obtain ⟨f, hf⟩ := offset_fields_print hfamily e
        exact exists_offset_turn hf
      obtain ⟨⟨count, offset⟩, hscan⟩ := PyError.exists_foldlM hturn (.empty, .empty)
      exact ⟨_, (FirstInfo.offset h.reqs hfamily hlines hscan).ok⟩
  | stat | fstat | open' | openat | close => exact ⟨_, (FirstInfo.untraced h.reqs (by simp)).ok⟩

theorem readable_of_traced (h : Traced r) {entry : List Char × ℤ}
    (hentry : entry ∈ r.syscall.entries) : Readable r related_tids entry := by
  obtain ⟨tid, htid⟩ := h.threads entry hentry
  have hwarning : ∀ name, ∃ out, warning r name entry.2 = .ok out := by
    intro name
    unfold warning
    split
    · exact ⟨_, rfl⟩
    · rw [div_ok h.reqs]
      exact ⟨_, rfl⟩
  suffices hread : ∃ called, read_entry r related_tids entry = .ok called by
    obtain ⟨⟨called, out⟩, hread⟩ := hread
    exact ⟨called, out, hread, fun s _ => exists_first_info h entry.2 s⟩
  simp only [read_entry, htid, bind, Except.bind]
  split
  · cases candidate? (syscall_name (func_of entry.1)) with
    | some s => exact ⟨_, rfl⟩
    | none =>
      obtain ⟨out, hout⟩ := hwarning (syscall_name (func_of entry.1))
      simp only [hout]
      exact ⟨_, rfl⟩
  · exact ⟨_, rfl⟩

theorem exists_final_info (h : r.reqs ≠ 0) (info : Info) :
    ∃ info', final_info r info = .ok info' := by
  cases info with
  | typed file socket =>
    have hdiv : ∀ n : ℕ, PyError.div (n : ℚ) r.reqs = .ok ((n : ℚ) / r.reqs) := fun n =>
      PyError.div_eq_ok.mpr ⟨Int.cast_ne_zero.mpr h, rfl⟩
    simp only [final_info, hdiv]
    exact ⟨_, rfl⟩
  | plain | offset => exact ⟨_, rfl⟩

/-- A trace of the probes is analyzed without an error. -/
theorem exists_analyze_syscalls (h : Traced r) :
    ∃ info cout, analyze_syscalls r related_tids = .ok (info, cout) := by
  have hreadable : ∀ entry ∈ r.syscall.entries, Readable r related_tids entry := fun _ hentry =>
    readable_of_traced h hentry
  obtain ⟨st, hst⟩ := exists_run hreadable
  have hfinal : ∃ info, st.syscall_info.mapM (fun _ info => final_info r info) = .ok info :=
    PyDict.mapM_ok fun e _ => exists_final_info h.reqs e.2
  obtain ⟨info, hinfo⟩ := hfinal
  refine ⟨info, st.cout, ?_⟩
  simp only [analyze_syscalls, hst, bind, Except.bind, hinfo]
  rfl

end Returns

/-! ## The order of the entries -/

section Order

variable {r r' : Trace} {related_tids : List ℤ}

/-- Two traces with the same entries, in any order. -/
structure SameTrace (r r' : Trace) : Prop where
  entries : r.syscall.entries.Perm r'.syscall.entries
  reqs : r'.reqs = r.reqs
  events : ∀ s, r'.events.get? s = r.events.get? s

theorem SameTrace.first_info (h : SameTrace r r') (n : ℤ) (s : Candidate) :
    first_info r' related_tids n s = first_info r related_tids n s := by
  cases s <;> simp only [analyze_syscall.first_info, event_lines, h.reqs, h.events]

theorem SameTrace.readable (h : SameTrace r r') {entry : List Char × ℤ}
    (hentry : Readable r related_tids entry) : Readable r' related_tids entry := by
  simpa only [Readable, read_entry, warning, h.reqs, h.first_info] using hentry

theorem SameTrace.final_info (h : SameTrace r r') (info : Info) :
    final_info r' info = final_info r info := by
  cases info <;> simp only [analyze_syscall.final_info, h.reqs]

/-- What the loop knows in the end does not depend on the order. -/
theorem SameTrace.get?_eq (h : SameTrace r r') {st st' : State}
    (hst : After r related_tids r.syscall.entries st)
    (hst' : After r' related_tids r'.syscall.entries st') (s : Candidate) :
    st'.syscall_info.get? s = st.syscall_info.get? s := by
  have hcalls : (calls_of related_tids r.syscall.entries s).Perm
      (calls_of related_tids r'.syscall.entries s) := h.entries.filterMap _
  rcases hst s with ⟨hnil, hget⟩ | ⟨hne, info, hinfo, hget⟩
  · rcases hst' s with ⟨-, hget'⟩ | ⟨hne', -⟩
    · rw [hget, hget']
    · rw [hnil] at hcalls
      exact absurd hcalls.nil_eq.symm hne'
  · rcases hst' s with ⟨hnil', -⟩ | ⟨-, info', hinfo', hget'⟩
    · rw [hnil'] at hcalls
      exact absurd hcalls.eq_nil hne
    · rw [h.first_info, ← hcalls.sum_eq, hinfo] at hinfo'
      cases hinfo'
      rw [hget, hget']

end Order

/-! ## The laws -/

section Laws

variable {r : Trace} {related_tids : List ℤ} {info : PyDict Candidate Info}
  {cout : List (List Char)}

theorem of_analyze_syscalls (h : analyze_syscalls r related_tids = .ok (info, cout)) :
    ∃ st, r.syscall.entries.foldlM (turn r related_tids) {} = .ok st ∧
      st.syscall_info.mapM (fun _ info => final_info r info) = .ok info := by
  obtain ⟨st, hst, h⟩ := PyError.ok_of_bind h
  obtain ⟨info, hinfo, h⟩ := PyError.ok_of_bind h
  cases h
  exact ⟨st, hst, hinfo⟩

/-- The calls with statistics are those that a related thread makes. -/
theorem mem_keys_analyze_syscalls (h : analyze_syscalls r related_tids = .ok (info, cout))
    (s : Candidate) : s ∈ info.keys ↔ calls_of related_tids r.syscall.entries s ≠ [] := by
  obtain ⟨st, hst, hinfo⟩ := of_analyze_syscalls h
  rw [PyDict.keys_mapM hinfo]
  rcases (run_after hst).2 s with ⟨hnil, hget⟩ | ⟨hne, info, -, hget⟩
  · simp [hnil, PyDict.get?_eq_none_iff.mp hget]
  · simp [hne, PyDict.mem_keys_of_get? hget]

theorem correct_of_analyze_syscalls (h : analyze_syscalls r related_tids = .ok (info, cout))
    {s : Candidate} {i : Info} (hget : info.get? s = some i) :
    Correct r related_tids s (calls_of related_tids r.syscall.entries s).sum i := by
  obtain ⟨st, hst, hinfo⟩ := of_analyze_syscalls h
  rcases (run_after hst).2 s with ⟨-, hnone⟩ | ⟨-, first, hfirst, hsome⟩
  · rw [PyDict.get?_eq_none_iff, ← PyDict.keys_mapM hinfo] at hnone
    exact absurd (PyDict.mem_keys_of_get? hget) hnone
  · obtain ⟨final, hfinal, hget'⟩ := PyDict.get?_mapM hinfo hsome
    rw [hget, Option.some.injEq] at hget'
    subst hget'
    exact correct_of_first_info hfirst hfinal

theorem analyze_syscalls_perm (h : analyze_syscalls r related_tids = .ok (info, cout)) {r' : Trace}
    (hsame : SameTrace r r') :
    ∃ info' cout', analyze_syscalls r' related_tids = .ok (info', cout') ∧
      ∀ s, info'.get? s = info.get? s := by
  obtain ⟨st, hst, hinfo⟩ := of_analyze_syscalls h
  obtain ⟨hreadable, hafter⟩ := run_after hst
  have hreadable' : ∀ entry ∈ r'.syscall.entries, Readable r' related_tids entry := by
    intro entry hentry
    exact hsame.readable (hreadable entry (hsame.entries.mem_iff.mpr hentry))
  obtain ⟨st', hst'⟩ := exists_run hreadable'
  have hget := hsame.get?_eq hafter (run_after hst').2
  obtain ⟨info', hinfo', heq⟩ := PyDict.exists_mapM_congr hget hinfo
  refine ⟨info', st'.cout, ?_, heq⟩
  simp only [analyze_syscalls, hst', bind, Except.bind, hsame.final_info, hinfo']
  rfl

/-- The statistics are those of all entries and events of the related threads, in any order of the
entries. A trace of the probes always has statistics. -/
theorem statistics_aggregate_related_threads (r : Trace) (related_tids : List ℤ) :
    (Traced r → ∃ info cout, analyze_syscalls r related_tids = .ok (info, cout)) ∧
      ∀ info cout, analyze_syscalls r related_tids = .ok (info, cout) →
        (∀ s, s ∈ info.keys ↔ calls_of related_tids r.syscall.entries s ≠ []) ∧
        (∀ s i, info.get? s = some i →
          Correct r related_tids s (calls_of related_tids r.syscall.entries s).sum i) ∧
        ∀ r', SameTrace r r' →
          ∃ info' cout', analyze_syscalls r' related_tids = .ok (info', cout') ∧
            ∀ s, info'.get? s = info.get? s := by
  refine ⟨exists_analyze_syscalls, fun info cout h => ⟨?_, ?_, ?_⟩⟩
  · exact mem_keys_analyze_syscalls h
  · exact fun s i => correct_of_analyze_syscalls h
  · exact fun r' => analyze_syscalls_perm h

end Laws

/-- The reads of two related threads and of another one. -/
def sampleEvents : Syscall → List Event
  | .read =>
    [⟨1, 8, 3, 0, 100, 0, fun _ => 0, .file⟩, ⟨1, 9, 3, 0, 100, 0, fun _ => 0, .file⟩,
      ⟨1, 9, 4, 0, 64, 0, fun _ => 0, .socket⟩, ⟨1, 8, 0, 0, 1, 0, fun _ => 0, .other⟩,
      ⟨1, 7, 3, 0, 100, 0, fun _ => 0, .file⟩]
  | _ => []

/-- A trace of two requests, in which one call has two names. -/
def sampleTrace : Trace where
  syscall := ⟨[("1,8,__x64_sys_newfstat".toList, 3), ("1,8,__x64_sys_read".toList, 2),
    ("1,9,__x64_sys_fstat".toList, 2), ("1,9,__x64_sys_read".toList, 2),
    ("1,7,__x64_sys_fstat".toList, 5)], by decide⟩
  reqs := 2
  events := ⟨[.read, .readv, .pread, .preadv, .recv, .recvfrom, .recvmsg, .write, .writev, .pwrite,
    .pwritev, .send, .sendto, .sendmsg].map fun s => (s, (sampleEvents s).map s.print), by decide⟩

theorem traced_sampleTrace : Traced sampleTrace where
  reqs := by decide
  threads := by
    simp only [sampleTrace, List.forall_mem_cons]
    exact ⟨⟨8, by decide +kernel⟩, ⟨8, by decide +kernel⟩, ⟨9, by decide +kernel⟩,
      ⟨9, by decide +kernel⟩, ⟨7, by decide +kernel⟩, by simp⟩
  events := by
    intro s
    refine ⟨sampleEvents s, ?_⟩
    cases s <;> rfl

theorem statistics_aggregate_two_of_three_threads :
    Traced sampleTrace ∧ ∃ info cout, analyze_syscalls sampleTrace [8, 9] = .ok (info, cout) ∧
      (∃ stats, info.get? .fstat = some (.plain stats) ∧ stats.freq * 2 = 5) ∧
      ∃ file socket, info.get? (.traced .read) = some (.typed file socket) ∧
        (file.freq * 2 = 2 ∧ Holds file.count [100, 100]) ∧
        socket.freq * 2 = 1 ∧ Holds socket.count [64] := by
  obtain ⟨hreturns, hlaw⟩ := statistics_aggregate_related_threads sampleTrace [8, 9]
  obtain ⟨info, cout, hinfo⟩ := hreturns traced_sampleTrace
  obtain ⟨hkeys, hcorrect, -⟩ := hlaw info cout hinfo
  have hsome : ∀ s, calls_of [8, 9] sampleTrace.syscall.entries s ≠ [] →
      ∃ i, info.get? s = some i := fun s hs => PyDict.exists_get?_of_mem_keys ((hkeys s).mpr hs)
  refine ⟨traced_sampleTrace, info, cout, hinfo, ?_, ?_⟩
  · have hcalls : calls_of [8, 9] sampleTrace.syscall.entries .fstat = [3, 2] := by decide +kernel
    obtain ⟨i, hi⟩ := hsome .fstat (by simp [hcalls])
    have hi' := hcorrect .fstat i hi
    rw [hcalls] at hi'
    cases i with
    | plain stats =>
      refine ⟨stats, hi, ?_⟩
      simpa [sampleTrace] using hi'.2.1
    | typed file socket => cases hi'.1
    | offset stats offset => cases hi'.1
  · have hcalls : calls_of [8, 9] sampleTrace.syscall.entries (.traced .read) = [2, 2] := by
      decide +kernel
    have hfile : typed_counts [8, 9] "file" (lines_of sampleTrace (.traced .read)) = [100, 100] := by
      decide +kernel
    have hsocket : typed_counts [8, 9] "socket" (lines_of sampleTrace (.traced .read)) = [64] := by
      decide +kernel
    obtain ⟨i, hi⟩ := hsome (.traced .read) (by simp [hcalls])
    have hi' := hcorrect (.traced .read) i hi
    cases i with
    | typed file socket =>
      obtain ⟨-, ⟨hfile_freq, hfile_count⟩, hsocket_freq, hsocket_count⟩ := hi'
      rw [hfile] at hfile_freq hfile_count
      rw [hsocket] at hsocket_freq hsocket_count
      refine ⟨file, socket, hi, ⟨?_, hfile_count⟩, ?_, hsocket_count⟩
      · simpa [sampleTrace] using hfile_freq
      · simpa [sampleTrace] using hsocket_freq
    | plain stats => cases hi'.1
    | offset stats offset => cases hi'.1

end ditto.analyze_syscall
