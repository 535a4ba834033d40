-- The trace of system calls: the lines that the probes print, and the fields
-- that the analyzer takes from them. The analyzer counts some fields from the
-- end of a line, where a line may have any number of buffer lengths.
import Ditto.Lib.PyText

open PyText

namespace ditto.analyze_syscall

/-! ## The printers -/

/-- What a descriptor is. -/
inductive FdType
  | file | socket | other
deriving DecidableEq

def FdType.text : FdType → List Char
  | .file => "file".toList
  | .socket => "socket".toList
  | .other => "other".toList

/-- What the probes record of one call. -/
structure Event where
  pid : ℤ
  tid : ℤ
  fd : ℤ
  offset : ℤ
  count : ℤ
  iov_count : ℤ
  iov_each_count : ℕ → ℤ
  type : FdType

/-- A line: all fields but the last one with a comma and a blank behind them. -/
def printLine (front : List (List Char)) (last : List Char) : List Char :=
  front.flatMap (fun text => text ++ [',', ' ']) ++ last

/-- The buffer lengths that the loop of a printer prints. -/
def Event.iov_texts (e : Event) : List (List Char) :=
  (List.range e.iov_count.toNat).map fun i => ofInt (e.iov_each_count i)

/-- A call on any descriptor. -/
def print_typed (e : Event) : List Char :=
  printLine ([e.pid, e.tid, e.fd, e.count].map ofInt) e.type.text

def print_typed_vector (e : Event) : List Char :=
  printLine ([e.pid, e.tid, e.fd, e.iov_count].map ofInt ++ e.iov_texts ++ [ofInt e.count])
    e.type.text

/-- A call with an offset. -/
def print_offset (e : Event) : List Char :=
  printLine ([e.pid, e.tid, e.fd, e.offset].map ofInt) (ofInt e.count)

def print_offset_vector (e : Event) : List Char :=
  printLine ([e.pid, e.tid, e.fd, e.offset, e.iov_count].map ofInt ++ e.iov_texts) (ofInt e.count)

/-- A call on a socket. -/
def print_count (e : Event) : List Char :=
  printLine ([e.pid, e.tid, e.fd].map ofInt) (ofInt e.count)

def print_count_vector (e : Event) : List Char :=
  printLine ([e.pid, e.tid, e.fd, e.iov_count].map ofInt ++ e.iov_texts) (ofInt e.count)

def print_read : Event → List Char := print_typed
def print_readv : Event → List Char := print_typed_vector
def print_pread : Event → List Char := print_offset
def print_preadv : Event → List Char := print_offset_vector
def print_recv : Event → List Char := print_count
def print_recvfrom : Event → List Char := print_count
def print_recvmsg : Event → List Char := print_count_vector
def print_write : Event → List Char := print_typed
def print_writev : Event → List Char := print_typed_vector
def print_pwrite : Event → List Char := print_offset
def print_pwritev : Event → List Char := print_offset_vector
def print_send : Event → List Char := print_count
def print_sendto : Event → List Char := print_count
def print_sendmsg : Event → List Char := print_count_vector

inductive Syscall
  | read | readv | pread | preadv | recv | recvfrom | recvmsg
  | write | writev | pwrite | pwritev | send | sendto | sendmsg
deriving DecidableEq

def Syscall.print : Syscall → Event → List Char
  | .read => print_read
  | .readv => print_readv
  | .pread => print_pread
  | .preadv => print_preadv
  | .recv => print_recv
  | .recvfrom => print_recvfrom
  | .recvmsg => print_recvmsg
  | .write => print_write
  | .writev => print_writev
  | .pwrite => print_pwrite
  | .pwritev => print_pwritev
  | .send => print_send
  | .sendto => print_sendto
  | .sendmsg => print_sendmsg

/-! ## The analyzer -/

/-- The read `l[i]`. -/
def nth {α : Type} (l : List α) (i : ℕ) : Except PyError α :=
  match l[i]? with
  | none => .error .indexError
  | some x => .ok x

/-- The read `l[-i]`. -/
def fromEnd {α : Type} (l : List α) (i : ℕ) : Except PyError α := nth l.reverse (i - 1)

/-- What the analyzer takes from a line. -/
structure Fields where
  tid : ℤ
  count : ℤ
  type : Option (List Char)
  offset : Option ℤ
deriving DecidableEq

/-- The fields of a call on any descriptor. The analyzer leaves out the lines of type `other`
before it reads their count. -/
def typed_fields (line : List Char) : Except PyError Fields := do
  let tid ← int (← nth (line.splitOn ',') 1)
  let type ← fromEnd ((← fromEnd (line.splitOn ',') 1).splitOn ' ') 1
  let count ← int (← fromEnd (line.splitOn ',') 2)
  return ⟨tid, count, some type, none⟩

def count_fields (line : List Char) : Except PyError Fields := do
  let tid ← int (← nth (line.splitOn ',') 1)
  let count ← int (← fromEnd (line.splitOn ',') 1)
  return ⟨tid, count, none, none⟩

def offset_fields (line : List Char) : Except PyError Fields := do
  let tid ← int (← nth (line.splitOn ',') 1)
  let offset ← int (← fromEnd (line.splitOn ',') 2)
  let count ← int (← fromEnd (line.splitOn ',') 1)
  return ⟨tid, count, none, some offset⟩

def Syscall.fields : Syscall → List Char → Except PyError Fields
  | .read | .write | .readv | .writev => typed_fields
  | .recv | .send | .recvfrom | .sendto | .recvmsg | .sendmsg => count_fields
  | .pread | .pwrite | .preadv | .pwritev => offset_fields

/-- What the event itself says. -/
def Syscall.recorded (s : Syscall) (e : Event) : Fields :=
  match s with
  | .read | .write | .readv | .writev => ⟨e.tid, e.count, some e.type.text, none⟩
  | .recv | .send | .recvfrom | .sendto | .recvmsg | .sendmsg => ⟨e.tid, e.count, none, none⟩
  | .pread | .pwrite | .preadv | .pwritev => ⟨e.tid, e.count, none, some e.offset⟩

/-! ## The fields of a line -/

/-- A text that stays in one field. -/
def Plain (text : List Char) : Prop := ',' ∉ text ∧ ' ' ∉ text

instance (text : List Char) : Decidable (Plain text) := inferInstanceAs (Decidable (_ ∧ _))

theorem plain_ofInt (n : ℤ) : Plain (ofInt n) := by
  have hchar : ∀ c ∈ ofInt n, c = '-' ∨ c.isDigit = true := by
    intro c hc
    cases n with
    | ofNat m => exact .inr (isDigit_of_mem_repr hc)
    | negSucc m =>
      have hc' : c = '-' ∨ c ∈ (m + 1).repr.toList := by simpa [ofInt, Int.repr] using hc
      exact hc'.imp_right isDigit_of_mem_repr
  constructor
  · intro h
    rcases hchar _ h with h | h <;> cases h
  · intro h
    rcases hchar _ h with h | h <;> cases h

theorem plain_text (t : FdType) : Plain t.text := by
  cases t <;> decide

theorem plain_iov_texts (e : Event) : ∀ text ∈ e.iov_texts, Plain text := by
  intro text htext
  obtain ⟨i, -, rfl⟩ := List.mem_map.mp htext
  exact plain_ofInt _

theorem splitOn_append {c : Char} {text rest : List Char} (h : c ∉ text) :
    (text ++ c :: rest).splitOn c = text :: rest.splitOn c := by
  apply List.splitOnP_append_cons_of_forall_mem
  · intro x hx
    simp only [beq_eq_false_iff_ne]
    rintro rfl
    exact h hx
  · simp

theorem splitOn_of_not_mem {c : Char} {text : List Char} (h : c ∉ text) :
    text.splitOn c = [text] := by
  have hsplit : ([c].intercalate [text]).splitOn c = [text] :=
    List.splitOn_intercalate c (by simpa using h) (by simp)
  simpa using hsplit

/-- Each field but the first has a blank in front. -/
theorem splitOn_printLine_blank {front : List (List Char)} {last : List Char}
    (hfront : ∀ text ∈ front, Plain text) (hlast : Plain last) :
    (' ' :: printLine front last).splitOn ',' = (front ++ [last]).map (' ' :: ·) := by
  induction front with
  | nil =>
    have hlast' : ',' ∉ ' ' :: last := by simp [hlast.1]
    simp [printLine, splitOn_of_not_mem hlast']
  | cons text front ih =>
    rw [List.forall_mem_cons] at hfront
    have hline : ' ' :: printLine (text :: front) last =
        (' ' :: text) ++ ',' :: (' ' :: printLine front last) := by
      simp [printLine]
    rw [hline, splitOn_append (by simp [hfront.1.1]), ih hfront.2]
    rfl

theorem splitOn_printLine {text : List Char} {front : List (List Char)} {last : List Char}
    (htext : Plain text) (hfront : ∀ text ∈ front, Plain text) (hlast : Plain last) :
    (printLine (text :: front) last).splitOn ',' = text :: (front ++ [last]).map (' ' :: ·) := by
  have hline : printLine (text :: front) last = text ++ ',' :: (' ' :: printLine front last) := by
    simp [printLine]
  rw [hline, splitOn_append htext.1, splitOn_printLine_blank hfront hlast]

/-! ## What the analyzer takes -/

section fields

variable {pid tid : ℤ} {mid : List (List Char)}

/-- The second field of a line is the thread. -/
theorem nth_tid (hmid : ∀ text ∈ mid, Plain text) {last : List Char} (hlast : Plain last) :
    nth ((printLine (ofInt pid :: ofInt tid :: mid) last).splitOn ',') 1 = .ok (' ' :: ofInt tid) := by
  rw [splitOn_printLine (plain_ofInt pid) (List.forall_mem_cons.mpr ⟨plain_ofInt tid, hmid⟩) hlast]
  rfl

theorem fromEnd_last (hmid : ∀ text ∈ mid, Plain text) {last : List Char} (hlast : Plain last) :
    fromEnd ((printLine (ofInt pid :: ofInt tid :: mid) last).splitOn ',') 1 =
      .ok (' ' :: last) := by
  rw [splitOn_printLine (plain_ofInt pid) (List.forall_mem_cons.mpr ⟨plain_ofInt tid, hmid⟩) hlast]
  simp [fromEnd, nth]

theorem fromEnd_before_last (hmid : ∀ text ∈ mid, Plain text) {text last : List Char}
    (htext : Plain text) (hlast : Plain last) :
    fromEnd ((printLine (ofInt pid :: ofInt tid :: (mid ++ [text])) last).splitOn ',') 2 =
      .ok (' ' :: text) := by
  have hall : ∀ t ∈ mid ++ [text], Plain t := by
    intro t ht
    rcases List.mem_append.mp ht with ht | ht
    · exact hmid t ht
    · rwa [List.mem_singleton.mp ht]
  rw [splitOn_printLine (plain_ofInt pid) (List.forall_mem_cons.mpr ⟨plain_ofInt tid, hall⟩) hlast]
  simp [fromEnd, nth]

theorem fromEnd_blank {text : List Char} (h : Plain text) :
    fromEnd ((' ' :: text).splitOn ' ') 1 = .ok text := by
  have hsplit : (' ' :: text).splitOn ' ' = [] :: text.splitOn ' ' := splitOn_append List.not_mem_nil
  rw [hsplit, splitOn_of_not_mem h.2]
  rfl

theorem typed_fields_printLine (hmid : ∀ text ∈ mid, Plain text) (count : ℤ) (type : FdType) :
    typed_fields (printLine (ofInt pid :: ofInt tid :: (mid ++ [ofInt count])) type.text) =
      .ok ⟨tid, count, some type.text, none⟩ := by
  have hall : ∀ t ∈ mid ++ [ofInt count], Plain t := by
    simpa [or_imp, forall_and] using ⟨hmid, plain_ofInt count⟩
  unfold typed_fields
  rw [nth_tid hall (plain_text type), fromEnd_last hall (plain_text type),
    fromEnd_before_last hmid (plain_ofInt count) (plain_text type)]
  simp only [bind, Except.bind, int_space_ofInt, fromEnd_blank (plain_text type)]
  rfl

theorem count_fields_printLine (hmid : ∀ text ∈ mid, Plain text) (count : ℤ) :
    count_fields (printLine (ofInt pid :: ofInt tid :: mid) (ofInt count)) =
      .ok ⟨tid, count, none, none⟩ := by
  unfold count_fields
  rw [nth_tid hmid (plain_ofInt count), fromEnd_last hmid (plain_ofInt count)]
  simp only [bind, Except.bind, int_space_ofInt]
  rfl

theorem offset_fields_printLine (hmid : ∀ text ∈ mid, Plain text) (offset count : ℤ) :
    offset_fields (printLine (ofInt pid :: ofInt tid :: (mid ++ [ofInt offset])) (ofInt count)) =
      .ok ⟨tid, count, none, some offset⟩ := by
  have hall : ∀ t ∈ mid ++ [ofInt offset], Plain t := by
    simpa [or_imp, forall_and] using ⟨hmid, plain_ofInt offset⟩
  unfold offset_fields
  rw [nth_tid hall (plain_ofInt count), fromEnd_last hall (plain_ofInt count),
    fromEnd_before_last hmid (plain_ofInt offset) (plain_ofInt count)]
  simp only [bind, Except.bind, int_space_ofInt]
  rfl

end fields

/-- The length of the last buffer, or the number of buffers when there is none. -/
def Event.last_length (e : Event) : ℤ :=
  if e.iov_count ≤ 0 then e.iov_count else e.iov_each_count (e.iov_count.toNat - 1)

/-- The buffer lengths with the number of buffers in front end in the last length. -/
theorem exists_iov_texts_eq (e : Event) :
    ∃ mid, ofInt e.iov_count :: e.iov_texts = mid ++ [ofInt e.last_length] ∧
      ∀ text ∈ mid, Plain text := by
  unfold Event.last_length
  split
  · rename_i hnone
    exact ⟨[], by simp [Event.iov_texts, Int.toNat_of_nonpos hnone], by simp⟩
  · rename_i hsome
    obtain ⟨n, hn⟩ := Nat.exists_eq_succ_of_ne_zero (by omega : e.iov_count.toNat ≠ 0)
    refine ⟨ofInt e.iov_count :: (List.range n).map fun i => ofInt (e.iov_each_count i), ?_, ?_⟩
    · simp [Event.iov_texts, hn, List.range_succ]
    · rw [List.forall_mem_cons]
      refine ⟨plain_ofInt _, ?_⟩
      intro text h
      obtain ⟨i, -, rfl⟩ := List.mem_map.mp h
      exact plain_ofInt _

/-! ### The fields of each printer -/

theorem plain_fd (e : Event) : ∀ text ∈ [ofInt e.fd], Plain text := by
  simpa using plain_ofInt e.fd

theorem plain_fd_iov (e : Event) :
    ∀ text ∈ [ofInt e.fd, ofInt e.iov_count] ++ e.iov_texts, Plain text := by
  simp only [List.mem_append, List.mem_cons, List.not_mem_nil, or_false]
  rintro text ((rfl | rfl) | h)
  · exact plain_ofInt _
  · exact plain_ofInt _
  · exact plain_iov_texts e text h

theorem typed_fields_typed (e : Event) :
    typed_fields (print_typed e) = .ok ⟨e.tid, e.count, some e.type.text, none⟩ :=
  typed_fields_printLine (plain_fd e) e.count e.type

theorem typed_fields_typed_vector (e : Event) :
    typed_fields (print_typed_vector e) = .ok ⟨e.tid, e.count, some e.type.text, none⟩ :=
  typed_fields_printLine (plain_fd_iov e) e.count e.type

theorem count_fields_count (e : Event) :
    count_fields (print_count e) = .ok ⟨e.tid, e.count, none, none⟩ :=
  count_fields_printLine (plain_fd e) e.count

theorem count_fields_count_vector (e : Event) :
    count_fields (print_count_vector e) = .ok ⟨e.tid, e.count, none, none⟩ :=
  count_fields_printLine (plain_fd_iov e) e.count

theorem offset_fields_offset (e : Event) :
    offset_fields (print_offset e) = .ok ⟨e.tid, e.count, none, some e.offset⟩ :=
  offset_fields_printLine (plain_fd e) e.offset e.count

/-- In a line with buffer lengths, the field in front of the count is no offset. -/
theorem offset_fields_offset_vector (e : Event) :
    offset_fields (print_offset_vector e) = .ok ⟨e.tid, e.count, none, some e.last_length⟩ := by
  obtain ⟨mid, hmid, hplain⟩ := exists_iov_texts_eq e
  have hline : print_offset_vector e = printLine (ofInt e.pid :: ofInt e.tid ::
      (ofInt e.fd :: ofInt e.offset :: mid ++ [ofInt e.last_length])) (ofInt e.count) := by
    simp [print_offset_vector, ← hmid]
  rw [hline]
  apply offset_fields_printLine
  rw [List.forall_mem_cons, List.forall_mem_cons]
  exact ⟨plain_ofInt _, plain_ofInt _, hplain⟩

/-! ## The laws -/

/-- The calls with an offset and buffer lengths. -/
def Syscall.OffsetVector (s : Syscall) : Prop := s = .preadv ∨ s = .pwritev

/-- The line of an event gives back what the event says, except that a call with an offset and
buffer lengths must have its last length for its offset. -/
theorem fields_print_iff (s : Syscall) (e : Event) :
    s.fields (s.print e) = .ok (s.recorded e) ↔ (s.OffsetVector → e.offset = e.last_length) := by
  have hvector : offset_fields (print_offset_vector e) =
      .ok ⟨e.tid, e.count, none, some e.offset⟩ ↔ e.offset = e.last_length := by
    rw [offset_fields_offset_vector]
    simp [eq_comm]
  cases s <;> simp only [Syscall.fields, Syscall.print, Syscall.recorded, Syscall.OffsetVector,
    reduceCtorEq, or_self, or_true, true_or, false_implies, true_implies, iff_true]
  case read => exact typed_fields_typed e
  case readv => exact typed_fields_typed_vector e
  case pread => exact offset_fields_offset e
  case preadv => exact hvector
  case recv => exact count_fields_count e
  case recvfrom => exact count_fields_count e
  case recvmsg => exact count_fields_count_vector e
  case write => exact typed_fields_typed e
  case writev => exact typed_fields_typed_vector e
  case pwrite => exact offset_fields_offset e
  case pwritev => exact hvector
  case send => exact count_fields_count e
  case sendto => exact count_fields_count e
  case sendmsg => exact count_fields_count_vector e

/-- A trace reads back exactly when each of its calls with an offset and buffer lengths has its
last length for its offset. -/
theorem a_trace_reads_back_iff_offsets_are_last_lengths (events : List (Syscall × Event)) :
    (∀ x ∈ events, x.1.fields (x.1.print x.2) = .ok (x.1.recorded x.2)) ↔
      ∀ x ∈ events, x.1.OffsetVector → x.2.offset = x.2.last_length := by
  constructor
  · intro h x hx
    exact (fields_print_iff x.1 x.2).mp (h x hx)
  · intro h x hx
    exact (fields_print_iff x.1 x.2).mpr (h x hx)

/-- A read of 512 bytes at offset 4096 into one buffer. -/
def readAt4096 : Event := ⟨7, 8, 3, 4096, 512, 1, fun _ => 512, .file⟩

theorem an_offset_with_buffers_reads_back_as_a_length :
    print_preadv readAt4096 = "7, 8, 3, 4096, 1, 512, 512".toList ∧
      Syscall.preadv.fields (print_preadv readAt4096) = .ok ⟨8, 512, none, some 512⟩ ∧
      Syscall.preadv.recorded readAt4096 = ⟨8, 512, none, some 4096⟩ := by
  decide +kernel

end ditto.analyze_syscall
