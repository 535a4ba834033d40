-- The characteristics of the thread clusters (`__cluster_characterization` of
-- backbone_analysis/analyze_cluster.py): from the reports of the probes to the
-- network model. What the model says was seen at some hit. The regression is
-- not part of the repository; what is used of it is assumed.
import Ditto.Lib.Mass
import Ditto.NetworkModel
import Ditto.ProbeReport
import Ditto.ThreadClusters

open ditto.thread_clusters (Key RunArg)
open ditto.threads_stp (Work Task Hit Report FdKey FdReport timesDone print_processes print_threads
  print_fds)
open ditto.network_model (Cluster NetworkModel item)

namespace ditto.characterization

/-! ## The source -/

/-- What is read of the output of the probes. -/
structure StapResult where
  processes : PyDict ℤ Report
  threads : PyDict ℤ Report
  fds : PyDict FdKey FdReport

/-- The model of `__filter_clusters`, which keeps the clusters of at least half of the runs. -/
def filter_clusters (clusters : PyDict ℕ (List Key)) (run_args : List RunArg) :
    PyDict ℕ (List Key) :=
  clusters.filter fun _ cluster =>
    let exist_run_args := cluster.foldl (fun seen key =>
      if key.run_arg ∈ seen then seen else seen ++ [key.run_arg]) []
    ¬ (exist_run_args.length : ℚ) < 1 / 2 * run_args.length

/-- The model of `most_frequent`. -/
def most_frequent (l : List ℕ) : Except PyError (ℕ × ℚ) := do
  let first ← item l 0
  let best := l.foldl (fun best i => if l.count i > best.2 then (i, l.count i) else best) (first, 0)
  return (best.1, best.2 / l.length)

section Helpers

variable (stap_results : RunArg → StapResult) (cluster : List Key)

/-- The type of a process. -/
def process_type (key : Key) : Except PyError ℕ := do
  let pid : ℕ ← item key.ids 0
  match (stap_results key.run_arg).processes.get? (pid : ℤ) with
  | some report => return report.type
  | none => .error .keyError

/-- The type of a thread. One without a report counts as one that did no work. -/
def thread_type (key : Key) : Except PyError ℕ := do
  let tid : ℕ ← item key.ids 1
  match (stap_results key.run_arg).threads.get? (tid : ℤ) with
  | some report => return report.type
  | none => return 1

/-- The types of the processes or threads of a cluster. -/
def functionality_list : Except PyError (List ℕ) := do
  let first ← item cluster 0
  if first.ids.length = 1 then cluster.mapM (process_type stap_results)
  else if first.ids.length = 2 then cluster.mapM (thread_type stap_results)
  else .error .unboundLocalError

def functionality_helper : Except PyError (ℕ × ℚ) := do
  let functionality ← functionality_list stap_results cluster
  most_frequent functionality

/-- The flags of the sockets of the processes or threads of a cluster. The order of a set is not
known, and this is one of them. -/
def socket_settings_helper : List (List Char) :=
  (cluster.flatMap fun key =>
    (stap_results key.run_arg).fds.entries.filterMap fun e =>
      if e.2.mode ≠ .sock then none
      else if key.ids.length = 2 then
        if e.1.1 = key.ids.getD 0 0 ∧ e.1.2.1 = key.ids.getD 1 0 then some e.2.flag else none
      else if e.1.1 = key.ids.getD 0 0 then some e.2.flag else none).dedup

end Helpers

/-- The arguments of the typical run. -/
structure Configs where
  typical_conns : ℕ
  typical_reqs : ℕ
  typical_duration : ℕ

inductive Column
  | conns | reqs | duration
deriving DecidableEq

/-- The runs in which only this argument differs from the typical one. -/
def Column.rows (configs : Configs) (rows : List (RunArg × ℕ)) : Column → List (ℚ × ℚ)
  | conns => (rows.filter fun r =>
      r.1.2.1 = configs.typical_reqs ∧ r.1.2.2 = configs.typical_duration).map
        fun r => ((r.1.1 : ℚ), (r.2 : ℚ))
  | reqs => (rows.filter fun r =>
      r.1.1 = configs.typical_conns ∧ r.1.2.2 = configs.typical_duration).map
        fun r => ((r.1.2.1 : ℚ), (r.2 : ℚ))
  | duration => (rows.filter fun r =>
      r.1.1 = configs.typical_conns ∧ r.1.2.1 = configs.typical_reqs).map
        fun r => ((r.1.2.2 : ℚ), (r.2 : ℚ))

/-- How often a cluster occurs in each run that it occurs in. -/
def counts (cluster : List Key) : PyDict RunArg ℕ := .tally (cluster.map Key.run_arg)

/-- What a regression gives: a score, which may be no number, and a line. -/
structure Fit where
  score : Option ℚ
  coef : ℚ
  intercept : ℚ

/-- What is used of `LinearRegression` of sklearn, where `none` is a `ValueError`: it does not fit
no rows, and the line through rows with one count is level. -/
structure LinearRegression (fit : List (ℚ × ℚ) → Option Fit) : Prop where
  nil : fit [] = none
  level : ∀ (rows : List (ℚ × ℚ)) (n : ℕ), rows ≠ [] → (∀ r ∈ rows, r.2 = n) →
    ∃ reg, fit rows = some reg ∧ reg.coef = 0 ∧ reg.intercept = n

/-- The double that is nearest to 0.9. -/
def r2_threshold : ℚ := 8106479329266893 / 2 ^ 53

/-- The model of `count_helper` for one column. An error of the fit is left out. Where the line does
not fit, or its score is no number, the largest count of all runs is taken. -/
def count_helper (fit : List (ℚ × ℚ) → Option Fit) (configs : Configs) (cluster : List Key)
    (col_x : Column) : Option (ℚ × ℚ) :=
  let rows := (counts cluster).entries
  (fit (col_x.rows configs rows)).map fun reg =>
    if reg.score.any (· > r2_threshold) then (reg.coef, reg.intercept)
    else (0, ((rows.map Prod.snd).foldl max 0 : ℕ))

/-- The model of `__cluster_characterization`, as far as the network model reads it. The order of
the ids is that of a set. -/
def cluster_characterization (fit : List (ℚ × ℚ) → Option Fit) (configs : Configs)
    (ids_order : List (ℕ × ℕ) → List (ℕ × ℕ)) (stap_results : RunArg → StapResult)
    (clusters : PyDict ℕ (List Key)) : Except PyError (PyDict ℕ Cluster) :=
  clusters.mapM fun _ cluster => do
    let functionality ← functionality_helper stap_results cluster
    return {
      functionality := functionality.1
      count_reqs := (count_helper fit configs cluster .reqs).map Prod.snd
      socket_settings := socket_settings_helper stap_results cluster
      pids_tids := ids_order (cluster.map fun key => (key.ids.getD 0 0, key.ids.getD 1 0)) }

/-- The analysis of thread clusters, up to the network model. -/
def analyze (fit : List (ℚ × ℚ) → Option Fit) (configs : Configs)
    (ids_order : List (ℕ × ℕ) → List (ℕ × ℕ)) (stap_results : RunArg → StapResult)
    (clusters : PyDict ℕ (List Key)) (run_args : List RunArg) (main_pid : ℕ) :
    Except PyError NetworkModel := do
  let characteristics ← cluster_characterization fit configs ids_order stap_results
    (filter_clusters clusters run_args)
  network_model.analyze_network_model (network_model.cluster_characterization characteristics)
    main_pid

/-! ## The most frequent type -/

section MostFrequent

variable {l : List ℕ}

/-- The loop ends with its first value or with one of the list, and with the largest count. -/
theorem most_frequent_loop (xs : List ℕ) (best : ℕ × ℕ) :
    let r := xs.foldl (fun best i => if l.count i > best.2 then (i, l.count i) else best) best
    (r = best ∨ r.1 ∈ xs ∧ r.2 = l.count r.1) ∧ best.2 ≤ r.2 ∧ ∀ x ∈ xs, l.count x ≤ r.2 := by
  induction xs generalizing best with
  | nil => simp
  | cons x xs ih =>
    obtain ⟨hfrom, hle, hall⟩ := ih (if l.count x > best.2 then (x, l.count x) else best)
    rw [List.foldl_cons]
    revert hfrom hle hall
    generalize xs.foldl _ _ = r
    intro hfrom hle hall
    dsimp only
    rw [List.forall_mem_cons]
    by_cases hmore : l.count x > best.2
    · rw [if_pos hmore] at hfrom hle
      refine ⟨.inr ?_, hmore.le.trans hle, hle, hall⟩
      rcases hfrom with rfl | ⟨hmem, hcount⟩
      · exact ⟨List.mem_cons_self, rfl⟩
      · exact ⟨List.mem_cons_of_mem _ hmem, hcount⟩
    · rw [if_neg hmore] at hfrom hle
      refine ⟨?_, hle, (not_lt.mp hmore).trans hle, hall⟩
      rcases hfrom with hfrom | ⟨hmem, hcount⟩
      · exact .inl hfrom
      · exact .inr ⟨List.mem_cons_of_mem _ hmem, hcount⟩

/-- The result occurs at least as often as any other. -/
theorem most_frequent_spec {num : ℕ} {freq : ℚ} (h : most_frequent l = .ok (num, freq)) :
    num ∈ l ∧ (∀ x ∈ l, l.count x ≤ l.count num) ∧ freq = l.count num / l.length := by
  cases l with
  | nil => cases h
  | cons first l =>
    obtain ⟨hfrom, -, hall⟩ := @most_frequent_loop (first :: l) (first :: l) (first, 0)
    simp only [most_frequent, item, List.getElem?_cons_zero, bind, Except.bind, pure, Except.pure,
      Except.ok.injEq, Prod.mk.injEq] at h
    revert hfrom hall h
    generalize (first :: l).foldl _ _ = r
    rintro hfrom hall ⟨rfl, rfl⟩
    have hr : r.1 ∈ first :: l ∧ r.2 = (first :: l).count r.1 := by
      rcases hfrom with rfl | hr
      · -- the first value has a count that is not 0
        have hpos := hall first List.mem_cons_self
        simp at hpos
      · exact hr
    exact ⟨hr.1, fun x hx => hr.2 ▸ hall x hx, by rw [hr.2]⟩

end MostFrequent

/-! ## The clusters and the hits -/

/-- What the probes print after some hits. -/
def stap_result (target : ℤ) (hits : List (Task × Hit)) : StapResult where
  processes := print_processes (threads_stp.run target hits)
  threads := print_threads (threads_stp.run target hits)
  fds := print_fds (threads_stp.run target hits)

variable {cluster : List Key}

section Hits

variable (target : ℤ) (hits : RunArg → List (Task × Hit))

/-- The process and the thread of a key. -/
def pidOf (key : Key) : ℤ := key.ids.getD 0 0

def tidOf (key : Key) : ℤ := key.ids.getD 1 0

/-- The thread did this work in its run. -/
def Did (key : Key) (w : Work) : Prop :=
  0 < timesDone target (hits key.run_arg) Prod.snd w (tidOf key)

/-- The type that a thread counts with. -/
def typeOf (key : Key) : ℕ :=
  match (stap_result target (hits key.run_arg)).threads.get? (tidOf key) with
  | some report => report.type
  | none => 1

/-- The bit of a work is set in the type of a thread exactly if the thread did the work. -/
theorem typeOf_bit {w : Work} (hw : w ≠ .switched_off) (key : Key) :
    typeOf target hits key &&& w.bit ≠ 0 ↔ Did target hits key w := by
  have hbits := (threads_stp.types_run target (hits key.run_arg) hw (tidOf key)).2
  have hdid : Did target hits key w ↔
      ∃ pid, (w, pid, tidOf key) ∈ (hits key.run_arg).filterMap (threads_stp.worked target) := by
    unfold Did
    rw [threads_stp.timesDone_pos_iff]
    simp
  rw [hdid, ← hbits]
  unfold typeOf stap_result print_threads
  dsimp only
  rw [PyDict.get?_mapVal]
  unfold PyDict.val
  cases (threads_stp.run target (hits key.run_arg)).tids.get? (tidOf key) with
  | none =>
    have happ : 1 &&& w.bit = 0 := threads_stp.app_and_bit w hw
    simp only [Option.map_none, Option.getD_none, happ, Nat.zero_and]
  | some type => rfl

theorem thread_type_eq {key : Key} (hids : key.ids.length = 2) :
    thread_type (fun r => stap_result target (hits r)) key = .ok (typeOf target hits key) := by
  have hitem : item key.ids 1 = .ok (key.ids.getD 1 0) := by
    unfold item
    rw [List.getD_eq_getElem?_getD, List.getElem?_eq_getElem (by omega)]
    rfl
  simp only [thread_type, hitem, bind, Except.bind, typeOf, tidOf]
  cases (stap_result target (hits key.run_arg)).threads.get? _ <;> rfl

theorem functionality_list_of_threads (hids : ∀ key ∈ cluster, key.ids.length = 2) {types : List ℕ}
    (h : functionality_list (fun r => stap_result target (hits r)) cluster = .ok types) :
    types = cluster.map (typeOf target hits) := by
  cases cluster with
  | nil => cases h
  | cons first cluster =>
    have hmap : (first :: cluster).mapM (thread_type fun r => stap_result target (hits r)) =
        .ok ((first :: cluster).map (typeOf target hits)) :=
      PyError.mapM_eq_ok fun key hkey => thread_type_eq target hits (hids key hkey)
    have hlen := hids first List.mem_cons_self
    have hfirst : item (first :: cluster) 0 = .ok first := rfl
    rw [functionality_list, hfirst] at h
    simp only [bind, Except.bind, hlen] at h
    rw [if_neg (by decide), if_pos trivial, hmap] at h
    cases h
    rfl

/-- A bit in the functionality of a cluster was set by the work of one of its threads, and a work
that all its threads did gives a bit. -/
theorem functionality_bit (hids : ∀ key ∈ cluster, key.ids.length = 2) {functionality : ℕ × ℚ}
    (h : functionality_helper (fun r => stap_result target (hits r)) cluster = .ok functionality)
    {w : Work} (hw : w ≠ .switched_off) :
    (functionality.1 &&& w.bit ≠ 0 → ∃ key ∈ cluster, Did target hits key w) ∧
      ((∀ key ∈ cluster, Did target hits key w) → functionality.1 &&& w.bit ≠ 0) := by
  obtain ⟨types, htypes, hmost⟩ := PyError.ok_of_bind h
  obtain ⟨hmem, -, -⟩ := most_frequent_spec hmost
  rw [functionality_list_of_threads target hits hids htypes] at hmem
  obtain ⟨key, hkey, htype⟩ := List.mem_map.mp hmem
  have hbit := typeOf_bit target hits hw key
  rw [htype] at hbit
  exact ⟨fun hset => ⟨key, hkey, hbit.mp hset⟩, fun hall => hbit.mpr (hall key hkey)⟩

/-- Some call of a thread of the cluster was on a descriptor with these flags. -/
def FlagsSeen (cluster : List Key) (flags : List Char) : Prop :=
  ∃ key ∈ cluster, ∃ fd, ∃ c ∈ threads_stp.calls target (pidOf key, tidOf key, fd)
    (hits key.run_arg), c.2.flags = flags

theorem handled_of_sock {c : analyze_syscall.Syscall × threads_stp.File} (h : c.2.mode = .sock) :
    threads_stp.handled c = true := by
  unfold threads_stp.handled threads_stp.ioWork
  rw [h]
  cases c.1.family <;> rfl

/-- The flags of a socket in the output were seen at a call. -/
theorem exists_call_of_report {calls_hits : List (Task × Hit)} {fdkey : FdKey} {report : FdReport}
    (h : (print_fds (threads_stp.run target calls_hits)).get? fdkey = some report)
    (hsock : report.mode = .sock) :
    ∃ c ∈ threads_stp.calls target fdkey calls_hits, c.2.flags = report.flag := by
  have hknown := threads_stp.known_run target fdkey calls_hits
  unfold print_fds at h
  rw [PyDict.get?_mapVal, hknown.fds, hknown.mode, hknown.flag] at h
  cases hlast : (threads_stp.calls target fdkey calls_hits).getLast? with
  | none => simp [hlast] at h
  | some last =>
    simp only [hlast, Option.map_some, Option.some.injEq] at h
    subst h
    have hhandled := handled_of_sock (show last.2.mode = .sock from hsock)
    have hmem : last ∈ threads_stp.calls target fdkey calls_hits := List.mem_of_getLast? hlast
    cases hfind : (threads_stp.calls target fdkey calls_hits).find? threads_stp.handled with
    | none => exact absurd hhandled (List.find?_eq_none.mp hfind last hmem)
    | some first => exact ⟨first, List.mem_of_find?_eq_some hfind, rfl⟩

/-- Each socket setting of a cluster was seen at a call. -/
theorem flagsSeen_of_mem_settings (hids : ∀ key ∈ cluster, key.ids.length = 2) {flags : List Char}
    (h : flags ∈ socket_settings_helper (fun r => stap_result target (hits r)) cluster) :
    FlagsSeen target hits cluster flags := by
  unfold socket_settings_helper at h
  rw [List.mem_dedup, List.mem_flatMap] at h
  obtain ⟨key, hkey, h⟩ := h
  obtain ⟨⟨⟨pid, tid, fd⟩, report⟩, hentry, h⟩ := List.mem_filterMap.mp h
  simp only [hids key hkey, if_true, ne_eq, ite_not] at h
  split at h
  · rename_i hsock
    split at h
    · rename_i howner
      obtain ⟨rfl, rfl⟩ := howner
      cases h
      have hget := PyDict.get?_eq_some_iff.mpr hentry
      obtain ⟨c, hc, hflags⟩ := exists_call_of_report target hget hsock
      exact ⟨key, hkey, fd, c, hc, hflags⟩
    · cases h
  · cases h

end Hits

/-! ## The network model -/

section Network

open network_model

variable {c : Cluster} {start model : NetworkModel}

/-- What a cluster of network threads gives. -/
structure NetworkPart (c : Cluster) (model : NetworkModel) : Prop where
  epoll : model.network_epoll = true ↔ c.Has EPOLL
  size : model.network_epoll = true →
    ∃ q, c.count_reqs = some q ∧ model.network_thread_pool_size = roundEven q
  nonblocking : model.nonblocking = true →
    ∃ flags, c.socket_settings = [flags] ∧ "O_NONBLOCK".toList <:+: flags
  blocking : model.blocking = true →
    ∃ flags, c.socket_settings = [flags] ∧ ¬ "O_NONBLOCK".toList <:+: flags

theorem of_assert {p : Prop} [Decidable p] {message : String} {u : Unit}
    (h : assert p message = .ok u) : p := by
  unfold assert at h
  split at h
  · assumption
  · cases h

theorem size_of_ok {size : ℤ} (h : pool_size c.characteristics = .ok size) :
    ∃ q, c.count_reqs = some q ∧ size = roundEven q := by
  unfold pool_size Cluster.characteristics at h
  cases hcount : c.count_reqs with
  | none => simp [hcount] at h
  | some q =>
    simp only [hcount] at h
    cases h
    exact ⟨q, rfl, rfl⟩

theorem networkPart_of_ok (hepoll : start.network_epoll = false)
    (hnonblocking : start.nonblocking = false) (hblocking : start.blocking = false)
    (h : analyze_network_thread start c.characteristics = .ok model) : NetworkPart c model := by
  unfold analyze_network_thread at h
  simp only [c.mentions_epoll] at h
  split at h
  · rename_i hbit
    obtain ⟨-, -, h⟩ := PyError.ok_of_bind h
    obtain ⟨size, hsize, h⟩ := PyError.ok_of_bind h
    cases h
    refine ⟨iff_of_true rfl hbit, fun _ => ?_, fun h => ?_, fun h => ?_⟩
    · exact size_of_ok hsize
    · rw [show _ = start.nonblocking from rfl, hnonblocking] at h
      cases h
    · rw [show _ = start.blocking from rfl, hblocking] at h
      cases h
  · rename_i hbit
    obtain ⟨_, hassert, h⟩ := PyError.ok_of_bind h
    obtain ⟨setting, hitem, h⟩ := PyError.ok_of_bind h
    obtain ⟨flags, hflags⟩ := List.length_eq_one_iff.mp (of_assert hassert)
    have hflags' : c.socket_settings = [flags] := hflags
    rw [hflags] at hitem
    cases hitem
    by_cases hset : "O_NONBLOCK".toList <:+: setting
    · simp only [hset, if_true] at h
      cases h
      refine ⟨?_, fun h => ?_, fun _ => ⟨setting, hflags', hset⟩, fun h => ?_⟩
      · exact iff_of_false (by simp [hepoll]) hbit
      · simp [hepoll] at h
      · simp [hblocking] at h
    · simp only [hset, if_false] at h
      cases h
      refine ⟨?_, fun h => ?_, fun h => ?_, fun _ => ⟨setting, hflags', hset⟩⟩
      · exact iff_of_false (by simp [hepoll]) hbit
      · simp [hepoll] at h
      · simp [hnonblocking] at h

/-- The part for the network threads leaves the size of the accepting pool. -/
theorem accept_size_of_ok (h : analyze_network_thread start c.characteristics = .ok model) :
    model.accept_thread_pool_size = start.accept_thread_pool_size := by
  have hend := networkEnd c start
  rw [h] at hend
  cases hend with
  | clones _ _ hasserts | settings _ _ hasserts =>
    obtain ⟨message, hmessage⟩ := hasserts
    cases hmessage
  | epoll | nonblocking | blocking => rfl

/-- A network model comes from one cluster that accepts and one that sends. -/
theorem parts_of_analyze {clusters : PyDict ℕ Cluster} {main_pid : ℕ}
    (h : analyze_network_model (network_model.cluster_characterization clusters) main_pid =
      .ok model) :
    (∃ a ∈ clusters.values, a.Has LISTEN ∧
      ∃ q, a.count_reqs = some q ∧ model.accept_thread_pool_size = roundEven q) ∧
      ∃ n ∈ clusters.values, n.Has TCP_SEND ∧ NetworkPart n model := by
  by_cases hlisten : clusters.values.countP (·.Has LISTEN) = 1
  swap
  · obtain ⟨message, heq⟩ := @asserts_of_accept clusters main_pid hlisten
    rw [h] at heq
    cases heq
  by_cases hsend : clusters.values.countP (·.Has TCP_SEND) = 1
  swap
  · obtain ⟨message, heq⟩ := @asserts_of_network clusters main_pid hlisten hsend
    rw [h] at heq
    cases heq
  obtain ⟨a, ha, hamem, habit, -⟩ := exists_only hlisten
  obtain ⟨n, hn, hnmem, hnbit, -⟩ := exists_only hsend
  rw [analyze_of_one ha hn] at h
  obtain ⟨pid_tid, -, h⟩ := PyError.ok_of_bind h
  obtain ⟨size, hsize, h⟩ := PyError.ok_of_bind h
  obtain ⟨model', hmodel, h⟩ := PyError.ok_of_bind h
  obtain ⟨-, -, h⟩ := PyError.ok_of_bind h
  cases h
  obtain ⟨q, hq, rfl⟩ := size_of_ok hsize
  exact ⟨⟨a.2, hamem, habit, q, hq, accept_size_of_ok hmodel⟩, n.2, hnmem, hnbit,
    networkPart_of_ok rfl rfl rfl hmodel⟩

end Network

section Law

variable (target : ℤ) (hits : RunArg → List (Task × Hit)) {fit : List (ℚ × ℚ) → Option Fit}
  {configs : Configs} {ids_order : List (ℕ × ℕ) → List (ℕ × ℕ)} {clusters : PyDict ℕ (List Key)}
  {run_args : List RunArg} {main_pid : ℕ} {model : NetworkModel}

/-- The cluster that a characterization is of. -/
theorem exists_cluster {stap_results : RunArg → StapResult} {characteristics : PyDict ℕ Cluster}
    (h : cluster_characterization fit configs ids_order stap_results
      (filter_clusters clusters run_args) = .ok characteristics)
    {c : Cluster} (hc : c ∈ characteristics.values) :
    ∃ cluster ∈ clusters.values, ∃ freq,
      functionality_helper stap_results cluster = .ok (c.functionality, freq) ∧
      c.count_reqs = (count_helper fit configs cluster .reqs).map Prod.snd ∧
      c.socket_settings = socket_settings_helper stap_results cluster := by
  obtain ⟨⟨label', c'⟩, he, rfl⟩ := List.mem_map.mp hc
  obtain ⟨⟨label, cluster⟩, hcluster, -, hok⟩ := exists_of_forall₂ (PyDict.mapM_spec h) he
  have hcluster : (label, cluster) ∈ clusters.entries := (List.mem_filter.mp hcluster).1
  obtain ⟨⟨functionality, freq⟩, hfunctionality, hok⟩ := PyError.ok_of_bind hok
  cases hok
  exact ⟨cluster, List.mem_map_of_mem hcluster, freq, hfunctionality, rfl, rfl⟩

/-- The cluster has `n` processes or threads in each run that it occurs in. -/
def InEachRun (cluster : List Key) (n : ℕ) : Prop :=
  ∀ key ∈ cluster, (cluster.countP fun k => k.run_arg = key.run_arg) = n

theorem count_of_inEachRun {n : ℕ} (h : InEachRun cluster n) {r : RunArg × ℕ}
    (hr : r ∈ (counts cluster).entries) : r.2 = n := by
  have hget := PyDict.get?_eq_some_iff.mpr hr
  rw [counts, PyDict.get?_tally] at hget
  split at hget
  · rename_i hmem
    obtain ⟨key, hkey, hrun⟩ := List.mem_map.mp hmem
    rw [← Option.some.inj hget, ← hrun, ← h key hkey]
    unfold List.count
    rw [List.countP_map]
    exact List.countP_congr fun k _ => by simp
  · cases hget

/-- A row of a column is a run with its count. -/
theorem Column.exists_of_mem_rows {rows : List (RunArg × ℕ)} {col_x : Column} {p : ℚ × ℚ}
    (hp : p ∈ col_x.rows configs rows) : ∃ r ∈ rows, p.2 = r.2 := by
  cases col_x with
  | conns | reqs | duration =>
    obtain ⟨r, hr, rfl⟩ := List.mem_map.mp hp
    exact ⟨r, List.mem_of_mem_filter hr, rfl⟩

theorem foldl_max_of_equal {n : ℕ} {l : List ℕ} (h : ∀ x ∈ l, x = n) : l.foldl max n = n := by
  induction l with
  | nil => rfl
  | cons x l ih =>
    obtain ⟨rfl, h⟩ := List.forall_mem_cons.mp h
    rw [List.foldl_cons, max_self]
    exact ih h

/-- A cluster with the same number of threads in each run has this number as its count, whether
the score of the line is good or not. -/
theorem count_helper_of_inEachRun (hfit : LinearRegression fit) {n : ℕ} {col_x : Column}
    {line : ℚ × ℚ} (h : InEachRun cluster n)
    (hline : count_helper fit configs cluster col_x = some line) : line = (0, (n : ℚ)) := by
  obtain ⟨reg, hreg, rfl⟩ := Option.map_eq_some_iff.mp hline
  have hne : col_x.rows configs (counts cluster).entries ≠ [] := by
    intro hnil
    rw [hnil, hfit.nil] at hreg
    cases hreg
  have hlevel : ∀ p ∈ col_x.rows configs (counts cluster).entries, p.2 = n := by
    intro p hp
    obtain ⟨r, hr, heq⟩ := Column.exists_of_mem_rows hp
    rw [heq, count_of_inEachRun h hr]
  obtain ⟨reg', hreg', hcoef, hintercept⟩ := hfit.level _ n hne hlevel
  obtain rfl : reg = reg' := Option.some.inj (hreg.symm.trans hreg')
  split
  · rw [hcoef, hintercept]
  · -- the largest count is that of any run
    obtain ⟨p, hp⟩ := List.exists_mem_of_ne_nil _ hne
    obtain ⟨r, hr, -⟩ := Column.exists_of_mem_rows hp
    have hequal : ∀ x ∈ (counts cluster).entries.map Prod.snd, x = n := by
      intro x hx
      obtain ⟨r', hr', rfl⟩ := List.mem_map.mp hx
      exact count_of_inEachRun h hr'
    obtain ⟨x, rest, hrest⟩ := List.exists_cons_of_ne_nil
      (List.ne_nil_of_mem (List.mem_map_of_mem hr))
    rw [hrest] at hequal ⊢
    obtain ⟨rfl, hequal⟩ := List.forall_mem_cons.mp hequal
    rw [List.foldl_cons, Nat.zero_max, foldl_max_of_equal hequal]

theorem roundEven_natCast (n : ℕ) : roundEven (n : ℚ) = n := by
  unfold roundEven
  rw [Int.floor_natCast, if_pos (by norm_num)]

/-- The size that is read off a cluster with the same number of threads in each run. -/
theorem size_of_inEachRun (hfit : LinearRegression fit) {n : ℕ} {q : ℚ} (h : InEachRun cluster n)
    (hq : (count_helper fit configs cluster .reqs).map Prod.snd = some q) : roundEven q = n := by
  obtain ⟨line, hline, rfl⟩ := Option.map_eq_some_iff.mp hq
  rw [count_helper_of_inEachRun hfit h hline]
  exact roundEven_natCast n

/-- What the network model says was seen: threads that accept, and in one cluster threads that
send; epoll if the model has it, and if all threads of the cluster wait with it; and a descriptor
that is nonblocking, or blocking, as the model says. Both pools have their size if they have as
many threads in each run. -/
theorem network_model_was_seen (hfit : LinearRegression fit)
    (hids : ∀ cluster ∈ clusters.values, ∀ key ∈ cluster, key.ids.length = 2)
    (h : analyze fit configs ids_order (fun r => stap_result target (hits r)) clusters run_args
      main_pid = .ok model) :
    (∃ cluster ∈ clusters.values, (∃ key ∈ cluster, Did target hits key .conn_accept) ∧
      ∀ n, InEachRun cluster n → model.accept_thread_pool_size = n) ∧
    ∃ cluster ∈ clusters.values, (∃ key ∈ cluster, Did target hits key .tcp_send) ∧
      (model.network_epoll = true → ∃ key ∈ cluster, Did target hits key .epolls) ∧
      ((∀ key ∈ cluster, Did target hits key .epolls) → model.network_epoll = true) ∧
      (model.nonblocking = true →
        ∃ flags, FlagsSeen target hits cluster flags ∧ "O_NONBLOCK".toList <:+: flags) ∧
      (model.blocking = true →
        ∃ flags, FlagsSeen target hits cluster flags ∧ ¬ "O_NONBLOCK".toList <:+: flags) ∧
      ∀ n, model.network_epoll = true → InEachRun cluster n →
        model.network_thread_pool_size = n := by
  obtain ⟨characteristics, hcharacteristics, h⟩ := PyError.ok_of_bind h
  obtain ⟨⟨a, ha, habit, accepts, haccepts, hsize⟩, c, hc, hcbit, hpart⟩ := parts_of_analyze h
  obtain ⟨accepting, haccepting, freq, hfunctionality, hcount', -⟩ :=
    exists_cluster hcharacteristics ha
  obtain ⟨cluster, hcluster, freq', hfunctionality', hcount, hsettings⟩ :=
    exists_cluster hcharacteristics hc
  have hbits : ∀ {w : Work}, w ≠ .switched_off →
      (c.functionality &&& w.bit ≠ 0 → ∃ key ∈ cluster, Did target hits key w) ∧
        ((∀ key ∈ cluster, Did target hits key w) → c.functionality &&& w.bit ≠ 0) := fun hw =>
    functionality_bit target hits (hids cluster hcluster) hfunctionality' hw
  have hseen : ∀ {flags}, c.socket_settings = [flags] → FlagsSeen target hits cluster flags := by
    intro flags hflags
    apply flagsSeen_of_mem_settings target hits (hids cluster hcluster)
    rw [← hsettings, hflags]
    exact List.mem_singleton_self flags
  refine ⟨⟨accepting, haccepting, ?_, ?_⟩, cluster, hcluster, ?_, ?_, ?_, ?_, ?_, ?_⟩
  · exact (functionality_bit target hits (hids accepting haccepting) hfunctionality (by simp)).1 habit
  · intro n hn
    rw [hsize]
    exact size_of_inEachRun hfit hn (hcount'.symm.trans haccepts)
  · exact (hbits (w := .tcp_send) (by simp)).1 hcbit
  · intro hepoll
    exact (hbits (w := .epolls) (by simp)).1 (hpart.epoll.mp hepoll)
  · intro hall
    exact hpart.epoll.mpr ((hbits (w := .epolls) (by simp)).2 hall)
  · intro hnonblocking
    obtain ⟨flags, hflags, hset⟩ := hpart.nonblocking hnonblocking
    exact ⟨flags, hseen hflags, hset⟩
  · intro hblocking
    obtain ⟨flags, hflags, hset⟩ := hpart.blocking hblocking
    exact ⟨flags, hseen hflags, hset⟩
  · intro n hepoll hn
    obtain ⟨q, hq, hsize'⟩ := hpart.size hepoll
    rw [hsize']
    exact size_of_inEachRun hfit hn (hcount.symm.trans hq)

end Law

/-- A regression of rows with one count. The score of one row is no number. -/
def levelFit : List (ℚ × ℚ) → Option Fit
  | [] => none
  | [r] => some ⟨none, 0, r.2⟩
  | r :: _ => some ⟨some 1, 0, r.2⟩

theorem linearRegression_levelFit : LinearRegression levelFit where
  nil := rfl
  level
    | [], _, hne, _ => absurd rfl hne
    | [r], _, _, h => ⟨_, rfl, rfl, h r List.mem_cons_self⟩
    | r :: _ :: _, _, _, h => ⟨_, rfl, rfl, h r List.mem_cons_self⟩

/-- One thread accepts a client, and two others serve it with epoll. -/
def serverHits : List (Task × Hit) :=
  [(⟨1, 8, 0⟩, .accept 5)] ++ [9, 10].flatMap fun tid =>
    [(⟨1, tid, 0⟩, .epoll_wait),
      (⟨1, tid, 0⟩, .io .recv 5 0 64 [] ⟨.sock, "O_RDWR".toList, [], 2⟩),
      (⟨1, tid, 0⟩, .io .send 5 0 64 [] ⟨.sock, "O_RDWR".toList, [], 2⟩)]

/-- The accepting thread is clustered in the run with few requests only, and the others also in
the run with more. -/
def serverClusters : PyDict ℕ (List Key) :=
  (PyDict.single 0 [⟨1, 10, 1, [1, 8]⟩]).set 1 [⟨1, 10, 1, [1, 9]⟩, ⟨1, 10, 1, [1, 10]⟩,
    ⟨1, 20, 1, [1, 9]⟩, ⟨1, 20, 1, [1, 10]⟩]

theorem pools_of_one_and_two_were_seen :
    ∃ model, analyze levelFit ⟨1, 10, 1⟩ id (fun _ => stap_result 1 serverHits) serverClusters
        [(1, 10, 1), (1, 20, 1)] 8 = .ok model ∧ model.network_epoll = true ∧
      (∃ cluster ∈ serverClusters.values,
        (∃ key ∈ cluster, Did 1 (fun _ => serverHits) key .conn_accept) ∧
        ∀ n, InEachRun cluster n → model.accept_thread_pool_size = n) ∧
      model.accept_thread_pool_size = 1 ∧ model.network_thread_pool_size = 2 := by
  have hids : ∀ cluster ∈ serverClusters.values, ∀ key ∈ cluster, key.ids.length = 2 := by decide
  have hmodel : analyze levelFit ⟨1, 10, 1⟩ id (fun _ => stap_result 1 serverHits) serverClusters
      [(1, 10, 1), (1, 20, 1)] 8 =
      .ok ⟨false, true, true, false, false, 1, 2⟩ := by
    decide +kernel
  obtain ⟨haccept, -⟩ := network_model_was_seen 1 (fun _ => serverHits) linearRegression_levelFit
    hids hmodel
  exact ⟨_, hmodel, rfl, haccept, rfl, rfl⟩

end ditto.characterization
